import Mathlib
import Lox.Proofs.Grammar.Extents
import Lox.Proofs.Grammar.Remainder
import Lox.Proofs.Source.Joining

/-!
The order of faults in a source text.

The tokens of a source text stand in it one behind the other.  So the faults of a program are
blamed on later and later tokens, as far as each is recorded where it is found.  What is reported
behind its place is that something cannot be assigned to: first comes what is wrong with the value.
-/

namespace Lox

/-! ## Places of tokens -/

namespace Position

/-- Lines come first, and columns within a line. -/
instance : LinearOrder Position :=
  LinearOrder.lift' (fun p => toLex (p.line, p.column)) fun p q h => by
    cases p
    cases q
    cases h
    rfl

variable {p q : Position}

theorem lt_iff : p < q ↔ p.line < q.line ∨ p.line = q.line ∧ p.column < q.column :=
  Prod.Lex.toLex_lt_toLex

theorem line_le_of_le (h : p ≤ q) : p.line ≤ q.line := by
  rcases h.lt_or_eq with hlt | rfl
  · rcases lt_iff.mp hlt with hline | ⟨hline, -⟩
    · exact hline.le
    · exact hline.le
  · exact le_rfl

theorem lt_step (p : Position) (c : Char) : p < p.step c := by
  rw [lt_iff]
  unfold step
  split
  · exact .inl (Nat.lt_succ_self _)
  · exact .inr ⟨rfl, Nat.lt_add_of_pos_right c.utf8Size_pos⟩

theorem le_advance (p : Position) (text : List Char) : p ≤ p.advance text := by
  induction text generalizing p with
  | nil => exact le_rfl
  | cons c text ih => exact (p.lt_step c).le.trans (ih _)

theorem lt_advance (p : Position) {text : List Char} (h : text ≠ []) : p < p.advance text := by
  obtain ⟨c, more, rfl⟩ := List.exists_cons_of_ne_nil h
  exact (p.lt_step c).trans_le (le_advance _ more)

end Position

def Token.place (t : Token) : Position := ⟨t.line, t.column⟩

/-- Whether the tokens stand one behind the other. -/
def InOrder (tokens : List Token) : Prop := tokens.Pairwise fun t u => t.place < u.place

namespace Scan

theorem le_place {p : Position} {text : List Char} :
    ∀ t ∈ (ofText p text).tokens, p ≤ t.place := by
  induction p, text using ofText.induct with
  | case1 p =>
    rw [ofText]
    exact List.forall_mem_singleton.mpr le_rfl
  | case2 p c rest k stop ih =>
    have hbehind : ∀ t ∈ (ofText stop k.rest).tokens, p ≤ t.place :=
      fun t ht => (p.le_advance k.text).trans (ih t ht)
    rw [ofText]
    cases hpiece : (cut c rest).piece with
    | token form => exact List.forall_mem_cons.mpr ⟨le_rfl, hbehind⟩
    | layout | unexpected | unterminated => exact hbehind

theorem inOrder (p : Position) (text : List Char) : InOrder (ofText p text).tokens := by
  induction p, text using ofText.induct with
  | case1 p =>
    rw [ofText]
    exact List.pairwise_singleton _ _
  | case2 p c rest k stop ih =>
    rw [ofText]
    cases hpiece : (cut c rest).piece with
    | token form =>
      refine List.pairwise_cons.mpr ⟨fun t ht => ?_, ih⟩
      exact (p.lt_advance (cut_covers c rest).1).trans_le (le_place t ht)
    | layout | unexpected | unterminated => exact ih

end Scan

/-- What is left later starts later. -/
theorem InOrder.place_le {ts us vs : List Token} {stop : Token} (h : InOrder (ts ++ [stop]))
    (hus : us <:+ ts) (hvs : vs <:+ us) : (us.headD stop).place ≤ (vs.headD stop).place := by
  obtain ⟨before, rfl⟩ := hus
  obtain ⟨between, rfl⟩ := hvs
  unfold InOrder at h
  rw [List.append_assoc, List.append_assoc] at h
  have hthere := (List.pairwise_append.mp h).2.1
  cases between with
  | nil => exact le_rfl
  | cons t between =>
    have hhere := (List.pairwise_cons.mp hthere).1
    refine (hhere _ (List.mem_append_right between ?_)).le
    cases vs with
    | nil => exact List.mem_singleton_self stop
    | cons u vs => exact List.mem_cons_self

/-! ## Values -/

/-- Whether a token belongs to a value that is read behind a sign of assignment. -/
def Assigned (tokens : List Token) (sign t : Token) : Prop :=
  ∃ before value behind stop, tokens = before ++ sign :: (value ++ behind ++ [stop]) ∧
    sign.kind = .equal ∧ t ∈ value ∧
    ∃ bound s e s', Parser.assignment bound s = .ok e s' ∧ s.stop = stop ∧
      s.rest = value ++ behind ∧ s'.rest = behind

namespace Finding

variable {stop : Token} {tokens : List Token} {f g : Finding}

theorem mem_value {value : List Token} (hf : f.Sound stop) (h : g.Around f)
    (hvalue : g.blamed.tail = value ++ g.left) : f.error.token ∈ value := by
  obtain ⟨taken, htaken⟩ : g.left <:+ f.blamed := h.inside.trans hf.extent
  obtain ⟨before, hbefore⟩ := h.behind_sign
  rw [hvalue, ← htaken, ← List.append_assoc] at hbefore
  have hlength := h.taken
  rw [← htaken, List.length_append] at hlength
  have hne : taken ≠ [] := List.ne_nil_of_length_pos (by omega)
  obtain ⟨t, more, rfl⟩ := List.exists_cons_of_ne_nil hne
  rw [hf.token, ← htaken, ← List.append_cancel_right hbefore]
  exact List.mem_append_right before List.mem_cons_self

theorem assigned {ts : List Token} (hgs : g.blamed <:+ ts) (hf : f.Sound stop) (hg : g.Sound stop)
    (h : g.Around f) : Assigned (ts ++ [stop]) g.error.token f.error.token := by
  obtain ⟨before, rfl⟩ := hgs
  obtain ⟨hsign, bound, s, e, s', hrun, hstop, hblamed, hleft⟩ := hg.assigns h.fault
  have hinside := h.behind_sign
  rw [hblamed, List.tail_cons] at hinside
  obtain ⟨value, hvalue⟩ : g.left <:+ s.rest := h.inside.trans (hf.extent.trans hinside)
  refine ⟨before, value, g.left, stop, ?_, hsign, ?_, bound, s, e, s', hrun, hstop, hvalue.symm,
    hleft⟩
  · rw [hblamed, hvalue, List.append_assoc, List.cons_append]
  · exact mem_value hf h (by rw [hblamed, List.tail_cons, hvalue])

/-- A fault that is recorded behind another one is blamed on a later token, or on the sign of
assignment in front of the value that the other one is in. -/
theorem Ordered.place_le {ts : List Token} (h : f.Ordered g) (hts : InOrder (ts ++ [stop]))
    (hfs : f.blamed <:+ ts) (hgs : g.blamed <:+ ts) (hf : f.Sound stop) (hg : g.Sound stop) :
    f.error.token.place ≤ g.error.token.place ∨
      g.error.fault = .invalidAssignmentTarget ∧
        Assigned (ts ++ [stop]) g.error.token f.error.token := by
  rcases h with hbehind | haround
  · rw [hf.token, hg.token]
    exact .inl (hts.place_le hfs (hbehind.trans hf.extent))
  · exact .inr ⟨haround.fault, assigned hgs hf hg haround⟩

end Finding

/-- The faults of a program come in the order of the tokens that they are blamed on, and so of their
lines.  Only that something cannot be assigned to comes behind what is wrong with the value. -/
theorem faults_in_order (source : String) :
    let tokens := (scan source).tokens
    InOrder tokens ∧ (parse tokens).errors.Pairwise fun e e' =>
      e.token.place ≤ e'.token.place ∧ e.diagnostic.line ≤ e'.diagnostic.line ∨
        e'.fault = .invalidAssignmentTarget ∧ Assigned tokens e'.token e.token := by
  intro tokens
  obtain ⟨ts, stop, htokens, hstop, hts⟩ := Scan.tokens_eq .start source.toList
  have horder : InOrder tokens := Scan.inOrder _ _
  have hstart : Grammar.start tokens = ⟨ts, stop, 0, []⟩ :=
    (congrArg Grammar.start htokens).trans (Grammar.start_ended hts hstop)
  obtain ⟨fs, herrors, hsound, hblamed, hordered⟩ := Grammar.exists_findings tokens
  rw [show Grammar.stop tokens = stop from congrArg Reading.stop hstart] at hsound
  rw [show Grammar.body tokens = ts from congrArg Reading.rest hstart] at hblamed
  refine ⟨horder, ?_⟩
  rw [herrors, List.pairwise_map]
  refine hordered.imp_of_mem fun hf hg h => ?_
  rw [show tokens = ts ++ [stop] from htokens] at horder ⊢
  exact (h.place_le horder (hblamed _ hf) (hblamed _ hg) (hsound _ hf) (hsound _ hg)).imp_left
    fun hle => ⟨hle, Position.line_le_of_le hle⟩

/-- The sign on the first line is reported behind the one on the second. -/
theorem lines_decrease : ¬∀ source : String,
    (parse (scan source).tokens).errors.Pairwise fun e e' =>
      e.diagnostic.line ≤ e'.diagnostic.line := by
  intro h
  have hlines : (parse (scan "nil =\nnil = nil;").tokens).errors.map (·.diagnostic.line) =
      [2, 1] := by
    cbv
  have hsorted := List.pairwise_map.mpr (h "nil =\nnil = nil;")
  rw [hlines] at hsorted
  revert hsorted
  decide

end Lox
