import Lox.Proofs.Grammar.Programs
import Lox.Proofs.Grammar.Termination

/-!
The remainder of a program.

Behind every declaration the rest of a program is read as if it stood alone, apart from the faults
that were recorded before.  Bounds on recursion would stand in the way, because the rest of a long
program is read with larger ones than it would get by itself.  But a walk has none, and it follows
every reader whose bounds are enough, so all of these do the same.
-/

namespace Lox

open Grammar

namespace Reading

/-- Whether the tokens that are left stand in front of the first one that ends the list. -/
structure Ended (s : Reading) : Prop where
  stop : s.stop.kind = .eof
  rest : ∀ t ∈ s.rest, t.kind ≠ .eof

variable {s s' : Reading}

theorem Ended.later (hs : s.Ended) (h : s.Later s') : s'.Ended :=
  ⟨h.eof hs.stop, fun t ht => hs.rest t (h.rest.mem ht)⟩

theorem Ended.after (hs : s.Ended) {ts us : List Token} (hr : s.rest = ts ++ us) :
    (s.after us).Ended :=
  ⟨hs.stop, fun t ht => hs.rest t (hr ▸ List.mem_append_right ts ht)⟩

theorem ended_start (tokens : List Token) : (start tokens).Ended :=
  ⟨kind_stop tokens, fun _ => kind_of_mem_body⟩

theorem Ended.ahead_ne_eof (hs : s.Ended) (hrest : s.rest ≠ []) : s.ahead.kind ≠ .eof := by
  obtain ⟨t, ts, hr⟩ := List.exists_cons_of_ne_nil hrest
  rw [s.ahead_of_rest hr]
  exact hs.rest t (hr ▸ List.mem_cons_self)

/-- A walker in front of the tokens that are left. -/
def walker (s : Reading) : Walker := ⟨(s.rest ++ [s.stop]).toArray, 0, s.depth, s.errors⟩

theorem stands_walker (hs : s.Ended) : s.walker.Stands :=
  ⟨⟨s.stop, by simp [walker], hs.stop⟩, Nat.zero_le _⟩

theorem view_walker (hs : s.Ended) : s.walker.view = s := by
  have hdrop := (takeWhile_dropWhile_append hs.rest hs.stop []).2
  unfold walker Walker.view
  rw [List.drop_zero, List.toList_toArray, body_eq hs.rest hs.stop, Grammar.stop, hdrop]
  rfl

end Reading

/-- What a walk does leaves one way to end for those it follows. -/
theorem Walk.Ends.unique {α : Type} {s : Walker} {x : Option (Except ParseError α × Walker)}
    {y z : EStateM.Result ParseError Reading α} (hy : Walk.Ends s x y) (hz : Walk.Ends s x z) :
    y = z := by
  cases hy <;> cases hz <;> rfl

namespace Parser

variable {s s' : Reading} {m n : Nat}

/-- Two readers that one walk follows do the same. -/
theorem eq_of_tracks {α : Type} {p : Walk α} {q q' : Parser α} (hs : s.Ended)
    (hm : s.rest.length ≤ m) (hn : s.rest.length ≤ n)
    (h : Walk.Tracks Walk.Anywhere m p q) (h' : Walk.Tracks Walk.Anywhere n p q') :
    q s = q' s := by
  have hview := s.view_walker hs
  have hq := h s.walker (s.stands_walker hs) (hview.symm ▸ hm) trivial
  have hq' := h' s.walker (s.stands_walker hs) (hview.symm ▸ hn) trivial
  rw [hview] at hq hq'
  exact hq.unique hq'

theorem declarations_bound {ends : Kind → Bool} (hends : ends .eof = true) (hs : s.Ended)
    {j k : Nat} (hm : s.rest.length ≤ m) (hj : s.rest.length ≤ j) (hn : s.rest.length ≤ n)
    (hk : s.rest.length ≤ k) :
    declarations ends (declaration m) j s = declarations ends (declaration n) k s :=
  eq_of_tracks hs (Nat.le_refl _) (Nat.le_refl _)
    (Walk.tracks_declarations (Walk.tracks_both m).2 hends hj hm)
    (Walk.tracks_declarations (Walk.tracks_both n).2 hends hk hn)

end Parser

namespace Grammar

variable {s s' : Reading} {m n : Nat}

/-- Reads everything that is left. -/
def remainder (s : Reading) : Parse :=
  match Parser.declarations (· == .eof) (Parser.declaration s.rest.length) s.rest.length s with
  | .ok statements s' => ⟨statements, s'.errors⟩
  | .error e s' => ⟨[], s'.errors ++ [e]⟩

/-- A program is all that is left in front of it. -/
theorem parse_eq_remainder (tokens : List Token) : parse tokens = remainder (start tokens) := rfl

theorem remainder_of_nil (h : s.rest = []) : remainder s = ⟨[], s.errors⟩ := by
  unfold remainder
  rw [h]
  rfl

theorem remainder_of_declarations (hs : s.Ended) (hn : s.rest.length ≤ n)
    (hm : s.rest.length ≤ m) {ss : List Stmt}
    (h : Parser.declarations (· == .eof) (Parser.declaration n) m s = .ok ss s') :
    remainder s = ⟨ss, s'.errors⟩ := by
  unfold remainder
  rw [Parser.declarations_bound rfl hs (Nat.le_refl _) (Nat.le_refl _) hn hm, h]

/-- What is left behind the first declaration is the rest of the program. -/
theorem remainder_step (hs : s.Ended) (hrest : s.rest ≠ []) (hn : s.rest.length ≤ n)
    {first? : Option Stmt} (hfirst : Parser.declaration n s = .ok first? s') :
    remainder s =
      ⟨first?.toList ++ (remainder s').statements, (remainder s').errors⟩ := by
  have hlater := (Parser.sound_declaration n s hs.stop).later hfirst
  have hlength := hlater.rest.length_le
  obtain ⟨others, s'', hothers⟩ :=
    Parser.declarations_returns (· == .eof) n s.rest.length s'
  have hgo : ¬(s.ahead.kind == .eof) = true := by simpa using hs.ahead_ne_eof hrest
  have hrun : Parser.declarations (· == .eof) (Parser.declaration n) (s.rest.length + 1) s =
      .ok (first?.toList ++ others) s'' := by
    rw [Parser.declarations_succ, Parser.bind_of_ok (Parser.peek_apply s), if_neg hgo,
      Parser.bind_of_ok hfirst, Parser.bind_of_ok hothers]
    rfl
  rw [remainder_of_declarations hs hn (Nat.le_succ _) hrun,
    remainder_of_declarations (hs.later hlater) (Nat.le_trans hlength hn) hlength hothers]

/-! ## Behind a program -/

/-- Declarations are read as they are derived, and nothing of them is left in what is read behind
them.  Only an `else` could still belong to the last of them. -/
theorem remainder_of_derives {inside : Bool} {us : List Token} :
    ∀ {ts : List Token} {ss : List Stmt}, Declarations nearestIf inside ts ss →
      ∀ {s : Reading}, s.Ended → s.rest = ts ++ us → (inside = true → s.inside = true) →
        (s.after us).ahead.kind ≠ .kwElse →
        remainder s =
          ⟨ss ++ (remainder (s.after us)).statements, (remainder (s.after us)).errors⟩
  | _, _, .nil, s, _, hr, _, _ => by
    rw [Parser.rest_eq_of_nil hr]
    rfl
  | _, _, @Declarations.cons _ _ ts vs st ss h hs, s, hend, hr, hin, helse => by
    rw [List.append_assoc] at hr
    have hrest : s.rest ≠ [] := by
      have hpos := h.starts.length_pos
      rw [← List.length_pos_iff, hr, List.length_append]
      omega
    have hnext : (s.after (vs ++ us)).ahead.kind ≠ .kwElse := by
      cases hs with
      | nil => exact helse
      | cons h' _ =>
        rw [List.append_assoc]
        exact Parser.ne_of_starts h'.starts rfl (by decide)
    have hfirst := Parser.complete_declaration _ h hr (Nat.le_refl _) hin hnext
    rw [remainder_step hend hrest (Nat.le_refl _) hfirst,
      remainder_of_derives hs (hend.after hr) rfl hin helse]
    rfl

theorem start_append {ts : List Token} (hts : ∀ t ∈ ts, t.kind ≠ .eof) (us : List Token) :
    start (ts ++ us) = ⟨ts ++ body us, stop us, 0, []⟩ := by
  have hall : ∀ t ∈ ts, (t.kind != .eof) = true := fun t ht => by simpa using hts t ht
  unfold start body stop
  rw [List.takeWhile_append_of_pos hall, List.dropWhile_append_of_pos hall]

theorem start_ended {ts : List Token} {e : Token} (hts : ∀ t ∈ ts, t.kind ≠ .eof)
    (he : e.kind = .eof) : start (ts ++ [e]) = ⟨ts, e, 0, []⟩ := by
  rw [start_append hts]
  unfold body stop
  simp [he]

theorem ahead_start (tokens : List Token) :
    (start tokens).ahead = tokens.headD default := by
  cases tokens with
  | nil => rfl
  | cons t ts =>
    unfold start body stop Reading.ahead
    rw [List.takeWhile_cons, List.dropWhile_cons]
    split <;> rfl

/-- What stands behind a program without faults is read as if it stood alone, whatever faults there
are in it, unless it starts with an `else`. -/
theorem parse_append_of_clean {ts us : List Token} {e : Token} (hts : ∀ t ∈ ts, t.kind ≠ .eof)
    (he : e.kind = .eof) (hclean : (parse (ts ++ [e])).errors = [])
    (helse : ∀ t, us.head? = some t → t.kind ≠ .kwElse) :
    parse (ts ++ us) =
      ⟨(parse (ts ++ [e])).statements ++ (parse us).statements, (parse us).errors⟩ := by
  have hderives := nearest_of_parse hclean
  rw [body_eq hts he] at hderives
  have hstart := start_append hts us
  have hahead : (start us).ahead.kind ≠ .kwElse := by
    rw [ahead_start]
    cases us with
    | nil => exact nofun
    | cons t us => exact helse t rfl
  have hbehind : (start (ts ++ us)).after (body us) = start us := by
    rw [hstart]
    rfl
  have hremainder := remainder_of_derives hderives (Reading.ended_start (ts ++ us))
    (congrArg Reading.rest hstart) (fun hin => nomatch hin) (hbehind ▸ hahead)
  rw [hbehind] at hremainder
  exact hremainder

/-- An `if` whose `else` would have been the next token stands in front of a fault. -/
theorem parse_append_of_clean_branch :
    let condition : Token := ⟨.bare .identifier, "x", 1, 5⟩
    let semicolon : Token := ⟨.bare .semicolon, ";", 1, 9⟩
    let right : Token := ⟨.bare .rightParen, ")", 1, 6⟩
    let stray : Token := ⟨.bare .rightParen, ")", 2, 1⟩
    let stop : Token := ⟨.bare .eof, "", 2, 5⟩
    let ts := [⟨.bare .kwIf, "if", 1, 1⟩, ⟨.bare .leftParen, "(", 1, 4⟩, condition, right,
      condition, semicolon]
    let us := [stray, semicolon, condition, semicolon, stop]
    (∀ t ∈ ts, t.kind ≠ .eof) ∧ stop.kind = .eof ∧ (parse (ts ++ [stop])).errors = [] ∧
      (∀ t, us.head? = some t → t.kind ≠ .kwElse) ∧
      parse us = ⟨[.expression (.variable condition)], [⟨stray, .missingExpression⟩]⟩ ∧
      parse (ts ++ us) =
        ⟨[.branch (.variable condition) (.expression (.variable condition)) none,
          .expression (.variable condition)], [⟨stray, .missingExpression⟩]⟩ := by
  intro condition semicolon right stray stop ts us
  have hts : ∀ t ∈ ts, t.kind ≠ .eof := by
    simp only [ts, List.forall_mem_cons]
    decide
  have hclean : (parse (ts ++ [stop])).errors = [] := rfl
  have helse : ∀ t, us.head? = some t → t.kind ≠ .kwElse := by
    rintro t ⟨⟩
    decide
  exact ⟨hts, rfl, hclean, helse, rfl, parse_append_of_clean hts rfl hclean helse⟩

end Grammar
end Lox
