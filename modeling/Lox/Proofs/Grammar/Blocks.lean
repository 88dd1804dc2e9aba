import Lox.Proofs.Grammar.Bodies

/-!
Blocks with faults inside.

Recovery passes a closing brace like any other token.  So a fault stays inside of its block as long
as recovery ends in front of the brace: the last token of the body is a semicolon, and no fault
breaks off behind it.
-/

namespace Lox

open Grammar

namespace Grammar

namespace Enclosure

variable {w : Enclosure}

/-- Whether nothing, or a semicolon, stands in front of the closing brace. -/
def Settled (w : Enclosure) : Prop := ∀ t ∈ w.body.getLast?, t.kind = .semicolon

/-- Whether recovery comes nowhere to the closing brace, when `alone` is what the body is by
itself. -/
def Contains (w : Enclosure) (alone : Parse) : Prop :=
  w.Settled ∧ ∀ e ∈ alone.errors, e.token.kind ≠ .eof

theorem settled_iff {t : Token} {ts : List Token} (h : t :: ts <:+ w.body) :
    w.Settled ↔ (ts.getLastD t).kind = .semicolon := by
  obtain ⟨us, hus⟩ := h
  unfold Settled
  rw [← hus, List.getLast?_append, List.getLast?_cons, Option.some_or]
  simp

theorem exists_behind (w : Enclosure) : ∃ t ts, w.behind = t :: ts ∧ t.kind = .rightBrace := by
  have hclosed := w.closed
  cases hb : w.behind with
  | nil =>
    rw [hb, List.headD_nil, w.stop_eof] at hclosed
    cases hclosed
  | cons t ts =>
    rw [hb] at hclosed
    exact ⟨t, ts, rfl, hclosed⟩

end Enclosure

end Grammar

namespace Parser

variable {s : Reading} {w : Enclosure}

/-! ## Recovery -/

theorem resume_append_of_ne_nil {previous : Token} {ts : List Token}
    (h : resume previous ts ≠ []) (us : List Token) :
    resume previous (ts ++ us) = resume previous ts ++ us := by
  induction ts generalizing previous with
  | nil => exact absurd rfl h
  | cons t ts ih =>
    rw [resume] at h
    rw [List.cons_append, resume, resume]
    split
    · rfl
    · next hgo => exact ih (by rwa [if_neg hgo] at h)

/-- Recovery that has not ended goes on. -/
theorem resume_append_of_nil {previous : Token} {ts : List Token} (h : resume previous ts = [])
    (us : List Token) : resume previous (ts ++ us) = resume (ts.getLastD previous) us := by
  induction ts generalizing previous with
  | nil => rfl
  | cons t ts ih =>
    rw [resume] at h
    rw [List.cons_append, resume, List.getLastD_cons]
    split
    · next hends => exact absurd (by rwa [if_pos hends] at h) (List.cons_ne_nil t ts)
    · next hgo => exact ih (by rwa [if_neg hgo] at h)

/-- Recovery that has come to the brace passes it. -/
theorem resume_behind_suffix {previous : Token} (h : previous.kind ≠ .semicolon) (w : Enclosure) :
    resume previous w.behind <:+ w.behind.tail := by
  obtain ⟨t, ts, hb, ht⟩ := w.exists_behind
  rw [hb, resume, if_neg (by simp [h, ht, Kind.startsStatement])]
  exact resume_suffix t ts

theorem dropToBoundary_behind_suffix (w : Enclosure) :
    dropToBoundary w.behind <:+ w.behind.tail := by
  obtain ⟨t, ts, hb, -⟩ := w.exists_behind
  rw [hb]
  exact resume_suffix t ts

/-- What is left in a block when a declaration has been read or given up there. -/
inductive Leaves (w : Enclosure) (first? : Option Stmt) (s' : Reading) :
    EStateM.Result ParseError Reading (Option Stmt) → Prop
  | inside : s'.InBody w → (s'.rest = [] → w.Settled) →
      Leaves w first? s' (.ok first? (s'.within w.toSurroundings))
  /-- The brace has been passed. -/
  | beyond {t : Reading} : s'.rest = [] → (w.Settled → ∃ e ∈ s'.errors, e.token.kind = .eof) →
      t.rest <:+ w.behind.tail → t.stop = w.stop → Leaves w first? s' (.ok none t)

/-- Recovery from a fault in the body ends there, or it passes the brace. -/
theorem leaves_dropped (hs : s.InBody w) (hr : s.rest ≠ []) :
    Leaves w none (s.after (dropToBoundary s.rest))
      (.ok none ((s.within w.toSurroundings).after (dropToBoundary (s.rest ++ w.behind)))) := by
  obtain ⟨t, ts, hts⟩ := List.exists_cons_of_ne_nil hr
  have hrest : t :: ts <:+ w.body := hts ▸ hs.rest
  have hsettled := Enclosure.settled_iff hrest
  rw [hts, List.cons_append, dropToBoundary, dropToBoundary]
  by_cases hpast : resume t ts = []
  · rw [resume_append_of_nil hpast, hpast]
    by_cases hlast : (ts.getLastD t).kind = .semicolon
    · rw [resume_of_semicolon hlast]
      exact .inside ⟨hs.stop, List.nil_suffix, hs.inside⟩ fun _ => hsettled.mpr hlast
    · exact .beyond rfl (fun h => absurd (hsettled.mp h) hlast) (resume_behind_suffix hlast w) rfl
  · rw [resume_append_of_ne_nil hpast]
    have hsuffix : resume t ts <:+ w.body :=
      (resume_suffix t ts).trans ((List.suffix_cons t ts).trans hrest)
    exact .inside ⟨hs.stop, hsuffix, hs.inside⟩ fun h => absurd h hpast

theorem leaves_recovering {p : Parser Stmt} (hp : Keeps w (Reading.BehindSemicolon w) s p) :
    ∃ first? s', recovering p s = .ok first? s' ∧
      Leaves w first? s' (recovering p (s.within w.toSurroundings)) := by
  unfold Keeps at hp
  unfold recovering
  generalize p s = x at hp ⊢
  generalize p (s.within w.toSurroundings) = y at hp ⊢
  cases hp with
  | ok h =>
    refine ⟨_, _, rfl, .inside h.toInBody fun hr => ?_⟩
    obtain ⟨ts, t, hbody, ht⟩ := h.semicolon
    have hlast : [t] <:+ w.body := ⟨ts, by rw [hbody, hr]⟩
    exact (Enclosure.settled_iff hlast).mpr ht
  | @error e s₁ hs hr he =>
    refine ⟨_, _, rfl, ?_⟩
    have hleaves := leaves_dropped (hs.record he) hr
    rwa [← Reading.record_within] at hleaves
  | @stopped e e' s₁ t hr he ht ht' =>
    refine ⟨_, _, rfl, .beyond ?_ (fun _ => ?_) ?_ ht'⟩
    · show dropToBoundary s₁.rest = []
      rw [hr]
      rfl
    · exact ⟨e, List.mem_append_right _ (List.mem_singleton_self e), he⟩
    · show dropToBoundary t.rest <:+ _
      rw [ht]
      exact dropToBoundary_behind_suffix w

theorem leaves_declaration (n : Nat) (hs : s.InBody w) : ∃ first? s',
    declaration n s = .ok first? s' ∧
      Leaves w first? s' (declaration n (s.within w.toSurroundings)) := by
  cases n with
  | zero => exact leaves_recovering (.missingExpression hs)
  | succ n =>
    exact leaves_recovering
      (keeps_declarationOf (fun _ => keeps_statement n) (n + 1) (declaration n) hs)

/-! ## Blocks -/

theorem declarations_of_ends {ends : Kind → Bool} (h : ends s.ahead.kind = true)
    (declaration : Parser (Option Stmt)) (k : Nat) :
    declarations ends declaration k s = .ok [] s := by
  cases k with
  | zero => rfl
  | succ k => rw [declarations_succ, bind_of_ok (peek_apply s), if_pos h]; rfl

/-- The kinds of tokens in front of which the declarations of a block end. -/
abbrev blockEnds (k : Kind) : Bool := k == .rightBrace || k == .eof

theorem not_blockEnds : ∀ {k : Kind}, k ∉ nesting → ¬blockEnds k = true := by
  intro k
  cases k <;> decide

/-- What becomes of a block's body within the block, when `alone` is what it is by itself. -/
inductive Enclosed (w : Enclosure) (depth : Nat) (alone : Parse) :
    EStateM.Result ParseError Reading (List Stmt) → Prop
  | contained : w.Contains alone →
      Enclosed w depth alone (.ok alone.statements (w.beyond depth alone.errors))
  /-- The brace has been passed. -/
  | lost {ss : List Stmt} {t : Reading} : ¬w.Contains alone →
      (w.behind.tail = [] → t.rest = [] ∧ t.stop = w.stop) → Enclosed w depth alone (.ok ss t)

theorem enclosed_of_nil (hs : s.InBody w) (hr : s.rest = []) (hsettled : w.Settled)
    (declaration : Parser (Option Stmt)) (k : Nat) :
    Enclosed w s.depth (remainder s)
      (declarations blockEnds declaration k (s.within w.toSurroundings)) := by
  have hends : blockEnds (s.within w.toSurroundings).ahead.kind = true := by
    rw [Reading.kind_ahead_within hr]
    rfl
  rw [declarations_of_ends hends, remainder_of_nil hr]
  have hbeyond : s.within w.toSurroundings = w.beyond s.depth s.errors := by
    rw [Reading.within, hr]
    rfl
  rw [hbeyond]
  exact .contained ⟨hsettled, hs.inside⟩

/-- Declarations in a block go on as by themselves while recovery does not pass the brace. -/
theorem enclosed_declarations {n k : Nat} (hs : s.InBody w) (hsettled : s.rest = [] → w.Settled)
    (hn : s.rest.length ≤ n) (hk : s.rest.length ≤ k) :
    Enclosed w s.depth (remainder s)
      (declarations blockEnds (declaration n) k (s.within w.toSurroundings)) := by
  -- What a declaration leaves of the body is shorter, whether it was read or given up.
  induction k generalizing s with
  | zero =>
    have hr := List.length_eq_zero_iff.mp (Nat.le_zero.mp hk)
    exact enclosed_of_nil hs hr (hsettled hr) _ _
  | succ k ih =>
    by_cases hr : s.rest = []
    · exact enclosed_of_nil hs hr (hsettled hr) _ _
    obtain ⟨first?, s', hfirst, hleaves⟩ := leaves_declaration n hs
    have hlater := (sound_declaration n s hs.stop).later hfirst
    have hshorter := takes_declaration n hs.stop hr _ _ hfirst
    have hgo : ¬blockEnds (s.within w.toSurroundings).ahead.kind = true := by
      rw [Reading.ahead_within hr]
      exact not_blockEnds (hs.ahead_not_mem hr)
    rw [declarations_succ, bind_of_ok (peek_apply _), if_neg hgo,
      remainder_step hs.ended hr hn hfirst]
    generalize hdeclaration : declaration n (s.within w.toSurroundings) = result at hleaves
    cases hleaves with
    | inside hin hsettled =>
      have henclosed := ih hin hsettled (by omega) (by omega)
      rw [bind_of_ok hdeclaration, ← hlater.depth, bind_apply]
      generalize declarations _ _ _ _ = others at henclosed
      cases henclosed with
      | contained h => exact .contained h
      | lost h ht => exact .lost h ht
    | @beyond t hr' hstopped hsuffix hstop =>
      -- By itself the body is at its end, and in the block the tokens behind it are read.
      obtain ⟨others, t', hothers⟩ := declarations_returns blockEnds n k t
      rw [bind_of_ok hdeclaration, bind_of_ok hothers, remainder_of_nil hr']
      refine .lost (fun h => ?_) fun hnone => ?_
      · obtain ⟨e, he, heof⟩ := hstopped h.1
        exact h.2 e he heof
      · have hrest : t.rest = [] := List.suffix_nil.mp (hnone ▸ hsuffix)
        have hends : blockEnds t.ahead.kind = true := by
          rw [Reading.ahead, hrest, List.headD_nil, hstop, w.stop_eof]
          rfl
        rw [declarations_of_ends hends] at hothers
        cases hothers
        exact ⟨hrest, hstop⟩

theorem block_of_ok {bound : Nat} {declaration : Parser (Option Stmt)} {ss : List Stmt}
    {s' : Reading} (h : declarations blockEnds declaration bound s = .ok ss s')
    (hend : s'.ahead.kind = .rightBrace) : block bound declaration s = .ok ss s'.next := by
  unfold block
  rw [bind_of_ok h, bind_of_ok (expect_of_eq hend)]
  rfl

theorem block_of_open {bound : Nat} {declaration : Parser (Option Stmt)} {ss : List Stmt}
    {s' : Reading} (h : declarations blockEnds declaration bound s = .ok ss s')
    (hend : s'.ahead.kind ≠ .rightBrace) :
    block bound declaration s = .error ⟨s'.ahead, .missing .afterBlock⟩ s' := by
  unfold block
  rw [bind_of_ok h, bind_apply, expect_of_ne hend]

theorem declarationOf_block {bound : Nat} {statement : Parser Stmt}
    {declaration : Parser (Option Stmt)} (h : s.ahead.kind = .leftBrace) :
    declarationOf bound statement declaration s =
      (block bound declaration >>= fun ss => pure (.block ss)) s.next := by
  unfold declarationOf
  rw [bind_of_ok (peek_apply s)]
  simp only [h]
  unfold statementOf
  rw [bind_of_ok (peek_apply s)]
  simp only [h]
  rfl

theorem declaration_of_block {n : Nat} {ss : List Stmt} {s' : Reading}
    (hs : s.ahead.kind = .leftBrace) (h : block (n + 1) (declaration n) s.next = .ok ss s') :
    declaration (n + 1) s = .ok (some (.block ss)) s' := by
  show recovering (declarationOf (n + 1) (statement n) (declaration n)) s = _
  unfold recovering
  rw [declarationOf_block hs, bind_of_ok h]
  rfl

theorem declaration_of_open {n : Nat} {e : ParseError} {s' : Reading}
    (hs : s.ahead.kind = .leftBrace) (h : block (n + 1) (declaration n) s.next = .error e s') :
    declaration (n + 1) s = .ok none ((s'.record e).after (dropToBoundary s'.rest)) := by
  show recovering (declarationOf (n + 1) (statement n) (declaration n)) s = _
  unfold recovering
  rw [declarationOf_block hs, bind_apply, h]
  rfl

end Parser

namespace Grammar

/-- Declarations without faults are read as by themselves behind whatever faults. -/
theorem remainder_of_clean {ts : List Token} {stop : Token} (hts : ∀ t ∈ ts, t.kind ≠ .eof)
    (hstop : stop.kind = .eof) (hclean : (parse (ts ++ [stop])).errors = [])
    (errors : List ParseError) :
    remainder ⟨ts, stop, 0, errors⟩ = ⟨(parse (ts ++ [stop])).statements, errors⟩ := by
  have hderives := nearest_of_parse hclean
  rw [body_eq hts hstop] at hderives
  have helse : ((Reading.mk ts stop 0 errors).after []).ahead.kind ≠ .kwElse := by
    show stop.kind ≠ _
    rw [hstop]
    decide
  rw [remainder_of_derives hderives ⟨hstop, hts⟩ (List.append_nil ts).symm
    (fun hin => by cases hin) helse, remainder_of_nil rfl, List.append_nil]
  rfl

/-- A fault is blamed on a token of the program, or on the end. -/
theorem token_mem_of_errors {ts : List Token} {stop : Token} (hts : ∀ t ∈ ts, t.kind ≠ .eof)
    (hstop : stop.kind = .eof) {e : ParseError} (he : e ∈ (parse (ts ++ [stop])).errors)
    (hkind : e.token.kind ≠ .eof) : e.token ∈ ts := by
  obtain ⟨fs, herrors, hsound, hblamed, -⟩ := exists_findings (ts ++ [stop])
  rw [herrors] at he
  obtain ⟨f, hf, rfl⟩ := List.mem_map.mp he
  have hsuffix := hblamed f hf
  have htoken := (hsound f hf).token
  rw [body_eq hts hstop] at hsuffix
  cases hb : f.blamed with
  | nil =>
    rw [hb, List.headD_nil] at htoken
    exact absurd (htoken ▸ kind_stop _) hkind
  | cons t us =>
    rw [hb, List.headD_cons] at htoken
    exact htoken ▸ hsuffix.mem (hb ▸ List.mem_cons_self)

section Blocks

variable {w : Enclosure}

theorem enclosed_body (hbefore : w.before = []) {n k : Nat} (hn : w.body.length ≤ n)
    (hk : w.body.length ≤ k) :
    Parser.Enclosed w 0 (parse (w.body ++ [w.stop])) (Parser.declarations Parser.blockEnds
      (Parser.declaration n) k ⟨w.body ++ w.behind, w.stop, 0, []⟩) := by
  have hbody : ∀ t ∈ w.body, t.kind ≠ .eof := fun t ht he => w.plain t ht (by rw [he]; decide)
  let s : Reading := ⟨w.body, w.stop, 0, []⟩
  have hs : s.InBody w := ⟨w.stop_eof, List.suffix_refl _, List.forall_mem_nil _⟩
  have hsettled : s.rest = [] → w.Settled := by
    intro hnil t ht
    rw [show w.body = [] from hnil] at ht
    cases ht
  have h := Parser.enclosed_declarations hs hsettled hn hk
  have hwithin : s.within w.toSurroundings = ⟨w.body ++ w.behind, w.stop, 0, []⟩ := by
    rw [Reading.within, hbefore]
    rfl
  rw [hwithin] at h
  rw [parse_eq_remainder, start_ended hbody w.stop_eof]
  exact h

variable {left : Token} (hleft : left.kind = .leftBrace)
include hleft

theorem parse_block_step {first? : Option Stmt} {s' : Reading}
    (h : Parser.declaration ((w.body ++ w.behind).length + 1)
      ⟨left :: (w.body ++ w.behind), w.stop, 0, []⟩ = .ok first? s') :
    parse (left :: (w.body ++ w.behind) ++ [w.stop]) =
      ⟨first?.toList ++ (remainder s').statements, (remainder s').errors⟩ := by
  have hts : ∀ t ∈ left :: (w.body ++ w.behind), t.kind ≠ .eof := by
    refine List.forall_mem_cons.mpr ⟨by rw [hleft]; decide, fun t ht => ?_⟩
    rcases List.mem_append.mp ht with ht | ht
    · exact fun he => w.plain t ht (by rw [he]; decide)
    · exact w.behind_ne_eof t ht
  rw [parse_eq_remainder, start_ended hts w.stop_eof]
  exact remainder_step ⟨w.stop_eof, hts⟩ (List.cons_ne_nil _ _) (Nat.le_refl _) h

theorem parse_block_of_contains (hbefore : w.before = [])
    (h : w.Contains (parse (w.body ++ [w.stop]))) :
    let alone := parse (w.body ++ [w.stop])
    let beyond := remainder ⟨w.behind.tail, w.stop, 0, alone.errors⟩
    parse (left :: (w.body ++ w.behind) ++ [w.stop]) =
      ⟨.block alone.statements :: beyond.statements, beyond.errors⟩ := by
  intro alone beyond
  have hbound : w.body.length ≤ (w.body ++ w.behind).length := by simp
  have henclosed := enclosed_body hbefore hbound (Nat.le_succ_of_le hbound)
  generalize hrun : Parser.declarations _ _ _ _ = result at henclosed
  cases henclosed with
  | contained _ =>
    have hblock := Parser.block_of_ok hrun w.closed
    have hfirst := Parser.declaration_of_block
      (s := ⟨left :: (w.body ++ w.behind), w.stop, 0, []⟩) hleft hblock
    have hbehind : (w.beyond 0 alone.errors).next = ⟨w.behind.tail, w.stop, 0, alone.errors⟩ := by
      rw [Surroundings.beyond, hbefore]
      rfl
    rw [parse_block_step hleft hfirst, hbehind]
    rfl
  | lost hnot _ => exact absurd h hnot

theorem parse_block_of_not_contains (hbefore : w.before = [])
    (h : ¬w.Contains (parse (w.body ++ [w.stop])))
    (hlast : w.behind.tail = []) : ∃ errors, parse (left :: (w.body ++ w.behind) ++ [w.stop]) =
      ⟨[], errors ++ [⟨w.stop, .missing .afterBlock⟩]⟩ := by
  have hbound : w.body.length ≤ (w.body ++ w.behind).length := by simp
  have henclosed := enclosed_body hbefore hbound (Nat.le_succ_of_le hbound)
  generalize hrun : Parser.declarations _ _ _ _ = result at henclosed
  cases henclosed with
  | contained hcontains => exact absurd hcontains h
  | @lost ss t _ hend =>
    obtain ⟨hrest, hstop⟩ := hend hlast
    have hahead : t.ahead = w.stop := by rw [Reading.ahead, hrest, List.headD_nil, hstop]
    have hne : t.ahead.kind ≠ .rightBrace := by
      rw [hahead, w.stop_eof]
      decide
    have hblock := Parser.block_of_open hrun hne
    have hfirst := Parser.declaration_of_open
      (s := ⟨left :: (w.body ++ w.behind), w.stop, 0, []⟩) hleft hblock
    rw [parse_block_step hleft hfirst, hrest, remainder_of_nil rfl, hahead]
    exact ⟨t.errors, rfl⟩

end Blocks

end Grammar

/-- A block is read as its body is by itself, with the faults that this has, and what stands behind
the block is read as by itself.  That is so exactly if a semicolon is the last token of the body,
and no fault of the body by itself is blamed on the end.  Otherwise recovery passes the closing
brace, and the block is given up at the end of the program. -/
theorem block_keeps_faults {left right stop : Token} {m : List Token}
    (hleft : left.kind = .leftBrace) (hright : right.kind = .rightBrace) (hstop : stop.kind = .eof)
    (hm : ∀ t ∈ m, t.kind ∉ nesting) :
    let alone := parse (m ++ [stop])
    let contained := (∀ t ∈ m.getLast?, t.kind = .semicolon) ∧
      ∀ e ∈ alone.errors, e.token.kind ≠ .eof
    (contained → (∀ e ∈ alone.errors, e.token ∈ m) ∧
      ∀ q : List Token, (∀ t ∈ q, t.kind ≠ .eof) → (parse (q ++ [stop])).errors = [] →
        parse (left :: (m ++ right :: q) ++ [stop]) =
          ⟨.block alone.statements :: (parse (q ++ [stop])).statements, alone.errors⟩) ∧
    (¬contained → ∃ errors, parse (left :: (m ++ [right]) ++ [stop]) =
      ⟨[], errors ++ [⟨stop, .missing .afterBlock⟩]⟩) := by
  intro alone contained
  have hplain : ∀ t ∈ m, t.kind ≠ .eof := fun t ht he => hm t ht (by rw [he]; decide)
  have hclose : right.kind ≠ .eof := by rw [hright]; decide
  have helse : right.kind ≠ .kwElse := by rw [hright]; decide
  refine ⟨fun h => ⟨fun e he => token_mem_of_errors hplain hstop he (h.2 e he),
    fun q hq hclean => ?_⟩, fun h => ?_⟩
  · let w : Enclosure :=
      ⟨⟨[], right :: q, stop, hstop, List.forall_mem_cons.mpr ⟨hclose, hq⟩, helse⟩, m, hm, hright⟩
    have hbeyond := remainder_of_clean hq hstop hclean alone.errors
    have hwhole := parse_block_of_contains (w := w) hleft rfl h
    change parse (left :: (m ++ right :: q) ++ [stop]) =
      ⟨.block alone.statements :: (remainder ⟨q, stop, 0, alone.errors⟩).statements,
        (remainder ⟨q, stop, 0, alone.errors⟩).errors⟩ at hwhole
    rwa [hbeyond] at hwhole
  · let w : Enclosure :=
      ⟨⟨[], [right], stop, hstop, List.forall_mem_singleton.mpr hclose, helse⟩, m, hm, hright⟩
    exact parse_block_of_not_contains (w := w) hleft rfl h rfl

/-- The fault of a block in front of a statement that is read. -/
theorem block_keeps_faults_semicolon :
    let left : Token := ⟨.bare .leftBrace, "\x7b", 1, 1⟩
    let name : Token := ⟨.bare .identifier, "x", 1, 3⟩
    let semicolon : Token := ⟨.bare .semicolon, ";", 1, 6⟩
    let right : Token := ⟨.bare .rightBrace, "\x7d", 1, 8⟩
    let stop : Token := ⟨.bare .eof, "", 1, 12⟩
    let m := [name, name, semicolon]
    let q := [name, semicolon]
    (∀ t ∈ m, t.kind ∉ nesting) ∧ (∀ t ∈ q, t.kind ≠ .eof) ∧
      parse (m ++ [stop]) = ⟨[], [⟨name, .missing .afterExpression⟩]⟩ ∧
      parse (left :: (m ++ right :: q) ++ [stop]) =
        ⟨[.block [], .expression (.variable name)], [⟨name, .missing .afterExpression⟩]⟩ := by
  intro left name semicolon right stop m q
  have hm : ∀ t ∈ m, t.kind ∉ nesting := by
    simp only [m, List.forall_mem_cons]
    decide
  have hq : ∀ t ∈ q, t.kind ≠ .eof := by
    simp only [q, List.forall_mem_cons]
    decide
  have halone : parse (m ++ [stop]) = ⟨[], [⟨name, .missing .afterExpression⟩]⟩ := rfl
  have hlast : ∀ t ∈ m.getLast?, t.kind = .semicolon := by
    rintro t ⟨⟩
    rfl
  have hinside : ∀ e ∈ (parse (m ++ [stop])).errors, e.token.kind ≠ .eof := by
    rw [halone]
    exact List.forall_mem_singleton.mpr (by decide)
  obtain ⟨hkeeps, -⟩ := @block_keeps_faults left right stop m rfl rfl rfl hm
  exact ⟨hm, hq, halone, (hkeeps ⟨hlast, hinside⟩).2 q hq rfl⟩

/-- A statement that lacks its semicolon at the end of a block keeps what stands behind the block
from being read. -/
theorem brace_passed : ¬∀ (left right stop : Token) (m q : List Token), left.kind = .leftBrace →
    right.kind = .rightBrace → stop.kind = .eof → (∀ t ∈ m, t.kind ∉ nesting) →
    (∀ t ∈ q, t.kind ≠ .eof) → (∀ t ∈ q.head?, t.kind ≠ .kwElse) →
    (parse (q ++ [stop])).errors = [] →
    (∀ e ∈ (parse (left :: (m ++ right :: q) ++ [stop])).errors, e.token ∈ m ∨ e.token = right) ∧
      ∃ blocks : List Stmt, blocks.length ≤ 1 ∧
        (parse (left :: (m ++ right :: q) ++ [stop])).statements =
          blocks ++ (parse (q ++ [stop])).statements := by
  let left : Token := ⟨.bare .leftBrace, "\x7b", 1, 1⟩
  let name : Token := ⟨.bare .identifier, "x", 1, 3⟩
  let right : Token := ⟨.bare .rightBrace, "\x7d", 1, 5⟩
  let semicolon : Token := ⟨.bare .semicolon, ";", 1, 8⟩
  let stop : Token := ⟨.bare .eof, "", 1, 9⟩
  let m := [name]
  let q := [name, semicolon]
  have hm : ∀ t ∈ m, t.kind ∉ nesting := List.forall_mem_singleton.mpr (by decide)
  have hq : ∀ t ∈ q, t.kind ≠ .eof := by
    simp only [q, List.forall_mem_cons]
    decide
  have helse : ∀ t ∈ q.head?, t.kind ≠ .kwElse := by
    rintro t ⟨⟩
    decide
  have hwhole : parse (left :: (m ++ right :: q) ++ [stop]) =
      ⟨[], [⟨right, .missing .afterExpression⟩, ⟨stop, .missing .afterBlock⟩]⟩ := rfl
  intro h
  obtain ⟨hblamed, -⟩ := h left right stop m q rfl rfl rfl hm hq helse rfl
  rw [hwhole] at hblamed
  rcases hblamed ⟨stop, _⟩ (List.mem_cons_of_mem _ List.mem_cons_self) with hstop | hstop
  · exact hm _ hstop (by decide)
  · exact absurd (congrArg Token.kind hstop) (by decide)

end Lox
