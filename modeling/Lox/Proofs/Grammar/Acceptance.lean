import Mathlib.Data.List.TakeWhile
import Lox.Program
import Lox.Proofs.Grammar.Completeness

/-!
Reading accepts exactly the grammar.

What reading accepts has a derivation, though the derivation that comes out of a run says nothing
about which `if` an `else` belongs to.  So the bare productions are compared with the grammar of
the nearest `if` first: an `else` behind a statement that dangles can always be moved inwards.
-/

namespace Lox
namespace Grammar

/-! ## The nearest `if` -/

/-- An `else` branch behind a statement that ends in an `if` without one goes to that `if`. -/
theorem attach {inside : Bool} {b : Ending} {separator : Token} {vs : List Token}
    {t : Stmt} (hsep : separator.kind = .kwElse) (ht : Statement nearestIf inside b vs t) :
    ∀ {a : Ending} {ts : List Token} {s : Stmt}, Statement nearestIf inside a ts s →
      a = .dangling → ∃ c u, Statement nearestIf inside c (ts ++ separator :: vs) u
  | _, _, _, .expression _, hd => nomatch hd
  | _, _, _, .print _ _ _, hd => nomatch hd
  | _, _, _, .ret _ _ _, hd => nomatch hd
  | _, _, _, .block _ _ _, hd => nomatch hd
  | _, _, _, .branch (a := a) hk hl hc hr h, _ => by
    by_cases ha : a = .dangling
    · obtain ⟨_, u, hu⟩ := attach hsep ht h ha
      have hbranch := Statement.branch hk hl hc hr hu
      exact ⟨_, _, by simpa only [List.append_assoc, List.cons_append] using hbranch⟩
    · have hclosed : nearestIf a := by cases a <;> trivial
      have hbranch := Statement.branchElse hk hl hc hr h hclosed hsep ht
      exact ⟨_, _, hbranch⟩
  | _, _, _, .branchElse hk hl hc hr h hclosed hsep' h', hd => by
    obtain ⟨d, u, hu⟩ := attach hsep ht h' hd
    have hbranch := Statement.branchElse hk hl hc hr h hclosed hsep' hu
    exact ⟨d, _, by simpa only [List.append_assoc, List.cons_append] using hbranch⟩
  | _, _, _, .loop hk hl hc hr h, hd => by
    obtain ⟨d, u, hu⟩ := attach hsep ht h hd
    have hloop := Statement.loop hk hl hc hr hu
    exact ⟨d, _, by simpa only [List.append_assoc, List.cons_append] using hloop⟩
  | _, _, _, .forLoop hk hl hi hc hsemi hn hr h, hd => by
    obtain ⟨d, u, hu⟩ := attach hsep ht h hd
    have hloop := Statement.forLoop hk hl hi hc hsemi hn hr hu
    exact ⟨d, _, by simpa only [List.append_assoc, List.cons_append] using hloop⟩

mutual

theorem Statement.nearest {inside : Bool} : ∀ {a : Ending} {ts : List Token} {s : Stmt},
    Statement anyIf inside a ts s → ∃ b t, Statement nearestIf inside b ts t
  | _, _, _, .expression h => ⟨_, _, .expression h⟩
  | _, _, _, .print hk h hsemi => ⟨_, _, .print hk h hsemi⟩
  | _, _, _, .ret hk h hsemi => ⟨_, _, .ret hk h hsemi⟩
  | _, _, _, .block hl h hr => by
    obtain ⟨ss, hss⟩ := h.nearest
    exact ⟨_, _, .block hl hss hr⟩
  | _, _, _, .branch hk hl hc hr h => by
    obtain ⟨b, t, ht⟩ := h.nearest
    exact ⟨_, _, .branch hk hl hc hr ht⟩
  | _, _, _, .branchElse hk hl hc hr h _ hsep h' => by
    obtain ⟨b, t, ht⟩ := h.nearest
    obtain ⟨b', t', ht'⟩ := h'.nearest
    cases b with
    | closed => exact ⟨_, _, .branchElse hk hl hc hr ht rfl hsep ht'⟩
    | dangling =>
      obtain ⟨_, u, hu⟩ := attach hsep ht' ht rfl
      have hbranch := Statement.branch hk hl hc hr hu
      exact ⟨_, _, by simpa only [List.append_assoc, List.cons_append] using hbranch⟩
  | _, _, _, .loop hk hl hc hr h => by
    obtain ⟨b, t, ht⟩ := h.nearest
    exact ⟨_, _, .loop hk hl hc hr ht⟩
  | _, _, _, .forLoop hk hl hi hc hsemi hn hr h => by
    obtain ⟨b, t, ht⟩ := h.nearest
    exact ⟨_, _, .forLoop hk hl hi hc hsemi hn hr ht⟩

theorem Declaration.nearest {inside : Bool} : ∀ {ts : List Token} {s : Stmt},
    Declaration anyIf inside ts s → ∃ t, Declaration nearestIf inside ts t
  | _, _, .variable h => ⟨_, .variable h⟩
  | _, _, .function hk hx hl hps hr hlb h hrb => by
    obtain ⟨ss, hss⟩ := h.nearest
    exact ⟨_, .function hk hx hl hps hr hlb hss hrb⟩
  | _, _, .statement h => by
    obtain ⟨b, t, ht⟩ := h.nearest
    exact ⟨_, .statement ht⟩

/-- Whatever the bare productions derive has a derivation in which every `else` belongs to the
nearest `if`. -/
theorem Declarations.nearest {inside : Bool} : ∀ {ts : List Token} {ss : List Stmt},
    Declarations anyIf inside ts ss → ∃ us, Declarations nearestIf inside ts us
  | _, _, .nil => ⟨[], .nil⟩
  | _, _, .cons h hs => by
    obtain ⟨t, ht⟩ := h.nearest
    obtain ⟨us, hus⟩ := hs.nearest
    exact ⟨t :: us, .cons ht hus⟩

end

/-! ## Whole programs -/

/-- The tokens in front of the first one of kind `eof`. -/
def body (tokens : List Token) : List Token := tokens.takeWhile (·.kind != .eof)

theorem kind_of_mem_body {tokens : List Token} {t : Token} (h : t ∈ body tokens) :
    t.kind ≠ .eof := by
  simpa using List.all_eq_true.mp List.all_takeWhile t h

/-- The token that reading treats as the end of the list. -/
def stop (tokens : List Token) : Token := (tokens.dropWhile (·.kind != .eof)).headD default

theorem kind_stop (tokens : List Token) : (stop tokens).kind = .eof := by
  unfold stop
  induction tokens with
  | nil => rfl
  | cons t ts ih =>
    rw [List.dropWhile_cons]
    split
    · exact ih
    · next h => simpa using h

theorem takeWhile_dropWhile_append {ts : List Token} {e : Token} (hts : ∀ t ∈ ts, t.kind ≠ .eof)
    (he : e.kind = .eof) (more : List Token) :
    (ts ++ e :: more).takeWhile (·.kind != .eof) = ts ∧
      (ts ++ e :: more).dropWhile (·.kind != .eof) = e :: more := by
  have hall : ∀ t ∈ ts, (t.kind != .eof) = true := fun t ht => by simpa using hts t ht
  rw [List.takeWhile_append_of_pos hall, List.dropWhile_append_of_pos hall]
  simp [he]

/-- What stands behind the first token that ends the list is not read. -/
theorem parse_append {ts : List Token} {e : Token} (hts : ∀ t ∈ ts, t.kind ≠ .eof)
    (he : e.kind = .eof) (more : List Token) : parse (ts ++ e :: more) = parse (ts ++ [e]) := by
  obtain ⟨htake, hdrop⟩ := takeWhile_dropWhile_append hts he more
  obtain ⟨htake', hdrop'⟩ := takeWhile_dropWhile_append hts he []
  unfold parse
  rw [htake, hdrop, htake', hdrop', List.headD_cons, List.headD_cons]

theorem dropWhile_eq_stop_cons {tokens : List Token} (hend : ∃ t ∈ tokens, t.kind = .eof) :
    ∃ more, tokens.dropWhile (·.kind != .eof) = stop tokens :: more := by
  cases hd : tokens.dropWhile (·.kind != .eof) with
  | nil =>
    obtain ⟨t, ht, heof⟩ := hend
    have hall := List.dropWhile_eq_nil_iff.mp hd t ht
    simp [heof] at hall
  | cons u more => exact ⟨more, by rw [stop, hd, List.headD_cons]⟩

end Grammar

namespace Parser

open Grammar

variable {s s' : Reading}

theorem recovering_returns (p : Parser Stmt) (s : Reading) :
    ∃ o s', recovering p s = .ok o s' := by
  unfold recovering
  cases p s with
  | ok a s' => exact ⟨_, _, rfl⟩
  | error e s' => exact ⟨_, _, rfl⟩

theorem declaration_returns (n : Nat) (s : Reading) : ∃ o s', declaration n s = .ok o s' := by
  cases n with
  | zero => exact recovering_returns _ s
  | succ n => exact recovering_returns _ s

theorem declarations_returns (ends : Kind → Bool) (k n : Nat) (s : Reading) :
    ∃ ss s', declarations ends (declaration k) n s = .ok ss s' := by
  induction n generalizing s with
  | zero => exact ⟨_, _, rfl⟩
  | succ n ih =>
    unfold declarations
    rw [bind_of_ok (peek_apply s)]
    split
    · exact ⟨_, _, rfl⟩
    · obtain ⟨o, s₁, ho⟩ := declaration_returns k s
      obtain ⟨ss, s₂, hss⟩ := ih s₁
      rw [bind_of_ok ho, bind_of_ok hss]
      exact ⟨_, _, rfl⟩

/-- Declarations are read up to a token that ends them, unless a fault is recorded. -/
theorem declarations_ends {ends : Kind → Bool} (hends : ends .eof = true) {k n : Nat}
    {ss : List Stmt} (hs : s.stop.kind = .eof) (hn : s.rest.length ≤ n)
    (h : declarations ends (declaration k) n s = .ok ss s') (he : s'.errors = s.errors) :
    ends s'.ahead.kind = true := by
  induction n generalizing s ss with
  | zero =>
    cases h
    rw [Reading.ahead, List.length_eq_zero_iff.mp (Nat.le_zero.mp hn), List.headD_nil, hs, hends]
  | succ n ih =>
    unfold declarations at h
    rw [bind_of_ok (peek_apply s)] at h
    by_cases hstop : ends s.ahead.kind = true
    · rw [if_pos hstop] at h
      cases h
      exact hstop
    rw [if_neg hstop] at h
    obtain ⟨o, s₁, ho⟩ := declaration_returns k s
    obtain ⟨others, s₂, hothers⟩ := declarations_returns ends k n s₁
    rw [bind_of_ok ho, bind_of_ok hothers] at h
    cases h
    have hfirst := sound_declaration k s hs
    unfold Reads at hfirst
    rw [ho] at hfirst
    have hrest : Reads s₁ (declarations ends (declaration k) n) (Declarations anyIf s₁.inside) :=
      reads_declarations (sound_declaration k) n (hfirst.1.eof hs)
    unfold Reads at hrest
    rw [hothers] at hrest
    -- The first declaration took a token, so there are enough steps for the others.
    have hclean := hfirst.1.errors_eq_left hrest.1 he
    obtain ⟨ts, hts, st, -, hst⟩ := hfirst.2 hclean
    have hpos := hst.starts.length_pos
    have hlen := congrArg List.length hts
    rw [List.length_append] at hlen
    exact ih (hfirst.1.eof hs) (by omega) hothers (he.trans hclean.symm)

end Parser

namespace Grammar

/-- The state that reading a program starts from. -/
def start (tokens : List Token) : Reading := ⟨body tokens, stop tokens, 0, []⟩

/-- The parser that reads a program from it. -/
def program (tokens : List Token) : Parser (List Stmt) :=
  Parser.declarations (· == .eof) (Parser.declaration (body tokens).length) (body tokens).length

theorem parse_eq (tokens : List Token) :
    ∃ ss s', program tokens (start tokens) = .ok ss s' ∧ parse tokens = ⟨ss, s'.errors⟩ := by
  obtain ⟨ss, s', h⟩ := Parser.declarations_returns (· == .eof) (body tokens).length
    (body tokens).length (start tokens)
  refine ⟨ss, s', h, ?_⟩
  unfold start body stop at h
  unfold parse
  dsimp only
  rw [h]

theorem derives_of_parse {tokens : List Token} (h : (parse tokens).errors = []) :
    Derives anyIf (body tokens) (parse tokens).statements := by
  obtain ⟨ss, s', hrun, hparse⟩ := parse_eq tokens
  rw [hparse] at h ⊢
  have hreads : Parser.Reads (start tokens) (program tokens) (Derives anyIf) :=
    Parser.reads_declarations (Parser.sound_declaration _) _ (kind_stop tokens)
  unfold Parser.Reads at hreads
  rw [hrun] at hreads
  obtain ⟨ts, hts, hD⟩ := hreads.2 h
  have hend : (s'.ahead.kind == .eof) = true :=
    Parser.declarations_ends (n := (body tokens).length) rfl (kind_stop tokens) (Nat.le_refl _)
      hrun h
  -- No token of the body could have ended the declarations, so nothing is left of it.
  have hrest : s'.rest = [] := by
    cases hr : s'.rest with
    | nil => rfl
    | cons t us =>
      have ht : t ∈ body tokens := hreads.1.rest.mem (hr ▸ List.mem_cons_self)
      rw [Reading.ahead_of_rest s' hr] at hend
      exact absurd (by simpa using hend) (kind_of_mem_body ht)
  rw [hrest, List.append_nil] at hts
  exact (show body tokens = ts from hts) ▸ hD

theorem parse_of_derives {tokens : List Token} {ss : List Stmt}
    (h : Derives nearestIf (body tokens) ss) : parse tokens = ⟨ss, []⟩ := by
  obtain ⟨us, s', hrun, hparse⟩ := parse_eq tokens
  have hends : ∀ k : Kind, (k == .eof) = true → k = .rightBrace ∨ k = .eof :=
    fun k hk => .inr (by simpa using hk)
  have hstop : (((start tokens).after []).ahead.kind == .eof) = true := by
    rw [show ((start tokens).after []).ahead = stop tokens from rfl, kind_stop]
    rfl
  have hcomplete : program tokens (start tokens) = .ok ss ((start tokens).after []) :=
    Parser.complete_declarations (Parser.complete_declaration _) hends h _
      (List.append_nil _).symm (Nat.le_refl _) (Nat.le_refl _) (fun hin => nomatch hin) hstop
  rw [hcomplete] at hrun
  cases hrun
  exact hparse

/-- The result of reading without a fault is the tree with every `else` at the nearest `if`. -/
theorem nearest_of_parse {tokens : List Token} (h : (parse tokens).errors = []) :
    Derives nearestIf (body tokens) (parse tokens).statements := by
  obtain ⟨ss, hss⟩ := (derives_of_parse h).nearest
  rw [parse_of_derives hss]
  exact hss

/-- A row of tokens is accepted exactly when the bare productions derive it, and then the result is
the one tree that it has when every `else` belongs to the nearest `if`. -/
theorem parse_accepts_iff_derives (tokens : List Token) :
    ((parse tokens).errors = [] ↔ ∃ ss, Derives anyIf (body tokens) ss) ∧
      ∀ ss, parse tokens = ⟨ss, []⟩ ↔ Derives nearestIf (body tokens) ss := by
  refine ⟨⟨fun h => ⟨_, derives_of_parse h⟩, fun ⟨ss, h⟩ => ?_⟩, fun ss => ⟨fun h => ?_,
    parse_of_derives⟩⟩
  · obtain ⟨us, hus⟩ := h.nearest
    rw [parse_of_derives hus]
  · have hss := @nearest_of_parse tokens (by rw [h])
    rwa [h] at hss

end Grammar

end Lox
