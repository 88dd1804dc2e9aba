import Mathlib
import Lox.Proofs.Sessions.Layout
import Lox.Proofs.Source.Spacing
import Lox.Proofs.Syntax.Outlines
import Lox.Proofs.Syntax.Programs

/-!
Listings read back.

A listing of a tree is the text of an outline, and from that outline the tree can be read again:
what a word is, scanning it once more tells, and what a list is, its head and the number of its
parts tell.  What is lost are the places of the tokens, and with the quotes of strings the
difference between a string and a word.
-/

namespace Lox

/-! ## Trees as outlines -/

def Value.outline : Value → Outline
  | .number x => .number x
  | v => .word v.text

def Token.outline (t : Token) : Outline := .word t.lexeme

mutual

def Expr.outline : Expr → Outline
  | .binary l o r => .list o.lexeme [l.outline, r.outline]
  | .grouping e => .list "group" [e.outline]
  | .literal v => v.outline
  | .logical l o r => .list o.lexeme [l.outline, r.outline]
  | .unary o r => .list o.lexeme [r.outline]
  | .variable x => x.outline
  | .assign x e => .list "assign" [x.outline, e.outline]
  | .call f _ es => .list "call" (f.outline :: Expr.outlines es)

def Expr.outlines : List Expr → List Outline
  | [] => []
  | e :: es => e.outline :: Expr.outlines es

end

/-- The parameters of a function are a list with the first of them as its head. -/
def Declaration.outlineParameters : List Token → Outline
  | [] => .list "" []
  | x :: xs => .list x.lexeme (xs.map Token.outline)

mutual

def Stmt.outline : Stmt → Outline
  | .print _ e => .list "print" [e.outline]
  | .expression e => .list ";" [e.outline]
  | .declare x none => .list "var" [x.outline]
  | .declare x (some e) => .list "var" [x.outline, e.outline]
  | .block ss => .list "block" (Stmt.outlines ss)
  | .branch c t none => .list "if" [c.outline, t.outline]
  | .branch c t (some e) => .list "if" [c.outline, t.outline, e.outline]
  | .loop c b => .list "while" [c.outline, b.outline]
  | .function ⟨x, xs, ss⟩ =>
    .list "fun" (x.outline :: Declaration.outlineParameters xs :: Stmt.outlines ss)
  | .ret _ none => .list "return" []
  | .ret _ (some e) => .list "return" [e.outline]

def Stmt.outlines : List Stmt → List Outline
  | [] => []
  | s :: ss => s.outline :: Stmt.outlines ss

end

theorem Value.write_outline (v : Value) : v.outline.write = v.text := by
  cases v <;> rfl

mutual

theorem Expr.write_outline : ∀ e : Expr, e.outline.write = e.render
  | .binary l o r | .logical l o r => by
    simp only [Expr.outline, Expr.render, Outline.write, Outline.writeAll, Expr.write_outline l,
      Expr.write_outline r]
  | .grouping e | .unary _ e => by
    simp only [Expr.outline, Expr.render, Outline.write, Outline.writeAll, Expr.write_outline e]
  | .literal v => v.write_outline
  | .variable _ => rfl
  | .assign x e => by
    simp only [Expr.outline, Expr.render, Outline.write, Outline.writeAll, Token.outline,
      Expr.write_outline e]
  | .call f _ es => by
    simp only [Expr.outline, Expr.render, Outline.write, Outline.writeAll, Expr.write_outline f,
      Expr.writeAll_outlines es]

theorem Expr.writeAll_outlines :
    ∀ es : List Expr, Outline.writeAll (Expr.outlines es) = Expr.renderAll es
  | [] => rfl
  | e :: es => by
    simp only [Expr.outlines, Expr.renderAll, Outline.writeAll, Expr.write_outline e,
      Expr.writeAll_outlines es]

end

theorem Declaration.write_outlineParameters (xs : List Token) :
    (Declaration.outlineParameters xs).write = Declaration.renderParameters xs := by
  have hlisted (x : Token) (xs : List Token) :
      x.lexeme ++ (Outline.writeAll (xs.map Token.outline)).foldr
          (fun part rest => " " ++ part ++ rest) ")" =
        " ".intercalate (x.lexeme :: xs.map Token.lexeme) ++ ")" := by
    induction xs generalizing x with
    | nil => rfl
    | cons y xs ih =>
      have hrest := ih y
      rw [List.map_cons, List.map_cons, String.intercalate_cons_cons, Outline.writeAll,
        List.foldr_cons]
      generalize (Outline.writeAll (xs.map Token.outline)).foldr _ _ = rest at hrest ⊢
      simp only [Token.outline, Outline.write, String.append_assoc, hrest]
  cases xs with
  | nil => rfl
  | cons x xs =>
    rw [Declaration.outlineParameters, Outline.write, listed, Declaration.renderParameters,
      String.append_assoc, String.append_assoc, hlisted, List.map_cons]

mutual

theorem Stmt.write_outline : ∀ s : Stmt, s.outline.write = s.render
  | .print _ e | .expression e | .ret _ (some e) => by
    simp only [Stmt.outline, Stmt.render, Outline.write, Outline.writeAll, Expr.write_outline e]
  | .declare _ none | .ret _ none => rfl
  | .declare x (some e) => by
    simp only [Stmt.outline, Stmt.render, Outline.write, Outline.writeAll, Token.outline,
      Expr.write_outline e]
  | .block ss => by
    simp only [Stmt.outline, Stmt.render, Outline.write, Stmt.writeAll_outlines ss]
  | .branch c t none => by
    simp only [Stmt.outline, Stmt.render, Outline.write, Outline.writeAll, Expr.write_outline c,
      Stmt.write_outline t]
  | .branch c t (some e) => by
    simp only [Stmt.outline, Stmt.render, Outline.write, Outline.writeAll, Expr.write_outline c,
      Stmt.write_outline t, Stmt.write_outline e]
  | .loop c b => by
    simp only [Stmt.outline, Stmt.render, Outline.write, Outline.writeAll, Expr.write_outline c,
      Stmt.write_outline b]
  | .function ⟨x, xs, ss⟩ => by
    simp only [Stmt.outline, Stmt.render, Outline.write, Outline.writeAll, Token.outline,
      Declaration.write_outlineParameters xs, Stmt.writeAll_outlines ss]

theorem Stmt.writeAll_outlines :
    ∀ ss : List Stmt, Outline.writeAll (Stmt.outlines ss) = Stmt.renderAll ss
  | [] => rfl
  | s :: ss => by
    simp only [Stmt.outlines, Stmt.renderAll, Outline.writeAll, Stmt.write_outline s,
      Stmt.writeAll_outlines ss]

end

/-! ## Outlines as trees -/

/-- The token that a word is by itself, as if it stood nowhere. -/
def Token.ofWord (word : String) : Token := ((scan word).tokens.headD default).unplaced

/-- The expression of one token. -/
def Token.expr (t : Token) : Expr :=
  match t.literal? with
  | some v => .literal v
  | none => .variable t

/-- The expression of a list, given those of its parts.  A head without a meaning of its own is an
operator. -/
def Expr.ofList (head : String) (es : List Expr) : Expr :=
  match head, es with
  | "call", f :: es => .call f (.ofWord ")") es
  | "group", [e] => .grouping e
  | "assign", [.variable x, e] => .assign x e
  | _, [r] => .unary (.ofWord head) r
  | _, [l, r] =>
    if (Token.ofWord head).kind ∈ Role.connective.kinds then .logical l (.ofWord head) r
    else .binary l (.ofWord head) r
  | _, _ => .literal .nil

namespace Outline

mutual

def expr : Outline → Expr
  | number x => .literal (.number x)
  | word text => (Token.ofWord text).expr
  | list head parts => Expr.ofList head (exprs parts)

def exprs : List Outline → List Expr
  | [] => []
  | s :: ss => s.expr :: exprs ss

end

def name : Outline → Token
  | word text => .ofWord text
  | number _ | list _ _ => default

/-- The names in a list, its head included, unless that is empty. -/
def names : Outline → List Token
  | list "" _ => []
  | list head parts => .ofWord head :: parts.map name
  | number _ | word _ => []

end Outline

/-- The statement of a list, given its parts and the statements that these are. -/
def Stmt.ofList (head : String) (parts : List Outline) (ss : List Stmt) : Stmt :=
  match head, parts, ss with
  | "print", [e], _ => .print (.ofWord "print") e.expr
  | ";", [e], _ => .expression e.expr
  | "var", [x], _ => .declare x.name none
  | "var", [x, e], _ => .declare x.name (some e.expr)
  | "if", [c, _], [_, s] => .branch c.expr s none
  | "if", [c, _, _], [_, s, t] => .branch c.expr s (some t)
  | "while", [c, _], [_, s] => .loop c.expr s
  | "fun", x :: xs :: _, _ :: _ :: ss => .function ⟨x.name, xs.names, ss⟩
  | "return", [], _ => .ret (.ofWord "return") none
  | "return", [e], _ => .ret (.ofWord "return") (some e.expr)
  | _, _, ss => .block ss

namespace Outline

mutual

def stmt : Outline → Stmt
  | number _ | word _ => .block []
  | list head parts => Stmt.ofList head parts (stmts parts)

def stmts : List Outline → List Stmt
  | [] => []
  | s :: ss => s.stmt :: stmts ss

end

end Outline

/-! ## What is read back -/

/-- Whether a listing shows what a token holds: it leaves out the quotes of a string, and writes
infinity as a word. -/
def Form.isListed : Form → Bool
  | .string _ => false
  | .number x => !x.isInf
  | .bare _ _ => true

/-- Whether a token is spelled as the lexical grammar says, and a listing shows what it holds. -/
structure Token.Listed (t : Token) : Prop where
  spelled : t.Spelled
  isListed : t.form.isListed = true

variable {t x : Token} {v : Value}

theorem Token.ofWord_lexeme (ht : Lexeme (.token t.form) t.lexeme.toList) :
    ofWord t.lexeme = t.unplaced := by
  obtain ⟨stop, -, hscan⟩ := Scan.ofText_end ht .start
  rw [ofWord, scan, hscan, String.ofList_toList]
  rfl

theorem Token.lexeme_bare (ht : t.Spelled) (hbare : t.kind.Bare) (heof : t.kind ≠ .eof) :
    Lexeme (.token (.bare t.kind hbare)) t.lexeme.toList := by
  have hform : t.form = .bare t.kind hbare := by
    obtain ⟨form, lexeme, line, column⟩ := t
    cases form with
    | bare => rfl
    | string => exact absurd rfl hbare.1
    | number => exact absurd rfl hbare.2
  rw [← hform]
  exact ht heof

/-- What the lexical grammar says of a token without a payload. -/
theorem Lexeme.cases_of_bare {kind : Kind} {bare : kind.Bare} {text : List Char}
    (h : Lexeme (.token (.bare kind bare)) text) : (text, kind) ∈ signs ∨
      Word text ∧ ((String.ofList text, kind) ∈ reserved ∨ kind = .identifier) := by
  cases h with
  | sign _ h => exact .inl h
  | keyword _ hword h => exact .inr ⟨hword, .inl h⟩
  | identifier _ hword => exact .inr ⟨hword, .inr rfl⟩

/-- The spelling of an identifier is a word that is read as the identifier. -/
theorem Token.word_of_identifier (ht : t.Spelled) (hkind : t.kind = .identifier) :
    Word t.lexeme.toList ∧ ofWord t.lexeme = t.unplaced := by
  have heof : t.kind ≠ .eof := by
    rw [hkind]
    decide
  refine ⟨?_, ofWord_lexeme (ht heof)⟩
  have hcases := (lexeme_bare ht (by rw [hkind]; decide) heof).cases_of_bare
  rw [hkind] at hcases
  rcases hcases with hsign | ⟨hword, -⟩
  · simp [signs] at hsign
  · exact hword

theorem Token.outline_of_identifier (ht : t.Spelled) (hkind : t.kind = .identifier) :
    t.outline.Legible ∧ t.outline.expr = .variable t.unplaced ∧ t.outline.name = t.unplaced := by
  obtain ⟨hword, hread⟩ := word_of_identifier ht hkind
  refine ⟨.word hword, ?_, hread⟩
  have hliteral : t.unplaced.literal? = none :=
    Grammar.literal_eq_none (show t.kind ∉ Grammar.literalKinds by rw [hkind]; decide)
  rw [outline, Outline.expr, hread, expr, hliteral]

/-- The heads of lists that have a meaning of their own as expressions. -/
def Expr.heads : List String := ["call", "group", "assign"]

/-- The heads that are not the spellings of tokens in a tree. -/
def heads : List String :=
  Expr.heads ++ ["print", ";", "var", "block", "if", "while", "fun", "return", ""]

/-- The tokens that a listing leaves out or has a head of its own for, with their spellings. -/
def spellings : List (String × Kind) :=
  [("print", .kwPrint), ("return", .kwReturn), (")", .rightParen)]

/-- The kinds of operators of expressions. -/
def operatorKinds : List Kind := Role.sign.kinds ++ Role.operator.kinds ++ Role.connective.kinds

/-- The spelling of an operator can be the head of a list, and is none of the heads with a meaning
of their own. -/
theorem Token.head_of_operator (ht : t.Spelled) (hkind : t.kind ∈ operatorKinds) :
    (∀ c ∈ t.lexeme.toList, Outline.continues c = true) ∧ ofWord t.lexeme = t.unplaced ∧
      t.lexeme ∉ Expr.heads := by
  have hbare : t.kind.Bare ∧ t.kind ≠ .eof ∧ t.kind ≠ .identifier := by
    have hkinds : ∀ kind ∈ operatorKinds, kind.Bare ∧ kind ≠ .eof ∧ kind ≠ .identifier := by decide
    exact hkinds _ hkind
  have hread := ofWord_lexeme (ht hbare.2.1)
  refine ⟨?_, hread, fun hmem => ?_⟩
  · rcases (lexeme_bare ht hbare.1 hbare.2.1).cases_of_bare with hsign | ⟨hword, -⟩
    · have hsigns : ∀ entry ∈ signs, entry.2 ∈ operatorKinds →
          ∀ c ∈ entry.1, Outline.continues c = true := by
        simp [signs, operatorKinds, Role.kinds, Level.operators, Outline.continues]
      exact hsigns _ hsign hkind
    · exact Outline.continues_word hword
  · -- The other heads would be read as identifiers, and no operator is one.
    have hnames : ∀ word ∈ Expr.heads, (ofWord word).kind = .identifier := by
      simp only [Expr.heads, List.forall_mem_cons, List.not_mem_nil, false_implies, implies_true,
        and_true]
      exact ⟨by cbv, by cbv, by cbv⟩
    have hidentifier := hnames _ hmem
    rw [hread] at hidentifier
    exact hbare.2.2 hidentifier

theorem Token.unplaced_of_kind (ht : t.Spelled) (word : String)
    (hword : (word, t.kind) ∈ spellings) : t.unplaced = ofWord word := by
  have hkinds : t.kind.Bare ∧ t.kind ≠ .eof := by
    have hall : ∀ entry ∈ spellings, entry.2.Bare ∧ entry.2 ≠ .eof := by decide
    exact hall _ hword
  have hcases := (lexeme_bare ht hkinds.1 hkinds.2).cases_of_bare
  have hlexeme : t.lexeme = word := by
    simp only [spellings, List.mem_cons, Prod.mk.injEq, List.not_mem_nil, or_false] at hword
    rcases hword with ⟨rfl, hkind⟩ | ⟨rfl, hkind⟩ | ⟨rfl, hkind⟩ <;> rw [hkind] at hcases <;>
      simp [signs, reserved] at hcases
    · exact hcases.2
    · exact hcases.2
    · exact String.toList_inj.mp hcases
  rw [← hlexeme, ofWord_lexeme (ht hkinds.2)]

theorem Expr.ofList_sign {head : String} (h : head ∉ heads) (e : Expr) :
    ofList head [e] = .unary (.ofWord head) e := by
  simp only [heads, List.mem_cons, List.not_mem_nil, or_false, not_or] at h
  unfold ofList
  split <;> simp_all

theorem Expr.ofList_operator {head : String} (h : head ∉ heads) (l r : Expr) :
    ofList head [l, r] =
      if (Token.ofWord head).kind ∈ Role.connective.kinds then .logical l (.ofWord head) r
      else .binary l (.ofWord head) r := by
  simp only [heads, List.mem_cons, List.not_mem_nil, or_false, not_or] at h
  unfold ofList
  split <;> simp_all

theorem Outline.legible_list {head : String} {parts : List Outline} (hhead : head ∈ heads)
    (hparts : ∀ s ∈ parts, s.Legible) : (list head parts).Legible := by
  have hheads : ∀ head ∈ heads, ∀ c ∈ head.toList, continues c = true := by
    simp [heads, Expr.heads, continues]
  exact .list (hheads head hhead) hparts

/-- Whether a listing shows a tree, and the tree can be read back from it. -/
structure Expr.Reread (e : Expr) : Prop where
  legible : e.outline.Legible
  expr : e.outline.expr = e.relabel .unplaced

/-- A literal that is a reserved word. -/
theorem Expr.reread_word {w : String} {kind : Kind} (hw : (w, kind) ∈ reserved)
    (hread : (Token.ofWord w).literal? = some v) (houtline : v.outline = .word w)
    (hrelabel : v.relabel .unplaced = v) : (Expr.literal v).Reread where
  legible := by
    rw [Expr.outline, houtline]
    exact .word (word_of_mem_reserved hw)
  expr := by
    rw [Expr.outline, houtline, Outline.expr, Token.expr, hread, Expr.relabel, hrelabel]

theorem Expr.reread_bool (b : Bool) : (Expr.literal (.bool b)).Reread := by
  cases b with
  | true => exact reread_word (show ("true", Kind.kwTrue) ∈ reserved by decide) (by cbv) rfl rfl
  | false => exact reread_word (show ("false", Kind.kwFalse) ∈ reserved by decide) (by cbv) rfl rfl

theorem Expr.reread_literal (ht : t.Listed) (hv : t.literal? = some v) :
    (Expr.literal v).Reread := by
  have hlisted := ht.isListed
  have hkind := Grammar.kind_of_literal hv
  have hlexeme := ht.spelled fun heof => absurd hkind (by rw [heof]; decide)
  unfold Token.literal? at hv
  split at hv
  · next text hform =>
    rw [hform] at hlisted
    cases hlisted
  · next x hform =>
    rw [hform] at hlisted hlexeme
    cases hv
    exact ⟨.number hlexeme.unsigned (by simpa [Form.isListed] using hlisted), rfl⟩
  · cases hv
    exact reread_bool true
  · cases hv
    exact reread_bool false
  · cases hv
    exact reread_word (show ("nil", Kind.kwNil) ∈ reserved by decide) (by cbv) rfl rfl
  · cases hv

/-- An operator between two operands. -/
theorem Expr.reread_operator {l r : Expr} (ht : t.Spelled) (hkind : t.kind ∈ operatorKinds)
    (hl : l.Reread) (hr : r.Reread) :
    (Outline.list t.lexeme [l.outline, r.outline]).Legible ∧
      (Outline.list t.lexeme [l.outline, r.outline]).expr =
        if t.kind ∈ Role.connective.kinds then
          .logical (l.relabel .unplaced) t.unplaced (r.relabel .unplaced)
        else .binary (l.relabel .unplaced) t.unplaced (r.relabel .unplaced) := by
  obtain ⟨hhead, hread, hnone⟩ := Token.head_of_operator ht hkind
  refine ⟨.list hhead (by simp [hl.legible, hr.legible]), ?_⟩
  rw [Outline.expr, Outline.exprs, hl.expr, Outline.exprs, hr.expr, Outline.exprs,
    ofList_operator hnone, hread]
  rfl

theorem Expr.reread_all {es : List Expr} (h : ∀ e ∈ es, e.Reread) :
    (∀ s ∈ Expr.outlines es, s.Legible) ∧
      Outline.exprs (Expr.outlines es) = Expr.relabelAll .unplaced es := by
  induction es with
  | nil => exact ⟨fun _ hs => absurd hs List.not_mem_nil, rfl⟩
  | cons e es ih =>
    rw [List.forall_mem_cons] at h
    obtain ⟨hlegible, hread⟩ := ih h.2
    refine ⟨List.forall_mem_cons.mpr ⟨h.1.legible, hlegible⟩, ?_⟩
    rw [Expr.outlines, Outline.exprs, h.1.expr, hread, Expr.relabelAll]

/-- An expression of tokens that a listing shows can be read back. -/
theorem Expr.Written.reread {e : Expr} (h : e.Written Token.Listed) : e.Reread := by
  induction h with
  | literal ht hv => exact Expr.reread_literal ht hv
  | always => exact Expr.reread_bool true
  | grouping _ ih =>
    refine ⟨Outline.legible_list (by decide) (List.forall_mem_singleton.mpr ih.legible), ?_⟩
    rw [Expr.outline, Outline.expr, Outline.exprs, ih.expr]
    rfl
  | unary ht hkind _ ih =>
    obtain ⟨hhead, hread, hnone⟩ :=
      Token.head_of_operator ht.spelled (by simp [operatorKinds, hkind])
    refine ⟨.list hhead (List.forall_mem_singleton.mpr ih.legible), ?_⟩
    rw [Expr.outline, Outline.expr, Outline.exprs, ih.expr, Outline.exprs, Expr.ofList_sign hnone,
      hread]
    rfl
  | binary _ ht hkind _ ihl ihr =>
    obtain ⟨hlegible, hread⟩ :=
      Expr.reread_operator ht.spelled (by simp [operatorKinds, hkind]) ihl ihr
    have hoperator : ∀ kind ∈ Role.operator.kinds, kind ∉ Role.connective.kinds := by decide
    exact ⟨hlegible, hread.trans (if_neg (hoperator _ hkind))⟩
  | logical _ ht hkind _ ihl ihr =>
    obtain ⟨hlegible, hread⟩ :=
      Expr.reread_operator ht.spelled (by simp [operatorKinds, hkind]) ihl ihr
    exact ⟨hlegible, hread.trans (if_pos hkind)⟩
  | «variable» hx hkind =>
    obtain ⟨hlegible, hread, -⟩ := Token.outline_of_identifier hx.spelled hkind
    exact ⟨hlegible, hread⟩
  | assign hx hkind _ ih =>
    obtain ⟨hlegible, hread, -⟩ := Token.outline_of_identifier hx.spelled hkind
    refine ⟨Outline.legible_list (by decide) (by simp [hlegible, ih.legible]), ?_⟩
    rw [Expr.outline, Outline.expr, Outline.exprs, hread, Outline.exprs, ih.expr]
    rfl
  | call _ ht hkind _ ihf ihes =>
    obtain ⟨hlegible, hread⟩ := Expr.reread_all ihes
    have hclose : Relabeling.unplaced.token _ = Token.ofWord ")" :=
      Token.unplaced_of_kind ht.spelled ")" (by simp [spellings, hkind])
    refine ⟨Outline.legible_list (by decide) (List.forall_mem_cons.mpr ⟨ihf.legible, hlegible⟩), ?_⟩
    rw [Expr.outline, Outline.expr, Outline.exprs, ihf.expr, hread, Expr.relabel, hclose]
    rfl

/-! ## Statements -/

/-- Whether a listing shows a statement, and the statement can be read back from it. -/
structure Stmt.Reread (s : Stmt) : Prop where
  legible : s.outline.Legible
  stmt : s.outline.stmt = s.relabel .unplaced

theorem Stmt.reread_all {ss : List Stmt} (h : ∀ s ∈ ss, s.Reread) :
    (∀ s ∈ Stmt.outlines ss, s.Legible) ∧
      Outline.stmts (Stmt.outlines ss) = Stmt.relabelAll .unplaced ss := by
  induction ss with
  | nil => exact ⟨fun _ hs => absurd hs List.not_mem_nil, rfl⟩
  | cons s ss ih =>
    rw [List.forall_mem_cons] at h
    obtain ⟨hlegible, hread⟩ := ih h.2
    refine ⟨List.forall_mem_cons.mpr ⟨h.1.legible, hlegible⟩, ?_⟩
    rw [Stmt.outlines, Outline.stmts, h.1.stmt, hread, Stmt.relabelAll]

theorem Declaration.reread_parameters {xs : List Token}
    (h : ∀ p ∈ xs, p.Listed ∧ p.kind = .identifier) :
    (Declaration.outlineParameters xs).Legible ∧
      (Declaration.outlineParameters xs).names = xs.map Token.unplaced := by
  cases xs with
  | nil => exact ⟨Outline.legible_list (by decide) fun _ hs => absurd hs List.not_mem_nil, rfl⟩
  | cons x xs =>
    rw [List.forall_mem_cons] at h
    obtain ⟨hword, hread⟩ := Token.word_of_identifier h.1.1.spelled h.1.2
    refine ⟨.list (Outline.continues_word hword) fun s hs => ?_, ?_⟩
    · obtain ⟨p, hp, rfl⟩ := List.mem_map.mp hs
      exact (Token.outline_of_identifier (h.2 p hp).1.spelled (h.2 p hp).2).1
    · have hnonempty : x.lexeme ≠ "" := by
        rintro hempty
        obtain ⟨c, rest, htext, -⟩ := hword
        rw [hempty] at htext
        cases htext
      have hnames : (xs.map Token.outline).map Outline.name = xs.map Token.unplaced := by
        rw [List.map_map]
        exact List.map_congr_left fun p hp =>
          (Token.outline_of_identifier (h.2 p hp).1.spelled (h.2 p hp).2).2.2
      rw [Declaration.outlineParameters, Outline.names, hread, hnames]
      · rfl
      · exact hnonempty

/-- A statement of tokens that a listing shows can be read back. -/
theorem Stmt.Written.reread {s : Stmt} (h : s.Written Token.Listed) : s.Reread := by
  induction h with
  | print ht hkind he =>
    have hkeyword : Relabeling.unplaced.token _ = Token.ofWord "print" :=
      Token.unplaced_of_kind ht.spelled "print" (by simp [spellings, hkind])
    refine ⟨Outline.legible_list (by decide) (List.forall_mem_singleton.mpr he.reread.legible), ?_⟩
    rw [Stmt.outline, Outline.stmt, Stmt.relabel, hkeyword, ← he.reread.expr]
    rfl
  | expression he =>
    refine ⟨Outline.legible_list (by decide) (List.forall_mem_singleton.mpr he.reread.legible), ?_⟩
    rw [Stmt.outline, Outline.stmt, Stmt.relabel, ← he.reread.expr]
    rfl
  | @declare x e hx hkind he =>
    obtain ⟨hlegible, -, hname⟩ := Token.outline_of_identifier hx.spelled hkind
    have hname : Relabeling.unplaced.token x = x.outline.name := hname.symm
    cases e with
    | none =>
      refine ⟨Outline.legible_list (by decide) (List.forall_mem_singleton.mpr hlegible), ?_⟩
      rw [Stmt.outline, Outline.stmt, Stmt.relabel, hname]
      rfl
    | some e =>
      have hreread := (he e rfl).reread
      refine ⟨Outline.legible_list (by decide) (by simp [hlegible, hreread.legible]), ?_⟩
      rw [Stmt.outline, Outline.stmt, Stmt.relabel, hname, Expr.relabelOptional, ← hreread.expr]
      rfl
  | block _ ih =>
    obtain ⟨hlegible, hread⟩ := Stmt.reread_all ih
    refine ⟨Outline.legible_list (by decide) hlegible, ?_⟩
    rw [Stmt.outline, Outline.stmt, Stmt.relabel, hread]
    rfl
  | @branch c s t hc _ _ ihs iht =>
    have hcondition := hc.reread
    cases t with
    | none =>
      refine ⟨Outline.legible_list (by decide) (by simp [hcondition.legible, ihs.legible]), ?_⟩
      rw [Stmt.outline, Outline.stmt, Stmt.relabel, Stmt.relabelOptional, ← hcondition.expr,
        ← ihs.stmt]
      rfl
    | some t =>
      have ht := iht t rfl
      refine ⟨Outline.legible_list (by decide) (by simp [hcondition.legible, ihs.legible,
        ht.legible]), ?_⟩
      rw [Stmt.outline, Outline.stmt, Stmt.relabel, Stmt.relabelOptional, ← hcondition.expr,
        ← ihs.stmt, ← ht.stmt]
      rfl
  | loop hc _ ih =>
    have hcondition := hc.reread
    refine ⟨Outline.legible_list (by decide) (by simp [hcondition.legible, ih.legible]), ?_⟩
    rw [Stmt.outline, Outline.stmt, Stmt.relabel, ← hcondition.expr, ← ih.stmt]
    rfl
  | @function x xs ss hx hkind hxs _ ih =>
    obtain ⟨hlegible, -, hname⟩ := Token.outline_of_identifier hx.spelled hkind
    obtain ⟨hparameters, hnames⟩ := Declaration.reread_parameters hxs
    obtain ⟨hbody, hread⟩ := Stmt.reread_all ih
    have hname : Relabeling.unplaced.token x = x.outline.name := hname.symm
    refine ⟨Outline.legible_list (by decide) (List.forall_mem_cons.mpr ⟨hlegible,
      List.forall_mem_cons.mpr ⟨hparameters, hbody⟩⟩), ?_⟩
    rw [Stmt.outline, Outline.stmt, Stmt.relabel, Declaration.relabel, hname, ← hread]
    show Stmt.function ⟨_, Outline.names _, _⟩ = Stmt.function ⟨_, xs.map Token.unplaced, _⟩
    rw [hnames]
  | @ret t e ht hkind he =>
    have hkeyword : Relabeling.unplaced.token t = Token.ofWord "return" :=
      Token.unplaced_of_kind ht.spelled "return" (by simp [spellings, hkind])
    cases e with
    | none =>
      refine ⟨Outline.legible_list (by decide) fun _ hs => absurd hs List.not_mem_nil, ?_⟩
      rw [Stmt.outline, Outline.stmt, Stmt.relabel, hkeyword]
      rfl
    | some e =>
      have hreread := (he e rfl).reread
      refine ⟨Outline.legible_list (by decide) (List.forall_mem_singleton.mpr hreread.legible), ?_⟩
      rw [Stmt.outline, Outline.stmt, Stmt.relabel, hkeyword, Expr.relabelOptional, ← hreread.expr]
      rfl

/-! ## Sources -/

/-- The tokens of a source in which a listing shows what they hold. -/
theorem Token.listed_of_scan {source : String}
    (h : ∀ t ∈ (scan source).tokens, t.form.isListed = true) :
    ∀ t ∈ (scan source).tokens, t.Listed :=
  fun t ht => ⟨spelled_of_scan ht, h t ht⟩

theorem Program.reread {source : String}
    (h : ∀ t ∈ (scan source).tokens, t.form.isListed = true) :
    ∀ s ∈ (ofSource source).statements, s.Reread :=
  fun s hs => (written (Token.listed_of_scan h) s hs).reread

/-- A listing of a program loses nothing but the places of its tokens.  Of two sources without
strings and without numbers beyond the doubles, the listings are the same exactly if the programs
are the same up to places. -/
theorem listings_lose_places {a b : String}
    (ha : ∀ t ∈ (scan a).tokens, t.form.isListed = true)
    (hb : ∀ t ∈ (scan b).tokens, t.form.isListed = true) :
    Stmt.renderAll (Program.ofSource a).statements =
        Stmt.renderAll (Program.ofSource b).statements ↔
      Stmt.relabelAll .unplaced (Program.ofSource a).statements =
        Stmt.relabelAll .unplaced (Program.ofSource b).statements := by
  obtain ⟨hlegible, hread⟩ := Stmt.reread_all (Program.reread ha)
  obtain ⟨hlegible', hread'⟩ := Stmt.reread_all (Program.reread hb)
  constructor
  · intro h
    rw [← Stmt.writeAll_outlines, ← Stmt.writeAll_outlines] at h
    rw [← hread, ← hread', Outline.writeAll_injective hlegible hlegible' h]
  · intro h
    have hunplaced := Stmt.renderAll_relabelAll Relabeling.faithful_unplaced
    rw [← hunplaced (Program.ofSource a).statements, h, hunplaced]

/-- The same function on one line and on two. -/
theorem listings_lose_places_function :
    let a := "fun f(x) \x7breturn -x;\x7d"
    let b := "fun f(x) // negates\n\x7b return - x ; \x7d"
    (∀ t ∈ (scan a).tokens, t.form.isListed = true) ∧
      (∀ t ∈ (scan b).tokens, t.form.isListed = true) ∧
      Stmt.renderAll (Program.ofSource a).statements = ["(fun f (x) (return (- x)))"] ∧
      Stmt.renderAll (Program.ofSource b).statements = ["(fun f (x) (return (- x)))"] ∧
      Stmt.relabelAll .unplaced (Program.ofSource a).statements =
        Stmt.relabelAll .unplaced (Program.ofSource b).statements := by
  intro a b
  have ha : ∀ t ∈ (scan a).tokens, t.form.isListed = true := by
    rw [← List.all_eq_true]
    cbv
  have hb : ∀ t ∈ (scan b).tokens, t.form.isListed = true := by
    rw [← List.all_eq_true]
    cbv
  have hlist : Stmt.renderAll (Program.ofSource a).statements = ["(fun f (x) (return (- x)))"] := by
    cbv
  have hlist' : Stmt.renderAll (Program.ofSource b).statements = ["(fun f (x) (return (- x)))"] := by
    cbv
  exact ⟨ha, hb, hlist, hlist', (listings_lose_places ha hb).mp (hlist.trans hlist'.symm)⟩

end Lox
