import Lox.Proofs.Evaluation.Actions
import Lox.Proofs.Grammar.Derivation

/-!
Statements outside of functions do not return.

Outside of function bodies the grammar has no `return`, so the statements of a program end by
themselves whenever they end.
-/

namespace Lox

/-- A statement with no `return` in it but those inside of functions. -/
inductive Stmt.Returnless : Stmt → Prop
  | print {keyword : Token} {e : Expr} : Returnless (.print keyword e)
  | expression {e : Expr} : Returnless (.expression e)
  | declare {x : Token} {e : Option Expr} : Returnless (.declare x e)
  | function {d : Declaration} : Returnless (.function d)
  | block {ss : List Stmt} : (∀ s ∈ ss, Returnless s) → Returnless (.block ss)
  | branch {c : Expr} {s : Stmt} {t : Option Stmt} :
      Returnless s → (∀ u ∈ t, Returnless u) → Returnless (.branch c s t)
  | loop {c : Expr} {s : Stmt} : Returnless s → Returnless (.loop c s)

/-! ## Programs -/

theorem Stmt.Returnless.forLoop {i : Option Stmt} {c : Expr} {n : Option Expr} {s : Stmt}
    (hi : ∀ t ∈ i, t.Returnless) (hs : s.Returnless) : (Stmt.forLoop i c n s).Returnless := by
  have hloop : (Stmt.forLoop none c n s).Returnless := by
    cases n with
    | none => exact .loop hs
    | some e =>
      refine .loop (.block (List.forall_mem_cons.mpr ⟨hs, ?_⟩))
      exact List.forall_mem_singleton.mpr .expression
  cases i with
  | none => exact hloop
  | some t =>
    exact .block (List.forall_mem_cons.mpr ⟨hi t rfl, List.forall_mem_singleton.mpr hloop⟩)

namespace Grammar

variable {Before : Ending → Prop}

theorem ExpressionStatement.returnless {ts : List Token} {s : Stmt}
    (h : ExpressionStatement ts s) : s.Returnless := by
  cases h
  exact .expression

theorem VariableDeclaration.returnless {ts : List Token} {s : Stmt}
    (h : VariableDeclaration ts s) : s.Returnless := by
  cases h <;> exact .declare

theorem Initializer.returnless {ts : List Token} {i : Option Stmt} (h : Initializer ts i) :
    ∀ s ∈ i, s.Returnless := by
  rintro s hs
  cases h with
  | none _ => exact nomatch hs
  | «variable» h => exact Option.mem_some.mp hs ▸ h.returnless
  | expression h => exact Option.mem_some.mp hs ▸ h.returnless

mutual

theorem Statement.returnless : ∀ {inside : Bool} {a : Ending} {ts : List Token} {s : Stmt},
    Statement Before inside a ts s → inside = false → s.Returnless
  | _, _, _, _, .expression h, _ => h.returnless
  | _, _, _, _, .print _ _ _, _ => .print
  | _, _, _, _, .ret _ _ _, hin => nomatch hin
  | _, _, _, _, .block _ h _, hin => .block (h.returnless hin)
  | _, _, _, _, .branch _ _ _ _ h, hin => .branch (h.returnless hin) nofun
  | _, _, _, _, .branchElse _ _ _ _ h _ _ h', hin =>
    .branch (h.returnless hin) fun _ hu => Option.mem_some.mp hu ▸ h'.returnless hin
  | _, _, _, _, .loop _ _ _ _ h, hin => .loop (h.returnless hin)
  | _, _, _, _, .forLoop _ _ hi _ _ _ _ h, hin => .forLoop hi.returnless (h.returnless hin)

theorem Declaration.returnless : ∀ {inside : Bool} {ts : List Token} {s : Stmt},
    Declaration Before inside ts s → inside = false → s.Returnless
  | _, _, _, .variable h, _ => h.returnless
  | _, _, _, .function _ _ _ _ _ _ _ _, _ => .function
  | _, _, _, .statement h, hin => h.returnless hin

theorem Declarations.returnless : ∀ {inside : Bool} {ts : List Token} {ss : List Stmt},
    Declarations Before inside ts ss → inside = false → ∀ s ∈ ss, s.Returnless
  | _, _, _, .nil, _ => nofun
  | _, _, _, .cons h hs, hin => List.forall_mem_cons.mpr ⟨h.returnless hin, hs.returnless hin⟩

end

end Grammar

/-! ## Runs -/

namespace Action

/-- Whether an action that ends without a fault ends by itself. -/
def Falls (p : Action Flow) : Prop := ∀ m flow m', p m = .ok flow m' → flow = .normal

theorem falls_pure : Falls (pure .normal) := by
  intro m flow m' h
  cases h
  rfl

theorem falls_throw (halt : Halt) : Falls (throw halt) := fun _ _ _ h => nomatch h

theorem falls_bind {α : Type} {p : Action α} {f : α → Action Flow} (hf : ∀ a, Falls (f a)) :
    Falls (p >>= f) := by
  intro m flow m' h
  rw [bind_apply] at h
  cases hp : p m with
  | ok a m₁ =>
    rw [hp] at h
    exact hf a m₁ flow m' h
  | error halt m₁ =>
    rw [hp] at h
    exact nomatch h

/-- What comes behind an action that ends by itself. -/
theorem falls_seq {p : Action Flow} {f : Flow → Action Flow} (hp : Falls p)
    (hf : Falls (f .normal)) : Falls (p >>= f) := by
  intro m flow m' h
  rw [bind_apply] at h
  cases hrun : p m with
  | ok a m₁ =>
    rw [hrun, hp m a m₁ hrun] at h
    exact hf m₁ flow m' h
  | error halt m₁ =>
    rw [hrun] at h
    exact nomatch h

theorem falls_inScope {scope : ScopeId} {p : Action Flow} (hp : Falls p) :
    Falls (inScope scope p) := by
  intro m flow m' h
  unfold inScope at h
  dsimp only at h
  cases hrun : p { m with current := scope } with
  | ok a m₁ =>
    rw [hrun] at h
    cases h
    exact hp _ _ _ hrun
  | error halt m₁ =>
    rw [hrun] at h
    exact nomatch h

end Action

namespace Layer

open Lox.Action

variable {l : Layer} (hl : ∀ site s, s.Returnless → Falls (l.execute site s))
include hl

theorem falls_sequence (outer : Site) (first : Nat) {ss : List Stmt}
    (hss : ∀ s ∈ ss, s.Returnless) : Falls (l.sequence outer first ss) := by
  induction ss generalizing first with
  | nil => exact falls_pure
  | cons s ss ih =>
    obtain ⟨hs, hss⟩ := List.forall_mem_cons.mp hss
    exact falls_seq (hl _ s hs) (ih (first + 1) hss)

theorem falls_repeatWhile (site : Site) (condition : Expr) {body : Stmt} (hs : body.Returnless)
    (n : Nat) : Falls (l.repeatWhile site condition body n) := by
  induction n with
  | zero => exact falls_throw _
  | succ n ih =>
    refine falls_bind fun v => ?_
    split
    · exact falls_seq (hl _ body hs) ih
    · exact falls_pure

theorem falls_executeOf (fuel : Nat) (site : Site) {s : Stmt} (hs : s.Returnless) :
    Falls (l.executeOf fuel site s) := by
  cases hs with
  | print => exact falls_bind fun _ => falls_bind fun _ => falls_pure
  | expression => exact falls_bind fun _ => falls_pure
  | declare => exact falls_bind fun _ => falls_bind fun _ => falls_pure
  | function => exact falls_bind fun _ => falls_bind fun _ => falls_pure
  | block hss =>
    exact falls_bind fun _ => falls_bind fun _ => falls_inScope (falls_sequence hl _ _ hss)
  | @branch c s t hs ht =>
    refine falls_bind fun v => ?_
    split
    · exact hl _ s hs
    · cases t with
      | none => exact falls_pure
      | some u => exact hl _ u (ht u rfl)
  | loop hs => exact falls_repeatWhile hl site _ hs fuel

end Layer

theorem falls_execute (host : Host) (fuel : Nat) (site : Site) {s : Stmt} (hs : s.Returnless) :
    Action.Falls ((layer host fuel).execute site s) := by
  induction fuel generalizing site s with
  | zero => exact Action.falls_throw _
  | succ n ih => exact Layer.falls_executeOf (fun site s hs => ih site hs) n site hs

end Lox
