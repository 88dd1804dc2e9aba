import Mathlib.Data.Set.Function
import Lox.Proofs.Comparison.Faults
import Lox.Proofs.Relabeling.Mirrors
import Lox.Proofs.Source.Lexemes

/-!
Other names.

A renaming gives every identifier another name, consistently and without making two names one.  Then
functions stay the same or different, and a name is bound in the scopes in which the old one was.
-/

namespace Lox

/-- What an identifier may read: a word that is not reserved. -/
def IsName (x : String) : Prop := Word x.toList ∧ ∀ kind, (x, kind) ∉ reserved

theorem isName_clock : IsName Native.clock.name := by
  refine ⟨⟨'c', ['l', 'o', 'c', 'k'], by simp [Native.clock], ?_, ?_⟩, ?_⟩
  · exact .inr (.inl (by decide))
  · simp [IsLetter]
  · simp [reserved, Native.clock]

/-! ## Tokens -/

/-- The token with another name, if it is an identifier. -/
def Token.rename (r : String → String) (t : Token) : Token :=
  if t.kind = .identifier then { t with lexeme := r t.lexeme } else t

/-- Gives every identifier another name. -/
def Relabeling.renaming (r : String → String) : Relabeling := ⟨Token.rename r, fun s => s⟩

/-- Whether a token reads as an identifier may, if it is one. -/
def Token.Named (t : Token) : Prop := t.kind = .identifier → IsName t.lexeme

variable {r : String → String}

namespace Token

variable {t : Token}

theorem rename_of_identifier (h : t.kind = .identifier) :
    t.rename r = { t with lexeme := r t.lexeme } := if_pos h

theorem rename_of_ne (h : t.kind ≠ .identifier) : t.rename r = t := if_neg h

theorem kind_rename (t : Token) : (t.rename r).kind = t.kind := by
  unfold rename
  split <;> rfl

end Token

namespace Role.Suits

variable {T : Token → Prop} {t : Token}

theorem identifier (h : Role.name.Suits T t) : t.kind = .identifier := by
  simpa [Role.kinds] using h.kind

/-- Trees hold identifiers as names only. -/
theorem not_identifier {role : Role} (h : role.Suits T t) (hrole : role ≠ .name := by simp) :
    t.kind ≠ .identifier := by
  intro ht
  have hk := h.kind
  rw [ht] at hk
  cases role <;> simp [Role.kinds, Level.operators] at hk hrole

theorem isName (h : Role.name.Suits Token.Named t) : IsName t.lexeme := h.known h.identifier

theorem lexeme_rename (h : Role.name.Suits T t) : (t.rename r).lexeme = r t.lexeme := by
  rw [Token.rename_of_identifier h.identifier]

end Role.Suits

/-! Identifiers of sources read as they may. -/

theorem Lexeme.isName {form : Form} {text : List Char} (h : Lexeme (.token form) text)
    (hform : form.kind = .identifier) : IsName (String.ofList text) := by
  cases h with
  | sign _ hmem =>
    cases hform
    simp [signs] at hmem
  | keyword _ _ hmem =>
    cases hform
    simp [reserved] at hmem
  | identifier _ hword hfree => exact ⟨by rwa [String.toList_ofList], hfree⟩
  | integer | fraction | string => simp [Form.kind] at hform

theorem Token.named_of_scan {source : String} {t : Token} (ht : t ∈ (scan source).tokens) :
    t.Named := by
  intro hkind
  have hlexeme := Scan.lexeme_of_mem ht (by rw [hkind]; decide)
  rw [← String.ofList_toList (s := t.lexeme)]
  exact hlexeme.isName hkind

/-! ## Values -/

/-- A declaration as programs write it. -/
structure Declaration.Named (d : Declaration) : Prop where
  name : Role.name.Suits Token.Named d.name
  fits : d.Fits (Role.Suits Token.Named)

/-- A value whose function, if it is one, was declared as programs write it. -/
def Value.Named : Value → Prop
  | .function f => f.declaration.Named
  | _ => True

/-- A value under other names. -/
def Value.Renamed (r : String → String) (v w : Value) : Prop :=
  w = v.relabel (.renaming r) ∧ v.Named

/-- The text of a value under other names. -/
def Value.textAs (r : String → String) : Value → String
  | .function f => "<fn " ++ r f.name ++ ">"
  | v => v.text

theorem Value.named_of_arity? {v : Value} (h : v.arity? = none) : v.Named := by
  cases v with
  | function f => simp [Value.arity?] at h
  | nil | bool _ | number _ | string _ | native _ => trivial

theorem Closure.name_rename {f : Closure} (hf : f.declaration.Named) :
    (f.relabel (.renaming r)).name = r f.name := by
  obtain ⟨⟨name, parameters, body⟩, site, scope⟩ := f
  exact hf.name.lexeme_rename

theorem Value.text_rename {v : Value} (hv : v.Named) :
    (v.relabel (.renaming r)).text = v.textAs r := by
  cases v with
  | function f =>
    rw [Value.relabel, Value.text, Closure.text, Closure.name_rename hv]
    rfl
  | nil | bool _ | number _ | string _ | native _ => rfl

section

variable (hr : Set.InjOn r {x | IsName x})
include hr

/-- Names that differ still do. -/
theorem Closure.same_rename {f g : Closure} (hf : f.declaration.Named) (hg : g.declaration.Named) :
    (f.relabel (.renaming r)).same (g.relabel (.renaming r)) = f.same g := by
  have hname : (r f.name == r g.name) = (f.name == g.name) := by
    rw [Bool.eq_iff_iff, beq_iff_eq, beq_iff_eq]
    exact hr.eq_iff hf.name.isName hg.name.isName
  rw [Closure.same, Closure.name_rename hf, Closure.name_rename hg, hname]
  cases f
  cases g
  rfl

theorem Value.equals_rename {v w : Value} (hv : v.Named) (hw : w.Named) :
    (v.relabel (.renaming r)).equals (w.relabel (.renaming r)) = v.equals w := by
  cases v with
  | function f =>
    cases w with
    | function g => exact Closure.same_rename hr hv hw
    | nil | bool _ | number _ | string _ | native _ => rfl
  | nil | bool _ | number _ | string _ | native _ => cases w <;> rfl

theorem Value.binary_rename (operator : Kind) {v w : Value} (hv : v.Named) (hw : w.Named) :
    (v.relabel (.renaming r)).binary operator (w.relabel (.renaming r)) =
      (v.binary operator w).map (·.relabel (.renaming r)) :=
  Value.binary_relabel_of_equals operator (Value.equals_rename hr hv hw)

end

/-! Operators give no functions and look up no names. -/

/-- Whether a result may come from an operator. -/
def Computed : Except RuntimeFault Value → Prop
  | .ok v => v.arity? = none
  | .error fault => fault ≠ .undefinedVariable

theorem computed_unary (operator : Kind) (v : Value) : Computed (v.unary operator) := by
  unfold Value.unary
  split <;> simp [Computed, Value.arity?]

theorem computed_arithmetic (operator : Kind) (x y : Float) :
    Computed (Value.arithmetic operator x y) := by
  unfold Value.arithmetic
  split <;> simp [Computed, Value.arity?]

theorem computed_binary (operator : Kind) (v w : Value) : Computed (v.binary operator w) := by
  unfold Value.binary
  split
  · simp [Computed, Value.arity?]
  · simp [Computed, Value.arity?]
  · split <;> simp [Computed, Value.arity?]
  · split
    · exact computed_arithmetic operator _ _
    · simp [Computed]

/-! ## Stores -/

/-- Whether the scopes of `τ` bind under other names what those of `σ` bind. -/
structure Store.Renamed (r : String → String) (σ τ : Store) : Prop where
  size : τ.size = σ.size
  enclosing : ∀ id, τ.enclosing? id = σ.enclosing? id
  bindings : ∀ id x, IsName x →
    τ.local? id (r x) = (σ.local? id x).map (·.relabel (.renaming r))
  values : ∀ id x v, σ.local? id x = some v → v.Named

namespace Store.Renamed

variable {σ τ : Store} {id : ScopeId} {x : String}

theorem empty : Renamed r .empty .empty where
  size := rfl
  enclosing _ := rfl
  bindings id x _ := by simp [local?, Store.empty]
  values id x v hv := by simp [local?, Store.empty] at hv

theorem find? (h : Renamed r σ τ) (hx : IsName x) (id : ScopeId) :
    τ.find? (r x) id = (σ.find? x id).map fun found =>
      (found.1, found.2.relabel (.renaming r)) :=
  find?_map h.enclosing (fun i => h.bindings i x hx) id

theorem get? (h : Renamed r σ τ) (hx : IsName x) (id : ScopeId) :
    τ.get? id (r x) = (σ.get? id x).map (·.relabel (.renaming r)) := by
  rw [Store.get?, Store.get?, h.find? hx]
  cases σ.find? x id <;> rfl

theorem named_of_get? (h : Renamed r σ τ) {v : Value} (hv : σ.get? id x = some v) : v.Named := by
  obtain ⟨⟨holder, w⟩, hfound, rfl⟩ := Option.map_eq_some_iff.mp hv
  exact h.values holder x w (local?_of_find? hfound).2

theorem define (hr : Set.InjOn r {x | IsName x}) (h : Renamed r σ τ) (hx : IsName x)
    (id : ScopeId) {v : Value} (hv : v.Named) :
    Renamed r (σ.define id x v) (τ.define id (r x) (v.relabel (.renaming r))) where
  size := by rw [size_define, size_define, h.size]
  enclosing i := by rw [enclosing?_define, enclosing?_define, h.enclosing]
  values i y w hw := by
    rcases local?_of_define hw with ⟨-, rfl⟩ | hw
    · exact hv
    · exact h.values i y w hw
  bindings i y hy := local?_define_map h.size (hr.eq_iff hy hx) (h.bindings i y hy) v

theorem addChild (h : Renamed r σ τ) (outer : ScopeId) :
    Renamed r (σ.addChild outer) (τ.addChild outer) where
  size := by rw [size_addChild, size_addChild, h.size]
  bindings i y hy := by rw [local?_addChild, local?_addChild, h.bindings i y hy]
  values i y v hv := h.values i y v (by rwa [local?_addChild] at hv)
  enclosing := enclosing?_addChild_congr h.size h.enclosing outer

end Store.Renamed
end Lox
