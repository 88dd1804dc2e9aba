import Mathlib.Data.Option.Basic
import Lox.Proofs.Relabeling.Mirrors

/-!
Stores with passages.

A passage is a scope that binds nothing and that something encloses, so that whoever looks a name up
from it looks the name up around it.  Folding every passage into the scope around it gives a store
without it, in which the other scopes have other numbers and are otherwise the same.
-/

namespace Lox

/-- Where each scope of one store is found in another one.  The scopes below `old` were there before
the stores went apart.  A passage is found where the scope around it is. -/
structure Folding (old : Nat) where
  /-- The number of scopes in the store with passages. -/
  made : Nat
  scope : ScopeId → ScopeId
  passage : ScopeId → Prop
  old_le : old ≤ made
  fixes : ∀ i < old, scope i = i
  kept : ∀ i < old, ¬passage i
  injective : ∀ i < made, ∀ j < made, ¬passage i → ¬passage j → scope i = scope j → i = j

namespace Folding

variable {old : Nat}

/-- Whether a scope was made and is no passage. -/
def Keeps (w : Folding old) (i : ScopeId) : Prop := i < w.made ∧ ¬w.passage i

theorem keeps_old (w : Folding old) {i : ScopeId} (h : i < old) : w.Keeps i :=
  ⟨Nat.lt_of_lt_of_le h w.old_le, w.kept i h⟩

/-- Values that differ in where a function was declared, and in nothing else.  The trees of a
function mention old scopes only. -/
inductive Alike (w : Folding old) : Value → Value → Prop
  | function {d : Declaration} {i : ScopeId} (site : Site) : Within (· < old) d.scopes →
      w.Keeps i → Alike w (.function ⟨d, site, i⟩) (.function ⟨d, site, w.scope i⟩)
  | plain {v : Value} : v.scopes = [] → Alike w v v

/-- Whether `τ` is the store `σ` with its passages folded. -/
structure Folds (w : Folding old) (σ τ : Store) : Prop where
  size : σ.size = w.made
  image : ∀ i < w.made, w.scope i < τ.size
  onto : ∀ j < τ.size, ∃ i, w.Keeps i ∧ w.scope i = j
  enclosing : ∀ i, w.Keeps i → τ.enclosing? (w.scope i) = (σ.enclosing? i).map w.scope
  bindings : ∀ i, w.Keeps i → ∀ x, Option.Rel w.Alike (σ.local? i x) (τ.local? (w.scope i) x)
  unbound : ∀ i < w.made, w.passage i → ∀ x, σ.local? i x = none
  through : ∀ i < w.made, w.passage i →
    ∃ outer, σ.enclosing? i = some outer ∧ w.scope i = w.scope outer

/-! ## Folding on -/

/-- What was folded before is folded in the same way. -/
structure Later (w w' : Folding old) : Prop where
  made : w.made ≤ w'.made
  scope : ∀ i < w.made, w'.scope i = w.scope i
  passage : ∀ i < w.made, (w'.passage i ↔ w.passage i)

namespace Later

variable {w w' w'' : Folding old}

theorem refl (w : Folding old) : Later w w := ⟨Nat.le_refl _, fun _ _ => rfl, fun _ _ => Iff.rfl⟩

theorem trans (h : Later w w') (k : Later w' w'') : Later w w'' where
  made := Nat.le_trans h.made k.made
  scope i hi := (k.scope i (Nat.lt_of_lt_of_le hi h.made)).trans (h.scope i hi)
  passage i hi := (k.passage i (Nat.lt_of_lt_of_le hi h.made)).trans (h.passage i hi)

theorem keeps (h : Later w w') {i : ScopeId} (hi : w.Keeps i) : w'.Keeps i :=
  ⟨Nat.lt_of_lt_of_le hi.1 h.made, fun hp => hi.2 ((h.passage i hi.1).mp hp)⟩

theorem alike (h : Later w w') {v v' : Value} (hv : w.Alike v v') : w'.Alike v v' := by
  cases hv with
  | @function d i site hd hi =>
    rw [← h.scope i hi.1]
    exact .function site hd (h.keeps hi)
  | plain hv => exact .plain hv

end Later

/-- Nothing is folded yet. -/
def start (old : Nat) : Folding old where
  made := old
  scope i := i
  passage _ := False
  old_le := Nat.le_refl _
  fixes _ _ := rfl
  kept _ _ := id
  injective _ _ _ _ _ _ h := h

/-- A new scope on both sides, which is `j` in the folded store. -/
def keep (w : Folding old) (j : ScopeId) (hj : ∀ i < w.made, w.scope i < j) : Folding old where
  made := w.made + 1
  scope i := if i = w.made then j else w.scope i
  passage i := w.passage i ∧ i ≠ w.made
  old_le := Nat.le_succ_of_le w.old_le
  fixes i hi := by
    rw [if_neg (Nat.ne_of_lt (Nat.lt_of_lt_of_le hi w.old_le)), w.fixes i hi]
  kept i hi hp := w.kept i hi hp.1
  injective i hi k hk hpi hpk h := by
    have below : ∀ l < w.made + 1, l ≠ w.made → l < w.made := fun l hl hne =>
      Nat.lt_of_le_of_ne (Nat.le_of_lt_succ hl) hne
    by_cases hi' : i = w.made <;> by_cases hk' : k = w.made
    · rw [hi', hk']
    · rw [if_pos hi', if_neg hk'] at h
      exact absurd h (Nat.ne_of_gt (hj k (below k hk hk')))
    · rw [if_neg hi', if_pos hk'] at h
      exact absurd h (Nat.ne_of_lt (hj i (below i hi hi')))
    · rw [if_neg hi', if_neg hk'] at h
      exact w.injective i (below i hi hi') k (below k hk hk') (fun hp => hpi ⟨hp, hi'⟩)
        (fun hp => hpk ⟨hp, hk'⟩) h

/-- A new passage inside `outer`. -/
def pass (w : Folding old) (outer : ScopeId) : Folding old where
  made := w.made + 1
  scope i := if i = w.made then w.scope outer else w.scope i
  passage i := w.passage i ∨ i = w.made
  old_le := Nat.le_succ_of_le w.old_le
  fixes i hi := by
    rw [if_neg (Nat.ne_of_lt (Nat.lt_of_lt_of_le hi w.old_le)), w.fixes i hi]
  kept i hi hp := by
    have hne := Nat.ne_of_lt (Nat.lt_of_lt_of_le hi w.old_le)
    exact hp.elim (w.kept i hi) hne
  injective i hi k hk hpi hpk h := by
    obtain ⟨hpi, hi'⟩ := not_or.mp hpi
    obtain ⟨hpk, hk'⟩ := not_or.mp hpk
    rw [if_neg hi', if_neg hk'] at h
    exact w.injective i (Nat.lt_of_le_of_ne (Nat.le_of_lt_succ hi) hi') k
      (Nat.lt_of_le_of_ne (Nat.le_of_lt_succ hk) hk') hpi hpk h

theorem later_keep (w : Folding old) (j : ScopeId) (hj : ∀ i < w.made, w.scope i < j) :
    w.Later (w.keep j hj) where
  made := Nat.le_succ _
  scope _ hi := if_neg (Nat.ne_of_lt hi)
  passage _ hi := and_iff_left (Nat.ne_of_lt hi)

theorem later_pass (w : Folding old) (outer : ScopeId) : w.Later (w.pass outer) where
  made := Nat.le_succ _
  scope _ hi := if_neg (Nat.ne_of_lt hi)
  passage _ hi := or_iff_left (Nat.ne_of_lt hi)

/-! ## Values -/

section

variable {w : Folding old}

/-- The folding as a relabeling. -/
def relabeling (w : Folding old) : Relabeling := ⟨fun t => t, w.scope⟩

theorem faithful (w : Folding old) : w.relabeling.Faithful w.Keeps where
  form _ := rfl
  lexeme _ := rfl
  injective i j hi hj h := w.injective i hi.1 j hj.1 hi.2 hj.2 h

theorem fixes_of_within {ids : List ScopeId} (h : Within (· < old) ids) :
    w.relabeling.Fixes ids :=
  ⟨fun _ => rfl, fun i hi => w.fixes i (h i hi)⟩

/-- Alike values are relabeled ones. -/
theorem Alike.image {v v' : Value} (h : w.Alike v v') :
    v' = v.relabel w.relabeling ∧ Within w.Keeps v.scopes := by
  cases h with
  | @function d i site hd hi =>
    refine ⟨?_, fun j hj => ?_⟩
    · rw [Value.relabel, Closure.relabel, Declaration.relabel_eq_self d (fixes_of_within hd)]
      rfl
    · rcases List.mem_cons.mp hj with rfl | hj
      · exact hi
      · exact w.keeps_old (hd j hj)
  | plain hv =>
    have hnone : ∀ L : ScopeId → Prop, Within L v.scopes := fun L => by
      rw [hv]
      exact .nil
    exact ⟨(Value.relabel_eq_self v (fixes_of_within (hnone _))).symm, hnone _⟩

theorem alike_old {v : Value} (h : Within (· < old) v.scopes) : w.Alike v v := by
  cases v with
  | function f =>
    obtain ⟨d, site, i⟩ := f
    have hi : i < old := h i List.mem_cons_self
    have halike := Alike.function (w := w) site
      (fun j hj => h j (List.mem_cons_of_mem _ hj)) (w.keeps_old hi)
    rwa [w.fixes i hi] at halike
  | nil | bool _ | number _ | string _ | native _ => exact .plain rfl

end

/-! ## Stores -/

namespace Folds

variable {w : Folding old} {σ τ : Store}

/-- A store in which only old scopes are mentioned is folded into itself. -/
theorem start (h : ∀ i x v, σ.local? i x = some v → Within (· < σ.size) v.scopes) :
    (Folding.start σ.size).Folds σ σ where
  size := rfl
  image _ hi := hi
  onto j hj := ⟨j, ⟨hj, id⟩, rfl⟩
  enclosing _ _ := Option.map_id'.symm
  bindings i _ x := by
    show Option.Rel _ (σ.local? i x) (σ.local? i x)
    cases hv : σ.local? i x with
    | none => exact .none
    | some v => exact .some (alike_old (h i x v hv))
  unbound _ _ hp := hp.elim
  through _ _ hp := hp.elim

/-- Names are found in scopes that are kept. -/
theorem find? (h : w.Folds σ τ) (x : String) {i : ScopeId} (hi : i < w.made) :
    Option.Rel (fun a b => w.Keeps a.1 ∧ b.1 = w.scope a.1 ∧ w.Alike a.2 b.2)
      (σ.find? x i) (τ.find? x (w.scope i)) := by
  induction i using Nat.strongRecOn with
  | ind i ih =>
    by_cases hp : w.passage i
    · obtain ⟨outer, he, hscope⟩ := h.through i hi hp
      have hlt := Store.enclosing?_lt he
      rw [Store.find?_of_not_local (h.unbound i hi hp x), he, Option.bind_some, hscope]
      exact ih outer hlt (Nat.lt_trans hlt hi)
    have hlocal := h.bindings i ⟨hi, hp⟩ x
    cases hv : σ.local? i x with
    | some v =>
      rw [hv] at hlocal
      cases hv' : τ.local? (w.scope i) x with
      | none =>
        rw [hv'] at hlocal
        exact nomatch hlocal
      | some v' =>
        rw [hv'] at hlocal
        cases hlocal with
        | some halike =>
          rw [Store.find?_of_local hv, Store.find?_of_local hv']
          exact .some ⟨⟨hi, hp⟩, rfl, halike⟩
    | none =>
      rw [hv] at hlocal
      have hv' : τ.local? (w.scope i) x = none := by
        generalize τ.local? (w.scope i) x = o at hlocal
        cases hlocal
        rfl
      rw [Store.find?_of_not_local hv, Store.find?_of_not_local hv', h.enclosing i ⟨hi, hp⟩]
      cases he : σ.enclosing? i with
      | none => exact .none
      | some outer =>
        have hlt := Store.enclosing?_lt he
        exact ih outer hlt (Nat.lt_trans hlt hi)

theorem define (h : w.Folds σ τ) {i : ScopeId} (hi : w.Keeps i) (x : String) {v v' : Value}
    (hv : w.Alike v v') : w.Folds (σ.define i x v) (τ.define (w.scope i) x v') where
  size := by rw [Store.size_define, h.size]
  image j hj := by rw [Store.size_define]; exact h.image j hj
  onto j hj := by rw [Store.size_define] at hj; exact h.onto j hj
  enclosing j hj := by rw [Store.enclosing?_define, Store.enclosing?_define, h.enclosing j hj]
  bindings j hj y := by
    by_cases hc : j = i ∧ y = x
    · obtain ⟨rfl, rfl⟩ := hc
      rw [Store.local?_define_self (h.size ▸ hj.1), Store.local?_define_self (h.image j hj.1)]
      exact .some hv
    · have hne : j ≠ i ∨ y ≠ x := Decidable.not_and_iff_not_or_not.mp hc
      have hne' : w.scope j ≠ w.scope i ∨ y ≠ x :=
        hne.imp_left fun hij he => hij (w.injective j hj.1 i hi.1 hj.2 hi.2 he)
      rw [Store.local?_define_of_ne hne, Store.local?_define_of_ne hne']
      exact h.bindings j hj y
  unbound j hj hp y := by
    have hne : j ≠ i := fun hij => hi.2 (hij ▸ hp)
    rw [Store.local?_define_of_ne (.inl hne), h.unbound j hj hp y]
  through j hj hp := by
    rw [Store.enclosing?_define]
    exact h.through j hj hp

/-- Folding on changes nothing about what was folded before. -/
theorem enclosing_later (h : w.Folds σ τ) {w' : Folding old} (hl : w.Later w') {i : ScopeId}
    (hi : w.Keeps i) : τ.enclosing? (w'.scope i) = (σ.enclosing? i).map w'.scope := by
  rw [hl.scope i hi.1, h.enclosing i hi]
  cases he : σ.enclosing? i with
  | none => rfl
  | some outer =>
    exact congrArg some (hl.scope outer (Nat.lt_trans (Store.enclosing?_lt he) hi.1)).symm

theorem bindings_later (h : w.Folds σ τ) {w' : Folding old} (hl : w.Later w') {i : ScopeId}
    (hi : w.Keeps i) (x : String) :
    Option.Rel w'.Alike (σ.local? i x) (τ.local? (w'.scope i) x) := by
  rw [hl.scope i hi.1]
  have hlocal := h.bindings i hi x
  generalize σ.local? i x = o, τ.local? (w.scope i) x = o' at hlocal
  cases hlocal with
  | none => exact .none
  | some hv => exact .some (hl.alike hv)

theorem through_later (h : w.Folds σ τ) {w' : Folding old} (hl : w.Later w') {i : ScopeId}
    (hi : i < w.made) (hp : w.passage i) :
    ∃ outer, σ.enclosing? i = some outer ∧ w'.scope i = w'.scope outer := by
  obtain ⟨outer, he, hscope⟩ := h.through i hi hp
  refine ⟨outer, he, ?_⟩
  rw [hl.scope i hi, hl.scope outer (Nat.lt_trans (Store.enclosing?_lt he) hi), hscope]

/-- A new scope in a scope and in the place where that is found. -/
theorem addChild (h : w.Folds σ τ) {outer : ScopeId} (ho : outer < w.made) :
    (w.keep τ.size h.image).Folds (σ.addChild outer) (τ.addChild (w.scope outer)) := by
  have hl := w.later_keep τ.size h.image
  have hnew : (w.keep τ.size h.image).scope w.made = τ.size := if_pos rfl
  -- Every scope is the new one or one from before.
  have hcases : ∀ {i : ScopeId}, (w.keep τ.size h.image).Keeps i → i = w.made ∨ w.Keeps i := by
    intro i hi
    by_cases hne : i = w.made
    · exact .inl hne
    · have hlt := Nat.lt_of_le_of_ne (Nat.le_of_lt_succ hi.1) hne
      exact .inr ⟨hlt, fun hp => hi.2 ⟨hp, hne⟩⟩
  have hsize := h.size
  refine ⟨?_, fun i hi => ?_, fun j hj => ?_, fun i hi => ?_, fun i hi x => ?_,
    fun i hi hp x => ?_, fun i hi hp => ?_⟩
  · rw [Store.size_addChild, hsize]
    rfl
  · rw [Store.size_addChild]
    rcases Nat.lt_succ_iff_lt_or_eq.mp hi with hi | rfl
    · rw [hl.scope i hi]
      exact Nat.lt_succ_of_lt (h.image i hi)
    · rw [hnew]
      exact Nat.lt_succ_self _
  · rw [Store.size_addChild] at hj
    rcases Nat.lt_succ_iff_lt_or_eq.mp hj with hj | rfl
    · obtain ⟨i, hi, rfl⟩ := h.onto j hj
      exact ⟨i, hl.keeps hi, hl.scope i hi.1⟩
    · exact ⟨w.made, ⟨Nat.lt_succ_self _, fun hp => hp.2 rfl⟩, hnew⟩
  · rcases hcases hi with rfl | hi
    · rw [hnew, Store.enclosing?_addChild_self, if_pos (h.image outer ho), ← hsize,
        Store.enclosing?_addChild_self, if_pos (hsize ▸ ho)]
      exact congrArg some (hl.scope outer ho).symm
    · have himage : (w.keep τ.size h.image).scope i < τ.size :=
        (hl.scope i hi.1).symm ▸ h.image i hi.1
      rw [Store.enclosing?_addChild_of_lt _ himage,
        Store.enclosing?_addChild_of_lt _ (hsize ▸ hi.1), h.enclosing_later hl hi]
  · rw [Store.local?_addChild, Store.local?_addChild]
    rcases hcases hi with rfl | hi
    · rw [hnew, Store.local?, Store.local?, Store.scopes_of_le (Nat.le_of_eq hsize),
        Store.scopes_of_le (Nat.le_refl _)]
      exact .none
    · exact h.bindings_later hl hi x
  · have hlt := Nat.lt_of_le_of_ne (Nat.le_of_lt_succ hi) hp.2
    rw [Store.local?_addChild, h.unbound i hlt hp.1 x]
  · have hlt := Nat.lt_of_le_of_ne (Nat.le_of_lt_succ hi) hp.2
    rw [Store.enclosing?_addChild_of_lt _ (hsize ▸ hlt)]
    exact h.through_later hl hlt hp.1

/-- A new scope on one side only is a passage. -/
theorem addPassage (h : w.Folds σ τ) {outer : ScopeId} (ho : outer < w.made) :
    (w.pass outer).Folds (σ.addChild outer) τ := by
  have hl := w.later_pass outer
  have hnew : (w.pass outer).scope w.made = w.scope outer := if_pos rfl
  have hcases : ∀ {i : ScopeId}, (w.pass outer).Keeps i → w.Keeps i := by
    intro i hi
    obtain ⟨hp, hne⟩ := not_or.mp hi.2
    exact ⟨Nat.lt_of_le_of_ne (Nat.le_of_lt_succ hi.1) hne, hp⟩
  have hsize := h.size
  refine ⟨?_, fun i hi => ?_, fun j hj => ?_, fun i hi => ?_, fun i hi x => ?_,
    fun i hi hp x => ?_, fun i hi hp => ?_⟩
  · rw [Store.size_addChild, hsize]
    rfl
  · rcases Nat.lt_succ_iff_lt_or_eq.mp hi with hi | rfl
    · rw [hl.scope i hi]
      exact h.image i hi
    · rw [hnew]
      exact h.image outer ho
  · obtain ⟨i, hi, rfl⟩ := h.onto j hj
    exact ⟨i, hl.keeps hi, hl.scope i hi.1⟩
  · have hi := hcases hi
    rw [Store.enclosing?_addChild_of_lt _ (hsize ▸ hi.1), h.enclosing_later hl hi]
  · rw [Store.local?_addChild]
    exact h.bindings_later hl (hcases hi) x
  · rw [Store.local?_addChild]
    rcases Nat.lt_succ_iff_lt_or_eq.mp hi with hi | rfl
    · exact h.unbound i hi ((hl.passage i hi).mp hp) x
    · rw [Store.local?, Store.scopes_of_le (Nat.le_of_eq hsize)]
      rfl
  · rcases Nat.lt_succ_iff_lt_or_eq.mp hi with hi | rfl
    · rw [Store.enclosing?_addChild_of_lt _ (hsize ▸ hi)]
      exact h.through_later hl hi ((hl.passage i hi).mp hp)
    · refine ⟨outer, ?_, ?_⟩
      · rw [← hsize, Store.enclosing?_addChild_self, if_pos (hsize ▸ ho)]
      · rw [hnew, hl.scope outer ho]

end Folds
end Folding
end Lox
