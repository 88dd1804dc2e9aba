import Lox.Proofs.Scopes.Handles

/-!
Forgetting a handle goes unnoticed.

Two rows of handles that differ by one that is forgotten give the same answers to every step that is
not about it.  The stores may come to differ as well, since fewer scopes are kept without the
handle, but not on the chains of handles that are held on both sides.
-/

namespace Lox
namespace Environments

variable {E F : Environments} {a b : Nat} {i j : ScopeId} {s : Step}

/-- Whether `F` is like `E` apart from the handle `a`, which is forgotten in `F`. -/
structure Without (a : Nat) (E F : Environments) : Prop where
  handles : F.handles = E.handles
  forgotten : ∀ b, b ∈ F.forgotten ↔ b = a ∨ b ∈ E.forgotten
  old : a < E.handles.length
  made : E.Made
  size : F.store.size = E.store.size
  same : ∀ b j, F.scope? b = some j → E.store.SameFrom F.store j

namespace Without

theorem scope?_eq (h : Without a E F) (hb : b ≠ a) : F.scope? b = E.scope? b := by
  unfold scope?
  rw [h.handles]
  by_cases hforgotten : b ∈ E.forgotten
  · rw [if_pos hforgotten, if_pos ((h.forgotten b).mpr (.inr hforgotten))]
  · have hb : b ∉ F.forgotten := fun hmem => ((h.forgotten b).mp hmem).elim hb hforgotten
    rw [if_neg hforgotten, if_neg hb]

theorem ne_of_scope? (h : Without a E F) (hb : F.scope? b = some j) : b ≠ a := by
  rintro rfl
  rw [scope?, if_pos ((h.forgotten b).mpr (.inl rfl))] at hb
  cases hb

theorem scope?_left (h : Without a E F) (hb : F.scope? b = some j) : E.scope? b = some j :=
  h.scope?_eq (h.ne_of_scope? hb) ▸ hb

theorem made_right (h : Without a E F) : F.Made := by
  intro i hi
  rw [h.size]
  exact h.made i (h.handles ▸ hi)

/-! ## What steps are made of -/

/-- Either side may give up what it likes. -/
theorem release (h : Without a E F) (given given' : List ScopeId) :
    Without a (E.release given) (F.release given') where
  handles := h.handles
  forgotten := h.forgotten
  old := h.old
  made := h.made.release given
  size := by
    show (F.store.release _ _).size = (E.store.release _ _).size
    rw [Store.size_release, Store.size_release, h.size]
  same b j hb := by
    have hleft := (sameFrom_release h.made (h.scope?_left hb) given).symm
    exact hleft.trans ((h.same b j hb).trans (sameFrom_release h.made_right hb given'))

theorem bind (h : Without a E F) (holder : ScopeId) (x : String) (v : Value) :
    Without a { E with store := E.store.define holder x v }
      { F with store := F.store.define holder x v } where
  handles := h.handles
  forgotten := h.forgotten
  old := h.old
  made i hi := by
    rw [Store.size_define]
    exact h.made i hi
  size := by rw [Store.size_define, Store.size_define, h.size]
  same b j hb := (h.same b j hb).define holder x v

/-- A new handle, on scopes that are the same on both sides. -/
theorem make (h : Without a E F) {σ τ : Store} {id : ScopeId} (hmade : (E.make σ id).2.Made)
    (hsize : τ.size = σ.size) (hid : σ.SameFrom τ id)
    (hsame : ∀ b j, F.scope? b = some j → σ.SameFrom τ j) :
    (F.make τ id).1 = (E.make σ id).1 ∧ Without a (E.make σ id).2 (F.make τ id).2 := by
  have hanswer := congrArg (fun handles => Answer.made (List.length handles)) h.handles
  refine ⟨hanswer, ?_⟩
  refine ⟨congrArg (· ++ [id]) h.handles, h.forgotten, ?_, hmade, hsize, fun b j hb => ?_⟩
  · show a < (E.handles ++ [id]).length
    rw [List.length_append]
    exact Nat.lt_add_right _ h.old
  · rw [scope?_make] at hb
    split at hb
    · cases hb
    · next hforgotten =>
      split at hb
      · cases hb
        exact hid
      · refine hsame b j ?_
        rw [scope?, if_neg hforgotten, hb]

theorem addChild (h : Without a E F) (outer : ScopeId)
    (houter : outer < E.store.size → E.store.SameFrom F.store outer) :
    (F.make (F.store.addChild outer) F.store.size).1 =
        (E.make (E.store.addChild outer) E.store.size).1 ∧
      Without a (E.make (E.store.addChild outer) E.store.size).2
        (F.make (F.store.addChild outer) F.store.size).2 := by
  have hnew : E.store.size < (E.store.addChild outer).size := by
    rw [Store.size_addChild]
    exact Nat.lt_succ_self _
  rw [h.size]
  refine h.make (h.made.make hnew (Nat.le_of_lt hnew)) ?_
    (Store.sameFrom_addChild_self h.size houter) fun b j hb => ?_
  · rw [Store.size_addChild, Store.size_addChild, h.size]
  · have hsame := h.same b j hb
    have hF := Store.sameFrom_addChild outer (h.made_right.lt hb)
    exact ((Store.sameFrom_addChild outer hsame.1).symm.trans hsame).trans hF

/-- What is done with the scope of a handle other than `a`. -/
theorem within (h : Without a E F) (hb : b ≠ a) {useE useF : ScopeId → Answer × Environments}
    (huse : ∀ i, E.scope? b = some i → F.scope? b = some i →
      (useF i).1 = (useE i).1 ∧ Without a (useE i).2 (useF i).2) :
    (F.within b useF).1 = (E.within b useE).1 ∧
      Without a (E.within b useE).2 (F.within b useF).2 := by
  have heq := h.scope?_eq hb
  cases hE : E.scope? b with
  | none =>
    rw [within_of_none hE, within_of_none (heq.trans hE)]
    exact ⟨rfl, h⟩
  | some i =>
    rw [within_of_some hE, within_of_some (heq.trans hE)]
    exact huse i hE (heq.trans hE)

theorem assign (h : Without a E F) (hi : F.scope? b = some i) (name : Token) (v : Value) :
    (F.assign i name v).1 = (E.assign i name v).1 ∧
      Without a (E.assign i name v).2 (F.assign i name v).2 := by
  have hfind := (h.same b i hi).find?_eq name.lexeme
  cases hf : E.store.find? name.lexeme i with
  | none =>
    rw [assign_of_none hf, assign_of_none (hfind.trans hf)]
    exact ⟨rfl, h⟩
  | some found =>
    rw [assign_of_some hf, assign_of_some (hfind.trans hf)]
    exact ⟨rfl, (h.bind _ _ _).release _ _⟩

theorem forget (h : Without a E F) (b : Nat) :
    Without a { E with forgotten := b :: E.forgotten }
      { F with forgotten := b :: F.forgotten } where
  handles := h.handles
  forgotten c := by
    rw [List.mem_cons, List.mem_cons, h.forgotten]
    exact or_left_comm
  old := h.old
  made := h.made
  size := h.size
  same c j hc := by
    refine h.same c j ?_
    unfold scope? at hc ⊢
    split at hc
    · cases hc
    · next hnot => rw [if_neg (fun hmem => hnot (List.mem_cons_of_mem _ hmem)), hc]

/-! ## Steps -/

theorem step (h : Without a E F) (hs : a ∉ s.handles) :
    (F.step s).1 = (E.step s).1 ∧ Without a (E.step s).2 (F.step s).2 := by
  cases s with
  | new =>
    have hF : F.store.addRoot = F.store.addChild E.store.size := by
      rw [Store.addRoot_eq, h.size]
    show (F.make F.store.addRoot F.store.size).1 = (E.make E.store.addRoot E.store.size).1 ∧
      Without a (E.make E.store.addRoot E.store.size).2 (F.make F.store.addRoot F.store.size).2
    rw [hF, Store.addRoot_eq]
    exact h.addChild E.store.size fun hlt => absurd hlt (Nat.lt_irrefl _)
  | child b =>
    refine h.within (List.ne_of_not_mem_cons hs).symm fun i _ hi => ?_
    exact h.addChild i fun _ => h.same b i hi
  | clone b =>
    refine h.within (List.ne_of_not_mem_cons hs).symm fun i hE hi => ?_
    have hsame := h.same b i hi
    exact h.make (h.made.make hsame.1 (Nat.le_refl _)) h.size hsame h.same
  | define b x v =>
    refine h.within (List.ne_of_not_mem_cons hs).symm fun i _ _ => ?_
    exact ⟨rfl, (h.bind i x v).release _ _⟩
  | assign b name v =>
    exact h.within (List.ne_of_not_mem_cons hs).symm fun i _ hi => h.assign hi name v
  | get b name =>
    refine h.within (List.ne_of_not_mem_cons hs).symm fun i _ hi => ?_
    exact ⟨get_congr ((h.same b i hi).get?_eq name.lexeme), h⟩
  | equals b c =>
    refine h.within (List.ne_of_not_mem_cons hs).symm fun i _ _ => ?_
    have hc := List.ne_of_not_mem_cons (List.not_mem_of_not_mem_cons hs)
    exact h.within hc.symm fun j _ _ => ⟨rfl, h⟩
  | forget b =>
    refine h.within (List.ne_of_not_mem_cons hs).symm fun i _ _ => ?_
    exact ⟨rfl, (h.forget b).release _ _⟩

theorem answers_eq (h : Without a E F) {steps : List Step} (hs : ∀ s ∈ steps, a ∉ s.handles) :
    F.answers steps = E.answers steps := by
  induction steps generalizing E F with
  | nil => rfl
  | cons s steps ih =>
    obtain ⟨hs, hsteps⟩ := List.forall_mem_cons.mp hs
    obtain ⟨hanswer, hnext⟩ := h.step hs
    rw [answers, answers, hanswer, ih hnext hsteps]

/-- The handle is forgotten, and with it the scopes that were kept for it only. -/
theorem of_forget (hE : E.Made) (ha : E.scope? a = some i) :
    Without a E ({ E with forgotten := a :: E.forgotten }.release [i]) where
  handles := rfl
  forgotten b := List.mem_cons
  old := by
    obtain ⟨hlt, -⟩ := List.getElem?_eq_some_iff.mp (getElem?_of_scope? ha)
    exact hlt
  made := hE
  size := Store.size_release _ _ _
  same b j hb := by
    have hmade : Made { E with forgotten := a :: E.forgotten } := hE
    exact sameFrom_release hmade hb [i]

end Without

end Environments
end Lox
