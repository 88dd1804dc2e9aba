import Lox.Environments
import Lox.Proofs.Scopes.Nearest

/-!
Giving up references touches no chain that is held.

The counts that decide which scopes are cleared stay right while references are given up: they say
how often each scope is referred to from outside, from other scopes, and from the references that
are still to be given up.  A scope on the chain of a holder is the holder's own or encloses another
scope, so its count is never zero.
-/

namespace Lox
namespace Store

variable {σ : Store} {id : ScopeId}

theorem size_clear (σ : Store) (id : ScopeId) : (σ.clear id).size = σ.size := Array.size_modify

theorem scopes_clear_of_ne {i : ScopeId} (h : i ≠ id) : (σ.clear id).scopes[i]? = σ.scopes[i]? := by
  rw [clear, Array.getElem?_modify, if_neg (Ne.symm h)]

/-! ## Where references come from -/

theorem mem_references_of_enclosing? {i : ScopeId} (h : σ.enclosing? i = some id) :
    id ∈ σ.references := by
  obtain ⟨scope, hscope, he⟩ := Option.bind_eq_some_iff.mp h
  rw [← Array.getElem?_toList] at hscope
  refine List.mem_flatMap.mpr ⟨scope, List.mem_of_getElem? hscope, ?_⟩
  exact List.mem_append_right _ (Option.mem_toList.mpr he)

/-- Each scope of a chain is referred to by the one in front of it. -/
theorem mem_references_of_mem_chain {i : ScopeId} (h : i ∈ σ.chain id) (hne : i ≠ id) :
    i ∈ σ.references := by
  induction id using Nat.strongRecOn with
  | ind id ih =>
    have hlt : id < σ.size := Nat.lt_of_not_le fun hle => by
      rw [chain_of_le hle] at h
      exact absurd h List.not_mem_nil
    rw [chain_eq hlt] at h
    have htail := (List.mem_cons.mp h).resolve_left hne
    cases he : σ.enclosing? id with
    | none =>
      rw [he] at htail
      exact absurd htail List.not_mem_nil
    | some outer =>
      rw [he] at htail
      by_cases hi : i = outer
      · exact hi ▸ mem_references_of_enclosing? he
      · exact ih outer (enclosing?_lt he) htail hi

/-! ## Counting -/

/-- Whether the counts tell how often each scope of the store occurs. -/
def Counts (σ : Store) (counts : Array Nat) (references : List ScopeId) : Prop :=
  ∀ i < σ.size, counts[i]? = some (references.count i)

theorem counts_tally (σ : Store) (references : List ScopeId) :
    σ.Counts (σ.tally references) references := by
  intro i hi
  have hfold : ∀ (ids : List ScopeId) (counts : Array Nat),
      (ids.foldl (fun counts id => counts.modify id (· + 1)) counts)[i]? =
        counts[i]?.map (· + ids.count i) := by
    intro ids
    induction ids with
    | nil =>
      intro counts
      rw [List.foldl_nil]
      cases counts[i]? <;> rfl
    | cons id ids ih =>
      intro counts
      rw [List.foldl_cons, ih, Array.getElem?_modify, List.count_cons]
      by_cases h : id = i
      · simp only [h, if_true, beq_self_eq_true, Option.map_map]
        congr 1
        funext n
        simp only [Function.comp_apply]
        omega
      · simp only [h, if_false, beq_iff_eq, Nat.add_zero]
  rw [tally, hfold, Array.getElem?_replicate, if_pos hi, Option.map_some, Nat.zero_add]

/-- One reference less, and one less to give up. -/
theorem Counts.given {counts : Array Nat} {kept pending : List ScopeId}
    (h : σ.Counts counts (kept ++ id :: pending)) :
    σ.Counts (counts.modify id (· - 1)) (kept ++ pending) := by
  intro i hi
  rw [Array.getElem?_modify, h i hi, List.count_append, List.count_append, List.count_cons]
  by_cases hid : id = i
  · simp only [hid, if_true, beq_self_eq_true, Option.map_some]
    congr 1
  · simp only [hid, if_false, beq_iff_eq, Nat.add_zero]

/-- What a cleared scope referred to waits to be given up. -/
theorem Counts.cleared {counts : Array Nat} {holders pending : List ScopeId}
    (h : σ.Counts counts (holders ++ σ.references ++ pending)) :
    (σ.clear id).Counts counts
      (holders ++ (σ.clear id).references ++ (σ.referencesOf id ++ pending)) := by
  intro i hi
  have hcount := (σ.references_clear id).count_eq i
  rw [h i (σ.size_clear id ▸ hi)]
  simp only [List.count_append] at hcount ⊢
  rw [hcount]
  congr 1
  omega

/-! ## Giving up -/

theorem giveUp_sameFrom {counts : Array Nat} {holders pending : List ScopeId}
    (h : σ.Counts counts (holders ++ σ.references ++ pending)) {i : ScopeId} (hi : i ∈ holders)
    (hlt : i < σ.size) : σ.SameFrom (σ.giveUp counts pending) i := by
  fun_induction giveUp σ counts pending with
  | case1 σ counts => exact .refl hlt
  | case2 σ counts id pending counts' hzero given ih =>
    have hgiven : σ.Counts counts' (holders ++ σ.references ++ pending) := h.given
    have hclear : σ.SameFrom (σ.clear id) i := by
      refine ⟨hlt, fun j hj => scopes_clear_of_ne ?_⟩
      rintro rfl
      have hcount := hgiven j (Nat.lt_of_le_of_lt (le_of_mem_chain hj) hlt)
      rw [hzero, Option.some.injEq, eq_comm, List.count_eq_zero] at hcount
      refine hcount (List.mem_append_left _ ?_)
      by_cases hji : j = i
      · exact List.mem_append_left _ (hji ▸ hi)
      · exact List.mem_append_right _ (mem_references_of_mem_chain hj hji)
    refine hclear.trans (ih hgiven.cleared ?_)
    rw [size_clear]
    exact hlt
  | case3 σ counts id pending counts' hzero ih => exact ih h.given hlt

/-- Whoever holds on to a scope sees no difference. -/
theorem release_sameFrom {holders given : List ScopeId} {i : ScopeId} (hi : i ∈ holders)
    (hlt : i < σ.size) : σ.SameFrom (σ.release holders given) i := by
  unfold release
  split
  · exact .refl hlt
  · exact giveUp_sameFrom (σ.counts_tally _) hi hlt

theorem size_giveUp (σ : Store) (counts : Array Nat) (pending : List ScopeId) :
    (σ.giveUp counts pending).size = σ.size := by
  fun_induction giveUp σ counts pending with
  | case1 => rfl
  | case2 σ counts id pending counts' hzero given ih => rw [ih, size_clear]
  | case3 σ counts id pending counts' hzero ih => exact ih

theorem size_release (σ : Store) (holders given : List ScopeId) :
    (σ.release holders given).size = σ.size := by
  unfold release
  split
  · rfl
  · exact σ.size_giveUp _ _

end Store
end Lox
