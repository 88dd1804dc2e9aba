import Mathlib.Data.List.Basic
import Mathlib.Data.List.Induction
import Mathlib.Logic.Relation
import Lox.Proofs.Scopes.Forgetting

/-!
The law of scopes, for all handles at once.

Handles share a scope exactly when they are clones of one handle, and what is done through one of
them is seen by the others through the scopes that their chains share.
-/

namespace Lox
namespace Environments

variable {E : Environments} {steps : List Step} {a b n : Nat} {i j : ScopeId}

/-- Whether an answer blames `name` for not being bound. -/
def Answer.Undefined (name : Token) (answer : Answer) : Prop :=
  ∃ e, answer = .error e ∧ e.token = name ∧
    e.message = "Undefined variable '" ++ name.lexeme ++ "'."

/-- What steps answer and change.  Handles are given with their innermost scopes. -/
structure Scoped (E : Environments) : Prop where
  define : ∀ a i b j x v (name : Token), E.scope? a = some i → E.scope? b = some j →
    let seen := name.lexeme = x ∧ E.store.Exposed x i (E.store.chain j)
    E.answer (.define a x v) = .done ∧
    (seen → (E.next (.define a x v)).answer (.get b name) = .value v) ∧
    (¬seen → (E.next (.define a x v)).answer (.get b name) = E.answer (.get b name))
  assign : ∀ a i b j name v (other : Token), E.scope? a = some i → E.scope? b = some j →
    let bound := ∃ holder ∈ E.store.chain i, E.store.Binds holder name.lexeme
    let seen := other.lexeme = name.lexeme ∧
      E.store.nearest? name.lexeme j = E.store.nearest? name.lexeme i
    (E.answer (.assign a name v) = .done ↔ bound) ∧
    (bound → seen → (E.next (.assign a name v)).answer (.get b other) = .value v) ∧
    (bound → ¬seen →
      (E.next (.assign a name v)).answer (.get b other) = E.answer (.get b other)) ∧
    (¬bound → (E.answer (.assign a name v)).Undefined name ∧ E.next (.assign a name v) = E)
  get : ∀ a i name, E.scope? a = some i → E.next (.get a name) = E ∧
    ((∃ v, E.answer (.get a name) = .value v) ∨ (E.answer (.get a name)).Undefined name)
  make : ∀ s a b j name, s = .new ∨ s = .child a ∨ s = .clone a → E.scope? b = some j →
    (E.next s).answer (.get b name) = E.answer (.get b name)
  forget : ∀ a rest, (∀ s ∈ rest, a ∉ s.handles) →
    (E.next (.forget a)).answers rest = E.answers rest

/-- Whether the handle `b` was made as a clone of `a` on the way. -/
def ClonedFrom (steps : List Step) (b a : Nat) : Prop :=
  ∃ before rest, steps = before ++ .clone a :: rest ∧ (after before).answer (.clone a) = .made b

/-! ## The laws of one state -/

namespace Made

theorem define_law (hE : E.Made) (ha : E.scope? a = some i) (hb : E.scope? b = some j)
    (x : String) (v : Value) (name : Token) :
    let seen := name.lexeme = x ∧ E.store.Exposed x i (E.store.chain j)
    E.answer (.define a x v) = .done ∧
    (seen → (E.next (.define a x v)).answer (.get b name) = .value v) ∧
    (¬seen → (E.next (.define a x v)).answer (.get b name) = E.answer (.get b name)) := by
  have hstep : E.step (.define a x v) = (.done, E.define i x v) := within_of_some ha _
  rw [answer, Environments.next, hstep]
  exact ⟨rfl, answer_defined hE hb (hE.lt ha) x v _ name⟩

theorem assign_law (hE : E.Made) (ha : E.scope? a = some i) (hb : E.scope? b = some j)
    (name : Token) (v : Value) (other : Token) :
    let bound := ∃ holder ∈ E.store.chain i, E.store.Binds holder name.lexeme
    let seen := other.lexeme = name.lexeme ∧
      E.store.nearest? name.lexeme j = E.store.nearest? name.lexeme i
    (E.answer (.assign a name v) = .done ↔ bound) ∧
    (bound → seen → (E.next (.assign a name v)).answer (.get b other) = .value v) ∧
    (bound → ¬seen →
      (E.next (.assign a name v)).answer (.get b other) = E.answer (.get b other)) ∧
    (¬bound → (E.answer (.assign a name v)).Undefined name ∧ E.next (.assign a name v) = E) := by
  intro bound seen
  have hbound : (E.store.get? i name.lexeme).isSome ↔ bound := Store.get?_isSome_iff
  rw [Store.get?, Option.isSome_map] at hbound
  have hstep : E.step (.assign a name v) = E.assign i name v := within_of_some ha _
  rw [answer, Environments.next, hstep]
  cases hf : E.store.find? name.lexeme i with
  | none =>
    have hunbound : ¬bound := fun h => by
      rw [← hbound, hf] at h
      exact Bool.false_ne_true h
    rw [assign_of_none hf]
    refine ⟨⟨fun h => ?_, fun h => absurd h hunbound⟩, fun h => absurd h hunbound,
      fun h => absurd h hunbound, fun _ => ⟨⟨_, rfl, rfl, rfl⟩, rfl⟩⟩
    cases h
  | some found =>
    obtain ⟨holder, w⟩ := found
    have hisbound : bound := hbound.mp (by rw [hf]; rfl)
    obtain ⟨-, hlocal⟩ := Store.local?_of_find? hf
    have hbinds : E.store.Binds holder name.lexeme := by
      rw [Store.Binds, hlocal]
      rfl
    have hseen : other.lexeme = name.lexeme ∧
        E.store.Exposed name.lexeme holder (E.store.chain j) ↔ seen := by
      rw [Store.exposed_iff_nearest? hbinds]
      show _ ∧ _ ↔ _ ∧ _ = E.store.nearest? name.lexeme i
      rw [E.store.nearest?_eq _ i, hf]
      rfl
    rw [assign_of_some hf]
    have hget := answer_defined hE hb hbinds.lt name.lexeme v w.scopes other
    dsimp only at hget
    rw [hseen] at hget
    exact ⟨⟨fun _ => hisbound, fun _ => rfl⟩, fun _ => hget.1, fun _ => hget.2,
      fun h => absurd hisbound h⟩

theorem make_law (hE : E.Made) {s : Step} (hs : s = .new ∨ s = .child a ∨ s = .clone a)
    (hb : E.scope? b = some j) (name : Token) :
    (E.next s).answer (.get b name) = E.answer (.get b name) := by
  have hmake : ∀ {σ : Store} {id : ScopeId}, E.store.SameFrom σ j →
      (E.make σ id).2.answer (.get b name) = E.answer (.get b name) := fun h => by
    rw [answer_get (scope?_make_of_some hb _ _), answer_get hb]
    exact get_congr (h.get?_eq name.lexeme)
  have hkeeps : ∀ use : ScopeId → Answer × Environments,
      (∀ i, (use i).2.answer (.get b name) = E.answer (.get b name)) →
        (E.within a use).2.answer (.get b name) = E.answer (.get b name) :=
    fun use huse => within_keeps (P := fun F => F.answer (.get b name) = E.answer (.get b name)) rfl
      fun i _ => huse i
  rcases hs with rfl | rfl | rfl
  · refine hmake ?_
    rw [Store.addRoot_eq]
    exact Store.sameFrom_addChild _ (hE.lt hb)
  · exact hkeeps _ fun i => hmake (Store.sameFrom_addChild i (hE.lt hb))
  · exact hkeeps _ fun i => hmake (.refl (hE.lt hb))

theorem forget_law (hE : E.Made) {rest : List Step} (hrest : ∀ s ∈ rest, a ∉ s.handles) :
    (E.next (.forget a)).answers rest = E.answers rest := by
  cases ha : E.scope? a with
  | none =>
    have hnext : E.next (.forget a) = E := congrArg Prod.snd (within_of_none ha _)
    rw [hnext]
  | some i =>
    have hnext : E.next (.forget a) = _ := congrArg Prod.snd (within_of_some ha _)
    rw [hnext]
    exact (Without.of_forget hE ha).answers_eq hrest

theorem lawful (hE : E.Made) : E.Scoped where
  define a i b j x v name ha hb := hE.define_law ha hb x v name
  assign a i b j name v other ha hb := hE.assign_law ha hb name v other
  get a i name ha := by
    have hstep : E.step (.get a name) = (E.get i name, E) := within_of_some ha _
    rw [answer, Environments.next, hstep, get]
    refine ⟨rfl, ?_⟩
    cases E.store.get? i name.lexeme with
    | some v => exact .inl ⟨v, rfl⟩
    | none => exact .inr ⟨_, rfl, rfl, rfl⟩
  make s a b j name hs hb := hE.make_law hs hb name
  forget a rest hrest := hE.forget_law hrest

end Made

/-! ## Clones -/

theorem after_concat (steps : List Step) (s : Step) :
    after (steps ++ [s]) = (after steps).next s := by
  rw [after, List.foldl_append]
  rfl

theorem handles_assign (E : Environments) (i : ScopeId) (name : Token) (v : Value) :
    (E.assign i name v).2.handles = E.handles := by
  cases hf : E.store.find? name.lexeme i with
  | none => rw [assign_of_none hf]
  | some found =>
    rw [assign_of_some hf]
    rfl

theorem next_clone (ha : E.scope? a = some i) :
    E.answer (.clone a) = .made E.handles.length ∧
      (E.next (.clone a)).handles = E.handles ++ [i] := by
  have hstep : E.step (.clone a) = E.make E.store i := within_of_some ha _
  rw [answer, next, hstep]
  exact ⟨rfl, rfl⟩

/-- Handles stay, and a new one is on a new scope unless it is a clone. -/
theorem handles_next (E : Environments) (s : Step) :
    (E.next s).handles = E.handles ∨ ∃ id, (E.next s).handles = E.handles ++ [id] ∧
      (id = E.store.size ∨ ∃ a, s = .clone a ∧ E.scope? a = some id) := by
  have hkeeps : ∀ a (use : ScopeId → Answer × Environments),
      (∀ i, (use i).2.handles = E.handles) → (E.within a use).2.handles = E.handles :=
    fun a use huse => within_keeps (P := fun F => F.handles = E.handles) rfl fun i _ => huse i
  cases s with
  | new => exact .inr ⟨_, rfl, .inl rfl⟩
  | child a =>
    cases ha : E.scope? a with
    | none => exact .inl (congrArg (·.2.handles) (within_of_none ha _))
    | some i => exact .inr ⟨_, congrArg (·.2.handles) (within_of_some ha _), .inl rfl⟩
  | clone a =>
    cases ha : E.scope? a with
    | none => exact .inl (congrArg (·.2.handles) (within_of_none ha _))
    | some i => exact .inr ⟨i, (next_clone ha).2, .inr ⟨a, rfl, ha⟩⟩
  | define a x v => exact .inl (hkeeps a _ fun _ => rfl)
  | assign a name v => exact .inl (hkeeps a _ fun i => E.handles_assign i name v)
  | get a name => exact .inl (hkeeps a _ fun _ => rfl)
  | equals a b => exact .inl (hkeeps a _ fun _ => hkeeps b _ fun _ => rfl)
  | forget a => exact .inl (hkeeps a _ fun _ => rfl)

/-- Whatever is done, a handle keeps its scope. -/
theorem handles_append {before : List Step} (h : (after before).handles[a]? = some i)
    (rest : List Step) : (after (before ++ rest)).handles[a]? = some i := by
  induction rest generalizing before with
  | nil => rwa [List.append_nil]
  | cons s rest ih =>
    have hstep : (after (before ++ [s])).handles[a]? = some i := by
      rw [after_concat]
      rcases (after before).handles_next s with hnext | ⟨id, hnext, -⟩
      · rwa [hnext]
      · obtain ⟨hlt, -⟩ := List.getElem?_eq_some_iff.mp h
        rw [hnext, List.getElem?_append_left hlt, h]
    have hrest := ih hstep
    rwa [List.append_assoc, List.singleton_append] at hrest

/-- A clone is on the scope of the handle that it was made from. -/
theorem ClonedFrom.handles (h : ClonedFrom steps b a) :
    ∃ i, (after steps).handles[a]? = some i ∧ (after steps).handles[b]? = some i := by
  obtain ⟨before, rest, rfl, hanswer⟩ := h
  cases ha : (after before).scope? a with
  | none =>
    rw [answer, step, within_of_none ha] at hanswer
    cases hanswer
  | some i =>
    obtain ⟨hmade, hhandles⟩ := next_clone ha
    rw [hmade, Answer.made.injEq] at hanswer
    have hclone : (after (before ++ [.clone a])).handles[b]? = some i := by
      rw [after_concat, hhandles, ← hanswer]
      exact List.getElem?_concat_length
    have hold := handles_append (getElem?_of_scope? ha) (.clone a :: rest)
    have hnew := handles_append hclone rest
    rw [List.append_assoc, List.singleton_append] at hnew
    exact ⟨i, hold, hnew⟩

theorem ClonedFrom.append (h : ClonedFrom steps b a) (s : Step) :
    ClonedFrom (steps ++ [s]) b a := by
  obtain ⟨before, rest, rfl, hanswer⟩ := h
  exact ⟨before, rest ++ [s], List.append_assoc _ _ _, hanswer⟩

/-- Clones of clones are on the scope of the first one. -/
theorem handles_of_clones (h : Relation.ReflTransGen (ClonedFrom steps) a b)
    (ha : (after steps).handles[a]? = some i) : (after steps).handles[b]? = some i := by
  induction h with
  | refl => exact ha
  | tail _ hclone ih =>
    obtain ⟨j, hb, hc⟩ := hclone.handles
    rw [ih, Option.some.injEq] at hc
    rw [hb, hc]

/-- Every handle goes back by clones to the first one that is on its scope. -/
theorem clones_of_handles (h : (after steps).handles[a]? = some i) :
    Relation.ReflTransGen (ClonedFrom steps) a ((after steps).handles.idxOf i) := by
  induction steps using List.reverseRecOn generalizing a with
  | nil =>
    exact absurd (List.mem_of_getElem? h) List.not_mem_nil
  | append_singleton steps s ih =>
    rw [after_concat] at h ⊢
    have hmono : ∀ b c, Relation.ReflTransGen (ClonedFrom steps) b c →
        Relation.ReflTransGen (ClonedFrom (steps ++ [s])) b c :=
      Relation.ReflTransGen.mono fun _ _ hclone => ClonedFrom.append hclone s
    rcases (after steps).handles_next s with hnext | ⟨id, hnext, hid⟩
    · rw [hnext] at h ⊢
      exact hmono _ _ (ih h)
    · rw [hnext] at h ⊢
      have hold : ∀ {b}, (after steps).handles[b]? = some i →
          Relation.ReflTransGen (ClonedFrom (steps ++ [s])) b
            (((after steps).handles ++ [id]).idxOf i) := fun hb => by
        rw [List.idxOf_append_of_mem (List.mem_of_getElem? hb)]
        exact hmono _ _ (ih hb)
      by_cases hlt : a < (after steps).handles.length
      · rw [List.getElem?_append_left hlt] at h
        exact hold h
      · -- The handle is the new one.
        obtain ⟨rfl, rfl⟩ : a = (after steps).handles.length ∧ id = i := by
          obtain ⟨hle, -⟩ := List.getElem?_eq_some_iff.mp h
          rw [List.length_append, List.length_singleton] at hle
          have ha : a = (after steps).handles.length := by omega
          rw [ha, List.getElem?_concat_length, Option.some.injEq] at h
          exact ⟨ha, h⟩
        rcases hid with hid | ⟨b, rfl, hb⟩
        · have hnew : id ∉ (after steps).handles := fun hmem =>
            Nat.lt_irrefl _ (hid ▸ Made.after steps id hmem)
          rw [List.idxOf_append_of_notMem hnew, List.idxOf_cons_self, Nat.add_zero]
        · exact .head ⟨steps, [], rfl, (next_clone hb).1⟩ (hold (getElem?_of_scope? hb))

theorem answer_equals (ha : E.scope? a = some i) (hb : E.scope? b = some j) :
    E.answer (.equals a b) = .truth (i == j) := by
  rw [answer, step, within_of_some ha, within_of_some hb]

/-- After any steps with any number of handles, a new value is seen by exactly the handles whose
chains come to its scope first, everything else that handles see stays as it is, and two handles are
the same when clones lead from both of them back to one handle. -/
theorem handles_scoped (steps : List Step) :
    let E := after steps
    E.Scoped ∧ ∀ a i b j, E.scope? a = some i → E.scope? b = some j →
      ∃ same, E.answer (.equals a b) = .truth same ∧
        (same = true ↔ Relation.Join (Relation.ReflTransGen (ClonedFrom steps)) a b) := by
  refine ⟨(Made.after steps).lawful, fun a i b j ha hb => ⟨i == j, answer_equals ha hb, ?_⟩⟩
  have hi := getElem?_of_scope? ha
  have hj := getElem?_of_scope? hb
  rw [beq_iff_eq]
  constructor
  · rintro rfl
    exact ⟨_, clones_of_handles hi, clones_of_handles hj⟩
  · rintro ⟨c, hac, hbc⟩
    have hc := handles_of_clones hac hi
    rw [handles_of_clones hbc hj, Option.some.injEq] at hc
    exact hc.symm

/-- A clone sees the variable that shadows the one around it, and an assignment to the outer one
through the root handle is hidden from it. -/
theorem handles_scoped_shadowing :
    let x : Token := ⟨.bare .identifier, "x", 1, 1⟩
    let steps : List Step :=
      [.new, .define 0 "x" .nil, .child 0, .clone 1, .define 1 "x" (.bool false)]
    let E := after steps
    (E.next (.define 1 "x" (.bool true))).answer (.get 2 x) = .value (.bool true) ∧
    (E.next (.assign 0 x (.bool true))).answer (.get 2 x) = E.answer (.get 2 x) ∧
    Relation.Join (Relation.ReflTransGen (ClonedFrom steps)) 1 2 := by
  intro x steps E
  obtain ⟨hscoped, hequals⟩ := handles_scoped steps
  have h0 : E.scope? 0 = some 0 := rfl
  have h1 : E.scope? 1 = some 1 := rfl
  have h2 : E.scope? 2 = some 1 := rfl
  have hroot : E.store.chain 0 = [0] := Store.chain_of_none (by decide) rfl
  have henclosed : E.store.enclosing? 1 = some 0 := rfl
  have hchain : E.store.chain 1 = [1, 0] := by
    rw [Store.chain_of_some (by decide) henclosed, hroot]
  obtain ⟨-, hseen, -⟩ := hscoped.define 1 1 2 1 "x" (.bool true) x h1 h2
  obtain ⟨-, -, hhidden, -⟩ := hscoped.assign 0 0 2 1 x (.bool true) x h0 h2
  obtain ⟨same, hanswer, hsame⟩ := hequals 1 1 2 1 h1 h2
  refine ⟨hseen ⟨rfl, [], [0], hchain, nofun⟩, hhidden ⟨0, ?_, rfl⟩ ?_, hsame.mp ?_⟩
  · rw [hroot]
    exact List.mem_singleton_self 0
  · rintro ⟨-, hnearest⟩
    have hnear : E.store.nearest? "x" 1 = some 1 := by
      rw [Store.nearest?, hchain]
      rfl
    have hfar : E.store.nearest? "x" 0 = some 0 := by
      rw [Store.nearest?, hroot]
      rfl
    rw [hnear, hfar] at hnearest
    cases hnearest
  · rw [answer_equals h1 h2, Answer.truth.injEq] at hanswer
    exact hanswer.symm

end Environments
end Lox
