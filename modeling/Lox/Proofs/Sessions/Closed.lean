import Lox.Proofs.Comparison.Folding
import Lox.Proofs.Grammar.Programs
import Lox.Proofs.Grammar.Roles
import Lox.Proofs.Scopes.Restoration
import Lox.Proofs.Sessions.Running

/-!
Machines that mention only scopes that were made.

The machine of a session is always one of these.  For this a run is compared with itself, where
nothing is folded: every value that it leaves behind holds scopes that were made by then.
-/

namespace Lox

/-- Whether every scope that a machine mentions was made. -/
structure Machine.Closed (m : Machine) : Prop where
  current : m.current < m.store.size
  values : ∀ i x v, m.store.local? i x = some v → Within (· < m.store.size) v.scopes

theorem Within.of_nil {L : ScopeId → Prop} {ids : List ScopeId} (h : ids = []) : Within L ids :=
  h ▸ .nil

namespace Folding

variable {old : Nat} {w : Folding old}

/-- What a folded store binds was made. -/
theorem Folds.closed {σ τ : Store} (h : w.Folds σ τ) {i : ScopeId} {x : String} {v : Value}
    (hv : σ.local? i x = some v) : Within (· < σ.size) v.scopes := by
  have hi : i < w.made := h.size ▸ Store.lt_of_local hv
  have hkeeps : w.Keeps i := by
    refine ⟨hi, fun hp => ?_⟩
    rw [h.unbound i hi hp x] at hv
    exact nomatch hv
  have hlocal := h.bindings i hkeeps x
  rw [hv] at hlocal
  rw [h.size]
  generalize τ.local? (w.scope i) x = o at hlocal
  cases hlocal with
  | some halike => exact fun j hj => (halike.image.2 j hj).1

end Folding

namespace Machine.Closed

variable {m : Machine}

/-- Nothing is folded on a machine that is compared with itself. -/
theorem matches_self (hm : m.Closed) (place : Place) :
    (Folding.start m.store.size).Matches place m m := by
  refine ⟨.start hm.values, rfl, ?_⟩
  cases place with
  | anywhere => trivial
  | reading => exact ⟨hm.current, rfl⟩
  | declaring => exact ⟨⟨hm.current, id⟩, rfl⟩

theorem after (hm : m.Closed) {α : Type} {R : Folding m.store.size → α → α → Prop} {p : Action α}
    {place : Place} (h : (Folding.start m.store.size).Acts place R p p) : (p.after m).Closed := by
  obtain ⟨w, hl, hends⟩ := h m m (hm.matches_self place)
  have hfolds := hends.folds
  refine ⟨?_, fun i x v hv => hfolds.closed hv⟩
  rw [hfolds.size, hends.current]
  exact Nat.lt_of_lt_of_le hm.current w.old_le

end Machine.Closed

/-! ## Sessions -/

/-- The trees of a source mention no scopes. -/
theorem Program.scopes {source : String} (h : (ofSource source).diagnostics = []) :
    Stmt.scopesAll (ofSource source).statements = [] := by
  have hfits := (derives h).fits (T := fun _ => True) fun _ _ => trivial
  exact Stmt.scopesAll_eq_nil fun st hst => (hfits st hst).scopes

namespace Session

theorem closed_start (breakage : Option Breakage) : (start breakage).machine.Closed := by
  refine ⟨Nat.zero_lt_one, fun i x v hv => ?_⟩
  rw [local?_start hv]
  exact .nil

/-- Every session is at a machine that mentions only scopes that were made. -/
theorem After.closed {breakage : Option Breakage} {sources : List String} {s : Session}
    (h : s.After breakage sources) : s.machine.Closed := by
  induction h with
  | start => exact closed_start breakage
  | drain _ ih => exact ⟨ih.current, ih.values⟩
  | @run sources s seconds fuel source _ ih =>
    by_cases hclean : (Program.ofSource source).diagnostics = []
    · rw [run_of_clean s _ fuel hclean, machine_execute]
      have halike := (Comparison.folding s.machine.store.size).alike_layer
        (Host.pure_withClock seconds).alike fuel
      exact ih.after (Layer.alike_sequence halike [] s.loaded
        (Folding.runs_of_scopesAll (.of_nil (Program.scopes hclean))))
    · rw [run_of_faulty s _ fuel hclean]
      exact ih

end Session
end Lox
