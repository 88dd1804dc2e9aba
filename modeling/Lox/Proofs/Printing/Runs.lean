import Lox.Proofs.Evaluation.Actions

/-!
Actions with a record of what they print.

A run is an action together with the lines that it prints from every machine on, as long as the sink
of that machine does not fail.  It carries the proof that its record tells what a failing sink does
to it: nothing while the sink holds, and then the run stops at the line that the sink fails on.
Runs are put together like actions, so whatever is made of them is a run again.
-/

namespace Lox

/-- A line that was printed, with the statement's keyword and what was stored by then. -/
structure Printed where
  keyword : Token
  line : String
  store : Store

/-- What a sink has collected of lines. -/
def output : List Printed → String
  | [] => ""
  | p :: ps => p.line ++ "\n" ++ output ps

theorem output_append (ps qs : List Printed) : output (ps ++ qs) = output ps ++ output qs := by
  induction ps with
  | nil => exact String.empty_append.symm
  | cons p ps ih =>
    rw [List.cons_append, output, ih, output]
    exact String.append_assoc.symm

theorem output_singleton (p : Printed) : output [p] = p.line ++ "\n" := String.append_empty

namespace SinkFault

/-- How many lines are collected of the one that a sink fails on. -/
def kept : SinkFault → Nat
  | unflushable => 1
  | closed | full => 0

theorem kept_le (fault : SinkFault) : fault.kept ≤ 1 := by
  cases fault <;> decide

end SinkFault

namespace Sink

theorem fault?_of_unbroken {s : Sink} (h : s.breakage = none) : s.fault? = none := by
  rw [fault?, h]

theorem print_of_sound {s : Sink} (h : s.fault? = none) (line : String) :
    s.print line = (none, { s.collect line with flushes := s.flushes + 1 }) := by
  rw [print, h]

/-- A sink that fails may have collected the line. -/
theorem print_of_fault {s : Sink} {fault : SinkFault} (h : s.fault? = some fault) (p : Printed) :
    s.print p.line = (some fault, { s with text := s.text ++ output ([p].take fault.kept) }) := by
  rw [print, h]
  have hnothing : s.text ++ output [] = s.text := String.append_empty
  cases fault with
  | closed =>
    show (some SinkFault.closed, s) = (_, { s with text := s.text ++ output [] })
    rw [hnothing]
  | full =>
    show (some SinkFault.full, s) = (_, { s with text := s.text ++ output [] })
    rw [hnothing]
  | unflushable =>
    show (some SinkFault.unflushable, s.collect p.line) =
      (_, { s with text := s.text ++ output [p] })
    rw [output_singleton, ← String.append_assoc]
    rfl

end Sink

namespace Machine

variable {m m' : Machine} {ps qs : List Printed} {fault : SinkFault} {n : Nat}

/-- The machine with a sink that breaks in the given way. -/
def withBreakage (m : Machine) (b : Breakage) : Machine :=
  { m with sink := { m.sink with breakage := some b } }

@[simp] theorem store_withBreakage (m : Machine) (b : Breakage) :
    (m.withBreakage b).store = m.store := rfl

@[simp] theorem current_withBreakage (m : Machine) (b : Breakage) :
    (m.withBreakage b).current = m.current := rfl

/-- The machine with a sink that passes on `n` more lines. -/
def breaking (m : Machine) (fault : SinkFault) (n : Nat) : Machine :=
  m.withBreakage ⟨fault, m.sink.flushes + n⟩

/-- The next line fails if no more are passed on. -/
theorem fault?_breaking (m : Machine) (fault : SinkFault) (n : Nat) :
    (m.breaking fault n).sink.fault? = if n = 0 then some fault else none := by
  show (if m.sink.flushes + n ≤ m.sink.flushes then some fault else none) = _
  by_cases h : n = 0
  · rw [if_pos h, if_pos (by omega)]
  · rw [if_neg h, if_neg (by omega)]

/-- Whether `m'` may come behind `m` when `ps` was printed on a sink that never fails. -/
structure Prints (m : Machine) (ps : List Printed) (m' : Machine) : Prop where
  current : m'.current = m.current
  text : m'.sink.text = m.sink.text ++ output ps
  flushes : m'.sink.flushes = m.sink.flushes + ps.length
  unbroken : m'.sink.breakage = none

theorem Prints.none (h : m.sink.breakage = none) (hsink : m'.sink = m.sink)
    (hcurrent : m'.current = m.current) : m.Prints [] m' where
  current := hcurrent
  text := by
    rw [hsink]
    exact String.append_empty.symm
  flushes := by rw [hsink]; rfl
  unbroken := hsink ▸ h

theorem Prints.trans {m'' : Machine} (h : m.Prints ps m') (h' : m'.Prints qs m'') :
    m.Prints (ps ++ qs) m'' where
  current := h'.current.trans h.current
  text := by rw [h'.text, h.text, output_append, String.append_assoc]
  flushes := by rw [h'.flushes, h.flushes, List.length_append, Nat.add_assoc]
  unbroken := h'.unbroken

/-- The machine that is left behind when the sink fails on the line `p` after `n` others. -/
def failing (m : Machine) (fault : SinkFault) (n : Nat) (ps : List Printed) (p : Printed) :
    Machine where
  store := p.store
  current := m.current
  sink :=
    { text := m.sink.text ++ output (ps.take (n + fault.kept))
      flushes := m.sink.flushes + n
      breakage := some ⟨fault, m.sink.flushes + n⟩ }

/-- More lines would not have been printed. -/
theorem failing_append (h : n < ps.length) (qs : List Printed) (p : Printed) :
    m.failing fault n (ps ++ qs) p = m.failing fault n ps p := by
  have hkept := fault.kept_le
  unfold failing
  rw [List.take_append_of_le_length (by omega)]

/-- Lines that were printed in front count. -/
theorem Prints.failing (h : m.Prints ps m') (n : Nat) (qs : List Printed) (p : Printed) :
    m.failing fault (ps.length + n) (ps ++ qs) p = m'.failing fault n qs p := by
  unfold Machine.failing
  rw [Nat.add_assoc ps.length, List.take_length_add_append, output_append, h.text, h.flushes,
    h.current, String.append_assoc, Nat.add_assoc]

/-- A sink that still passes on the lines of `ps` passes on `n` more behind them. -/
theorem Prints.breaking (hm : m.Prints ps m') :
    m'.withBreakage ⟨fault, m.sink.flushes + (ps.length + n)⟩ = m'.breaking fault n := by
  rw [Machine.breaking, hm.flushes, Nat.add_assoc]

end Machine

/-- The same end on a machine with another sink. -/
def Action.broken {α : Type} (b : Breakage) :
    EStateM.Result Halt Machine α → EStateM.Result Halt Machine α
  | .ok a m => .ok a (m.withBreakage b)
  | .error halt m => .error halt (m.withBreakage b)

open Action

/-- Whether `trace` tells what `p` prints, and so what a failing sink does to it. -/
structure Follows {α : Type} (p : Action α) (trace : Machine → List Printed) : Prop where
  unfailing : ∀ m : Machine, m.sink.breakage = none → m.Prints (trace m) (p.after m)
  enough : ∀ (m : Machine) fault n, m.sink.breakage = none → (trace m).length ≤ n →
    p (m.breaking fault n) = broken ⟨fault, m.sink.flushes + n⟩ (p m)
  fails : ∀ (m : Machine) fault n e, m.sink.breakage = none → (trace m)[n]? = some e →
    p (m.breaking fault n) =
      .error (.fault ⟨e.keyword, .outputFailed fault⟩) (m.failing fault n (trace m) e)

/-- What is printed by what goes on behind an action, if that comes to an end. -/
def Action.andThen {α : Type} (trace : α → Machine → List Printed) :
    EStateM.Result Halt Machine α → List Printed
  | .ok a m => trace a m
  | .error _ _ => []

namespace Follows

variable {α β : Type} {p : Action α} {f : α → Action β} {t : Machine → List Printed}
  {u : α → Machine → List Printed}

/-- An action follows its trace, and then what comes behind it follows its own. -/
theorem bind (hp : Follows p t) (hf : ∀ a, Follows (f a) (u a)) :
    Follows (p >>= f) fun m => t m ++ andThen u (p m) where
  unfailing m hm := by
    have hprints := hp.unfailing m hm
    unfold after at hprints ⊢
    rw [bind_apply]
    cases hrun : p m with
    | error halt m' =>
      rw [hrun] at hprints
      rw [andThen, List.append_nil]
      exact hprints
    | ok a m' =>
      rw [hrun] at hprints
      exact hprints.trans ((hf a).unfailing m' hprints.unbroken)
  enough m fault n hm hn := by
    rw [List.length_append] at hn
    rw [bind_apply, bind_apply, hp.enough m fault n hm (by omega)]
    have hprints := hp.unfailing m hm
    unfold after at hprints
    cases hrun : p m with
    | error halt m' => rfl
    | ok a m' =>
      rw [hrun] at hprints hn
      obtain ⟨k, rfl⟩ : ∃ k, n = (t m).length + k := Nat.exists_eq_add_of_le (by omega)
      have hk : (u a m').length ≤ k := Nat.le_of_add_le_add_left hn
      have henough := (hf a).enough m' fault k hprints.unbroken hk
      rw [hprints.flushes, Nat.add_assoc] at henough
      dsimp only [broken]
      rw [hprints.breaking, henough]
      rfl
  fails m fault n e hm he := by
    rw [bind_apply]
    have hprints := hp.unfailing m hm
    unfold after at hprints
    by_cases hn : n < (t m).length
    · rw [List.getElem?_append_left hn] at he
      rw [hp.fails m fault n e hm he, Machine.failing_append hn]
    · obtain ⟨k, rfl⟩ : ∃ k, n = (t m).length + k := Nat.exists_eq_add_of_le (by omega)
      rw [List.getElem?_append_right (Nat.le_add_right _ _), Nat.add_sub_cancel_left] at he
      rw [hp.enough m fault _ hm (Nat.le_add_right _ _)]
      cases hrun : p m with
      | error halt m' =>
        rw [hrun, andThen, List.getElem?_nil] at he
        cases he
      | ok a m' =>
        rw [hrun] at hprints he
        dsimp only [broken]
        rw [hprints.breaking, (hf a).fails m' fault k e hprints.unbroken he]
        rw [← hprints.failing]
        rfl

/-- In another scope the same is printed, and the current scope is put back in either case. -/
theorem inScope (scope : ScopeId) (hp : Follows p t) :
    Follows (Action.inScope scope p) fun m => t { m with current := scope } where
  unfailing m hm := by
    have hprints := hp.unfailing { m with current := scope } hm
    unfold after at hprints ⊢
    unfold Action.inScope
    dsimp only
    cases hrun : p { m with current := scope } with
    | ok a m' =>
      rw [hrun] at hprints
      exact ⟨rfl, hprints.text, hprints.flushes, hprints.unbroken⟩
    | error halt m' =>
      rw [hrun] at hprints
      exact ⟨rfl, hprints.text, hprints.flushes, hprints.unbroken⟩
  enough m fault n hm hn := by
    have henough := hp.enough { m with current := scope } fault n hm hn
    unfold Action.inScope
    dsimp only
    show (match p (Machine.breaking { m with current := scope } fault n) with
      | .ok a m' => EStateM.Result.ok a { m' with current := m.current }
      | .error halt m' => .error halt { m' with current := m.current }) = _
    rw [henough]
    cases p { m with current := scope } <;> rfl
  fails m fault n e hm he := by
    have hfails := hp.fails { m with current := scope } fault n e hm he
    unfold Action.inScope
    dsimp only
    show (match p (Machine.breaking { m with current := scope } fault n) with
      | .ok a m' => EStateM.Result.ok a { m' with current := m.current }
      | .error halt m' => .error halt { m' with current := m.current }) = _
    rw [hfails]
    rfl

theorem print (keyword : Token) (v : Value) :
    Follows (Action.print keyword v) fun m => [⟨keyword, v.text, m.store⟩] where
  unfailing m hm := by
    unfold after Action.print
    rw [Sink.print_of_sound (Sink.fault?_of_unbroken hm)]
    refine ⟨rfl, ?_, rfl, hm⟩
    rw [output_singleton]
    exact String.append_assoc
  enough m fault n hm hn := by
    have hsound : (m.breaking fault n).sink.fault? = none := by
      have hpos : 0 < n := hn
      rw [Machine.fault?_breaking, if_neg (by omega)]
    unfold Action.print
    rw [Sink.print_of_sound hsound, Sink.print_of_sound (Sink.fault?_of_unbroken hm)]
    rfl
  fails m fault n e hm he := by
    cases n with
    | succ n => cases he
    | zero =>
      cases he
      have hfault : (m.breaking fault 0).sink.fault? = some fault := by
        rw [Machine.fault?_breaking, if_pos rfl]
      unfold Action.print
      rw [Sink.print_of_fault hfault ⟨keyword, v.text, m.store⟩]
      unfold Machine.failing
      rw [Nat.zero_add]
      rfl

end Follows

/-! ## Actions that print nothing -/

/-- Whether an action has nothing to do with the sink and stays in its scope. -/
structure Action.Quiet {α : Type} (p : Action α) : Prop where
  sink : ∀ m, (p.after m).sink = m.sink
  current : ∀ m, (p.after m).current = m.current
  broken : ∀ m b, p (m.withBreakage b) = broken b (p m)

namespace Action.Quiet

variable {α β : Type} {p : Action α} {f : α → Action β}

theorem follows (hp : p.Quiet) : Follows p fun _ => [] where
  unfailing m hm := .none hm (hp.sink m) (hp.current m)
  enough m fault n _ _ := hp.broken m _
  fails m fault n e _ he := by cases he

theorem pure (a : α) : (Pure.pure a : Action α).Quiet :=
  ⟨fun _ => rfl, fun _ => rfl, fun _ _ => rfl⟩

theorem throw (halt : Halt) : (MonadExcept.throw halt : Action α).Quiet :=
  ⟨fun _ => rfl, fun _ => rfl, fun _ _ => rfl⟩

/-- What neither of two actions changes is not changed by both. -/
theorem after_bind_eq {γ : Type} (look : Machine → γ) (hp : ∀ m, look (p.after m) = look m)
    (hf : ∀ a m, look ((f a).after m) = look m) (m : Machine) :
    look ((p >>= f).after m) = look m := by
  have hfirst := hp m
  unfold after at hfirst ⊢
  rw [bind_apply]
  cases hrun : p m with
  | error halt m' => rwa [hrun] at hfirst
  | ok a m' =>
    rw [hrun] at hfirst
    exact (hf a m').trans hfirst

theorem bind (hp : p.Quiet) (hf : ∀ a, (f a).Quiet) : (p >>= f).Quiet where
  sink m := after_bind_eq Machine.sink hp.sink (fun a => (hf a).sink) m
  current m := after_bind_eq Machine.current hp.current (fun a => (hf a).current) m
  broken m b := by
    rw [bind_apply, bind_apply, hp.broken]
    cases p m with
    | error halt m' => rfl
    | ok a m' => exact (hf a).broken m' b

theorem blame (t : Token) (result : Except RuntimeFault α) : (Action.blame t result).Quiet := by
  cases result with
  | ok a => exact pure a
  | error fault => exact throw _

theorem lookup (name : Token) : (Action.lookup name).Quiet where
  sink m := by
    unfold after
    rw [lookup_apply]
    cases m.store.get? m.current name.lexeme <;> rfl
  current m := by
    unfold after
    rw [lookup_apply]
    cases m.store.get? m.current name.lexeme <;> rfl
  broken m b := by
    rw [lookup_apply, lookup_apply, m.store_withBreakage, m.current_withBreakage]
    cases m.store.get? m.current name.lexeme <;> rfl

theorem assign (name : Token) (v : Value) : (Action.assign name v).Quiet where
  sink m := by
    unfold after Action.assign Store.assign
    cases m.store.find? name.lexeme m.current <;> rfl
  current m := by
    unfold after Action.assign Store.assign
    cases m.store.find? name.lexeme m.current <;> rfl
  broken m b := by
    unfold Action.assign Store.assign
    rw [m.store_withBreakage, m.current_withBreakage]
    cases m.store.find? name.lexeme m.current <;> rfl

theorem bindIn (scope : ScopeId) (x : String) (v : Value) :
    (modify fun m => { m with store := m.store.define scope x v } : Action Unit).Quiet :=
  ⟨fun _ => rfl, fun _ => rfl, fun _ _ => rfl⟩

theorem define (x : String) (v : Value) : (Action.define x v).Quiet :=
  ⟨fun _ => rfl, fun _ => rfl, fun _ _ => rfl⟩

theorem openScope (outer : ScopeId) : (Action.openScope outer).Quiet :=
  ⟨fun _ => rfl, fun _ => rfl, fun _ _ => rfl⟩

theorem bindParameters (scope : ScopeId) (xs : List Token) (vs : List Value) :
    (Layer.bindParameters scope xs vs).Quiet := by
  induction xs generalizing vs with
  | nil => exact pure ()
  | cons x xs ih =>
    cases vs with
    | nil => exact pure ()
    | cons v vs => exact (bindIn scope x.lexeme v).bind fun _ => ih vs

theorem requireArity (paren : Token) (expected given : Nat) :
    (Layer.requireArity paren expected given).Quiet := by
  unfold Layer.requireArity
  split
  · exact pure ()
  · exact throw _

end Action.Quiet

/-! ## Runs -/

/-- An action with a record of what it prints. -/
structure Run (α : Type) where
  action : Action α
  trace : Machine → List Printed
  follows : Follows action trace

namespace Run

def quiet {α : Type} (p : Action α) (hp : p.Quiet) : Run α := ⟨p, fun _ => [], hp.follows⟩

instance : Monad Run where
  pure a := quiet (pure a) (.pure a)
  bind p f := ⟨p.action >>= fun a => (f a).action,
    fun m => p.trace m ++ Action.andThen (fun a => (f a).trace) (p.action m),
    p.follows.bind fun a => (f a).follows⟩

/-- Prints the text of a value, and keeps a record of it. -/
def print (keyword : Token) (v : Value) : Run Unit :=
  ⟨Action.print keyword v, fun m => [⟨keyword, v.text, m.store⟩], .print keyword v⟩

def inScope {α : Type} (scope : ScopeId) (p : Run α) : Run α :=
  ⟨Action.inScope scope p.action, fun m => p.trace { m with current := scope },
    p.follows.inScope scope⟩

def exhausted {α : Type} : Run α := quiet (throw .outOfFuel) (.throw _)

def fail {α : Type} (t : Token) (fault : RuntimeFault) : Run α :=
  quiet (Action.fail t fault) (.throw _)

def current : Run ScopeId :=
  quiet (do return (← get).current) ⟨fun _ => rfl, fun _ => rfl, fun _ _ => rfl⟩

end Run

end Lox
