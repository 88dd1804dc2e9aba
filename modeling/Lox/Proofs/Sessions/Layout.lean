import Mathlib
import Lox.Syntax.Render
import Lox.Proofs.Grammar.Images
import Lox.Proofs.Sessions.Pieces
import Lox.Proofs.Sessions.Reporting

/-!
Layout.

Two sources may hold the same words in other places.  Everything that reads, runs or lists a
program then does the same on both, and what it reports differs in lines and columns only.  Since
functions keep their tokens, sessions are compared in the same way: apart from the places in the
trees that they hold.
-/

namespace Lox

/-! ## Without places -/

/-- The token as if it stood nowhere. -/
def Token.unplaced (t : Token) : Token := { t with line := 0, column := 0 }

def Relabeling.unplaced : Relabeling := ⟨Token.unplaced, fun s => s⟩

namespace Diagnostic

def unplaced : Diagnostic → Diagnostic
  | scan _ _ message => scan 0 0 message
  | parse _ location message => parse 0 location message
  | runtime t message => runtime t.unplaced message

end Diagnostic

def Turn.unplaced (turn : Turn) : Turn :=
  { turn with reported := turn.reported.map Diagnostic.unplaced }

/-- Two tokens that differ at most in their places. -/
structure Token.SameWord (t u : Token) : Prop where
  kind : t.kind = u.kind
  lexeme : t.lexeme = u.lexeme
  literal : t.literal? = u.literal?

/-- Two sources with the same words and the same faults of spelling, wherever these stand. -/
structure Scan.SameWords (a b : Scan) : Prop where
  tokens : List.Forall₂ Token.SameWord a.tokens b.tokens
  errors : a.errors.map ScanError.fault = b.errors.map ScanError.fault

/-- Two sessions that differ at most in the places of the tokens in the functions they hold. -/
structure Session.SameApart (s t : Session) : Prop where
  size : s.machine.store.size = t.machine.store.size
  enclosing : ∀ id, s.machine.store.enclosing? id = t.machine.store.enclosing? id
  bindings : ∀ id x, (s.machine.store.local? id x).map (·.relabel .unplaced) =
    (t.machine.store.local? id x).map (·.relabel .unplaced)
  current : s.machine.current = t.machine.current
  sink : s.machine.sink = t.machine.sink
  loaded : s.loaded = t.loaded

namespace Relabeling

theorem faithful_unplaced : unplaced.Faithful everywhere :=
  ⟨fun _ => rfl, fun _ => rfl, fun _ _ _ _ h => h⟩

theorem keepsForms_unplaced : unplaced.KeepsForms := fun _ => rfl

end Relabeling

/-! ## Words -/

namespace Token

theorem form_eq {t u : Token} (hkind : t.kind = u.kind) (h : t.literal? = u.literal?) :
    t.form = u.form := by
  obtain ⟨f, x, line, column⟩ := t
  obtain ⟨g, y, line', column'⟩ := u
  dsimp only
  unfold kind at hkind
  unfold literal? at h
  dsimp only at hkind h
  cases f with
  | string text =>
    cases g with
    | string text' => simpa using h
    | bare k hk => exact absurd hkind.symm hk.1
    | number v => exact nomatch hkind
  | number v =>
    cases g with
    | number v' => simpa using h
    | bare k hk => exact absurd hkind.symm hk.2
    | string text => exact nomatch hkind
  | bare k hk =>
    cases g with
    | bare k' hk' =>
      obtain rfl : k = k' := hkind
      rfl
    | string text => exact absurd hkind hk.1
    | number v => exact absurd hkind hk.2

theorem SameWord.of_unplaced {t u : Token} (h : t.unplaced = u.unplaced) : t.SameWord u where
  kind := show t.unplaced.kind = u.unplaced.kind by rw [h]
  lexeme := show t.unplaced.lexeme = u.unplaced.lexeme by rw [h]
  literal := show t.unplaced.literal? = u.unplaced.literal? by rw [h]

theorem SameWord.unplaced_eq {t u : Token} (h : t.SameWord u) : t.unplaced = u.unplaced := by
  rw [unplaced, unplaced, form_eq h.kind h.literal, h.lexeme]

end Token

/-- The same words are the same tokens without their places. -/
theorem Token.map_unplaced_eq {ts us : List Token} :
    ts.map unplaced = us.map unplaced ↔ List.Forall₂ SameWord ts us := by
  constructor
  · intro h
    induction ts generalizing us with
    | nil =>
      rw [List.map_eq_nil_iff.mp h.symm]
      exact .nil
    | cons t ts ih =>
      obtain ⟨u, us, rfl, hu, hus⟩ := List.map_eq_cons_iff.mp h.symm
      exact .cons (.of_unplaced hu.symm) (ih hus.symm)
  · intro h
    induction h with
    | nil => rfl
    | cons ht _ ih => rw [List.map_cons, List.map_cons, ht.unplaced_eq, ih]

/-! ## Programs -/

section Rendering

variable {r : Relabeling} {L : ScopeId → Prop}

mutual

theorem Expr.render_relabel (hr : r.Faithful L) : ∀ e : Expr, (e.relabel r).render = e.render
  | .binary left t right | .logical left t right => by
    rw [Expr.relabel, Expr.render, Expr.render, Expr.render_relabel hr left,
      Expr.render_relabel hr right, hr.lexeme]
  | .grouping e => by rw [Expr.relabel, Expr.render, Expr.render, Expr.render_relabel hr e]
  | .literal v => Value.text_relabel hr v
  | .unary t e | .assign t e => by
    rw [Expr.relabel, Expr.render, Expr.render, Expr.render_relabel hr e, hr.lexeme]
  | .variable t => hr.lexeme t
  | .call f t es => by
    rw [Expr.relabel, Expr.render, Expr.render, Expr.render_relabel hr f,
      Expr.renderAll_relabelAll hr es]

theorem Expr.renderAll_relabelAll (hr : r.Faithful L) :
    ∀ es : List Expr, Expr.renderAll (Expr.relabelAll r es) = Expr.renderAll es
  | [] => rfl
  | e :: es => by
    rw [Expr.relabelAll, Expr.renderAll, Expr.renderAll, Expr.render_relabel hr e,
      Expr.renderAll_relabelAll hr es]

end

mutual

theorem Stmt.render_relabel (hr : r.Faithful L) : ∀ s : Stmt, (s.relabel r).render = s.render
  | .print _ e | .expression e => by
    rw [Stmt.relabel, Stmt.render, Stmt.render, Expr.render_relabel hr e]
  | .declare x none => by
    rw [Stmt.relabel, Expr.relabelOptional, Stmt.render, Stmt.render, hr.lexeme]
  | .declare x (some e) => by
    rw [Stmt.relabel, Expr.relabelOptional, Stmt.render, Stmt.render, hr.lexeme,
      Expr.render_relabel hr e]
  | .block ss => by
    rw [Stmt.relabel, Stmt.render, Stmt.render, Stmt.renderAll_relabelAll hr ss]
  | .branch c s none => by
    rw [Stmt.relabel, Stmt.relabelOptional, Stmt.render, Stmt.render, Expr.render_relabel hr c,
      Stmt.render_relabel hr s]
  | .branch c s (some t) => by
    rw [Stmt.relabel, Stmt.relabelOptional, Stmt.render, Stmt.render, Expr.render_relabel hr c,
      Stmt.render_relabel hr s, Stmt.render_relabel hr t]
  | .loop c s => by
    rw [Stmt.relabel, Stmt.render, Stmt.render, Expr.render_relabel hr c,
      Stmt.render_relabel hr s]
  | .function ⟨x, xs, ss⟩ => by
    have hlexemes : Token.lexeme ∘ r.token = Token.lexeme := funext hr.lexeme
    rw [Stmt.relabel, Declaration.relabel, Stmt.render, Stmt.render, hr.lexeme,
      Stmt.renderAll_relabelAll hr ss, Declaration.renderParameters, List.map_map, hlexemes,
      Declaration.renderParameters]
  | .ret _ none => rfl
  | .ret _ (some e) => by
    rw [Stmt.relabel, Expr.relabelOptional, Stmt.render, Stmt.render, Expr.render_relabel hr e]

theorem Stmt.renderAll_relabelAll (hr : r.Faithful L) :
    ∀ ss : List Stmt, Stmt.renderAll (Stmt.relabelAll r ss) = Stmt.renderAll ss
  | [] => rfl
  | s :: ss => by
    rw [Stmt.relabelAll, Stmt.renderAll, Stmt.renderAll, Stmt.render_relabel hr s,
      Stmt.renderAll_relabelAll hr ss]

end

end Rendering

theorem Diagnostic.unplaced_relabel (d : Diagnostic) :
    (d.relabel .unplaced).unplaced = d.unplaced := by
  cases d <;> rfl

theorem Report.unplaced_relabel (report : Report) :
    (report.relabel .unplaced).diagnostics.map Diagnostic.unplaced =
      report.diagnostics.map Diagnostic.unplaced := by
  rw [relabel, List.map_map]
  exact List.map_congr_left fun d _ => d.unplaced_relabel

/-- Words in other places are read as the same program. -/
theorem Program.ofSource_unplaced {a b : String} (h : (scan a).SameWords (scan b)) :
    Stmt.relabelAll .unplaced (ofSource a).statements =
        Stmt.relabelAll .unplaced (ofSource b).statements ∧
      (ofSource a).diagnostics.map Diagnostic.unplaced =
        (ofSource b).diagnostics.map Diagnostic.unplaced := by
  have hends : ∀ source, ∃ t ∈ (scan source).tokens, t.kind = .eof := fun source => by
    obtain ⟨ts, e, hts, he, -⟩ := Scan.tokens_eq .start source.toList
    have hmem : e ∈ ts ++ [e] := List.mem_append_right _ (List.mem_singleton_self e)
    exact ⟨e, hts ▸ hmem, he⟩
  have hparse : (parse (scan a).tokens).relabel .unplaced =
      (parse (scan b).tokens).relabel .unplaced := by
    rw [← Grammar.parse_map Relabeling.keepsForms_unplaced (hends a),
      ← Grammar.parse_map Relabeling.keepsForms_unplaced (hends b)]
    exact congrArg parse (Token.map_unplaced_eq.mpr h.tokens)
  refine ⟨congrArg Parse.statements hparse, ?_⟩
  have hscan : ((scan a).errors.map ScanError.diagnostic).map Diagnostic.unplaced =
      ((scan b).errors.map ScanError.diagnostic).map Diagnostic.unplaced := by
    have hfaults := congrArg
      (List.map fun fault : ScanFault => Diagnostic.scan 0 0 fault.message) h.errors
    rwa [List.map_map, List.map_map] at hfaults ⊢
  have herrors := congrArg (fun p => p.errors.map ParseError.diagnostic) hparse
  simp only [Parse.relabel, List.map_map] at herrors
  simp only [ofSource, List.map_append, hscan, List.map_map]
  exact congrArg _ herrors

/-! ## Sessions -/

namespace Session

variable {s t : Session}

/-- A session without places stands for all that differ in places only. -/
theorem mirrors_unplaced (s : Session) : s.Mirrors .unplaced (s.relabel .unplaced) where
  machine := ⟨Store.mirrors_of_local (fun _ => rfl) (Store.size_relabel _ _)
      (Store.enclosing?_relabel _ _) (Store.local?_relabel _ _), rfl, fun _ => ⟨trivial, rfl⟩⟩
  loaded := rfl

namespace SameApart

theorem mirrors (h : s.SameApart t) : s.Mirrors .unplaced (t.relabel .unplaced) where
  machine := by
    refine ⟨Store.mirrors_of_local (fun _ => rfl) ?_ (fun id => ?_) fun id x => ?_, h.sink.symm,
      fun _ => ⟨trivial, h.current.symm⟩⟩
    · exact (Store.size_relabel _ _).trans h.size.symm
    · exact (Store.enclosing?_relabel _ _ id).trans (h.enclosing id).symm
    · exact (Store.local?_relabel _ _ id x).trans (h.bindings id x).symm
  loaded := h.loaded.symm

/-- Sessions are the same apart from places if one session mirrors both. -/
theorem of_mirrors {u : Session} (hs : s.Mirrors .unplaced u) (ht : t.Mirrors .unplaced u) :
    s.SameApart t where
  size := (hs.machine.store.fresh 0).2.trans (ht.machine.store.fresh 0).2.symm
  enclosing i := by
    have h := (hs.machine.store.enclosing i trivial).symm.trans
      (ht.machine.store.enclosing i trivial)
    rwa [show Relabeling.unplaced.scope = id from rfl, Option.map_id] at h
  bindings id x := (hs.machine.store.bindings id trivial x).symm.trans
    (ht.machine.store.bindings id trivial x)
  current := (hs.machine.current trivial).2.symm.trans (ht.machine.current trivial).2
  sink := hs.machine.sink.symm.trans ht.machine.sink
  loaded := hs.loaded.symm.trans ht.loaded

theorem drain (h : s.SameApart t) : s.drain.2.SameApart t.drain.2 :=
  ⟨h.size, h.enclosing, h.bindings, h.current, congrArg (fun sink => sink.drain.2) h.sink,
    h.loaded⟩

variable (h : s.SameApart t) (seconds : Float) (fuel : Nat) {a b : String}
  (hab : (scan a).SameWords (scan b))
include h hab

/-- The same words do the same in sessions that differ in places, and leave them so. -/
theorem run :
    let one := s.run (.withClock seconds) fuel a
    let two := t.run (.withClock seconds) fuel b
    one.1.outcome = two.1.outcome ∧
      one.1.diagnostics.map Diagnostic.unplaced = two.1.diagnostics.map Diagnostic.unplaced ∧
      one.2.SameApart two.2 := by
  intro one two
  obtain ⟨hstatements, hdiagnostics⟩ := Program.ofSource_unplaced hab
  by_cases hclean : (Program.ofSource a).diagnostics = []
  · have hclean' : (Program.ofSource b).diagnostics = [] := by
      rw [hclean, List.map_nil] at hdiagnostics
      exact List.map_eq_nil_iff.mp hdiagnostics.symm
    have hone := execute_mirrors Relabeling.faithful_unplaced
      (Host.respects_withClock seconds _ _) h.mirrors fuel (Program.ofSource a).statements
    have htwo := execute_mirrors Relabeling.faithful_unplaced
      (Host.respects_withClock seconds _ _) t.mirrors_unplaced fuel
      (Program.ofSource b).statements
    rw [hstatements, ← s.run_of_clean _ _ hclean] at hone
    rw [← t.run_of_clean _ _ hclean'] at htwo
    have hreport : one.1.relabel .unplaced = two.1.relabel .unplaced :=
      hone.1.symm.trans htwo.1
    have houtcome := congrArg Report.outcome hreport
    refine ⟨houtcome, ?_, .of_mirrors hone.2 htwo.2⟩
    rw [← one.1.unplaced_relabel, hreport, two.1.unplaced_relabel]
  · have hclean' : (Program.ofSource b).diagnostics ≠ [] := fun hnil => by
      rw [hnil, List.map_nil] at hdiagnostics
      exact hclean (List.map_eq_nil_iff.mp hdiagnostics)
    have hone : one = _ := s.run_of_faulty _ fuel hclean
    have htwo : two = _ := t.run_of_faulty _ fuel hclean'
    rw [hone, htwo]
    exact ⟨rfl, hdiagnostics, h⟩

end SameApart

/-- The same words show the same apart from places, in any row of runs. -/
theorem SameApart.turns (h : s.SameApart t) (seconds : Float) (fuel : Nat) (c c' : Collector)
    {as bs : List String} (hab : List.Forall₂ (fun a b => (scan a).SameWords (scan b)) as bs) :
    (s.turns (.withClock seconds) fuel c as).map Turn.unplaced =
      (t.turns (.withClock seconds) fuel c' bs).map Turn.unplaced := by
  induction hab generalizing s t c c' with
  | nil => rfl
  | cons hfirst _ ih =>
    obtain ⟨houtcome, hdiagnostics, hsame⟩ := h.drain.run seconds fuel hfirst
    rw [turns_cons, turns_cons, List.map_cons, List.map_cons]
    refine congrArg₂ List.cons ?_ (ih hsame _ _)
    simp only [Turn.unplaced, houtcome, hdiagnostics, hsame.sink]

end Session

/-- Layout never changes meaning.  Sources with the same words, in sessions that differ in places
only, end alike, print the same text and report the same apart from places; their programs are
equal and look the same when listed; and whatever runs later does so in the same way on both. -/
theorem layout_is_meaningless {s t : Session} (hst : s.SameApart t) (seconds : Float) (fuel : Nat)
    {a b : String} (hab : (scan a).SameWords (scan b)) :
    let host := Host.withClock seconds
    let (one, s') := s.run host fuel a
    let (two, t') := t.run host fuel b
    one.outcome = two.outcome ∧
    s'.machine.sink = t'.machine.sink ∧
    one.diagnostics.map Diagnostic.unplaced = two.diagnostics.map Diagnostic.unplaced ∧
    Stmt.renderAll (Program.ofSource a).statements =
      Stmt.renderAll (Program.ofSource b).statements ∧
    Stmt.relabelAll .unplaced (Program.ofSource a).statements =
      Stmt.relabelAll .unplaced (Program.ofSource b).statements ∧
    s'.SameApart t' ∧
    ∀ (c c' : Collector) (later later' : List String),
      List.Forall₂ (fun a b => (scan a).SameWords (scan b)) later later' →
      (s'.turns host fuel c later).map Turn.unplaced =
        (t'.turns host fuel c' later').map Turn.unplaced := by
  obtain ⟨houtcome, hdiagnostics, hsame⟩ := hst.run seconds fuel hab
  have hstatements := (Program.ofSource_unplaced hab).1
  have hlisting : Stmt.renderAll (Program.ofSource a).statements =
      Stmt.renderAll (Program.ofSource b).statements := by
    rw [← Stmt.renderAll_relabelAll Relabeling.faithful_unplaced, hstatements,
      Stmt.renderAll_relabelAll Relabeling.faithful_unplaced]
  exact ⟨houtcome, hsame.sink, hdiagnostics, hlisting, hstatements, hsame,
    fun c c' _ _ hlater => hsame.turns seconds fuel c c' hlater⟩

/-- A function that was declared on several lines fails when it is called on another one. -/
theorem layout_is_meaningless_declared :
    let host := Host.withClock 0
    let declared := (Session.start none).run host 20 "fun f() \x7b print g; \x7d"
    let spread := (Session.start none).run host 20 "fun f() \x7b // No layout.\n\tprint g;\n\x7d"
    let one := declared.2.run host 20 "print true; f();"
    let two := spread.2.run host 20 "print true;\n\n  f ( ) ;"
    one.1.diagnostics = [.runtime ⟨.bare .identifier, "g", 1, 17⟩ "Undefined variable 'g'."] ∧
    two.1.diagnostics = [.runtime ⟨.bare .identifier, "g", 2, 8⟩ "Undefined variable 'g'."] ∧
    one.1.diagnostics.map Diagnostic.unplaced = two.1.diagnostics.map Diagnostic.unplaced ∧
    one.2.machine.sink = two.2.machine.sink := by
  have hdeclared : (scan "fun f() \x7b print g; \x7d").SameWords
      (scan "fun f() \x7b // No layout.\n\tprint g;\n\x7d") :=
    ⟨Token.map_unplaced_eq.mp (by cbv), by cbv⟩
  have hcalled : (scan "print true; f();").SameWords (scan "print true;\n\n  f ( ) ;") :=
    ⟨Token.map_unplaced_eq.mp (by cbv), by cbv⟩
  have hstart : (Session.start none).SameApart (Session.start none) :=
    ⟨rfl, fun _ => rfl, fun _ _ => rfl, rfl, rfl, rfl⟩
  have hsame := (layout_is_meaningless hstart 0 20 hdeclared).2.2.2.2.2.1
  obtain ⟨-, hsink, hreports, -⟩ := layout_is_meaningless hsame 0 20 hcalled
  exact ⟨by cbv, by cbv, hreports, hsink⟩

end Lox
