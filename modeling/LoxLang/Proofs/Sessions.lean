import LoxLang.Proofs.Context
import LoxLang.Session

/-! Sessions unit by unit: what a unit without static faults runs, what a refused one leaves alone, and which
sessions there are. -/

namespace LoxLang

/-- How a unit that is run ends, and what is then in the diagnostic sink. -/
def Sink.conclude (sink : Sink) : Option Halt → Outcome × Sink
  | none => (.ok, sink)
  | some k =>
    let (taken, after) := sink.writeLines k.lines
    (if taken then k.outcome else .outputFailed, after)

namespace Session

/-- What the source of a unit reads as. -/
def read (s : Session) (source : String) : Parsed (List Stmt) :=
  Parsed.ofSource (Parsed.program s.machine.prompt) source s.nextId

/-- The statements of a unit and their distances, or its static faults. -/
def accept (s : Session) (source : String) : Except (List Diagnostic) (List Stmt × Bindings) :=
  (s.read source).result.bind fun statements => (resolve s.globals statements).map fun bindings => (statements, bindings)

/-- The statements of a unit and their distances, unless it has a static fault. -/
def accepted? (s : Session) (source : String) : Option (List Stmt × Bindings) := (s.accept source).toOption

/-- The machine on which the statements of an accepted unit run. -/
def ready (s : Session) (bindings : Bindings) : Machine := s.machine.addBindings bindings

theorem report_session (outcome : Outcome) (lines : List String) (s : Session) :
    ∃ sink, (s.report outcome lines).2 = { s with diagnostics := sink } := ⟨_, rfl⟩

theorem execute_session (n : Nat) (statements : List Stmt) (s : Session) :
    ∃ sink, (s.execute n statements).2 =
      { s with machine := (interpret n statements).after s.machine, diagnostics := sink } := by
  unfold execute Halting.after
  cases interpret n statements s.machine with
  | ok _ m => exact ⟨_, rfl⟩
  | error h m => exact report_session _ _ _

theorem execute_of_ok {n : Nat} {statements : List Stmt} {s : Session} {m : Machine}
    (e : interpret n statements s.machine = .ok () m) : s.execute n statements = (.ok, { s with machine := m }) := by
  unfold execute
  rw [e]

theorem execute_of_error {n : Nat} {statements : List Stmt} {s : Session} {k : Halt} {m : Machine}
    (e : interpret n statements s.machine = .error k m) :
    s.execute n statements = { s with machine := m }.report k.outcome k.lines := by
  unfold execute
  rw [e]

theorem run_read (n : Nat) (source : String) (s : Session) : s.run n source =
    match (s.read source).result with
    | .error faults => { s with nextId := (s.read source).nextId }.report .staticError (faults.map Diagnostic.text)
    | .ok statements =>
      match resolve s.globals statements with
      | .error faults => { s with nextId := (s.read source).nextId }.report .staticError (faults.map Diagnostic.text)
      | .ok bindings =>
        { s with machine := s.ready bindings, nextId := (s.read source).nextId }.execute n statements := rfl

/-- A unit is refused with its faults, or run. -/
theorem run_eq (n : Nat) (source : String) (s : Session) : s.run n source =
    match s.accept source with
    | .error faults => { s with nextId := (s.read source).nextId }.report .staticError (faults.map Diagnostic.text)
    | .ok (statements, bindings) =>
      { s with machine := s.ready bindings, nextId := (s.read source).nextId }.execute n statements := by
  rw [run_read, accept]
  cases (s.read source).result with
  | error faults => rfl
  | ok statements => cases h : resolve s.globals statements <;> simp only [Except.bind, Except.map, h]

theorem accept_of_accepted {s : Session} {source : String} {unit : List Stmt × Bindings}
    (h : s.accepted? source = some unit) : s.accept source = .ok unit := by
  unfold accepted? at h
  cases e : s.accept source with
  | error faults => simp [e, Except.toOption] at h
  | ok unit' => simpa [e, Except.toOption] using h

theorem accept_of_refused {s : Session} {source : String} (h : s.accepted? source = none) :
    ∃ faults, s.accept source = .error faults := by
  unfold accepted? at h
  cases e : s.accept source with
  | error faults => exact ⟨faults, rfl⟩
  | ok unit => simp [e, Except.toOption] at h

theorem accepted_of_accept {s : Session} {source : String} {unit : List Stmt × Bindings} (h : s.accept source = .ok unit) :
    s.accepted? source = some unit := by
  rw [accepted?, h]
  rfl

theorem accept_of_read {s : Session} {source : String} {statements : List Stmt} (h : (s.read source).result = .ok statements) :
    s.accept source = (resolve s.globals statements).map fun bindings => (statements, bindings) := by
  rw [accept, h]
  rfl

theorem accept_of_unread {s : Session} {source : String} {faults : List Diagnostic} (h : (s.read source).result = .error faults) :
    s.accept source = .error faults := by
  rw [accept, h]
  rfl

theorem read_of_accepted {s : Session} {source : String} {statements : List Stmt} {bindings : Bindings}
    (h : s.accepted? source = some (statements, bindings)) :
    (s.read source).result = .ok statements ∧ resolve s.globals statements = .ok bindings := by
  have haccept := accept_of_accepted h
  unfold accept at haccept
  cases hread : (s.read source).result with
  | error faults =>
    rw [hread] at haccept
    cases haccept
  | ok ss =>
    cases hresolve : resolve s.globals ss with
    | error faults =>
      simp only [hread, hresolve, Except.bind, Except.map] at haccept
      cases haccept
    | ok bs =>
      simp only [hread, hresolve, Except.bind, Except.map] at haccept
      cases haccept
      exact ⟨rfl, hresolve⟩

theorem run_of_accepted {s : Session} {source : String} {statements : List Stmt} {bindings : Bindings}
    (h : s.accepted? source = some (statements, bindings)) (n : Nat) :
    s.run n source =
      { s with machine := s.ready bindings, nextId := (s.read source).nextId }.execute n statements := by
  rw [run_eq, accept_of_accepted h]

theorem run_of_refused {s : Session} {source : String} (h : s.accepted? source = none) (n : Nat) :
    ∃ sink, (s.run n source).2 = { s with nextId := (s.read source).nextId, diagnostics := sink } := by
  obtain ⟨faults, haccept⟩ := accept_of_refused h
  rw [run_eq, haccept]
  exact report_session _ _ _

/-- Why a unit that is accepted does not run to its end. -/
def halt? (n : Nat) (source : String) (s : Session) : Option Halt :=
  (s.accepted? source).bind fun unit => (interpret n unit.1).halt? (s.ready unit.2)

theorem run_conclude {s : Session} {source : String} {statements : List Stmt} {known : Bindings}
    (ha : s.accepted? source = some (statements, known)) (n : Nat) :
    ((s.run n source).1, (s.run n source).2.diagnostics) = s.diagnostics.conclude (s.halt? n source) ∧
      (s.run n source).2.machine = (interpret n statements).after (s.ready known) := by
  unfold halt?
  rw [run_of_accepted ha, ha]
  unfold execute Halting.after
  cases e : interpret n statements (s.ready known) <;> simp [e, Sink.conclude, Halting.halt?, report]

/-- Runs units one after another, each with a bound of its own; tells how each ends. -/
def runEach : List (Nat × String) → Session → List Outcome × Session
  | [], s => ([], s)
  | (n, source) :: rest, s =>
    let (outcome, s) := s.run n source
    let (outcomes, s) := runEach rest s
    (outcome :: outcomes, s)

/-- The sessions that units lead to, each unit with a bound of its own on the depth of its run. -/
inductive Reachable : Session → Prop
  | start (prompt : Bool) (now : Number) (output diagnostics : Sink) :
    Reachable (.start prompt now output diagnostics)
  | run {s : Session} (n : Nat) (source : String) : Reachable s → Reachable (s.run n source).2
  | takeWritten {s : Session} : Reachable s → Reachable s.takeWritten.2

/-- The sessions that further units lead to. -/
inductive Precedes (s : Session) : Session → Prop
  | refl : Precedes s s
  | run {s' : Session} (n : Nat) (source : String) : Precedes s s' → Precedes s (s'.run n source).2
  | takeWritten {s' : Session} : Precedes s s' → Precedes s s'.takeWritten.2

theorem Precedes.reachable {s s' : Session} (h : s.Precedes s') (hs : s.Reachable) : s'.Reachable := by
  induction h with
  | refl => exact hs
  | run n source _ ih => exact .run n source ih
  | takeWritten _ ih => exact .takeWritten ih

/-- No call is active, and the program stands in the global frame. -/
def AtRest (s : Session) : Prop := s.machine.current = s.machine.globals ∧ s.machine.depth = 0

theorem atRest_run {s : Session} (h : s.AtRest) (n : Nat) (source : String) : (s.run n source).2.AtRest := by
  cases ha : s.accepted? source with
  | none =>
    obtain ⟨sink, hs⟩ := run_of_refused ha n
    rw [hs]
    exact h
  | some unit =>
    obtain ⟨statements, bindings⟩ := unit
    have hm := steady_interpret n statements (s.ready bindings)
    simp only [Machine.context, Context.mk.injEq] at hm
    obtain ⟨sink, hs⟩ := execute_session n statements
      { s with machine := s.ready bindings, nextId := (s.read source).nextId }
    rw [run_of_accepted ha, hs]
    exact ⟨hm.2.1.trans (h.1.trans hm.1.symm), hm.2.2.1.trans h.2⟩

theorem Reachable.atRest {s : Session} (h : s.Reachable) : s.AtRest := by
  induction h with
  | start => exact ⟨rfl, rfl⟩
  | run n source _ ih => exact atRest_run ih n source
  | takeWritten _ ih => exact ih

end Session

open Run

/-- An expression, a statement, a block, a call or a unit gives back the context in which it began, whether it
ends normally, returns, fails, cannot write or exceeds the bound. Between units the program stands in the
global frame, with no call active. -/
theorem context_restored :
    (∀ n e m, ((eval n e).after m).context = m.context) ∧
    (∀ n s m, ((exec n s).after m).context = m.context) ∧
    (∀ n outer names body m, ((inNewFrame (exec n) outer names body).after m).context = m.context) ∧
    (∀ n callee arguments m, ((call (exec n) callee arguments).after m).context = m.context ∧
      ((asCall (call (exec n) callee arguments)).after m).context = m.context) ∧
    (∀ n statements m, ((interpret n statements).after m).context = m.context) ∧
    ∀ s : Session, s.Reachable → ∀ n source,
      (s.run n source).2.machine.current = (s.run n source).2.machine.globals ∧
        (s.run n source).2.machine.depth = 0 := by
  refine ⟨steady_eval, steady_exec, ?_, ?_, steady_interpret, ?_⟩
  · intro n outer names body
    exact steady_inNewFrame (steady_exec n) outer names body
  · intro n callee arguments m
    have hcall := steady_call (steady_exec n) callee arguments
    exact ⟨hcall m, steady_asCall hcall m⟩
  · intro s hs n source
    exact (Session.Reachable.run n source hs).atRest

/-- A unit that fails in a block of a function called from a block. -/
theorem context_restored_nested :
    let s := Session.start false ⟨0⟩ .unlimited .unlimited
    let after := s.run 30 "function f() { { nosuch; } } { f(); }"
    after.1 = .runtimeError ∧ after.2.machine.current = after.2.machine.globals ∧ after.2.machine.depth = 0 :=
  ⟨by decide +kernel, context_restored.2.2.2.2.2 _ (.start false ⟨0⟩ .unlimited .unlimited) 30 _⟩

end LoxLang
