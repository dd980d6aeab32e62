import LoxLang.Proofs.Output.Limits
import LoxLang.Proofs.Scoping.Agreement

/-! Units whose output or whose report is refused: they end as such and in no other way, they stop there, and units before
them do not know of the limits. -/

namespace LoxLang

namespace Session

/-- The session without limits on its sinks. -/
def uncapped (s : Session) : Session :=
  { s with machine := s.machine.uncapped, diagnostics := s.diagnostics.uncapped }

/-- The lines that a unit reports: its static faults, or the error with which it halts. -/
def reports (n : Nat) (source : String) (s : Session) : List String :=
  match s.accept source with
  | .error faults => faults.map Diagnostic.text
  | .ok _ => ((s.halt? n source).map Halt.lines).getD []

variable {s : Session} {n : Nat} {source : String}

/-- The output fails in a unit just if at some moment of it a value is refused. -/
theorem halt?_outputFailed : s.halt? n source = some .outputFailed ↔
    ∃ k m v, s.Visits n source k ∧ k.Prints m v ∧ m.Refuses v := by
  unfold halt? Visits
  cases ha : s.accepted? source with
  | none => simp
  | some unit =>
    obtain ⟨statements, known⟩ := unit
    rw [Option.bind_some]
    constructor
    · intro h
      have hlifts := lifts_interpret n statements (s.ready known)
      unfold Run.Lifts at hlifts
      unfold Halting.halt? at h
      cases e : interpret n statements (s.ready known) with
      | ok _ t => simp [e] at h
      | error k t =>
        rw [e] at h hlifts
        obtain rfl : k = .outputFailed := Option.some.inj h
        obtain ⟨-, k, m, v, hk, hprints, hrefused⟩ := hlifts.resolve_right fun h => h.1 rfl
        exact ⟨k, m, v, ⟨_, rfl, hk⟩, hprints, hrefused⟩
    · rintro ⟨k, m, v, ⟨unit, hunit, hk⟩, hprints, hrefused⟩
      cases hunit
      have hhalted := Moment.halted?_of_visits hk (hprints.halted? hrefused) nofun
      simp only [Moment.halted?, Halting.halted?] at hhalted
      unfold Halting.halt?
      cases e : interpret n statements (s.ready known) <;> simp_all

theorem outputFailed_iff (s : Session) (n : Nat) (source : String) : (s.run n source).1 = .outputFailed ↔
    s.halt? n source = some .outputFailed ∨ (s.diagnostics.writeLines (s.reports n source)).1 = false := by
  unfold reports
  cases ha : s.accepted? source with
  | none =>
    obtain ⟨faults, hfaults⟩ := accept_of_refused ha
    have hhalt : s.halt? n source = none := by rw [halt?, ha, Option.bind_none]
    rw [run_eq, hfaults, hhalt]
    simp [report]
  | some unit =>
    have hconclude := congrArg Prod.fst (run_conclude ha n).1
    rw [accept_of_accepted ha]
    dsimp only at hconclude ⊢
    rw [hconclude]
    rcases s.halt? n source with - | ⟨⟨cause, line⟩⟩ | - | - <;>
      simp [Sink.conclude, Halt.outcome, Halt.lines, Sink.writeLines]

/-- What is in the diagnostic sink behind a unit is what the unit reports, up to the first line that is refused. -/
theorem diagnostics_run (s : Session) (n : Nat) (source : String) :
    (s.run n source).2.diagnostics = (s.diagnostics.writeLines (s.reports n source)).2 := by
  unfold reports
  cases ha : s.accepted? source with
  | none =>
    obtain ⟨faults, hfaults⟩ := accept_of_refused ha
    rw [run_eq, hfaults]
    rfl
  | some unit =>
    have hconclude := congrArg Prod.snd (run_conclude ha n).1
    rw [accept_of_accepted ha]
    dsimp only at hconclude ⊢
    rw [hconclude]
    cases s.halt? n source <;> rfl

/-- At the first value that is refused a unit is over, and the session is left as it is then. -/
theorem run_of_refusal {k : Moment} {m : Machine} {v : Value} {statements : List Stmt} {known : Bindings}
    (ha : s.accepted? source = some (statements, known)) (hk : Moment.Visits ⟨n, .unit statements, s.ready known⟩ k)
    (hprints : k.Prints m v) (hrefused : m.Refuses v) : s.run n source = (.outputFailed, { s with
      machine := { s.ready known with store := m.store, output := (m.output.writeLine (m.store.display v)).2 }
      nextId := (s.read source).nextId }) := by
  have hhalted := Moment.halted?_of_visits hk (hprints.halted? hrefused) nofun
  have hsteady := steady_interpret n statements (s.ready known)
  simp only [Moment.halted?, Halting.halted?] at hhalted
  unfold Halting.after at hsteady
  rw [run_of_accepted ha]
  unfold execute
  dsimp only
  cases e : interpret n statements (s.ready known) with
  | ok => simp [e] at hhalted
  | error h t =>
    rw [e] at hsteady
    simp only [e, Option.some.injEq, Prod.mk.injEq] at hhalted
    obtain ⟨rfl, hstore, houtput⟩ := hhalted
    obtain ⟨store, globals, current, depth, bindings, prompt, output⟩ := t
    simp only [Machine.context, Context.mk.injEq] at hsteady hstore houtput
    obtain ⟨rfl, rfl, rfl, rfl, rfl⟩ := hsteady
    subst hstore houtput
    simp [report, Halt.lines, Halt.outcome, Sink.writeLines]

theorem report_uncapped {lines : List String} (h : (s.diagnostics.writeLines lines).1 = true) (outcome : Outcome) :
    s.uncapped.report outcome lines = ((s.report outcome lines).1, (s.report outcome lines).2.uncapped) := by
  have hlines : s.uncapped.diagnostics.writeLines lines = _ := Sink.writeLines_uncapped h
  simp only [report, h, hlines]
  rfl

/-- A unit that does not fail to write does not depend on the limits. -/
theorem run_uncapped (h : (s.run n source).1 ≠ .outputFailed) :
    s.uncapped.run n source = ((s.run n source).1, (s.run n source).2.uncapped) := by
  rw [ne_eq, outputFailed_iff, not_or, Bool.not_eq_false] at h
  obtain ⟨hhalt, hreports⟩ := h
  have haccept : s.uncapped.accept source = s.accept source := rfl
  unfold reports at hreports
  rw [run_eq, run_eq, haccept]
  cases ha : s.accept source with
  | error faults =>
    rw [ha] at hreports
    exact report_uncapped (s := { s with nextId := (s.read source).nextId }) hreports _
  | ok unit =>
    obtain ⟨statements, known⟩ := unit
    have hlifts := lifts_interpret n statements (s.ready known)
    simp only [ha, halt?, accepted_of_accept ha, Option.bind_some] at hhalt hreports
    unfold Run.Lifts at hlifts
    unfold Halting.halt? at hhalt hreports
    cases e : interpret n statements (s.ready known) with
    | ok _ t =>
      rw [e] at hlifts
      have hrun := execute_of_ok (s := ⟨s.ready known, s.diagnostics, (s.read source).nextId⟩) e
      dsimp only
      rw [hrun]
      exact execute_of_ok hlifts
    | error k t =>
      rw [e] at hlifts hhalt hreports
      have hsame := (hlifts.resolve_left fun h => hhalt (congrArg some h.1)).2
      have hrun := execute_of_error (s := ⟨s.ready known, s.diagnostics, (s.read source).nextId⟩) e
      dsimp only
      rw [hrun]
      exact (execute_of_error hsame).trans
        (report_uncapped (s := ⟨t, s.diagnostics, (s.read source).nextId⟩) hreports _)

/-- Units before the first that fails to write do not depend on the limits. -/
theorem runEach_uncapped {units : List (Nat × String)} (h : .outputFailed ∉ (runEach units s).1) :
    runEach units s.uncapped = ((runEach units s).1, (runEach units s).2.uncapped) := by
  induction units generalizing s with
  | nil => rfl
  | cons unit rest ih =>
    simp only [runEach, List.mem_cons, not_or] at h ⊢
    rw [run_uncapped fun e => h.1 e.symm, ih h.2]

end Session

open Session

/-- A unit ends with a failed output just if at some moment of it a value is refused, in whatever block or call, or a line
of its report is. At the first value that is refused the unit is over and the session left as it is then, with nothing
reported; at the first line that is refused so is the report. Units before the first that so ends do what they do without
limits on the sinks. -/
theorem refusal_ends_unit (s : Session) (n : Nat) (source : String) :
    ((s.run n source).1 = .outputFailed ↔
      (∃ k m v, s.Visits n source k ∧ k.Prints m v ∧ m.Refuses v) ∨
        (s.diagnostics.writeLines (s.reports n source)).1 = false) ∧
    (s.run n source).2.diagnostics = (s.diagnostics.writeLines (s.reports n source)).2 ∧
    (∀ statements known, s.accepted? source = some (statements, known) →
      ∀ k m v, Moment.Visits ⟨n, .unit statements, s.ready known⟩ k → k.Prints m v → m.Refuses v →
        s.run n source = (.outputFailed, { s with
          machine := { s.ready known with store := m.store, output := (m.output.writeLine (m.store.display v)).2 }
          nextId := (s.read source).nextId })) ∧
    ∀ units, .outputFailed ∉ (runEach units s).1 →
      runEach units s.uncapped = ((runEach units s).1, (runEach units s).2.uncapped) := by
  refine ⟨?_, diagnostics_run s n source, fun statements known ha k m v => run_of_refusal ha, fun units => runEach_uncapped⟩
  rw [outputFailed_iff, halt?_outputFailed]

/-- Three bytes of output: a block in a function writes a line of two, and its next one is refused. -/
theorem refusal_ends_unit_in_call :
    let s := Session.start false ⟨0⟩ (.ofCapacity (some 3)) .unlimited
    let source := "function f() { { print 1; print 2; } } f(); print 3; nosuch;"
    (s.run 30 source).1 = .outputFailed ∧ (s.run 30 source).2.diagnostics = s.diagnostics ∧
      (∃ k m v, s.Visits 30 source k ∧ k.Prints m v ∧ m.Refuses v ∧ (s.run 30 source).2.machine.store = m.store ∧
        (s.run 30 source).2.machine.output = (m.output.writeLine (m.store.display v)).2) ∧
      runEach [(30, "print 1;")] s.uncapped =
        ((runEach [(30, "print 1;")] s).1, (runEach [(30, "print 1;")] s).2.uncapped) := by
  intro s source
  have houtcome : (s.run 30 source).1 = .outputFailed := by decide +kernel
  have hsink : s.diagnostics.writeLines (s.reports 30 source) = (true, s.diagnostics) := by decide +kernel
  have hunits : .outputFailed ∉ (runEach [(30, "print 1;")] s).1 := by decide +kernel
  clear_value s source
  obtain ⟨hiff, hdiagnostics, hends, hbefore⟩ := refusal_ends_unit s 30 source
  rw [hsink] at hiff hdiagnostics
  obtain ⟨k, m, v, ⟨⟨statements, known⟩, ha, hk⟩, hprints, hrefused⟩ := (hiff.mp houtcome).resolve_right (by simp)
  have hrun := hends statements known ha k m v hk hprints hrefused
  refine ⟨houtcome, hdiagnostics, ⟨k, m, v, ⟨_, ha, hk⟩, hprints, hrefused, ?_, ?_⟩, hbefore _ hunits⟩ <;> rw [hrun]

end LoxLang
