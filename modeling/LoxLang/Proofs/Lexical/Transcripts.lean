import LoxLang.Proofs.Lexical.Simulation
import LoxLang.Proofs.Scoping.Agreement

/-! Sessions with distances and sessions without them: unit by unit both report the same, as long as no initial value of
a local variable assigns the variable's own name. -/

namespace LoxLang

/-- What can be told after a unit. -/
structure Report where
  outcome : Outcome
  /-- Why the statements halted, if the unit is accepted and they did. -/
  halt : Option Halt
  /-- What the unit wrote to the output and to the diagnostics. -/
  written : String × String
  globals : Names
  /-- The functions, the classes and the instances with their fields. -/
  heap : Heap Unit

namespace Session

/-- Runs units, each with a bound on the depth of its run, and reports on each. -/
def transcript : List (Nat × String) → Session → List Report
  | [], _ => []
  | (n, source) :: rest, s =>
    let after := s.run n source
    let taken := after.2.takeWritten
    let m := taken.2.machine
    let halt := (s.accepted? source).bind fun unit => (interpret n unit.1).halt? (s.ready unit.2)
    ⟨after.1, halt, taken.1, m.store.frames.names m.globals, m.store.toHeap.outline⟩ :: transcript rest taken.2

/-- In no accepted unit an initial value of a local variable assigns the variable's own name. -/
def KeepsOwn : List (Nat × String) → Session → Prop
  | [], _ => True
  | (n, source) :: rest, s =>
    (∀ unit ∈ s.accepted? source, Stmt.KeepsOwnEach false unit.1) ∧ KeepsOwn rest (s.run n source).2.takeWritten.2

def decidableKeepsOwn : (units : List (Nat × String)) → (s : Session) → Decidable (s.KeepsOwn units)
  | [], _ => inferInstanceAs (Decidable True)
  | (n, source) :: rest, s =>
    have := decidableKeepsOwn rest (s.run n source).2.takeWritten.2
    inferInstanceAs (Decidable ((∀ unit ∈ s.accepted? source, Stmt.KeepsOwnEach false unit.1) ∧ _))

instance (units : List (Nat × String)) (s : Session) : Decidable (s.KeepsOwn units) := decidableKeepsOwn units s

end Session

namespace Lexical

namespace Session

def takeWritten (s : Session) : (String × String) × Session :=
  let (output, rest) := s.machine.output.take
  let (diagnostics, others) := s.diagnostics.take
  ((output, diagnostics), { s with machine := { s.machine with output := rest }, diagnostics := others })

def transcript : List (Nat × String) → Session → List Report
  | [], _ => []
  | (n, source) :: rest, s =>
    let after := s.run n source
    let taken := after.2.takeWritten
    let m := taken.2.machine
    let halt := (s.accept source).result.toOption.bind fun statements => (interpret n statements).halt? s.machine
    ⟨after.1, halt, taken.1, m.globals, m.heap.outline⟩ :: transcript rest taken.2

end Session

variable {s : LoxLang.Session} {r : Session}

/-- The machines mirror each other, and the rest of the sessions is the same. -/
structure Twins (c : Chart) (s : LoxLang.Session) (r : Session) : Prop where
  mirror : ∃ slots, Mirror c slots s.machine r.machine
  diagnostics : r.diagnostics = s.diagnostics
  nextId : r.nextId = s.nextId

/-- Twins between two units. -/
structure Alike (s : LoxLang.Session) (r : Session) : Prop where
  sound : s.Sound true
  rest : s.AtRest
  twins : Twins (s.chart true) s r

theorem alike_start (prompt : Bool) (now : Number) (output diagnostics : Sink) :
    Alike (.start prompt now output diagnostics) (.start prompt now output diagnostics) := by
  have hsound : (LoxLang.Session.start prompt now output diagnostics).Sound true :=
    Session.sound_start prompt now output diagnostics
  have hsize : 0 < (Frames.empty.add none ∅).size := Nat.zero_lt_one
  refine ⟨hsound, ⟨rfl, rfl⟩, ⟨[], hsound.machine, rfl, nofun, List.nodup_nil, nofun, ?_, ?_, rfl, rfl⟩, rfl, rfl⟩
  · exact (Frames.names_define_self hsize "clock" (.native 0)).symm
  · exact ⟨rfl, fun _ => .none, fun _ => .none, rfl⟩

namespace Twins

variable {c : Chart} {n : Nat} {statements : List Stmt}

theorem report (h : Twins c s r) (outcome : Outcome) (lines : List String) :
    (r.report outcome lines).1 = (s.report outcome lines).1 ∧
      Twins c (s.report outcome lines).2 (r.report outcome lines).2 := by
  unfold LoxLang.Session.report Session.report
  rw [h.diagnostics]
  exact ⟨rfl, h.mirror, rfl, h.nextId⟩

/-- What runs in pairs is reported alike. -/
theorem execute (h : Twins c s r) {slots : List Slot}
    (hp : Pairs c slots s.machine r.machine (LoxLang.interpret n statements) (interpret n statements) Same) :
    (r.execute n statements).1 = (s.execute n statements).1 ∧
      (interpret n statements).halt? r.machine = (LoxLang.interpret n statements).halt? s.machine ∧
        Twins c (s.execute n statements).2 (r.execute n statements).2 := by
  unfold Pairs at hp
  unfold LoxLang.Session.execute Session.execute Halting.halt?
  revert hp
  cases LoxLang.interpret n statements s.machine with
  | ok u m =>
    cases interpret n statements r.machine with
    | ok u' r' =>
      rintro ⟨slots', -, hm, -⟩
      exact ⟨rfl, rfl, ⟨slots', hm⟩, h.diagnostics, h.nextId⟩
    | error k r' => exact False.elim
  | error k m =>
    cases interpret n statements r.machine with
    | ok u r' => exact False.elim
    | error k' r' =>
      rintro ⟨rfl, slots', hm⟩
      have htwins : Twins c { s with machine := m } { r with machine := r' } := ⟨⟨slots', hm⟩, h.diagnostics, h.nextId⟩
      obtain ⟨houtcome, hreport⟩ := htwins.report k'.outcome k'.lines
      exact ⟨houtcome, rfl, hreport⟩

end Twins

theorem Mirror.mono {c d : Chart} {slots : List Slot} {m : LoxLang.Machine} {r' : Machine} (h : Mirror c slots m r')
    (hd : c.Le d) {bindings : Bindings} (hb : d.bindings = bindings) :
    Mirror d slots { m with bindings := bindings } r' :=
  have hhomed : ∀ around k visible, Homed c m.store.frames m.globals slots around k visible →
      Homed d m.store.frames m.globals slots around k visible := fun _ _ _ ⟨l, hview, hfits, hthis⟩ =>
    ⟨l, hview, hfits.mono hd, hthis⟩
  { h with
    sound := ⟨hb, h.sound.store.mono hd⟩
    heap := h.heap.mono (hhomed []) (hhomed .ofInstance) }

namespace Alike

variable {n : Nat} {source : String}

/-- The reference reads a unit in the same way, and accepts it if distances are found for it. -/
theorem accept_eq (h : Alike s r) (source : String) :
    r.accept source = ⟨(s.accept source).map Prod.fst, (s.read source).nextId⟩ := by
  obtain ⟨slots, hm⟩ := h.twins.mirror
  unfold Session.accept LoxLang.Session.accept LoxLang.Session.read LoxLang.Session.globals
    LoxLang.Machine.globalNames
  rw [hm.prompt, h.twins.nextId, hm.globals]
  dsimp only
  cases (Parsed.ofSource (Parsed.program s.machine.prompt) source s.nextId).result with
  | error faults => rfl
  | ok statements =>
    dsimp only [Except.bind]
    cases resolve (.ofList (s.machine.store.frames.names s.machine.globals).keys) statements <;> rfl

/-- A unit that is refused is reported alike, and reading it takes as many node ids. -/
theorem refused (h : Alike s r) {faults : List Diagnostic} (he : s.accept source = .error faults) (n : Nat) :
    (r.run n source).1 = (s.run n source).1 ∧ Twins ((s.run n source).2.chart true) (s.run n source).2 (r.run n source).2 := by
  obtain ⟨slots, hm⟩ := h.twins.mirror
  have hle : (s.chart true).Le ⟨s.machine.bindings, (s.read source).nextId, true⟩ :=
    ⟨fun _ _ => rfl, LoxLang.Session.nextId_le_read s source, rfl⟩
  have htwins : Twins ⟨s.machine.bindings, (s.read source).nextId, true⟩ { s with nextId := (s.read source).nextId }
      { r with nextId := (s.read source).nextId } := ⟨⟨slots, hm.mono hle rfl⟩, h.twins.diagnostics, rfl⟩
  obtain ⟨houtcome, hreport⟩ := htwins.report .staticError (faults.map Diagnostic.text)
  unfold Session.run
  rw [LoxLang.Session.run_eq, h.accept_eq, he]
  exact ⟨houtcome, hreport⟩

theorem stands_ready (h : Alike s r) (slots : List Slot) (bindings : Bindings) :
    Stands (s.ready bindings) slots .top [] where
  within := LoxLang.Session.at_ready h.rest bindings
  view := by
    have hcurrent : (s.ready bindings).current = (s.ready bindings).globals := h.rest.1
    rw [hcurrent]
    exact .top
  inside := rfl
  depth := h.rest.2.symm

/-- A unit that is accepted runs in pairs. -/
theorem accepted (h : Alike s r) {statements : List Stmt} {bindings : Bindings}
    (he : s.accept source = .ok (statements, bindings)) (hkeeps : Stmt.KeepsOwnEach false statements) (n : Nat) :
    (r.run n source).1 = (s.run n source).1 ∧
      (interpret n statements).halt? r.machine = (LoxLang.interpret n statements).halt? (s.ready bindings) ∧
      Twins ((s.run n source).2.chart true) (s.run n source).2 (r.run n source).2 := by
  have ha : s.accepted? source = some (statements, bindings) := by
    unfold LoxLang.Session.accepted?
    rw [he]
    rfl
  obtain ⟨slots, hm⟩ := h.twins.mirror
  have hready := hm.mono (LoxLang.Session.chart_le ha) rfl
  have hfits := h.sound.fits ha fun _ => hkeeps
  have htwins : Twins (s.chartOf true source bindings)
      { s with machine := s.ready bindings, nextId := (s.read source).nextId }
      { r with nextId := (s.read source).nextId } := ⟨⟨slots, hready⟩, h.twins.diagnostics, rfl⟩
  obtain ⟨houtcome, hhalt, hexecute⟩ :=
    htwins.execute (pairs_interpret rfl n statements hready (h.stands_ready slots bindings) hfits)
  obtain ⟨sink, hs⟩ := LoxLang.Session.execute_session n statements
    { s with machine := s.ready bindings, nextId := (s.read source).nextId }
  unfold Session.run
  rw [LoxLang.Session.run_eq, h.accept_eq, he]
  refine ⟨houtcome, hhalt, ?_⟩
  obtain ⟨slots', hm'⟩ := hexecute.mirror
  have hlimit : (LoxLang.Session.execute n statements
      { s with machine := s.ready bindings, nextId := (s.read source).nextId }).2.nextId = (s.read source).nextId := by
    rw [hs]
  dsimp only
  rw [LoxLang.Session.chart, ← hm'.sound.bindings, hlimit]
  exact hexecute

theorem run (h : Alike s r) (hkeeps : ∀ unit ∈ s.accepted? source, Stmt.KeepsOwnEach false unit.1) (n : Nat) :
    (r.run n source).1 = (s.run n source).1 ∧
      ((r.accept source).result.toOption.bind fun statements => (interpret n statements).halt? r.machine) =
        ((s.accepted? source).bind fun unit => (LoxLang.interpret n unit.1).halt? (s.ready unit.2)) ∧
      Alike (s.run n source).2 (r.run n source).2 := by
  have hsound := h.sound.run h.rest source (fun _ => hkeeps) n
  have hrest := LoxLang.Session.atRest_run h.rest n source
  unfold LoxLang.Session.accepted? at hkeeps ⊢
  rw [h.accept_eq]
  cases he : s.accept source with
  | error faults =>
    obtain ⟨houtcome, htwins⟩ := h.refused he n
    exact ⟨houtcome, rfl, hsound, hrest, htwins⟩
  | ok unit =>
    obtain ⟨statements, bindings⟩ := unit
    rw [he] at hkeeps
    obtain ⟨houtcome, hhalt, htwins⟩ := h.accepted he (hkeeps _ rfl) n
    exact ⟨houtcome, hhalt, hsound, hrest, htwins⟩

theorem takeWritten (h : Alike s r) :
    r.takeWritten.1 = s.takeWritten.1 ∧ Alike s.takeWritten.2 r.takeWritten.2 := by
  obtain ⟨slots, hm⟩ := h.twins.mirror
  have hm' : Mirror (s.chart true) slots s.takeWritten.2.machine r.takeWritten.2.machine :=
    { hm with
      sound := h.sound.takeWritten.machine
      output := by
        unfold LoxLang.Session.takeWritten Session.takeWritten
        rw [hm.output] }
  refine ⟨?_, h.sound.takeWritten, h.rest, ⟨slots, hm'⟩, ?_, h.twins.nextId⟩
  all_goals
    unfold LoxLang.Session.takeWritten Session.takeWritten
    rw [h.twins.diagnostics]
  rw [hm.output]

end Alike

theorem transcript_eq : ∀ (units : List (Nat × String)) {s : LoxLang.Session} {r : Session}, Alike s r →
    s.KeepsOwn units → r.transcript units = s.transcript units
  | [], _, _, _, _ => rfl
  | (n, source) :: rest, s, r, h, hkeeps => by
    obtain ⟨houtcome, hhalt, hrun⟩ := h.run hkeeps.1 n
    obtain ⟨hwritten, hnext⟩ := hrun.takeWritten
    obtain ⟨slots, hm⟩ := hnext.twins.mirror
    have hrest := transcript_eq rest hnext hkeeps.2
    unfold LoxLang.Session.transcript Session.transcript
    dsimp only
    rw [hrest, houtcome, hwritten, hhalt, hm.globals, hm.heap.outline]

end Lexical

/-- Unit by unit, a session reports what the reference reports: the same outcome, the same reason to halt, the same
output and diagnostics, and the same values in the global names and in the heap. The units may nest and shadow names in
any way, if no initial value of a local variable assigns the variable's own name. -/
theorem lexical_scoping (prompt : Bool) (now : Number) (output diagnostics : Sink) (units : List (Nat × String))
    (h : (Session.start prompt now output diagnostics).KeepsOwn units) :
    (Session.start prompt now output diagnostics).transcript units =
      (Lexical.Session.start prompt now output diagnostics).transcript units :=
  (Lexical.transcript_eq units (Lexical.alike_start prompt now output diagnostics) h).symm

/-- A function that sees the global variable although its block declares one of the same name behind it, kept by a unit
that fails and called in the next. -/
theorem lexical_scoping_declared_behind :
    let s := Session.start false ⟨0⟩ .unlimited .unlimited
    let units := [(40, "var x = 1; var g; { function f() { print x; } g = f; var x = 2; f(); { var x = x; print x; } nosuch; }"),
      (30, "g();")]
    s.KeepsOwn units ∧ s.transcript units = (Lexical.Session.start false ⟨0⟩ .unlimited .unlimited).transcript units ∧
      (s.transcript units).map Report.written = [("1\n2\n", "Undefined variable 'nosuch'.\n[line 1]\n"), ("1\n", "")] := by
  intro s units
  have hkeeps : s.KeepsOwn units := by decide +kernel
  exact ⟨hkeeps, lexical_scoping false ⟨0⟩ .unlimited .unlimited units hkeeps, by decide +kernel⟩

end LoxLang
