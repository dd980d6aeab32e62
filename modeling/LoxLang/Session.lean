import LoxLang.Binding.Resolve
import LoxLang.Evaluation.Eval
import LoxLang.Grammar.Program

/-! Sessions: units of source run one after another on one machine. A unit with a static fault runs nothing;
what a unit has defined is there for the next. -/

namespace LoxLang

structure Session where
  machine : Machine
  diagnostics : Sink
  nextId : NodeId

/-- How a unit ends. -/
inductive Outcome
  | ok
  | staticError
  | runtimeError
  /-- A sink took no more. -/
  | outputFailed
  /-- The bound on the depth of the run was too small. -/
  | exhausted
deriving DecidableEq, Repr

namespace Halt

def outcome : Halt → Outcome
  | .error _ => .runtimeError
  | .outputFailed => .outputFailed
  | .exhausted => .exhausted

/-- What is reported. -/
def lines : Halt → List String
  | .error e => [e.text]
  | _ => []

end Halt

/-- The function of no arguments that tells the time, here a fixed one. -/
def clock (now : Number) : Native := ⟨"clock", 0, fun _ _ => .number now⟩

namespace Session

/-- A bound on the depth of runs that none reaches. -/
def ample : Nat := Nat.pow 2 62

def start (prompt : Bool) (now : Number) (output diagnostics : Sink) : Session :=
  ⟨(Machine.start prompt output).defineNative (clock now), diagnostics, 0⟩

/-- Writes lines to the diagnostic sink; an outcome that cannot be reported is a failed output. -/
def report (outcome : Outcome) (lines : List String) (s : Session) : Outcome × Session :=
  let (taken, sink) := s.diagnostics.writeLines lines
  (if taken then outcome else .outputFailed, { s with diagnostics := sink })

def execute (n : Nat) (statements : List Stmt) (s : Session) : Outcome × Session :=
  match interpret n statements s.machine with
  | .ok () m => (.ok, { s with machine := m })
  | .error h m => { s with machine := m }.report h.outcome h.lines

/-- The names that are global before a unit. -/
def globals (s : Session) : Std.ExtTreeSet String := .ofList s.machine.globalNames

/-- Runs a unit of source. -/
def run (n : Nat) (source : String) (s : Session) : Outcome × Session :=
  let parsed := Parsed.ofSource (Parsed.program s.machine.prompt) source s.nextId
  let s := { s with nextId := parsed.nextId }
  match parsed.result with
  | .error faults => s.report .staticError (faults.map Diagnostic.text)
  | .ok statements =>
    match resolve s.globals statements with
    | .error faults => s.report .staticError (faults.map Diagnostic.text)
    | .ok bindings => { s with machine := s.machine.addBindings bindings }.execute n statements

/-- What was written since the last time: the program's output and the diagnostics. -/
def takeWritten (s : Session) : (String × String) × Session :=
  let (output, rest) := s.machine.output.take
  let (diagnostics, others) := s.diagnostics.take
  ((output, diagnostics), { s with machine := { s.machine with output := rest }, diagnostics := others })

/-- Why a lone expression has no value. -/
inductive NoValue
  | static (faults : List Diagnostic)
  | halted (h : Halt)

/-- The value of a lone expression, whose names are not resolved. -/
def value (n : Nat) (source : String) (s : Session) : Except NoValue Value × Session :=
  let parsed := Parsed.ofSource Parsed.expression source s.nextId
  let s := { s with nextId := parsed.nextId }
  match parsed.result with
  | .error faults => (.error (.static faults), s)
  | .ok e =>
    match eval n e s.machine with
    | .ok v m => (.ok v, { s with machine := m })
    | .error h m => (.error (.halted h), { s with machine := m })

end Session

end LoxLang
