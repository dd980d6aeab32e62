import LoxLang.Binding.Walk
import LoxLang.Store.Basic

/-! The state of a running program, the ways in which a run can stop, and the output it writes. -/

namespace LoxLang

/-- Where text is written. A sink with a capacity takes that many bytes; the first write beyond it fails, and
so does every later one. -/
structure Sink where
  text : String
  capacity : Option Nat
deriving DecidableEq, Repr

namespace Sink

def unlimited : Sink := ⟨"", none⟩

def ofCapacity (capacity : Option Nat) : Sink := ⟨"", capacity⟩

/-- Writes a line; tells whether it was taken. -/
def writeLine (s : Sink) (line : String) : Bool × Sink :=
  let line := line ++ "\n"
  match s.capacity with
  | none => (true, { s with text := s.text ++ line })
  | some room =>
    if line.utf8ByteSize ≤ room then (true, ⟨s.text ++ line, some (room - line.utf8ByteSize)⟩)
    else (false, { s with capacity := some 0 })

/-- Writes lines up to the first that is not taken; tells whether all were. -/
def writeLines : List String → Sink → Bool × Sink
  | [], s => (true, s)
  | line :: rest, s =>
    let (taken, s) := s.writeLine line
    if taken then writeLines rest s else (false, s)

/-- What was written since the last time, and the sink without it. -/
def take (s : Sink) : String × Sink := (s.text, { s with text := "" })

end Sink

/-- Why a program fails. -/
inductive RuntimeFault
  | undefinedVariable (name : String)
  | undefinedProperty (name : String)
  | operandNotNumber
  | operandsNotNumbers
  | operandsNotAddable
  | unknownOperator (lexeme : String)
  | notCallable
  | wrongArity (expected given : Nat)
  | stackOverflow
  | propertyOfNonInstance
  | fieldOfNonInstance
  | superclassNotClass
  | superWithoutThis
deriving DecidableEq, Repr

def RuntimeFault.message : RuntimeFault → String
  | undefinedVariable name => "Undefined variable '" ++ name ++ "'."
  | undefinedProperty name => "Undefined property '" ++ name ++ "'."
  | operandNotNumber => "Operand must be a number."
  | operandsNotNumbers => "Operands must be numbers."
  | operandsNotAddable => "Operands must be two numbers or strings."
  | unknownOperator lexeme => "Unknown binary operator '" ++ lexeme ++ "'."
  | notCallable => "Can only call functions and classes."
  | wrongArity expected given =>
    "Expected " ++ toString expected ++ " arguments but got " ++ toString given ++ "."
  | stackOverflow => "Stack overflow."
  | propertyOfNonInstance => "Only instances have properties."
  | fieldOfNonInstance => "Only instances have fields."
  | superclassNotClass => "Superclass must be a class."
  | superWithoutThis => "Can't use 'super' without 'this'."

/-- A fault at a line of the program. -/
structure RuntimeError where
  cause : RuntimeFault
  line : Nat
deriving DecidableEq, Repr

def RuntimeError.text (e : RuntimeError) : String :=
  e.cause.message ++ "\n[line " ++ toString e.line ++ "]"

inductive Halt
  | error (e : RuntimeError)
  /-- The output took no more. -/
  | outputFailed
  /-- The bound on the depth of the run was too small. -/
  | exhausted
deriving DecidableEq, Repr

structure Machine where
  store : Store
  /-- The frame of names that no scope declares. -/
  globals : FrameId
  /-- The frame in which the program runs. -/
  current : FrameId
  /-- How many calls are active. -/
  depth : Nat
  bindings : Bindings
  /-- At a prompt the value of each top-level expression is written. -/
  prompt : Bool
  output : Sink

/-- Runs on a state, to an end or to a halt. -/
abbrev Halting (σ : Type) := EStateM Halt σ

abbrev Run := Halting Machine

namespace Machine

/-- A machine with one empty frame. -/
def start (prompt : Bool) (output : Sink) : Machine :=
  let (globals, store) := Store.empty.addFrame none ∅
  ⟨store, globals, globals, 0, ∅, prompt, output⟩

/-- Gives a name a value in the global frame. -/
def defineGlobal (m : Machine) (name : String) (v : Value) : Machine :=
  { m with store := { m.store with frames := m.store.frames.define m.globals name v } }

def defineNative (m : Machine) (f : Native) : Machine :=
  let (id, store) := m.store.inHeap fun h => h.addNative f
  { m with store := store }.defineGlobal f.name (.native id)

def globalNames (m : Machine) : List String := (m.store.frames.names m.globals).keys

/-- Adds distances to those known. -/
def addBindings (m : Machine) (bindings : Bindings) : Machine := { m with bindings := m.bindings ∪ bindings }

end Machine

namespace Run

def fail {σ α : Type} (t : Token) (cause : RuntimeFault) : Halting σ α := throw (.error ⟨cause, t.line⟩)

/-- Changes the store, with a result. -/
@[inline] def inStore {α : Type} (f : Store → α × Store) : Run α :=
  modifyGet fun m => let (a, store) := f m.store; (a, { m with store := store })

/-- Changes the frames, with a result. -/
@[inline] def inFrames {α : Type} (f : Frames → α × Frames) : Run α :=
  inStore fun s => let (a, frames) := f s.frames; (a, { s with frames := frames })

/-- Changes the heap, with a result. -/
@[inline] def inHeap {α : Type} (f : Heap FrameId → α × Heap FrameId) : Run α := inStore fun s => s.inHeap f

/-- Gives a name a value in the current frame. -/
def define (name : String) (v : Value) : Run Unit :=
  modify fun m => { m with store := { m.store with frames := m.store.frames.define m.current name v } }

/-- Runs in another frame; however the run ends, the current frame is again what it was. -/
@[inline] def inFrame {α : Type} (frame : FrameId) (run : Run α) : Run α := fun m =>
  let before := m.current
  match run { m with current := frame } with
  | .ok a m => .ok a { m with current := before }
  | .error e m => .error e { m with current := before }

/-- Runs as an active call; however the run ends, the number of active calls is again what it was. -/
@[inline] def asCall {α : Type} (run : Run α) : Run α := fun m =>
  let before := m.depth
  match run { m with depth := before + 1 } with
  | .ok a m => .ok a { m with depth := before }
  | .error e m => .error e { m with depth := before }

/-- Writes a value to the output, on a line of its own. -/
def print (v : Value) : Run Unit := fun m =>
  let line := m.store.display v
  let (taken, output) := m.output.writeLine line
  if taken then .ok () { m with output := output } else .error .outputFailed { m with output := output }

end Run

end LoxLang
