import LoxLang.Session

/-! A reference for lexical scoping, with no distances and no frames. A declaration makes a new cell, code runs with the
list of the names and cells visible to it, and a function keeps the list of the place of its declaration. A name is
looked up innermost first in that list; one that is not in it is global. -/

namespace LoxLang.Lexical

abbrev CellId := Nat

/-- The visible local names with their cells, the innermost first. -/
abbrev Visible := List (String × CellId)

structure Machine where
  heap : Heap Visible
  cells : Array Value
  globals : Names
  prompt : Bool
  output : Sink

abbrev Run := Halting Machine

/-- Where code runs. -/
structure Place where
  /-- A scope is open, so declarations are local. -/
  inside : Bool
  visible : Visible
  /-- How many calls are active. -/
  depth : Nat

/-- Outside all scopes. -/
def Place.top : Place := ⟨false, [], 0⟩

/-- How a statement ends that does not fail: at the place of the next one, or with a value. -/
inductive Ending
  | normal (next : Place)
  | returned (v : Value)

namespace Machine

/-- The value of a name where the given names are visible. -/
def valueOf? (m : Machine) (visible : Visible) (x : String) : Option Value :=
  match visible.lookup x with
  | some cell => m.cells[cell]?
  | none => m.globals[x]?

/-- Gives a name another value. -/
def put (m : Machine) (visible : Visible) (x : String) (v : Value) : Machine :=
  match visible.lookup x with
  | some cell => { m with cells := m.cells.setIfInBounds cell v }
  | none => { m with globals := m.globals.insert x v }

/-- Declares a name; leads to the place that follows the declaration. -/
def declare (m : Machine) (place : Place) (x : String) (v : Value) : Place × Machine :=
  if place.inside then
    ({ place with visible := (x, m.cells.size) :: place.visible }, { m with cells := m.cells.push v })
  else (place, { m with globals := m.globals.insert x v })

end Machine

section Operations

def newCell (v : Value) : Run CellId := modifyGet fun m => (m.cells.size, { m with cells := m.cells.push v })

@[inline] def inHeap {α : Type} (f : Heap Visible → α × Heap Visible) : Run α :=
  modifyGet fun m => let (a, heap) := f m.heap; (a, { m with heap := heap })

def declare (place : Place) (x : String) (v : Value) : Run Place := modifyGet fun m => m.declare place x v

def put (place : Place) (x : String) (v : Value) : Run Unit := modify fun m => m.put place.visible x v

def read (place : Place) (name : Token) : Run Value := do
  match (← get).valueOf? place.visible name.lexeme with
  | some v => return v
  | none => Run.fail name (.undefinedVariable name.lexeme)

def assign (place : Place) (name : Token) (v : Value) : Run Value := do
  match (← get).valueOf? place.visible name.lexeme with
  | some _ =>
    put place name.lexeme v
    return v
  | none => Run.fail name (.undefinedVariable name.lexeme)

def print (v : Value) : Run Unit := fun m =>
  let (taken, output) := m.output.writeLine (m.heap.display v)
  if taken then .ok () { m with output := output } else .error .outputFailed { m with output := output }

/-- A function like the given one that sees an instance as `this`. -/
def bind (k : Closure Visible) (o : ObjectId) : Run (Closure Visible) := do
  let cell ← newCell (.object o)
  return { k with home := ("this", cell) :: k.home }

/-- A method of a class, as a function bound to an instance. -/
def boundMethod (c : ClassId) (o : ObjectId) (name : Token) : Run Value := do
  match (← get).heap.method? c name.lexeme with
  | some method =>
    let k ← bind method o
    return .function (← inHeap fun h => h.addClosure k)
  | none => Run.fail name (.undefinedProperty name.lexeme)

/-- A property of an instance: its own field, or a method of its class. -/
def property (o : ObjectId) (name : Token) : Run Value := do
  let heap := (← get).heap
  match heap.field? o name.lexeme, heap.objects[o]? with
  | some v, _ => return v
  | none, some object => boundMethod object.cls o name
  | none, none => Run.fail name (.undefinedProperty name.lexeme)

/-- A method of the visible superclass, bound to the visible instance. -/
def inherited (place : Place) (keyword method : Token) : Run Value := do
  let m ← get
  match m.valueOf? place.visible "super", m.valueOf? place.visible "this" with
  | some (.cls c), some (.object o) => boundMethod c o method
  | some (.cls _), _ => Run.fail keyword .superWithoutThis
  | some _, _ => Run.fail keyword .superclassNotClass
  | none, _ => Run.fail keyword (.undefinedVariable keyword.lexeme)

/-- Refuses a call of what cannot be called, with a wrong number of arguments, or too deep. -/
def admitCall (place : Place) (paren : Token) (callee : Value) (given : Nat) : Run Unit := do
  match (← get).heap.arity? callee with
  | none => Run.fail paren .notCallable
  | some expected =>
    if given ≠ expected then Run.fail paren (.wrongArity expected given)
    else if maxDepth ≤ place.depth then Run.fail paren .stackOverflow
    else return ()

def declareFunction (place : Place) (f : Function) : Run Place := do
  let place ← declare place f.name.lexeme .nil
  let id ← inHeap fun h => h.addClosure ⟨f, place.visible, false⟩
  put place f.name.lexeme (.function id)
  return place

/-- The class that a superclass clause names. -/
def superclassOf (place : Place) (superclass : NameUse) : Run ClassId := do
  match ← read place superclass.name with
  | .cls c => return c
  | _ => Run.fail superclass.name .superclassNotClass

/-- Declares a class. Its methods see the superclass as `super`. -/
def declareClass (place : Place) (name : Token) (superclass : Option ClassId) (methods : List Function) :
    Run Place := do
  let place ← declare place name.lexeme .nil
  let home ← match superclass with
    | some c => do
      let cell ← newCell (.cls c)
      pure (("super", cell) :: place.visible)
    | none => pure place.visible
  let id ← inHeap fun h => h.addClass ⟨name.lexeme, superclass, .ofList home methods⟩
  put place name.lexeme (.cls id)
  return place

/-- Declares parameters with the arguments at their places. -/
def declareParameters (place : Place) : List Token → List Value → Run Place
  | t :: parameters, v :: arguments => do
    let place ← declare place t.lexeme v
    declareParameters place parameters arguments
  | _, _ => return place

end Operations

section Calls

variable (exec : Place → Stmt → Run Ending)

/-- Runs statements up to the first that returns, each at the place that the one before it leads to. -/
def sequence (place : Place) : List Stmt → Run Ending
  | [] => return .normal place
  | s :: rest => do
    match ← exec place s with
    | .normal next => sequence next rest
    | .returned v => return .returned v

/-- Runs the body of a function, with the given number of calls active. -/
def callClosure (depth : Nat) (k : Closure Visible) (arguments : List Value) : Run Value := do
  let place ← declareParameters ⟨true, k.home, depth⟩ k.declared.parameters arguments
  let ending ← sequence exec place k.declared.body
  if k.isInitializer then return ((← get).valueOf? k.home "this").getD .nil
  else match ending with
    | .returned v => return v
    | .normal _ => return .nil

/-- Makes an instance and runs its initializer, if the class has one. -/
def construct (depth : Nat) (c : ClassId) (arguments : List Value) : Run Value := do
  let o ← inHeap fun h => h.addObject c
  match (← get).heap.initializer? c with
  | some method =>
    let k ← bind method o
    let _ ← callClosure exec depth k arguments
    return .object o
  | none => return .object o

/-- Calls a value that can be called; the number of arguments is not looked at. -/
def call (depth : Nat) (callee : Value) (arguments : List Value) : Run Value := do
  let heap := (← get).heap
  match callee with
  | .native id => return (heap.natives[id]?.map fun f => f.apply heap.display arguments).getD .nil
  | .function id =>
    match heap.closures[id]? with
    | some k => callClosure exec depth k arguments
    | none => return .nil
  | .cls id => construct exec depth id arguments
  | _ => return .nil

end Calls

mutual

/-- The value of an expression at a place. -/
def eval : Nat → Place → Expr → Run Value
  | 0, _, _ => throw .exhausted
  | n + 1, place, e => match e with
    | .literal value => return value.value
    | .grouping inner => eval n place inner
    | .unary operator operand => do Run.unary operator (← eval n place operand)
    | .binary left operator right => do
      let a ← eval n place left
      let b ← eval n place right
      Run.binary operator a b
    | .logical left operator right => do
      let a ← eval n place left
      if decides operator a then return a else eval n place right
    | .read _ name => read place name
    | .assign _ name value => do assign place name (← eval n place value)
    | .call callee paren arguments => do
      let f ← eval n place callee
      let values ← Run.each (eval n place) arguments
      admitCall place paren f values.length
      call (exec n) (place.depth + 1) f values
    | .get object name => do
      match ← eval n place object with
      | .object o => property o name
      | _ => Run.fail name .propertyOfNonInstance
    | .set object name value => do
      match ← eval n place object with
      | .object o =>
        let v ← eval n place value
        inHeap fun h => ((), h.setField o name.lexeme v)
        return v
      | _ => Run.fail name .fieldOfNonInstance
    | .self _ keyword => read place keyword
    | .inherited _ keyword method => inherited place keyword method

/-- Runs a statement at a place. -/
def exec : Nat → Place → Stmt → Run Ending
  | 0, _, _ => throw .exhausted
  | n + 1, place, s => match s with
    | .expression e => do
      let _ ← eval n place e
      return .normal place
    | .print e => do
      print (← eval n place e)
      return .normal place
    | .var name initial => do
      let v ← match initial with
        | some e => eval n place e
        | none => pure .nil
      return .normal (← declare place name.lexeme v)
    | .block body => do
      match ← sequence (exec n) { place with inside := true } body with
      | .normal _ => return .normal place
      | .returned v => return .returned v
    | .branch condition yes no => do
      if (← eval n place condition).truthy then exec n place yes
      else match no with
        | some s => exec n place s
        | none => return .normal place
    | .loop condition body => do
      if (← eval n place condition).truthy then
        match ← exec n place body with
        | .normal _ => exec n place (.loop condition body)
        | .returned v => return .returned v
      else return .normal place
    | .function f => return .normal (← declareFunction place f)
    | .ret _ value => do
      match value with
      | some e => return .returned (← eval n place e)
      | none => return .returned .nil
    | .classDecl name superclass methods => do
      let superclass ← match superclass with
        | some u => pure (some (← superclassOf place u))
        | none => pure none
      return .normal (← declareClass place name superclass methods)

end

/-- Runs a statement of a unit. -/
def perform (n : Nat) (s : Stmt) : Run Unit := do
  match s, (← get).prompt with
  | .expression e, true => print (← eval n .top e)
  | s, _ => let _ ← exec n .top s

/-- Runs the statements of a unit. -/
def interpret (n : Nat) : List Stmt → Run Unit
  | [] => return ()
  | s :: rest => do
    perform n s
    interpret n rest

structure Session where
  machine : Machine
  diagnostics : Sink
  nextId : NodeId

namespace Session

def start (prompt : Bool) (now : Number) (output diagnostics : Sink) : Session :=
  let (id, heap) := Heap.empty.addNative (clock now)
  ⟨⟨heap, #[], (∅ : Names).insert (clock now).name (.native id), prompt, output⟩, diagnostics, 0⟩

def report (outcome : Outcome) (lines : List String) (s : Session) : Outcome × Session :=
  let (taken, sink) := s.diagnostics.writeLines lines
  (if taken then outcome else .outputFailed, { s with diagnostics := sink })

def execute (n : Nat) (statements : List Stmt) (s : Session) : Outcome × Session :=
  match interpret n statements s.machine with
  | .ok () m => (.ok, { s with machine := m })
  | .error h m => { s with machine := m }.report h.outcome h.lines

/-- The statements of a unit, unless it has a static fault. -/
def accept (s : Session) (source : String) : Parsed (List Stmt) :=
  let parsed := Parsed.ofSource (Parsed.program s.machine.prompt) source s.nextId
  { parsed with result := parsed.result.bind fun statements =>
      (resolve (.ofList s.machine.globals.keys) statements).map fun _ => statements }

/-- Runs a unit of source. -/
def run (n : Nat) (source : String) (s : Session) : Outcome × Session :=
  let parsed := s.accept source
  let s := { s with nextId := parsed.nextId }
  match parsed.result with
  | .error faults => s.report .staticError (faults.map Diagnostic.text)
  | .ok statements => s.execute n statements

end Session

end LoxLang.Lexical
