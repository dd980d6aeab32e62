import LoxLang.Evaluation.Names

/-! Statements in sequence, calls and declarations. What runs a statement is an argument. -/

namespace LoxLang

/-- How a statement ends that does not fail. -/
inductive Completion
  | normal
  | returned (v : Value)
deriving DecidableEq, Repr

/-- The most calls that can be active at once. -/
def maxDepth : Nat := 2048

namespace Run

/-- Runs statements up to the first that returns. -/
def sequence {σ : Type} (exec : Stmt → Halting σ Completion) : List Stmt → Halting σ Completion
  | [] => return .normal
  | s :: rest => do
    match ← exec s with
    | .normal => sequence exec rest
    | .returned v => return .returned v

/-- Runs statements in a new frame inside the given one. -/
@[inline] def inNewFrame (exec : Stmt → Run Completion) (outer : FrameId) (names : Names) (body : List Stmt) :
    Run Completion := do
  let frame ← inStore fun s => s.addFrame (some outer) names
  inFrame frame (sequence exec body)

/-- Parameters with the arguments at their places; what has no partner is left out. -/
def parameterNames (parameters : List Token) (arguments : List Value) : Names :=
  (parameters.zip arguments).foldl (fun names (t, v) => names.insert t.lexeme v) ∅

/-- Runs the body of a function. -/
def callClosure (exec : Stmt → Run Completion) (c : Closure FrameId) (arguments : List Value) : Run Value := do
  let completion ← inNewFrame exec c.home (parameterNames c.declared.parameters arguments) c.declared.body
  if c.isInitializer then return ((← get).store.frames.here? c.home "this").getD .nil
  else match completion with
    | .returned v => return v
    | .normal => return .nil

/-- Makes an instance and runs its initializer, if the class has one. -/
def construct (exec : Stmt → Run Completion) (c : ClassId) (arguments : List Value) : Run Value := do
  let o ← inHeap fun h => h.addObject c
  let m ← get
  match m.store.initializer? c with
  | some method =>
    let closure ← inStore fun s => s.bind method o
    let _ ← callClosure exec closure arguments
    return .object o
  | none => return .object o

/-- Calls a value that can be called; the number of arguments is not looked at. -/
def call (exec : Stmt → Run Completion) (callee : Value) (arguments : List Value) : Run Value := do
  match callee with
  | .native id =>
    let s := (← get).store
    return (s.natives[id]?.map fun f => f.apply s.display arguments).getD .nil
  | .function id =>
    match (← get).store.closures[id]? with
    | some c => callClosure exec c arguments
    | none => return .nil
  | .cls id => construct exec id arguments
  | _ => return .nil

/-- Refuses a call of what cannot be called, with a wrong number of arguments, or too deep. -/
def admitCall (paren : Token) (callee : Value) (given : Nat) : Run Unit := do
  let m ← get
  match m.store.arity? callee with
  | none => fail paren .notCallable
  | some expected =>
    if given ≠ expected then fail paren (.wrongArity expected given)
    else if maxDepth ≤ m.depth then fail paren .stackOverflow
    else return ()

/-- Values in order. -/
def each {σ : Type} (eval : Expr → Halting σ Value) : List Expr → Halting σ (List Value)
  | [] => return []
  | e :: rest => return (← eval e) :: (← each eval rest)

def declareFunction (f : Function) : Run Unit := do
  let current := (← get).current
  let id ← inHeap fun h => h.addClosure ⟨f, current, false⟩
  define f.name.lexeme (.function id)

/-- The class that a superclass clause names. -/
def superclassOf (superclass : NameUse) : Run ClassId := do
  match ← read superclass.id superclass.name with
  | .cls c => return c
  | _ => fail superclass.name .superclassNotClass

/-- Defines a class. Its methods are declared in the current frame, or in a frame inside it that names the
superclass. -/
def declareClass (name : Token) (superclass : Option ClassId) (methods : List Function) : Run Unit := do
  define name.lexeme .nil
  let current := (← get).current
  let id ← inStore fun s =>
    let (frame, s) := match superclass with
      | some c => s.addFrame (some current) ((∅ : Names).insert "super" (.cls c))
      | none => (current, s)
    s.inHeap fun h => h.addClass ⟨name.lexeme, superclass, .ofList frame methods⟩
  define name.lexeme (.cls id)

end Run

end LoxLang
