import LoxLang.Evaluation.Calls
import LoxLang.Evaluation.Operators

/-! The evaluator. The first argument bounds the depth of the run; what ends within a bound ends in the same way
within every greater one. -/

namespace LoxLang

open Run

mutual

/-- The value of an expression. -/
def eval : Nat → Expr → Run Value
  | 0, _ => throw .exhausted
  | n + 1, e => match e with
    | .literal value => return value.value
    | .grouping inner => eval n inner
    | .unary operator operand => do unary operator (← eval n operand)
    | .binary left operator right => do
      let a ← eval n left
      let b ← eval n right
      binary operator a b
    | .logical left operator right => do
      let a ← eval n left
      if decides operator a then return a else eval n right
    | .read id name => read id name
    | .assign id name value => do assign id name (← eval n value)
    | .call callee paren arguments => do
      let f ← eval n callee
      let values ← each (eval n) arguments
      admitCall paren f values.length
      asCall (call (exec n) f values)
    | .get object name => do
      match ← eval n object with
      | .object o => property o name
      | _ => fail name .propertyOfNonInstance
    | .set object name value => do
      match ← eval n object with
      | .object o =>
        let v ← eval n value
        inHeap fun h => ((), h.setField o name.lexeme v)
        return v
      | _ => fail name .fieldOfNonInstance
    | .self id keyword => read id keyword
    | .inherited id keyword method => inherited id keyword method

/-- Runs a statement. -/
def exec : Nat → Stmt → Run Completion
  | 0, _ => throw .exhausted
  | n + 1, s => match s with
    | .expression e => do
      let _ ← eval n e
      return .normal
    | .print e => do
      print (← eval n e)
      return .normal
    | .var name initial => do
      let v ← match initial with
        | some e => eval n e
        | none => pure .nil
      define name.lexeme v
      return .normal
    | .block body => do
      let outer := (← get).current
      inNewFrame (exec n) outer ∅ body
    | .branch condition yes no => do
      if (← eval n condition).truthy then exec n yes
      else match no with
        | some s => exec n s
        | none => return .normal
    | .loop condition body => do
      if (← eval n condition).truthy then
        match ← exec n body with
        | .normal => exec n (.loop condition body)
        | .returned v => return .returned v
      else return .normal
    | .function f => do
      declareFunction f
      return .normal
    | .ret _ value => do
      match value with
      | some e => return .returned (← eval n e)
      | none => return .returned .nil
    | .classDecl name superclass methods => do
      let superclass ← match superclass with
        | some u => pure (some (← superclassOf u))
        | none => pure none
      declareClass name superclass methods
      return .normal

end

/-- Runs a statement of a unit. A return at this level ends nothing but its own statement. -/
def perform (n : Nat) (s : Stmt) : Run Unit := do
  match s, (← get).prompt with
  | .expression e, true => print (← eval n e)
  | s, _ => let _ ← exec n s

/-- Runs the statements of a unit. -/
def interpret (n : Nat) : List Stmt → Run Unit
  | [] => return ()
  | s :: rest => do
    perform n s
    interpret n rest

end LoxLang
