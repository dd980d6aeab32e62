import LoxLang.Machine

/-! What the operators do with values, whatever the state is. -/

namespace LoxLang

namespace Run

variable {σ : Type}

/-- Applies an operation on two numbers. -/
def onNumbers (operator : Token) (f : Number → Number → Value) : Value → Value → Halting σ Value
  | .number a, .number b => return f a b
  | _, _ => fail operator .operandsNotNumbers

def sum (operator : Token) : Value → Value → Halting σ Value
  | .number a, .number b => return .number (a.add b)
  | .string a, .string b => return .string (a ++ b)
  | _, _ => fail operator .operandsNotAddable

def binary (operator : Token) (a b : Value) : Halting σ Value :=
  match operator.kind with
  | .plus => sum operator a b
  | .minus => onNumbers operator (fun x y => .number (x.sub y)) a b
  | .star => onNumbers operator (fun x y => .number (x.mul y)) a b
  | .slash => onNumbers operator (fun x y => .number (x.div y)) a b
  | .greater => onNumbers operator (fun x y => .bool (y.less x)) a b
  | .greaterEqual => onNumbers operator (fun x y => .bool (y.lessEqual x)) a b
  | .less => onNumbers operator (fun x y => .bool (x.less y)) a b
  | .lessEqual => onNumbers operator (fun x y => .bool (x.lessEqual y)) a b
  | .equalEqual => return .bool (a.same b)
  | .bangEqual => return .bool (!a.same b)
  | _ => fail operator (.unknownOperator operator.lexeme)

/-- A minus negates a number; any other sign asks whether the value counts as false. -/
def unary (operator : Token) (a : Value) : Halting σ Value :=
  match operator.kind with
  | .minus =>
    match a with
    | .number x => return .number x.neg
    | _ => fail operator .operandNotNumber
  | _ => return .bool (!a.truthy)

end Run

/-- Does the left operand decide the outcome alone? -/
def decides (operator : Token) (left : Value) : Bool :=
  match operator.kind with
  | .kwOr => left.truthy
  | _ => !left.truthy

end LoxLang
