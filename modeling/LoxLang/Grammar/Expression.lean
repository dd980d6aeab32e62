import LoxLang.Grammar.Cursor

/-! Reading expressions, from the loosest binding level to the tightest. Each reader takes the reader for
nested expressions; `expression` closes the circle, its argument bounding the nesting. -/

namespace LoxLang.Grammar

open Reader

/-- A literal, a name, `this`, a method of the superclass, or an expression in parentheses. -/
def primary (nested : Reader Expr) : Reader Expr := do
  let t := (← get).peek
  match t.kind with
  | .kwFalse => advance; return .literal (.bool false)
  | .kwTrue => advance; return .literal (.bool true)
  | .kwNil => advance; return .literal .nil
  | .number value => advance; return .literal (.number value)
  | .string text => advance; return .literal (.string text)
  | .kwThis => advance; return .self (← fresh) t
  | .identifier => advance; return .read (← fresh) t
  | .kwSuper =>
    advance
    let _ ← expect .dot "'.' after 'super'"
    let method ← expect .identifier "superclass method name"
    return .inherited (← fresh) t method
  | .leftParen =>
    advance
    let inner ← nested
    let _ ← expect .rightParen "')' after expression"
    return .grouping inner
  | _ => expected "expression"

/-- The calls and property names that follow an expression. -/
def suffixes (nested : Reader Expr) : Nat → Expr → Reader Expr
  | 0, _ => exhausted
  | n + 1, e => do
    if (← accept .leftParen).isSome then
      let arguments ← listed "arguments" nested (n + 1)
      let paren ← expect .rightParen "')' after arguments"
      suffixes nested n (.call e paren arguments)
    else if (← accept .dot).isSome then
      let name ← expect .identifier "property name after '.'"
      suffixes nested n (.get e name)
    else return e

def call (nested : Reader Expr) (n : Nat) : Reader Expr := do suffixes nested n (← primary nested)

def isUnary (k : Kind) : Bool := k == .bang || k == .minus

def unary (nested : Reader Expr) : Nat → Reader Expr
  | 0 => exhausted
  | n + 1 => do
    match ← acceptIf isUnary with
    | some operator => return .unary operator (← unary nested n)
    | none => call nested (n + 1)

/-- The operators of a level and their operands that follow a left operand. -/
def chain (isOperator : Kind → Bool) (node : Expr → Token → Expr → Expr) (operand : Reader Expr) :
    Nat → Expr → Reader Expr
  | 0, _ => exhausted
  | n + 1, left => do
    match ← acceptIf isOperator with
    | some operator => chain isOperator node operand n (node left operator (← operand))
    | none => return left

/-- A level of binary operators that group to the left. -/
def level (isOperator : Kind → Bool) (node : Expr → Token → Expr → Expr) (operand : Reader Expr) (n : Nat) :
    Reader Expr := do
  chain isOperator node operand n (← operand)

def isFactor (k : Kind) : Bool := k == .star || k == .slash

def factor (nested : Reader Expr) (n : Nat) : Reader Expr := level isFactor .binary (unary nested n) n

def isTerm (k : Kind) : Bool := k == .minus || k == .plus

/-- The kinds that can begin an operand. -/
def startsOperand : Kind → Bool
  | .number _ | .string _ | .identifier | .kwTrue | .kwFalse | .kwNil | .kwThis | .kwSuper
  | .leftParen | .bang | .minus => true
  | _ => false

/-- Behind a sign: the same sign again, with no operand after it. -/
def doubles (sign : Token) : List Token → Bool
  | again :: rest => again.kind == sign.kind && !(rest.head?.any fun t => startsOperand t.kind)
  | [] => false

/-- Adding one to a name, or taking one from it, and keeping the result. -/
def step (target : Expr) (sign : Token) : Reader Expr := do
  match target with
  | .read _ name => return .assign (← fresh) name (.binary target sign (.literal (.number .one)))
  | _ => failAt sign (.invalidTarget "increment")

/-- The sums that follow a left operand. A doubled sign with no operand after it is a step, and ends them. -/
def sums (operand : Reader Expr) : Nat → Expr → Reader Expr
  | 0, _ => exhausted
  | n + 1, left => do
    match ← acceptIf isTerm with
    | some sign =>
      if doubles sign (← get).rest then
        advance
        step left sign
      else sums operand n (.binary left sign (← operand))
    | none => return left

def term (nested : Reader Expr) (n : Nat) : Reader Expr := do
  sums (factor nested n) n (← factor nested n)

def isComparison (k : Kind) : Bool := k == .greater || k == .greaterEqual || k == .less || k == .lessEqual

def comparison (nested : Reader Expr) (n : Nat) : Reader Expr := level isComparison .binary (term nested n) n

def isEquality (k : Kind) : Bool := k == .bangEqual || k == .equalEqual

def equality (nested : Reader Expr) (n : Nat) : Reader Expr := level isEquality .binary (comparison nested n) n

def conjunction (nested : Reader Expr) (n : Nat) : Reader Expr :=
  level (· == .kwAnd) .logical (equality nested n) n

def disjunction (nested : Reader Expr) (n : Nat) : Reader Expr :=
  level (· == .kwOr) .logical (conjunction nested n) n

/-- The assignment of a value to what was read before the equals sign. A wrong target is reported and stays. -/
def assignTo (target : Expr) (equals : Token) (value : Expr) : Reader Expr := do
  match target with
  | .read _ name => return .assign (← fresh) name value
  | .get object name => return .set object name value
  | other =>
    report equals (.invalidTarget "assignment")
    return other

/-- An assignment groups to the right: its value is a whole expression. -/
def assignment (nested : Reader Expr) (n : Nat) : Reader Expr := do
  let target ← disjunction nested n
  match ← accept .equal with
  | some equals => assignTo target equals (← nested)
  | none => return target

/-- An expression. A bound above the number of tokens ahead is never exhausted. -/
def expression : Nat → Reader Expr
  | 0 => exhausted
  | n + 1 => assignment (expression n) (n + 1)

end LoxLang.Grammar
