import LoxLang.Tree.Basic
import Mathlib.Tactic

/-! The grammar of expressions. A derivation is data: it has one constructor for each production, holds the tokens
that it stands for, and yields a tree. Node ids are left at zero.

```
expression  → ( call "." )? IDENT "=" expression | disjunction
disjunction → conjunction ( "or" conjunction )*
conjunction → equality ( "and" equality )*
equality    → comparison ( ( "!=" | "==" ) comparison )*
comparison  → term ( ( ">" | ">=" | "<" | "<=" ) term )*
term        → sum | IDENT "+" "+" | IDENT "-" "-"
sum         → product ( ( "-" | "+" ) product )*
product     → unary ( ( "/" | "*" ) unary )*
unary       → ( "!" | "-" ) unary | call
call        → primary ( "(" arguments? ")" | "." IDENT )*
arguments   → expression ( "," expression )*                     at most 255
primary     → NUMBER | STRING | "true" | "false" | "nil" | "this"
            | IDENT | "(" expression ")" | "super" "." IDENT
``` -/

namespace LoxLang

/-- A token of one of some kinds. -/
abbrev Terminal (kinds : List Kind) := { t : Token // t.kind ∈ kinds }

/-- The levels of binary operators, the loosest first. -/
inductive Level
  | disjunction | conjunction | equality | comparison | sum | product
deriving DecidableEq, Repr

inductive Symbol
  | expression
  | level (l : Level)
  | term
  | unary
  | call
  | primary
deriving DecidableEq, Repr

namespace Level

def operators : Level → List Kind
  | disjunction => [.kwOr]
  | conjunction => [.kwAnd]
  | equality => [.bangEqual, .equalEqual]
  | comparison => [.greater, .greaterEqual, .less, .lessEqual]
  | sum => [.minus, .plus]
  | product => [.slash, .star]

/-- What stands on both sides of an operator. -/
def operand : Level → Symbol
  | disjunction => .level conjunction
  | conjunction => .level equality
  | equality => .level comparison
  | comparison => .term
  | sum => .level product
  | product => .unary

def node : Level → Expr → Token → Expr → Expr
  | disjunction | conjunction => .logical
  | _ => .binary

end Level

/-- The value of a token that stands for a literal. -/
def Kind.constant? : Kind → Option Literal
  | .number value => some (.number value)
  | .string text => some (.string text)
  | .kwTrue => some (.bool true)
  | .kwFalse => some (.bool false)
  | .kwNil => some .nil
  | _ => none

mutual

inductive Derivation : Symbol → Type
  | assign (name : Terminal [.identifier]) (equals : Terminal [.equal]) (value : Derivation .expression) :
    Derivation .expression
  | set (object : Derivation .call) (dot : Terminal [.dot]) (name : Terminal [.identifier])
    (equals : Terminal [.equal]) (value : Derivation .expression) : Derivation .expression
  | plain (value : Derivation (.level .disjunction)) : Derivation .expression
  | operands {l : Level} (first : Derivation l.operand) (more : Operands l) : Derivation (.level l)
  | sum (value : Derivation (.level .sum)) : Derivation .term
  | increment (name : Terminal [.identifier]) (first second : Terminal [.plus]) : Derivation .term
  | decrement (name : Terminal [.identifier]) (first second : Terminal [.minus]) : Derivation .term
  | signed (operator : Terminal [.bang, .minus]) (operand : Derivation .unary) : Derivation .unary
  | unsigned (value : Derivation .call) : Derivation .unary
  | suffixed (first : Derivation .primary) (more : Suffixes) : Derivation .call
  | literal (t : Token) (value : Literal) (h : t.kind.constant? = some value) : Derivation .primary
  | self (keyword : Terminal [.kwThis]) : Derivation .primary
  | name (t : Terminal [.identifier]) : Derivation .primary
  | grouping (opening : Terminal [.leftParen]) (inner : Derivation .expression) (closing : Terminal [.rightParen]) :
    Derivation .primary
  | inherited (keyword : Terminal [.kwSuper]) (dot : Terminal [.dot]) (method : Terminal [.identifier]) :
    Derivation .primary

/-- The operators of a level and their right operands. -/
inductive Operands : Level → Type
  | nil {l : Level} : Operands l
  | cons {l : Level} (operator : Terminal l.operators) (right : Derivation l.operand) (more : Operands l) : Operands l

/-- The calls and property names that follow an expression. -/
inductive Suffixes : Type
  | nil
  | call (opening : Terminal [.leftParen]) (closing : Terminal [.rightParen]) (more : Suffixes)
  | callWith {n : Nat} (opening : Terminal [.leftParen]) (arguments : Arguments n) (few : n ≤ 255)
    (closing : Terminal [.rightParen]) (more : Suffixes)
  | get (dot : Terminal [.dot]) (name : Terminal [.identifier]) (more : Suffixes)

/-- At least one argument; the index is their number. -/
inductive Arguments : Nat → Type
  | one (e : Derivation .expression) : Arguments 1
  | cons {n : Nat} (e : Derivation .expression) (comma : Terminal [.comma]) (more : Arguments n) : Arguments (n + 1)

end

mutual

/-- The tokens that a derivation stands for. -/
def Derivation.tokens : {s : Symbol} → Derivation s → List Token
  | _, .assign name equals value => name.1 :: equals.1 :: value.tokens
  | _, .set object dot name equals value => object.tokens ++ dot.1 :: name.1 :: equals.1 :: value.tokens
  | _, .plain value => value.tokens
  | _, .operands first more => first.tokens ++ more.tokens
  | _, .sum value => value.tokens
  | _, .increment name first second => [name.1, first.1, second.1]
  | _, .decrement name first second => [name.1, first.1, second.1]
  | _, .signed operator operand => operator.1 :: operand.tokens
  | _, .unsigned value => value.tokens
  | _, .suffixed first more => first.tokens ++ more.tokens
  | _, .literal t _ _ => [t]
  | _, .self keyword => [keyword.1]
  | _, .name t => [t.1]
  | _, .grouping opening inner closing => opening.1 :: (inner.tokens ++ [closing.1])
  | _, .inherited keyword dot method => [keyword.1, dot.1, method.1]

def Operands.tokens : {l : Level} → Operands l → List Token
  | _, .nil => []
  | _, .cons operator right more => operator.1 :: (right.tokens ++ more.tokens)

def Suffixes.tokens : Suffixes → List Token
  | .nil => []
  | .call opening closing more => opening.1 :: closing.1 :: more.tokens
  | .callWith opening arguments _ closing more => opening.1 :: (arguments.tokens ++ closing.1 :: more.tokens)
  | .get dot name more => dot.1 :: name.1 :: more.tokens

def Arguments.tokens : {n : Nat} → Arguments n → List Token
  | _, .one e => e.tokens
  | _, .cons e comma more => e.tokens ++ comma.1 :: more.tokens

end

/-- A name with one added to it, or one taken from it. -/
def Expr.stepped (name sign : Token) : Expr :=
  .assign 0 name (.binary (.read 0 name) sign (.literal (.number .one)))

mutual

/-- The tree of a derivation. Operators of one level group to the left. -/
def Derivation.tree : {s : Symbol} → Derivation s → Expr
  | _, .assign name _ value => .assign 0 name.1 value.tree
  | _, .set object _ name _ value => .set object.tree name.1 value.tree
  | _, .plain value => value.tree
  | _, .operands first more => more.tree first.tree
  | _, .sum value => value.tree
  | _, .increment name first _ => .stepped name.1 first.1
  | _, .decrement name first _ => .stepped name.1 first.1
  | _, .signed operator operand => .unary operator.1 operand.tree
  | _, .unsigned value => value.tree
  | _, .suffixed first more => more.tree first.tree
  | _, .literal _ value _ => .literal value
  | _, .self keyword => .self 0 keyword.1
  | _, .name t => .read 0 t.1
  | _, .grouping _ inner _ => .grouping inner.tree
  | _, .inherited keyword _ method => .inherited 0 keyword.1 method.1

/-- The tree once the left operand has one. -/
def Operands.tree : {l : Level} → Operands l → Expr → Expr
  | _, .nil, left => left
  | l, .cons operator right more, left => more.tree (l.node left operator.1 right.tree)

def Suffixes.tree : Suffixes → Expr → Expr
  | .nil, e => e
  | .call _ closing more, e => more.tree (.call e closing.1 [])
  | .callWith _ arguments _ closing more, e => more.tree (.call e closing.1 arguments.trees)
  | .get _ name more, e => more.tree (.get e name.1)

def Arguments.trees : {n : Nat} → Arguments n → List Expr
  | _, .one e => [e.tree]
  | _, .cons e _ more => e.tree :: more.trees

end

/-- A property name behind the other suffixes. -/
def Suffixes.property (dot : Terminal [.dot]) (name : Terminal [.identifier]) : Suffixes → Suffixes
  | .nil => .get dot name .nil
  | .call opening closing more => .call opening closing (more.property dot name)
  | .callWith opening arguments few closing more => .callWith opening arguments few closing (more.property dot name)
  | .get dot' name' more => .get dot' name' (more.property dot name)

theorem Suffixes.property_tokens (dot : Terminal [.dot]) (name : Terminal [.identifier]) : ∀ more : Suffixes,
    (more.property dot name).tokens = more.tokens ++ [dot.1, name.1]
  | .nil => rfl
  | .call .. | .callWith .. | .get .. => by simp [property, tokens, property_tokens dot name]

theorem Suffixes.property_tree (dot : Terminal [.dot]) (name : Terminal [.identifier]) : ∀ (more : Suffixes) (e : Expr),
    (more.property dot name).tree e = .get (more.tree e) name.1
  | .nil, _ => rfl
  | .call _ _ more, _ | .callWith _ _ _ _ more, _ | .get _ _ more, _ => more.property_tree dot name _

namespace Derivation

/-- A name by itself. -/
def lone (name : Terminal [.identifier]) : Derivation .call := .suffixed (.name name) .nil

/-- A property of a call. -/
def property (dot : Terminal [.dot]) (name : Terminal [.identifier]) : Derivation .call → Derivation .call
  | .suffixed first more => .suffixed first (more.property dot name)

/-- A call where a factor may stand. -/
def factor (d : Derivation .call) : Derivation (.level .product) := .operands (.unsigned d) .nil

/-- A call where an expression without assignment may stand. -/
def climb (d : Derivation .call) : Derivation (.level .disjunction) :=
  .operands (.operands (.operands (.operands (.sum (.operands d.factor .nil)) .nil) .nil) .nil) .nil

@[simp] theorem lone_tokens (name : Terminal [.identifier]) : (lone name).tokens = [name.1] := rfl

@[simp] theorem property_tokens (dot : Terminal [.dot]) (name : Terminal [.identifier]) (d : Derivation .call) :
    (d.property dot name).tokens = d.tokens ++ [dot.1, name.1] := by
  cases d with
  | suffixed first more => rw [property, tokens, tokens, more.property_tokens, List.append_assoc]

@[simp] theorem property_tree (dot : Terminal [.dot]) (name : Terminal [.identifier]) (d : Derivation .call) :
    (d.property dot name).tree = .get d.tree name.1 := by
  cases d with
  | suffixed first more => exact more.property_tree dot name first.tree

@[simp] theorem climb_tokens (d : Derivation .call) : d.climb.tokens = d.tokens := by
  simp [climb, factor, tokens, Operands.tokens]

@[simp] theorem climb_tree (d : Derivation .call) : d.climb.tree = d.tree := rfl

end Derivation

end LoxLang
