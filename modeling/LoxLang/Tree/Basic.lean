import LoxLang.Token.Basic

/-! Expressions and statements. Each use of a name that may be local carries a node id, under which the
distance to its binding is recorded. -/

namespace LoxLang

abbrev NodeId := Nat

inductive Literal
  | nil
  | bool (value : Bool)
  | number (value : Number)
  | string (text : String)
deriving DecidableEq, Inhabited, Repr

inductive Expr
  | literal (value : Literal)
  | grouping (inner : Expr)
  | unary (operator : Token) (operand : Expr)
  | binary (left : Expr) (operator : Token) (right : Expr)
  | logical (left : Expr) (operator : Token) (right : Expr)
  /-- The value of a name. -/
  | read (id : NodeId) (name : Token)
  | assign (id : NodeId) (name : Token) (value : Expr)
  | call (callee : Expr) (paren : Token) (arguments : List Expr)
  | get (object : Expr) (name : Token)
  | set (object : Expr) (name : Token) (value : Expr)
  | self (id : NodeId) (keyword : Token)
  /-- A method of the superclass, bound to the instance at hand. -/
  | inherited (id : NodeId) (keyword method : Token)
deriving Inhabited, Repr

/-- A name to be read. -/
structure NameUse where
  id : NodeId
  name : Token
deriving DecidableEq, Inhabited, Repr

def NameUse.expr (u : NameUse) : Expr := .read u.id u.name

mutual

inductive Stmt
  | expression (e : Expr)
  | print (e : Expr)
  | var (name : Token) (initial : Option Expr)
  | block (body : List Stmt)
  | branch (condition : Expr) (yes : Stmt) (no : Option Stmt)
  | loop (condition : Expr) (body : Stmt)
  | function (declared : Function)
  | ret (keyword : Token) (value : Option Expr)
  | classDecl (name : Token) (superclass : Option NameUse) (methods : List Function)

inductive Function
  | mk (name : Token) (parameters : List Token) (body : List Stmt)

end

deriving instance Inhabited, Repr for Function
deriving instance Inhabited, Repr for Stmt

namespace Function

def name : Function → Token
  | mk name _ _ => name

def parameters : Function → List Token
  | mk _ parameters _ => parameters

def body : Function → List Stmt
  | mk _ _ body => body

end Function

/-- The method that a class runs on each new instance. -/
def initializerName : String := "init"

end LoxLang
