import LoxLang.Tree.Basic

/-! Trees up to node ids. Node ids tell uses of names apart and say nothing else, so two readings of one text are
compared once all ids are the same. -/

namespace LoxLang

mutual

/-- The expression with all its node ids set to zero. -/
def Expr.unnumbered : Expr → Expr
  | .literal value => .literal value
  | .grouping inner => .grouping inner.unnumbered
  | .unary operator operand => .unary operator operand.unnumbered
  | .binary left operator right => .binary left.unnumbered operator right.unnumbered
  | .logical left operator right => .logical left.unnumbered operator right.unnumbered
  | .read _ name => .read 0 name
  | .assign _ name value => .assign 0 name value.unnumbered
  | .call callee paren arguments => .call callee.unnumbered paren (Expr.unnumberedEach arguments)
  | .get object name => .get object.unnumbered name
  | .set object name value => .set object.unnumbered name value.unnumbered
  | .self _ keyword => .self 0 keyword
  | .inherited _ keyword method => .inherited 0 keyword method

def Expr.unnumberedEach : List Expr → List Expr
  | [] => []
  | e :: rest => e.unnumbered :: Expr.unnumberedEach rest

end

def Expr.unnumberedOption : Option Expr → Option Expr
  | none => none
  | some e => some e.unnumbered

def NameUse.unnumbered (u : NameUse) : NameUse := ⟨0, u.name⟩

mutual

/-- The statement with all its node ids set to zero. -/
def Stmt.unnumbered : Stmt → Stmt
  | .expression e => .expression e.unnumbered
  | .print e => .print e.unnumbered
  | .var name initial => .var name (Expr.unnumberedOption initial)
  | .block body => .block (Stmt.unnumberedEach body)
  | .branch condition yes no => .branch condition.unnumbered yes.unnumbered (Stmt.unnumberedOption no)
  | .loop condition body => .loop condition.unnumbered body.unnumbered
  | .function f => .function f.unnumbered
  | .ret keyword value => .ret keyword (Expr.unnumberedOption value)
  | .classDecl name superclass methods =>
    .classDecl name (superclass.map NameUse.unnumbered) (Function.unnumberedEach methods)

def Stmt.unnumberedEach : List Stmt → List Stmt
  | [] => []
  | s :: rest => s.unnumbered :: Stmt.unnumberedEach rest

def Stmt.unnumberedOption : Option Stmt → Option Stmt
  | none => none
  | some s => some s.unnumbered

def Function.unnumbered : Function → Function
  | .mk name parameters body => .mk name parameters (Stmt.unnumberedEach body)

def Function.unnumberedEach : List Function → List Function
  | [] => []
  | f :: rest => f.unnumbered :: Function.unnumberedEach rest

end

end LoxLang
