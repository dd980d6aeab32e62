import LoxLang.Tree.Basic

/-! Trees in parentheses, the operator first. Names that a statement declares carry their line. -/

namespace LoxLang

def Literal.render : Literal → String
  | nil => "nil"
  | bool true => "true"
  | bool false => "false"
  | number value => value.inTree
  | string text => text

def parenthesized (parts : List String) : String := "(" ++ String.intercalate " " parts ++ ")"

mutual

def Expr.render : Expr → String
  | .literal value => value.render
  | .grouping inner => parenthesized ["group", inner.render]
  | .unary operator operand => parenthesized [operator.lexeme, operand.render]
  | .binary left operator right | .logical left operator right =>
    parenthesized [operator.lexeme, left.render, right.render]
  | .read _ name => name.lexeme
  | .assign _ name value => parenthesized ["=", name.lexeme, value.render]
  | .call callee _ arguments => parenthesized ("call" :: callee.render :: renderEach arguments)
  | .get object name => parenthesized [".", object.render, name.lexeme]
  | .set object name value =>
    parenthesized ["=", parenthesized [".", object.render, name.lexeme], value.render]
  | .self _ _ => "this"
  | .inherited _ _ method => parenthesized ["super", method.lexeme]

def Expr.renderEach : List Expr → List String
  | [] => []
  | e :: rest => e.render :: renderEach rest

end

/-- A declared name with its line. -/
def Token.declared (t : Token) : String := t.lexeme ++ "@" ++ toString t.line

mutual

def Stmt.render : Stmt → String
  | .expression e => parenthesized ["expr", e.render]
  | .print e => parenthesized ["print", e.render]
  | .var name none => parenthesized ["var", name.declared]
  | .var name (some e) => parenthesized ["var", name.declared, e.render]
  | .block body => parenthesized ("block" :: Stmt.renderEach body)
  | .branch condition yes no => parenthesized ("if" :: condition.render :: yes.render :: Stmt.renderOption no)
  | .loop condition body => parenthesized ["while", condition.render, body.render]
  | .function declared => declared.render "function"
  | .ret keyword none => parenthesized ["return@" ++ toString keyword.line]
  | .ret keyword (some e) => parenthesized ["return@" ++ toString keyword.line, e.render]
  | .classDecl name none methods => parenthesized ("class" :: name.declared :: Function.renderEach methods)
  | .classDecl name (some superclass) methods =>
    parenthesized ("class" :: name.declared :: "<" :: superclass.name.lexeme :: Function.renderEach methods)

def Stmt.renderEach : List Stmt → List String
  | [] => []
  | s :: rest => s.render :: Stmt.renderEach rest

def Stmt.renderOption : Option Stmt → List String
  | none => []
  | some s => [s.render]

def Function.render (head : String) : Function → String
  | .mk name parameters body =>
    parenthesized (head :: name.declared :: parenthesized (parameters.map Token.declared) :: Stmt.renderEach body)

def Function.renderEach : List Function → List String
  | [] => []
  | f :: rest => f.render "method" :: Function.renderEach rest

end

end LoxLang
