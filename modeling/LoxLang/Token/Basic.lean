import LoxLang.Number

/-! Tokens: a kind, which carries the value of a literal, the text it was read from and a line. -/

namespace LoxLang

inductive Kind
  | leftParen | rightParen | leftBrace | rightBrace
  | comma | dot | minus | plus | semicolon | slash | star
  | bang | bangEqual | equal | equalEqual | greater | greaterEqual | less | lessEqual
  | identifier
  | string (text : String)
  | number (value : Number)
  | kwAnd | kwClass | kwElse | kwFalse | kwFor | kwFunction | kwIf | kwNil | kwOr | kwPrint | kwReturn
  | kwSuper | kwThis | kwTrue | kwVar | kwWhile
  | eof
deriving DecidableEq, Inhabited, Repr

namespace Kind

def name : Kind → String
  | leftParen => "LEFT_PAREN"
  | rightParen => "RIGHT_PAREN"
  | leftBrace => "LEFT_BRACE"
  | rightBrace => "RIGHT_BRACE"
  | comma => "COMMA"
  | dot => "DOT"
  | minus => "MINUS"
  | plus => "PLUS"
  | semicolon => "SEMICOLON"
  | slash => "SLASH"
  | star => "STAR"
  | bang => "BANG"
  | bangEqual => "BANG_EQUAL"
  | equal => "EQUAL"
  | equalEqual => "EQUAL_EQUAL"
  | greater => "GREATER"
  | greaterEqual => "GREATER_EQUAL"
  | less => "LESS"
  | lessEqual => "LESS_EQUAL"
  | identifier => "IDENTIFIER"
  | string _ => "STRING"
  | number _ => "NUMBER"
  | kwAnd => "AND"
  | kwClass => "CLASS"
  | kwElse => "ELSE"
  | kwFalse => "FALSE"
  | kwFor => "FOR"
  | kwFunction => "FUNCTION"
  | kwIf => "IF"
  | kwNil => "NIL"
  | kwOr => "OR"
  | kwPrint => "PRINT"
  | kwReturn => "RETURN"
  | kwSuper => "SUPER"
  | kwThis => "THIS"
  | kwTrue => "TRUE"
  | kwVar => "VAR"
  | kwWhile => "WHILE"
  | eof => "EOF"

/-- The reserved words with their kinds. -/
def keywords : List (String × Kind) :=
  [("and", kwAnd), ("class", kwClass), ("else", kwElse), ("false", kwFalse), ("for", kwFor),
   ("function", kwFunction), ("if", kwIf), ("nil", kwNil), ("or", kwOr), ("print", kwPrint),
   ("return", kwReturn), ("super", kwSuper), ("this", kwThis), ("true", kwTrue), ("var", kwVar),
   ("while", kwWhile)]

/-- A word is a keyword if it is reserved, otherwise an identifier. -/
def ofWord (word : String) : Kind := (keywords.lookup word).getD identifier

/-- The kinds that carry no literal. -/
def plain : List Kind :=
  [leftParen, rightParen, leftBrace, rightBrace, comma, dot, minus, plus, semicolon, slash, star, bang,
   bangEqual, equal, equalEqual, greater, greaterEqual, less, lessEqual, identifier, kwAnd, kwClass, kwElse,
   kwFalse, kwFor, kwFunction, kwIf, kwNil, kwOr, kwPrint, kwReturn, kwSuper, kwThis, kwTrue, kwVar, kwWhile,
   eof]

def ofName? (name : String) : Option Kind := plain.find? fun k => k.name == name

/-- The literal beside a token: a string's text, a number's digits, or none. -/
def literal : Kind → String
  | string text => text
  | number value => value.inToken
  | _ => "null"

end Kind

structure Token where
  kind : Kind
  lexeme : String
  line : Nat
deriving DecidableEq, Inhabited, Repr

namespace Token

/-- One line of a token dump: kind, text and literal. -/
def text (t : Token) : String := t.kind.name ++ " " ++ t.lexeme ++ " " ++ t.kind.literal

def isEof (t : Token) : Bool := t.kind == .eof

end Token

end LoxLang
