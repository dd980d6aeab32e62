import LoxLang.Token.Item

/-! Faults found before a program runs, by cause and place, and the text in which they are reported. -/

namespace LoxLang

/-- Where in the source a fault is: at a token, or at the end. -/
structure Mark where
  line : Nat
  /-- The text of the token, if it is not the end. -/
  lexeme : Option String
deriving DecidableEq, Repr

def Token.mark (t : Token) : Mark := ⟨t.line, if t.isEof then none else some t.lexeme⟩

def Mark.location (m : Mark) : String :=
  match m.lexeme with
  | some lexeme => " at '" ++ lexeme ++ "'"
  | none => " at end"

/-- Why tokens are not a program. -/
inductive SyntaxFault
  /-- Something else had to stand here. -/
  | expected (what : String)
  /-- More parameters or arguments than a function can have. -/
  | tooMany (what : String)
  /-- Something that cannot be assigned to or incremented. -/
  | invalidTarget (operation : String)
deriving DecidableEq, Repr

/-- The most parameters or arguments a function can have. -/
def maxArity : Nat := 255

/-- Why a program is refused although its tokens are one. -/
inductive BindingFault
  | declaredTwice
  | ownInitializer
  | returnAtTopLevel
  | returnFromInitializer
  | thisOutsideClass
  | superOutsideClass
  | superWithoutSuperclass
  | inheritsFromItself
deriving DecidableEq, Repr

inductive Diagnostic
  | lexical (line : Nat) (cause : LexicalFault)
  | syntactic (mark : Mark) (cause : SyntaxFault)
  | binding (mark : Mark) (cause : BindingFault)
deriving DecidableEq, Repr

def LexicalFault.message : LexicalFault → String
  | unexpected c => "Unexpected character: " ++ c.toString
  | unterminatedString => "Unterminated string."

def SyntaxFault.message : SyntaxFault → String
  | expected what => "Expect " ++ what ++ "."
  | tooMany what => "Can't have more than " ++ toString maxArity ++ " " ++ what ++ "."
  | invalidTarget operation => "Invalid " ++ operation ++ " target."

def BindingFault.message : BindingFault → String
  | declaredTwice => "Already a variable with this name in this scope."
  | ownInitializer => "Can't read local variable in its own initializer."
  | returnAtTopLevel => "Can't return from top-level code."
  | returnFromInitializer => "Can't return a value from an initializer."
  | thisOutsideClass => "Can't use 'this' outside of a class."
  | superOutsideClass => "Can't use 'super' outside of a class."
  | superWithoutSuperclass => "Can't use 'super' in a class with no superclass."
  | inheritsFromItself => "A class can't inherit from itself."

namespace Diagnostic

def line : Diagnostic → Nat
  | lexical line _ => line
  | syntactic mark _ | binding mark _ => mark.line

def location : Diagnostic → String
  | lexical .. => ""
  | syntactic mark _ | binding mark _ => mark.location

def message : Diagnostic → String
  | lexical _ cause => cause.message
  | syntactic _ cause => cause.message
  | binding _ cause => cause.message

def text (d : Diagnostic) : String :=
  "[line " ++ toString d.line ++ "] Error" ++ d.location ++ ": " ++ d.message

end Diagnostic

/-- The lexical faults of a source, as diagnostics. -/
def lexicalDiagnostics (source : String) : List Diagnostic :=
  (lexicalFaults source).map fun (cause, line) => .lexical line cause

end LoxLang
