import LoxLang.Diagnostic
import LoxLang.Tree.Basic

/-! A place in a list of tokens. Reading moves it forward, collects faults that stop nothing, and hands out
node ids; a fault that stops a reader is thrown, and the place reached is kept. -/

namespace LoxLang

structure Cursor where
  /-- The tokens ahead, without the end. -/
  rest : List Token
  /-- The token that marks the end. -/
  stop : Token
  faults : List Diagnostic
  nextId : NodeId
deriving Repr

namespace Cursor

/-- At the first token. Whatever follows the first end mark is left out; a missing one takes the last line. -/
def ofTokens (tokens : List Token) (nextId : NodeId) : Cursor where
  rest := tokens.takeWhile fun t => !t.isEof
  stop := (tokens.find? Token.isEof).getD ⟨.eof, "", (tokens.getLast?.map Token.line).getD 1⟩
  faults := []
  nextId := nextId

def peek (c : Cursor) : Token := c.rest.head?.getD c.stop

def report (c : Cursor) (place : Token) (cause : SyntaxFault) : Cursor :=
  { c with faults := c.faults ++ [.syntactic place.mark cause] }

end Cursor

/-- Why a reader stops. -/
inductive Stop
  | fault (d : Diagnostic)
  /-- The bound on nesting was too small. -/
  | exhausted
deriving Repr

abbrev Reader := EStateM Stop Cursor

namespace Reader

def exhausted {α : Type} : Reader α := throw .exhausted

def failAt {α : Type} (t : Token) (cause : SyntaxFault) : Reader α := throw (.fault (.syntactic t.mark cause))

def expected {α : Type} (what : String) : Reader α := do failAt (← get).peek (.expected what)

def atEnd : Reader Bool := return (← get).rest.isEmpty

/-- Passes over the next token. -/
def advance : Reader Unit := modify fun c => { c with rest := c.rest.drop 1 }

/-- Is the next token of this kind? -/
def check (kind : Kind) : Reader Bool := return (← get).rest.head?.any fun t => t.kind == kind

/-- Takes the next token if it passes. -/
def acceptIf (passes : Kind → Bool) : Reader (Option Token) := do
  let c ← get
  match c.rest with
  | t :: rest =>
    if passes t.kind then
      set { c with rest := rest }
      return some t
    else return none
  | [] => return none

def accept (kind : Kind) : Reader (Option Token) := acceptIf (· == kind)

/-- Takes the next token, which must be of this kind. -/
def expect (kind : Kind) (what : String) : Reader Token := do
  match ← accept kind with
  | some t => return t
  | none => expected what

def fresh : Reader NodeId := do
  let c ← get
  set { c with nextId := c.nextId + 1 }
  return c.nextId

def report (t : Token) (cause : SyntaxFault) : Reader Unit := modify fun c => c.report t cause

/-- At least one item, separated by commas; `count` are read already. Each item beyond the greatest number
that a function can have is reported where it begins. -/
def separated {α : Type} (what : String) (item : Reader α) : Nat → Nat → Reader (List α)
  | 0, _ => exhausted
  | n + 1, count => do
    if maxArity ≤ count then report (← get).peek (.tooMany what)
    let first ← item
    match ← accept .comma with
    | some _ => return first :: (← separated what item n (count + 1))
    | none => return [first]

/-- What stands between an open and a closing parenthesis: nothing, or items separated by commas. -/
def listed {α : Type} (what : String) (item : Reader α) (n : Nat) : Reader (List α) := do
  if ← check .rightParen then return [] else separated what item n 0

end Reader

end LoxLang
