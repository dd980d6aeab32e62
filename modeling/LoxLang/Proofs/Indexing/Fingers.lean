import LoxLang.Grammar.Program

/-! Reading with a finger on a list of tokens. Every token is read at its index, and the index moves up one by one. Only
the end marks keep the finger on the list: one is put behind a list that does not end with one. All that the finger
does is kept. -/

namespace LoxLang

/-- The tokens with an end mark as the last of them. One that is put there takes the last line. -/
def closed (tokens : List Token) : List Token :=
  if tokens.getLast?.any Token.isEof then tokens
  else tokens ++ [⟨.eof, "", (tokens.getLast?.map Token.line).getD 1⟩]

inductive Touch
  /-- The token at the index is read. -/
  | read (i : Nat)
  /-- The finger is moved to the index. -/
  | move (i : Nat)
  /-- A declaration was begun at the first index and left at the second, with or without a fault. -/
  | declaration (i j : Nat)
deriving DecidableEq, Repr

structure Finger where
  tokens : List Token
  current : Nat
  faults : List Diagnostic
  nextId : NodeId
  /-- The last touch first. -/
  trail : List Touch
deriving Repr

namespace Finger

def ofTokens (tokens : List Token) (nextId : NodeId) : Finger := ⟨closed tokens, 0, [], nextId, []⟩

def touch (f : Finger) (t : Touch) : Finger := { f with trail := t :: f.trail }

def report (f : Finger) (d : Diagnostic) : Finger := { f with faults := f.faults ++ [d] }

/-- Moved on by one token. -/
def next (f : Finger) : Finger := { f with current := f.current + 1 }.touch (.move (f.current + 1))

end Finger

/-- Why the finger is lifted from the list. -/
inductive Lift
  | fault (d : Diagnostic)
  /-- There is no token at the index. -/
  | outside
  /-- The bound on nesting was too small. -/
  | exhausted
deriving Repr

abbrev Indexed := EStateM Lift Finger

namespace Indexed

def exhausted {α : Type} : Indexed α := throw .exhausted

def failAt {α : Type} (t : Token) (cause : SyntaxFault) : Indexed α := throw (.fault (.syntactic t.mark cause))

def touch (t : Touch) : Indexed Unit := modify (·.touch t)

/-- The token at an index where there must be one. -/
def tokenAt (i : Nat) : Indexed Token := do
  touch (.read i)
  match (← get).tokens[i]? with
  | some t => return t
  | none => throw .outside

def peek : Indexed Token := do tokenAt (← get).current

/-- The token behind the finger. -/
def previous : Indexed Token := do tokenAt ((← get).current - 1)

def atEnd : Indexed Bool := return (← peek).isEof

/-- Passes over the token at hand, which stays where it is an end mark. -/
def advance : Indexed Token := do
  if !(← atEnd) then modify Finger.next
  previous

def skip : Indexed Unit := do
  let _ ← advance

/-- Does the token at hand pass? An end mark does not. -/
def admits (passes : Kind → Bool) : Indexed Bool := do
  if ← atEnd then return false else return passes (← peek).kind

def check (kind : Kind) : Indexed Bool := admits (· == kind)

/-- Can the token at the index begin an operand? There need not be one. -/
def operandAt (i : Nat) : Indexed Bool := do
  touch (.read i)
  return (← get).tokens[i]?.any fun t => Grammar.startsOperand t.kind

/-- The same of the token behind the one at hand. -/
def operandNext : Indexed Bool := do operandAt ((← get).current + 1)

def expected {α : Type} (what : String) : Indexed α := do failAt (← peek) (.expected what)

/-- Takes the token at hand if it passes. -/
def acceptIf (passes : Kind → Bool) : Indexed (Option Token) := do
  if ← admits passes then return some (← advance) else return none

def accept (kind : Kind) : Indexed (Option Token) := acceptIf (· == kind)

/-- Takes the token at hand, which must be of this kind. -/
def expect (kind : Kind) (what : String) : Indexed Token := do
  match ← accept kind with
  | some t => return t
  | none => expected what

def fresh : Indexed NodeId := modifyGet fun f => (f.nextId, { f with nextId := f.nextId + 1 })

def report (t : Token) (cause : SyntaxFault) : Indexed Unit := modify (·.report (.syntactic t.mark cause))

/-- Can reading go on here, at the end, behind a semicolon or at the start of a statement? -/
def atStart : Indexed Bool := do
  if ← atEnd then return true
  else if (← previous).kind == .semicolon then return true
  else return Grammar.startsStatement (← peek).kind

/-- Moves on to where reading can go on. -/
def findStart : Nat → Indexed Unit
  | 0 => exhausted
  | n + 1 => do
    if ← atStart then return ()
    else
      skip
      findStart n

/-- What caused a fault is passed over, and all behind it up to where reading can go on. -/
def synchronize : Indexed Unit := do
  skip
  findStart (← get).tokens.length

end Indexed

end LoxLang
