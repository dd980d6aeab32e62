import LoxLang.Proofs.Indexing.Fingers

/-! Expressions, statements and declarations read with a finger on the list of tokens, by the same grammar. -/

namespace LoxLang.Indexed

open Grammar (isUnary isFactor isTerm isComparison isEquality counting iteration)

section Expressions

variable {α : Type} (nested operand : Indexed Expr)

/-- At least one item, separated by commas, `count` of them being read already. -/
def separated (what : String) (item : Indexed α) : Nat → Nat → Indexed (List α)
  | 0, _ => exhausted
  | n + 1, count => do
    if maxArity ≤ count then report (← peek) (.tooMany what)
    let first ← item
    match ← accept .comma with
    | some _ => return first :: (← separated what item n (count + 1))
    | none => return [first]

def listed (what : String) (item : Indexed α) (n : Nat) : Indexed (List α) := do
  if ← check .rightParen then return [] else separated what item n 0

def primary : Indexed Expr := do
  let t ← peek
  match t.kind with
  | .kwFalse => skip; return .literal (.bool false)
  | .kwTrue => skip; return .literal (.bool true)
  | .kwNil => skip; return .literal .nil
  | .number value => skip; return .literal (.number value)
  | .string text => skip; return .literal (.string text)
  | .kwThis => skip; return .self (← fresh) t
  | .identifier => skip; return .read (← fresh) t
  | .kwSuper =>
    skip
    let _ ← expect .dot "'.' after 'super'"
    let method ← expect .identifier "superclass method name"
    return .inherited (← fresh) t method
  | .leftParen =>
    skip
    let inner ← nested
    let _ ← expect .rightParen "')' after expression"
    return .grouping inner
  | _ => expected "expression"

def suffixes : Nat → Expr → Indexed Expr
  | 0, _ => exhausted
  | n + 1, e => do
    if (← accept .leftParen).isSome then
      let arguments ← listed "arguments" nested (n + 1)
      let paren ← expect .rightParen "')' after arguments"
      suffixes n (.call e paren arguments)
    else if (← accept .dot).isSome then
      let name ← expect .identifier "property name after '.'"
      suffixes n (.get e name)
    else return e

def call (n : Nat) : Indexed Expr := do suffixes nested n (← primary nested)

def unary : Nat → Indexed Expr
  | 0 => exhausted
  | n + 1 => do
    match ← acceptIf isUnary with
    | some operator => return .unary operator (← unary n)
    | none => call nested (n + 1)

def chain (isOperator : Kind → Bool) (node : Expr → Token → Expr → Expr) : Nat → Expr → Indexed Expr
  | 0, _ => exhausted
  | n + 1, left => do
    match ← acceptIf isOperator with
    | some operator => chain isOperator node n (node left operator (← operand))
    | none => return left

def level (isOperator : Kind → Bool) (node : Expr → Token → Expr → Expr) (n : Nat) : Indexed Expr := do
  chain operand isOperator node n (← operand)

def factor (n : Nat) : Indexed Expr := level (unary nested n) isFactor .binary n

/-- Is the sign at hand again, with no operand behind it? -/
def doubles (sign : Token) : Indexed Bool := do
  if ← check sign.kind then return !(← operandNext) else return false

def step (target : Expr) (sign : Token) : Indexed Expr := do
  match target with
  | .read _ name => return .assign (← fresh) name (.binary target sign (.literal (.number .one)))
  | _ => failAt sign (.invalidTarget "increment")

def sums : Nat → Expr → Indexed Expr
  | 0, _ => exhausted
  | n + 1, left => do
    match ← acceptIf isTerm with
    | some sign =>
      if ← doubles sign then
        skip
        step left sign
      else sums n (.binary left sign (← operand))
    | none => return left

def term (n : Nat) : Indexed Expr := do sums (factor nested n) n (← factor nested n)

def comparison (n : Nat) : Indexed Expr := level (term nested n) isComparison .binary n

def equality (n : Nat) : Indexed Expr := level (comparison nested n) isEquality .binary n

def conjunction (n : Nat) : Indexed Expr := level (equality nested n) (· == .kwAnd) .logical n

def disjunction (n : Nat) : Indexed Expr := level (conjunction nested n) (· == .kwOr) .logical n

def assignTo (target : Expr) (equals : Token) (value : Expr) : Indexed Expr := do
  match target with
  | .read _ name => return .assign (← fresh) name value
  | .get object name => return .set object name value
  | other =>
    report equals (.invalidTarget "assignment")
    return other

def assignment (n : Nat) : Indexed Expr := do
  let target ← disjunction nested n
  match ← accept .equal with
  | some equals => assignTo target equals (← nested)
  | none => return target

end Expressions

def expression : Nat → Indexed Expr
  | 0 => exhausted
  | n + 1 => assignment (expression n) (n + 1)

section Statements

variable (lenient : Bool) (inner : Indexed Stmt) (nested : Indexed (Option Stmt))

/-- A fault is reported, and reading goes on where it can. -/
def caught : Indexed (Option Stmt) := fun f =>
  match inner f with
  | .ok s f => .ok (some s) f
  | .error (.fault d) f => (do synchronize; return none : Indexed (Option Stmt)) (f.report d)
  | .error lift f => .error lift f

def recovering : Indexed (Option Stmt) := do
  let first := (← get).current
  let s ← caught inner
  touch (.declaration first (← get).current)
  return s

def terminator (what : String) : Indexed Unit := do
  match ← accept .semicolon with
  | some _ => return ()
  | none => if lenient then return () else expected what

def declarations (closes : Kind → Bool) : Nat → Indexed (List Stmt)
  | 0 => exhausted
  | n + 1 => do
    if ← atEnd then return []
    else if ← admits closes then return []
    else
      let first ← nested
      let more ← declarations closes n
      return first.toList ++ more

def block (n : Nat) : Indexed (List Stmt) := do
  let body ← declarations nested (· == .rightBrace) n
  let _ ← expect .rightBrace "'\x7d' after block"
  return body

def function (what : String) (n : Nat) : Indexed Function := do
  let name ← expect .identifier (what ++ " name")
  let _ ← expect .leftParen ("'(' after " ++ what ++ " name")
  let parameters ← listed "parameters" (expect .identifier "parameter name") n
  let _ ← expect .rightParen "')' after parameters"
  let _ ← expect .leftBrace ("'\x7b' before " ++ what ++ " body")
  return .mk name parameters (← block nested n)

def methods : Nat → Indexed (List Function)
  | 0 => exhausted
  | n + 1 => do
    if ← atEnd then return []
    else if ← check .rightBrace then return []
    else return (← function nested "method" (n + 1)) :: (← methods n)

def classDeclaration (n : Nat) : Indexed Stmt := do
  let name ← expect .identifier "class name"
  let superclass ← match ← accept .less with
    | some _ =>
      let superclass ← expect .identifier "superclass name"
      pure (some (NameUse.mk (← fresh) superclass))
    | none => pure none
  let _ ← expect .leftBrace "'\x7b' before class body"
  let declared ← methods nested n
  let _ ← expect .rightBrace "'\x7d' after class body"
  return .classDecl name superclass declared

def varDeclaration (n : Nat) : Indexed Stmt := do
  let name ← expect .identifier "variable name"
  let initial ← match ← accept .equal with
    | some _ => pure (some (← expression n))
    | none => pure none
  terminator lenient "';' after variable declaration"
  return .var name initial

def expressionStatement (n : Nat) : Indexed Stmt := do
  let e ← expression n
  terminator lenient "';' after expression"
  return .expression e

def printStatement (n : Nat) : Indexed Stmt := do
  let e ← expression n
  terminator lenient "';' after value"
  return .print e

def returnStatement (keyword : Token) (n : Nat) : Indexed Stmt := do
  let bare := (← check .semicolon) || (lenient && (← atEnd))
  let value ← if bare then pure none else pure (some (← expression n))
  terminator lenient "';' after return value"
  return .ret keyword value

def branchStatement (n : Nat) : Indexed Stmt := do
  let _ ← expect .leftParen "'(' after 'if'"
  let condition ← expression n
  let _ ← expect .rightParen "')' after if condition"
  let yes ← inner
  match ← accept .kwElse with
  | some _ => return .branch condition yes (some (← inner))
  | none => return .branch condition yes none

def loopStatement (n : Nat) : Indexed Stmt := do
  let _ ← expect .leftParen "'(' after 'while'"
  let condition ← expression n
  let _ ← expect .rightParen "')' after condition"
  return .loop condition (← inner)

def firstClause (n : Nat) : Indexed (Option Stmt) := do
  match ← accept .semicolon with
  | some _ => return none
  | none =>
    match ← accept .kwVar with
    | some _ => return some (← varDeclaration lenient n)
    | none => return some (← expressionStatement lenient n)

def clause (closes : Kind) (n : Nat) : Indexed (Option Expr) := do
  if ← check closes then return none else return some (← expression n)

def freshFive : Indexed NodeId := modifyGet fun f => (f.nextId, { f with nextId := f.nextId + 5 })

def countingStatement (n : Nat) : Indexed Stmt := do
  let _ ← expect .leftParen "'(' after 'for'"
  let initial ← firstClause lenient n
  let condition ← clause .semicolon n
  let _ ← expect .semicolon "';' after loop condition"
  let increment ← clause .rightParen n
  let _ ← expect .rightParen "')' after for clauses"
  let body ← inner
  match initial with
  | some (.var name _) => return counting initial condition increment (iteration (← freshFive) name body)
  | _ => return counting initial condition increment body

def statementWith (n : Nat) : Indexed Stmt := do
  let t ← peek
  match t.kind with
  | .kwFor => skip; countingStatement lenient inner n
  | .kwIf => skip; branchStatement inner n
  | .kwWhile => skip; loopStatement inner n
  | .kwReturn => skip; returnStatement lenient t n
  | .leftBrace => skip; return .block (← block nested n)
  | .kwPrint => skip; printStatement lenient n
  | _ => expressionStatement lenient n

def declarationWith (n : Nat) : Indexed (Option Stmt) :=
  recovering do
    match (← peek).kind with
    | .kwClass => skip; classDeclaration nested n
    | .kwFunction => skip; return .function (← function nested "function" n)
    | .kwVar => skip; varDeclaration lenient n
    | _ => statementWith lenient inner nested n

end Statements

mutual

def statement (lenient : Bool) : Nat → Indexed Stmt
  | 0 => exhausted
  | n + 1 => statementWith lenient (statement lenient n) (declaration lenient n) (n + 1)

def declaration (lenient : Bool) : Nat → Indexed (Option Stmt)
  | 0 => exhausted
  | n + 1 => declarationWith lenient (statement lenient n) (declaration lenient n) (n + 1)

end

def program (lenient : Bool) (n : Nat) : Indexed (List Stmt) :=
  declarations (declaration lenient n) (fun _ => false) n

def loneExpression (n : Nat) : Indexed Expr := do
  let e ← expression n
  if !(← atEnd) then report (← peek) (.expected "end of expression")
  return e

end LoxLang.Indexed
