import LoxLang.Grammar.Expression

/-! Reading statements and declarations. A fault inside a declaration is reported, and reading goes on at the
next place where a statement can begin. With `lenient`, the semicolon that ends a statement may be missing. -/

namespace LoxLang.Grammar

open Reader

/-- The kinds at which reading goes on after a fault. -/
def startsStatement : Kind → Bool
  | .kwClass | .kwFunction | .kwVar | .kwFor | .kwIf | .kwWhile | .kwPrint | .kwReturn => true
  | _ => false

/-- What is left after a fault: at least one token is dropped, up to a semicolon or the start of a statement. -/
def resume : List Token → List Token
  | [] => []
  | t :: rest =>
    if t.kind == .semicolon then rest
    else if rest.head?.any fun u => startsStatement u.kind then rest
    else resume rest

def recovering (reader : Reader Stmt) : Reader (Option Stmt) := fun c =>
  match reader c with
  | .ok s c => .ok (some s) c
  | .error (.fault d) c => .ok none { c with faults := c.faults ++ [d], rest := resume c.rest }
  | .error .exhausted c => .error .exhausted c

/-- The end of a statement. -/
def terminator (lenient : Bool) (what : String) : Reader Unit := do
  match ← accept .semicolon with
  | some _ => return ()
  | none => if lenient then return () else expected what

/-- Declarations up to the end, or up to a token that closes them; those with a fault are left out. -/
def declarations (closes : Kind → Bool) (nested : Reader (Option Stmt)) : Nat → Reader (List Stmt)
  | 0 => exhausted
  | n + 1 => do
    match (← get).rest with
    | [] => return []
    | t :: _ =>
      if closes t.kind then return []
      else
        let first ← nested
        let more ← declarations closes nested n
        return first.toList ++ more

/-- The statements of a block whose brace is open. -/
def block (nested : Reader (Option Stmt)) (n : Nat) : Reader (List Stmt) := do
  let body ← declarations (· == .rightBrace) nested n
  let _ ← expect .rightBrace "'\x7d' after block"
  return body

def function (what : String) (nested : Reader (Option Stmt)) (n : Nat) : Reader Function := do
  let name ← expect .identifier (what ++ " name")
  let _ ← expect .leftParen ("'(' after " ++ what ++ " name")
  let parameters ← listed "parameters" (expect .identifier "parameter name") n
  let _ ← expect .rightParen "')' after parameters"
  let _ ← expect .leftBrace ("'\x7b' before " ++ what ++ " body")
  return .mk name parameters (← block nested n)

def methods (nested : Reader (Option Stmt)) : Nat → Reader (List Function)
  | 0 => exhausted
  | n + 1 => do
    match (← get).rest with
    | [] => return []
    | t :: _ =>
      if t.kind == .rightBrace then return []
      else return (← function "method" nested (n + 1)) :: (← methods nested n)

def classDeclaration (nested : Reader (Option Stmt)) (n : Nat) : Reader Stmt := do
  let name ← expect .identifier "class name"
  let superclass ← match ← accept .less with
    | some _ =>
      let superclass ← expect .identifier "superclass name"
      pure (some (NameUse.mk (← fresh) superclass))
    | none => pure none
  let _ ← expect .leftBrace "'\x7b' before class body"
  let declared ← methods nested n
  let _ ← expect .rightBrace "'\x7d' after class body"
  return .classDecl name superclass declared

def varDeclaration (lenient : Bool) (n : Nat) : Reader Stmt := do
  let name ← expect .identifier "variable name"
  let initial ← match ← accept .equal with
    | some _ => pure (some (← expression n))
    | none => pure none
  terminator lenient "';' after variable declaration"
  return .var name initial

def expressionStatement (lenient : Bool) (n : Nat) : Reader Stmt := do
  let e ← expression n
  terminator lenient "';' after expression"
  return .expression e

def printStatement (lenient : Bool) (n : Nat) : Reader Stmt := do
  let e ← expression n
  terminator lenient "';' after value"
  return .print e

def returnStatement (lenient : Bool) (keyword : Token) (n : Nat) : Reader Stmt := do
  let bare := (← check .semicolon) || (lenient && (← atEnd))
  let value ← if bare then pure none else pure (some (← expression n))
  terminator lenient "';' after return value"
  return .ret keyword value

def branchStatement (nested : Reader Stmt) (n : Nat) : Reader Stmt := do
  let _ ← expect .leftParen "'(' after 'if'"
  let condition ← expression n
  let _ ← expect .rightParen "')' after if condition"
  let yes ← nested
  match ← accept .kwElse with
  | some _ => return .branch condition yes (some (← nested))
  | none => return .branch condition yes none

def loopStatement (nested : Reader Stmt) (n : Nat) : Reader Stmt := do
  let _ ← expect .leftParen "'(' after 'while'"
  let condition ← expression n
  let _ ← expect .rightParen "')' after condition"
  return .loop condition (← nested)

/-- A name that no source can spell, beside the loop variable it carries. -/
def carrier (name : Token) : Token := ⟨.identifier, name.lexeme ++ "'", name.line⟩

def copy (id : NodeId) (target source : Token) : Stmt :=
  .expression (.assign id target (.read (id + 1) source))

/-- One run of a loop body with its own copy of the loop variable, which is written back after it. Needs the
five node ids from `id` on. -/
def iteration (id : NodeId) (name : Token) (body : Stmt) : Stmt :=
  .block
    [.var (carrier name) none,
     .block [.var name (some (.read id name)), body, copy (id + 1) (carrier name) name],
     copy (id + 3) name (carrier name)]

/-- A counting loop by way of the plain one. -/
def counting (initial : Option Stmt) (condition : Option Expr) (increment : Option Expr) (body : Stmt) : Stmt :=
  let body := match increment with
    | some e => .block [body, .expression e]
    | none => body
  let loop := Stmt.loop (condition.getD (.literal (.bool true))) body
  match initial with
  | some s => .block [s, loop]
  | none => loop

/-- What a counting loop begins with, its semicolon included. -/
def firstClause (lenient : Bool) (n : Nat) : Reader (Option Stmt) := do
  match ← accept .semicolon with
  | some _ => return none
  | none =>
    match ← accept .kwVar with
    | some _ => return some (← varDeclaration lenient n)
    | none => return some (← expressionStatement lenient n)

/-- An expression, unless the clause ends at once. -/
def clause (closes : Kind) (n : Nat) : Reader (Option Expr) := do
  if ← check closes then return none else return some (← expression n)

def countingStatement (lenient : Bool) (nested : Reader Stmt) (n : Nat) : Reader Stmt := do
  let _ ← expect .leftParen "'(' after 'for'"
  let initial ← firstClause lenient n
  let condition ← clause .semicolon n
  let _ ← expect .semicolon "';' after loop condition"
  let increment ← clause .rightParen n
  let _ ← expect .rightParen "')' after for clauses"
  let body ← nested
  match initial with
  | some (.var name _) => return counting initial condition increment (iteration (← freshFive) name body)
  | _ => return counting initial condition increment body
where
  /-- The first of five new node ids. -/
  freshFive : Reader NodeId := do
    let id ← fresh
    modify fun c => { c with nextId := id + 5 }
    return id

/-- A statement, given the readers for the statements and declarations inside it. -/
def statementWith (lenient : Bool) (statement : Reader Stmt) (declaration : Reader (Option Stmt)) (n : Nat) :
    Reader Stmt := do
  let t := (← get).peek
  match t.kind with
  | .kwFor => advance; countingStatement lenient statement n
  | .kwIf => advance; branchStatement statement n
  | .kwWhile => advance; loopStatement statement n
  | .kwReturn => advance; returnStatement lenient t n
  | .leftBrace => advance; return .block (← block declaration n)
  | .kwPrint => advance; printStatement lenient n
  | _ => expressionStatement lenient n

def declarationWith (lenient : Bool) (statement : Reader Stmt) (declaration : Reader (Option Stmt)) (n : Nat) :
    Reader (Option Stmt) :=
  recovering do
    match (← get).peek.kind with
    | .kwClass => advance; classDeclaration declaration n
    | .kwFunction => advance; return .function (← function "function" declaration n)
    | .kwVar => advance; varDeclaration lenient n
    | _ => statementWith lenient statement declaration n

mutual

/-- A statement. A bound above the number of tokens ahead is never exhausted. -/
def statement (lenient : Bool) : Nat → Reader Stmt
  | 0 => exhausted
  | n + 1 => statementWith lenient (statement lenient n) (declaration lenient n) (n + 1)

/-- A declaration, or nothing if it had a fault. -/
def declaration (lenient : Bool) : Nat → Reader (Option Stmt)
  | 0 => exhausted
  | n + 1 => declarationWith lenient (statement lenient n) (declaration lenient n) (n + 1)

end

/-- A whole program. -/
def program (lenient : Bool) (n : Nat) : Reader (List Stmt) :=
  declarations (fun _ => false) (declaration lenient n) n

/-- A single expression and nothing after it. -/
def loneExpression (n : Nat) : Reader Expr := do
  let e ← expression n
  if !(← atEnd) then report (← get).peek (.expected "end of expression")
  return e

end LoxLang.Grammar
