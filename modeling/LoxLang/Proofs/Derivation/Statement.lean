import LoxLang.Grammar.Statement
import LoxLang.Proofs.Derivation.Expression
import LoxLang.Proofs.Derivation.Unnumbered

/-! The grammar of programs, again with one constructor for each production. Where terminators are optional, the
semicolon at the end of a statement may be missing.

```
program     → declaration*
declaration → classDecl | "function" function | varDecl | statement
classDecl   → "class" IDENT ( "<" IDENT )? "{" function* "}"
function    → IDENT "(" parameters? ")" block
parameters  → IDENT ( "," IDENT )*                               at most 255
varDecl     → "var" IDENT ( "=" expression )? ";"
statement   → expression ";" | "print" expression ";" | "return" expression? ";" | block
            | "if" "(" expression ")" statement ( "else" statement )?
            | "while" "(" expression ")" statement
            | "for" "(" ( varDecl | expression ";" | ";" ) expression? ";" expression? ")" statement
block       → "{" declaration* "}"
```

An `else` belongs to the nearest `if` that has none. So a statement is told from one that hangs, which ends in an `if`
without `else`: that cannot stand in front of an `else`. -/

namespace LoxLang

/-- The end of a statement. -/
inductive Terminator (lenient : Bool)
  | written (t : Terminal [.semicolon])
  | missing (h : lenient = true)

/-- At least one name; the index is their number. -/
inductive NameList : Nat → Type
  | one (t : Terminal [.identifier]) : NameList 1
  | cons {n : Nat} (t : Terminal [.identifier]) (comma : Terminal [.comma]) (more : NameList n) : NameList (n + 1)

inductive Parameters
  | none
  | some {n : Nat} (names : NameList n) (few : n ≤ 255)

/-- The initial value of a variable. -/
inductive InitialValue
  | none
  | some (equals : Terminal [.equal]) (value : Derivation .expression)

structure VariableDerivation (lenient : Bool) where
  keyword : Terminal [.kwVar]
  name : Terminal [.identifier]
  initial : InitialValue
  ending : Terminator lenient

/-- What a counting loop begins with. -/
inductive FirstClause (lenient : Bool)
  | none (semicolon : Terminal [.semicolon])
  | var (v : VariableDerivation lenient)
  | expression (e : Derivation .expression) (ending : Terminator lenient)

inductive SuperclassClause
  | none
  | some (less : Terminal [.less]) (name : Terminal [.identifier])

mutual

/-- A statement; the index tells whether it hangs. -/
inductive StatementDerivation (lenient : Bool) : Bool → Type
  | expression (e : Derivation .expression) (ending : Terminator lenient) : StatementDerivation lenient false
  | print (keyword : Terminal [.kwPrint]) (e : Derivation .expression) (ending : Terminator lenient) :
    StatementDerivation lenient false
  | ret (keyword : Terminal [.kwReturn]) (value : Option (Derivation .expression)) (ending : Terminator lenient) :
    StatementDerivation lenient false
  | block (opening : Terminal [.leftBrace]) (body : DeclarationsDerivation lenient)
    (closing : Terminal [.rightBrace]) : StatementDerivation lenient false
  | branch {hangs : Bool} (keyword : Terminal [.kwIf]) (opening : Terminal [.leftParen])
    (condition : Derivation .expression) (closing : Terminal [.rightParen])
    (yes : StatementDerivation lenient hangs) : StatementDerivation lenient true
  | branchElse {hangs : Bool} (keyword : Terminal [.kwIf]) (opening : Terminal [.leftParen])
    (condition : Derivation .expression) (closing : Terminal [.rightParen]) (yes : StatementDerivation lenient false)
    (otherwise : Terminal [.kwElse]) (no : StatementDerivation lenient hangs) : StatementDerivation lenient hangs
  | loop {hangs : Bool} (keyword : Terminal [.kwWhile]) (opening : Terminal [.leftParen])
    (condition : Derivation .expression) (closing : Terminal [.rightParen])
    (body : StatementDerivation lenient hangs) : StatementDerivation lenient hangs
  | counting {hangs : Bool} (keyword : Terminal [.kwFor]) (opening : Terminal [.leftParen])
    (first : FirstClause lenient) (condition : Option (Derivation .expression)) (semicolon : Terminal [.semicolon])
    (increment : Option (Derivation .expression)) (closing : Terminal [.rightParen])
    (body : StatementDerivation lenient hangs) : StatementDerivation lenient hangs

inductive DeclarationDerivation (lenient : Bool) : Type
  | classDecl (keyword : Terminal [.kwClass]) (name : Terminal [.identifier]) (superclass : SuperclassClause)
    (opening : Terminal [.leftBrace]) (methods : MethodsDerivation lenient) (closing : Terminal [.rightBrace])
  | function (keyword : Terminal [.kwFunction]) (f : FunctionDerivation lenient)
  | var (v : VariableDerivation lenient)
  | statement {hangs : Bool} (s : StatementDerivation lenient hangs)

/-- A program, or what stands in a block. -/
inductive DeclarationsDerivation (lenient : Bool) : Type
  | nil
  | cons (first : DeclarationDerivation lenient) (more : DeclarationsDerivation lenient)

inductive FunctionDerivation (lenient : Bool) : Type
  | mk (name : Terminal [.identifier]) (opening : Terminal [.leftParen]) (parameters : Parameters)
    (closing : Terminal [.rightParen]) (openingBrace : Terminal [.leftBrace]) (body : DeclarationsDerivation lenient)
    (closingBrace : Terminal [.rightBrace])

inductive MethodsDerivation (lenient : Bool) : Type
  | nil
  | cons (first : FunctionDerivation lenient) (more : MethodsDerivation lenient)

end

def Terminator.tokens {lenient : Bool} : Terminator lenient → List Token
  | .written t => [t.1]
  | .missing _ => []

def NameList.tokens : {n : Nat} → NameList n → List Token
  | _, .one t => [t.1]
  | _, .cons t comma more => t.1 :: comma.1 :: more.tokens

def NameList.names : {n : Nat} → NameList n → List Token
  | _, .one t => [t.1]
  | _, .cons t _ more => t.1 :: more.names

namespace Parameters

def tokens : Parameters → List Token
  | none => []
  | some names _ => names.tokens

def names : Parameters → List Token
  | none => []
  | some names _ => names.names

end Parameters

namespace InitialValue

def tokens : InitialValue → List Token
  | none => []
  | some equals value => equals.1 :: value.tokens

def tree : InitialValue → Option Expr
  | none => .none
  | some _ value => .some value.tree

end InitialValue

namespace VariableDerivation

variable {lenient : Bool}

def tokens (v : VariableDerivation lenient) : List Token :=
  v.keyword.1 :: v.name.1 :: (v.initial.tokens ++ v.ending.tokens)

def tree (v : VariableDerivation lenient) : Stmt := .var v.name.1 v.initial.tree

end VariableDerivation

/-- The tokens of an expression that may be left out. -/
def Derivation.tokensOption : Option (Derivation .expression) → List Token
  | none => []
  | some e => e.tokens

def Derivation.treeOption : Option (Derivation .expression) → Option Expr
  | none => none
  | some e => some e.tree

namespace FirstClause

variable {lenient : Bool}

def tokens : FirstClause lenient → List Token
  | none semicolon => [semicolon.1]
  | var v => v.tokens
  | expression e ending => e.tokens ++ ending.tokens

end FirstClause

namespace SuperclassClause

def tokens : SuperclassClause → List Token
  | none => []
  | some less name => [less.1, name.1]

def tree : SuperclassClause → Option NameUse
  | none => .none
  | some _ name => .some ⟨0, name.1⟩

end SuperclassClause

mutual

def StatementDerivation.tokens {lenient : Bool} : {hangs : Bool} → StatementDerivation lenient hangs → List Token
  | _, .expression e ending => e.tokens ++ ending.tokens
  | _, .print keyword e ending => keyword.1 :: (e.tokens ++ ending.tokens)
  | _, .ret keyword value ending => keyword.1 :: (Derivation.tokensOption value ++ ending.tokens)
  | _, .block opening body closing => opening.1 :: (body.tokens ++ [closing.1])
  | _, .branch keyword opening condition closing yes =>
    keyword.1 :: opening.1 :: (condition.tokens ++ closing.1 :: yes.tokens)
  | _, .branchElse keyword opening condition closing yes otherwise no =>
    keyword.1 :: opening.1 :: (condition.tokens ++ closing.1 :: (yes.tokens ++ otherwise.1 :: no.tokens))
  | _, .loop keyword opening condition closing body =>
    keyword.1 :: opening.1 :: (condition.tokens ++ closing.1 :: body.tokens)
  | _, .counting keyword opening first condition semicolon increment closing body =>
    keyword.1 :: opening.1 :: (first.tokens ++ (Derivation.tokensOption condition ++
      semicolon.1 :: (Derivation.tokensOption increment ++ closing.1 :: body.tokens)))

def DeclarationDerivation.tokens {lenient : Bool} : DeclarationDerivation lenient → List Token
  | .classDecl keyword name superclass opening methods closing =>
    keyword.1 :: name.1 :: (superclass.tokens ++ opening.1 :: (methods.tokens ++ [closing.1]))
  | .function keyword f => keyword.1 :: f.tokens
  | .var v => v.tokens
  | .statement s => s.tokens

def DeclarationsDerivation.tokens {lenient : Bool} : DeclarationsDerivation lenient → List Token
  | .nil => []
  | .cons first more => first.tokens ++ more.tokens

def FunctionDerivation.tokens {lenient : Bool} : FunctionDerivation lenient → List Token
  | .mk name opening parameters closing openingBrace body closingBrace =>
    name.1 :: opening.1 :: (parameters.tokens ++ closing.1 :: openingBrace.1 :: (body.tokens ++ [closingBrace.1]))

def MethodsDerivation.tokens {lenient : Bool} : MethodsDerivation lenient → List Token
  | .nil => []
  | .cons first more => first.tokens ++ more.tokens

end

/-- A counting loop in terms of the plain one. A missing condition always holds, the increment stands behind the body,
and what comes first is in a block around the loop. -/
def Stmt.unrolled (first : Option Stmt) (condition increment : Option Expr) (body : Stmt) : Stmt :=
  let condition := condition.getD (.literal (.bool true))
  let body := match increment with
    | some e => .block [body, .expression e]
    | none => body
  match first with
  | some s => .block [s, .loop condition body]
  | none => .loop condition body

/-- A loop body with a variable `x` of its own, whose value is taken from the loop variable `x` and given back to it by
way of a variable whose name is `x` with a quote behind it:
`{ var x'; { var x = x; body x' = x; } x = x'; }`. -/
def Stmt.withOwn (x : Token) (body : Stmt) : Stmt :=
  let quoted : Token := ⟨.identifier, x.lexeme ++ "'", x.line⟩
  .block
    [.var quoted none,
     .block [.var x (some (.read 0 x)), body, .expression (.assign 0 quoted (.read 0 x))],
     .expression (.assign 0 x (.read 0 quoted))]

/-- The tree of a counting loop. If the loop declares a variable, each run of the body has its own. -/
def FirstClause.tree {lenient : Bool} (condition increment : Option Expr) (body : Stmt) : FirstClause lenient → Stmt
  | none _ => .unrolled .none condition increment body
  | expression e _ => .unrolled (.some (.expression e.tree)) condition increment body
  | var v => .unrolled (.some v.tree) condition increment (.withOwn v.name.1 body)

mutual

def StatementDerivation.tree {lenient : Bool} : {hangs : Bool} → StatementDerivation lenient hangs → Stmt
  | _, .expression e _ => .expression e.tree
  | _, .print _ e _ => .print e.tree
  | _, .ret keyword value _ => .ret keyword.1 (Derivation.treeOption value)
  | _, .block _ body _ => .block body.trees
  | _, .branch _ _ condition _ yes => .branch condition.tree yes.tree none
  | _, .branchElse _ _ condition _ yes _ no => .branch condition.tree yes.tree (some no.tree)
  | _, .loop _ _ condition _ body => .loop condition.tree body.tree
  | _, .counting _ _ first condition _ increment _ body =>
    first.tree (Derivation.treeOption condition) (Derivation.treeOption increment) body.tree

def DeclarationDerivation.tree {lenient : Bool} : DeclarationDerivation lenient → Stmt
  | .classDecl _ name superclass _ methods _ => .classDecl name.1 superclass.tree methods.trees
  | .function _ f => .function f.tree
  | .var v => v.tree
  | .statement s => s.tree

def DeclarationsDerivation.trees {lenient : Bool} : DeclarationsDerivation lenient → List Stmt
  | .nil => []
  | .cons first more => first.tree :: more.trees

def FunctionDerivation.tree {lenient : Bool} : FunctionDerivation lenient → Function
  | .mk name _ parameters _ _ body _ => .mk name.1 parameters.names body.trees

def MethodsDerivation.trees {lenient : Bool} : MethodsDerivation lenient → List Function
  | .nil => []
  | .cons first more => first.tree :: more.trees

end

namespace Grammar

/-- The body of a counting loop, as it stands in the plain one. -/
def bodyFor (initial : Option Stmt) (id : NodeId) (body : Stmt) : Stmt :=
  match initial with
  | some (.var name _) => iteration id name body
  | _ => body

theorem unnumbered_counting (initial : Option Stmt) (condition increment : Option Expr) (body : Stmt) :
    (counting initial condition increment body).unnumbered =
      .unrolled (Stmt.unnumberedOption initial) (Expr.unnumberedOption condition) (Expr.unnumberedOption increment)
        body.unnumbered := by
  cases initial <;> cases condition <;> cases increment <;> rfl

end Grammar

end LoxLang
