import LoxLang.Proofs.Derivation.Program
import LoxLang.Proofs.Derivation.Spelling
import LoxLang.Proofs.WellFormed.Sites

/-! The sites of a program as it is written, where a counting loop has no copies of its variable and an increment is a
use of a name like any other. -/

namespace LoxLang

variable {lenient : Bool}

/-- What there is to a name that is read. -/
def Place.reading (p : Place) (own : Option String) (name : Token) : List Site := (Use.site? p own ⟨.read, 0, name⟩).toList

mutual

def Derivation.sites (p : Place) (own : Option String) : {s : Symbol} → Derivation s → List Site
  | _, .assign _ _ value | _, .plain value | _, .sum value | _, .unsigned value | _, .signed _ value
  | _, .grouping _ value _ => value.sites p own
  | _, .set object _ _ _ value => object.sites p own ++ value.sites p own
  | _, .operands first more => first.sites p own ++ more.sites p own
  | _, .suffixed first more => first.sites p own ++ more.sites p own
  | _, .increment name _ _ | _, .decrement name _ _ | _, .name name => p.reading own name.1
  | _, .literal _ _ _ => []
  | _, .self _ => [.self p.around.cls]
  | _, .inherited _ _ _ => [.inherited p.around.cls]

def Operands.sites (p : Place) (own : Option String) : {l : Level} → Operands l → List Site
  | _, .nil => []
  | _, .cons _ right more => right.sites p own ++ more.sites p own

def Suffixes.sites (p : Place) (own : Option String) : Suffixes → List Site
  | .nil => []
  | .call _ _ more | .get _ _ more => more.sites p own
  | .callWith _ arguments _ _ more => arguments.sites p own ++ more.sites p own

def Arguments.sites (p : Place) (own : Option String) : {n : Nat} → Arguments n → List Site
  | _, .one e => e.sites p own
  | _, .cons e _ more => e.sites p own ++ more.sites p own

end

def Derivation.sitesOption (p : Place) (own : Option String) : Option (Derivation .expression) → List Site
  | none => []
  | some e => e.sites p own

def InitialValue.sites (p : Place) (own : Option String) : InitialValue → List Site
  | none => []
  | some _ value => value.sites p own

def VariableDerivation.sites (p : Place) (v : VariableDerivation lenient) : List Site :=
  v.initial.sites p (p.locals.own v.name.1.lexeme)

namespace FirstClause

def sites (p : Place) : FirstClause lenient → List Site
  | none _ => []
  | var v => .scope [v.name.1.lexeme] :: v.sites (p.inside [])
  | expression e _ => e.sites p .none

/-- The place of the other clauses and of the body. A variable is in a scope of its own. -/
def behind (p : Place) : FirstClause lenient → Place
  | none _ | expression _ _ => p
  | var v => p.inside [v.name.1.lexeme]

end FirstClause

mutual

def StatementDerivation.sites (p : Place) : {hangs : Bool} → StatementDerivation lenient hangs → List Site
  | _, .expression e _ | _, .print _ e _ => e.sites p none
  | _, .ret _ value _ => .ret p.around.function value.isSome :: Derivation.sitesOption p none value
  | _, .block _ body _ => .scope (Stmt.declared body.trees) :: body.sites (p.inside [])
  | _, .branch _ _ condition _ yes => condition.sites p none ++ yes.sites p
  | _, .branchElse _ _ condition _ yes _ no => condition.sites p none ++ yes.sites p ++ no.sites p
  | _, .loop _ _ condition _ body => condition.sites p none ++ body.sites p
  | _, .counting _ _ first condition _ increment _ body =>
    first.sites p ++ Derivation.sitesOption (first.behind p) none condition ++
      Derivation.sitesOption (first.behind p) none increment ++ body.sites (first.behind p)

def DeclarationDerivation.sites (p : Place) : DeclarationDerivation lenient → List Site
  | .classDecl _ name superclass _ methods _ =>
    .classDecl name.1.lexeme (superclass.tree.map fun u => u.name.lexeme) ::
      methods.sites ((p.declare [name.1.lexeme]).inClass superclass.tree)
  | .function _ f => f.sites .function (p.declare [f.tree.name.lexeme])
  | .var v => v.sites p
  | .statement s => s.sites p

def DeclarationsDerivation.sites (p : Place) : DeclarationsDerivation lenient → List Site
  | .nil => []
  | .cons first more => first.sites p ++ more.sites (p.declare first.tree.declares)

def FunctionDerivation.sites (kind : FunctionKind) (p : Place) : FunctionDerivation lenient → List Site
  | .mk _ _ parameters _ _ body _ =>
    .scope (parameters.names.map Token.lexeme ++ Stmt.declared body.trees) ::
      body.sites (p.inFunction kind (parameters.names.map Token.lexeme))

def MethodsDerivation.sites (p : Place) : MethodsDerivation lenient → List Site
  | .nil => []
  | .cons first more => first.sites (.ofMethod first.tree) p ++ more.sites p

end

section Expressions

variable {p : Place} {own : Option String}

theorem Expr.sites_node (l : Level) (a : Expr) (t : Token) (b : Expr) :
    (l.node a t b).sites p own = a.sites p own ++ b.sites p own := by
  rw [sites, l.uses_node, List.filterMap_append]
  rfl

theorem Expr.sites_call (callee : Expr) (paren : Token) (arguments : List Expr) :
    (Expr.call callee paren arguments).sites p own =
      callee.sites p own ++ (Expr.usesEach arguments).filterMap (Use.site? p own) := List.filterMap_append

theorem Place.reading_eq (name : Token) : p.reading own name = (Expr.read 0 name).sites p own := by
  rw [reading, Expr.sites, Expr.uses, List.filterMap_cons]
  cases Use.site? p own ⟨.read, 0, name⟩ <;> rfl

mutual

/-- Increments aside the tree of an expression has just its sites, and an increment has those of its name. -/
theorem Derivation.sites_tree : ∀ {s : Symbol} (d : Derivation s), d.tree.sites p own = d.sites p own
  | _, .assign _ _ value => value.sites_tree
  | _, .plain value | _, .sum value | _, .unsigned value | _, .signed _ value | _, .grouping _ value _ =>
    value.sites_tree
  | _, .set object _ _ _ value => by
    rw [Derivation.tree, Derivation.sites, ← object.sites_tree, ← value.sites_tree]
    exact List.filterMap_append
  | _, .operands first more => by
    rw [Derivation.tree, Derivation.sites, more.sites_tree, first.sites_tree]
  | _, .suffixed first more => by
    rw [Derivation.tree, Derivation.sites, more.sites_tree, first.sites_tree]
  | _, .increment name _ _ | _, .decrement name _ _ | _, .name name => (Place.reading_eq name.1).symm
  | _, .literal _ _ _ | _, .self _ | _, .inherited _ _ _ => rfl

theorem Operands.sites_tree : ∀ {l : Level} (d : Operands l) (left : Expr),
    (d.tree left).sites p own = left.sites p own ++ d.sites p own
  | _, .nil, _ => (List.append_nil _).symm
  | l, .cons operator right more, left => by
    rw [Operands.tree, Operands.sites, more.sites_tree, Expr.sites_node, right.sites_tree, List.append_assoc]

theorem Suffixes.sites_tree : ∀ (d : Suffixes) (e : Expr), (d.tree e).sites p own = e.sites p own ++ d.sites p own
  | .nil, _ => (List.append_nil _).symm
  | .call _ _ more, e => by
    rw [Suffixes.tree, Suffixes.sites, more.sites_tree, Expr.sites_call, Expr.usesEach, List.filterMap_nil, List.append_nil]
  | .callWith _ arguments _ _ more, e => by
    rw [Suffixes.tree, Suffixes.sites, more.sites_tree, Expr.sites_call, arguments.sites_tree, List.append_assoc]
  | .get _ _ more, e => more.sites_tree _

theorem Arguments.sites_tree : ∀ {n : Nat} (d : Arguments n),
    (Expr.usesEach d.trees).filterMap (Use.site? p own) = d.sites p own
  | _, .one e => by
    rw [Arguments.trees, Expr.usesEach, Expr.usesEach, List.append_nil, Arguments.sites, ← e.sites_tree]
    rfl
  | _, .cons e _ more => by
    rw [Arguments.trees, Expr.usesEach, List.filterMap_append, more.sites_tree, Arguments.sites, ← e.sites_tree]
    rfl

end

theorem Derivation.sites_treeOption (d : Option (Derivation .expression)) :
    Expr.sitesOption p own (Derivation.treeOption d) = Derivation.sitesOption p own d := by
  cases d with
  | none => rfl
  | some d => exact d.sites_tree

theorem InitialValue.sites_tree (i : InitialValue) : Expr.sitesOption p own i.tree = i.sites p own := by
  cases i with
  | none => rfl
  | some equals value => exact value.sites_tree

end Expressions

end LoxLang
