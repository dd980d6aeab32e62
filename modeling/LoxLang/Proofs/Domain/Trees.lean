import LoxLang.Proofs.Derivation.Program
import LoxLang.Proofs.Grammar.Sources

/-! The trees that the grammar makes. In every place of such a tree stands a token of a kind that is made for the place,
also in what is generated for loops and increments, and no list of parameters or arguments is too long. The evaluator
asks for less than the grammar gives: it has an answer for every operator that can reach it. -/

namespace LoxLang

namespace Kind

/-- The operators with one operand. -/
def unary : List Kind := [bang, minus]

/-- The operators with two operands that are both evaluated. -/
def binary : List Kind :=
  [plus, minus, star, slash, greater, greaterEqual, less, lessEqual, equalEqual, bangEqual]

/-- The operators whose right operand may be left alone. -/
def logical : List Kind := [kwOr, kwAnd]

end Kind

mutual

/-- The tokens are of the kinds that their places ask for, and no call has too many arguments. -/
def Expr.InDomain : Expr → Prop
  | .literal _ => True
  | .grouping inner => inner.InDomain
  | .unary operator operand => operator.kind ∈ Kind.unary ∧ operand.InDomain
  | .binary left operator right => operator.kind ∈ Kind.binary ∧ left.InDomain ∧ right.InDomain
  | .logical left operator right => operator.kind ∈ Kind.logical ∧ left.InDomain ∧ right.InDomain
  | .read _ name => name.kind = .identifier
  | .assign _ name value => name.kind = .identifier ∧ value.InDomain
  | .call callee paren arguments =>
    paren.kind = .rightParen ∧ arguments.length ≤ maxArity ∧ callee.InDomain ∧ Expr.InDomainEach arguments
  | .get object name => name.kind = .identifier ∧ object.InDomain
  | .set object name value => name.kind = .identifier ∧ object.InDomain ∧ value.InDomain
  | .self _ keyword => keyword.kind = .kwThis
  | .inherited _ keyword method => keyword.kind = .kwSuper ∧ method.kind = .identifier

def Expr.InDomainEach : List Expr → Prop
  | [] => True
  | e :: rest => e.InDomain ∧ Expr.InDomainEach rest

end

def Expr.InDomainOption : Option Expr → Prop
  | none => True
  | some e => e.InDomain

mutual

/-- All expressions in the statement are as described, the superclass of a class is the value of a name, and no function
has too many parameters. -/
def Stmt.InDomain : Stmt → Prop
  | .expression e | .print e => e.InDomain
  | .var name initial => name.kind = .identifier ∧ Expr.InDomainOption initial
  | .block body => Stmt.InDomainEach body
  | .branch condition yes no => condition.InDomain ∧ yes.InDomain ∧ Stmt.InDomainOption no
  | .loop condition body => condition.InDomain ∧ body.InDomain
  | .function f => f.InDomain
  | .ret keyword value => keyword.kind = .kwReturn ∧ Expr.InDomainOption value
  | .classDecl name superclass methods =>
    name.kind = .identifier ∧ (∀ u ∈ superclass, u.expr.InDomain) ∧ Function.InDomainEach methods

def Stmt.InDomainEach : List Stmt → Prop
  | [] => True
  | s :: rest => s.InDomain ∧ Stmt.InDomainEach rest

def Stmt.InDomainOption : Option Stmt → Prop
  | none => True
  | some s => s.InDomain

def Function.InDomain : Function → Prop
  | .mk name parameters body =>
    name.kind = .identifier ∧ parameters.length ≤ maxArity ∧ (∀ t ∈ parameters, t.kind = .identifier) ∧
      Stmt.InDomainEach body

def Function.InDomainEach : List Function → Prop
  | [] => True
  | f :: rest => f.InDomain ∧ Function.InDomainEach rest

end

theorem Stmt.inDomainEach_iff {body : List Stmt} : Stmt.InDomainEach body ↔ ∀ s ∈ body, s.InDomain := by
  induction body with
  | nil => simp [Stmt.InDomainEach]
  | cons s rest ih => rw [Stmt.InDomainEach, List.forall_mem_cons, ih]

theorem Function.inDomainEach_iff {fs : List Function} : Function.InDomainEach fs ↔ ∀ f ∈ fs, f.InDomain := by
  induction fs with
  | nil => simp [Function.InDomainEach]
  | cons f rest ih => rw [Function.InDomainEach, List.forall_mem_cons, ih]

section Unnumbered

theorem Expr.length_unnumberedEach (es : List Expr) : (Expr.unnumberedEach es).length = es.length := by
  induction es with
  | nil => rfl
  | cons e rest ih => rw [unnumberedEach, List.length_cons, List.length_cons, ih]

mutual

/-- Node ids are no matter. -/
theorem Expr.inDomain_unnumbered : ∀ e : Expr, e.unnumbered.InDomain ↔ e.InDomain
  | .literal _ | .read _ _ | .self _ _ | .inherited _ _ _ => Iff.rfl
  | .grouping inner => inner.inDomain_unnumbered
  | .unary _ operand => and_congr_right' operand.inDomain_unnumbered
  | .binary left _ right | .logical left _ right =>
    and_congr_right' (and_congr left.inDomain_unnumbered right.inDomain_unnumbered)
  | .assign _ _ value => and_congr_right' value.inDomain_unnumbered
  | .call callee _ arguments => by
    rw [Expr.unnumbered, Expr.InDomain, Expr.InDomain, Expr.length_unnumberedEach, callee.inDomain_unnumbered,
      Expr.inDomain_unnumberedEach arguments]
  | .get object _ => and_congr_right' object.inDomain_unnumbered
  | .set object _ value => and_congr_right' (and_congr object.inDomain_unnumbered value.inDomain_unnumbered)

theorem Expr.inDomain_unnumberedEach : ∀ es : List Expr,
    Expr.InDomainEach (Expr.unnumberedEach es) ↔ Expr.InDomainEach es
  | [] => Iff.rfl
  | e :: rest => and_congr e.inDomain_unnumbered (Expr.inDomain_unnumberedEach rest)

end

theorem Expr.inDomain_unnumberedOption (e : Option Expr) :
    Expr.InDomainOption (Expr.unnumberedOption e) ↔ Expr.InDomainOption e := by
  cases e with
  | none => exact Iff.rfl
  | some e => exact e.inDomain_unnumbered

mutual

theorem Stmt.inDomain_unnumbered : ∀ s : Stmt, s.unnumbered.InDomain ↔ s.InDomain
  | .expression e | .print e => e.inDomain_unnumbered
  | .var _ initial => and_congr_right' (Expr.inDomain_unnumberedOption initial)
  | .block body => Stmt.inDomain_unnumberedEach body
  | .branch condition yes no =>
    and_congr condition.inDomain_unnumbered (and_congr yes.inDomain_unnumbered (Stmt.inDomain_unnumberedOption no))
  | .loop condition body => and_congr condition.inDomain_unnumbered body.inDomain_unnumbered
  | .function f => f.inDomain_unnumbered
  | .ret _ value => and_congr_right' (Expr.inDomain_unnumberedOption value)
  | .classDecl name superclass methods => by
    rw [Stmt.unnumbered, Stmt.InDomain, Stmt.InDomain, Function.inDomain_unnumberedEach methods]
    cases superclass <;> simp [NameUse.expr, NameUse.unnumbered, Expr.InDomain]

theorem Stmt.inDomain_unnumberedEach : ∀ body : List Stmt,
    Stmt.InDomainEach (Stmt.unnumberedEach body) ↔ Stmt.InDomainEach body
  | [] => Iff.rfl
  | s :: rest => and_congr s.inDomain_unnumbered (Stmt.inDomain_unnumberedEach rest)

theorem Stmt.inDomain_unnumberedOption : ∀ s : Option Stmt,
    Stmt.InDomainOption (Stmt.unnumberedOption s) ↔ Stmt.InDomainOption s
  | none => Iff.rfl
  | some s => s.inDomain_unnumbered

theorem Function.inDomain_unnumbered : ∀ f : Function, f.unnumbered.InDomain ↔ f.InDomain
  | .mk _ _ body => and_congr_right' (and_congr_right' (and_congr_right' (Stmt.inDomain_unnumberedEach body)))

theorem Function.inDomain_unnumberedEach : ∀ fs : List Function,
    Function.InDomainEach (Function.unnumberedEach fs) ↔ Function.InDomainEach fs
  | [] => Iff.rfl
  | f :: rest => and_congr f.inDomain_unnumbered (Function.inDomain_unnumberedEach rest)

end

end Unnumbered

section Derivations

theorem Terminal.kind_eq {kind : Kind} (t : Terminal [kind]) : t.1.kind = kind := List.mem_singleton.mp t.2

theorem Level.inDomain_node {l : Level} {left right : Expr} {operator : Token} (hop : operator.kind ∈ l.operators)
    (hleft : left.InDomain) (hright : right.InDomain) : (l.node left operator right).InDomain := by
  have hlogical : l.operators ⊆ Kind.logical ∨ l.operators ⊆ Kind.binary := by cases l <;> decide
  cases l with
  | disjunction | conjunction => exact ⟨hlogical.resolve_right (by decide) hop, hleft, hright⟩
  | equality | comparison | sum | product => exact ⟨hlogical.resolve_left (by decide) hop, hleft, hright⟩

theorem Expr.inDomain_stepped {name sign : Token} (hname : name.kind = .identifier) (hsign : sign.kind ∈ Kind.binary) :
    (Expr.stepped name sign).InDomain := ⟨hname, hsign, hname, trivial⟩

mutual

theorem Derivation.inDomain : ∀ {s : Symbol} (d : Derivation s), d.tree.InDomain
  | _, .assign name _ value => ⟨name.kind_eq, value.inDomain⟩
  | _, .set object _ name _ value => ⟨name.kind_eq, object.inDomain, value.inDomain⟩
  | _, .plain value => value.inDomain
  | _, .operands first more => more.inDomain first.inDomain
  | _, .sum value => value.inDomain
  | _, .increment name first _ => Expr.inDomain_stepped name.kind_eq (by simp [first.kind_eq, Kind.binary])
  | _, .decrement name first _ => Expr.inDomain_stepped name.kind_eq (by simp [first.kind_eq, Kind.binary])
  | _, .signed operator operand => ⟨operator.2, operand.inDomain⟩
  | _, .unsigned value => value.inDomain
  | _, .suffixed first more => more.inDomain first.inDomain
  | _, .literal _ _ _ => trivial
  | _, .self keyword => keyword.kind_eq
  | _, .name t => t.kind_eq
  | _, .grouping _ inner _ => inner.inDomain
  | _, .inherited keyword _ method => ⟨keyword.kind_eq, method.kind_eq⟩

theorem Operands.inDomain : ∀ {l : Level} (more : Operands l) {left : Expr}, left.InDomain → (more.tree left).InDomain
  | _, .nil, _, h => h
  | _, .cons operator right more, _, h => more.inDomain (Level.inDomain_node operator.2 h right.inDomain)

theorem Suffixes.inDomain : ∀ (more : Suffixes) {e : Expr}, e.InDomain → (more.tree e).InDomain
  | .nil, _, h => h
  | .call _ closing more, _, h => more.inDomain ⟨closing.kind_eq, Nat.zero_le _, h, trivial⟩
  | .callWith _ arguments few closing more, _, h =>
    more.inDomain ⟨closing.kind_eq, arguments.inDomain.1.trans_le few, h, arguments.inDomain.2⟩
  | .get _ name more, _, h => more.inDomain ⟨name.kind_eq, h⟩

theorem Arguments.inDomain : ∀ {n : Nat} (es : Arguments n), es.trees.length = n ∧ Expr.InDomainEach es.trees
  | _, .one e => ⟨rfl, e.inDomain, trivial⟩
  | _, .cons e _ more => ⟨congrArg (· + 1) more.inDomain.1, e.inDomain, more.inDomain.2⟩

end

variable {lenient : Bool}

theorem Derivation.inDomain_option : ∀ e : Option (Derivation .expression), Expr.InDomainOption (Derivation.treeOption e)
  | none => trivial
  | some e => e.inDomain

theorem VariableDerivation.inDomain (v : VariableDerivation lenient) : v.tree.InDomain := by
  refine ⟨v.name.kind_eq, ?_⟩
  cases v.initial with
  | none => exact trivial
  | some _ value => exact value.inDomain

theorem NameList.names_kind : ∀ {n : Nat} (names : NameList n),
    names.names.length = n ∧ ∀ t ∈ names.names, t.kind = .identifier
  | _, .one t => ⟨rfl, by simpa [names] using t.kind_eq⟩
  | _, .cons t _ more => by
    obtain ⟨hlength, hkind⟩ := more.names_kind
    rw [names, List.length_cons, hlength, List.forall_mem_cons]
    exact ⟨rfl, t.kind_eq, hkind⟩

theorem Parameters.names_kind (parameters : Parameters) :
    parameters.names.length ≤ maxArity ∧ ∀ t ∈ parameters.names, t.kind = .identifier := by
  cases parameters with
  | none => exact ⟨Nat.zero_le _, List.forall_mem_nil _⟩
  | some names few => exact ⟨names.names_kind.1.trans_le few, names.names_kind.2⟩

section Loops

variable {condition increment : Option Expr} {body : Stmt}

/-- The condition that always holds is a literal. -/
theorem Stmt.inDomain_unrolled {first : Option Stmt} (hfirst : Stmt.InDomainOption first)
    (hcondition : Expr.InDomainOption condition) (hincrement : Expr.InDomainOption increment) (hbody : body.InDomain) :
    (Stmt.unrolled first condition increment body).InDomain := by
  have hholds : (condition.getD (.literal (.bool true))).InDomain := by
    cases condition with
    | none => exact trivial
    | some e => exact hcondition
  cases first <;> cases increment
  case none.none => exact ⟨hholds, hbody⟩
  case none.some => exact ⟨hholds, hbody, hincrement, trivial⟩
  case some.none => exact ⟨hfirst, ⟨hholds, hbody⟩, trivial⟩
  case some.some => exact ⟨hfirst, ⟨hholds, hbody, hincrement, trivial⟩, trivial⟩

/-- The variable behind the copy is an identifier too. -/
theorem Stmt.inDomain_withOwn {x : Token} (hx : x.kind = .identifier) (hbody : body.InDomain) :
    (Stmt.withOwn x body).InDomain :=
  ⟨⟨rfl, trivial⟩, ⟨⟨hx, hx⟩, hbody, ⟨rfl, hx⟩, trivial⟩, ⟨hx, rfl⟩, trivial⟩

theorem FirstClause.inDomain (first : FirstClause lenient) (hcondition : Expr.InDomainOption condition)
    (hincrement : Expr.InDomainOption increment) (hbody : body.InDomain) :
    (first.tree condition increment body).InDomain := by
  cases first with
  | none _ =>
    have hfirst : Stmt.InDomainOption Option.none := trivial
    exact Stmt.inDomain_unrolled hfirst hcondition hincrement hbody
  | var v =>
    have hfirst : Stmt.InDomainOption (some v.tree) := v.inDomain
    exact Stmt.inDomain_unrolled hfirst hcondition hincrement (Stmt.inDomain_withOwn v.name.kind_eq hbody)
  | expression e _ =>
    have hfirst : Stmt.InDomainOption (some (.expression e.tree)) := e.inDomain
    exact Stmt.inDomain_unrolled hfirst hcondition hincrement hbody

end Loops

mutual

theorem StatementDerivation.inDomain : ∀ {hangs : Bool} (s : StatementDerivation lenient hangs), s.tree.InDomain
  | _, .expression e _ | _, .print _ e _ => e.inDomain
  | _, .ret keyword value _ => ⟨keyword.kind_eq, Derivation.inDomain_option value⟩
  | _, .block _ body _ => body.inDomain
  | _, .branch _ _ condition _ yes => ⟨condition.inDomain, yes.inDomain, trivial⟩
  | _, .branchElse _ _ condition _ yes _ no => ⟨condition.inDomain, yes.inDomain, no.inDomain⟩
  | _, .loop _ _ condition _ body => ⟨condition.inDomain, body.inDomain⟩
  | _, .counting _ _ first condition _ increment _ body =>
    first.inDomain (Derivation.inDomain_option condition) (Derivation.inDomain_option increment) body.inDomain

theorem DeclarationDerivation.inDomain : ∀ d : DeclarationDerivation lenient, d.tree.InDomain
  | .classDecl _ name superclass _ methods _ => by
    refine ⟨name.kind_eq, ?_, methods.inDomain⟩
    cases superclass with
    | none => exact nofun
    | some _ name => exact fun u hu => Option.some.inj hu ▸ name.kind_eq
  | .function _ f => f.inDomain
  | .var v => v.inDomain
  | .statement s => s.inDomain

theorem DeclarationsDerivation.inDomain : ∀ d : DeclarationsDerivation lenient, Stmt.InDomainEach d.trees
  | .nil => trivial
  | .cons first more => ⟨first.inDomain, more.inDomain⟩

theorem FunctionDerivation.inDomain : ∀ f : FunctionDerivation lenient, f.tree.InDomain
  | .mk name _ parameters _ _ body _ => ⟨name.kind_eq, parameters.names_kind.1, parameters.names_kind.2, body.inDomain⟩

theorem MethodsDerivation.inDomain : ∀ fs : MethodsDerivation lenient, Function.InDomainEach fs.trees
  | .nil => trivial
  | .cons first more => ⟨first.inDomain, more.inDomain⟩

end

end Derivations

namespace Parsed

variable {source : String} {nextId : NodeId}

/-- What is read as a program, with or without all its semicolons. -/
theorem inDomain_of_program {lenient : Bool} {statements : List Stmt}
    (h : (Parsed.program lenient (tokens source) nextId).result = .ok statements) : Stmt.InDomainEach statements := by
  obtain ⟨ts, stop, htokens, hts, hstop⟩ := tokens_eq source
  rw [htokens] at h
  obtain ⟨d, -, htrees⟩ := Parsed.derivation_of_program hts hstop h
  rw [← Stmt.inDomain_unnumberedEach, htrees]
  exact d.inDomain

/-- A lone expression that is read has a derivation. -/
theorem derivation_of_expression {ts : List Token} {stop : Token} {e : Expr} (hts : ∀ t ∈ ts, t.kind ≠ .eof)
    (hstop : stop.kind = .eof) (h : (Parsed.expression (ts ++ [stop]) nextId).result = .ok e) :
    ∃ d : Derivation .expression, d.tokens = ts ∧ e.unnumbered = d.tree := by
  obtain ⟨d, hd, htree⟩ := of_run_eq_ok hts hstop (Grammar.parses_loneExpression _) h
  exact ⟨d, hd.symm, htree⟩

theorem inDomain_of_expression {e : Expr} (h : (Parsed.expression (tokens source) nextId).result = .ok e) :
    e.InDomain := by
  obtain ⟨ts, stop, htokens, hts, hstop⟩ := tokens_eq source
  rw [htokens] at h
  obtain ⟨d, -, htree⟩ := derivation_of_expression hts hstop h
  rw [← Expr.inDomain_unnumbered, htree]
  exact d.inDomain

end Parsed

end LoxLang
