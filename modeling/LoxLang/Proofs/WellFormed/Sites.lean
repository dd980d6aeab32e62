import LoxLang.Binding.Resolve
import LoxLang.Proofs.Binding.Layout

/-! The places of a program that rules of scoping tell of, each with what stands around it, and the programs in which
all of them keep to the rules. -/

namespace LoxLang

/-- Where code stands in a program. -/
structure Place where
  around : Surroundings
  /-- The names declared so far in the local scopes around, the innermost first. -/
  locals : Layout
  /-- The names declared so far at top level. -/
  globals : List String

namespace Place

def topLevel : Place := ⟨.topLevel, [], []⟩

/-- Behind a declaration of the names. -/
def declare (names : List String) (p : Place) : Place :=
  match p.locals with
  | [] => { p with globals := names ++ p.globals }
  | _ :: _ => { p with locals := p.locals.declare names }

/-- In a new scope that has the names. -/
def inside (names : List String) (p : Place) : Place := { p with locals := names :: p.locals }

/-- In the body of a function. -/
def inFunction (kind : FunctionKind) (parameters : List String) (p : Place) : Place :=
  { p.inside parameters with around := ⟨kind, p.around.cls⟩ }

/-- Among the methods of a class. -/
def inClass (superclass : Option NameUse) (p : Place) : Place :=
  { p with around := ⟨p.around.function, if superclass.isSome then .derived else .base⟩
           locals := p.locals.ofClass superclass }

end Place

/-- What a rule tells of. -/
inductive Site
  /-- A local scope, with all that is declared in it. -/
  | scope (names : List String)
  /-- A read of a local variable in its own initial value, with the local scopes around that of the variable and the
  names declared at top level before it. -/
  | ownRead (name : String) (outer : Layout) (globals : List String)
  /-- A `return` in a function of this kind, with or without a value. -/
  | ret (kind : FunctionKind) (valued : Bool)
  /-- A `this` in a class of this kind. -/
  | self (kind : ClassKind)
  /-- A `super` in a class of this kind. -/
  | inherited (kind : ClassKind)
  | classDecl (name : String) (superclass : Option String)

/-- What there is to a use, perhaps in the initial value of the local variable `own`. -/
def Use.site? (p : Place) (own : Option String) (u : Use) : Option Site :=
  match u.kind with
  | .read => if own = some u.token.lexeme then some (.ownRead u.token.lexeme p.locals.tail p.globals) else none
  | .assign => none
  | .self => some (.self p.around.cls)
  | .inherited => some (.inherited p.around.cls)

def Expr.sites (p : Place) (own : Option String) (e : Expr) : List Site := e.uses.filterMap (Use.site? p own)

def Expr.sitesOption (p : Place) (own : Option String) (e : Option Expr) : List Site :=
  (Expr.usesOption e).filterMap (Use.site? p own)

/-- All names that the statements declare in the scope around them. -/
def Stmt.declared (body : List Stmt) : List String := body.flatMap Stmt.declares

mutual

/-- The sites of a statement at a place. -/
def Stmt.sites (p : Place) : Stmt → List Site
  | .expression e | .print e => e.sites p none
  | .var name initial => Expr.sitesOption p (p.locals.own name.lexeme) initial
  | .block body => .scope (Stmt.declared body) :: Stmt.sitesEach (p.inside []) body
  | .branch condition yes no => condition.sites p none ++ yes.sites p ++ Stmt.sitesOption p no
  | .loop condition body => condition.sites p none ++ body.sites p
  | .function f => f.sites .function (p.declare [f.name.lexeme])
  | .ret _ value => .ret p.around.function value.isSome :: Expr.sitesOption p none value
  | .classDecl name superclass methods =>
    .classDecl name.lexeme (superclass.map fun u => u.name.lexeme) ::
      Function.sitesEach ((p.declare [name.lexeme]).inClass superclass) methods

def Stmt.sitesEach (p : Place) : List Stmt → List Site
  | [] => []
  | s :: rest => s.sites p ++ Stmt.sitesEach (p.declare s.declares) rest

def Stmt.sitesOption (p : Place) : Option Stmt → List Site
  | none => []
  | some s => s.sites p

/-- Parameters and body share one scope. -/
def Function.sites (kind : FunctionKind) (p : Place) : Function → List Site
  | .mk _ parameters body =>
    .scope (parameters.map Token.lexeme ++ Stmt.declared body) ::
      Stmt.sitesEach (p.inFunction kind (parameters.map Token.lexeme)) body

def Function.sitesEach (p : Place) : List Function → List Site
  | [] => []
  | f :: rest => f.sites (.ofMethod f) p ++ Function.sitesEach p rest

end

/-- The rules of scoping, where the given names are global already. -/
structure WellFormed (globals : Std.ExtTreeSet String) (sites : List Site) : Prop where
  /-- No local scope declares a name twice. -/
  scopes : ∀ names, .scope names ∈ sites → names.Nodup
  /-- A local variable is read in its own initial value only where a local scope further out has a variable of that
  name, or the name is global already or was declared at top level before. -/
  ownReads : ∀ name outer earlier, .ownRead name outer earlier ∈ sites →
    (∃ scope ∈ outer, name ∈ scope) ∨ name ∈ globals ∨ name ∈ earlier
  /-- Each `return` is in a function or a method. -/
  returns : ∀ kind valued, .ret kind valued ∈ sites → kind ≠ .none
  /-- An initializer returns no value. -/
  values : ∀ kind, .ret kind true ∈ sites → kind ≠ .initializer
  /-- Each `this` is in a class. -/
  selves : ∀ kind, .self kind ∈ sites → kind ≠ .none
  /-- The innermost class around a `super` has a superclass. -/
  supers : ∀ kind, .inherited kind ∈ sites → kind = .derived
  /-- No class names itself as its superclass. -/
  classes : ∀ name superclass, .classDecl name superclass ∈ sites → superclass ≠ some name

/-- The rule for one site. -/
def Site.Allowed (globals : Std.ExtTreeSet String) : Site → Prop
  | .scope names => names.Nodup
  | .ownRead name outer earlier => (∃ scope ∈ outer, name ∈ scope) ∨ name ∈ globals ∨ name ∈ earlier
  | .ret kind valued => kind ≠ .none ∧ (valued = true → kind ≠ .initializer)
  | .self kind => kind ≠ .none
  | .inherited kind => kind = .derived
  | .classDecl name superclass => superclass ≠ some name

variable {globals : Std.ExtTreeSet String}

theorem wellFormed_iff {sites : List Site} : WellFormed globals sites ↔ ∀ site ∈ sites, site.Allowed globals := by
  constructor
  · intro h site hsite
    cases site with
    | scope names => exact h.scopes names hsite
    | ownRead name outer earlier => exact h.ownReads name outer earlier hsite
    | ret kind valued =>
      refine ⟨h.returns kind valued hsite, ?_⟩
      rintro rfl
      exact h.values kind hsite
    | self kind => exact h.selves kind hsite
    | inherited kind => exact h.supers kind hsite
    | classDecl name superclass => exact h.classes name superclass hsite
  · intro h
    exact ⟨fun _ => h _, fun _ _ _ => h _, fun _ _ hsite => (h _ hsite).1, fun _ hsite => (h _ hsite).2 rfl, fun _ => h _,
      fun _ => h _, fun _ _ => h _⟩

/-- The names are others than those of the innermost scope, and each is there once. At top level they need not be. -/
def Layout.Takes (l : Layout) (names : List String) : Prop := l = [] ∨ names.Nodup ∧ ∀ x ∈ names, l.Free x

namespace Layout

variable {l : Layout} {x : String} {names more : List String}

theorem takes_nil (l : Layout) : l.Takes [] := .inr ⟨.nil, by simp⟩

theorem takes_top (names : List String) : Takes [] names := .inl rfl

theorem takes_cons {scope : List String} :
    Takes (scope :: l) names ↔ names.Nodup ∧ ∀ x ∈ names, x ∉ scope := by
  simp [Takes, Free]

theorem takes_append : l.Takes (names ++ more) ↔ l.Takes names ∧ (l.declare names).Takes more := by
  cases l with
  | nil => simp [takes_top, declare]
  | cons scope outer =>
    simp only [declare, takes_cons, List.nodup_append, List.mem_append, not_or]
    constructor
    · rintro ⟨⟨hn, hm, hne⟩, hfree⟩
      exact ⟨⟨hn, fun x hx => hfree x (.inl hx)⟩, hm, fun x hx => ⟨fun h => hne x h x hx rfl, hfree x (.inr hx)⟩⟩
    · rintro ⟨⟨hn, hfree⟩, hm, hfree'⟩
      refine ⟨⟨hn, hm, ?_⟩, ?_⟩
      · rintro x hx _ hy rfl
        exact (hfree' x hy).1 hx
      · rintro x (hx | hx)
        · exact hfree x hx
        · exact (hfree' x hx).2

theorem takes_inside : Takes (names :: l) more ∧ names.Nodup ↔ (names ++ more).Nodup := by
  rw [takes_cons, List.nodup_append]
  constructor
  · rintro ⟨⟨hm, hfree⟩, hn⟩
    refine ⟨hn, hm, ?_⟩
    rintro x hx _ hy rfl
    exact hfree x hy hx
  · rintro ⟨hn, hm, hne⟩
    exact ⟨⟨hm, fun x hx h => hne x h x hx rfl⟩, hn⟩

end Layout

end LoxLang
