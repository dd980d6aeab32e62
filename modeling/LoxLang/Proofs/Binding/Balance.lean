import LoxLang.Proofs.Binding.Globals
import LoxLang.Proofs.Binding.Fits
import LoxLang.Proofs.Scoping.Growth

/-! A walk leaves behind what it found, but for the names that it gives. The kinds of the innermost function and class, which
`Stmt.resolve` is told, may as well be kept among the state, set on the way into a function or a class and set back on the
way out. What a walk over a statement does to the scopes and the global names is told by the names that the statement gives,
whatever faults it meets. -/

namespace LoxLang

structure Walker where
  walk : Walk
  around : Surroundings

namespace Walker

def on (step : Walk → Walk) (r : Walker) : Walker := { r with walk := step r.walk }

def setFunction (kind : FunctionKind) (r : Walker) : Walker := { r with around := { r.around with function := kind } }

def setClass (kind : ClassKind) (r : Walker) : Walker := { r with around := { r.around with cls := kind } }

def openScope (r : Walker) : Walker := r.on fun w => { w with scopes := ∅ :: w.scopes }

def closeScope (r : Walker) : Walker := r.on fun w => { w with scopes := w.scopes.tail }

/-- Defines a name in the innermost scope, whether or not it is there. -/
def put (name : String) (r : Walker) : Walker := r.on fun w =>
  match w.scopes with
  | [] => w
  | scope :: outer => { w with scopes := scope.insert name .defined :: outer }

def bind (t : Token) (r : Walker) : Walker := (r.on (Walk.declare t)).on (Walk.define t)

end Walker

mutual

def Expr.visit : Expr → Walker → Walker
  | .literal _, r => r
  | .grouping inner, r => inner.visit r
  | .unary _ operand, r => operand.visit r
  | .binary left _ right, r | .logical left _ right, r => right.visit (left.visit r)
  | .read id name, r => r.on (Walk.read id name)
  | .assign id name value, r => (value.visit r).on (Walk.use id name.lexeme)
  | .call callee _ arguments, r => Expr.visitEach arguments (callee.visit r)
  | .get object _, r => object.visit r
  | .set object _ value, r => object.visit (value.visit r)
  | .self id keyword, r => r.on (Walk.self r.around id keyword)
  | .inherited id keyword _, r => r.on (Walk.inherited r.around id keyword)

def Expr.visitEach : List Expr → Walker → Walker
  | [], r => r
  | e :: rest, r => Expr.visitEach rest (e.visit r)

end

def Expr.visitOption : Option Expr → Walker → Walker
  | none, r => r
  | some e, r => e.visit r

/-- The superclass clause, up to the scope that it opens. -/
def NameUse.visit (superclass : NameUse) (cls : Token) (r : Walker) : Walker :=
  let r := if superclass.name.lexeme = cls.lexeme then r.on (Walk.fault superclass.name .inheritsFromItself) else r
  ((superclass.expr.visit (r.setClass .derived)).openScope).put "super"

def NameUse.visitOption : Option NameUse → Token → Walker → Walker
  | none, _, r => r
  | some superclass, cls, r => superclass.visit cls r

mutual

def Stmt.visit : Stmt → Walker → Walker
  | .expression e, r | .print e, r => e.visit r
  | .var name initial, r => (Expr.visitOption initial (r.on (Walk.declare name))).on (Walk.define name)
  | .block body, r => (Stmt.visitEach body r.openScope).closeScope
  | .branch condition yes no, r => Stmt.visitOption no (yes.visit (condition.visit r))
  | .loop condition body, r => body.visit (condition.visit r)
  | .function f, r => f.visit .function (r.bind f.name)
  | .ret keyword value, r => Expr.visitOption value (r.on (Walk.ret r.around keyword value.isSome))
  | .classDecl name superclass methods, r =>
    let enclosing := r.around.cls
    let r := NameUse.visitOption superclass name ((r.setClass .base).bind name)
    let r := (Function.visitMethods methods (r.openScope.put "this")).closeScope
    let r := if superclass.isSome then r.closeScope else r
    r.setClass enclosing

def Stmt.visitEach : List Stmt → Walker → Walker
  | [], r => r
  | s :: rest, r => Stmt.visitEach rest (s.visit r)

def Stmt.visitOption : Option Stmt → Walker → Walker
  | none, r => r
  | some s, r => s.visit r

def Function.visit (kind : FunctionKind) : Function → Walker → Walker
  | .mk _ parameters body, r =>
    let enclosing := r.around.function
    let r := parameters.foldl (fun r t => r.bind t) (r.setFunction kind).openScope
    (Stmt.visitEach body r).closeScope.setFunction enclosing

def Function.visitMethods : List Function → Walker → Walker
  | [], r => r
  | f :: rest, r => Function.visitMethods rest (f.visit (.ofMethod f) r)

end

mutual

theorem Expr.visit_eq : ∀ (e : Expr) (r : Walker), e.visit r = ⟨e.resolve r.around r.walk, r.around⟩
  | .literal _, _ => rfl
  | .grouping inner, r => inner.visit_eq r
  | .unary _ operand, r => operand.visit_eq r
  | .binary left _ right, r | .logical left _ right, r => by
    rw [visit, left.visit_eq r, right.visit_eq]
    rfl
  | .read _ _, _ => rfl
  | .assign _ _ value, r => by
    rw [visit, value.visit_eq r]
    rfl
  | .call callee _ arguments, r => by
    rw [visit, callee.visit_eq r, Expr.visitEach_eq arguments]
    rfl
  | .get object _, r => object.visit_eq r
  | .set object _ value, r => by
    rw [visit, value.visit_eq r, object.visit_eq]
    rfl
  | .self _ _, _ => rfl
  | .inherited _ _ _, _ => rfl

theorem Expr.visitEach_eq : ∀ (es : List Expr) (r : Walker),
    Expr.visitEach es r = ⟨Expr.resolveEach r.around es r.walk, r.around⟩
  | [], _ => rfl
  | e :: rest, r => by
    rw [visitEach, e.visit_eq r, Expr.visitEach_eq rest]
    rfl

end

theorem Expr.visitOption_eq (e : Option Expr) (r : Walker) :
    Expr.visitOption e r = ⟨Expr.resolveOption r.around e r.walk, r.around⟩ := by
  cases e with
  | none => rfl
  | some e => exact e.visit_eq r

theorem NameUse.visit_eq (u : NameUse) (cls : Token) (r : Walker) :
    u.visit cls r =
      ((⟨u.resolveSuperclass cls r.walk, { r.around with cls := .derived }⟩ : Walker).openScope).put "super" := by
  unfold visit resolveSuperclass
  split <;> rfl

theorem Walker.parameters_eq (parameters : List Token) (r : Walker) :
    parameters.foldl (fun r t => r.bind t) r =
      ⟨parameters.foldl (fun w t => (w.declare t).define t) r.walk, r.around⟩ := by
  induction parameters generalizing r with
  | nil => rfl
  | cons t rest ih => rw [List.foldl_cons, ih, List.foldl_cons]; rfl

mutual

theorem Stmt.visit_eq : ∀ (s : Stmt) (r : Walker), s.visit r = ⟨s.resolve r.around r.walk, r.around⟩
  | .expression e, r | .print e, r => e.visit_eq r
  | .var name initial, r => by
    rw [Stmt.visit, Expr.visitOption_eq]
    rfl
  | .block body, r => by
    rw [Stmt.visit, Stmt.visitEach_eq body]
    rfl
  | .branch condition yes no, r => by
    rw [Stmt.visit, condition.visit_eq r, yes.visit_eq, Stmt.visitOption_eq no]
    rfl
  | .loop condition body, r => by
    rw [Stmt.visit, condition.visit_eq r, body.visit_eq]
    rfl
  | .function f, r => by
    rw [Stmt.visit, f.visit_eq]
    rfl
  | .ret keyword value, r => by
    rw [Stmt.visit, Expr.visitOption_eq]
    rfl
  | .classDecl name none methods, r => by
    rw [Stmt.visit, Function.visitMethods_eq methods]
    rfl
  | .classDecl name (some u) methods, r => by
    rw [Stmt.visit, NameUse.visitOption, NameUse.visit_eq, Function.visitMethods_eq methods]
    rfl

theorem Stmt.visitEach_eq : ∀ (body : List Stmt) (r : Walker),
    Stmt.visitEach body r = ⟨Stmt.resolveEach r.around body r.walk, r.around⟩
  | [], _ => rfl
  | s :: rest, r => by
    rw [Stmt.visitEach, s.visit_eq r, Stmt.visitEach_eq rest]
    rfl

theorem Stmt.visitOption_eq : ∀ (s : Option Stmt) (r : Walker),
    Stmt.visitOption s r = ⟨Stmt.resolveOption r.around s r.walk, r.around⟩
  | none, _ => rfl
  | some s, r => s.visit_eq r

theorem Function.visit_eq {kind : FunctionKind} : ∀ (f : Function) (r : Walker),
    f.visit kind r = ⟨f.resolve kind r.around r.walk, r.around⟩
  | .mk _ parameters body, r => by
    rw [Function.visit, Walker.parameters_eq, Stmt.visitEach_eq body]
    rfl

theorem Function.visitMethods_eq : ∀ (fs : List Function) (r : Walker),
    Function.visitMethods fs r = ⟨Function.resolveMethods r.around fs r.walk, r.around⟩
  | [], _ => rfl
  | f :: rest, r => by
    rw [Function.visitMethods, f.visit_eq r, Function.visitMethods_eq rest]
    rfl

end

open Walk

namespace Walk

/-- What is known once the innermost scope has got some names, or the top level, if no scope is open. -/
def give (names : List String) : List Scope × Std.ExtTreeSet String → List Scope × Std.ExtTreeSet String
  | ([], globals) => ([], globals.insertMany names)
  | (scope :: outer, globals) => (names.foldl (fun s x => s.insert x .defined) scope :: outer, globals)

section Give

variable {names more : List String} {known : List Scope × Std.ExtTreeSet String}

theorem give_nil (known : List Scope × Std.ExtTreeSet String) : give [] known = known := by
  obtain ⟨_ | ⟨scope, outer⟩, globals⟩ := known
  · rw [give, Std.ExtTreeSet.insertMany_nil]
  · rfl

theorem give_append : give (names ++ more) known = give more (give names known) := by
  obtain ⟨_ | ⟨scope, outer⟩, globals⟩ := known
  · simp only [give, Std.ExtTreeSet.insertMany_append]
  · simp only [give, List.foldl_append]

theorem length_give : (give names known).1.length = known.1.length := by
  obtain ⟨_ | ⟨scope, outer⟩, globals⟩ := known <;> rfl

theorem tail_give : (give names known).1.tail = known.1.tail := by
  obtain ⟨_ | ⟨scope, outer⟩, globals⟩ := known <;> rfl

theorem getElem?_foldl_insert (names : List String) (scope : Scope) (x : String) :
    (names.foldl (fun s x => s.insert x .defined) scope)[x]? = if x ∈ names then some .defined else scope[x]? := by
  induction names generalizing scope with
  | nil => simp
  | cons name rest ih =>
    rw [List.foldl_cons, ih]
    simp only [Std.ExtTreeMap.getElem?_insert, Std.compare_eq_iff_eq]
    by_cases hrest : x ∈ rest
    · simp [hrest]
    · by_cases hname : name = x
      · simp [hname]
      · simp [hrest, hname, Ne.symm hname]

theorem getElem?_head_give {scope scope' : Scope} (h : scope ∈ known.1.head?) (h' : scope' ∈ (give names known).1.head?)
    (x : String) : scope'[x]? = if x ∈ names then some .defined else scope[x]? := by
  obtain ⟨_ | ⟨first, outer⟩, globals⟩ := known
  · cases h
  · cases h
    cases h'
    exact getElem?_foldl_insert names scope x

theorem mem_globals_give {x : String} :
    x ∈ (give names known).2 ↔ x ∈ known.2 ∨ known.1 = [] ∧ x ∈ names := by
  obtain ⟨_ | ⟨scope, outer⟩, globals⟩ := known
  · simp [give]
  · simp [give]

end Give

/-- What is declared and later defined, with anything in between that does not touch what is known. -/
theorem known_define {t : Token} {w v : Walk} (h : v.known = (w.declare t).known) :
    (v.define t).known = give [t.lexeme] w.known := by
  obtain ⟨hscopes, hglobals⟩ := Prod.mk.inj h
  unfold define
  rw [hscopes]
  unfold declare at hscopes hglobals ⊢
  rcases hw : w.scopes with _ | ⟨scope, outer⟩
  · simp only [hw] at hscopes hglobals ⊢
    simp [known, give, hw, hscopes, hglobals, Std.ExtTreeSet.insertMany_list_singleton]
  · simp only [hw] at hscopes hglobals ⊢
    split at hglobals
    · rename_i hdeclared
      simp [known, give, fault, hw, hglobals, hdeclared]
    · rename_i hnew
      simp only [known, give, hw, hglobals, hnew, List.foldl_cons, List.foldl_nil]
      -- Of the two entries only the later one is left.
      refine congrArg (fun scope => (scope :: outer, w.globals)) (Std.ExtTreeMap.ext_getElem? fun x => ?_)
      simp only [Std.ExtTreeMap.getElem?_insert, Std.compare_eq_iff_eq]
      split <;> rfl

theorem known_bind (t : Token) (w : Walk) : ((w.declare t).define t).known = give [t.lexeme] w.known :=
  known_define rfl

theorem known_parameters (parameters : List Token) (w : Walk) :
    (parameters.foldl (fun w t => (w.declare t).define t) w).known = give (parameters.map Token.lexeme) w.known := by
  induction parameters generalizing w with
  | nil => exact (give_nil _).symm
  | cons t rest ih =>
    rw [List.foldl_cons, ih, known_bind, ← give_append]
    rfl

/-- Names given in a scope of its own are gone behind it. -/
theorem known_inScope {names : List String} {walk : Walk → Walk} (fresh : List String)
    (h : ∀ w, (walk w).known = give names w.known) (w : Walk) : (w.inScope fresh walk).known = w.known := by
  have hwalk := h { w with scopes := fresh.foldl (fun (s : Scope) name => s.insert name .defined) ∅ :: w.scopes }
  obtain ⟨hscopes, hglobals⟩ := Prod.mk.inj hwalk
  unfold inScope
  simp only [known, hscopes, hglobals, List.tail_cons]

end Walk

mutual

theorem Stmt.known_resolve : ∀ {around : Surroundings} (s : Stmt) (w : Walk),
    (s.resolve around w).known = give s.gives w.known
  | around, .expression e, w | around, .print e, w => (e.known_resolve around w).trans (give_nil _).symm
  | around, .var name initial, w => known_define (Expr.known_resolveOption around initial (w.declare name))
  | around, .block body, w => by
    rw [Stmt.resolve, known_inScope [] fun w => Stmt.known_resolveEach body w]
    exact (give_nil _).symm
  | around, .branch condition yes no, w => by
    rw [Stmt.resolve, Stmt.known_resolveOption no, yes.known_resolve, condition.known_resolve, Stmt.gives, give_append]
  | around, .loop condition body, w => by
    rw [Stmt.resolve, body.known_resolve, condition.known_resolve, Stmt.gives]
  | around, .function f, w => by
    rw [Stmt.resolve, f.known_resolve, known_bind]
    rfl
  | around, .ret keyword value, w => by
    rw [Stmt.resolve, Expr.known_resolveOption, known_ret]
    exact (give_nil _).symm
  | around, .classDecl name none methods, w => by
    have hmethods (w : Walk) : (Function.resolveMethods ⟨around.function, .base⟩ methods w).known = give [] w.known :=
      (Function.known_resolveMethods methods w).trans (give_nil _).symm
    rw [Stmt.resolve]
    exact (known_inScope ["this"] hmethods _).trans (known_bind name w)
  | around, .classDecl name (some u) methods, w => by
    have hmethods (w : Walk) :
        (Function.resolveMethods ⟨around.function, .derived⟩ methods w).known = give [] w.known :=
      (Function.known_resolveMethods methods w).trans (give_nil _).symm
    have hinner (w : Walk) :
        (w.inScope ["this"] (Function.resolveMethods ⟨around.function, .derived⟩ methods)).known = give [] w.known :=
      (known_inScope ["this"] hmethods w).trans (give_nil _).symm
    rw [Stmt.resolve]
    exact (known_inScope ["super"] hinner _).trans ((u.known_resolveSuperclass name _).trans (known_bind name w))

theorem Stmt.known_resolveEach : ∀ {around : Surroundings} (body : List Stmt) (w : Walk),
    (Stmt.resolveEach around body w).known = give (body.flatMap Stmt.gives) w.known
  | _, [], _ => (give_nil _).symm
  | around, s :: rest, w => by
    rw [Stmt.resolveEach, Stmt.known_resolveEach rest, s.known_resolve, List.flatMap_cons, give_append]

theorem Stmt.known_resolveOption : ∀ {around : Surroundings} (s : Option Stmt) (w : Walk),
    (Stmt.resolveOption around s w).known = give (Stmt.givesOption s) w.known
  | _, none, _ => (give_nil _).symm
  | _, some s, w => s.known_resolve w

theorem Function.known_resolve : ∀ {kind : FunctionKind} {around : Surroundings} (f : Function) (w : Walk),
    (f.resolve kind around w).known = w.known
  | kind, around, .mk _ parameters body, w => by
    have hbody (w : Walk) :
        (Stmt.resolveEach ⟨kind, around.cls⟩ body (parameters.foldl (fun w t => (w.declare t).define t) w)).known =
          give (parameters.map Token.lexeme ++ body.flatMap Stmt.gives) w.known := by
      rw [Stmt.known_resolveEach body, known_parameters, ← give_append]
    exact known_inScope [] hbody w

theorem Function.known_resolveMethods : ∀ {around : Surroundings} (fs : List Function) (w : Walk),
    (Function.resolveMethods around fs w).known = w.known
  | _, [], _ => rfl
  | _, f :: rest, w => (Function.known_resolveMethods rest _).trans (f.known_resolve w)

end

end LoxLang
