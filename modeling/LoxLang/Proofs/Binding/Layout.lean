import LoxLang.Binding.Walk
import LoxLang.Tree.Uses
import Mathlib.Tactic

/-! Static scopes of a program. A layout lists the names declared so far in each open scope; a program fits a
layout if every distance recorded for it is the number of scopes between the use and the nearest
declaration. The one exception is an assignment inside the initial value of the very name it assigns. -/

namespace LoxLang

/-- The names that belong to classes and that no source can declare. -/
def reserved : List String := ["this", "super"]

/-- Just the uses of `this` and `super` have reserved names, each its own. -/
def Use.Proper (u : Use) : Prop :=
  match u.kind with
  | .self => u.token.lexeme = "this"
  | .inherited => u.token.lexeme = "super"
  | .read | .assign => u.token.lexeme ∉ reserved

/-- The names that a statement declares in the scope around it. -/
def Stmt.declares : Stmt → List String
  | .var name _ | .classDecl name _ _ => [name.lexeme]
  | .function f => [f.name.lexeme]
  | _ => []

mutual

/-- Branches and loop bodies declare nothing in the scope around them, and no declared name is reserved. -/
def Stmt.Tidy : Stmt → Prop
  | .expression _ | .print _ | .ret _ _ => True
  | .var name _ => name.lexeme ∉ reserved
  | .block body => Stmt.TidyEach body
  | .branch _ yes no => yes.Tidy ∧ yes.declares = [] ∧ Stmt.TidyOption no
  | .loop _ body => body.Tidy ∧ body.declares = []
  | .function f => f.name.lexeme ∉ reserved ∧ f.Tidy
  | .classDecl name _ methods => name.lexeme ∉ reserved ∧ Function.TidyEach methods

def Stmt.TidyEach : List Stmt → Prop
  | [] => True
  | s :: rest => s.Tidy ∧ Stmt.TidyEach rest

def Stmt.TidyOption : Option Stmt → Prop
  | none => True
  | some s => s.Tidy ∧ s.declares = []

def Function.Tidy : Function → Prop
  | .mk _ parameters body => (∀ t ∈ parameters, t.lexeme ∉ reserved) ∧ Stmt.TidyEach body

def Function.TidyEach : List Function → Prop
  | [] => True
  | f :: rest => f.Tidy ∧ Function.TidyEach rest

end

/-- Somewhere in the expression the name is assigned. -/
def Expr.Assigns (e : Expr) (name : String) : Prop := ∃ u ∈ e.uses, u.kind = .assign ∧ u.token.lexeme = name

theorem Stmt.Tidy.declares_not_reserved : ∀ {s : Stmt}, s.Tidy → ∀ x ∈ s.declares, x ∉ reserved
  | .var _ _, h => List.forall_mem_singleton.mpr h
  | .function _, h => List.forall_mem_singleton.mpr h.1
  | .classDecl _ _ _, h => List.forall_mem_singleton.mpr h.1
  | .expression _, _ | .print _, _ | .block _, _ | .branch _ _ _, _ | .loop _ _, _ | .ret _ _, _ => by
    simp [Stmt.declares]

mutual

/-- No initial value of a local variable assigns the variable's own name. -/
def Stmt.KeepsOwn (inside : Bool) : Stmt → Prop
  | .expression _ | .print _ | .ret _ _ => True
  | .var name initial => inside = true → ∀ e ∈ initial, ¬ e.Assigns name.lexeme
  | .block body => Stmt.KeepsOwnEach true body
  | .branch _ yes no => yes.KeepsOwn inside ∧ Stmt.KeepsOwnOption inside no
  | .loop _ body => body.KeepsOwn inside
  | .function f => f.KeepsOwn
  | .classDecl _ _ methods => Function.KeepsOwnEach methods

def Stmt.KeepsOwnEach (inside : Bool) : List Stmt → Prop
  | [] => True
  | s :: rest => s.KeepsOwn inside ∧ Stmt.KeepsOwnEach inside rest

def Stmt.KeepsOwnOption (inside : Bool) : Option Stmt → Prop
  | none => True
  | some s => s.KeepsOwn inside

def Function.KeepsOwn : Function → Prop
  | .mk _ _ body => Stmt.KeepsOwnEach true body

def Function.KeepsOwnEach : List Function → Prop
  | [] => True
  | f :: rest => f.KeepsOwn ∧ Function.KeepsOwnEach rest

end

instance (e : Expr) (name : String) : Decidable (e.Assigns name) :=
  inferInstanceAs (Decidable (∃ u ∈ e.uses, u.kind = .assign ∧ u.token.lexeme = name))

mutual

def Stmt.decidableKeepsOwn (inside : Bool) : (s : Stmt) → Decidable (s.KeepsOwn inside)
  | .expression _ | .print _ | .ret _ _ => inferInstanceAs (Decidable True)
  | .var name initial => inferInstanceAs (Decidable (inside = true → ∀ e ∈ initial, ¬ e.Assigns name.lexeme))
  | .block body => Stmt.decidableKeepsOwnEach true body
  | .branch _ yes no =>
    have := yes.decidableKeepsOwn inside
    have := Stmt.decidableKeepsOwnOption inside no
    inferInstanceAs (Decidable (_ ∧ _))
  | .loop _ body => body.decidableKeepsOwn inside
  | .function f => f.decidableKeepsOwn
  | .classDecl _ _ methods => Function.decidableKeepsOwnEach methods

def Stmt.decidableKeepsOwnEach (inside : Bool) : (body : List Stmt) → Decidable (Stmt.KeepsOwnEach inside body)
  | [] => inferInstanceAs (Decidable True)
  | s :: rest =>
    have := s.decidableKeepsOwn inside
    have := Stmt.decidableKeepsOwnEach inside rest
    inferInstanceAs (Decidable (_ ∧ _))

def Stmt.decidableKeepsOwnOption (inside : Bool) : (s : Option Stmt) → Decidable (Stmt.KeepsOwnOption inside s)
  | none => inferInstanceAs (Decidable True)
  | some s => s.decidableKeepsOwn inside

def Function.decidableKeepsOwn : (f : Function) → Decidable f.KeepsOwn
  | .mk _ _ body => Stmt.decidableKeepsOwnEach true body

def Function.decidableKeepsOwnEach : (fs : List Function) → Decidable (Function.KeepsOwnEach fs)
  | [] => inferInstanceAs (Decidable True)
  | f :: rest =>
    have := f.decidableKeepsOwn
    have := Function.decidableKeepsOwnEach rest
    inferInstanceAs (Decidable (_ ∧ _))

end

instance (inside : Bool) (body : List Stmt) : Decidable (Stmt.KeepsOwnEach inside body) :=
  Stmt.decidableKeepsOwnEach inside body

/-- The names declared so far in each open scope, the innermost first; none at top level. -/
abbrev Layout := List (List String)

namespace Layout

/-- How many scopes out the nearest declaration of a name is. -/
def hops? (x : String) (l : Layout) : Option Nat := l.findIdx? fun scope => decide (x ∈ scope)

/-- Declares names in the innermost scope; at top level they are global. -/
def declare (names : List String) : Layout → Layout
  | [] => []
  | scope :: outer => (names ++ scope) :: outer

/-- The innermost scope does not have the name yet. -/
def Free (x : String) (l : Layout) : Prop := ∀ scope ∈ l.head?, x ∉ scope

/-- The name whose initial value is read, if it is a local one. -/
def own (x : String) : Layout → Option String
  | [] => none
  | _ :: _ => some x

@[simp] theorem hops?_nil (x : String) : hops? x [] = none := rfl

theorem hops?_cons (x : String) (scope : List String) (l : Layout) :
    hops? x (scope :: l) = if x ∈ scope then some 0 else (hops? x l).map (· + 1) := by
  simp only [hops?, List.findIdx?_cons, decide_eq_true_eq]

theorem hops?_cons_of_mem {x : String} {scope : List String} (h : x ∈ scope) (l : Layout) :
    hops? x (scope :: l) = some 0 := by rw [hops?_cons, if_pos h]

theorem hops?_cons_of_not_mem {x : String} {scope : List String} (h : x ∉ scope) (l : Layout) :
    hops? x (scope :: l) = (hops? x l).map (· + 1) := by rw [hops?_cons, if_neg h]

@[simp] theorem declare_nil (l : Layout) : l.declare [] = l := by cases l <;> rfl

theorem declare_append (a b : List String) (l : Layout) : l.declare (a ++ b) = (l.declare b).declare a := by
  cases l with
  | nil => rfl
  | cons scope outer => simp only [declare, List.append_assoc]

@[simp] theorem declare_eq_nil {names : List String} {l : Layout} : l.declare names = [] ↔ l = [] := by
  cases l <;> simp [declare]

@[simp] theorem isEmpty_declare (names : List String) (l : Layout) : List.isEmpty (l.declare names) = l.isEmpty := by
  cases l <;> rfl

theorem hops?_declare_of_not_mem {x : String} {names : List String} (h : x ∉ names) (l : Layout) :
    hops? x (l.declare names) = hops? x l := by
  cases l with
  | nil => rfl
  | cons scope outer => simp only [declare, hops?_cons, List.mem_append, h, false_or]

end Layout

/-- What is known of the nodes that a program may run: the distances, the nodes they are complete for, and
whether no initial value assigns the name it is for. -/
structure Chart where
  bindings : Bindings
  limit : NodeId
  plain : Bool

/-- The distance recorded for a use is right. Inside the initial value of a local name, `own` is that name. The
frame of the instance is the one just inside that of the superclass. -/
def Use.Fits (c : Chart) (own : Option String) (l : Layout) (u : Use) : Prop :=
  u.id < c.limit ∧
  match u.kind with
  | .read | .self => c.bindings[u.id]? = l.hops? u.token.lexeme
  | .assign =>
    if own = some u.token.lexeme then c.plain = false ∧ c.bindings[u.id]? = some 0
    else c.bindings[u.id]? = l.hops? u.token.lexeme
  | .inherited =>
    u.token.lexeme = "super" ∧
      ∃ d, l.hops? "this" = some d ∧ l.hops? "super" = some (d + 1) ∧ c.bindings[u.id]? = some (d + 1)

def Expr.Fits (c : Chart) (own : Option String) (l : Layout) (e : Expr) : Prop := ∀ u ∈ e.uses, u.Fits c own l

def NameUse.use (u : NameUse) : Use := ⟨.read, u.id, u.name⟩

/-- The scopes around the bodies of methods: that of the instance, and outside it that of the superclass. -/
def Layout.ofClass (superclass : Option NameUse) (l : Layout) : Layout :=
  ["this"] :: match superclass with
    | some _ => ["super"] :: l
    | none => l

mutual

/-- All distances in a statement are right, and it declares no name twice in one scope. -/
def Stmt.Fits (c : Chart) (l : Layout) : Stmt → Prop
  | .expression e | .print e => e.Fits c none l
  | .var name initial => l.Free name.lexeme ∧ ∀ e ∈ initial, e.Fits c (l.own name.lexeme) l
  | .block body => Stmt.FitsEach c ([] :: l) body
  | .branch condition yes no => condition.Fits c none l ∧ yes.Fits c l ∧ yes.declares = [] ∧ Stmt.FitsOption c l no
  | .loop condition body => condition.Fits c none l ∧ body.Fits c l ∧ body.declares = []
  | .function f => l.Free f.name.lexeme ∧ f.Fits c (l.declare [f.name.lexeme])
  | .ret _ value => ∀ e ∈ value, e.Fits c none l
  | .classDecl name superclass methods =>
    l.Free name.lexeme ∧ (∀ u ∈ superclass, u.use.Fits c none l) ∧
      Function.FitsEach c ((l.declare [name.lexeme]).ofClass superclass) methods

def Stmt.FitsEach (c : Chart) (l : Layout) : List Stmt → Prop
  | [] => True
  | s :: rest => s.Fits c l ∧ Stmt.FitsEach c (l.declare s.declares) rest

def Stmt.FitsOption (c : Chart) (l : Layout) : Option Stmt → Prop
  | none => True
  | some s => s.Fits c l ∧ s.declares = []

def Function.Fits (c : Chart) (l : Layout) : Function → Prop
  | .mk _ parameters body =>
    (parameters.map Token.lexeme).Nodup ∧ Stmt.FitsEach c (parameters.map Token.lexeme :: l) body

def Function.FitsEach (c : Chart) (l : Layout) : List Function → Prop
  | [] => True
  | f :: rest => f.Fits c l ∧ Function.FitsEach c l rest

end

/-- What a chart tells stays told when distances of other nodes are added. -/
structure Chart.Le (c d : Chart) : Prop where
  bindings : ∀ id < c.limit, d.bindings[id]? = c.bindings[id]?
  limit : c.limit ≤ d.limit
  plain : d.plain = c.plain

variable {c d : Chart}

theorem Chart.Le.trans {e : Chart} (h : c.Le d) (h' : d.Le e) : c.Le e where
  bindings id hid := (h'.bindings id (hid.trans_le h.limit)).trans (h.bindings id hid)
  limit := h.limit.trans h'.limit
  plain := h'.plain.trans h.plain

theorem Use.Fits.mono (h : c.Le d) {own : Option String} {l : Layout} {u : Use} (hu : u.Fits c own l) :
    u.Fits d own l := by
  obtain ⟨hid, hu⟩ := hu
  refine ⟨hid.trans_le h.limit, ?_⟩
  rw [h.bindings _ hid, h.plain]
  exact hu

theorem Expr.Fits.mono (h : c.Le d) {own : Option String} {l : Layout} {e : Expr} (he : e.Fits c own l) :
    e.Fits d own l := fun u hu => (he u hu).mono h

mutual

theorem Stmt.Fits.mono (h : c.Le d) {l : Layout} : ∀ {s : Stmt}, s.Fits c l → s.Fits d l
  | .expression _, hs | .print _, hs => Expr.Fits.mono h hs
  | .var _ _, hs => ⟨hs.1, fun e he => (hs.2 e he).mono h⟩
  | .block _, hs => Stmt.FitsEach.mono h hs
  | .branch _ _ _, hs => ⟨hs.1.mono h, hs.2.1.mono h, hs.2.2.1, Stmt.FitsOption.mono h hs.2.2.2⟩
  | .loop _ _, hs => ⟨hs.1.mono h, hs.2.1.mono h, hs.2.2⟩
  | .function _, hs => ⟨hs.1, hs.2.mono h⟩
  | .ret _ _, hs => fun e he => Expr.Fits.mono h (hs e he)
  | .classDecl _ _ _, hs => ⟨hs.1, fun u hu => (hs.2.1 u hu).mono h, Function.FitsEach.mono h hs.2.2⟩

theorem Stmt.FitsEach.mono (h : c.Le d) {l : Layout} :
    ∀ {body : List Stmt}, Stmt.FitsEach c l body → Stmt.FitsEach d l body
  | [], _ => trivial
  | _ :: _, hs => ⟨hs.1.mono h, Stmt.FitsEach.mono h hs.2⟩

theorem Stmt.FitsOption.mono (h : c.Le d) {l : Layout} :
    ∀ {s : Option Stmt}, Stmt.FitsOption c l s → Stmt.FitsOption d l s
  | none, _ => trivial
  | some _, hs => ⟨hs.1.mono h, hs.2⟩

theorem Function.Fits.mono (h : c.Le d) {l : Layout} : ∀ {f : Function}, f.Fits c l → f.Fits d l
  | .mk _ _ _, hf => ⟨hf.1, Stmt.FitsEach.mono h hf.2⟩

theorem Function.FitsEach.mono (h : c.Le d) {l : Layout} :
    ∀ {fs : List Function}, Function.FitsEach c l fs → Function.FitsEach d l fs
  | [], _ => trivial
  | _ :: _, hf => ⟨hf.1.mono h, Function.FitsEach.mono h hf.2⟩

end

theorem Function.FitsEach.mem {l : Layout} {fs : List Function} (h : Function.FitsEach c l fs) {f : Function}
    (hf : f ∈ fs) : f.Fits c l := by
  induction fs with
  | nil => cases hf
  | cons g rest ih =>
    rcases List.mem_cons.mp hf with rfl | hf
    · exact h.1
    · exact ih h.2 hf

section Limits

variable {own : Option String} {l : Layout}

theorem Expr.Fits.below {e : Expr} (h : e.Fits c own l) : ∀ u ∈ e.uses, u.id < c.limit := fun u hu => (h u hu).1

theorem Expr.Fits.below_option {e : Option Expr} (h : ∀ e' ∈ e, e'.Fits c own l) : ∀ u ∈ Expr.usesOption e, u.id < c.limit := by
  cases e with
  | none => exact nofun
  | some e => exact (h e rfl).below

mutual

/-- The chart is complete for all nodes of what fits it. -/
theorem Stmt.Fits.below : ∀ {s : Stmt} {l : Layout}, s.Fits c l → ∀ u ∈ s.uses, u.id < c.limit
  | .expression _, _, h | .print _, _, h => Expr.Fits.below h
  | .var _ _, _, h => Expr.Fits.below_option h.2
  | .ret _ _, _, h => Expr.Fits.below_option h
  | .block _, _, h => Stmt.FitsEach.below h
  | .branch _ _ _, _, h => by
    simp only [Stmt.uses, List.forall_mem_append]
    exact ⟨⟨h.1.below, h.2.1.below⟩, Stmt.FitsOption.below h.2.2.2⟩
  | .loop _ _, _, h => by
    simp only [Stmt.uses, List.forall_mem_append]
    exact ⟨h.1.below, h.2.1.below⟩
  | .function _, _, h => h.2.below
  | .classDecl _ superclass _, _, h => by
    simp only [Stmt.uses, List.forall_mem_append]
    refine ⟨fun u hu => ?_, Function.FitsEach.below h.2.2⟩
    cases superclass with
    | none => cases hu
    | some v =>
      obtain rfl := List.mem_singleton.mp hu
      exact (h.2.1 v rfl).1

theorem Stmt.FitsEach.below : ∀ {body : List Stmt} {l : Layout}, Stmt.FitsEach c l body → ∀ u ∈ Stmt.usesEach body, u.id < c.limit
  | [], _, _ => nofun
  | _ :: _, _, h => by
    simp only [Stmt.usesEach, List.forall_mem_append]
    exact ⟨h.1.below, Stmt.FitsEach.below h.2⟩

theorem Stmt.FitsOption.below : ∀ {s : Option Stmt} {l : Layout}, Stmt.FitsOption c l s → ∀ u ∈ Stmt.usesOption s, u.id < c.limit
  | none, _, _ => nofun
  | some _, _, h => h.1.below

theorem Function.Fits.below : ∀ {f : Function} {l : Layout}, f.Fits c l → ∀ u ∈ f.uses, u.id < c.limit
  | .mk _ _ _, _, h => Stmt.FitsEach.below h.2

theorem Function.FitsEach.below : ∀ {fs : List Function} {l : Layout}, Function.FitsEach c l fs →
    ∀ u ∈ Function.usesEach fs, u.id < c.limit
  | [], _, _ => nofun
  | _ :: _, _, h => by
    simp only [Function.usesEach, List.forall_mem_append]
    exact ⟨h.1.below, Function.FitsEach.below h.2⟩

end

end Limits

end LoxLang
