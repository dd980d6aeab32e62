import LoxLang.Proofs.Origins.Functions
import LoxLang.Proofs.WellFormed.Statements

/-! Reads of local variables in their own initial values. Each has the distance to a variable further out, or none; in a
program that is accepted, its name is then a global one that was known before. -/

namespace LoxLang

/-- The use reads the variable that is declared. -/
def Use.OwnRead (declaring : Option Token) (u : Use) : Prop := u.kind = .read ∧ ∃ t ∈ declaring, t.lexeme = u.token.lexeme

instance (declaring : Option Token) (u : Use) : Decidable (u.OwnRead declaring) :=
  inferInstanceAs (Decidable (_ ∧ _))

/-- The reads of the declared variable among some uses, if the variable is local. -/
def Use.ownReads (inside : Bool) (declaring : Option Token) (us : List Use) : List Use :=
  if inside then us.filter (OwnRead declaring) else []

mutual

/-- The reads of local variables in their own initial values. The flag tells whether the statement itself is inside a
block or a function. -/
def Stmt.ownReads (inside : Bool) : Stmt → List Use
  | .expression _ | .print _ | .ret _ _ => []
  | .var name initial => Use.ownReads inside (some name) (Expr.usesOption initial)
  | .block body => Stmt.ownReadsEach true body
  | .branch _ yes no => yes.ownReads inside ++ Stmt.ownReadsOption inside no
  | .loop _ body => body.ownReads inside
  | .function f => f.ownReads
  | .classDecl _ _ methods => Function.ownReadsEach methods

def Stmt.ownReadsEach (inside : Bool) : List Stmt → List Use
  | [] => []
  | s :: rest => s.ownReads inside ++ Stmt.ownReadsEach inside rest

def Stmt.ownReadsOption (inside : Bool) : Option Stmt → List Use
  | none => []
  | some s => s.ownReads inside

def Function.ownReads : Function → List Use
  | .mk _ _ body => Stmt.ownReadsEach true body

def Function.ownReadsEach : List Function → List Use
  | [] => []
  | f :: rest => f.ownReads ++ Function.ownReadsEach rest

end

def Code.ownReads (inside : Bool) : Code → List Use
  | expr d e => Use.ownReads inside d e.uses
  | arguments d es => Use.ownReads inside d (Expr.usesEach es)
  | stmt s => s.ownReads inside
  | body statements | unit statements => Stmt.ownReadsEach inside statements

section Parts

variable {inside : Bool} {d : Option Token} {us vs : List Use} {u : Use}

theorem Use.mem_ownReads : u ∈ Use.ownReads inside d us ↔ inside = true ∧ u ∈ us ∧ u.OwnRead d := by
  cases inside <;> simp [Use.ownReads]

theorem Use.ownReads_subset (h : us ⊆ vs) : Use.ownReads inside d us ⊆ Use.ownReads inside d vs := fun u hu => by
  rw [mem_ownReads] at hu ⊢
  exact ⟨hu.1, h hu.2.1, hu.2.2⟩

/-- Nothing is declared. -/
theorem Use.ownReads_none : Use.ownReads inside none us = [] := by
  cases inside <;> simp [Use.ownReads, OwnRead]

theorem Stmt.ownReads_value {s : Stmt} {e : Expr} (h : s.value? = some (d, e)) :
    Use.ownReads inside d e.uses ⊆ s.ownReads inside := by
  cases s with
  | var name initial =>
    obtain ⟨e, rfl, h⟩ := Option.map_eq_some_iff.mp h
    cases h
    exact List.Subset.refl _
  | expression | print | branch | loop =>
    cases h
    exact Use.ownReads_none ▸ List.nil_subset _
  | ret | classDecl =>
    obtain ⟨e, rfl, h⟩ := Option.map_eq_some_iff.mp h
    cases h
    exact Use.ownReads_none ▸ List.nil_subset _
  | block | function => cases h

theorem Stmt.ownReads_chosen {s s' : Stmt} {v : Value} (h : s.chosen? v = some s') :
    s'.ownReads inside ⊆ s.ownReads inside := by
  unfold Stmt.chosen? at h
  split at h
  · split at h
    · cases h
      exact List.subset_append_left _ _
    · subst h
      exact List.subset_append_right _ _
  · split at h <;> cases h
    exact List.Subset.refl _
  · cases h

theorem Function.ownReads_subset {f : Function} : ∀ {fs : List Function}, f ∈ fs → f.ownReads ⊆ Function.ownReadsEach fs
  | _ :: _, .head _ => List.subset_append_left _ _
  | _ :: _, .tail _ h => List.Subset.trans (ownReads_subset h) (List.subset_append_right _ _)

/-- What holds of the reads in code holds of those in the code in it, and in the functions that it declares. -/
theorem hereditary_ownReads (Q : Use → Prop) : Hereditary (fun inside code => ∀ u ∈ code.ownReads inside, Q u)
    (fun f => ∀ u ∈ f.ownReads, Q u) fun _ => True where
  first h hfirst u hu := h u (Use.ownReads_subset (Moment.uses_first hfirst) hu)
  second h hsecond u hu := h u (Use.ownReads_subset (Moment.uses_second hsecond) hu)
  arguments h u hu := h u (Use.ownReads_subset (List.subset_append_right _ _) hu)
  argument h u hu := h u (Use.ownReads_subset (List.subset_append_left _ _) hu)
  others h u hu := h u (Use.ownReads_subset (List.subset_append_right _ _) hu)
  value h hvalue u hu := h u (Stmt.ownReads_value hvalue hu)
  chosen h hchosen u hu := h u (Stmt.ownReads_chosen hchosen hu)
  block h := h
  statement h u hu := h u (List.mem_append_left _ hu)
  rest h u hu := h u (List.mem_append_right _ hu)
  function h := h
  methods h f hf u hu := h u (Function.ownReads_subset hf hu)
  body {f} h := by
    cases f
    exact h
  fault _ := trivial
  operator _ _ := trivial

end Parts

section Places

variable {c : Chart} {G : Std.ExtTreeSet String} {p : Place} {x : String}

/-- If no distance is recorded, then the name is one of these. -/
def Use.Grounded (bindings : Bindings) (names : String → Prop) (u : Use) : Prop :=
  bindings[u.id]? = none → names u.token.lexeme

theorem Use.Grounded.mono {bindings : Bindings} {names more : String → Prop} {u : Use} (h : u.Grounded bindings names)
    (hle : ∀ x, names x → more x) : u.Grounded bindings more := fun hnone => hle _ (h hnone)

/-- The name was global already, or was declared at top level before the place. -/
def Place.Knows (G : Std.ExtTreeSet String) (p : Place) (x : String) : Prop := x ∈ G ∨ x ∈ p.globals

theorem Place.knows_declare (names : List String) (h : p.Knows G x) : (p.declare names).Knows G x := by
  obtain ⟨around, locals, globals⟩ := p
  cases locals with
  | nil => exact h.imp_right (List.mem_append_right _)
  | cons scope outer => exact h

theorem Place.knows_of_declare {names : List String} (hlocal : p.locals ≠ []) (h : (p.declare names).Knows G x) :
    p.Knows G x := by
  obtain ⟨around, locals, globals⟩ := p
  cases locals with
  | nil => exact absurd rfl hlocal
  | cons scope outer => exact h

theorem Place.knows_declare_iff {names : List String} (htop : p.locals = []) :
    (p.declare names).Knows G x ↔ p.Knows G x ∨ x ∈ names := by
  obtain ⟨around, locals, globals⟩ := p
  cases htop
  simp only [Knows, declare, List.mem_append, or_assoc, or_comm (a := x ∈ names)]

/-- Where the variable is a local one, the scope of the variable does not have it yet. -/
theorem Expr.grounded_ownRead {name : Token} {e : Expr} (hfree : p.locals.Free name.lexeme)
    (hfits : e.Fits c (p.locals.own name.lexeme) p.locals)
    (hsites : ∀ site ∈ e.sites p (p.locals.own name.lexeme), site.Allowed G) :
    ∀ u ∈ Use.ownReads (!p.locals.isEmpty) (some name) e.uses, u.Grounded c.bindings (p.Knows G) := by
  intro u hu hnone
  obtain ⟨hlocal, hu, hkind, t, ht, hname⟩ := Use.mem_ownReads.mp hu
  cases ht
  obtain ⟨-, hbinding⟩ := hfits u hu
  rw [hkind] at hbinding
  dsimp only at hbinding
  cases hl : p.locals with
  | nil => simp [hl] at hlocal
  | cons scope outer =>
    have hsite : Site.ownRead u.token.lexeme outer p.globals ∈ e.sites p (p.locals.own name.lexeme) := by
      refine List.mem_filterMap.mpr ⟨u, hu, ?_⟩
      simp [Use.site?, hkind, hl, Layout.own, hname]
    rw [hl] at hfree hbinding
    rw [hnone, Layout.hops?_cons_of_not_mem (hname ▸ hfree scope rfl), eq_comm, Option.map_eq_none_iff] at hbinding
    refine (hsites _ hsite).resolve_left ?_
    rintro ⟨scope, hscope, hx⟩
    have hmissing := List.findIdx?_eq_none_iff.mp hbinding scope hscope
    simp [hx] at hmissing

mutual

/-- The name of a function is declared before its body, and that of a class before its methods. -/
theorem Stmt.grounded : ∀ (s : Stmt) {p : Place}, s.Fits c p.locals → (∀ site ∈ s.sites p, site.Allowed G) →
    ∀ u ∈ s.ownReads (!p.locals.isEmpty), u.Grounded c.bindings ((p.declare s.declares).Knows G)
  | .expression _, _, _, _ | .print _, _, _, _ | .ret _ _, _, _, _ => List.forall_mem_nil _
  | .var name initial, p, hfits, hsites => by
    intro u hu
    cases initial with
    | none =>
      have hnone := (Use.mem_ownReads.mp hu).2.1
      cases hnone
    | some e =>
      exact (Expr.grounded_ownRead hfits.1 (hfits.2 e rfl) hsites u hu).mono fun x => Place.knows_declare _
  | .block body, p, hfits, hsites => by
    rw [Stmt.sites, List.forall_mem_cons] at hsites
    exact fun u hu => (Stmt.groundedEach body (p := p.inside []) nofun hfits hsites.2 u hu).mono fun x =>
      Place.knows_declare (p := p) _
  | .branch condition yes no, p, hfits, hsites => by
    rw [Stmt.sites, List.forall_mem_append, List.forall_mem_append] at hsites
    have hyes := yes.grounded hfits.2.1 hsites.1.2
    rw [hfits.2.2.1] at hyes
    rw [Stmt.ownReads, List.forall_mem_append]
    exact ⟨hyes, Stmt.groundedOption no hfits.2.2.2 hsites.2⟩
  | .loop condition body, p, hfits, hsites => by
    rw [Stmt.sites, List.forall_mem_append] at hsites
    have hbody := body.grounded hfits.2.1 hsites.2
    rw [hfits.2.2] at hbody
    exact hbody
  | .function f, p, hfits, hsites => by
    have hlocals := Place.locals_declare [f.name.lexeme] p
    exact f.grounded (p := p.declare [f.name.lexeme]) (hlocals ▸ hfits.2) hsites
  | .classDecl name superclass methods, p, hfits, hsites => by
    rw [Stmt.sites, List.forall_mem_cons] at hsites
    have hlocals : ((p.declare [name.lexeme]).inClass superclass).locals =
        (p.locals.declare [name.lexeme]).ofClass superclass :=
      congrArg (Layout.ofClass superclass) (Place.locals_declare [name.lexeme] p)
    exact Function.groundedEach methods (p := (p.declare [name.lexeme]).inClass superclass) (hlocals ▸ hfits.2.2)
      hsites.2

/-- In a local scope. -/
theorem Stmt.groundedEach : ∀ (body : List Stmt) {p : Place}, p.locals ≠ [] → Stmt.FitsEach c p.locals body →
    (∀ site ∈ Stmt.sitesEach p body, site.Allowed G) → ∀ u ∈ Stmt.ownReadsEach true body, u.Grounded c.bindings (p.Knows G)
  | [], _, _, _, _ => List.forall_mem_nil _
  | s :: rest, p, hlocal, hfits, hsites => by
    rw [Stmt.sitesEach, List.forall_mem_append] at hsites
    have hs := s.grounded hfits.1 hsites.1
    have hlocals := Place.locals_declare s.declares p
    have hrest := Stmt.groundedEach rest (p := p.declare s.declares) (by simpa [hlocals] using hlocal)
      (hlocals ▸ hfits.2) hsites.2
    rw [List.isEmpty_eq_false_iff.mpr hlocal] at hs
    rw [Stmt.ownReadsEach, List.forall_mem_append]
    exact ⟨fun u hu => (hs u hu).mono fun x => Place.knows_of_declare hlocal,
      fun u hu => (hrest u hu).mono fun x => Place.knows_of_declare hlocal⟩

theorem Stmt.groundedOption : ∀ (s : Option Stmt) {p : Place}, Stmt.FitsOption c p.locals s →
    (∀ site ∈ Stmt.sitesOption p s, site.Allowed G) →
      ∀ u ∈ Stmt.ownReadsOption (!p.locals.isEmpty) s, u.Grounded c.bindings ((p.declare []).Knows G)
  | none, _, _, _ => List.forall_mem_nil _
  | some s, p, hfits, hsites => by
    have hs := s.grounded hfits.1 hsites
    rw [hfits.2] at hs
    exact hs

theorem Function.grounded : ∀ (f : Function) {kind : FunctionKind} {p : Place}, f.Fits c p.locals →
    (∀ site ∈ f.sites kind p, site.Allowed G) → ∀ u ∈ f.ownReads, u.Grounded c.bindings (p.Knows G)
  | .mk _ parameters body, kind, p, hfits, hsites => by
    rw [Function.sites, List.forall_mem_cons] at hsites
    exact Stmt.groundedEach body (p := p.inFunction kind (parameters.map Token.lexeme)) nofun hfits.2 hsites.2

theorem Function.groundedEach : ∀ (fs : List Function) {p : Place}, Function.FitsEach c p.locals fs →
    (∀ site ∈ Function.sitesEach p fs, site.Allowed G) → ∀ u ∈ Function.ownReadsEach fs, u.Grounded c.bindings (p.Knows G)
  | [], _, _, _ => List.forall_mem_nil _
  | f :: rest, p, hfits, hsites => by
    rw [Function.sitesEach, List.forall_mem_append] at hsites
    rw [Function.ownReadsEach, List.forall_mem_append]
    exact ⟨f.grounded hfits.1 hsites.1, Function.groundedEach rest hfits.2 hsites.2⟩

end

/-- At top level the names are those that stand before a statement, and those that it declares itself. -/
theorem Stmt.grounded_top {s : Stmt} {back : List Stmt} : ∀ (front : List Stmt) {p : Place}, p.locals = [] →
    Stmt.FitsEach c [] (front ++ s :: back) → (∀ site ∈ Stmt.sitesEach p (front ++ s :: back), site.Allowed G) →
      ∀ u ∈ s.ownReads false, u.Grounded c.bindings fun x => p.Knows G x ∨ x ∈ Stmt.declared front ∨ x ∈ s.declares
  | [], p, htop, hfits, hsites => by
    rw [List.nil_append, Stmt.sitesEach, List.forall_mem_append] at hsites
    have hs := s.grounded (htop ▸ hfits.1) hsites.1
    rw [htop] at hs
    exact fun u hu => (hs u hu).mono fun x hx => ((Place.knows_declare_iff htop).mp hx).imp_right .inr
  | first :: front, p, htop, hfits, hsites => by
    rw [List.cons_append, Stmt.sitesEach, List.forall_mem_append] at hsites
    have htop' : (p.declare first.declares).locals = [] := by
      rw [Place.locals_declare, htop]
      rfl
    refine fun u hu => (Stmt.grounded_top front htop' hfits.2 hsites.2 u hu).mono fun x hx => ?_
    rw [Place.knows_declare_iff htop, or_assoc] at hx
    rw [Stmt.declared, List.flatMap_cons, List.mem_append, or_assoc]
    exact hx

end Places

end LoxLang
