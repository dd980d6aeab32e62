import LoxLang.Proofs.Classes.Operations

/-! The invariant of classes along a run, moment by moment: what begins in a lawful place leads to lawful machines, and
so whatever begins after it stands in a lawful place too. -/

namespace LoxLang

open Frames Run

namespace Code

def uses : Code → List Use
  | expr _ e => e.uses
  | arguments _ es => Expr.usesEach es
  | stmt s => s.uses
  | body statements | unit statements => Stmt.usesEach statements

/-- The uses that belong to the class around. -/
def ownUses : Code → List Use
  | expr _ e => e.uses
  | arguments _ es => Expr.usesEach es
  | stmt s => s.ownUses
  | body statements | unit statements => Stmt.ownUsesEach statements

def Tidy : Code → Prop
  | expr _ _ | arguments _ _ => True
  | stmt s => s.Tidy
  | body statements | unit statements => Stmt.TidyEach statements

/-- Code as the grammar and the walk let it be, in a place of a layout with a class around. -/
structure Sits (c : Chart) (l : Layout) (around : Option Enclosure) (code : Code) : Prop where
  fits : code.Fits c l
  tidy : code.Tidy
  proper : ∀ u ∈ code.uses, u.Proper
  owned : Owned around code.ownUses

variable {c : Chart} {l : Layout} {around : Option Enclosure} {d : Option Token} {e e' : Expr} {s s' : Stmt}

/-- Code inside other code, whose uses are among those of the other. -/
theorem Sits.part {code code' : Code} (h : code.Sits c l around) {l' : Layout} (hfits : code'.Fits c l')
    (htidy : code'.Tidy) (huses : code'.uses ⊆ code.uses) (hown : code'.ownUses ⊆ code.ownUses) :
    code'.Sits c l' around := ⟨hfits, htidy, fun u hu => h.proper u (huses hu), h.owned.mono hown⟩

theorem Sits.operand (h : (expr d e).Sits c l around) (hs : e'.uses ⊆ e.uses) : (expr d e').Sits c l around :=
  h.part (Moment.fits_part h.fits hs) trivial hs hs

theorem Sits.arguments {callee : Expr} {paren : Token} {es : List Expr}
    (h : (expr d (.call callee paren es)).Sits c l around) : (Code.arguments d es).Sits c l around := by
  have hs : Expr.usesEach es ⊆ (Expr.call callee paren es).uses := by simp [Expr.uses]
  exact h.part (Moment.fits_arguments h.fits) trivial hs hs

theorem Sits.argument {es : List Expr} (h : (Code.arguments d (e :: es)).Sits c l around) :
    (expr d e).Sits c l around := by
  have hs : e.uses ⊆ Expr.usesEach (e :: es) := by simp [Expr.usesEach]
  exact h.part ⟨h.fits.1, h.fits.2 e List.mem_cons_self⟩ trivial hs hs

theorem Sits.others {es : List Expr} (h : (Code.arguments d (e :: es)).Sits c l around) :
    (Code.arguments d es).Sits c l around := by
  have hs : Expr.usesEach es ⊆ Expr.usesEach (e :: es) := by simp [Expr.usesEach]
  exact h.part ⟨h.fits.1, fun e' he' => h.fits.2 e' (List.mem_cons_of_mem _ he')⟩ trivial hs hs

theorem uses_value (h : s.value? = some (d, e)) : e.uses ⊆ s.uses ∧ e.uses ⊆ s.ownUses := by
  unfold Stmt.value? at h
  split at h
  iterate 4
    · cases h
      simp [Stmt.uses, Stmt.ownUses]
  iterate 2
    · obtain ⟨e', rfl, h⟩ := Option.map_eq_some_iff.mp h
      cases h
      simp [Stmt.uses, Stmt.ownUses, Expr.usesOption]
  · obtain ⟨u, rfl, h⟩ := Option.map_eq_some_iff.mp h
    cases h
    simp [Stmt.uses, Stmt.ownUses, Expr.uses, NameUse.expr, NameUse.use]
  · cases h
  · cases h

theorem Sits.value (h : (stmt s).Sits c l around) (hv : s.value? = some (d, e)) : (expr d e).Sits c l around :=
  h.part (Moment.fits_value h.fits hv) trivial (uses_value hv).1 (uses_value hv).2

theorem Sits.chosen (h : (stmt s).Sits c l around) {v : Value} (hv : s.chosen? v = some s') :
    (stmt s').Sits c l around := by
  have hfits := Moment.fits_chosen h.fits hv
  have htidy := h.tidy
  unfold Stmt.chosen? at hv
  split at hv
  · split at hv
    · cases hv
      exact h.part hfits htidy.1 (by simp [uses, Stmt.uses]) (by simp [ownUses, Stmt.ownUses])
    · subst hv
      exact h.part hfits htidy.2.2.1 (by simp [uses, Stmt.uses, Stmt.usesOption])
        (by simp [ownUses, Stmt.ownUses, Stmt.ownUsesOption])
  · split at hv <;> cases hv
    exact h.part hfits htidy.1 (by simp [uses, Stmt.uses]) (by simp [ownUses, Stmt.ownUses])
  · cases hv

theorem Sits.block {body : List Stmt} (h : (stmt (.block body)).Sits c l around) :
    (Code.body body).Sits c ([] :: l) around :=
  h.part h.fits h.tidy (by simp [uses, Stmt.uses]) (by simp [ownUses, Stmt.ownUses])

theorem Sits.statement {body : List Stmt} (h : (Code.body (s :: body)).Sits c l around) :
    (stmt s).Sits c l around :=
  h.part h.fits.1 h.tidy.1 (by simp [uses, Stmt.usesEach]) (by simp [ownUses, Stmt.ownUsesEach])

theorem Sits.rest {body : List Stmt} (h : (Code.body (s :: body)).Sits c l around) :
    (Code.body body).Sits c (l.declare s.declares) around :=
  h.part h.fits.2 h.tidy.2 (by simp [uses, Stmt.usesEach]) (by simp [ownUses, Stmt.ownUsesEach])

/-- At top level a unit is a body whose declarations leave the layout as it is. -/
theorem Sits.ofUnit {statements : List Stmt} (h : (Code.unit statements).Sits c l around) :
    (Code.body statements).Sits c l around := h.part (h.fits.1 ▸ h.fits.2) h.tidy (fun _ hu => hu) fun _ hu => hu

theorem Sits.next {statements : List Stmt} (h : (Code.unit (s :: statements)).Sits c l around) :
    (Code.unit statements).Sits c l around :=
  h.part ⟨h.fits.1, h.fits.2.2⟩ h.tidy.2 (by simp [uses, Stmt.usesEach]) (by simp [ownUses, Stmt.ownUsesEach])

end Code

/-- The moment is one of the past, and its code sits in the place where the program stands on a lawful machine. -/
structure Moment.Lawful (past : Moment → Prop) (c : Chart) (l : Layout) (around : Option Enclosure) (k : Moment) :
    Prop where
  reached : past k
  machine : k.machine.Lawful past c
  stands : Enclosed past k.machine.store k.machine.globals k.machine.current l around
  plain : ∀ scope ∈ l.head?, ∀ x ∈ scope, x ∉ reserved
  code : k.code.Sits c l around

/-- What a moment leads to is of the past if the moment is. -/
def Timeline (past : Moment → Prop) : Prop := ∀ k k' : Moment, past k → k.Starts k' → past k'

namespace Moment.Lawful

variable {past : Moment → Prop} {c : Chart} {l : Layout} {around : Option Enclosure} {k k' : Moment}

/-- The program stands in the same place. -/
theorem later (hk : k.Lawful past c l around) (h : past k') (hleads : k.machine.Leads past c k'.machine)
    (hcode : k'.code.Sits c l around) : k'.Lawful past c l around :=
  ⟨h, hleads.lawful, hleads.enclosed hk.stands, hk.plain, hcode⟩

section Steps

variable {n : Nat} {d : Option Token} {e e' e'' : Expr} {es : List Expr} {s s' : Stmt} {body : List Stmt} {v : Value}
  {m m' : Machine} (hpast : Timeline past)

include hpast

theorem first (hk : Lawful past c l around ⟨n + 1, .expr d e, m⟩) (he : e.first? = some e') :
    Lawful past c l around ⟨n, .expr d e', m⟩ :=
  hk.later (hpast _ _ hk.reached (.first he)) (.refl hk.machine) (hk.code.operand (uses_first he))

theorem second (hk : Lawful past c l around ⟨n + 1, .expr d e, m⟩) (he : e.first? = some e')
    (heval : eval n e' m = .ok v m') (h : m.Leads past c m') (he' : e.second? v = some e'') :
    Lawful past c l around ⟨n, .expr d e'', m'⟩ :=
  hk.later (hpast _ _ hk.reached (.second he heval he')) h (hk.code.operand (uses_second he'))

theorem arguments {paren : Token} (hk : Lawful past c l around ⟨n + 1, .expr d (.call e paren es), m⟩)
    (heval : eval n e m = .ok v m') (h : m.Leads past c m') : Lawful past c l around ⟨n, .arguments d es, m'⟩ :=
  hk.later (hpast _ _ hk.reached (.arguments heval)) h hk.code.arguments

theorem argument (hk : Lawful past c l around ⟨n, .arguments d (e :: es), m⟩) :
    Lawful past c l around ⟨n, .expr d e, m⟩ :=
  hk.later (hpast _ _ hk.reached .argument) (.refl hk.machine) hk.code.argument

theorem others (hk : Lawful past c l around ⟨n, .arguments d (e :: es), m⟩) (heval : eval n e m = .ok v m')
    (h : m.Leads past c m') : Lawful past c l around ⟨n, .arguments d es, m'⟩ :=
  hk.later (hpast _ _ hk.reached (.others heval)) h hk.code.others

theorem value (hk : Lawful past c l around ⟨n + 1, .stmt s, m⟩) (hv : s.value? = some (d, e)) :
    Lawful past c l around ⟨n, .expr d e, m⟩ :=
  hk.later (hpast _ _ hk.reached (.value hv)) (.refl hk.machine) (hk.code.value hv)

theorem chosen (hk : Lawful past c l around ⟨n + 1, .stmt s, m⟩) (hv : s.value? = some (d, e))
    (heval : eval n e m = .ok v m') (h : m.Leads past c m') (hs : s.chosen? v = some s') :
    Lawful past c l around ⟨n, .stmt s', m'⟩ :=
  hk.later (hpast _ _ hk.reached (.chosen hv heval hs)) h (hk.code.chosen hs)

theorem again {m'' : Machine} (hk : Lawful past c l around ⟨n + 1, .stmt (.loop e s), m⟩)
    (heval : eval n e m = .ok v m') (htrue : v.truthy = true) (hexec : exec n s m' = .ok .normal m'')
    (h : m.Leads past c m'') : Lawful past c l around ⟨n, .stmt (.loop e s), m''⟩ :=
  hk.later (hpast _ _ hk.reached (.again heval htrue hexec)) h hk.code

theorem block (hk : Lawful past c l around ⟨n + 1, .stmt (.block body), m⟩) :
    Lawful past c ([] :: l) around ⟨n, .body body, m.enter m.current ∅⟩ where
  reached := hpast _ _ hk.reached .block
  machine := hk.machine.enter _ _
  stands := .scope ((outer?_add ..).trans (if_pos rfl)) nofun
    (hk.stands.lasts (Store.lasts_addFrame ..) fun _ h => h)
  plain := by simp
  code := hk.code.block

theorem statement (hk : Lawful past c l around ⟨n, .body (s :: body), m⟩) : Lawful past c l around ⟨n, .stmt s, m⟩ :=
  hk.later (hpast _ _ hk.reached .statement) (.refl hk.machine) hk.code.statement

/-- Behind a statement the names that it declares are in the innermost scope. -/
theorem rest (hk : Lawful past c l around ⟨n, .body (s :: body), m⟩) (hexec : exec n s m = .ok .normal m')
    (h : m.Leads past c m') : Lawful past c (l.declare s.declares) around ⟨n, .body body, m'⟩ where
  reached := hpast _ _ hk.reached (.rest hexec)
  machine := h.lawful
  stands := (h.enclosed hk.stands).declare hk.code.tidy.1.declares_not_reserved hk.plain
  plain := by
    have hdeclares := hk.code.tidy.1.declares_not_reserved
    have hplain := hk.plain
    cases l with
    | nil => nofun
    | cons scope outer =>
      intro scope' hscope' x hx
      cases hscope'
      exact (List.mem_append.mp hx).elim (hdeclares x) (hplain scope rfl x)
  code := hk.code.rest

end Steps

/-- The body of a function that sits in its frames, with the parameters in a scope of their own. -/
theorem inside {n : Nat} {f : Closure FrameId} {m : Machine} {names : Names} (hm : m.Lawful past c)
    (hl : Enclosed past (m.enter f.home names).store m.globals f.home l around) (hf : f.declared.Sits c l around)
    (h : past ⟨n, .body f.declared.body, m.enter f.home names⟩) :
    Lawful past c (f.declared.parameters.map Token.lexeme :: l) around
      ⟨n, .body f.declared.body, m.enter f.home names⟩ := by
  obtain ⟨⟨name, parameters, body⟩, home, isInitializer⟩ := f
  obtain ⟨hfits, htidy, hproper, howned⟩ := hf
  have hscope : ∀ x ∈ parameters.map Token.lexeme, x ∉ reserved := by
    intro x hx
    obtain ⟨t, ht, rfl⟩ := List.mem_map.mp hx
    exact htidy.1 t ht
  refine ⟨h, hm.enter _ _, .scope ((outer?_add ..).trans (if_pos rfl)) hscope hl, ?_, hfits.2, htidy.2, hproper, howned⟩
  intro scope hs
  cases hs
  exact hscope

theorem called {n : Nat} {f : Closure FrameId} {m : Machine} (hm : m.Lawful past c) (hf : f.Sits past c m.globals m.store)
    {names : Names} (h : past ⟨n, .body f.declared.body, m.enter f.home names⟩) :
    ∃ l around, Lawful past c l around ⟨n, .body f.declared.body, m.enter f.home names⟩ := by
  obtain ⟨l, around, hl, hsits⟩ := hf
  exact ⟨_, around, inside hm (hl.lasts (Store.lasts_addFrame ..) fun _ h => h) hsits h⟩

end Moment.Lawful

end LoxLang
