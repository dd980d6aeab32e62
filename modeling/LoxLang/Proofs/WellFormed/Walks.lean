import LoxLang.Proofs.Binding.Fits
import LoxLang.Proofs.WellFormed.Sites

/-! A walk over a program finds no fault if and only if each site of the program is allowed. -/

namespace LoxLang

open Walk

namespace Walk

/-- There are no faults behind a part of a walk if and only if there were none before it and this holds. -/
def Verdict (P : Prop) (w w' : Walk) : Prop := w'.faults = [] ↔ w.faults = [] ∧ P

namespace Verdict

variable {P Q : Prop} {us : List Use} {w w' w'' : Walk}

theorem congr (h : Verdict P w w') (hpq : P ↔ Q) : Verdict Q w w' := h.trans (and_congr_right fun _ => hpq)

theorem of_same (h : w'.faults = w.faults) (hP : P) : Verdict P w w' := by
  rw [Verdict, h, and_iff_left hP]

theorem of_fault (t : Token) (cause : BindingFault) (w : Walk) (hP : ¬ P) : Verdict P w (w.fault t cause) := by
  refine iff_of_false ?_ fun h => hP h.2
  simp [fault]

/-- Behind a fault the walk goes on, and the fault stays. -/
theorem andThen (h : Verdict P w w') (hadds : Adds us w' w'') (h' : w'.faults = [] → Verdict Q w' w'') :
    Verdict (P ∧ Q) w w'' := by
  have hprefix : w''.faults = [] → w'.faults = [] := fun hclean => List.prefix_nil.mp (hclean ▸ hadds.faults)
  constructor
  · intro hclean
    have hclean' := hprefix hclean
    obtain ⟨hfaults, hP⟩ := h.mp hclean'
    exact ⟨hfaults, hP, ((h' hclean').mp hclean).2⟩
  · rintro ⟨hfaults, hP, hQ⟩
    have hclean' := h.mpr ⟨hfaults, hP⟩
    exact (h' hclean').mpr ⟨hclean', hQ⟩

end Verdict

end Walk

variable {G : Std.ExtTreeSet String} {p : Place} {own : Option String} {w w' : Walk}

/-- The walk knows what stands around a place, perhaps in the initial value of a local variable. -/
structure Reaches (G : Std.ExtTreeSet String) (p : Place) (own : Option String) (w : Walk) : Prop where
  scopes : Shows w.scopes own p.locals
  globals : own ≠ none → ∀ x, x ∈ w.globals ↔ x ∈ G ∨ x ∈ p.globals

theorem Reaches.known (h : Reaches G p own w) (hk : w'.known = w.known) : Reaches G p own w' where
  scopes := by
    rw [show w'.scopes = w.scopes from congrArg Prod.fst hk]
    exact h.scopes
  globals := by
    rw [show w'.globals = w.globals from congrArg Prod.snd hk]
    exact h.globals

theorem Shows.tail {scopes : List Scope} {l : Layout} (h : Shows scopes own l) : Settled scopes.tail l.tail := by
  cases h with
  | settled h =>
    cases h with
    | nil => exact .nil
    | cons _ h => exact h
  | declaring h _ =>
    cases h with
    | cons _ h => exact h

theorem Layout.hops?_eq_none {x : String} {l : Layout} : l.hops? x = none ↔ ∀ scope ∈ l, x ∉ scope := by
  simp [hops?, List.findIdx?_eq_none_iff]

/-- What the rules ask of one use. -/
def Use.Allowed (G : Std.ExtTreeSet String) (p : Place) (own : Option String) (u : Use) : Prop :=
  ∀ site ∈ u.site? p own, site.Allowed G

theorem verdict_use (id : NodeId) (name : String) (w : Walk) : Verdict True w (w.use id name) := by
  refine .of_same ?_ trivial
  unfold use
  split <;> rfl

theorem verdict_read (h : Reaches G p own w) (id : NodeId) (t : Token) :
    Verdict (Use.Allowed G p own ⟨.read, id, t⟩) w (w.read id t) := by
  have hi := h.scopes.isInitializing t.lexeme
  unfold Walk.read
  by_cases hown : own = some t.lexeme
  · subst hown
    have hallowed : Use.Allowed G p (some t.lexeme) ⟨.read, id, t⟩ ↔
        (∃ scope ∈ p.locals.tail, t.lexeme ∈ scope) ∨ t.lexeme ∈ G ∨ t.lexeme ∈ p.globals := by
      simp [Use.Allowed, Use.site?, Site.Allowed]
    refine Verdict.congr ?_ hallowed.symm
    rw [hi, decide_eq_true rfl, if_pos rfl, h.scopes.tail.distance]
    cases hd : Layout.hops? t.lexeme p.locals.tail with
    | some d =>
      refine .of_same rfl (.inl ?_)
      by_contra hnone
      push Not at hnone
      rw [Layout.hops?_eq_none.mpr hnone] at hd
      cases hd
    | none =>
      have hnone := Layout.hops?_eq_none.mp hd
      dsimp only
      split
      · rename_i hg
        exact .of_same rfl (.inr ((h.globals nofun _).mp (Std.ExtTreeSet.contains_iff_mem.mp hg)))
      · rename_i hg
        refine .of_fault _ _ _ ?_
        rintro (⟨scope, hscope, hmem⟩ | hglobal)
        · exact hnone scope hscope hmem
        · exact hg (Std.ExtTreeSet.contains_iff_mem.mpr ((h.globals nofun _).mpr hglobal))
  · rw [hi, decide_eq_false hown, if_neg Bool.false_ne_true]
    refine (verdict_use id t.lexeme w).congr (iff_of_true trivial ?_)
    simp [Use.Allowed, Use.site?, hown]

theorem verdict_self (id : NodeId) (t : Token) : Verdict (Use.Allowed G p own ⟨.self, id, t⟩) w (w.self p.around id t) := by
  have hallowed : Use.Allowed G p own ⟨.self, id, t⟩ ↔ p.around.cls ≠ .none := by
    simp [Use.Allowed, Use.site?, Site.Allowed]
  refine Verdict.congr ?_ hallowed.symm
  unfold Walk.self
  split
  · rename_i hcls
    exact .of_fault _ _ _ fun hne => hne hcls
  · rename_i hcls
    exact (verdict_use id t.lexeme w).congr (iff_of_true trivial hcls)

theorem verdict_inherited (id : NodeId) (t : Token) :
    Verdict (Use.Allowed G p own ⟨.inherited, id, t⟩) w (w.inherited p.around id t) := by
  have hallowed : Use.Allowed G p own ⟨.inherited, id, t⟩ ↔ p.around.cls = .derived := by
    simp [Use.Allowed, Use.site?, Site.Allowed]
  refine Verdict.congr ?_ hallowed.symm
  unfold Walk.inherited
  split
  · rename_i hcls
    exact .of_fault _ _ _ fun h => by rw [hcls] at h; cases h
  · rename_i hcls
    exact .of_fault _ _ _ fun h => by rw [hcls] at h; cases h
  · rename_i hcls
    exact (verdict_use id t.lexeme w).congr (iff_of_true trivial hcls)

/-- Two parts of a walk, over an expression each. -/
theorem Walk.Verdict.both {us vs : List Use} {w'' : Walk} (h : Verdict (∀ u ∈ us, u.Allowed G p own) w w')
    (hadds : Adds vs w' w'') (h' : Verdict (∀ u ∈ vs, u.Allowed G p own) w' w'') :
    Verdict (∀ u ∈ us ++ vs, u.Allowed G p own) w w'' :=
  (h.andThen hadds fun _ => h').congr List.forall_mem_append.symm

mutual

theorem Expr.verdict_resolve : ∀ (e : Expr) {w : Walk}, Reaches G p own w →
    Verdict (∀ u ∈ e.uses, u.Allowed G p own) w (e.resolve p.around w)
  | .literal _, _, _ => .of_same rfl nofun
  | .grouping inner, _, h => inner.verdict_resolve h
  | .unary _ operand, _, h => operand.verdict_resolve h
  | .binary left _ right, w, h | .logical left _ right, w, h =>
    (left.verdict_resolve h).both (right.adds_resolve _ _)
      (right.verdict_resolve (h.known (left.known_resolve p.around w)))
  | .read id name, _, h => (verdict_read h id name).congr List.forall_mem_singleton.symm
  | .assign id name value, w, h => by
    have hassign : Use.Allowed G p own ⟨.assign, id, name⟩ := nofun
    refine ((value.verdict_resolve h).andThen (adds_use .assign name id name.lexeme _) fun _ =>
      verdict_use id name.lexeme _).congr ?_
    rw [and_iff_left trivial, uses, List.forall_mem_cons, and_iff_right hassign]
  | .call callee _ arguments, w, h =>
    (callee.verdict_resolve h).both (Expr.adds_resolveEach _ arguments _)
      (Expr.verdict_resolveEach arguments (h.known (callee.known_resolve p.around w)))
  | .get object _, _, h => object.verdict_resolve h
  | .set object _ value, w, h => by
    refine ((value.verdict_resolve h).both (object.adds_resolve _ _)
      (object.verdict_resolve (h.known (value.known_resolve p.around w)))).congr ?_
    rw [uses, List.forall_mem_append, List.forall_mem_append]
    exact and_comm
  | .self id keyword, _, _ => (verdict_self id keyword).congr List.forall_mem_singleton.symm
  | .inherited id keyword _, _, _ => (verdict_inherited id keyword).congr List.forall_mem_singleton.symm

theorem Expr.verdict_resolveEach : ∀ (es : List Expr) {w : Walk}, Reaches G p own w →
    Verdict (∀ u ∈ Expr.usesEach es, u.Allowed G p own) w (Expr.resolveEach p.around es w)
  | [], _, _ => .of_same rfl nofun
  | e :: rest, w, h =>
    (e.verdict_resolve h).both (Expr.adds_resolveEach _ rest _)
      (Expr.verdict_resolveEach rest (h.known (e.known_resolve p.around w)))

end

theorem forall_mem_sites {us : List Use} {P : Site → Prop} :
    (∀ site ∈ us.filterMap (Use.site? p own), P site) ↔ ∀ u ∈ us, ∀ site ∈ u.site? p own, P site := by
  simp only [List.mem_filterMap, Option.mem_def]
  exact ⟨fun h u hu site hsite => h site ⟨u, hu, hsite⟩, fun h site ⟨u, hu, hsite⟩ => h u hu site hsite⟩

theorem Expr.verdict (e : Expr) (h : Reaches G p own w) :
    Verdict (∀ site ∈ e.sites p own, site.Allowed G) w (e.resolve p.around w) :=
  (e.verdict_resolve h).congr forall_mem_sites.symm

theorem Expr.verdict_option (e : Option Expr) (h : Reaches G p own w) :
    Verdict (∀ site ∈ Expr.sitesOption p own e, site.Allowed G) w (Expr.resolveOption p.around e w) := by
  cases e with
  | none => exact .of_same rfl nofun
  | some e => exact e.verdict h

end LoxLang
