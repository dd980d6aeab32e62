import LoxLang.Proofs.Binding.Walks

/-! How the scopes that a walk keeps show a layout, and how a walk without faults is taken apart: each recorded
distance can be read off at its own use. -/

namespace LoxLang

open Walk

/-- The scope has just these names, all of them defined. -/
def Scope.Shows (s : Scope) (names : List String) : Prop :=
  ∀ x, s[x]? = if x ∈ names then some .defined else none

/-- Between statements each open scope has the names of the layout. -/
abbrev Settled (scopes : List Scope) (l : Layout) : Prop := List.Forall₂ Scope.Shows scopes l

/-- Inside the initial value of a local name the innermost scope has that name besides, declared and no more. -/
inductive Shows : List Scope → Option String → Layout → Prop
  | settled {scopes : List Scope} {l : Layout} : Settled scopes l → Shows scopes none l
  | declaring {s : Scope} {scopes : List Scope} {names : List String} {l : Layout} {x : String} :
    Settled (s :: scopes) (names :: l) → x ∉ names → Shows (s.insert x .declared :: scopes) (some x) (names :: l)

theorem Scope.Shows.contains {s : Scope} {names : List String} (h : s.Shows names) (x : String) :
    s.contains x = decide (x ∈ names) := by
  rw [Std.ExtTreeMap.contains_eq_isSome_getElem?, h x]
  split <;> simp_all

theorem Scope.Shows.insert {s : Scope} {names more : List String} (h : s.Shows names) {x : String}
    (hm : ∀ y, y ∈ more ↔ y = x ∨ y ∈ names) : Scope.Shows (s.insert x .defined) more := by
  intro y
  rw [Std.ExtTreeMap.getElem?_insert, h y]
  by_cases hxy : x = y
  · simp [hxy, (hm y).mpr (.inl hxy.symm)]
  · simp [hxy, hm y, Ne.symm hxy]

theorem Settled.distance {scopes : List Scope} {l : Layout} (h : Settled scopes l) (x : String) :
    distance? x scopes = l.hops? x := by
  induction h with
  | nil => rfl
  | cons hs _ ih =>
    rw [Layout.hops?_cons, ← ih, distance?, List.findIdx?_cons, hs.contains x]
    simp only [decide_eq_true_eq, distance?]

namespace Shows

variable {scopes : List Scope} {own : Option String} {l : Layout}

theorem distance (h : Shows scopes own l) (y : String) :
    distance? y scopes = if own = some y then some 0 else l.hops? y := by
  cases h with
  | settled h => rw [h.distance, if_neg (by simp)]
  | @declaring s scopes names l x h hx =>
    rw [← h.distance, distance?, distance?, List.findIdx?_cons, List.findIdx?_cons, Std.ExtTreeMap.contains_insert]
    by_cases hxy : x = y <;> simp [hxy]

theorem isInitializing {w : Walk} (h : Shows w.scopes own l) (y : String) :
    w.isInitializing y = decide (own = some y) := by
  unfold Walk.isInitializing
  generalize w.scopes = ss at h
  cases h with
  | @settled _ l h =>
    cases h with
    | nil => rfl
    | @cons s names rest l hs _ =>
      simp only [hs y]
      split <;> simp
  | @declaring s scopes names l x h hx =>
    cases h with
    | cons hs _ =>
      simp only [Std.ExtTreeMap.getElem?_insert, hs y]
      by_cases hxy : x = y
      · simp [hxy]
      · simp only [Std.compare_eq_iff_eq, hxy, if_false, Option.some.injEq, decide_false]
        split <;> simp

/-- Where the innermost scope does not count, the nearest declaration is as many scopes out as in the layout. -/
theorem hops_of_own {y : String} (h : Shows scopes (some y) l) :
    l.hops? y = (distance? y scopes.tail).map (· + 1) := by
  cases h with
  | declaring h hy =>
    cases h with
    | cons _ h => rw [Layout.hops?_cons_of_not_mem hy, List.tail_cons, Settled.distance h]

end Shows


/-- A walk without faults over uses that nothing was recorded for, and whose distances a chart has. None of the
uses breaks what a plain chart says of the initial value they stand in. -/
structure Charted (c : Chart) (own : Option String) (us : List Use) (w w' : Walk) : Prop where
  nodup : (us.map Use.id).Nodup
  proper : ∀ u ∈ us, u.Proper
  fresh : ∀ u ∈ us, w.bindings[u.id]? = none
  clean : w'.faults = []
  known : ∀ u ∈ us, u.id < c.limit ∧ c.bindings[u.id]? = w'.bindings[u.id]?
  plain : c.plain = true → ∀ u ∈ us, u.kind = .assign → own ≠ some u.token.lexeme

namespace Charted

variable {c : Chart} {own : Option String} {us vs : List Use} {w w' w'' : Walk}

theorem perm (h : Charted c own us w w') (hp : us.Perm vs) : Charted c own vs w w' where
  nodup := (hp.map Use.id).nodup_iff.mp h.nodup
  proper u hu := h.proper u (hp.mem_iff.mpr hu)
  fresh u hu := h.fresh u (hp.mem_iff.mpr hu)
  clean := h.clean
  known u hu := h.known u (hp.mem_iff.mpr hu)
  plain hc u hu := h.plain hc u (hp.mem_iff.mpr hu)

/-- Each of two walks in a row is charted for the uses it passes. -/
theorem split (h : Charted c own (us ++ vs) w w'') (h₁ : Adds us w w') (h₂ : Adds vs w' w'') :
    Charted c own us w w' ∧ Charted c own vs w' w'' := by
  have hn := h.nodup
  rw [List.map_append, List.nodup_append] at hn
  obtain ⟨hus, hvs, hdisjoint⟩ := hn
  have apart : ∀ u ∈ us, u.id ∉ vs.map Use.id := fun u hu hv =>
    hdisjoint _ (List.mem_map_of_mem hu) _ hv rfl
  have apart' : ∀ v ∈ vs, v.id ∉ us.map Use.id := fun v hv hu =>
    hdisjoint _ hu _ (List.mem_map_of_mem hv) rfl
  constructor
  · refine ⟨hus, fun u hu => h.proper u (by simp [hu]), fun u hu => h.fresh u (by simp [hu]), ?_, fun u hu => ?_,
      fun hc u hu => h.plain hc u (by simp [hu])⟩
    · have := h₂.faults
      rw [h.clean] at this
      exact List.prefix_nil.mp this
    · obtain ⟨hl, hb⟩ := h.known u (by simp [hu])
      exact ⟨hl, by rw [hb, h₂.elsewhere _ (apart u hu)]⟩
  · refine ⟨hvs, fun v hv => h.proper v (by simp [hv]), fun v hv => ?_, h.clean,
      fun v hv => h.known v (by simp [hv]), fun hc v hv => h.plain hc v (by simp [hv])⟩
    rw [h₁.elsewhere _ (apart' v hv)]
    exact h.fresh v (by simp [hv])

/-- A step that passes no use in front of a walk. -/
theorem after (h : Charted c own us w w'') (h₁ : Adds [] w w') : Charted c own us w' w'' :=
  { h with fresh := fun u hu => by rw [h₁.elsewhere u.id (by simp)]; exact h.fresh u hu }

/-- A step that passes no use behind a walk. -/
theorem before (h : Charted c own us w w'') (h₂ : Adds [] w' w'') : Charted c own us w w' := by
  have hclean := h₂.faults
  rw [h.clean] at hclean
  exact { h with
    clean := List.prefix_nil.mp hclean
    known := fun u hu => ⟨(h.known u hu).1, by rw [(h.known u hu).2, h₂.elsewhere u.id (by simp)]⟩ }

theorem inScope {names : List String} {walk : Walk → Walk} (h : Charted c own us w (w.inScope names walk)) :
    Charted c own us { w with scopes := names.foldl (fun (s : Scope) name => s.insert name .defined) ∅ :: w.scopes }
      (walk { w with scopes := names.foldl (fun (s : Scope) name => s.insert name .defined) ∅ :: w.scopes }) :=
  ⟨h.nodup, h.proper, h.fresh, h.clean, h.known, h.plain⟩

/-- Where no use assigns the name, the walk may be seen as one over its initial value. -/
theorem inside (h : Charted c none us w w') {x : Option String}
    (hx : c.plain = true → ∀ u ∈ us, u.kind = .assign → x ≠ some u.token.lexeme) : Charted c x us w w' :=
  { h with plain := hx }

theorem clean_before (h : Charted c own us w w') (h₁ : Adds vs w w') : w.faults = [] := by
  have := h₁.faults
  rw [h.clean] at this
  exact List.prefix_nil.mp this

end Charted

end LoxLang
