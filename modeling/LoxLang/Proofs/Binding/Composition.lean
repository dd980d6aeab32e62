import LoxLang.Proofs.Binding.Balance
import LoxLang.Proofs.Counting.Gaps
import LoxLang.Proofs.WellFormed.Sites

/-! Two walks over the same part of a program, of which the second comes from a place with the same scopes and global names,
but has met faults and found distances before. It adds the faults that the first adds. -/

namespace LoxLang

namespace Walk

/-- The second walk knows what the first knows, and has met some faults before. -/
structure Follows (earlier : List Diagnostic) (w v : Walk) : Prop where
  scopes : v.scopes = w.scopes
  globals : v.globals = w.globals
  faults : v.faults = earlier ++ w.faults

namespace Follows

variable {earlier : List Diagnostic} {w v : Walk} (h : Follows earlier w v)

/-- A walk that begins anew, and one that is already there. -/
theorem start (h : v.scopes = []) : Follows v.faults (.start v.globals) v := ⟨h, rfl, (List.append_nil _).symm⟩

include h

theorem fault (t : Token) (cause : BindingFault) : Follows earlier (w.fault t cause) (v.fault t cause) := by
  refine ⟨h.scopes, h.globals, ?_⟩
  simp only [Walk.fault, h.faults, List.append_assoc]

end Follows

theorem bond_follows (earlier : List Diagnostic) : Bond .still (fun _ => True) (Follows earlier) where
  scopes h := h.scopes
  rescope h ss := ⟨rfl, h.globals, h.faults⟩
  global h x := ⟨h.scopes, congrArg (·.insert x) h.globals, h.faults⟩
  fault h t cause _ := h.fault t cause
  record h _ _ d := ⟨h.scopes, h.globals, h.faults⟩
  missing h u _ := by
    rw [h.globals]
    split
    · exact h
    · exact h.fault u.token _

end Walk

open Walk

/-- The faults of a program walked in two parts. -/
theorem resolutionFaults_append (globals : Std.ExtTreeSet String) (first second : List Stmt) :
    resolutionFaults globals (first ++ second) =
      resolutionFaults globals first ++ resolutionFaults (globals.insertMany (first.flatMap Stmt.gives)) second := by
  set between := Stmt.resolveEach .topLevel first (.start globals) with hbetween
  obtain ⟨hscopes, hglobals⟩ : between.scopes = [] ∧ between.globals = globals.insertMany (first.flatMap Stmt.gives) :=
    Prod.mk.inj (Stmt.known_resolveEach first (.start globals))
  have hrest : Follows between.faults (Stmt.resolveEach .topLevel second (.start between.globals))
      (Stmt.resolveEach .topLevel second between) := by
    have hbond := (bond_follows between.faults).stmts .topLevel second (fun _ _ => trivial) (.start hscopes)
    rwa [Stmt.relabelEach_still] at hbond
  rw [hglobals] at hrest
  rw [resolutionFaults_eq, resolutionFaults_eq, resolutionFaults_eq, Stmt.resolveEach_append, ← hbetween, hrest.faults]

/-- The state of a walker behind a part of a program that gives some names and passes some uses. -/
structure Walker.Balanced (names : List String) (us : List Use) (r r' : Walker) : Prop where
  function : r'.around.function = r.around.function
  cls : r'.around.cls = r.around.cls
  depth : r'.walk.scopes.length = r.walk.scopes.length
  below : r'.walk.scopes.tail = r.walk.scopes.tail
  /-- The innermost scope has got the given names, and keeps all others as they were. -/
  innermost : ∀ scope ∈ r.walk.scopes.head?, ∀ scope' ∈ r'.walk.scopes.head?, ∀ x : String,
    scope'[x]? = if x ∈ names then some .defined else scope[x]?
  globals : ∀ x, x ∈ r'.walk.globals ↔ x ∈ r.walk.globals ∨ r.walk.scopes = [] ∧ x ∈ names
  faults : r.walk.faults <+: r'.walk.faults
  /-- A node that is not one of those passed keeps its distance, or has none as before. -/
  elsewhere : ∀ id ∉ us.map Use.id, r'.walk.bindings[id]? = r.walk.bindings[id]?

namespace Walker

theorem balanced {names : List String} {us : List Use} {w w' : Walk} {around : Surroundings}
    (hknown : w'.known = Walk.give names w.known) (hadds : Adds us w w') :
    Balanced names us ⟨w, around⟩ ⟨w', around⟩ := by
  obtain ⟨hscopes, hglobals⟩ := Prod.mk.inj hknown
  refine ⟨rfl, rfl, ?_, ?_, ?_, ?_, hadds.faults, hadds.elsewhere⟩
  · rw [hscopes]
    exact length_give
  · rw [hscopes]
    exact tail_give
  · intro scope h scope' h'
    rw [hscopes] at h'
    exact getElem?_head_give h h'
  · intro x
    rw [hglobals]
    exact mem_globals_give

theorem balanced_expr (e : Expr) (r : Walker) : Balanced [] e.uses r (e.visit r) := by
  rw [e.visit_eq]
  have hknown := (e.known_resolve r.around r.walk).trans (give_nil _).symm
  exact balanced hknown (e.adds_resolve r.around r.walk)

theorem balanced_stmt (s : Stmt) (r : Walker) : Balanced s.gives s.uses r (s.visit r) := by
  rw [s.visit_eq]
  exact balanced (s.known_resolve r.walk) (s.adds_resolve r.around r.walk)

end Walker

theorem resolve_eq_visit (globals : Std.ExtTreeSet String) (statements : List Stmt) :
    resolve globals statements =
      let r := Stmt.visitEach statements ⟨.start globals, .topLevel⟩
      if r.walk.faults.isEmpty then .ok r.walk.bindings else .error r.walk.faults := by
  rw [Stmt.visitEach_eq]
  rfl

/-- In a program as it is read, a statement gives the names that it declares, and has other nodes than those before. -/
theorem Parsed.apart_of_program {lenient : Bool} {source : String} {nextId : NodeId} {first second : List Stmt}
    (hread : (Parsed.ofSource (Parsed.program lenient) source nextId).result = .ok (first ++ second)) :
    first.flatMap Stmt.gives = Stmt.declared first ∧
      ∀ u ∈ Stmt.usesEach first, u.id ∉ (Stmt.usesEach second).map Use.id := by
  have hmade := Parsed.made_of_program.2 _ hread
  constructor
  · refine List.flatMap_congr fun s hs => ?_
    exact (Stmt.tidyEach_iff.mp hmade.tidy s (List.mem_append_left _ hs)).gives
  · intro u hu hlater
    have hnodup := hmade.uses.nodup
    rw [Stmt.usesEach_append, List.map_append, List.nodup_append] at hnodup
    exact hnodup.2.2 _ (List.mem_map_of_mem hu) _ hlater rfl

/-- The resolver walks with the kinds of the function and the class around in its state. Walking an expression or a
statement from any state, and whatever faults it finds, it ends with both kinds, the number of scopes and all scopes below
the innermost one as they were. The innermost scope keeps its names and gets those that the statement gives, an expression
giving none; outside all scopes they become global. Faults are only added at the end, and all nodes but those walked keep
what is recorded for them. So the faults of two programs in a row are those of the first, and behind them those of the
second where the names that the first gives are global already. In a program as it is read, these are the names that the
first part declares, and what is recorded for the nodes of earlier statements stays. -/
theorem walk_balanced :
    (∀ (e : Expr) (r : Walker), Walker.Balanced [] e.uses r (e.visit r)) ∧
    (∀ (s : Stmt) (r : Walker), Walker.Balanced s.gives s.uses r (s.visit r)) ∧
    (∀ globals statements, resolve globals statements =
      let r := Stmt.visitEach statements ⟨.start globals, .topLevel⟩
      if r.walk.faults.isEmpty then .ok r.walk.bindings else .error r.walk.faults) ∧
    (∀ globals first second, resolutionFaults globals (first ++ second) =
      resolutionFaults globals first ++ resolutionFaults (globals.insertMany (first.flatMap Stmt.gives)) second) ∧
    ∀ lenient source nextId first s rest,
      (Parsed.ofSource (Parsed.program lenient) source nextId).result = .ok (first ++ s :: rest) →
        first.flatMap Stmt.gives = Stmt.declared first ∧
        ∀ (r : Walker), ∀ u ∈ Stmt.usesEach first, (s.visit r).walk.bindings[u.id]? = r.walk.bindings[u.id]? := by
  refine ⟨Walker.balanced_expr, Walker.balanced_stmt, resolve_eq_visit, resolutionFaults_append, ?_⟩
  intro lenient source nextId first s rest hread
  obtain ⟨hgives, hapart⟩ := Parsed.apart_of_program hread
  refine ⟨hgives, fun r u hu => (Walker.balanced_stmt s r).elsewhere u.id fun hs => hapart u hu ?_⟩
  rw [Stmt.usesEach, List.map_append]
  exact List.mem_append_left _ hs

/-- A block with a use of its variable, behind it a class that inherits from itself, and then a block that is refused because
the variable of the first one is gone. -/
theorem walk_balanced_refused :
    let source := "{ var b = 1; print b; } class A < A { m() { return super.m(b); } } { var b = b; } return;"
    ∃ first s rest, (Parsed.ofSource (Parsed.program false) source 0).result = .ok (first ++ s :: rest) ∧
      (Stmt.usesEach first).length = 1 ∧ s.gives = ["A"] ∧
      (resolutionFaults ∅ (first ++ s :: rest)).map Diagnostic.message =
        ["A class can't inherit from itself.", "Can't read local variable in its own initializer.",
          "Can't return from top-level code."] ∧
      ∀ (r : Walker), ∀ u ∈ Stmt.usesEach first, (s.visit r).walk.bindings[u.id]? = r.walk.bindings[u.id]? := by
  intro source
  have hrun : (Parsed.ofSource (Parsed.program false) source 0).result.toOption.map (fun statements =>
      (statements.length, (Stmt.usesEach (statements.take 1)).length, (statements.drop 1).head?.map Stmt.gives,
        (resolutionFaults ∅ statements).map Diagnostic.message)) =
      some (4, 1, some ["A"], ["A class can't inherit from itself.",
        "Can't read local variable in its own initializer.", "Can't return from top-level code."]) := by
    decide +kernel
  clear_value source
  rcases hread : (Parsed.ofSource (Parsed.program false) source 0).result with faults | statements
  · rw [hread] at hrun
    cases hrun
  · rw [hread] at hrun
    obtain ⟨hlength, hrest⟩ := Prod.mk.inj (Option.some.inj hrun)
    obtain ⟨huses, hrest⟩ := Prod.mk.inj hrest
    obtain ⟨hgives, hfaults⟩ := Prod.mk.inj hrest
    match statements, hlength with
    | [first, s, third, fourth], _ =>
      have hread' : (Parsed.ofSource (Parsed.program false) source 0).result = .ok ([first] ++ s :: [third, fourth]) :=
        hread
      have h := walk_balanced.2.2.2.2 false source 0 [first] s [third, fourth] hread'
      exact ⟨[first], s, [third, fourth], rfl, huses, Option.some.inj hgives, hfaults, h.2⟩

end LoxLang
