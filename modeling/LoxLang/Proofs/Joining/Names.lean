import LoxLang.Proofs.Relabeling.Walks
import LoxLang.Proofs.Scoping.Agreement
import LoxLang.Proofs.WellFormed.Statements

/-! What the first of two programs declares at top level is what a run of it that ends makes global. So the second gets the
same distances behind the first, in one program, as on its own after that run. -/

namespace LoxLang

open Walk

namespace Session

variable {s : Session} {source : String} {statements : List Stmt} {bindings : Bindings}

theorem mem_globals (s : Session) (x : String) :
    x ∈ s.globals ↔ s.machine.store.frames.Has s.machine.globals x := by
  unfold globals Machine.globalNames Frames.Has Frames.here? Frames.names
  rw [Std.ExtTreeSet.mem_ofList]
  cases s.machine.store.frames.all[s.machine.globals]? <;> simp

/-- A unit that ends well is accepted, and its statements run to their end. -/
theorem ends_of_run_ok {n : Nat} (h : (s.run n source).1 = .ok) :
    ∃ statements bindings m, s.accepted? source = some (statements, bindings) ∧
      interpret n statements (s.ready bindings) = .ok () m ∧
        (s.run n source).2 = { s with machine := m, nextId := (s.read source).nextId } := by
  have hreport : ∀ {outcome lines t}, outcome ≠ Outcome.ok → (report outcome lines t).1 ≠ .ok := by
    intro outcome lines t hne
    simp only [report]
    split <;> simp [hne]
  cases ha : s.accepted? source with
  | none =>
    obtain ⟨faults, hrefused⟩ := accept_of_refused ha
    rw [run_eq, hrefused] at h
    exact absurd h (hreport (by simp))
  | some unit =>
    obtain ⟨statements, bindings⟩ := unit
    rw [run_of_accepted ha] at h ⊢
    cases e : interpret n statements (s.ready bindings) with
    | ok _ m => exact ⟨statements, bindings, m, rfl, e, by rw [execute_of_ok e]⟩
    | error k m =>
      simp only [execute, e] at h
      exact absurd h (hreport (by cases k <;> simp [Halt.outcome]))

/-- After a unit that ends, just the names are global that were so before and those that the unit declares. -/
theorem Reachable.globals_after (hs : s.Reachable) (ha : s.accepted? source = some (statements, bindings)) {n : Nat}
    {m : Machine} (e : interpret n statements (s.ready bindings) = .ok () m) {s' : Session} (hm : s'.machine = m)
    (x : String) : x ∈ s'.globals ↔ x ∈ s.globals ∨ x ∈ Stmt.declared statements := by
  have hfits := hs.sound.fits ha nofun
  have hfollows := (keeps_interpret n statements (hs.sound.ready ha) (at_ready hs.atRest bindings) hfits).of_ok e
  have hlt := (at_ready hs.atRest bindings).linked.lt (hs.sound.ready ha).store.within
  have hcurrent : (s.ready bindings).current = s.machine.globals := hs.atRest.1
  have hglobals : m.globals = s.machine.globals := hfollows.globals
  have hhas := hfollows.grows.has _ hlt x
  rw [hcurrent] at hhas
  rw [mem_globals, mem_globals, hm, hglobals, hhas]
  simp [Stmt.declared, Session.ready, Machine.addBindings]

end Session

section Rows

variable {G G' : Std.ExtTreeSet String} {a b : List Stmt} {known known' : Bindings}

/-- The walk over a program that is accepted. -/
theorem settled_of_resolve (h : resolve G a = .ok known) (ha : Stmt.TidyEach a) :
    ∃ w, Stmt.resolveEach .topLevel a (.start G) = w ∧ w.scopes = [] ∧ w.faults = [] ∧ w.bindings = known ∧
      ∀ x, x ∈ w.globals ↔ x ∈ G ∨ x ∈ Stmt.declared a := by
  obtain ⟨hclean, hknown⟩ := walk_of_resolve h
  have hstart : Settles G .topLevel (.start G) := ⟨.nil, fun x => by simp [Walk.start, Place.topLevel]⟩
  have hsettles := (Stmt.judgesEach a ha hstart).settles hclean
  have hglobals := hsettles.globals
  have hscopes := hsettles.scopes
  simp only [Place.declare, Place.topLevel, List.append_nil] at hglobals hscopes
  exact ⟨_, rfl, List.forall₂_nil_right_iff.mp hscopes, hclean, hknown, hglobals⟩

variable {f : NodeId → NodeId} {line line' : Nat → Nat}

/-- Two programs in a row, with other node ids and perhaps at other lines, have the distances of both. -/
theorem resolve_append (ha : resolve G a = .ok known) (hb : resolve G' b = .ok known') (htidy : Stmt.TidyEach a)
    (hG : ∀ x, x ∈ G' ↔ x ∈ G ∨ x ∈ Stmt.declared a) (hnodup : ((Stmt.usesEach a ++ Stmt.usesEach b).map Use.id).Nodup)
    (hf : ∀ i ∈ (Stmt.usesEach a ++ Stmt.usesEach b).map Use.id,
      ∀ j ∈ (Stmt.usesEach a ++ Stmt.usesEach b).map Use.id, f i = f j → i = j) :
    ∃ both, resolve G (Stmt.relabelEach ⟨f, line⟩ a ++ Stmt.relabelEach ⟨f, line'⟩ b) = .ok both ∧
      (∀ u ∈ Stmt.usesEach a, both[f u.id]? = known[u.id]?) ∧ ∀ u ∈ Stmt.usesEach b, both[f u.id]? = known'[u.id]? := by
  obtain ⟨w, hw, hscopes, hclean, rfl, hglobals⟩ := settled_of_resolve ha htidy
  obtain rfl : w.globals = G' := Std.ExtTreeSet.ext_mem fun x => by rw [hglobals, hG]
  obtain ⟨hclean', hknown'⟩ := walk_of_resolve hb
  rw [List.map_append] at hnodup hf
  have hapart : ∀ u ∈ Stmt.usesEach a, ∀ v ∈ Stmt.usesEach b, u.id ≠ v.id := fun u hu v hv =>
    (List.nodup_append.mp hnodup).2.2 _ (List.mem_map_of_mem hu) _ (List.mem_map_of_mem hv)
  let ids : NodeId → Prop := fun i => i ∈ (Stmt.usesEach a).map Use.id ++ (Stmt.usesEach b).map Use.id
  have hsep : Relabeling.Separates ⟨f, line⟩ ids := fun i j hi hj => hf i hi j hj
  have hsep' : Relabeling.Separates ⟨f, line'⟩ (· ∈ (Stmt.usesEach b).map Use.id) := fun i j hi hj =>
    hf i (List.mem_append_right _ hi) j (List.mem_append_right _ hj)
  have hmem : ∀ u ∈ Stmt.usesEach a, ids u.id := fun u hu => List.mem_append_left _ (List.mem_map_of_mem hu)
  have hmem' : ∀ u ∈ Stmt.usesEach b, ids u.id := fun u hu => List.mem_append_right _ (List.mem_map_of_mem hu)
  have hstart : Echoes ⟨f, line⟩ ids (.start G) (.start G) := ⟨rfl, rfl, rfl, fun _ _ => by simp [Walk.start]⟩
  have hfirst := (bond_echoes hsep).stmts .topLevel a hmem hstart
  rw [hw] at hfirst
  -- Where the second program begins, the walk is as at its own start: no scope is open, and its nodes have no entry.
  have hbetween : Echoes ⟨f, line'⟩ (· ∈ (Stmt.usesEach b).map Use.id) (.start w.globals)
      (Stmt.resolveEach .topLevel (Stmt.relabelEach ⟨f, line⟩ a) (.start G)) := by
    refine ⟨hfirst.scopes.trans hscopes, hfirst.globals, ?_, fun i hi => ?_⟩
    · rw [hfirst.faults, hclean]
      rfl
    · obtain ⟨v, hv, rfl⟩ := List.mem_map.mp hi
      have helsewhere := (Stmt.adds_resolveEach .topLevel a (.start G)).elsewhere v.id fun hva => by
        obtain ⟨u, hu, huv⟩ := List.mem_map.mp hva
        exact hapart u hu v hv huv
      rw [hw] at helsewhere
      exact (hfirst.bindings _ (hmem' v hv)).trans helsewhere
  have hsecond := (bond_echoes hsep').stmts .topLevel b (fun u hu => List.mem_map_of_mem hu) hbetween
  have hempty : (Stmt.resolveEach .topLevel (Stmt.relabelEach ⟨f, line⟩ a ++ Stmt.relabelEach ⟨f, line'⟩ b)
      (.start G)).faults = [] := by
    rw [Stmt.resolveEach_append, hsecond.faults, hclean']
    rfl
  refine ⟨_, by unfold resolve; simp only [hempty]; rfl, fun u hu => ?_, fun v hv => ?_⟩
  · rw [Stmt.resolveEach_append, (Stmt.adds_resolveEach .topLevel _ _).elsewhere, ← hfirst.bindings _ (hmem u hu)]
    intro huv
    rw [Stmt.usesEach_relabel, List.map_map, List.mem_map] at huv
    obtain ⟨v, hv, hvu⟩ := huv
    exact hapart u hu v hv (hf _ (hmem u hu) _ (hmem' v hv) hvu.symm)
  · rw [Stmt.resolveEach_append, ← hknown']
    exact hsecond.bindings _ (List.mem_map_of_mem hv)

end Rows

end LoxLang
