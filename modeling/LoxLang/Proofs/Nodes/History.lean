import LoxLang.Proofs.Nodes.Stock
import LoxLang.Proofs.Scoping.Agreement

/-! The nodes of all trees that a session reads. No two share a node id, so the distances that a unit brings are for nodes
of its own, and what is known of a node stays as its unit found it. -/

namespace LoxLang

namespace Grammar

open Reader Reads

theorem reads_loneExpression (n : Nat) : ReadsExpr (loneExpression n) := by
  refine fun lo => (reads_expression n lo).bind fun hi e _ he => after_get fun c _ => ?_
  dsimp only
  split
  · exact after_get fun _ _ => after_report (done he)
  · exact done he

end Grammar

/-- A lone expression that is read from a source has made its uses in the node ids handed out for it. -/
theorem Parsed.made_of_expression (source : String) (nextId : NodeId) :
    nextId ≤ (ofSource expression source nextId).nextId ∧
      ∀ e, (ofSource expression source nextId).result = .ok e →
        Made nextId (ofSource expression source nextId).nextId e.uses := by
  obtain ⟨hle, hmade⟩ := reads_run (tokens_proper source) fun n => Grammar.reads_loneExpression n nextId
  obtain ⟨hid, hok⟩ := ofSource_eq expression source nextId
  rw [hid]
  exact ⟨hle, fun e h => hmade e (hok e h)⟩

namespace Moment

open Run

/-- The global frame and what is known of the nodes are the same at all moments of a run. -/
theorem fixed_of_starts {k k' : Moment} (h : k.Starts k') :
    k'.machine.globals = k.machine.globals ∧ k'.machine.bindings = k.machine.bindings := by
  have hfixed {m m' : Machine} (h : m'.context = m.context) : m'.globals = m.globals ∧ m'.bindings = m.bindings :=
    ⟨congrArg Context.globals h, congrArg Context.bindings h⟩
  cases h with
  | first | argument | value | block | statement | shown | performed => exact ⟨rfl, rfl⟩
  | second _ e | arguments e | others e | chosen _ e => exact hfixed ((steady_eval _ _).of_ok e)
  | again e₁ _ e₂ => exact hfixed (((steady_exec _ _).of_ok e₂).trans ((steady_eval _ _).of_ok e₁))
  | rest e => exact hfixed ((steady_exec _ _).of_ok e)
  | next e => exact hfixed ((steady_perform _ _).of_ok e)
  | call e₁ e₂ e₃ hcalled =>
    have hvalues := ((steady_each (steady_eval _) _).of_ok e₂).trans ((steady_eval _ _).of_ok e₁)
    have hadmitted := hfixed (((steady_admitCall _ _ _).of_ok e₃).trans hvalues)
    obtain ⟨κ, m₁, hinvokes, -, rfl⟩ := Machine.called?_eq_some.mp hcalled
    cases hinvokes <;> exact hadmitted

theorem bindings_of_visits {k k' : Moment} (h : k.Visits k') : k'.machine.bindings = k.machine.bindings := by
  induction h with
  | refl => rfl
  | tail _ hstep ih => exact (fixed_of_starts hstep).2.trans ih

end Moment

/-- A tree that was read, and the distances found in it if it is a unit that was accepted. -/
inductive Tree
  | program (statements : List Stmt) (known : Option Bindings)
  | expression (e : Expr)

def Tree.uses : Tree → List Use
  | program statements _ => Stmt.usesEach statements
  | expression e => e.uses

/-- A function of the store, or a method of one of its classes. -/
def Store.Declares (s : Store) (k : Closure FrameId) : Prop :=
  k ∈ s.closures ∨ ∃ d ∈ s.classes, ∃ x : String, d.methods[x]? = some k

/-- The uses are all in one of the units that were accepted. -/
def Own (trees : List Tree) (us : List Use) : Prop :=
  ∃ statements known, .program statements (some known) ∈ trees ∧ us ⊆ Stmt.usesEach statements

theorem Own.mono {trees more : List Tree} {us : List Use} (h : Own trees us) (hm : trees ⊆ more) : Own more us := by
  obtain ⟨statements, known, ht, hus⟩ := h
  exact ⟨statements, known, hm ht, hus⟩

theorem Own.part {trees : List Tree} {us vs : List Use} (h : Own trees us) (hs : vs ⊆ us) : Own trees vs := by
  obtain ⟨statements, known, ht, hus⟩ := h
  exact ⟨statements, known, ht, List.Subset.trans hs hus⟩

namespace Session

/-- The unit that a source is read as. -/
def units (source : String) (s : Session) : List Tree :=
  match (s.read source).result with
  | .ok statements => [.program statements (resolve s.globals statements).toOption]
  | .error _ => []

/-- The lone expression that a source is read as. -/
def expressions (source : String) (s : Session) : List Tree :=
  match (Parsed.ofSource Parsed.expression source s.nextId).result with
  | .ok e => [.expression e]
  | .error _ => []

/-- The sessions that units and lone expressions lead to, with the trees that are read on the way. -/
inductive Reads (s : Session) : List Tree → Session → Prop
  | refl : Reads s [] s
  | run {trees : List Tree} {s' : Session} (n : Nat) (source : String) : Reads s trees s' →
    Reads s (trees ++ s'.units source) (s'.run n source).2
  | value {trees : List Tree} {s' : Session} (n : Nat) (source : String) : Reads s trees s' →
    Reads s (trees ++ s'.expressions source) (s'.value n source).2
  | takeWritten {trees : List Tree} {s' : Session} : Reads s trees s' → Reads s trees s'.takeWritten.2

/-- What holds of a session that has read the trees. -/
structure Remembers (trees : List Tree) (s : Session) : Prop where
  made : Made 0 s.nextId (trees.flatMap Tree.uses)
  ahead : ∀ id, s.nextId ≤ id → s.machine.bindings[id]? = none
  known : ∀ {statements known}, .program statements (some known) ∈ trees →
    ∀ u ∈ Stmt.usesEach statements, s.machine.bindings[u.id]? = known[u.id]?
  stocked : s.machine.store.Stocked (Own trees)

variable {trees : List Tree} {s : Session}

theorem remembers_start (prompt : Bool) (now : Number) (output diagnostics : Sink) :
    Remembers [] (.start prompt now output diagnostics) where
  made := .nil
  ahead _ _ := Std.ExtTreeMap.getElem?_empty
  known := nofun
  stocked := ⟨nofun, nofun⟩

namespace Remembers

variable (h : Remembers trees s)

include h

/-- The uses of a tree that was just read have other ids than all before. -/
theorem made_append {t : Tree} {hi : NodeId} (hle : s.nextId ≤ hi) (ht : Made s.nextId hi t.uses) :
    Made 0 hi ((trees ++ [t]).flatMap Tree.uses) := by
  rw [List.flatMap_append, List.flatMap_singleton]
  exact h.made.append ht (Nat.zero_le _) hle

theorem below {t : Tree} (ht : t ∈ trees) {u : Use} (hu : u ∈ t.uses) : u.id < s.nextId :=
  (h.made.within u (List.mem_flatMap.mpr ⟨t, ht, hu⟩)).2

/-- A unit brings no distances for nodes of trees that were read before. -/
theorem outside {source : String} {statements : List Stmt} {known : Bindings}
    (ha : s.accepted? source = some (statements, known)) {t : Tree} (ht : t ∈ trees) {u : Use} (hu : u ∈ t.uses) :
    known[u.id]? = none ∧ (s.ready known).bindings[u.id]? = s.machine.bindings[u.id]? := by
  have hnone := bindings_outside ha (.inl (h.below ht hu))
  refine ⟨hnone, ?_⟩
  rw [bindings_ready, hnone, Option.none_or]

/-- Trees were read, but nothing was run. -/
theorem unrun {sink : Sink} {nextId : NodeId} (hle : s.nextId ≤ nextId) {more : List Tree}
    (hmore : ∀ t ∈ more, ∀ statements known, t ≠ .program statements (some known))
    (hmade : Made 0 nextId ((trees ++ more).flatMap Tree.uses)) :
    Remembers (trees ++ more) ⟨s.machine, sink, nextId⟩ where
  made := hmade
  ahead id hid := h.ahead id (hle.trans hid)
  known ht u hu := by
    rcases List.mem_append.mp ht with ht | ht
    · exact h.known ht u hu
    · exact absurd rfl (hmore _ ht _ _)
  stocked := h.stocked.mono fun _ hus => hus.mono (List.subset_append_left _ _)

/-- A text was read, but no tree. -/
theorem unread {sink : Sink} {nextId : NodeId} (hle : s.nextId ≤ nextId) :
    Remembers (trees ++ []) ⟨s.machine, sink, nextId⟩ := by
  refine h.unrun hle (List.forall_mem_nil _) ?_
  rw [List.append_nil]
  exact h.made.widen hle

theorem run (n : Nat) (source : String) : Remembers (trees ++ s.units source) (s.run n source).2 := by
  have hle := nextId_le_read s source
  cases hr : (s.read source).result with
  | error faults =>
    have ha : s.accepted? source = none := by simp [accepted?, accept_of_unread hr, Except.toOption]
    obtain ⟨sink, hs⟩ := run_of_refused ha n
    simp only [hs, units, hr]
    exact h.unread hle
  | ok statements =>
    have hmade := h.made_append (t := .program statements (resolve s.globals statements).toOption) hle
      (Parsed.made_of_program.2 statements hr).uses
    cases hk : resolve s.globals statements with
    | error faults =>
      have ha : s.accepted? source = none := by simp [accepted?, accept_of_read hr, hk, Except.toOption, Except.map]
      obtain ⟨sink, hs⟩ := run_of_refused ha n
      rw [hk] at hmade
      simp only [hs, units, hr, hk]
      exact h.unrun hle (by simp [Except.toOption]) hmade
    | ok known =>
      have ha : s.accepted? source = some (statements, known) := by
        simp [accepted?, accept_of_read hr, hk, Except.toOption, Except.map]
      obtain ⟨sink, hs⟩ := execute_session n statements
        { s with machine := s.ready known, nextId := (s.read source).nextId }
      have hbindings : ((interpret n statements).after (s.ready known)).bindings = (s.ready known).bindings :=
        congrArg Context.bindings (steady_interpret n statements (s.ready known))
      rw [hk] at hmade
      simp only [run_of_accepted ha, hs, units, hr, hk]
      refine ⟨hmade, fun id hid => ?_, fun {ss ds} ht u hu => ?_, ?_⟩
      · rw [hbindings, bindings_ready, bindings_outside ha (.inr hid), h.ahead id (hle.trans hid)]
        rfl
      · rw [hbindings]
        rcases List.mem_append.mp ht with ht | ht
        · exact (h.outside ha ht hu).2.trans (h.known ht u hu)
        · cases List.mem_singleton.mp ht
          rw [bindings_ready, h.ahead _ ((made_of_accepted ha).uses.within u hu).1, Option.or_none]
      · exact stocks_interpret (fun hus hvs => hus.part hvs) n
          ⟨statements, known, List.mem_append_right _ (List.mem_singleton_self _), List.Subset.refl _⟩ _
          (h.stocked.mono fun _ hus => hus.mono (List.subset_append_left _ _))

theorem value (n : Nat) (source : String) : Remembers (trees ++ s.expressions source) (s.value n source).2 := by
  obtain ⟨hle, hmade⟩ := Parsed.made_of_expression source s.nextId
  cases hr : (Parsed.ofSource Parsed.expression source s.nextId).result with
  | error faults =>
    simp only [Session.value, expressions, hr]
    exact h.unread hle
  | ok e =>
    have hread : Remembers (trees ++ [.expression e])
        ⟨s.machine, s.diagnostics, (Parsed.ofSource Parsed.expression source s.nextId).nextId⟩ :=
      h.unrun hle (by simp) (h.made_append hle (hmade e hr))
    have hbindings : ((eval n e).after s.machine).bindings = s.machine.bindings :=
      congrArg Context.bindings (steady_eval n e s.machine)
    have hstocked := stocks_eval (fun hus hvs => Own.part hus hvs) n e s.machine hread.stocked
    have hsession : (s.value n source).2 = ⟨(eval n e).after s.machine, s.diagnostics,
        (Parsed.ofSource Parsed.expression source s.nextId).nextId⟩ := by
      simp only [Session.value, hr, Halting.after]
      cases eval n e s.machine <;> rfl
    simp only [hsession, expressions, hr]
    exact ⟨hread.made, fun id hid => hbindings ▸ hread.ahead id hid, fun ht u hu => hbindings ▸ hread.known ht u hu,
      hstocked⟩

end Remembers

theorem Reads.remembers {s' : Session} {more : List Tree} (h : s.Reads more s') (hs : Remembers trees s) :
    Remembers (trees ++ more) s' := by
  induction h with
  | refl =>
    rw [List.append_nil]
    exact hs
  | run n source _ ih =>
    rw [← List.append_assoc]
    exact ih.run n source
  | value n source _ ih =>
    rw [← List.append_assoc]
    exact ih.value n source
  | takeWritten _ ih => exact ⟨ih.made, ih.ahead, ih.known, ih.stocked⟩

end Session

open Session

/-- Whatever units and lone expressions a session reads, no two uses of names in the trees have the same node id. So a unit
that is accepted brings no distance for a node of an earlier tree, and at all moments of it the same distance is known for
such a node as before. Each function of the store has its uses in one of the units, and as long as the session lasts the
distances known for them are just those found in that unit. -/
theorem nodes_keep_distances {prompt : Bool} {now : Number} {output diagnostics : Sink} {trees : List Tree} {s : Session}
    (hs : (Session.start prompt now output diagnostics).Reads trees s) :
    ((trees.flatMap Tree.uses).map Use.id).Nodup ∧
    (∀ source statements known, s.accepted? source = some (statements, known) → ∀ t ∈ trees, ∀ u ∈ t.uses,
      known[u.id]? = none ∧ ∀ n k, Moment.Visits ⟨n, .unit statements, s.ready known⟩ k →
        k.machine.bindings[u.id]? = s.machine.bindings[u.id]?) ∧
    ∀ k, s.machine.store.Declares k → ∃ statements known, .program statements (some known) ∈ trees ∧
      k.declared.uses ⊆ Stmt.usesEach statements ∧
        ∀ more s', s.Reads more s' → ∀ u ∈ k.declared.uses, s'.machine.bindings[u.id]? = known[u.id]? := by
  have h : Remembers trees s := by simpa using hs.remembers (remembers_start prompt now output diagnostics)
  refine ⟨h.made.nodup, fun source statements known ha t ht u hu => ?_, fun k hk => ?_⟩
  · obtain ⟨hnone, hsame⟩ := h.outside ha ht hu
    refine ⟨hnone, fun n k hk => ?_⟩
    rw [Moment.bindings_of_visits hk]
    exact hsame
  · have hown : Own trees k.declared.uses := by
      rcases hk with hk | ⟨d, hd, x, hx⟩
      · exact h.stocked.closures k hk
      · exact h.stocked.methods d hd x k hx
    obtain ⟨statements, known, ht, hus⟩ := hown
    exact ⟨statements, known, ht, hus, fun more s' hmore u hu =>
      (hmore.remembers h).known (List.mem_append_left _ ht) u (hus hu)⟩

/-- A function with a loop, a lone expression that is not resolved, a refused unit and a block behind them. -/
theorem nodes_keep_distances_of_loop :
    let s₀ := Session.start false ⟨0⟩ .unlimited .unlimited
    let s₁ := (s₀.run 30 "function f(n) { for (var i = 0; i < n; i++) { print i; } return n; }").2
    let s₂ := ((s₁.value 30 "f(1) + x").2.run 30 "return x; y = 1;").2
    let s := (s₂.run 30 "var x = 1; { var y = f(x); y++; }").2
    ∃ trees k, s₀.Reads trees s ∧ s.machine.store.Declares k ∧ k.declared.uses.length = 11 ∧
      ((trees.flatMap Tree.uses).map Use.id).Nodup ∧ ∃ statements known, .program statements (some known) ∈ trees ∧
        k.declared.uses ⊆ Stmt.usesEach statements ∧
          ∀ u ∈ k.declared.uses, s.machine.bindings[u.id]? = known[u.id]? := by
  intro s₀ s₁ s₂ s
  have hs : ∃ trees, s₀.Reads trees s := ⟨_, .run _ _ (.run _ _ (.value _ _ (.run _ _ .refl)))⟩
  have hlength : (s.machine.store.closures[0]?.map fun k => k.declared.uses.length) = some 11 := by decide +kernel
  clear_value s
  obtain ⟨trees, hs⟩ := hs
  obtain ⟨k, hk, huses⟩ := Option.map_eq_some_iff.mp hlength
  have hdeclares : s.machine.store.Declares k := .inl (Array.mem_of_getElem? hk)
  obtain ⟨hnodup, -, hclosures⟩ := nodes_keep_distances hs
  obtain ⟨statements, known, ht, hsubset, hkeeps⟩ := hclosures k hdeclares
  exact ⟨trees, k, hs, hdeclares, huses, hnodup, statements, known, ht, hsubset, hkeeps [] s .refl⟩

end LoxLang
