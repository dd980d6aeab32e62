import LoxLang.Proofs.Relabeling.Evaluation
import LoxLang.Proofs.Relabeling.Grammar
import LoxLang.Proofs.Relabeling.Walks
import LoxLang.Proofs.Scoping.Agreement

/-! Units that differ in lines and in the node ids handed out, run from sessions that differ in node ids: both are refused
with the same faults, or run alike. -/

namespace LoxLang

namespace Session

variable {s s' : Session} {source source' : String} {ρ : Relabeling}

/-- Sessions with the same global names, at corresponding node ids, and sources with the same tokens but for the lines. -/
structure Corresponds (ρ : Relabeling) (s s' : Session) (source source' : String) : Prop where
  order : ρ.InOrder
  separates : ρ.Separates fun _ => True
  tokens : tokens source' = (tokens source).map (Token.relabel ρ)
  lexical : lexicalDiagnostics source' = (lexicalDiagnostics source).map (Diagnostic.relabel ρ)
  prompt : s'.machine.prompt = s.machine.prompt
  globals : s'.globals = s.globals
  nextId : s'.nextId = ρ.id s.nextId

namespace Corresponds

variable (h : Corresponds ρ s s' source source')

include h

theorem read : s'.read source' = (s.read source).relabel ρ := by
  unfold Session.read
  rw [h.prompt, h.nextId]
  exact Parsed.ofSource_relabel h.order h.tokens h.lexical

theorem nextId_read : (s'.read source').nextId = ρ.id (s.read source).nextId := congrArg Parsed.nextId h.read

theorem refused {faults : List Diagnostic} (ha : s.accept source = .error faults) :
    s'.accept source' = .error (faults.map (Diagnostic.relabel ρ)) := by
  cases hr : (s.read source).result with
  | error fs =>
    have hr' : (s'.read source').result = .error (fs.map (Diagnostic.relabel ρ)) := by
      rw [h.read, Parsed.relabel, hr]
    rw [accept_of_unread hr] at ha
    rw [accept_of_unread hr', Except.error.inj ha]
  | ok statements =>
    have hr' : (s'.read source').result = .ok (Stmt.relabelEach ρ statements) := by rw [h.read, Parsed.relabel, hr]
    rw [accept_of_read hr] at ha
    rw [accept_of_read hr', h.globals]
    cases hb : resolve s.globals statements with
    | ok bindings =>
      rw [hb] at ha
      cases ha
    | error fs =>
      rw [hb] at ha
      obtain rfl : fs = faults := Except.error.inj ha
      rw [(resolve_relabel h.separates s.globals fun _ _ => trivial).1 _ hb]
      rfl

theorem accepted {statements : List Stmt} {bindings : Bindings} (ha : s.accept source = .ok (statements, bindings)) :
    ∃ bindings', s'.accept source' = .ok (Stmt.relabelEach ρ statements, bindings') ∧
      ∀ i, bindings'[ρ.id i]? = bindings[i]? := by
  have hread := read_of_accepted (accepted_of_accept ha)
  have hr' : (s'.read source').result = .ok (Stmt.relabelEach ρ statements) := by
    rw [h.read, Parsed.relabel, hread.1]
  have huses : ∀ u ∈ Stmt.usesEach statements, True := fun _ _ => trivial
  obtain ⟨bindings', hb', hsame⟩ := (resolve_relabel h.separates s.globals huses).2 _ hread.2
  refine ⟨bindings', ?_, fun i => hsame i trivial⟩
  rw [accept_of_read hr', h.globals, hb']
  rfl

end Corresponds

end Session

namespace Labels

/-- Node ids from the given one on are relabeled, and the code with them. -/
def since (base : NodeId) (ρ : Relabeling) : Labels where
  allowed σ := σ = .still ∨ σ = ρ
  ids σ i := σ = .still ∧ i < base ∨ σ = ρ ∧ base ≤ i

variable {base : NodeId} {ρ : Relabeling}

theorem carries_since {us : List Use} (h : ∀ u ∈ us, base ≤ u.id) : (since base ρ).Carries ρ us :=
  ⟨.inr rfl, fun u hu => .inr ⟨rfl, h u hu⟩⟩

theorem keeps_since {known known' : Bindings} (hold : ∀ i < base, known'[i]? = known[i]?)
    (hnew : ∀ i, base ≤ i → known'[ρ.id i]? = known[i]?) : (since base ρ).Keeps known known' := by
  rintro σ - i (⟨rfl, hi⟩ | ⟨rfl, hi⟩)
  · exact hold i hi
  · exact hnew i hi

variable {L : Labels}

/-- A function is a twin of itself, if its node ids stay as they are. -/
theorem twin_self (h : L.allowed .still) {k : Closure FrameId} (hu : ∀ u ∈ k.declared.uses, L.ids .still u.id) :
    L.Twin k k :=
  ⟨.still, ⟨h, hu⟩, congrArg (fun f => { k with declared := f }) (Function.relabel_still k.declared).symm⟩

/-- A sound machine is a twin of itself, if the node ids that it knows stay as they are. -/
theorem twins_self {c : Chart} {m : Machine} (hm : m.Sound c) (h : L.allowed .still) (hids : ∀ i < c.limit, L.ids .still i)
    {known : Bindings} (hknown : L.Keeps m.bindings known) : L.Twins m { m with bindings := known } := by
  have hself : ∀ {around : Layout} {k : Closure FrameId}, k.Placed c m.store.frames m.globals around → L.Twin k k :=
    fun ⟨_, _, hfits⟩ => twin_self h fun u hu => hids _ (hfits.below u hu)
  refine ⟨⟨rfl, fun i => ?_, fun i => ?_, rfl⟩, rfl, rfl, rfl, rfl, rfl, rfl, hknown⟩
  · change Option.Rel _ m.store.closures[i]? m.store.closures[i]?
    cases hk : m.store.closures[i]? with
    | none => exact .none
    | some k => exact .some (hself (hm.store.closures k (Array.mem_of_getElem? hk)))
  · change Option.Rel _ m.store.classes[i]? m.store.classes[i]?
    cases hd : m.store.classes[i]? with
    | none => exact .none
    | some d =>
      refine .some ⟨rfl, rfl, fun x => ?_⟩
      cases hk : d.methods[x]? with
      | none => exact .none
      | some k => exact .some (hself (hm.store.methods d (Array.mem_of_getElem? hd) x k hk))

theorem Twins.addBindings {m m' : Machine} (h : L.Twins m m') {bindings bindings' : Bindings}
    (hknown : L.Keeps (m.addBindings bindings).bindings (m'.addBindings bindings').bindings) :
    L.Twins (m.addBindings bindings) (m'.addBindings bindings') := { h with bindings := hknown }

/-- Halts are the same if all lines stay. -/
theorem Halts.eq {k k' : Halt} (h : L.Halts k k') (hline : ∀ ρ, L.allowed ρ → ∀ n, ρ.line n = n) : k' = k := by
  cases h with
  | error cause line hρ => rw [hline _ hρ]
  | outputFailed => rfl
  | exhausted => rfl

end Labels

namespace Session

open Labels

variable {s s' : Session} {source source' : String} {ρ : Relabeling} {base : NodeId} {statements : List Stmt}
  {bindings bindings' : Bindings}

/-- Twins stay twins with the distances of a unit, for its nodes are new. -/
theorem twins_ready (h : (since base ρ).Twins s.machine s'.machine) (hbase : base ≤ s.nextId) (hbase' : base ≤ s'.nextId)
    (ha : s.accepted? source = some (statements, bindings))
    (ha' : s'.accepted? source' = some (Stmt.relabelEach ρ statements, bindings'))
    (hsame : ∀ i, bindings'[ρ.id i]? = bindings[i]?) :
    (since base ρ).Twins (s.ready bindings) (s'.ready bindings') ∧
      (since base ρ).Carries ρ (Stmt.usesEach statements) := by
  refine ⟨h.addBindings (keeps_since (fun i hi => ?_) fun i hi => ?_), carries_since fun u hu => ?_⟩
  · refine (bindings_ready s' bindings' i).trans (Eq.trans ?_ (bindings_ready s bindings i).symm)
    rw [bindings_outside ha (.inl (hi.trans_le hbase)), bindings_outside ha' (.inl (hi.trans_le hbase'))]
    exact h.bindings .still (.inl rfl) i (.inl ⟨rfl, hi⟩)
  · refine (bindings_ready s' bindings' _).trans (Eq.trans ?_ (bindings_ready s bindings i).symm)
    rw [hsame, h.bindings ρ (.inr rfl) i (.inr ⟨rfl, hi⟩)]
  · exact hbase.trans ((made_of_accepted ha).uses.within u hu).1

end Session

end LoxLang
