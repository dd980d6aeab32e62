import LoxLang.Proofs.Binding.Fits
import LoxLang.Proofs.Grammar.Statements
import LoxLang.Proofs.Scoping.Moments
import LoxLang.Proofs.Sessions

/-! Distances found before a unit runs and frames there are while it runs agree: at every moment of every unit of a
session, a distance leads from the current frame to one that the distance was meant for. -/

namespace LoxLang

open Frames

theorem Store.Sound.mono {c d : Chart} (h : c.Le d) {globals : FrameId} {s : Store} (hs : s.Sound c globals) :
    s.Sound d globals where
  root := hs.root
  within := hs.within
  closed := hs.closed
  closures k hk := by
    obtain ⟨l, hl, hfits⟩ := hs.closures k hk
    exact ⟨l, hl, hfits.mono h⟩
  methods cls hcls x k hk := by
    obtain ⟨l, hl, hfits⟩ := hs.methods cls hcls x k hk
    exact ⟨l, hl, hfits.mono h⟩

namespace Session

/-- The distances known so far. -/
def chart (plain : Bool) (s : Session) : Chart := ⟨s.machine.bindings, s.nextId, plain⟩

/-- All functions of the session stand where their code fits, and no distance is known for a node to come. -/
structure Sound (plain : Bool) (s : Session) : Prop where
  machine : s.machine.Sound (s.chart plain)
  ahead : ∀ id, s.nextId ≤ id → s.machine.bindings[id]? = none

variable {plain : Bool} {s : Session}

theorem sound_start (prompt : Bool) (now : Number) (output diagnostics : Sink) :
    (start prompt now output diagnostics).Sound plain where
  machine := by
    have hframes : (start prompt now output diagnostics).machine.store.frames =
      (Frames.empty.add none ∅).define 0 "clock" (.native 0) := rfl
    refine ⟨rfl, ?_, ?_, ?_, nofun, nofun⟩
    · rw [hframes, outer?_define]
      rfl
    · rw [hframes, size_define]
      exact Nat.zero_lt_one
    · intro f g hg
      rw [hframes, outer?_define, outer?_add] at hg
      split at hg <;> cases hg
  ahead _ _ := Std.ExtTreeMap.getElem?_empty

theorem Sound.takeWritten (h : s.Sound plain) : s.takeWritten.2.Sound plain :=
  ⟨⟨h.machine.bindings, h.machine.store⟩, h.ahead⟩

theorem at_of_atRest (h : s.AtRest) : s.machine.At [] := by
  refine ⟨?_, nofun⟩
  rw [h.1]
  exact .top

section Units

variable {source : String} {statements : List Stmt} {bindings : Bindings}

/-- The distances known while an accepted unit runs. -/
def chartOf (plain : Bool) (s : Session) (source : String) (bindings : Bindings) : Chart :=
  ⟨(s.ready bindings).bindings, (s.read source).nextId, plain⟩

theorem made_of_accepted (ha : s.accepted? source = some (statements, bindings)) :
    Stmt.MadeInEach s.nextId (s.read source).nextId statements :=
  Parsed.made_of_program.2 statements (read_of_accepted ha).1

theorem nextId_le_read (s : Session) (source : String) : s.nextId ≤ (s.read source).nextId := Parsed.made_of_program.1

/-- The distances of a unit are those of its own nodes. -/
theorem bindings_outside (ha : s.accepted? source = some (statements, bindings)) {id : NodeId}
    (hid : id < s.nextId ∨ (s.read source).nextId ≤ id) : bindings[id]? = none := by
  refine resolve_elsewhere (read_of_accepted ha).2 fun hmem => ?_
  obtain ⟨u, hu, rfl⟩ := List.mem_map.mp hmem
  obtain ⟨hlo, hhi⟩ := (made_of_accepted ha).uses.within u hu
  exact hid.elim (Nat.not_lt.mpr hlo) (Nat.not_le.mpr hhi)

theorem bindings_ready (s : Session) (bindings : Bindings) (id : NodeId) :
    (s.ready bindings).bindings[id]? = bindings[id]?.or s.machine.bindings[id]? :=
  Std.ExtTreeMap.getElem?_union

theorem chart_le (ha : s.accepted? source = some (statements, bindings)) :
    (s.chart plain).Le (s.chartOf plain source bindings) where
  bindings id hid := by
    refine (bindings_ready s bindings id).trans ?_
    rw [bindings_outside ha (.inl hid), Option.none_or]
    rfl
  limit := nextId_le_read s source
  plain := rfl

theorem Sound.ready (h : s.Sound plain) (ha : s.accepted? source = some (statements, bindings)) :
    (s.ready bindings).Sound (s.chartOf plain source bindings) :=
  ⟨rfl, h.machine.store.mono (chart_le ha)⟩

/-- An accepted unit fits the top level. -/
theorem Sound.fits (h : s.Sound plain) (ha : s.accepted? source = some (statements, bindings))
    (hplain : plain = true → Stmt.KeepsOwnEach false statements) :
    Stmt.FitsEach (s.chartOf plain source bindings) [] statements := by
  have hmade := made_of_accepted ha
  refine fits_of_resolve (read_of_accepted ha).2 hmade.uses.nodup hmade.uses.proper hmade.tidy hplain fun u hu => ?_
  obtain ⟨hlo, hhi⟩ := hmade.uses.within u hu
  refine ⟨hhi, (bindings_ready s bindings u.id).trans ?_⟩
  rw [h.ahead _ hlo, Option.or_none]

theorem at_ready (h : s.AtRest) (bindings : Bindings) : (s.ready bindings).At [] :=
  ⟨(at_of_atRest h).linked, (at_of_atRest h).exact⟩

theorem Sound.run (h : s.Sound plain) (hrest : s.AtRest) (source : String)
    (hplain : plain = true → ∀ unit ∈ s.accepted? source, Stmt.KeepsOwnEach false unit.1) (n : Nat) :
    (s.run n source).2.Sound plain := by
  cases ha : s.accepted? source with
  | none =>
    obtain ⟨sink, hs⟩ := run_of_refused ha n
    rw [hs]
    have hle := nextId_le_read s source
    have hchart : (s.chart plain).Le ⟨s.machine.bindings, (s.read source).nextId, plain⟩ := ⟨fun _ _ => rfl, hle, rfl⟩
    exact ⟨⟨rfl, h.machine.store.mono hchart⟩, fun id hid => h.ahead id (hle.trans hid)⟩
  | some unit =>
    obtain ⟨statements, bindings⟩ := unit
    have hfits := h.fits ha fun hp => hplain hp _ ha
    obtain ⟨names, hstays⟩ := (keeps_interpret n statements (h.ready ha) (at_ready hrest bindings) hfits).stays
    obtain ⟨sink, hs⟩ := execute_session n statements
      { s with machine := s.ready bindings, nextId := (s.read source).nextId }
    rw [run_of_accepted ha, hs]
    have hbindings : ((interpret n statements).after (s.ready bindings)).bindings = (s.ready bindings).bindings :=
      congrArg Context.bindings hstays.context
    constructor
    · have hsound := hstays.sound
      unfold chartOf at hsound
      rw [← hbindings] at hsound
      exact hsound
    · intro id hid
      refine (congrArg (·[id]?) hbindings).trans ((bindings_ready s bindings id).trans ?_)
      rw [bindings_outside ha (.inr hid), h.ahead id ((nextId_le_read s source).trans hid)]
      rfl

/-- What is known after an accepted unit is what is known while it runs. -/
theorem chart_run (ha : s.accepted? source = some (statements, bindings)) (n : Nat) :
    (s.run n source).2.chart plain = s.chartOf plain source bindings := by
  obtain ⟨sink, hs⟩ := execute_session n statements
    { s with machine := s.ready bindings, nextId := (s.read source).nextId }
  rw [run_of_accepted ha, hs]
  have hcontext := steady_interpret n statements (s.ready bindings)
  exact congrArg (fun known => (⟨known, (s.read source).nextId, plain⟩ : Chart)) (congrArg Context.bindings hcontext)

theorem Reachable.sound (h : s.Reachable) : s.Sound false := by
  induction h with
  | start => exact sound_start _ _ _ _
  | run n source hs ih => exact ih.run hs.atRest source nofun n
  | takeWritten _ ih => exact ih.takeWritten

/-- The moments of the run of an accepted unit. -/
def Visits (s : Session) (n : Nat) (source : String) (k : Moment) : Prop :=
  ∃ unit ∈ s.accepted? source, Moment.Visits ⟨n, .unit unit.1, s.ready unit.2⟩ k

theorem Reachable.fits_unit (h : s.Reachable) (ha : s.accepted? source = some (statements, bindings)) {n : Nat} {k : Moment}
    (hk : Moment.Visits ⟨n, .unit statements, s.ready bindings⟩ k) : ∃ l, k.Fits (s.chartOf false source bindings) l :=
  Moment.fits_of_visits hk ⟨h.sound.ready ha, at_ready h.atRest bindings, rfl, h.sound.fits ha nofun⟩

/-- At every moment of a unit, the code that begins fits where the program stands. -/
theorem Reachable.fits (h : s.Reachable) {n : Nat} {k : Moment} (hk : s.Visits n source k) :
    ∃ c l, k.Fits c l := by
  obtain ⟨⟨statements, bindings⟩, ha, hvisits⟩ := hk
  exact ⟨_, h.fits_unit ha hvisits⟩

/-- The distances of a unit stay known. -/
theorem chart_le_run (s : Session) (source : String) (n : Nat) :
    (s.chart plain).Le ((s.run n source).2.chart plain) := by
  cases ha : s.accepted? source with
  | none =>
    obtain ⟨sink, hs⟩ := run_of_refused ha n
    rw [hs]
    exact ⟨fun _ _ => rfl, nextId_le_read s source, rfl⟩
  | some unit =>
    obtain ⟨statements, bindings⟩ := unit
    rw [chart_run ha]
    exact chart_le ha

theorem Precedes.chart_le {s' : Session} (h : s.Precedes s') : (s.chart plain).Le (s'.chart plain) := by
  induction h with
  | refl => exact ⟨fun _ _ => rfl, le_rfl, rfl⟩
  | run n source _ ih => exact ih.trans (chart_le_run _ source n)
  | takeWritten _ ih => exact ih

/-- The moments at which code of a unit may run, those of the unit and those of all units after it, with what is known
then of the nodes. -/
inductive VisitsSince (s : Session) (source : String) (bindings : Bindings) : Chart → Moment → Prop
  | now {n : Nat} {k : Moment} {statements : List Stmt} : s.accepted? source = some (statements, bindings) →
    Moment.Visits ⟨n, .unit statements, s.ready bindings⟩ k →
      VisitsSince s source bindings (s.chartOf false source bindings) k
  | later {n n' : Nat} {s' : Session} {source' : String} {k : Moment} {statements statements' : List Stmt}
    {bindings' : Bindings} : s.accepted? source = some (statements, bindings) → (s.run n source).2.Precedes s' →
      s'.accepted? source' = some (statements', bindings') →
        Moment.Visits ⟨n', .unit statements', s'.ready bindings'⟩ k →
          VisitsSince s source bindings (s'.chartOf false source' bindings') k

theorem Reachable.beyond (h : s.Reachable) (ha : s.accepted? source = some (statements, bindings)) {id : NodeId}
    (hid : (s.read source).nextId ≤ id) : (s.ready bindings).bindings[id]? = none := by
  rw [bindings_ready, bindings_outside ha (.inr hid), h.sound.ahead id ((nextId_le_read s source).trans hid)]
  rfl

theorem VisitsSince.accepted {c : Chart} {k : Moment} (hk : s.VisitsSince source bindings c k) :
    ∃ statements, s.accepted? source = some (statements, bindings) := by
  cases hk with
  | now ha => exact ⟨_, ha⟩
  | later ha => exact ⟨_, ha⟩

/-- Wherever code of the unit may run, the distances of the unit are known, and none of a node to come. -/
theorem VisitsSince.stands {c : Chart} {k : Moment} (hk : s.VisitsSince source bindings c k) (h : s.Reachable) :
    (s.chartOf false source bindings).Le c ∧ (∃ l, k.Fits c l) ∧ ∀ id, c.limit ≤ id → c.bindings[id]? = none := by
  cases hk with
  | now ha hvisits => exact ⟨⟨fun _ _ => rfl, le_rfl, rfl⟩, h.fits_unit ha hvisits, fun _ => h.beyond ha⟩
  | later ha hp ha' hvisits =>
    have hs' := hp.reachable (.run _ source h)
    have hle : ((s.run _ source).2.chart false).Le _ := hp.chart_le.trans (chart_le ha')
    rw [chart_run ha] at hle
    exact ⟨hle, hs'.fits_unit ha' hvisits, fun _ => hs'.beyond ha'⟩

end Units

end Session

end LoxLang
