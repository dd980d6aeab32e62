import LoxLang.Proofs.Captures.Closures

/-! The frames of a session, from unit to unit. All units run in the global frame, so what code has made in one of them
is written later only by functions that captured it. -/

namespace LoxLang

open Frames Moment

theorem Trail.append {m t u : Machine} {ps qs : List Moment} (h : Trail m ps t) (h' : Trail t qs u) :
    Trail m (ps ++ qs) u := by
  induction h with
  | done ht => exact h'.before ht
  | part hp _ ih => exact .part hp (ih h')

namespace Session

/-- The unit of a source as it begins to run, if it is accepted. -/
def begun (s : Session) (n : Nat) (source : String) : List Moment :=
  (s.accepted? source).toList.map fun unit => ⟨n, .unit unit.1, s.ready unit.2⟩

/-- From one session to another by way of the units that run, each from the moment at which it begins. -/
inductive Runs (s : Session) : List Moment → Session → Prop
  | refl : Runs s [] s
  | run {units : List Moment} {s' : Session} (n : Nat) (source : String) : Runs s units s' →
    Runs s (units ++ s'.begun n source) (s'.run n source).2
  | takeWritten {units : List Moment} {s' : Session} : Runs s units s' → Runs s units s'.takeWritten.2

variable {s s' : Session} {units : List Moment} {p i w k : Moment} {f : FrameId} {x : String}

theorem mem_begun {n : Nat} {source : String} :
    p ∈ s.begun n source ↔ ∃ unit, s.accepted? source = some unit ∧ p = ⟨n, .unit unit.1, s.ready unit.2⟩ := by
  simp only [begun, List.mem_map, Option.mem_toList, eq_comm (a := p)]

/-- Units are what sessions lead to one another by. -/
theorem precedes_iff_runs : s.Precedes s' ↔ ∃ units, s.Runs units s' := by
  constructor
  · intro h
    induction h with
    | refl => exact ⟨[], .refl⟩
    | run n source _ ih =>
      obtain ⟨units, hunits⟩ := ih
      exact ⟨_, hunits.run n source⟩
    | takeWritten _ ih =>
      obtain ⟨units, hunits⟩ := ih
      exact ⟨units, hunits.takeWritten⟩
  · rintro ⟨units, hunits⟩
    induction hunits with
    | refl => exact .refl
    | run n source _ ih => exact ih.run n source
    | takeWritten _ ih => exact ih.takeWritten

theorem Runs.reachable (h : s.Runs units s') (hs : s.Reachable) : s'.Reachable :=
  (precedes_iff_runs.mpr ⟨units, h⟩).reachable hs

/-- The frames of one unit. -/
theorem trail_begun (s : Session) (n : Nat) (source : String) :
    Trail s.machine (s.begun n source) (s.run n source).2.machine := by
  unfold begun
  cases ha : s.accepted? source with
  | none =>
    obtain ⟨sink, hs⟩ := run_of_refused ha n
    rw [hs]
    exact .done (.refl _)
  | some unit =>
    have hafter : (s.run n source).2.machine = after ⟨n, .unit unit.1, s.ready unit.2⟩ := (run_conclude ha n).2
    rw [hafter]
    exact .part (.refl _) (.done (.refl _))

theorem Runs.trail (h : s.Runs units s') : Trail s.machine units s'.machine := by
  induction h with
  | refl => exact .done (.refl _)
  | run n source _ ih => exact ih.append (trail_begun _ n source)
  | takeWritten _ ih =>
    rename_i t _
    have hend : Trail t.machine [] t.takeWritten.2.machine := .done (.refl _)
    simpa using ih.append hend

theorem Runs.globals (h : s.Runs units s') : s'.machine.globals = s.machine.globals := by
  induction h with
  | refl => rfl
  | @run units s' n source h ih =>
    rw [← ih]
    cases ha : s'.accepted? source with
    | none =>
      obtain ⟨sink, hs'⟩ := run_of_refused ha n
      rw [hs']
    | some unit =>
      rw [(run_conclude ha n).2]
      exact congrArg Context.globals (steady_interpret n unit.1 (s'.ready unit.2))
  | takeWritten _ ih => exact ih

/-- A unit begins in the global frame, and fits there. -/
theorem Runs.stands (h : s.Runs units s') (hs : s.Reachable) (hp : p ∈ units) :
    p.machine.current = s.machine.globals ∧ p.machine.globals = s.machine.globals ∧ ∃ c l, p.Fits c l := by
  induction h with
  | refl => cases hp
  | @run units s' n source h ih =>
    rcases List.mem_append.mp hp with hp | hp
    · exact ih hp
    · obtain ⟨unit, ha, rfl⟩ := mem_begun.mp hp
      have hs' := h.reachable hs
      exact ⟨hs'.atRest.1.trans (h.globals), h.globals, _, hs'.fits_unit ha .refl⟩
  | takeWritten _ ih => exact ih hp

theorem Runs.fits (h : s.Runs units s') (hs : s.Reachable) (hp : p ∈ units) (hk : p.Visits k) : ∃ c l, k.Fits c l := by
  obtain ⟨-, -, c, l, hfits⟩ := h.stands hs hp
  exact ⟨c, fits_of_visits hk hfits⟩

/-- Around the global frame is nothing that a unit makes. -/
theorem Runs.secluded (h : s.Runs units s') (hs : s.Reachable) : Secluded (fun _ => False) units := by
  rintro front back rfl p hp q hq f hf - ha
  obtain ⟨hcurrent, hglobals, c, l, hfits⟩ := h.stands hs (List.mem_append_right _ hq)
  have hroot := hfits.sound.store.root
  rw [hglobals, ← hcurrent] at hroot
  have hwithin := hs.sound.machine.store.within.trans_le (h.trail.later_of_mem (List.mem_append_left _ hp)).1.size
  rw [← hcurrent, ← ha.of_root hroot] at hwithin
  exact absurd hwithin hf.not_gt

/-- What code makes, behind it only functions that captured it write. -/
theorem Runs.byCaptor (h : s.Runs units s') (hs : s.Reachable) (hiw : Before units i w)
    (hf : i.machine.store.frames.size ≤ f) (hfi : f < i.after.store.frames.size) (hw : w.Writes f x) :
    ∃ unit ∈ units, unit.ByCaptor f w := by
  obtain ⟨call, body, hcall, hbody⟩ := hiw.byCaptor h.trail (h.secluded hs) (fun p hp => h.fits hs hp .refl) hf hfi hw
  obtain ⟨unit, hunit, hcall⟩ := hcall.resolve_left id
  exact ⟨unit, hunit, call, body, hcall, hbody⟩

/-- What code makes keeps its value behind it, until a function writes there that captured it. -/
theorem Runs.keeps (h : s.Runs units s') (hs : s.Reachable) (hik : Before units i k)
    (hf : i.machine.store.frames.size ≤ f) (hfi : f < i.after.store.frames.size) :
    k.machine.store.frames.here? f x = i.after.store.frames.here? f x ∨
      ∃ w, Before units i w ∧ Before units w k ∧ w.Writes f x ∧ ∃ unit ∈ units, unit.ByCaptor f w := by
  refine or_iff_not_imp_left.mpr fun hne => ?_
  obtain ⟨w, hwrites, horder, hwk⟩ := h.trail.writes_between hik hfi hne
  -- code around it began before the frame was there
  have hiw : Before units i w := by
    refine horder.resolve_right fun hwi => ?_
    obtain ⟨⟨p, hp, hpw⟩, -⟩ := hwk.visited
    obtain ⟨c, l, hwf⟩ := h.fits hs hp hpw
    have hlt := (around_of_writes hwf hwrites).lt hwf.closed hwf.within
    exact hf.not_gt (hlt.trans_le (later_of_visits hwi).1.size)
  exact ⟨w, hiw, hwk, hwrites, h.byCaptor hs hiw hf hfi hwrites⟩

end Session

end LoxLang
