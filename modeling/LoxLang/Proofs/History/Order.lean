import LoxLang.Proofs.Captures.Sessions
import LoxLang.Proofs.Classes.Receivers
import LoxLang.Proofs.History.Paths
import LoxLang.Proofs.Values.Moments

/-! Stores one after the other in a session. What was there when some code ended reaches, change by change, the store
with which any later code begins, in the same unit or in a later one. -/

namespace LoxLang

open Run

/-- The moment stands in a lawful place. -/
def Moment.Legal (past : Moment → Prop) (k : Moment) : Prop := ∃ c l around, k.Lawful past c l around

/-- The moment is one of those that the units lead to. -/
def Passed (units : List Moment) (k : Moment) : Prop := ∃ unit ∈ units, unit.Visits k

variable {past past' : Moment → Prop} {k p q i : Moment}

theorem Moment.Legal.mono (h : k.Legal past) (hpast : ∀ k, past k → past' k) : k.Legal past' := by
  obtain ⟨c, l, around, hk⟩ := h
  exact ⟨c, l, around, hpast k hk.reached, ⟨hk.machine.bindings, hk.machine.store.mono (.refl c) hpast⟩,
    hk.stands.lasts (.refl _) hpast, hk.plain, hk.code⟩

theorem timeline_passed (units : List Moment) : Timeline (Passed units) := by
  rintro k k' ⟨unit, hunit, hvisits⟩ hstep
  exact ⟨unit, hunit, hvisits.tail hstep⟩

namespace Moment

section Runs

variable (hpast : Timeline past)

include hpast

/-- However the code ends, it leads to a lawful machine. -/
theorem Lawful.leads {c : Chart} {l : Layout} {around : Option Enclosure} (hk : k.Lawful past c l around) :
    k.machine.Leads past c k.after := by
  obtain ⟨n, code, m⟩ := k
  cases code with
  | expr d e => exact (leading hpast n).eval hk
  | arguments d es => exact guards_each (leading hpast n) hpast es hk
  | stmt s => exact (leading hpast n).exec hk
  | body statements => exact guards_sequence (leading hpast n) hpast statements hk
  | unit statements => exact guards_interpret hpast n statements hk

theorem Legal.starts (h : k.Legal past) (hstep : k.Starts p) : p.Legal past := by
  obtain ⟨c, l, around, hk⟩ := h
  exact ⟨c, hk.starts hpast hstep⟩

theorem Legal.visits (h : k.Legal past) (hp : k.Visits p) : p.Legal past := by
  obtain ⟨c, l, around, hk⟩ := h
  exact ⟨c, hk.visits hpast hp⟩

theorem Legal.path (h : k.Legal past) : Path k.machine.store k.parts k.after.store ∧ ∀ p ∈ k.parts, p.Legal past := by
  have hparts : ∀ p ∈ k.parts, p.Legal past := fun p hp => h.starts hpast (mem_parts_iff.mp hp)
  obtain ⟨c, l, around, hk⟩ := h
  exact ⟨hk.path, hparts⟩

/-- From the beginning of code to its end. -/
theorem Legal.reaches (h : k.Legal past) : k.machine.store.Reaches k.after.store := by
  induction k using parts_induction with
  | hparts k ih =>
    obtain ⟨hpath, hparts⟩ := h.path hpast
    exact hpath.reaches fun p hp => ih p hp (hparts p hp)

theorem Legal.reaches_of_starts (h : k.Legal past) (hp : k.Starts p) :
    k.machine.store.Reaches p.machine.store ∧ p.after.store.Reaches k.after.store := by
  obtain ⟨hpath, hparts⟩ := h.path hpast
  exact hpath.reaches_of_mem (fun q hq => (hparts q hq).reaches hpast) (mem_parts_iff.mpr hp)

theorem Legal.reaches_of_visits (h : k.Legal past) (hp : k.Visits p) :
    k.machine.store.Reaches p.machine.store ∧ p.after.store.Reaches k.after.store := by
  induction hp with
  | refl => exact ⟨.refl, .refl⟩
  | tail hq hstep ih =>
    obtain ⟨hbefore, hbehind⟩ := (h.visits hpast hq).reaches_of_starts hpast hstep
    exact ⟨ih.1.trans hbefore, hbehind.trans ih.2⟩

end Runs

/-- What a statement of a unit does comes before what those behind it do. -/
theorem before_behind {n : Nat} {s : Stmt} {rest : List Stmt} {m m' : Machine} (h : perform n s m = .ok () m')
    (hi : Visits (performs n m s) i) (hk : Visits ⟨n, .unit rest, m'⟩ k) : Before (parts ⟨n, .unit (s :: rest), m⟩) i k := by
  have hparts : parts ⟨n, .unit (s :: rest), m⟩ = [performs n m s] ++ [⟨n, .unit rest, m'⟩] := by
    change performs n m s :: (perform n s).upon m (fun _ t => [⟨n, .unit rest, t⟩]) = _
    rw [Halting.upon_of_ok h]
    rfl
  exact hparts ▸ .apart (List.mem_singleton_self _) hi (List.mem_singleton_self _) hk

/-- From the end of code to the beginning of later code. -/
theorem Before.reaches {ps : List Moment} (h : Before ps i k) (hpast : Timeline past) {s t : Store} (hpath : Path s ps t)
    (hps : ∀ p ∈ ps, p.Legal past) : i.after.store.Reaches k.machine.store := by
  induction h generalizing s t with
  | @apart front back p q i k hp hi hq hk =>
    have hpi := ((hps p (List.mem_append_left _ hp)).reaches_of_visits hpast hi).2
    have hqk := ((hps q (List.mem_append_right _ hq)).reaches_of_visits hpast hk).1
    exact (hpi.trans (hpath.reaches_between (fun r hr => (hps r hr).reaches hpast) hp hq)).trans hqk
  | @inside ps r i k hr _ ih =>
    obtain ⟨hpath, hparts⟩ := (hps r hr).path hpast
    exact ih hpath hparts

end Moment

namespace Session

variable {s s' : Session} {units : List Moment}

/-- The store along the units of a session. -/
theorem Runs.path (h : s.Runs units s') : Path s.machine.store units s'.machine.store := by
  induction h with
  | refl => exact .done .refl
  | @run units s' n source _ ih =>
    refine ih.append ?_
    unfold begun
    cases ha : s'.accepted? source with
    | none =>
      obtain ⟨sink, hs⟩ := run_of_refused ha n
      rw [hs]
      exact .done .refl
    | some unit =>
      have hafter : (s'.run n source).2.machine = Moment.after ⟨n, .unit unit.1, s'.ready unit.2⟩ := (run_conclude ha n).2
      rw [hafter]
      exact .part .refl (.done .refl)
  | takeWritten _ ih => exact ih

section Start

variable {prompt : Bool} {now : Number} {output diagnostics : Sink}
  (h : (start prompt now output diagnostics).Runs units s')

include h

theorem Runs.recorded : s'.Recorded (Passed units) := by
  induction h with
  | refl =>
    have hnone : Passed [] = fun _ => False := by
      funext k
      simp [Passed]
    exact hnone ▸ .start _ _ _ _
  | @run units s' n source _ ih =>
    have hpassed : Passed (units ++ s'.begun n source) = fun k => Passed units k ∨ s'.Visits n source k := by
      funext k
      simp only [Passed, List.mem_append, or_and_right, exists_or, mem_begun, Session.Visits, eq_iff_iff]
      refine or_congr_right ⟨?_, ?_⟩
      · rintro ⟨_, ⟨unit, ha, rfl⟩, hk⟩
        exact ⟨unit, ha, hk⟩
      · rintro ⟨unit, ha, hk⟩
        exact ⟨_, ⟨unit, ha, rfl⟩, hk⟩
    exact hpassed ▸ ih.run n source
  | takeWritten _ ih => exact ih.takeWritten

/-- Every moment of a session from its start stands in a lawful place, and begins and ends with a whole store. -/
theorem Runs.legal (hk : Passed units k) :
    k.Legal (Passed units) ∧ k.machine.store.Whole ∧ k.after.store.Whole := by
  induction h with
  | refl =>
    obtain ⟨unit, hunit, -⟩ := hk
    cases hunit
  | @run units s' n source h ih =>
    obtain ⟨unit, hunit, hvisits⟩ := hk
    rcases List.mem_append.mp hunit with hunit | hunit
    · obtain ⟨hlegal, hwhole⟩ := ih ⟨unit, hunit, hvisits⟩
      refine ⟨hlegal.mono fun p hp => ?_, hwhole⟩
      obtain ⟨unit, hunit, hp⟩ := hp
      exact ⟨unit, List.mem_append_left _ hunit, hp⟩
    · obtain ⟨code, ha, rfl⟩ := mem_begun.mp hunit
      have hs := h.reachable (.start prompt now output diagnostics)
      have hvisits : s'.Visits n source k := ⟨code, ha, hvisits⟩
      have hwhole := hs.whole_of_visits hvisits
      refine ⟨?_, hwhole, Moment.whole_after hwhole⟩
      obtain ⟨c, l, around, hlawful⟩ := h.recorded.visits hvisits
      refine Moment.Legal.mono ⟨c, l, around, hlawful⟩ fun p hp => ?_
      rcases hp with ⟨unit, hunit, hp⟩ | ⟨unit, ha, hp⟩
      · exact ⟨unit, List.mem_append_left _ hunit, hp⟩
      · exact ⟨_, List.mem_append_right _ (mem_begun.mpr ⟨unit, ha, rfl⟩), hp⟩
  | takeWritten _ ih => exact ih hk

theorem Runs.legal_units : ∀ p ∈ units, p.Legal (Passed units) := fun p hp => (h.legal ⟨p, hp, .refl⟩).1

/-- What is there behind some code is there before later code. -/
theorem Runs.reaches (hik : Moment.Before units i k) : i.after.store.Reaches k.machine.store :=
  hik.reaches (timeline_passed units) h.path h.legal_units

/-- Initializers are bound to instances from the start of a session on. -/
theorem Runs.bound (hk : Passed units k) : k.machine.store.Bound := by
  obtain ⟨unit, hunit, hvisits⟩ := hk
  have hstart : (start prompt now output diagnostics).machine.store.Bound := nofun
  have hlegal := h.legal_units
  have hbefore := (h.path.reaches_of_mem (fun p hp => (hlegal p hp).reaches (timeline_passed units)) hunit).1
  have hinside := ((hlegal unit hunit).reaches_of_visits (timeline_passed units) hvisits).1
  exact Store.Reaches.bound (hbefore.trans hinside) hstart

end Start

end Session

end LoxLang
