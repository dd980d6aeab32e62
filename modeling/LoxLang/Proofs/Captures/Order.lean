import LoxLang.Proofs.Captures.Trails

/-! The order in which code runs. Code comes before other code if it is in a part that has ended when the part begins in
which the other is. A value that a frame had behind some code and no longer has before other code was written by code
that comes between the two. -/

namespace LoxLang

open Frames

namespace Moment

/-- Among code that runs piece by piece, and inside the pieces, one moment comes before another. -/
inductive Before : List Moment → Moment → Moment → Prop
  | apart {front back : List Moment} {p q a b : Moment} : p ∈ front → p.Visits a → q ∈ back → q.Visits b →
    Before (front ++ back) a b
  | inside {ps : List Moment} {r a b : Moment} : r ∈ ps → Before r.parts a b → Before ps a b

variable {ps front back : List Moment} {a b k : Moment}

theorem Before.prepend (h : Before back a b) (front : List Moment) : Before (front ++ back) a b := by
  cases h with
  | apart hp ha hq hb =>
    rw [← List.append_assoc]
    exact .apart (List.mem_append_right _ hp) ha hq hb
  | inside hr h => exact .inside (List.mem_append_right _ hr) h

theorem Before.visited (h : Before ps a b) : (∃ p ∈ ps, p.Visits a) ∧ ∃ q ∈ ps, q.Visits b := by
  induction h with
  | apart hp ha hq hb => exact ⟨⟨_, List.mem_append_left _ hp, ha⟩, _, List.mem_append_right _ hq, hb⟩
  | inside hr _ ih =>
    obtain ⟨⟨p, hp, ha⟩, q, hq, hb⟩ := ih
    exact ⟨⟨_, hr, ha.head (mem_parts_iff.mp hp)⟩, _, hr, hb.head (mem_parts_iff.mp hq)⟩

theorem Before.behind {c : Moment} (h : Before ps a b) (hbc : b.Visits c) : Before ps a c := by
  induction h with
  | apart hp ha hq hb => exact .apart hp ha hq (hb.trans hbc)
  | inside hr _ ih => exact .inside hr (ih hbc)

/-- Code that comes before other code inside a part does so in the whole. -/
theorem Before.of_visits {p : Moment} (h : Before k.parts a b) (hp : p ∈ ps) (hk : p.Visits k) : Before ps a b := by
  induction hk using Relation.ReflTransGen.head_induction_on generalizing ps with
  | refl => exact .inside hp h
  | head hstep _ ih => exact .inside hp (ih (mem_parts_iff.mpr hstep))

end Moment

open Moment

variable {m u : Machine} {ps front back : List Moment} {k p q : Moment} {f : FrameId} {x : String}

theorem Trail.split (h : Trail m (front ++ back) u) : ∃ t, Trail m front t ∧ Trail t back u := by
  induction front generalizing m with
  | nil => exact ⟨m, .done (.refl _), h⟩
  | cons p front ih =>
    cases h with
    | part hp h =>
      obtain ⟨t, hfront, hback⟩ := ih h
      exact ⟨t, .part hp hfront, hback⟩

theorem Trail.later_of_parts (h : Trail m ps u) (hps : ∀ p ∈ ps, Later p.machine.store.frames p.after.store.frames) :
    Later m.store.frames u.store.frames := by
  induction h with
  | done hu => exact hu.toLater
  | part hp _ ih =>
    rw [List.forall_mem_cons] at hps
    exact (hp.toLater.trans hps.1).trans (ih hps.2)

namespace Moment

/-- Frames stay where they are. -/
theorem later_after (k : Moment) : Later k.machine.store.frames k.after.store.frames := by
  induction k using parts_induction with
  | hparts k ih =>
    obtain ⟨u, htrail, hu⟩ := k.traced
    exact (htrail.later_of_parts ih).trans hu.later

end Moment

theorem Trail.later (h : Trail m ps u) : Later m.store.frames u.store.frames := h.later_of_parts fun p _ => p.later_after

theorem Trail.later_of_mem (h : Trail m ps u) (hp : p ∈ ps) :
    Later m.store.frames p.machine.store.frames ∧ Later p.after.store.frames u.store.frames := by
  obtain ⟨front, back, rfl⟩ := List.append_of_mem hp
  obtain ⟨t, hfront, hback⟩ := h.split
  cases hback with
  | part hp hback => exact ⟨hfront.later.trans hp.toLater, hback.later⟩

theorem Trail.later_between (h : Trail m (front ++ back) u) (hp : p ∈ front) (hq : q ∈ back) :
    Later p.after.store.frames q.machine.store.frames := by
  obtain ⟨t, hfront, hback⟩ := h.split
  exact (hfront.later_of_mem hp).2.trans (hback.later_of_mem hq).1

namespace Moment

theorem later_of_starts (h : k.Starts p) :
    Later k.machine.store.frames p.machine.store.frames ∧ Later p.after.store.frames k.after.store.frames := by
  obtain ⟨u, htrail, hu⟩ := k.traced
  obtain ⟨hbefore, hbehind⟩ := htrail.later_of_mem (mem_parts_iff.mpr h)
  exact ⟨hbefore, hbehind.trans hu.later⟩

theorem later_of_visits (h : k.Visits p) :
    Later k.machine.store.frames p.machine.store.frames ∧ Later p.after.store.frames k.after.store.frames := by
  induction h with
  | refl => exact ⟨.refl _, .refl _⟩
  | tail _ hstep ih =>
    obtain ⟨hbefore, hbehind⟩ := later_of_starts hstep
    exact ⟨ih.1.trans hbefore, hbehind.trans ih.2⟩

end Moment

theorem Trail.later_before {i : Moment} (h : Trail m ps u) (hik : Before ps i k) :
    Later i.after.store.frames k.machine.store.frames := by
  induction hik generalizing m u with
  | apart hp hi hq hk =>
    exact ((later_of_visits hi).2.trans (h.later_between hp hq)).trans (later_of_visits hk).1
  | @inside ps r i k hr _ ih =>
    obtain ⟨u', htrail, -⟩ := r.traced
    exact ih htrail

/-- A value that changes on the way is changed by one of the pieces. -/
theorem Trail.changed (h : Trail m ps u) (hf : f < m.store.frames.size)
    (hne : u.store.frames.here? f x ≠ m.store.frames.here? f x) :
    ∃ p ∈ ps, f < p.machine.store.frames.size ∧
      p.after.store.frames.here? f x ≠ p.machine.store.frames.here? f x := by
  induction h with
  | done hu => exact absurd (hu.here? hf x) hne
  | @part m u p ps hp _ ih =>
    have hfp := hf.trans_le hp.size
    by_cases hchanged : p.after.store.frames.here? f x = p.machine.store.frames.here? f x
    · rw [← hp.here? hf x, ← hchanged] at hne
      obtain ⟨q, hq, hfq, hne⟩ := ih (hfp.trans_le p.later_after.size) hne
      exact ⟨q, List.mem_cons_of_mem _ hq, hfq, hne⟩
    · exact ⟨p, List.mem_cons_self, hfp, hchanged⟩

namespace Moment

/-- A value that code changes is written by code that it visits. -/
theorem exists_writes (k : Moment) (hf : f < k.machine.store.frames.size)
    (hne : k.after.store.frames.here? f x ≠ k.machine.store.frames.here? f x) : ∃ w, k.Visits w ∧ w.Writes f x := by
  induction k using parts_induction with
  | hparts k ih =>
    obtain ⟨u, htrail, hu⟩ := k.traced
    by_cases hchanged : u.store.frames.here? f x = k.machine.store.frames.here? f x
    · rw [← hchanged] at hne
      exact ⟨k, .refl, hu.wrote f (hf.trans_le htrail.later.size) x hne⟩
    · obtain ⟨p, hp, hfp, hne⟩ := htrail.changed hf hchanged
      obtain ⟨w, hw, hwrites⟩ := ih p hp hfp hne
      exact ⟨w, hw.head (mem_parts_iff.mp hp), hwrites⟩

end Moment

theorem Trail.exists_writes (h : Trail m ps u) (hf : f < m.store.frames.size)
    (hne : u.store.frames.here? f x ≠ m.store.frames.here? f x) : ∃ p ∈ ps, ∃ w, p.Visits w ∧ w.Writes f x := by
  obtain ⟨p, hp, hfp, hne⟩ := h.changed hf hne
  obtain ⟨w, hw, hwrites⟩ := p.exists_writes hfp hne
  exact ⟨p, hp, w, hw, hwrites⟩

theorem Trail.writes_front (h : Trail m ps u) (hq : q ∈ ps) (hk : q.Visits k) (hf : f < m.store.frames.size)
    (hne : q.machine.store.frames.here? f x ≠ m.store.frames.here? f x) : ∃ w, w.Writes f x ∧ Before ps w k := by
  obtain ⟨front, back, rfl⟩ := List.append_of_mem hq
  obtain ⟨t, hfront, hback⟩ := h.split
  cases hback with
  | part hkept _ =>
    rw [hkept.here? (hf.trans_le hfront.later.size)] at hne
    obtain ⟨p, hp, w, hw, hwrites⟩ := hfront.exists_writes hf hne
    exact ⟨w, hwrites, .apart hp hw List.mem_cons_self hk⟩

/-- What has changed when code begins was written before it. -/
theorem Trail.writes_before (h : Trail m ps u) (hq : q ∈ ps) (hk : q.Visits k) (hf : f < m.store.frames.size)
    (hne : k.machine.store.frames.here? f x ≠ m.store.frames.here? f x) : ∃ w, w.Writes f x ∧ Before ps w k := by
  induction hk using Relation.ReflTransGen.head_induction_on generalizing m ps u with
  | refl => exact h.writes_front hq .refl hf hne
  | @head q r hstep hk ih =>
    by_cases hchanged : q.machine.store.frames.here? f x = m.store.frames.here? f x
    · obtain ⟨u', htrail, -⟩ := q.traced
      rw [← hchanged] at hne
      obtain ⟨w, hwrites, hw⟩ := ih htrail (mem_parts_iff.mpr hstep) (hf.trans_le (h.later_of_mem hq).1.size) hne
      exact ⟨w, hwrites, .inside hq hw⟩
    · exact h.writes_front hq (hk.head hstep) hf hchanged

namespace Moment

/-- What has changed when code ends since a part of it ended was written behind the part, or by the code around it. -/
theorem writes_behind {i : Moment} (hi : k.Visits i) (hf : f < i.after.store.frames.size)
    (hne : k.after.store.frames.here? f x ≠ i.after.store.frames.here? f x) :
    ∃ w, w.Writes f x ∧ k.Visits w ∧ (Before k.parts i w ∨ w.Visits i) := by
  induction hi using Relation.ReflTransGen.head_induction_on with
  | refl => exact absurd rfl hne
  | @head k p hstep hi ih =>
    by_cases hpart : p.after.store.frames.here? f x = i.after.store.frames.here? f x
    · obtain ⟨u, htrail, hu⟩ := k.traced
      obtain ⟨front, back, hparts⟩ := List.append_of_mem (mem_parts_iff.mpr hstep)
      rw [hparts] at htrail
      obtain ⟨t, -, hback⟩ := htrail.split
      cases hback with
      | part hp hback =>
        have hfp := hf.trans_le (later_of_visits hi).2.size
        rw [← hpart] at hne
        by_cases hlast : u.store.frames.here? f x = p.after.store.frames.here? f x
        · rw [← hlast] at hne
          exact ⟨k, hu.wrote f (hfp.trans_le hback.later.size) x hne, .refl, .inr (hi.head hstep)⟩
        · obtain ⟨q, hq, w, hw, hwrites⟩ := hback.exists_writes hfp hlast
          have hmem : q ∈ k.parts := by
            rw [hparts]
            exact List.mem_append_right _ (List.mem_cons_of_mem _ hq)
          refine ⟨w, hwrites, hw.head (mem_parts_iff.mp hmem), .inl ?_⟩
          rw [hparts, List.append_cons]
          exact .apart (List.mem_append_right _ (List.mem_singleton_self _)) hi hq hw
    · obtain ⟨w, hwrites, hw, horder⟩ := ih hpart
      refine ⟨w, hwrites, hw.head hstep, horder.imp_left fun hbefore => ?_⟩
      exact .inside (mem_parts_iff.mpr hstep) hbefore

end Moment

/-- What has changed between two moments was written between them, or by the code around the first. -/
theorem Trail.writes_between {i : Moment} (h : Trail m ps u) (hik : Before ps i k) (hf : f < i.after.store.frames.size)
    (hne : k.machine.store.frames.here? f x ≠ i.after.store.frames.here? f x) :
    ∃ w, w.Writes f x ∧ (Before ps i w ∨ w.Visits i) ∧ Before ps w k := by
  induction hik generalizing m u with
  | @apart front back p q i k hp hi hq hk =>
    by_cases hpart : p.after.store.frames.here? f x = i.after.store.frames.here? f x
    · rw [← hpart] at hne
      have hfp := hf.trans_le (later_of_visits hi).2.size
      obtain ⟨front, rest, rfl⟩ := List.append_of_mem hp
      rw [List.append_assoc, List.cons_append] at h
      obtain ⟨t, -, hrest⟩ := h.split
      cases hrest with
      | part _ hrest =>
        obtain ⟨w, hwrites, hw⟩ := hrest.writes_before (List.mem_append_right _ hq) hk hfp hne
        obtain ⟨⟨r, hr, hrw⟩, -⟩ := hw.visited
        rw [List.append_assoc, List.cons_append, List.append_cons]
        exact ⟨w, hwrites, .inl (.apart (List.mem_append_right _ (List.mem_singleton_self _)) hi hr hrw), hw.prepend _⟩
    · obtain ⟨w, hwrites, hw, horder⟩ := writes_behind hi hf hpart
      refine ⟨w, hwrites, horder.imp_left fun hbefore => ?_, .apart hp hw hq hk⟩
      exact .inside (List.mem_append_left _ hp) hbefore
  | @inside ps r i k hr _ ih =>
    obtain ⟨u', htrail, -⟩ := r.traced
    obtain ⟨w, hwrites, hiw, hwk⟩ := ih htrail hf hne
    exact ⟨w, hwrites, hiw.imp_left (.inside hr), .inside hr hwk⟩

end LoxLang
