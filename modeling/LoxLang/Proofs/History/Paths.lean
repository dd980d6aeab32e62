import LoxLang.Proofs.Captures.Trails
import LoxLang.Proofs.Classes.Visits
import LoxLang.Proofs.History.Steps

/-! Stores followed from part to part. Between the parts of code, and before and behind them, the store changes step by
step; so from the beginning of code to its end there are only such steps. -/

namespace LoxLang

/-- From one store to another by way of code that runs; between pieces of it there are single changes. -/
inductive Path : Store → List Moment → Store → Prop
  | done {s t : Store} : s.Reaches t → Path s [] t
  | part {s t : Store} {p : Moment} {ps : List Moment} : s.Reaches p.machine.store → Path p.after.store ps t →
    Path s (p :: ps) t

namespace Path

variable {r s t : Store} {ps front back : List Moment} {p q : Moment}

theorem before (h : Path s ps t) (hs : r.Reaches s) : Path r ps t := by
  cases h with
  | done ht => exact .done (hs.trans ht)
  | part hp hps => exact .part (hs.trans hp) hps

theorem append (h : Path r front s) (h' : Path s back t) : Path r (front ++ back) t := by
  induction h with
  | done hs => exact h'.before hs
  | part hp _ ih => exact .part hp (ih h')

theorem split (h : Path s (front ++ back) t) : ∃ r, Path s front r ∧ Path r back t := by
  induction front generalizing s with
  | nil => exact ⟨s, .done .refl, h⟩
  | cons p front ih =>
    cases h with
    | part hp h =>
      obtain ⟨r, hfront, hback⟩ := ih h
      exact ⟨r, .part hp hfront, hback⟩

theorem reaches (h : Path s ps t) (hps : ∀ p ∈ ps, p.machine.store.Reaches p.after.store) : s.Reaches t := by
  induction h with
  | done ht => exact ht
  | part hp _ ih =>
    rw [List.forall_mem_cons] at hps
    exact (hp.trans hps.1).trans (ih hps.2)

theorem reaches_of_mem (h : Path s ps t) (hps : ∀ p ∈ ps, p.machine.store.Reaches p.after.store) (hp : p ∈ ps) :
    s.Reaches p.machine.store ∧ p.after.store.Reaches t := by
  obtain ⟨front, back, rfl⟩ := List.append_of_mem hp
  obtain ⟨r, hfront, hback⟩ := h.split
  cases hback with
  | part hr hback =>
    have hbefore := hfront.reaches fun p hp => hps p (List.mem_append_left _ hp)
    exact ⟨hbefore.trans hr, hback.reaches fun p hp => hps p (List.mem_append_right _ (List.mem_cons_of_mem _ hp))⟩

theorem reaches_between (h : Path s (front ++ back) t)
    (hps : ∀ p ∈ front ++ back, p.machine.store.Reaches p.after.store) (hp : p ∈ front) (hq : q ∈ back) :
    p.after.store.Reaches q.machine.store := by
  obtain ⟨r, hfront, hback⟩ := h.split
  have hpr := (hfront.reaches_of_mem (fun p hp => hps p (List.mem_append_left _ hp)) hp).2
  exact hpr.trans (hback.reaches_of_mem (fun q hq => hps q (List.mem_append_right _ hq)) hq).1

end Path

namespace Moment

variable {k : Moment} {ps : List Moment} {s : Store}

theorem Course.path (h : k.Course s ps) (hk : ∀ f x, k.Writes f x → x ∉ reserved) : Path s ps k.after.store := by
  induction h with
  | done hchanges _ => exact .done (Store.Changes.reaches hchanges hk)
  | part hadditions _ ih => exact .part (Store.Additions.reaches hadditions) ih

variable {past : Moment → Prop} {c : Chart} {l : Layout} {around : Option Enclosure}

/-- Code in a lawful place neither assigns nor declares a reserved name. -/
theorem Lawful.not_reserved (hk : k.Lawful past c l around) {f : FrameId} {x : String} (h : k.Writes f x) :
    x ∉ reserved := by
  have hcode := hk.code
  cases h with
  | @assigns n d id name e => exact hcode.proper ⟨.assign, id, name⟩ List.mem_cons_self
  | declares _ hx => exact hcode.tidy.declares_not_reserved _ hx

/-- The store along a run from a lawful place, from part to part. -/
theorem Lawful.path (hk : k.Lawful past c l around) : Path k.machine.store k.parts k.after.store :=
  k.course.path fun _ _ => hk.not_reserved

end Moment

end LoxLang
