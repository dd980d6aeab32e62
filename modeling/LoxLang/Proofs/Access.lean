import LoxLang.Proofs.Scoping.Frames
import Mathlib.Order.Bounds.Basic

/-! Access by name and access at a distance. The one searches a frame and those around it, the other takes a number of
steps outward and looks into the frame it arrives at. They agree at the least distance at which the name is found. -/

namespace LoxLang

namespace Frames

/-- The stores that the operations on frames build. -/
inductive Built : Frames → Prop
  | empty : Built .empty
  | new {fs : Frames} (names : Names) : Built fs → Built (fs.add none names)
  | child {fs : Frames} {f : FrameId} (names : Names) : Built fs → f < fs.size → Built (fs.add (some f) names)
  | define {fs : Frames} (f : FrameId) (x : String) (v : Value) : Built fs → Built (fs.define f x v)
  | assign {fs : Frames} (f : FrameId) (x : String) (v : Value) : Built fs → Built (fs.assign f x v).2
  | assignAt {fs : Frames} (f : FrameId) (d : Nat) (x : String) (v : Value) : Built fs →
    Built (fs.assignAt f d x v).2

variable {fs gs : Frames} {f g : FrameId} {x : String} {v : Value} {k : Nat}

/-- Every frame is newer than the one it is inside of. -/
def Descending (fs : Frames) : Prop := ∀ f g, fs.outer? f = some g → g < f

theorem outer?_assign (fs : Frames) (f : FrameId) (x : String) (v : Value) (g : FrameId) :
    (fs.assign f x v).2.outer? g = fs.outer? g := by
  unfold assign
  split
  · exact outer?_define ..
  · rfl

theorem outer?_assignAt (fs : Frames) (f : FrameId) (d : Nat) (x : String) (v : Value) (g : FrameId) :
    (fs.assignAt f d x v).2.outer? g = fs.outer? g := by
  unfold assignAt
  split
  · split
    · exact outer?_define ..
    · rfl
  · rfl

theorem Descending.add (h : fs.Descending) {outer : Option FrameId} (ho : ∀ g ∈ outer, g < fs.size) (names : Names) :
    (fs.add outer names).Descending := by
  intro f g hg
  rw [outer?_add] at hg
  split at hg
  · rename_i hf
    exact hf ▸ ho g hg
  · exact h f g hg

theorem Built.descending (h : fs.Built) : fs.Descending := by
  induction h with
  | empty => intro f g hg; cases hg
  | new names _ ih => exact ih.add (by simp) names
  | child names _ hf ih => exact ih.add (by simpa using hf) names
  | define f x v _ ih => exact fun g k hk => ih g k (by rwa [outer?_define] at hk)
  | assign f x v _ ih => exact fun g k hk => ih g k (by rwa [outer?_assign] at hk)
  | assignAt f d x v _ ih => exact fun g k hk => ih g k (by rwa [outer?_assignAt] at hk)

/-- A walk outward ends before its bound does, so that the bound does not matter. -/
theorem Descending.walk_eq (h : fs.Descending) {n m : Nat} (hn : f < n) (hm : f < m) :
    chain.walk fs n f = chain.walk fs m f := by
  induction n generalizing f m with
  | zero => cases hn
  | succ n ih =>
    cases m with
    | zero => cases hm
    | succ m =>
      unfold chain.walk
      cases hg : fs.outer? f with
      | none => rfl
      | some g =>
        have hlt := h f g hg
        exact congrArg (f :: ·) (ih (hlt.trans_le (Nat.le_of_lt_succ hn)) (hlt.trans_le (Nat.le_of_lt_succ hm)))

theorem Descending.chain_eq (h : fs.Descending) (f : FrameId) : fs.chain f = f :: ((fs.outer? f).elim [] fs.chain) := by
  rw [chain, chain.walk]
  cases hg : fs.outer? f with
  | none => rfl
  | some g => exact congrArg (f :: ·) (h.walk_eq (h f g hg) g.lt_succ_self)

/-- A name is looked for in the frame itself, then in the one around it. -/
theorem Descending.holder?_eq (h : fs.Descending) (f : FrameId) (x : String) :
    fs.holder? f x = if (fs.here? f x).isSome then some f else (fs.outer? f).bind fun g => fs.holder? g x := by
  unfold holder?
  rw [h.chain_eq, List.find?_cons]
  cases (fs.here? f x).isSome with
  | true => rfl
  | false => cases fs.outer? f <;> rfl

/-- The frame a number of steps outward is there and has the name. -/
def HasAt (fs : Frames) (f : FrameId) (x : String) (k : Nat) : Prop := ∃ g, fs.ancestor? f k = some g ∧ fs.Has g x

theorem hasAt_zero : fs.HasAt f x 0 ↔ fs.Has f x := by simp [HasAt, ancestor?]

theorem hasAt_succ : fs.HasAt f x (k + 1) ↔ ∃ g, fs.outer? f = some g ∧ fs.HasAt g x k := by
  cases hg : fs.outer? f <;> simp [HasAt, ancestor?, hg]

theorem hasAt_iff : fs.HasAt f x k ↔ (fs.getAt? f k x).isSome := by
  cases hg : fs.ancestor? f k <;> simp [HasAt, getAt?, Has, hg]

/-- The search by name arrives where the walk of as many steps as are needed does. -/
theorem Descending.holder?_of_least (h : fs.Descending) (hk : IsLeast {k | fs.HasAt f x k} k) :
    fs.holder? f x = fs.ancestor? f k := by
  induction k generalizing f with
  | zero =>
    have hf : (fs.here? f x).isSome := hasAt_zero.mp hk.1
    rw [h.holder?_eq, if_pos hf]
    rfl
  | succ k ih =>
    obtain ⟨g, hg, hx⟩ := hasAt_succ.mp hk.1
    have hf : ¬(fs.here? f x).isSome := fun hf => k.not_succ_le_zero (hk.2 (hasAt_zero.mpr hf))
    have hleast : IsLeast {k | fs.HasAt g x k} k :=
      ⟨hx, fun j hj => Nat.le_of_succ_le_succ (hk.2 (hasAt_succ.mpr ⟨g, hg, hj⟩))⟩
    rw [h.holder?_eq, if_neg hf, ancestor?, hg]
    exact ih hleast

theorem Descending.holder?_eq_none (h : fs.Descending) (hx : ∀ k, ¬fs.HasAt f x k) : fs.holder? f x = none := by
  induction f using Nat.strong_induction_on with
  | _ f ih =>
    have hf : ¬(fs.here? f x).isSome := fun hf => hx 0 (hasAt_zero.mpr hf)
    rw [h.holder?_eq, if_neg hf]
    cases hg : fs.outer? f with
    | none => rfl
    | some g => exact ih g (h f g hg) fun k hk => hx (k + 1) (hasAt_succ.mpr ⟨g, hg, hk⟩)

/-- One store is the other with one name of one frame overwritten. -/
structure Overwrites (fs gs : Frames) (g : FrameId) (x : String) (v : Value) : Prop where
  size : gs.size = fs.size
  outer : ∀ f, gs.outer? f = fs.outer? f
  here : gs.here? g x = some v
  others : ∀ f y, f ≠ g ∨ y ≠ x → gs.here? f y = fs.here? f y

theorem overwrites_define (hx : fs.Has g x) (v : Value) : Overwrites fs (fs.define g x v) g x v where
  size := size_define fs g x v
  outer f := outer?_define fs g f x v
  here := here?_define_self (lt_of_has hx) x v
  others _ _ h := here?_define_of_ne fs v h

/-- Overwriting what a frame has adds no name to any. -/
theorem hasAt_define (hx : fs.Has g x) (v : Value) (k : Nat) : (fs.define g x v).HasAt f x k ↔ fs.HasAt f x k := by
  unfold HasAt
  simp only [ancestor?_define]
  refine exists_congr fun a => and_congr_right fun _ => ?_
  rw [has_define (lt_of_has hx)]
  exact ⟨fun h => h.elim id fun h => h.1 ▸ hx, .inl⟩

/-- What an access by name comes to when the name is found after `k` steps and no sooner. -/
structure AgreesAt (fs : Frames) (f : FrameId) (x : String) (v : Value) (k : Nat) : Prop where
  reads : ∃ w, fs.get? f x = some w ∧ fs.getAt? f k x = some w
  writes : ∃ g gs, fs.ancestor? f k = some g ∧ fs.assign f x v = (true, gs) ∧ fs.assignAt f k x v = (true, gs) ∧
    Overwrites fs gs g x v ∧ gs.get? f x = some v

theorem Built.agreesAt (h : fs.Built) (hk : IsLeast {k | fs.HasAt f x k} k) (v : Value) : AgreesAt fs f x v k := by
  obtain ⟨g, hg, hx⟩ := hk.1
  have hholder : fs.holder? f x = some g := (h.descending.holder?_of_least hk).trans hg
  obtain ⟨w, hw⟩ := Option.isSome_iff_exists.mp hx
  have hassign : fs.assign f x v = (true, fs.define g x v) := by rw [Frames.assign, hholder]
  have hleast : IsLeast {k | (fs.define g x v).HasAt f x k} k := by simpa only [hasAt_define hx v] using hk
  have hholder' : (fs.define g x v).holder? f x = some g :=
    ((h.define g x v).descending.holder?_of_least hleast).trans (by rwa [ancestor?_define])
  have hover := overwrites_define hx v
  exact ⟨⟨w, by rw [get?, hholder]; exact hw, by rw [getAt?, hg]; exact hw⟩,
    g, _, hg, hassign, assignAt_of_has hg hx v, hover, by rw [get?, hholder']; exact hover.here⟩

theorem assignAt_of_false (h : (fs.assignAt f k x v).1 = false) : (fs.assignAt f k x v).2 = fs := by
  revert h
  unfold assignAt
  split
  · split
    · exact fun h => Bool.noConfusion h
    · exact fun _ => rfl
  · exact fun _ => rfl

/-- By-name and by-distance access agree, at the least distance at which the name is found. A name found at none is
not read and not overwritten, and a write at a distance that fails changes nothing. -/
theorem access_agrees (h : fs.Built) (f : FrameId) (x : String) (v : Value) :
    (∀ k, IsLeast {k | fs.HasAt f x k} k → AgreesAt fs f x v k) ∧
    ((∀ k, ¬fs.HasAt f x k) → fs.get? f x = none ∧ fs.assign f x v = (false, fs)) ∧
    ∀ k, (fs.assignAt f k x v).1 = false → (fs.assignAt f k x v).2 = fs := by
  refine ⟨fun k hk => h.agreesAt hk v, fun hx => ?_, fun k => assignAt_of_false⟩
  have hnone := h.descending.holder?_eq_none hx
  exact ⟨by rw [get?, hnone]; rfl, by rw [Frames.assign, hnone]⟩

/-- Two names outside, one of them again in the middle, and an empty frame inside. -/
private def shadowed : Frames :=
  let outside := ((Frames.empty.add none ∅).define 0 "x" (.bool true)).define 0 "y" .nil
  ((outside.add (some 0) ∅).define 1 "x" (.string "shadow")).add (some 1) ∅

private theorem built_shadowed : shadowed.Built :=
  .child ∅ (.define 1 "x" _ (.child ∅ (.define 0 "y" _ (.define 0 "x" _ (.new ∅ .empty))) (by decide))) (by decide)

theorem access_agrees_shadowed :
    shadowed.Built ∧ AgreesAt shadowed 2 "x" (.bool false) 1 ∧ AgreesAt shadowed 2 "y" (.bool false) 2 ∧
      shadowed.getAt? 2 1 "x" = some (.string "shadow") ∧ shadowed.get? 2 "z" = none := by
  obtain ⟨hx, -⟩ := access_agrees built_shadowed 2 "x" (.bool false)
  obtain ⟨hy, -⟩ := access_agrees built_shadowed 2 "y" (.bool false)
  obtain ⟨-, hz, -⟩ := access_agrees built_shadowed 2 "z" .nil
  refine ⟨built_shadowed, hx 1 ⟨hasAt_iff.mpr (by decide +kernel), fun k hk => ?_⟩,
    hy 2 ⟨hasAt_iff.mpr (by decide +kernel), fun k hk => ?_⟩, by decide +kernel, (hz fun k hk => ?_).1⟩
  · rcases k with _ | k
    · exact absurd (hasAt_iff.mp hk) (by decide +kernel)
    · exact Nat.le_add_left 1 k
  · rcases k with _ | _ | k
    iterate 2 exact absurd (hasAt_iff.mp hk) (by decide +kernel)
    exact Nat.le_add_left 2 k
  · rcases k with _ | _ | _ | k
    iterate 3 exact absurd (hasAt_iff.mp hk) (by decide +kernel)
    -- there are three frames
    obtain ⟨g, hg, -⟩ := hk
    cases hg

end Frames

end LoxLang
