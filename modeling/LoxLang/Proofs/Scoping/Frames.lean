import LoxLang.Proofs.Binding.Layout
import LoxLang.Store.Frames

/-! Frames as a run goes on, and the frames that a layout stands for. A run adds frames and adds names to the frame
it runs in; every other frame keeps its names and its place, so what a layout tells of frames stays true. -/

namespace LoxLang

namespace Frames

variable {fs fs' fs'' : Frames} {f g globals : FrameId} {x : String} {v : Value}

/-- The frame has the name. -/
def Has (fs : Frames) (f : FrameId) (x : String) : Prop := (fs.here? f x).isSome

theorem here?_add (fs : Frames) (outer : Option FrameId) (names : Names) (g : FrameId) (x : String) :
    (fs.add outer names).here? g x = if g = fs.size then names[x]? else fs.here? g x := by
  unfold here? add size
  rw [Array.getElem?_push]
  split <;> rfl

theorem outer?_add (fs : Frames) (outer : Option FrameId) (names : Names) (g : FrameId) :
    (fs.add outer names).outer? g = if g = fs.size then outer else fs.outer? g := by
  unfold outer? add size
  rw [Array.getElem?_push]
  split <;> rfl

theorem size_add (fs : Frames) (outer : Option FrameId) (names : Names) :
    (fs.add outer names).size = fs.size + 1 := Array.size_push ..

theorem size_define (fs : Frames) (f : FrameId) (x : String) (v : Value) : (fs.define f x v).size = fs.size :=
  Array.size_modify ..

theorem lt_of_outer (h : fs.outer? f = some g) : f < fs.size := by
  by_contra hn
  rw [outer?, Array.getElem?_eq_none (Nat.le_of_not_lt hn)] at h
  cases h

theorem has_add_self (fs : Frames) (outer : Option FrameId) (names : Names) (x : String) :
    (fs.add outer names).Has fs.size x ↔ x ∈ names := by
  unfold Has
  rw [here?_add, if_pos rfl, ← Std.ExtTreeMap.mem_iff_isSome_getElem?]

theorem has_add_of_ne (fs : Frames) (outer : Option FrameId) (names : Names) (h : g ≠ fs.size) :
    (fs.add outer names).Has g x ↔ fs.Has g x := by
  unfold Has
  rw [here?_add, if_neg h]

theorem has_define (h : f < fs.size) (y : String) : (fs.define f x v).Has g y ↔ fs.Has g y ∨ g = f ∧ y = x := by
  unfold Has
  by_cases hgy : g = f ∧ y = x
  · obtain ⟨rfl, rfl⟩ := hgy
    simp [here?_define_self h]
  · have hne : g ≠ f ∨ y ≠ x := by
      by_contra hn
      push Not at hn
      exact hgy hn
    rw [here?_define_of_ne fs v hne]
    exact ⟨.inl, fun h => h.resolve_right hgy⟩

theorem here?_eq (fs : Frames) (f : FrameId) (x : String) : fs.here? f x = (fs.names f)[x]? := by
  unfold here? names
  cases fs.all[f]? with
  | none => exact Std.ExtTreeMap.getElem?_empty.symm
  | some frame => rfl

theorem names_define_self (h : f < fs.size) (x : String) (v : Value) :
    (fs.define f x v).names f = (fs.names f).insert x v := by
  unfold size at h
  simp only [names, define, Array.getElem?_modify, if_true, Array.getElem?_eq_getElem h, Option.map_some,
    Option.getD_some]

theorem names_define_of_ne (h : g ≠ f) (x : String) (v : Value) : (fs.define f x v).names g = fs.names g := by
  simp only [names, define, Array.getElem?_modify, if_neg h.symm]

theorem names_add_of_ne (outer : Option FrameId) (names : Names) (h : g ≠ fs.size) :
    (fs.add outer names).names g = fs.names g := by
  unfold size at h
  simp only [Frames.names, add, Array.getElem?_push, if_neg h]

/-- What is around a frame is no affair of the names. -/
theorem ancestor?_define (fs : Frames) (f g : FrameId) (x : String) (v : Value) (d : Nat) :
    (fs.define f x v).ancestor? g d = fs.ancestor? g d := by
  induction d generalizing g with
  | zero => rfl
  | succ d ih => simp only [ancestor?, outer?_define, ih]

theorem assignAt_of_has {d : Nat} (hg : fs.ancestor? f d = some g) (hx : fs.Has g x) (v : Value) :
    fs.assignAt f d x v = (true, fs.define g x v) := by
  unfold assignAt
  rw [hg]
  exact if_pos hx

/-- A frame inside no other has just its own names. -/
theorem get?_of_root (h : fs.outer? g = none) (x : String) : fs.get? g x = (fs.names g)[x]? := by
  have hchain : fs.chain g = [g] := by rw [chain, chain.walk, h]
  unfold get? holder?
  rw [hchain, ← here?_eq]
  cases hx : fs.here? g x <;> simp [hx]

theorem assign_of_root (h : fs.outer? g = none) (x : String) (v : Value) :
    fs.assign g x v = if (fs.here? g x).isSome then (true, fs.define g x v) else (false, fs) := by
  have hchain : fs.chain g = [g] := by rw [chain, chain.walk, h]
  unfold assign holder?
  rw [hchain]
  cases hx : fs.here? g x <;> simp [hx]

theorem define_define (fs : Frames) (f : FrameId) (x : String) (v w : Value) :
    (fs.define f x v).define f x w = fs.define f x w := by
  unfold define
  congr 1
  refine Array.ext_getElem? fun i => ?_
  simp only [Array.getElem?_modify]
  split
  · cases fs.all[i]? with
    | none => rfl
    | some frame =>
      simp only [Option.map_some, Option.some.injEq, Frame.mk.injEq, and_true]
      refine Std.ExtTreeMap.ext_getElem? fun y => ?_
      simp only [Std.ExtTreeMap.getElem?_insert]
      split <;> rfl
  · rfl

theorem add_insert (fs : Frames) (outer : Option FrameId) (names : Names) (x : String) (v : Value) :
    fs.add outer (names.insert x v) = (fs.add outer names).define fs.size x v := by
  unfold define add size
  congr 1
  refine Array.ext_getElem? fun i => ?_
  rw [Array.getElem?_modify, Array.getElem?_push, Array.getElem?_push]
  split
  · rename_i h
    rw [if_pos h.symm]
    rfl
  · rename_i h
    rw [if_neg (Ne.symm h)]

/-- Every frame is inside one that is there. -/
def Closed (fs : Frames) : Prop := ∀ f g, fs.outer? f = some g → g < fs.size

theorem Closed.add (h : Closed fs) (hf : f < fs.size) (names : Names) : Closed (fs.add (some f) names) := by
  intro g k hk
  rw [outer?_add] at hk
  rw [size_add]
  split at hk
  · cases hk
    exact Nat.lt_succ_of_lt hf
  · exact Nat.lt_succ_of_lt (h g k hk)

theorem Closed.define (h : Closed fs) (f : FrameId) (x : String) (v : Value) : Closed (fs.define f x v) := by
  intro g k hk
  rw [outer?_define] at hk
  rw [size_define]
  exact h g k hk

theorem Closed.assign (h : Closed fs) (f : FrameId) (x : String) (v : Value) : Closed (fs.assign f x v).2 := by
  unfold Frames.assign
  split
  · exact h.define _ x v
  · exact h

theorem Closed.assignAt (h : Closed fs) (f : FrameId) (d : Nat) (x : String) (v : Value) :
    Closed (fs.assignAt f d x v).2 := by
  unfold Frames.assignAt
  split
  · split
    · exact h.define _ x v
    · exact h
  · exact h

/-- Later frames: all there were, with the given names added to one of them. -/
structure Grows (fs fs' : Frames) (f : FrameId) (names : List String) : Prop where
  size : fs.size ≤ fs'.size
  outer : ∀ g < fs.size, fs'.outer? g = fs.outer? g
  has : ∀ g < fs.size, ∀ x, fs'.Has g x ↔ fs.Has g x ∨ g = f ∧ x ∈ names

namespace Grows

variable {names more : List String}

theorem refl (fs : Frames) (f : FrameId) : Grows fs fs f [] := ⟨le_rfl, fun _ _ => rfl, by simp⟩

theorem trans (h : Grows fs fs' f names) (h' : Grows fs' fs'' f more) : Grows fs fs'' f (more ++ names) where
  size := h.size.trans h'.size
  outer g hg := (h'.outer g (hg.trans_le h.size)).trans (h.outer g hg)
  has g hg x := by
    rw [h'.has g (hg.trans_le h.size) x, h.has g hg x, List.mem_append, or_assoc, or_comm (a := _ ∧ x ∈ names),
      ← and_or_left]

/-- Where no name is added, it does not matter to which frame. -/
theorem elsewhere (h : Grows fs fs' f []) (g : FrameId) : Grows fs fs' g [] :=
  ⟨h.size, h.outer, fun g hg x => by simp [h.has g hg x]⟩

/-- Names added to a new frame are added to none of the old ones. -/
theorem inside (h : Grows fs fs' f names) (hf : fs.size ≤ f) (g : FrameId) : Grows fs fs' g [] :=
  ⟨h.size, h.outer, fun g hg x => by simp [h.has g hg x, (hg.trans_le hf).ne]⟩

theorem keeps (h : Grows fs fs' f names) (hg : g < fs.size) (hx : fs.Has g x) : fs'.Has g x :=
  (h.has g hg x).mpr (.inl hx)

end Grows

theorem grows_add (fs : Frames) (outer : Option FrameId) (names : Names) (f : FrameId) :
    Grows fs (fs.add outer names) f [] where
  size := (size_add fs outer names).symm ▸ Nat.le_succ _
  outer g hg := by rw [outer?_add, if_neg hg.ne]
  has g hg x := by simp [has_add_of_ne fs outer names hg.ne]

theorem grows_define (h : f < fs.size) (x : String) (v : Value) : Grows fs (fs.define f x v) f [x] where
  size := (size_define fs f x v).ge
  outer g _ := outer?_define fs f g x v
  has g _ y := by rw [has_define h, List.mem_singleton]

theorem lt_of_has (h : fs.Has f x) : f < fs.size := by
  by_contra hn
  unfold Has here? at h
  rw [Array.getElem?_eq_none (Nat.le_of_not_lt hn)] at h
  cases h

/-- A name that is overwritten is not added. -/
theorem grows_overwrite (h : fs.Has g x) (v : Value) (f : FrameId) : Grows fs (fs.define g x v) f [] where
  size := (size_define fs g x v).ge
  outer k _ := outer?_define fs g k x v
  has k _ y := by
    rw [has_define (lt_of_has h)]
    refine ⟨fun hk => .inl ?_, fun hk => .inl (hk.resolve_right (by simp))⟩
    rcases hk with hk | ⟨rfl, rfl⟩
    · exact hk
    · exact h

theorem grows_assignAt (fs : Frames) (g : FrameId) (d : Nat) (x : String) (v : Value) (f : FrameId) :
    Grows fs (fs.assignAt g d x v).2 f [] := by
  unfold assignAt
  split
  · split
    · exact grows_overwrite (by assumption) v f
    · exact .refl fs f
  · exact .refl fs f

theorem grows_assign (fs : Frames) (g : FrameId) (x : String) (v : Value) (f : FrameId) :
    Grows fs (fs.assign g x v).2 f [] := by
  unfold assign
  split
  · rename_i k hk
    unfold holder? at hk
    have hx : fs.Has k x := by simpa [Has] using List.find?_some hk
    exact grows_overwrite hx v f
  · exact .refl fs f

end Frames

open Frames

/-- The frames of a layout, from the innermost scope out to the global frame: each has at least the names of its
scope. -/
inductive Linked (fs : Frames) (globals : FrameId) : FrameId → Layout → Prop
  | top : Linked fs globals globals []
  | inner {f g : FrameId} {scope : List String} {l : Layout} :
    fs.outer? f = some g → (∀ x ∈ scope, fs.Has f x) → Linked fs globals g l → Linked fs globals f (scope :: l)

namespace Linked

variable {fs fs' : Frames} {globals f g : FrameId} {l : Layout} {x : String}

theorem lt (h : Linked fs globals f l) (hg : globals < fs.size) : f < fs.size := by
  cases h with
  | top => exact hg
  | inner houter => exact lt_of_outer houter

theorem has {scope : List String} (h : Linked fs globals f (scope :: l)) (hx : x ∈ scope) : fs.Has f x := by
  cases h with
  | inner _ hhas => exact hhas x hx

theorem ne_globals {scope : List String} (h : Linked fs globals f (scope :: l))
    (hroot : fs.outer? globals = none) : f ≠ globals := by
  cases h with
  | inner houter =>
    rintro rfl
    rw [hroot] at houter
    cases houter

theorem grows {names : List String} (h : Linked fs globals f l) (hs : Grows fs fs' g names) :
    Linked fs' globals f l := by
  induction h with
  | top => exact .top
  | inner houter hhas _ ih =>
    have hlt := lt_of_outer houter
    exact .inner ((hs.outer _ hlt).trans houter) (fun x hx => hs.keeps hlt (hhas x hx)) ih

/-- The frame as many steps out as a layout says has the name, and is not the global one. -/
theorem ancestor (h : Linked fs globals f l) (hroot : fs.outer? globals = none) {d : Nat} (hd : l.hops? x = some d) :
    ∃ k, fs.ancestor? f d = some k ∧ k ≠ globals ∧ fs.Has k x := by
  induction h generalizing d with
  | top => cases hd
  | @inner f g scope l houter hhas hrest ih =>
    rw [Layout.hops?_cons] at hd
    split at hd
    · rename_i hx
      cases hd
      exact ⟨f, rfl, ne_globals (.inner houter hhas hrest) hroot, hhas x hx⟩
    · obtain ⟨d', hd', rfl⟩ := Option.map_eq_some_iff.mp hd
      obtain ⟨k, hk, hne, hx⟩ := ih hd'
      refine ⟨k, ?_, hne, hx⟩
      rw [ancestor?, houter]
      exact hk

theorem declare {names : List String} (h : Linked fs globals f l) (hn : ∀ x ∈ names, fs.Has f x) :
    Linked fs globals f (l.declare names) := by
  cases h with
  | top => exact .top
  | inner houter hhas hrest =>
    exact .inner houter (fun x hx => (List.mem_append.mp hx).elim (hn x) (hhas x)) hrest

/-- The order of the names of a scope does not matter. -/
theorem congr {scope scope' : List String} (h : Linked fs globals f (scope :: l)) (hs : ∀ x, x ∈ scope ↔ x ∈ scope') :
    Linked fs globals f (scope' :: l) := by
  cases h with
  | inner houter hhas hrest => exact .inner houter (fun x hx => hhas x ((hs x).mpr hx)) hrest

end Linked

end LoxLang
