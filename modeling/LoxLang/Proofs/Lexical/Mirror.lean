import LoxLang.Proofs.Lexical.Evaluator
import LoxLang.Proofs.Scoping.Evaluation

/-! Frames and cells that mirror each other. Each cell stands for a name of a frame, no two cells for the same, and a
list of visible names is what a layout makes of a chain of frames. A run adds cells and frames and overwrites both
alike, so the two stay mirrors. -/

namespace LoxLang.Lexical

open Frames

/-- A name of a frame, for which a cell stands. -/
abbrev Slot := FrameId × String

/-- What is visible from a frame: for each name of each scope a cell that stands for it. -/
inductive View (fs : Frames) (globals : FrameId) (slots : List Slot) : FrameId → Layout → Visible → Prop
  | top : View fs globals slots globals [] []
  | inner {f g : FrameId} {own : Visible} {scope : List String} {l : Layout} {visible : Visible} :
    fs.outer? f = some g → (∀ x, x ∈ scope ↔ x ∈ own.map Prod.fst) →
      (∀ p ∈ own, slots[p.2]? = some (f, p.1)) → View fs globals slots g l visible →
        View fs globals slots f (scope :: l) (own ++ visible)

/-- The visible names that a function keeps are those of its frame, and its code fits their layout. An initializer
stands just inside the scope of its instance. -/
def Homed (c : Chart) (fs : Frames) (globals : FrameId) (slots : List Slot) (around : Layout) (k : Closure FrameId)
    (visible : Visible) : Prop :=
  ∃ l, View fs globals slots k.home l visible ∧ k.declared.Fits c (around ++ l) ∧
    (k.isInitializer = true → (around ++ l).head? = some ["this"])

structure Mirror (c : Chart) (slots : List Slot) (m : LoxLang.Machine) (r : Machine) : Prop where
  sound : m.Sound c
  size : r.cells.size = slots.length
  cells : ∀ (i : Nat) f x, slots[i]? = some (f, x) → m.store.frames.here? f x = r.cells[i]?
  distinct : slots.Nodup
  inner : ∀ s ∈ slots, s.1 ≠ m.globals
  globals : r.globals = m.store.frames.names m.globals
  heap : m.store.toHeap.Matches (Homed c m.store.frames m.globals slots [])
    (Homed c m.store.frames m.globals slots .ofInstance) r.heap
  prompt : r.prompt = m.prompt
  output : r.output = m.output

/-- The two programs stand at the same place of the layout. -/
structure Stands (m : LoxLang.Machine) (slots : List Slot) (place : Place) (l : Layout) : Prop where
  within : m.At l
  view : View m.store.frames m.globals slots m.current l place.visible
  inside : place.inside = !l.isEmpty
  depth : place.depth = m.depth

theorem lookup_of_mem {own : Visible} {x : String} (h : x ∈ own.map Prod.fst) :
    ∃ i, own.lookup x = some i ∧ (x, i) ∈ own := by
  have hsome : (own.lookup x).isSome := by
    obtain ⟨p, hp, rfl⟩ := List.mem_map.mp h
    exact List.lookup_isSome_iff.mpr ⟨p, hp, by simp⟩
  obtain ⟨i, hi⟩ := Option.isSome_iff_exists.mp hsome
  obtain ⟨before, after, rfl, -⟩ := List.lookup_eq_some_iff.mp hi
  exact ⟨i, hi, by simp⟩

theorem lookup_of_not_mem {own : Visible} {x : String} (h : x ∉ own.map Prod.fst) : own.lookup x = none := by
  refine List.lookup_eq_none_iff.mpr fun p hp => ?_
  simpa using fun hx : x = p.1 => h (hx ▸ List.mem_map_of_mem hp)

theorem getElem?_of_prefix {slots slots' : List Slot} (h : slots <+: slots') {i : Nat} {s : Slot}
    (hi : slots[i]? = some s) : slots'[i]? = some s := by
  obtain ⟨more, rfl⟩ := h
  rw [List.getElem?_append_left (List.getElem?_eq_some_iff.mp hi).1, hi]

theorem here?_define_of_slot_ne (fs : Frames) {s t : Slot} (h : s ≠ t) (v : Value) :
    (fs.define t.1 t.2 v).here? s.1 s.2 = fs.here? s.1 s.2 := by
  refine here?_define_of_ne fs v ?_
  by_contra hsame
  push Not at hsame
  exact h (Prod.ext hsame.1 hsame.2)

variable {c : Chart} {fs fs' : Frames} {globals f g : FrameId} {slots slots' : List Slot} {l : Layout}
  {visible : Visible} {x : String}

namespace View

theorem mono (h : View fs globals slots f l visible) {names : List String} (hs : Grows fs fs' g names)
    (hp : slots <+: slots') : View fs' globals slots' f l visible := by
  induction h with
  | top => exact .top
  | inner houter hscope hown _ ih =>
    exact .inner ((hs.outer _ (lt_of_outer houter)).trans houter) hscope (fun p hp' => getElem?_of_prefix hp (hown p hp')) ih

/-- A name that the layout has is visible, and its cell stands for the frame as far out as the layout says. -/
theorem lookup_some (h : View fs globals slots f l visible) {d : Nat} (hd : l.hops? x = some d) :
    ∃ i k, visible.lookup x = some i ∧ fs.ancestor? f d = some k ∧ slots[i]? = some (k, x) := by
  induction h generalizing d with
  | top => cases hd
  | @inner f g own scope l visible houter hscope hown _ ih =>
    rw [Layout.hops?_cons] at hd
    rw [List.lookup_append]
    split at hd
    · rename_i hx
      cases hd
      obtain ⟨i, hi, hmem⟩ := lookup_of_mem ((hscope x).mp hx)
      exact ⟨i, f, by rw [hi]; rfl, rfl, hown _ hmem⟩
    · rename_i hx
      obtain ⟨d', hd', rfl⟩ := Option.map_eq_some_iff.mp hd
      obtain ⟨i, k, hi, hk, hslot⟩ := ih hd'
      refine ⟨i, k, by rw [lookup_of_not_mem (mt (hscope x).mpr hx), hi]; rfl, ?_, hslot⟩
      rw [ancestor?, houter]
      exact hk

theorem lookup_none (h : View fs globals slots f l visible) (hd : l.hops? x = none) : visible.lookup x = none := by
  induction h with
  | top => rfl
  | @inner f g own scope l visible _ hscope _ _ ih =>
    rw [Layout.hops?_cons] at hd
    split at hd
    · cases hd
    · rename_i hx
      rw [List.lookup_append, lookup_of_not_mem (mt (hscope x).mpr hx), ih (Option.map_eq_none_iff.mp hd)]
      rfl

theorem declare {scope : List String} (h : View fs globals slots f (scope :: l) visible) {i : CellId}
    (hi : slots[i]? = some (f, x)) : View fs globals slots f ((x :: scope) :: l) ((x, i) :: visible) := by
  cases h with
  | @inner _ g own _ _ visible houter hscope hown hrest =>
    have hcons : ∀ p ∈ (x, i) :: own, slots[p.2]? = some (f, p.1) := List.forall_mem_cons.mpr ⟨hi, hown⟩
    exact .inner houter (fun y => by simp [hscope y]) hcons hrest

theorem of_nil (h : View fs globals slots f [] visible) : f = globals ∧ visible = [] := by
  cases h
  exact ⟨rfl, rfl⟩

/-- The order of the names of a scope does not matter. -/
theorem congr {scope scope' : List String} (h : View fs globals slots f (scope :: l) visible)
    (hs : ∀ x, x ∈ scope ↔ x ∈ scope') : View fs globals slots f (scope' :: l) visible := by
  cases h with
  | inner houter hscope hown hrest => exact .inner houter (fun x => (hs x).symm.trans (hscope x)) hown hrest

end View

theorem Homed.mono {around : Layout} {k : Closure FrameId} (h : Homed c fs globals slots around k visible)
    {names : List String} (hs : Grows fs fs' g names) (hp : slots <+: slots') :
    Homed c fs' globals slots' around k visible := by
  obtain ⟨l, hl, hk⟩ := h
  exact ⟨l, hl.mono hs hp, hk⟩

/-- The frame that has a name of the layout; a name that the layout lacks is global. -/
def frameOf? (m : LoxLang.Machine) (l : Layout) (x : String) : Option FrameId :=
  match l.hops? x with
  | some d => m.store.frames.ancestor? m.current d
  | none => some m.globals

namespace Mirror

variable {m : LoxLang.Machine} {r : Machine} {i : Nat}

theorem has (h : Mirror c slots m r) (hi : slots[i]? = some (f, x)) : m.store.frames.Has f x := by
  have hlt : i < r.cells.size := h.size ▸ (List.getElem?_eq_some_iff.mp hi).1
  unfold Has
  rw [h.cells i f x hi, Array.getElem?_eq_getElem hlt]
  rfl

theorem linked (h : Mirror c slots m r) (hv : View m.store.frames m.globals slots f l visible) :
    Linked m.store.frames m.globals f l := by
  induction hv with
  | top => exact .top
  | inner houter hscope hown _ ih =>
    refine .inner houter (fun x hx => ?_) ih
    obtain ⟨p, hp, rfl⟩ := List.mem_map.mp ((hscope x).mp hx)
    exact h.has (hown p hp)

theorem placed (h : Mirror c slots m r) {around : Layout} {k : Closure FrameId}
    (hk : Homed c m.store.frames m.globals slots around k visible) :
    k.Placed c m.store.frames m.globals around := by
  obtain ⟨l, hl, hfits, -⟩ := hk
  exact ⟨l, h.linked hl, hfits⟩

/-- Frames that have grown mirror cells as soon as the names that cells stand for and the global names do. -/
theorem framed (h : Mirror c slots m r) {names : List String} (hs : Grows m.store.frames fs' g names)
    (hc : fs'.Closed) (hp : slots <+: slots') {cells : Array Value} {table : Names} (hsize : cells.size = slots'.length)
    (hcells : ∀ (i : Nat) f x, slots'[i]? = some (f, x) → fs'.here? f x = cells[i]?) (hdistinct : slots'.Nodup)
    (hinner : ∀ s ∈ slots', s.1 ≠ m.globals) (htable : table = fs'.names m.globals) :
    Mirror c slots' (m.withFrames fs') { r with cells := cells, globals := table } where
  sound := ⟨h.sound.bindings, h.sound.store.frames hs hc⟩
  size := hsize
  cells := hcells
  distinct := hdistinct
  inner := hinner
  globals := htable
  heap := h.heap.mono (fun _ _ hk => hk.mono hs hp) fun _ _ hk => hk.mono hs hp
  prompt := h.prompt
  output := h.output

/-- A name that a frame gets is that of a new cell. -/
theorem push (h : Mirror c slots m r) (hlt : f < m.store.frames.size) (hf : f ≠ m.globals)
    (hnew : ¬ m.store.frames.Has f x) (v : Value) :
    Mirror c (slots ++ [(f, x)]) (m.withFrames (m.store.frames.define f x v)) { r with cells := r.cells.push v } := by
  refine h.framed (grows_define hlt x v) (h.sound.store.closed.define f x v) (List.prefix_append _ _) ?_ ?_ ?_ ?_ ?_
  · simp [h.size]
  · intro i g y hi
    rw [Array.getElem?_push, h.size]
    split
    · rename_i hend
      subst hend
      obtain ⟨rfl, rfl⟩ : f = g ∧ x = y := by simpa using hi
      exact here?_define_self hlt x v
    · rename_i hend
      have hold : slots[i]? = some (g, y) := by
        obtain ⟨hlt', -⟩ := List.getElem?_eq_some_iff.mp hi
        rw [List.length_append, List.length_singleton] at hlt'
        rwa [List.getElem?_append_left (Nat.lt_of_le_of_ne (Nat.le_of_lt_succ hlt') hend)] at hi
      have hne : (g, y) ≠ (f, x) := fun hsame => by
        cases hsame
        exact hnew (h.has hold)
      exact (here?_define_of_slot_ne _ hne v).trans (h.cells i g y hold)
  · refine List.nodup_append.mpr ⟨h.distinct, List.nodup_singleton _, ?_⟩
    rintro s hs t ht rfl
    obtain rfl := List.mem_singleton.mp ht
    obtain ⟨i, hi⟩ := List.getElem?_of_mem hs
    exact hnew (h.has hi)
  · exact List.forall_mem_append.mpr ⟨h.inner, List.forall_mem_singleton.mpr hf⟩
  · rw [names_define_of_ne hf.symm]
    exact h.globals

/-- The value of a name and that of its cell are overwritten alike. -/
theorem overwrite (h : Mirror c slots m r) (hi : slots[i]? = some (f, x)) (v : Value) :
    Mirror c slots (m.withFrames (m.store.frames.define f x v))
      { r with cells := r.cells.setIfInBounds i v } := by
  have hhas := h.has hi
  have hf := h.inner _ (List.mem_of_getElem? hi)
  refine h.framed (grows_overwrite hhas v f) (h.sound.store.closed.define f x v) (List.prefix_refl _) ?_ ?_ h.distinct h.inner ?_
  · rw [Array.size_setIfInBounds, h.size]
  · intro j g y hj
    rw [Array.getElem?_setIfInBounds]
    split
    · rename_i hij
      subst hij
      obtain ⟨rfl, rfl⟩ : f = g ∧ x = y := by simpa using hi.symm.trans hj
      rw [if_pos (h.size ▸ (List.getElem?_eq_some_iff.mp hi).1)]
      exact here?_define_self (lt_of_has hhas) x v
    · rename_i hij
      have hne : (g, y) ≠ (f, x) := fun hsame => by
        cases hsame
        exact hij ((List.getElem?_inj (List.getElem?_eq_some_iff.mp hi).1 h.distinct).mp (hi.trans hj.symm))
      exact (here?_define_of_slot_ne _ hne v).trans (h.cells j g y hj)
  · rw [names_define_of_ne hf.symm]
    exact h.globals

/-- A global name gets a value in both programs. -/
theorem defineGlobal (h : Mirror c slots m r) (x : String) (v : Value) :
    Mirror c slots (m.withFrames (m.store.frames.define m.globals x v))
      { r with globals := r.globals.insert x v } := by
  have hlt := h.sound.store.within
  refine h.framed (grows_define hlt x v) (h.sound.store.closed.define _ x v) (List.prefix_refl _) h.size
    (fun i g y hi => ?_) h.distinct h.inner ?_
  · rw [here?_define_of_ne _ _ (.inl (h.inner _ (List.mem_of_getElem? hi))), h.cells i g y hi]
  · rw [names_define_self hlt, h.globals]

/-- A new frame without names changes nothing that is visible. -/
theorem addFrame (h : Mirror c slots m r) {outer : FrameId} (ho : outer < m.store.frames.size) :
    Mirror c slots (m.withFrames (m.store.frames.add (some outer) ∅)) r := by
  have hlt := h.sound.store.within
  refine h.framed (grows_add _ _ _ outer) (h.sound.store.closed.add ho ∅) (List.prefix_refl _) h.size
    (fun i g y hi => ?_) h.distinct h.inner ?_
  · rw [here?_add, if_neg (lt_of_has (h.has hi)).ne, h.cells i g y hi]
  · rw [names_add_of_ne _ _ hlt.ne]
    exact h.globals

theorem inHeap (h : Mirror c slots m r) {heap : Heap FrameId} {heap' : Heap Visible}
    (hsound : (m.withHeap heap).store.Sound c m.globals)
    (hheap : heap.Matches (Homed c m.store.frames m.globals slots [])
      (Homed c m.store.frames m.globals slots .ofInstance) heap') :
    Mirror c slots (m.withHeap heap) { r with heap := heap' } :=
  { h with sound := ⟨h.sound.bindings, hsound⟩, heap := hheap }

/-- A local name has the same value in its frame and in its cell. -/
theorem value_local (h : Mirror c slots m r) (hv : View m.store.frames m.globals slots f l visible) {d : Nat}
    (hd : l.hops? x = some d) :
    ∃ v, m.store.frames.getAt? f d x = some v ∧ r.valueOf? visible x = some v := by
  obtain ⟨i, k, hlookup, hk, hi⟩ := hv.lookup_some hd
  obtain ⟨v, hx⟩ := Option.isSome_iff_exists.mp (h.has hi)
  refine ⟨v, ?_, ?_⟩
  · rw [getAt?, hk]
    exact hx
  · rw [Machine.valueOf?, hlookup]
    exact (h.cells i k x hi).symm.trans hx

/-- A read finds what is visible. -/
theorem found (h : Mirror c slots m r) (hv : View m.store.frames m.globals slots m.current l visible) {id : NodeId}
    (hb : m.bindings[id]? = l.hops? x) : m.found? id x = r.valueOf? visible x := by
  rw [Machine.found?, hb]
  cases hd : l.hops? x with
  | some d =>
    obtain ⟨v, hframe, hcell⟩ := h.value_local hv hd
    exact hframe.trans hcell.symm
  | none =>
    rw [Machine.valueOf?, hv.lookup_none hd, h.globals]
    exact get?_of_root h.sound.store.root x

/-- An assignment reaches the frame that has the name, if the name has a value. -/
theorem assigned (h : Mirror c slots m r) (hv : View m.store.frames m.globals slots m.current l visible) {id : NodeId}
    (hb : m.bindings[id]? = l.hops? x) (v : Value) :
    (∃ w f, r.valueOf? visible x = some w ∧ frameOf? m l x = some f ∧
      m.assigned id x v = (true, m.store.frames.define f x v)) ∨
    r.valueOf? visible x = none ∧ m.assigned id x v = (false, m.store.frames) := by
  unfold frameOf? Machine.assigned
  rw [hb]
  cases hd : l.hops? x with
  | some d =>
    obtain ⟨w, -, hw⟩ := h.value_local hv hd
    obtain ⟨i, k, -, hk, hi⟩ := hv.lookup_some hd
    refine .inl ⟨w, k, hw, hk, ?_⟩
    dsimp only
    rw [assignAt, hk]
    exact if_pos (h.has hi)
  | none =>
    have hvalue : r.valueOf? visible x = m.store.frames.here? m.globals x := by
      rw [Machine.valueOf?, hv.lookup_none hd, h.globals, here?_eq]
    rw [hvalue, assign_of_root h.sound.store.root]
    cases hx : m.store.frames.here? m.globals x with
    | some w => exact .inl ⟨w, _, rfl, rfl, if_pos rfl⟩
    | none => exact .inr ⟨rfl, if_neg (by simp)⟩

theorem put (h : Mirror c slots m r) (hv : View m.store.frames m.globals slots m.current l visible)
    (hf : frameOf? m l x = some f) (v : Value) :
    Mirror c slots (m.withFrames (m.store.frames.define f x v)) (r.put visible x v) := by
  unfold frameOf? at hf
  cases hd : l.hops? x with
  | some d =>
    obtain ⟨i, k, hlookup, hk, hi⟩ := hv.lookup_some hd
    simp only [hd, hk, Option.some.injEq] at hf
    subst hf
    rw [Machine.put, hlookup]
    exact h.overwrite hi v
  | none =>
    simp only [hd, Option.some.injEq] at hf
    subst hf
    rw [Machine.put, hv.lookup_none hd]
    exact h.defineGlobal x v

/-- A new frame with one name, inside one whose names are visible. -/
theorem addNamed (h : Mirror c slots m r) (hv : View m.store.frames m.globals slots f l visible) (x : String)
    (v : Value) :
    ∃ slots', slots <+: slots' ∧
      Mirror c slots' (m.withFrames (m.store.frames.add (some f) ((∅ : Names).insert x v)))
        { r with cells := r.cells.push v } ∧
      View (m.store.frames.add (some f) ((∅ : Names).insert x v)) m.globals slots' m.store.frames.next ([x] :: l)
        ((x, r.cells.size) :: visible) := by
  have hframes := add_insert m.store.frames (some f) ∅ x v
  have hf : f < m.store.frames.size := (h.linked hv).lt h.sound.store.within
  have hnew : ¬ (m.store.frames.add (some f) ∅).Has m.store.frames.size x := by
    rw [has_add_self]
    exact Std.ExtTreeMap.not_mem_empty
  have hlt : m.store.frames.size < (m.store.frames.add (some f) ∅).size := by
    rw [size_add]
    exact Nat.lt_succ_self _
  refine ⟨_, List.prefix_append slots [(m.store.frames.size, x)], ?_, ?_⟩
  · rw [hframes]
    exact (h.addFrame hf).push hlt h.sound.store.within.ne' hnew v
  · have hslot : ∀ p ∈ [(x, r.cells.size)], (slots ++ [(m.store.frames.size, x)])[p.2]? =
        some (m.store.frames.size, p.1) := by
      refine List.forall_mem_singleton.mpr ?_
      simp [h.size]
    refine .inner ((outer?_add ..).trans (if_pos rfl)) (by simp) hslot ?_
    exact hv.mono (grows_add _ _ _ f) (List.prefix_append _ _)

end Mirror

namespace Stands

variable {m m' : LoxLang.Machine} {r : Machine} {place : Place}

theorem later (h : Stands m slots place l) (hm : m.Sound c) (hf : m.Follows c m' []) (hp : slots <+: slots') :
    Stands m' slots' place l where
  within := hf.at_same hm h.within
  view := by
    rw [hf.globals, hf.current]
    exact h.view.mono hf.grows hp
  inside := h.inside
  depth := h.depth.trans (congrArg Context.depth hf.context).symm

/-- At top level only the global names may have become more. -/
theorem later_top (h : Stands m slots place []) (hm : m.Sound c) {names : List String} (hf : m.Follows c m' names) :
    Stands m' slots' place [] where
  within := hf.at_declare hm h.within
  view := by
    obtain ⟨hcurrent, hvisible⟩ := h.view.of_nil
    rw [hf.globals, hf.current, hcurrent, hvisible]
    exact .top
  inside := h.inside
  depth := h.depth.trans (congrArg Context.depth hf.context).symm

theorem congr {scope scope' : List String} (h : Stands m slots place (scope :: l))
    (hs : ∀ x, x ∈ scope ↔ x ∈ scope') : Stands m slots place (scope' :: l) where
  within := h.within.congr hs
  view := h.view.congr hs
  inside := h.inside
  depth := h.depth

/-- A new frame stands for a new scope that has no name yet. -/
theorem enter (hl : Linked m.store.frames m.globals f l)
    (hv : View m.store.frames m.globals slots f l visible) :
    Stands (m.enter f ∅) slots ⟨true, visible, m.depth⟩ ([] :: l) where
  within := Machine.at_enter hl (by simp)
  view := by
    have hview := hv.mono (grows_add m.store.frames (some f) ∅ f) (List.prefix_refl _)
    have hnone : ∀ p ∈ ([] : Visible), slots[p.2]? = some (m.store.frames.size, p.1) := nofun
    exact .inner ((outer?_add ..).trans (if_pos rfl)) (by simp) hnone hview
  inside := rfl
  depth := rfl

end Stands

/-- A declaration gives a name to the current frame and to a new cell, or at top level to both global tables. -/
theorem Mirror.declare {m : LoxLang.Machine} {r : Machine} {place : Place} (h : Mirror c slots m r)
    (hs : Stands m slots place l) (hx : l.Free x) (v : Value) :
    ∃ slots', slots <+: slots' ∧
      Mirror c slots' (m.withFrames (m.store.frames.define m.current x v)) (r.declare place x v).2 ∧
        Stands (m.withFrames (m.store.frames.define m.current x v)) slots' (r.declare place x v).1
          (l.declare [x]) := by
  have hlt := hs.within.linked.lt h.sound.store.within
  have hgrows := grows_define hlt x v
  have hfollows : m.Follows c (m.withFrames (m.store.frames.define m.current x v)) [x] :=
    Machine.follows_store h.sound (h.sound.store.frames hgrows (h.sound.store.closed.define _ x v)) hgrows
  have hwithin := hfollows.at_declare h.sound hs.within
  have hinside := hs.inside
  unfold Machine.declare
  cases l with
  | nil =>
    rw [if_neg (by simp [hinside])]
    obtain ⟨hcurrent, -⟩ := hs.view.of_nil
    have hview := hs.view.mono hgrows (List.prefix_refl _)
    rw [hcurrent] at hwithin ⊢
    exact ⟨slots, List.prefix_refl _, h.defineGlobal x v, hwithin, hcurrent ▸ hview, hinside, hs.depth⟩
  | cons scope outer =>
    rw [if_pos (by simp [hinside])]
    have hnew : ¬ m.store.frames.Has m.current x := fun hhas => hx scope rfl (hs.within.exact scope rfl x hhas)
    refine ⟨_, List.prefix_append _ _, h.push hlt (hs.within.linked.ne_globals h.sound.store.root) hnew v, hwithin, ?_,
      hinside, hs.depth⟩
    have hview := hs.view.mono hgrows (List.prefix_append slots [(m.current, x)])
    exact hview.declare (by simp [h.size])

theorem frameOf?_declared {m : LoxLang.Machine} {place : Place} (hs : Stands m slots place (l.declare [x])) :
    frameOf? m (l.declare [x]) x = some m.current := by
  unfold frameOf?
  cases l with
  | nil => exact congrArg some hs.view.of_nil.1.symm
  | cons scope outer =>
    rw [Layout.declare, Layout.hops?_cons_of_mem (by simp)]
    rfl

/-- A declared name may be given another value. -/
theorem Mirror.redefine {m : LoxLang.Machine} {r : Machine} {place : Place} (h : Mirror c slots m r)
    (hs : Stands m slots place (l.declare [x])) (hx : m.store.frames.Has m.current x) (v : Value) :
    Mirror c slots (m.withFrames (m.store.frames.define m.current x v)) (r.put place.visible x v) ∧
      Stands (m.withFrames (m.store.frames.define m.current x v)) slots place (l.declare [x]) := by
  have hgrows := grows_overwrite hx v m.current
  have hfollows : m.Follows c (m.withFrames (m.store.frames.define m.current x v)) [] :=
    Machine.follows_store h.sound (h.sound.store.frames hgrows (h.sound.store.closed.define _ x v)) hgrows
  exact ⟨h.put hs.view (frameOf?_declared hs) v, hs.later h.sound hfollows (List.prefix_refl _)⟩

end LoxLang.Lexical
