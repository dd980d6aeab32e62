import LoxLang.Proofs.Context
import LoxLang.Proofs.Scoping.Frames

/-! Values name what is there. Nothing is taken out of the heap, so a function, a class or an instance that a value
names when the value is made is there as long as the value is; and a class is newer than its superclass. -/

namespace LoxLang

open Frames

variable {ε : Type}

/-- What the value names is in the heap. -/
def Value.In (h : Heap ε) : Value → Prop
  | .native id => id < h.natives.size
  | .function id => id < h.closures.size
  | .cls id => id < h.classes.size
  | .object id => id < h.objects.size
  | .nil | .bool _ | .number _ | .string _ => True

/-- A heap in which there is perhaps more. -/
structure Heap.Le (h h' : Heap ε) : Prop where
  natives : h.natives.size ≤ h'.natives.size
  closures : h.closures.size ≤ h'.closures.size
  classes : h.classes.size ≤ h'.classes.size
  objects : h.objects.size ≤ h'.objects.size

theorem Heap.Le.refl (h : Heap ε) : h.Le h := ⟨le_rfl, le_rfl, le_rfl, le_rfl⟩

theorem Heap.Le.trans {h h' h'' : Heap ε} (hle : h.Le h') (hle' : h'.Le h'') : h.Le h'' :=
  ⟨hle.natives.trans hle'.natives, hle.closures.trans hle'.closures, hle.classes.trans hle'.classes,
    hle.objects.trans hle'.objects⟩

theorem Value.In.mono {h h' : Heap ε} (hle : h.Le h') {v : Value} (hv : v.In h) : v.In h' := by
  cases v with
  | native => exact hv.trans_le hle.natives
  | function => exact hv.trans_le hle.closures
  | cls => exact hv.trans_le hle.classes
  | object => exact hv.trans_le hle.objects
  | nil | bool | number | string => trivial

/-- All values in frames and fields name what is there, instances are of classes that are, and superclasses are older
than the classes that inherit from them. What the functions of the host yield names nothing of the store. -/
structure Store.Whole (s : Store) : Prop where
  names : ∀ f x v, s.frames.here? f x = some v → v.In s.toHeap
  fields : ∀ (o : ObjectId) object (x : String) v, s.objects[o]? = some object → object.fields[x]? = some v → v.In s.toHeap
  instances : ∀ (o : ObjectId) object, s.objects[o]? = some object → object.cls < s.classes.size
  superclasses : ∀ (c : ClassId) d c', s.classes[c]? = some d → d.superclass = some c' → c' < c
  natives : ∀ f ∈ s.natives, ∀ display arguments (h : Heap FrameId), (f.apply display arguments).In h

namespace Store.Whole

variable {s : Store} (h : s.Whole)

include h

theorem addFrame (outer : Option FrameId) {names : Names} (hn : ∀ (x : String) v, names[x]? = some v → v.In s.toHeap) :
    (s.addFrame outer names).2.Whole where
  names f x v hv := by
    rw [Store.addFrame, here?_add] at hv
    split at hv
    · exact hn x v hv
    · exact h.names f x v hv
  fields := h.fields
  instances := h.instances
  superclasses := h.superclasses
  natives := h.natives

theorem define (f : FrameId) (x : String) {v : Value} (hv : v.In s.toHeap) :
    Whole { s with frames := s.frames.define f x v } where
  names g y w hw := by
    by_cases hgy : g = f ∧ y = x
    · obtain ⟨rfl, rfl⟩ := hgy
      have hlt : g < s.frames.size := size_define s.frames g y v ▸ lt_of_has (Option.isSome_of_eq_some hw)
      rw [here?_define_self hlt] at hw
      cases hw
      exact hv
    · rw [here?_define_of_ne _ _ (not_and_or.mp hgy)] at hw
      exact h.names g y w hw
  fields := h.fields
  instances := h.instances
  superclasses := h.superclasses
  natives := h.natives

theorem assignAt (f : FrameId) (d : Nat) (x : String) {v : Value} (hv : v.In s.toHeap) :
    Whole { s with frames := (s.frames.assignAt f d x v).2 } := by
  unfold Frames.assignAt
  split
  · split
    · exact h.define _ x hv
    · exact h
  · exact h

theorem assign (f : FrameId) (x : String) {v : Value} (hv : v.In s.toHeap) :
    Whole { s with frames := (s.frames.assign f x v).2 } := by
  unfold Frames.assign
  split
  · exact h.define _ x hv
  · exact h

/-- In a heap in which there is more. -/
theorem inHeap {α : Type} {f : Heap FrameId → α × Heap FrameId} (hle : s.toHeap.Le (f s.toHeap).2)
    (hobjects : ∀ (o : ObjectId) object, (f s.toHeap).2.objects[o]? = some object →
      object.cls < (f s.toHeap).2.classes.size ∧ ∀ (x : String) v, object.fields[x]? = some v → v.In (f s.toHeap).2)
    (hclasses : ∀ (c : ClassId) d c', (f s.toHeap).2.classes[c]? = some d → d.superclass = some c' → c' < c)
    (hnatives : (f s.toHeap).2.natives = s.natives) : (s.inHeap f).2.Whole where
  names g x v hv := (h.names g x v hv).mono hle
  fields o object x v ho hv := (hobjects o object ho).2 x v hv
  instances o object ho := (hobjects o object ho).1
  superclasses := hclasses
  natives k hk := h.natives k (hnatives ▸ hk)

theorem addClosure (k : Closure FrameId) : (s.inHeap fun h => h.addClosure k).2.Whole := by
  have hle : s.toHeap.Le (s.toHeap.addClosure k).2 := ⟨le_rfl, (Array.size_push _).ge.trans' (Nat.le_succ _), le_rfl, le_rfl⟩
  exact h.inHeap hle (fun o object ho => ⟨h.instances o object ho, fun x v hv => (h.fields o object x v ho hv).mono hle⟩)
    h.superclasses rfl

theorem addClass {d : ClassDef FrameId} (hd : ∀ c ∈ d.superclass, c < s.classes.size) :
    (s.inHeap fun h => h.addClass d).2.Whole := by
  have hle : s.toHeap.Le (s.toHeap.addClass d).2 := ⟨le_rfl, le_rfl, (Array.size_push _).ge.trans' (Nat.le_succ _), le_rfl⟩
  refine h.inHeap hle (fun o object ho => ⟨(h.instances o object ho).trans_le hle.classes,
    fun x v hv => (h.fields o object x v ho hv).mono hle⟩) (fun c e c' he hc => ?_) rfl
  change (s.classes.push d)[c]? = some e at he
  rw [Array.getElem?_push] at he
  split at he
  · rename_i hsize
    cases he
    exact hsize ▸ hd c' hc
  · exact h.superclasses c e c' he hc

theorem addObject {c : ClassId} (hc : c < s.classes.size) : (s.inHeap fun h => h.addObject c).2.Whole := by
  have hle : s.toHeap.Le (s.toHeap.addObject c).2 := ⟨le_rfl, le_rfl, le_rfl, (Array.size_push _).ge.trans' (Nat.le_succ _)⟩
  refine h.inHeap hle (fun o object ho => ?_) h.superclasses rfl
  change (s.objects.push ⟨c, ∅⟩)[o]? = some object at ho
  rw [Array.getElem?_push] at ho
  split at ho
  · cases ho
    exact ⟨hc, fun x v hv => by simp at hv⟩
  · exact ⟨h.instances o object ho, fun x v hv => (h.fields o object x v ho hv).mono hle⟩

theorem setField (o : ObjectId) (x : String) {v : Value} (hv : v.In s.toHeap) :
    (s.inHeap fun h => ((), h.setField o x v)).2.Whole := by
  have hle : s.toHeap.Le (s.toHeap.setField o x v) := ⟨le_rfl, le_rfl, le_rfl, (Array.size_modify ..).ge⟩
  refine h.inHeap hle (fun o' object ho => ?_) h.superclasses rfl
  change (s.objects.modify o _)[o']? = some object at ho
  rw [Array.getElem?_modify] at ho
  split at ho
  · obtain ⟨before, hbefore, rfl⟩ := Option.map_eq_some_iff.mp ho
    refine ⟨h.instances o' before hbefore, fun y w hw => Value.In.mono hle ?_⟩
    rw [Std.ExtTreeMap.getElem?_insert] at hw
    split at hw
    · cases hw
      exact hv
    · exact h.fields o' before y w hbefore hw
  · exact ⟨h.instances o' object ho, fun y w hw => (h.fields o' object y w ho hw).mono hle⟩

end Store.Whole

end LoxLang
