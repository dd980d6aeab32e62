import LoxLang.Proofs.Classes.Enclosures

/-! The invariant of classes: every function and every method of the store stands in the class that its uses of `this`
and `super` belong to. What each operation of a run keeps of it. -/

namespace LoxLang

open Frames

/-- A function as the grammar and the walk let it be, in a place of a layout with a class around. -/
structure Function.Sits (c : Chart) (l : Layout) (around : Option Enclosure) (f : Function) : Prop where
  fits : f.Fits c l
  tidy : f.Tidy
  proper : ∀ u ∈ f.uses, u.Proper
  owned : Owned around f.ownUses

section Places

variable (past : Moment → Prop) (c : Chart) (globals : FrameId) (s : Store)

/-- The function sits in the frames that it keeps. -/
def Closure.Sits (k : Closure FrameId) : Prop :=
  ∃ l around, Enclosed past s globals k.home l around ∧ k.declared.Sits c l around

/-- The methods of the class with this number sit in the frames that they will run in. -/
def ClassDef.Sits (id : ClassId) (d : ClassDef FrameId) : Prop :=
  ∃ (e : Enclosure) (l : Layout) (around : Option Enclosure), e.cls = id ∧ e.Built past s l d ∧
    Enclosed past s globals e.home l around ∧ ∀ f ∈ e.methods, f.Sits c (["this"] :: l) (some e)

structure Store.Lawful : Prop where
  closures : ∀ k ∈ s.closures, k.Sits past c globals s
  classes : ∀ (id : ClassId) d, s.classes[id]? = some d → d.Sits past c globals s id

end Places

structure Machine.Lawful (past : Moment → Prop) (c : Chart) (m : Machine) : Prop where
  bindings : c.bindings = m.bindings
  store : m.store.Lawful past c m.globals

/-- A machine that a run leads to from a lawful one. -/
structure Machine.Leads (past : Moment → Prop) (c : Chart) (m m' : Machine) : Prop where
  lawful : m'.Lawful past c
  lasts : m.store.Lasts m'.store
  context : m'.context = m.context

variable {past past' : Moment → Prop} {c d : Chart} {globals : FrameId}

theorem Chart.Le.refl (c : Chart) : c.Le c := ⟨fun _ _ => rfl, Nat.le_refl _, rfl⟩

section Later

variable {s s' : Store} (hle : c.Le d) (hpast : ∀ k, past k → past' k) (hs : s.Lasts s')

include hle

theorem Function.Sits.mono {l : Layout} {around : Option Enclosure} {f : Function} (hf : f.Sits c l around) :
    f.Sits d l around := ⟨hf.fits.mono hle, hf.tidy, hf.proper, hf.owned⟩

include hpast hs

theorem Closure.Sits.mono {k : Closure FrameId} (h : k.Sits past c globals s) : k.Sits past' d globals s' := by
  obtain ⟨l, around, hl, hsits⟩ := h
  exact ⟨l, around, hl.lasts hs hpast, hsits.mono hle⟩

theorem ClassDef.Sits.mono {id : ClassId} {k : ClassDef FrameId} (h : k.Sits past c globals s id) :
    k.Sits past' d globals s' id := by
  obtain ⟨e, l, around, hid, hbuilt, hl, hmethods⟩ := h
  exact ⟨e, l, around, hid, hbuilt.lasts hs hpast, hl.lasts hs hpast, fun f hf => (hmethods f hf).mono hle⟩

end Later

theorem Closure.Sits.lasts {s s' : Store} {k : Closure FrameId} (h : k.Sits past c globals s) (hs : s.Lasts s') :
    k.Sits past c globals s' := h.mono (.refl c) (fun _ h => h) hs

theorem ClassDef.Sits.lasts {s s' : Store} {id : ClassId} {k : ClassDef FrameId} (h : k.Sits past c globals s id)
    (hs : s.Lasts s') : k.Sits past c globals s' id := h.mono (.refl c) (fun _ h => h) hs

namespace Store

variable {s s' : Store}

section Lasting

theorem lasts_addFrame (s : Store) (outer : Option FrameId) (names : Names) : s.Lasts (s.addFrame outer names).2 where
  outer f g h := by
    have hne : f ≠ s.frames.size := (lt_of_outer h).ne
    exact (outer?_add ..).trans ((if_neg hne).trans h)
  kept f x v _ h := by
    have hne : f ≠ s.frames.size := (lt_of_has (Option.isSome_of_eq_some h)).ne
    exact (here?_add ..).trans ((if_neg hne).trans h)
  classes _ _ h := h
  objects _ object h := ⟨object, h, rfl⟩

theorem lasts_define (s : Store) (f : FrameId) {x : String} (hx : x ∉ reserved) (v : Value) :
    s.Lasts { s with frames := s.frames.define f x v } where
  outer g k h := (outer?_define ..).trans h
  kept g y w hy h := by
    have hne : y ≠ x := fun e => hx (e ▸ hy)
    exact (here?_define_of_ne _ _ (.inr hne)).trans h
  classes _ _ h := h
  objects _ object h := ⟨object, h, rfl⟩

theorem lasts_assignAt (s : Store) (f : FrameId) (n : Nat) {x : String} (hx : x ∉ reserved) (v : Value) :
    s.Lasts { s with frames := (s.frames.assignAt f n x v).2 } := by
  unfold assignAt
  split
  · split
    · exact lasts_define s _ hx v
    · exact .refl s
  · exact .refl s

theorem lasts_assign (s : Store) (f : FrameId) {x : String} (hx : x ∉ reserved) (v : Value) :
    s.Lasts { s with frames := (s.frames.assign f x v).2 } := by
  unfold assign
  split
  · exact lasts_define s _ hx v
  · exact .refl s

theorem getElem?_push_of_some {α : Type} {as : Array α} {i : Nat} {a : α} (h : as[i]? = some a) (b : α) :
    (as.push b)[i]? = some a := by
  have hlt := (Array.getElem?_eq_some_iff.mp h).1
  rw [Array.getElem?_push, if_neg hlt.ne, h]

theorem lasts_addClosure (s : Store) (k : Closure FrameId) : s.Lasts (s.inHeap fun h => h.addClosure k).2 :=
  ⟨fun _ _ h => h, fun _ _ _ _ h => h, fun _ _ h => h, fun _ object h => ⟨object, h, rfl⟩⟩

theorem lasts_addClass (s : Store) (d : ClassDef FrameId) : s.Lasts (s.inHeap fun h => h.addClass d).2 :=
  ⟨fun _ _ h => h, fun _ _ _ _ h => h, fun _ _ h => getElem?_push_of_some h _, fun _ object h => ⟨object, h, rfl⟩⟩

theorem lasts_addObject (s : Store) (k : ClassId) : s.Lasts (s.inHeap fun h => h.addObject k).2 :=
  ⟨fun _ _ h => h, fun _ _ _ _ h => h, fun _ _ h => h, fun _ object h => ⟨object, getElem?_push_of_some h _, rfl⟩⟩

theorem lasts_setField (s : Store) (o : ObjectId) (x : String) (v : Value) :
    s.Lasts (s.inHeap fun h => ((), h.setField o x v)).2 where
  outer _ _ h := h
  kept _ _ _ _ h := h
  classes _ _ h := h
  objects o' object h := by
    change ∃ object', (s.objects.modify o _)[o']? = some object' ∧ _
    rw [Array.getElem?_modify, h]
    split <;> exact ⟨_, rfl, rfl⟩

theorem lasts_bind (s : Store) (k : Closure FrameId) (o : ObjectId) : s.Lasts (s.bind k o).2 := lasts_addFrame ..

end Lasting

/-- The function is a method by the name, of a class that the instance is one of, bound to the instance. -/
structure BoundTo (s : Store) (k : Closure FrameId) (x : String) (o : ObjectId) : Prop where
  method : ∃ (id : ClassId) (d : ClassDef FrameId) (method : Closure FrameId), s.IsA o id ∧ s.classes[id]? = some d ∧
    d.methods[x]? = some method ∧ k.declared = method.declared ∧ k.isInitializer = method.isInitializer ∧
      s.frames.outer? k.home = some method.home
  this : s.frames.here? k.home "this" = some (.object o)

theorem BoundTo.lasts {k : Closure FrameId} {x : String} {o : ObjectId} (h : s.BoundTo k x o) (hs : s.Lasts s') :
    s'.BoundTo k x o := by
  obtain ⟨⟨id, d, method, hisA, hd, hx, hdeclared, hflag, houter⟩, hthis⟩ := h
  exact ⟨⟨id, d, method, hs.isA hisA, hs.classes id d hd, hx, hdeclared, hflag, hs.outer _ _ houter⟩,
    hs.kept _ _ _ (by simp [reserved]) hthis⟩

theorem boundTo_bind {k : ClassId} {x : String} {method : Closure FrameId} (hmethod : s.method? k x = some method)
    {o : ObjectId} (ho : s.IsA o k) : (s.bind method o).2.BoundTo (s.bind method o).1 x o := by
  obtain ⟨id, d, hdescends, hd, hx⟩ := Heap.descends_of_method? hmethod
  obtain ⟨object, hobject, hk⟩ := ho
  have hisA : s.IsA o id := ⟨object, hobject, hk.trans hdescends⟩
  refine ⟨⟨id, d, method, (lasts_bind s method o).isA hisA, hd, hx, rfl, rfl, ?_⟩, ?_⟩
  · exact (outer?_add ..).trans (if_pos rfl)
  · exact (here?_add ..).trans ((if_pos rfl).trans Std.ExtTreeMap.getElem?_insert_self)

namespace Lawful

/-- Where no function and no class is added. -/
theorem lasts (h : s.Lawful past c globals) (hs : s.Lasts s') (hclosures : s'.closures = s.closures)
    (hclasses : s'.classes = s.classes) : s'.Lawful past c globals :=
  ⟨fun k hk => (h.closures k (hclosures ▸ hk)).lasts hs, fun id d hd => (h.classes id d (hclasses ▸ hd)).lasts hs⟩

theorem mono (h : s.Lawful past c globals) (hle : c.Le d) (hpast : ∀ k, past k → past' k) :
    s.Lawful past' d globals :=
  ⟨fun k hk => (h.closures k hk).mono hle hpast (.refl s), fun id d hd => (h.classes id d hd).mono hle hpast (.refl s)⟩

theorem addFrame (h : s.Lawful past c globals) (outer : Option FrameId) (names : Names) :
    (s.addFrame outer names).2.Lawful past c globals := h.lasts (lasts_addFrame s outer names) rfl rfl

theorem addObject (h : s.Lawful past c globals) (k : ClassId) :
    Lawful past c globals (s.inHeap fun h => h.addObject k).2 := h.lasts (lasts_addObject s k) rfl rfl

theorem addClosure (h : s.Lawful past c globals) {k : Closure FrameId} (hk : k.Sits past c globals s) :
    Lawful past c globals (s.inHeap fun h => h.addClosure k).2 where
  closures k' hk' := by
    refine Closure.Sits.lasts ?_ (lasts_addClosure s k)
    rcases Array.mem_push.mp hk' with hk' | rfl
    · exact h.closures k' hk'
    · exact hk
  classes id d hd := (h.classes id d hd).lasts (lasts_addClosure s k)

theorem addClass (h : s.Lawful past c globals) {d : ClassDef FrameId}
    (hd : d.Sits past c globals (s.inHeap fun h => h.addClass d).2 s.classes.size) :
    Lawful past c globals (s.inHeap fun h => h.addClass d).2 where
  closures k hk := (h.closures k hk).lasts (lasts_addClass s d)
  classes id d' hd' := by
    have hd' : (s.classes.push d)[id]? = some d' := hd'
    rw [Array.getElem?_push] at hd'
    split at hd'
    · rename_i hsize
      cases hd'
      exact hsize ▸ hd
    · exact (h.classes id d' hd').lasts (lasts_addClass s d)

/-- A function that is bound to an instance sits in the frame of the instance. -/
theorem sits_of_boundTo (h : s.Lawful past c globals) {k : Closure FrameId} {x : String} {o : ObjectId}
    (hk : s.BoundTo k x o) :
    ∃ e l, Enclosed past s globals k.home (["this"] :: l) (some e) ∧ k.declared.Sits c (["this"] :: l) (some e) := by
  obtain ⟨⟨id, d, method, hisA, hd, hx, hdeclared, -, houter⟩, hthis⟩ := hk
  obtain ⟨e, l, around, rfl, hbuilt, hl, hmethods⟩ := h.classes id d hd
  obtain ⟨past, -, hdeclares⟩ := hbuilt.declared
  rw [hdeclares.methods_eq] at hx
  obtain ⟨f, hf, rfl, hhome⟩ := Methods.mem_of_ofList hx
  exact ⟨e, l, .receiver (houter.trans (congrArg some hhome)) hthis hisA hbuilt hl, hdeclared ▸ hmethods _ hf⟩

/-- A method of a class that the class of an instance descends from, bound to the instance. -/
theorem bind (h : s.Lawful past c globals) {k : ClassId} {x : String} {method : Closure FrameId}
    (hmethod : s.method? k x = some method) {o : ObjectId} (ho : s.IsA o k) :
    (s.bind method o).1.Sits past c globals (s.bind method o).2 := by
  obtain ⟨e, l, hl, hsits⟩ := sits_of_boundTo (h.addFrame _ _) (boundTo_bind hmethod ho)
  exact ⟨_, _, hl, hsits⟩

end Lawful

end Store

end LoxLang
