import LoxLang.Proofs.Classes.Operations
import LoxLang.Proofs.Classes.Evaluation
import LoxLang.Proofs.Values.Whole

/-! Methods are found in the nearest class that declares them. The tables that a search looks into are the class bodies
as some earlier moment declared them, and the search gets to the end of the chain of superclasses. -/

namespace LoxLang

open Frames Run

/-- The last of the functions that has the name. -/
def Function.lastNamed? (fs : List Function) (x : String) : Option Function :=
  fs.reverse.find? fun f => f.name.lexeme == x

/-- The table of a class body has the last function of each name. -/
theorem Methods.getElem?_ofList {ε : Type} (home : ε) (fs : List Function) (x : String) :
    (Methods.ofList home fs)[x]? = (Function.lastNamed? fs x).map fun f => ⟨f, home, x == initializerName⟩ := by
  induction fs using List.reverseRecOn with
  | nil => exact Std.ExtTreeMap.getElem?_empty
  | append_singleton fs f ih =>
    unfold Methods.ofList Function.lastNamed? at ih ⊢
    rw [List.foldl_append, List.foldl_cons, List.foldl_nil, Std.ExtTreeMap.getElem?_insert, List.reverse_append,
      List.reverse_singleton, List.singleton_append, List.find?_cons, ih]
    by_cases hx : f.name.lexeme = x
    · subst hx
      simp
    · have hne : (f.name.lexeme == x) = false := beq_eq_false_iff_ne.mpr hx
      simp [hne, hx]

/-- The class with the number is there as a past moment declared it: with its superclass, the frame its methods were
declared in, and the methods. -/
def Store.Declared (past : Moment → Prop) (s : Store) (c : ClassId) (superclass : Option ClassId) (home : FrameId)
    (methods : List Function) : Prop :=
  ∃ d k, s.classes[c]? = some d ∧ past k ∧ k.Declares c d home methods ∧ d.superclass = superclass

/-- The nearest class, from a class up its superclasses, that declares a method of the name: the method, the last one
counting, and the frame it was declared in. -/
inductive Store.Nearest (past : Moment → Prop) (s : Store) (x : String) : ClassId → Function → FrameId → Prop
  | own {c : ClassId} {superclass : Option ClassId} {home : FrameId} {methods : List Function} {f : Function} :
    s.Declared past c superclass home methods → Function.lastNamed? methods x = some f → Nearest past s x c f home
  | above {c c' : ClassId} {home home' : FrameId} {methods : List Function} {f : Function} :
    s.Declared past c (some c') home methods → Function.lastNamed? methods x = none → Nearest past s x c' f home' →
      Nearest past s x c f home'

variable {past : Moment → Prop} {c : Chart} {globals : FrameId} {s t : Store} {x : String}

theorem Store.Declared.methods {k : ClassId} {superclass : Option ClassId} {home : FrameId} {methods : List Function}
    (h : s.Declared past k superclass home methods) :
    ∃ d, s.classes[k]? = some d ∧ d.superclass = superclass ∧ d.methods = .ofList home methods := by
  obtain ⟨d, _, hd, -, hdeclares, hs⟩ := h
  exact ⟨d, hd, hs, hdeclares.methods_eq⟩

theorem Store.Lawful.declared (h : s.Lawful past c globals) {k : ClassId} {d : ClassDef FrameId}
    (hd : s.classes[k]? = some d) : ∃ home methods, s.Declared past k d.superclass home methods := by
  obtain ⟨e, l, around, rfl, hbuilt, -⟩ := h.classes k d hd
  obtain ⟨p, hp, hdeclares⟩ := hbuilt.declared
  exact ⟨e.home, e.methods, d, p, hd, hp, hdeclares, rfl⟩

/-- A search finds the nearest method within any bound greater than the number of the class. -/
theorem Store.Nearest.search {k : ClassId} {f : Function} {home : FrameId} (h : s.Nearest past x k f home)
    (hs : s.Whole) {n : Nat} (hn : k < n) :
    Heap.method?.search s.toHeap x n k = some ⟨f, home, x == initializerName⟩ := by
  induction h generalizing n with
  | own hdeclared hlast =>
    obtain ⟨d, hd, -, hmethods⟩ := hdeclared.methods
    obtain ⟨n, rfl⟩ := Nat.exists_eq_succ_of_ne_zero (Nat.ne_zero_of_lt hn)
    rw [Heap.method?.search, hd, Option.bind_some, hmethods, Methods.getElem?_ofList, hlast]
    rfl
  | above hdeclared hlast _ ih =>
    obtain ⟨d, hd, hsuper, hmethods⟩ := hdeclared.methods
    obtain ⟨n, rfl⟩ := Nat.exists_eq_succ_of_ne_zero (Nat.ne_zero_of_lt hn)
    rw [Heap.method?.search, hd, Option.bind_some, hmethods, Methods.getElem?_ofList, hlast, hsuper]
    exact ih ((hs.superclasses _ d _ hd hsuper).trans_le (Nat.le_of_lt_succ hn))

/-- What a search finds is the nearest method. -/
theorem Store.Lawful.nearest_of_search (h : s.Lawful past c globals) {n : Nat} {k : ClassId} {κ : Closure FrameId}
    (hfound : Heap.method?.search s.toHeap x n k = some κ) :
    s.Nearest past x k κ.declared κ.home ∧ κ.isInitializer = (x == initializerName) := by
  induction n generalizing k with
  | zero => cases hfound
  | succ n ih =>
    rw [Heap.method?.search, Option.bind_eq_some_iff] at hfound
    obtain ⟨d, hd, hfound⟩ := hfound
    obtain ⟨home, methods, hdeclared⟩ := h.declared hd
    obtain ⟨d', hd', -, hmethods⟩ := hdeclared.methods
    obtain rfl : d = d' := Option.some.inj (hd.symm.trans hd')
    rw [hmethods, Methods.getElem?_ofList] at hfound
    cases hlast : Function.lastNamed? methods x with
    | some f =>
      rw [hlast] at hfound
      cases hfound
      exact ⟨.own hdeclared hlast, rfl⟩
    | none =>
      rw [hlast] at hfound
      obtain ⟨k', hk', hfound⟩ := Option.bind_eq_some_iff.mp hfound
      obtain ⟨hnearest, hflag⟩ := ih hfound
      exact ⟨.above (hk' ▸ hdeclared) hlast hnearest, hflag⟩

/-- The search of a method is the search of the nearest class that declares it. -/
theorem Store.Lawful.method?_iff (h : s.Lawful past c globals) (hs : s.Whole) {k : ClassId} {κ : Closure FrameId} :
    s.method? k x = some κ ↔ ∃ f home, s.Nearest past x k f home ∧ κ = ⟨f, home, x == initializerName⟩ := by
  constructor
  · intro hfound
    obtain ⟨hnearest, hflag⟩ := h.nearest_of_search hfound
    exact ⟨κ.declared, κ.home, hnearest, by rw [← hflag]⟩
  · rintro ⟨f, home, hnearest, rfl⟩
    exact hnearest.search hs (Nat.lt_succ_self k)

theorem Store.Lawful.method?_eq_none (h : s.Lawful past c globals) {k : ClassId}
    (hnone : ∀ f home, ¬s.Nearest past x k f home) : s.method? k x = none :=
  Option.eq_none_iff_forall_not_mem.mpr fun κ hκ => hnone κ.declared κ.home (h.nearest_of_search hκ).1

theorem Store.Declared.lasts {k : ClassId} {superclass : Option ClassId} {home : FrameId} {methods : List Function}
    (h : s.Declared past k superclass home methods) (hst : s.Lasts t) : t.Declared past k superclass home methods := by
  obtain ⟨d, p, hd, hp⟩ := h
  exact ⟨d, p, hst.classes k d hd, hp⟩

theorem Store.Nearest.lasts {k : ClassId} {f : Function} {home : FrameId} (h : s.Nearest past x k f home)
    (hst : s.Lasts t) : t.Nearest past x k f home := by
  induction h with
  | own hdeclared hlast => exact .own (hdeclared.lasts hst) hlast
  | above hdeclared hlast _ ih => exact .above (hdeclared.lasts hst) hlast ih

/-- A machine on which a function has just been made of a method, bound to an instance: in a new frame inside that of
the method, in which only `this` has a value. Nothing else has changed. -/
structure Machine.Binds (m : Machine) (f : Function) (home : FrameId) (x : String) (o : ObjectId) (id : ClosureId)
    (m' : Machine) : Prop where
  fresh : id = m.store.closures.size
  closures : m'.store.closures = m.store.closures.push ⟨f, m.store.frames.next, x == initializerName⟩
  frames : m'.store.frames = m.store.frames.add (some home) ((∅ : Names).insert "this" (.object o))
  rest : m' = { m with store := { m.store with closures := m'.store.closures, frames := m'.store.frames } }

theorem Run.boundMethod_of_found {m : Machine} {k : ClassId} {o : ObjectId} {name : Token} {f : Function}
    {home : FrameId} (h : m.store.method? k name.lexeme = some ⟨f, home, name.lexeme == initializerName⟩) :
    ∃ id m', boundMethod k o name m = .ok (.function id) m' ∧ m.Binds f home name.lexeme o id m' := by
  unfold boundMethod
  rw [Halting.bind_of_ok (Halting.get_apply m)]
  simp only [h]
  exact ⟨_, _, rfl, rfl, rfl, rfl, rfl⟩

theorem Run.boundMethod_of_missing {m : Machine} {k : ClassId} {o : ObjectId} {name : Token}
    (h : m.store.method? k name.lexeme = none) :
    boundMethod k o name m = .error (.error ⟨.undefinedProperty name.lexeme, name.line⟩) m := by
  unfold boundMethod
  rw [Halting.bind_of_ok (Halting.get_apply m)]
  simp only [h]
  rfl

/-- What a property of an instance of a class comes to: the field of the name, or else the method of the nearest class
that declares it, or else a fault. -/
structure Machine.Dispatches (past : Moment → Prop) (m : Machine) (o : ObjectId) (k : ClassId) (name : Token) : Prop where
  field : ∀ v, m.store.field? o name.lexeme = some v → property o name m = .ok v m
  method : m.store.field? o name.lexeme = none → ∀ f home, m.store.Nearest past name.lexeme k f home →
    ∃ id m', property o name m = .ok (.function id) m' ∧ m.Binds f home name.lexeme o id m'
  missing : m.store.field? o name.lexeme = none → (∀ f home, ¬m.store.Nearest past name.lexeme k f home) →
    property o name m = .error (.error ⟨.undefinedProperty name.lexeme, name.line⟩) m

theorem Run.property_of_field {m : Machine} {o : ObjectId} {name : Token} {v : Value}
    (h : m.store.field? o name.lexeme = some v) : property o name m = .ok v m := by
  unfold property
  rw [Halting.bind_of_ok (Halting.get_apply m)]
  simp only [h]
  rfl

theorem Run.property_of_none {m : Machine} {o : ObjectId} {name : Token} {object : Object}
    (h : m.store.field? o name.lexeme = none) (ho : m.store.objects[o]? = some object) :
    property o name m = boundMethod object.cls o name m := by
  unfold property
  rw [Halting.bind_of_ok (Halting.get_apply m)]
  simp only [h, ho]

theorem Machine.Lawful.dispatches {m : Machine} (hm : m.Lawful past c) (hs : m.store.Whole) {o : ObjectId}
    {object : Object} (ho : m.store.objects[o]? = some object) (name : Token) :
    m.Dispatches past o object.cls name where
  field _ hv := property_of_field hv
  method hnone f home hnearest := by
    rw [property_of_none hnone ho]
    exact boundMethod_of_found ((hm.store.method?_iff hs).mpr ⟨f, home, hnearest, rfl⟩)
  missing hnone hmissing := by
    rw [property_of_none hnone ho]
    exact boundMethod_of_missing (hm.store.method?_eq_none hmissing)

end LoxLang
