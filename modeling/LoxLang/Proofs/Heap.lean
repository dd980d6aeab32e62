import LoxLang.Store.Heap
import Mathlib.Tactic

/-! Methods found in a heap, and heaps that differ only in what functions keep of the place of their declaration:
values are written alike in both, and calls take as many arguments. -/

namespace LoxLang

variable {ε δ : Type}

/-- The methods of a class are those declared in its body. -/
theorem Methods.mem_of_ofList {home : ε} {methods : List Function} {x : String} {k : Closure ε}
    (h : (Methods.ofList home methods)[x]? = some k) : ∃ f ∈ methods, k.declared = f ∧ k.home = home := by
  suffices hfold : ∀ table : Methods ε,
      (methods.foldl (fun table f => table.insert f.name.lexeme ⟨f, home, f.name.lexeme == initializerName⟩)
        table)[x]? = some k → (∃ f ∈ methods, k.declared = f ∧ k.home = home) ∨ table[x]? = some k by
    exact (hfold ∅ h).resolve_right (by simp)
  clear h
  induction methods with
  | nil => exact fun _ h => .inr h
  | cons f rest ih =>
    intro table h
    rcases ih _ h with ⟨f', hf', hk⟩ | h
    · exact .inl ⟨f', List.mem_cons_of_mem f hf', hk⟩
    · rw [Std.ExtTreeMap.getElem?_insert] at h
      split at h
      · cases h
        exact .inl ⟨f, List.mem_cons_self, rfl, rfl⟩
      · exact .inr h

namespace Heap

/-- A method that is found is one of some class. -/
theorem mem_of_method? {h : Heap ε} {k : ClassId} {x : String} {method : Closure ε}
    (hmethod : h.method? k x = some method) : ∃ d ∈ h.classes, d.methods[x]? = some method := by
  unfold method? at hmethod
  generalize k + 1 = n at hmethod
  induction n generalizing k with
  | zero => cases hmethod
  | succ n ih =>
    rw [method?.search, Option.bind_eq_some_iff] at hmethod
    obtain ⟨d, hd, hmethod⟩ := hmethod
    split at hmethod
    · rename_i hm
      exact ⟨d, Array.mem_of_getElem? hd, hm.trans hmethod⟩
    · obtain ⟨k', -, hmethod⟩ := Option.bind_eq_some_iff.mp hmethod
      exact ih hmethod

theorem method?_congr (h h' : Heap ε) (hclasses : h.classes = h'.classes) (k : ClassId) (x : String) :
    h.method? k x = h'.method? k x := by
  unfold method?
  generalize k + 1 = n
  induction n generalizing k with
  | zero => rfl
  | succ n ih =>
    rw [method?.search, method?.search, hclasses]
    simp only [funext ih]

end Heap

section Relations

variable {α β γ : Type} {R S : α → β → Prop}

theorem rel_imp {a : Option α} {b : Option β} (h : Option.Rel R a b) (hs : ∀ a b, R a b → S a b) :
    Option.Rel S a b := by
  cases h with
  | none => exact .none
  | some hab => exact .some (hs _ _ hab)

theorem map_eq_of_rel {a : Option α} {b : Option β} {f : α → γ} {g : β → γ} (h : Option.Rel R a b)
    (hfg : ∀ a b, R a b → g b = f a) : b.map g = a.map f := by
  cases h with
  | none => rfl
  | some hab => exact congrArg some (hfg _ _ hab)

/-- Arrays that are related place by place have the same size. -/
theorem size_of_rel {as : Array α} {bs : Array β} (h : ∀ i : Nat, Option.Rel R as[i]? bs[i]?) :
    bs.size = as.size := by
  have hle : ∀ i : Nat, as.size ≤ i ↔ bs.size ≤ i := fun i => by
    rw [← Array.getElem?_eq_none_iff, ← Array.getElem?_eq_none_iff]
    have hi := h i
    revert hi
    cases as[i]? <;> cases bs[i]? <;> simp
  exact Nat.le_antisymm ((hle _).mp le_rfl) ((hle _).mpr le_rfl)

theorem rel_push {as : Array α} {bs : Array β} {a : α} {b : β} (h : ∀ i : Nat, Option.Rel R as[i]? bs[i]?)
    (hab : R a b) (i : Nat) : Option.Rel R (as.push a)[i]? (bs.push b)[i]? := by
  rw [Array.getElem?_push, Array.getElem?_push, size_of_rel h]
  split
  · exact .some hab
  · exact h i

end Relations

/-- Functions written alike, with as many parameters. -/
structure Closure.Alike (k : Closure ε) (k' : Closure δ) : Prop where
  lexeme : k'.declared.name.lexeme = k.declared.name.lexeme
  arity : k'.arity = k.arity

structure ClassDef.Corresponds (M : Closure ε → Closure δ → Prop) (d : ClassDef ε) (d' : ClassDef δ) : Prop where
  name : d'.name = d.name
  superclass : d'.superclass = d.superclass
  methods : ∀ x : String, Option.Rel M d.methods[x]? d'.methods[x]?

/-- The same natives and instances, and functions and classes that correspond by number. Methods correspond in a way
of their own. -/
structure Heap.Corresponds (C M : Closure ε → Closure δ → Prop) (h : Heap ε) (h' : Heap δ) : Prop where
  natives : h'.natives = h.natives
  closures : ∀ i : Nat, Option.Rel C h.closures[i]? h'.closures[i]?
  classes : ∀ i : Nat, Option.Rel (ClassDef.Corresponds M) h.classes[i]? h'.classes[i]?
  objects : h'.objects = h.objects

theorem Methods.corresponds_ofList {M : Closure ε → Closure δ → Prop} {home : ε} {home' : δ} {g : Function → Function}
    {methods : List Function} (hname : ∀ f, (g f).name.lexeme = f.name.lexeme)
    (h : ∀ f ∈ methods, M ⟨f, home, f.name.lexeme == initializerName⟩ ⟨g f, home', f.name.lexeme == initializerName⟩)
    (x : String) : Option.Rel M (Methods.ofList home methods)[x]? (Methods.ofList home' (methods.map g))[x]? := by
  suffices hfold : ∀ (table : Methods ε) (table' : Methods δ), Option.Rel M table[x]? table'[x]? →
      Option.Rel M
        (methods.foldl (fun table f => table.insert f.name.lexeme ⟨f, home, f.name.lexeme == initializerName⟩)
          table)[x]?
        ((methods.map g).foldl (fun table f => table.insert f.name.lexeme ⟨f, home', f.name.lexeme == initializerName⟩)
          table')[x]? by
    exact hfold ∅ ∅ (by simp)
  induction methods with
  | nil => exact fun _ _ h => h
  | cons f rest ih =>
    intro table table' ht
    refine ih (fun f' hf' => h f' (List.mem_cons_of_mem f hf')) _ _ ?_
    dsimp only
    rw [hname, Std.ExtTreeMap.getElem?_insert, Std.ExtTreeMap.getElem?_insert]
    split
    · exact .some (h f List.mem_cons_self)
    · exact ht

namespace Heap.Corresponds

variable {C M : Closure ε → Closure δ → Prop} {h : Heap ε} {h' : Heap δ} (hh : h.Corresponds C M h')

include hh

theorem className (k : ClassId) : h'.className k = h.className k :=
  congrArg (·.getD "") (map_eq_of_rel (hh.classes k) fun _ _ hd => hd.name)

theorem display (hC : ∀ k k', C k k' → k.Alike k') (v : Value) : h'.display v = h.display v := by
  cases v with
  | nil | number | string => rfl
  | bool b => cases b <;> rfl
  | native id => simp only [Heap.display, hh.natives]
  | function id =>
    have hname := map_eq_of_rel (hh.closures id) (f := fun k => k.declared.name.lexeme)
      (g := fun k => k.declared.name.lexeme) fun _ _ hk => (hC _ _ hk).lexeme
    simp only [Heap.display, hname]
  | cls id => exact hh.className id
  | object id => simp only [Heap.display, hh.objects, hh.className]

theorem method? (k : ClassId) (x : String) : Option.Rel M (h.method? k x) (h'.method? k x) := by
  unfold Heap.method?
  generalize k + 1 = n
  induction n generalizing k with
  | zero => exact .none
  | succ n ih =>
    rw [method?.search, method?.search]
    have hk := hh.classes k
    revert hk
    cases h.classes[k]? <;> cases h'.classes[k]? <;> intro hk <;> cases hk
    · exact .none
    · rename_i d d' hd
      have hx := hd.methods x
      simp only [Option.bind_some]
      revert hx
      cases d.methods[x]? <;> cases d'.methods[x]? <;> intro hx <;> cases hx
      · rw [hd.superclass]
        cases d.superclass with
        | none => exact .none
        | some k' => exact ih k'
      · rename_i hm
        exact .some hm

theorem arity? (hC : ∀ k k', C k k' → k.Alike k') (hM : ∀ k k', M k k' → k.Alike k') (v : Value) :
    h'.arity? v = h.arity? v := by
  cases v with
  | nil | bool | number | string | object => rfl
  | native id => simp only [Heap.arity?, hh.natives]
  | function id => exact map_eq_of_rel (hh.closures id) fun _ _ hk => (hC _ _ hk).arity
  | cls id =>
    have hinitializer := map_eq_of_rel (hh.method? id initializerName) fun _ _ hk => (hM _ _ hk).arity
    simp only [Heap.arity?, initializer?, hinitializer]

theorem field? (o : ObjectId) (x : String) : h'.field? o x = h.field? o x := by
  simp only [Heap.field?, hh.objects]

theorem addClosure {k : Closure ε} {k' : Closure δ} (hk : C k k') :
    (h.addClosure k).2.Corresponds C M (h'.addClosure k').2 := { hh with closures := rel_push hh.closures hk }

theorem addClass {d : ClassDef ε} {d' : ClassDef δ} (hd : d.Corresponds M d') :
    (h.addClass d).2.Corresponds C M (h'.addClass d').2 := { hh with classes := rel_push hh.classes hd }

theorem addObject (k : ClassId) : (h.addObject k).2.Corresponds C M (h'.addObject k).2 :=
  { hh with objects := congrArg (·.push ⟨k, ∅⟩) hh.objects }

theorem setField (o : ObjectId) (x : String) (v : Value) :
    (h.setField o x v).Corresponds C M (h'.setField o x v) :=
  { hh with objects := by simp only [Heap.setField, hh.objects] }

theorem mono {C' M' : Closure ε → Closure δ → Prop} (hC : ∀ k k', C k k' → C' k k') (hM : ∀ k k', M k k' → M' k k') :
    h.Corresponds C' M' h' where
  natives := hh.natives
  objects := hh.objects
  closures i := rel_imp (hh.closures i) hC
  classes i := rel_imp (hh.classes i) fun _ _ hd => ⟨hd.name, hd.superclass, fun x => rel_imp (hd.methods x) hM⟩

end Heap.Corresponds

/-- Functions that are the same but for their homes, which are related. -/
structure Closure.Matches (R : Closure ε → δ → Prop) (k : Closure ε) (k' : Closure δ) : Prop where
  declared : k'.declared = k.declared
  isInitializer : k'.isInitializer = k.isInitializer
  home : R k k'.home

structure ClassDef.Matches (R : Closure ε → δ → Prop) (d : ClassDef ε) (d' : ClassDef δ) : Prop where
  name : d'.name = d.name
  superclass : d'.superclass = d.superclass
  methods : ∀ x : String, Option.Rel (Closure.Matches R) d.methods[x]? d'.methods[x]?

/-- The same natives and instances, and functions and classes that match by number. The homes of methods are related
in a way of their own. -/
structure Heap.Matches (R M : Closure ε → δ → Prop) (h : Heap ε) (h' : Heap δ) : Prop where
  natives : h'.natives = h.natives
  closures : ∀ i : Nat, Option.Rel (Closure.Matches R) h.closures[i]? h'.closures[i]?
  classes : ∀ i : Nat, Option.Rel (ClassDef.Matches M) h.classes[i]? h'.classes[i]?
  objects : h'.objects = h.objects

variable {R M R' M' : Closure ε → δ → Prop}

namespace Closure.Matches

variable {k : Closure ε} {k' : Closure δ}

theorem mono (h : k.Matches R k') (hR : ∀ k e, R k e → R' k e) : k.Matches R' k' :=
  ⟨h.declared, h.isInitializer, hR _ _ h.home⟩

theorem alike (h : k.Matches R k') : k.Alike k' :=
  ⟨congrArg (·.name.lexeme) h.declared, congrArg (·.parameters.length) h.declared⟩

end Closure.Matches

theorem Methods.matches_ofList {home : ε} {home' : δ} {methods : List Function}
    (h : ∀ f ∈ methods, R ⟨f, home, f.name.lexeme == initializerName⟩ home') (x : String) :
    Option.Rel (Closure.Matches R) (Methods.ofList home methods)[x]? (Methods.ofList home' methods)[x]? := by
  have hofList := Methods.corresponds_ofList (M := Closure.Matches R) (g := id) (fun _ => rfl)
    (fun f hf => ⟨rfl, rfl, h f hf⟩) x
  rwa [List.map_id] at hofList

def Closure.outline (k : Closure ε) : Closure Unit := { k with home := () }

def ClassDef.outline (d : ClassDef ε) : ClassDef Unit :=
  { d with methods := d.methods.map fun _ k => k.outline }

/-- What a heap holds, but for the homes of functions. -/
def Heap.outline (h : Heap ε) : Heap Unit :=
  { h with closures := h.closures.map Closure.outline, classes := h.classes.map ClassDef.outline }

theorem Closure.Matches.outline {k : Closure ε} {k' : Closure δ} (h : k.Matches R k') : k'.outline = k.outline := by
  unfold Closure.outline
  rw [h.declared, h.isInitializer]

theorem ClassDef.Matches.outline {d : ClassDef ε} {d' : ClassDef δ} (h : d.Matches R d') : d'.outline = d.outline := by
  unfold ClassDef.outline
  rw [h.name, h.superclass]
  congr 1
  refine Std.ExtTreeMap.ext_getElem? fun x => ?_
  rw [Std.ExtTreeMap.getElem?_map, Std.ExtTreeMap.getElem?_map]
  exact map_eq_of_rel (h.methods x) fun _ _ hk => hk.outline

namespace Heap.Matches

variable {h : Heap ε} {h' : Heap δ}

theorem mono (hh : h.Matches R M h') (hR : ∀ k e, R k e → R' k e) (hM : ∀ k e, M k e → M' k e) :
    h.Matches R' M' h' where
  natives := hh.natives
  objects := hh.objects
  closures i := rel_imp (hh.closures i) fun _ _ hk => hk.mono hR
  classes i := rel_imp (hh.classes i) fun _ _ hd =>
    ⟨hd.name, hd.superclass, fun x => rel_imp (hd.methods x) fun _ _ hk => hk.mono hM⟩

theorem corresponds (hh : h.Matches R M h') : h.Corresponds (Closure.Matches R) (Closure.Matches M) h' where
  natives := hh.natives
  closures := hh.closures
  classes i := rel_imp (hh.classes i) fun _ _ hd => ⟨hd.name, hd.superclass, hd.methods⟩
  objects := hh.objects

theorem display (hh : h.Matches R M h') (v : Value) : h'.display v = h.display v :=
  hh.corresponds.display (fun _ _ hk => hk.alike) v

theorem method? (hh : h.Matches R M h') (k : ClassId) (x : String) :
    Option.Rel (Closure.Matches M) (h.method? k x) (h'.method? k x) := hh.corresponds.method? k x

theorem arity? (hh : h.Matches R M h') (v : Value) : h'.arity? v = h.arity? v :=
  hh.corresponds.arity? (fun _ _ hk => hk.alike) (fun _ _ hk => hk.alike) v

theorem outline (hh : h.Matches R M h') : h'.outline = h.outline := by
  have hclosures : h'.closures.map Closure.outline = h.closures.map Closure.outline := Array.ext_getElem? fun i => by
    rw [Array.getElem?_map, Array.getElem?_map]
    exact map_eq_of_rel (hh.closures i) fun _ _ hk => hk.outline
  have hclasses : h'.classes.map ClassDef.outline = h.classes.map ClassDef.outline := Array.ext_getElem? fun i => by
    rw [Array.getElem?_map, Array.getElem?_map]
    exact map_eq_of_rel (hh.classes i) fun _ _ hd => hd.outline
  unfold Heap.outline
  rw [hclosures, hclasses, hh.natives, hh.objects]

theorem field? (hh : h.Matches R M h') (o : ObjectId) (x : String) : h'.field? o x = h.field? o x := by
  simp only [Heap.field?, hh.objects]

theorem addClosure (hh : h.Matches R M h') {k : Closure ε} {k' : Closure δ} (hk : k.Matches R k') :
    (h.addClosure k).2.Matches R M (h'.addClosure k').2 := { hh with closures := rel_push hh.closures hk }

theorem addClass (hh : h.Matches R M h') {d : ClassDef ε} {d' : ClassDef δ} (hd : d.Matches M d') :
    (h.addClass d).2.Matches R M (h'.addClass d').2 := { hh with classes := rel_push hh.classes hd }

theorem addObject (hh : h.Matches R M h') (k : ClassId) : (h.addObject k).2.Matches R M (h'.addObject k).2 :=
  { hh with objects := congrArg (·.push ⟨k, ∅⟩) hh.objects }

theorem setField (hh : h.Matches R M h') (o : ObjectId) (x : String) (v : Value) :
    (h.setField o x v).Matches R M (h'.setField o x v) :=
  { hh with objects := by simp only [Heap.setField, hh.objects] }

end Heap.Matches

end LoxLang
