import LoxLang.Proofs.Access
import LoxLang.Proofs.Heap
import LoxLang.Proofs.Values.Whole

/-! Links lead from newer to older, of frames outward and of classes to their superclasses. Every frame but the global one is
inside an older frame, and what functions keep are frames that are there; each operation on the store keeps this. It follows
that the links of frames end at the global frame, and those of classes at a class without a superclass. -/

namespace LoxLang

namespace Chain

variable {β : Type} {next : Nat → Option Nat} {look : Nat → Option β} {a b : Nat}

/-- The place a number of links onward. -/
def steps (next : Nat → Option Nat) (a : Nat) : Nat → Option Nat
  | 0 => some a
  | k + 1 => (next a).bind fun b => steps next b k

/-- There are that many links to follow, and no more. -/
def EndsAfter (next : Nat → Option Nat) (a d : Nat) : Prop := ∀ k, (steps next a k).isSome ↔ k ≤ d

/-- What a search comes to that looks at a place, and onward from it until something is found or no link is left. -/
inductive Search (next : Nat → Option Nat) (look : Nat → Option β) : Nat → Option β → Prop
  | here {a : Nat} {v : β} : look a = some v → Search next look a (some v)
  | nowhere {a : Nat} : look a = none → next a = none → Search next look a none
  | onward {a b : Nat} {r : Option β} : look a = none → next a = some b → Search next look b r → Search next look a r

theorem Search.unique {r r' : Option β} (h : Search next look a r) (h' : Search next look a r') : r = r' := by
  induction h with
  | here hv =>
    cases h' with
    | here hv' => exact hv.symm.trans hv'
    | nowhere hnone | onward hnone => rw [hv] at hnone; cases hnone
  | nowhere hnone hend =>
    cases h' with
    | here hv => rw [hnone] at hv; cases hv
    | nowhere => rfl
    | onward _ hb => rw [hend] at hb; cases hb
  | onward hnone hb _ ih =>
    cases h' with
    | here hv => rw [hnone] at hv; cases hv
    | nowhere _ hend => rw [hend] at hb; cases hb
    | onward _ hb' hrest =>
      obtain rfl := Option.some.inj (hb.symm.trans hb')
      exact ih hrest

theorem steps_succ (next : Nat → Option Nat) (a k : Nat) : steps next a (k + 1) = (steps next a k).bind next := by
  induction k generalizing a with
  | zero => rw [steps, steps, Option.bind_some]; cases next a <;> rfl
  | succ k ih =>
    rw [steps, steps]
    cases next a with
    | none => rfl
    | some b => exact ih b

/-- What passes along links holds at the end of any number of them. -/
theorem steps_induction {P : Nat → Prop} (hstep : ∀ a b, next a = some b → P a → P b) {k : Nat} (ha : P a)
    (hb : steps next a k = some b) : P b := by
  induction k generalizing a with
  | zero =>
    cases hb
    exact ha
  | succ k ih =>
    obtain ⟨c, hc, hb⟩ := Option.bind_eq_some_iff.mp hb
    exact ih (hstep a c hc ha) hb

theorem EndsAfter.last {d : Nat} (h : EndsAfter next a d) : ∃ b, steps next a d = some b ∧ next b = none := by
  obtain ⟨b, hb⟩ := Option.isSome_iff_exists.mp ((h d).mpr le_rfl)
  refine ⟨b, hb, ?_⟩
  by_contra hne
  have hmore : (steps next a (d + 1)).isSome := by
    rw [steps_succ, hb, Option.bind_some]
    exact Option.isSome_iff_ne_none.mpr hne
  have hle := (h (d + 1)).mp hmore
  omega

/-- A link leads to an older place. -/
def Downward (next : Nat → Option Nat) : Prop := ∀ a b, next a = some b → b < a

section Downward

variable (h : Downward next)

include h

theorem Downward.wellFounded : WellFounded fun b a => next a = some b :=
  Subrelation.wf (fun {b a} hb => h a b hb) Nat.lt_wfRel.wf

theorem Downward.endsAfter (a : Nat) : ∃ d ≤ a, EndsAfter next a d := by
  induction a using Nat.strong_induction_on with
  | _ a ih =>
    cases hb : next a with
    | none =>
      refine ⟨0, Nat.zero_le a, fun k => ?_⟩
      cases k with
      | zero => simp [steps]
      | succ k => simp [steps, hb]
    | some b =>
      have hlt := h a b hb
      obtain ⟨d, hd, hends⟩ := ih b hlt
      refine ⟨d + 1, by omega, fun k => ?_⟩
      cases k with
      | zero => simp [steps]
      | succ k =>
        rw [steps, hb, Option.bind_some, hends k]
        omega

/-- What follows the search step by step is what the search comes to. -/
theorem Downward.search {r : Nat → Option β} (hr : ∀ a, r a = (look a).or ((next a).bind r)) (a : Nat) :
    Search next look a (r a) := by
  induction a using Nat.strong_induction_on with
  | _ a ih =>
    rw [hr]
    cases hlook : look a with
    | some v => exact .here hlook
    | none =>
      cases hb : next a with
      | none => exact .nowhere hlook hb
      | some b => exact .onward hlook hb (ih b (h a b hb))

end Downward

end Chain

open Chain

namespace Frames

variable {fs : Frames}

theorem ancestor?_eq_steps (fs : Frames) (f : FrameId) (k : Nat) : fs.ancestor? f k = steps fs.outer? f k := by
  induction k generalizing f with
  | zero => rfl
  | succ k ih =>
    rw [ancestor?, steps]
    exact congrArg (Option.bind (fs.outer? f)) (funext ih)

/-- The frames around one, in order, are those at a number of steps. -/
theorem Descending.getElem?_chain (h : fs.Descending) (f : FrameId) (k : Nat) : (fs.chain f)[k]? = fs.ancestor? f k := by
  induction k generalizing f with
  | zero =>
    rw [h.chain_eq]
    rfl
  | succ k ih =>
    rw [h.chain_eq, List.getElem?_cons_succ, ancestor?]
    cases hg : fs.outer? f with
    | none => rfl
    | some g => exact ih g

theorem Descending.search_get? (h : fs.Descending) (f : FrameId) (x : String) :
    Search fs.outer? (fs.here? · x) f (fs.get? f x) := by
  refine Downward.search h (r := fun f => fs.get? f x) (fun f => ?_) f
  unfold get?
  rw [h.holder?_eq]
  cases hv : fs.here? f x with
  | some v => simp [hv]
  | none => cases fs.outer? f <;> simp

/-- The frame whose value an assignment overwrites is found on the way outward. -/
theorem Descending.search_assign (h : fs.Descending) (f : FrameId) (x : String) (v : Value) :
    ∃ gs, Search fs.outer? (fun g => if (fs.here? g x).isSome then some (fs.define g x v) else none) f gs ∧
      fs.assign f x v = (gs.isSome, gs.getD fs) := by
  refine ⟨(fs.holder? f x).map fun g => fs.define g x v, ?_, ?_⟩
  · refine Downward.search h (r := fun f => (fs.holder? f x).map fun g => fs.define g x v) (fun f => ?_) f
    rw [h.holder?_eq]
    by_cases hx : (fs.here? f x).isSome
    · simp [hx]
    · cases fs.outer? f <;> simp [hx]
  · unfold assign
    cases fs.holder? f x <;> rfl

end Frames

namespace Heap

variable {ε : Type} {h : Heap ε}

def superclass? (h : Heap ε) (c : ClassId) : Option ClassId := h.classes[c]?.bind ClassDef.superclass

/-- The method of a name in the body of a class. -/
def own? (h : Heap ε) (x : String) (c : ClassId) : Option (Closure ε) := h.classes[c]?.bind fun d => d.methods[x]?

theorem superclass?_of_getElem {c : ClassId} {d : ClassDef ε} (hc : h.classes[c]? = some d) :
    h.superclass? c = d.superclass := by
  rw [superclass?, hc]
  rfl

/-- A search for a method ends before its bound does, so that the bound does not matter. -/
theorem search_eq (hd : Downward h.superclass?) (x : String) {n m : Nat} {c : ClassId} (hn : c < n) (hm : c < m) :
    method?.search h x n c = method?.search h x m c := by
  induction n generalizing c m with
  | zero => cases hn
  | succ n ih =>
    cases m with
    | zero => cases hm
    | succ m =>
      rw [method?.search, method?.search]
      cases hc : h.classes[c]? with
      | none => rfl
      | some d =>
        rw [Option.bind_some, Option.bind_some]
        cases d.methods[x]? with
        | some method => rfl
        | none =>
          cases hs : d.superclass with
          | none => rfl
          | some c' =>
            have hlt : c' < c := hd c c' ((superclass?_of_getElem hc).trans hs)
            exact ih (hlt.trans_le (Nat.le_of_lt_succ hn)) (hlt.trans_le (Nat.le_of_lt_succ hm))

theorem search_method? (hd : Downward h.superclass?) (c : ClassId) (x : String) :
    Search h.superclass? (h.own? x) c (h.method? c x) := by
  refine hd.search (r := fun c => h.method? c x) (fun c => ?_) c
  rw [method?, method?.search, own?]
  cases hc : h.classes[c]? with
  | none =>
    rw [superclass?, hc]
    rfl
  | some d =>
    rw [superclass?_of_getElem hc, Option.bind_some, Option.bind_some]
    cases d.methods[x]? with
    | some method => rfl
    | none =>
      cases hs : d.superclass with
      | none => rfl
      | some c' =>
        have hlt : c' < c := hd c c' ((superclass?_of_getElem hc).trans hs)
        exact search_eq hd x hlt (Nat.lt_succ_self c')

end Heap

open Frames

structure Store.Rooted (globals : FrameId) (s : Store) : Prop where
  root : s.frames.outer? globals = none
  within : globals < s.frames.size
  inside : ∀ f < s.frames.size, f ≠ globals → ∃ g < f, s.frames.outer? f = some g
  closures : ∀ k ∈ s.closures, k.home < s.frames.size
  methods : ∀ d ∈ s.classes, ∀ (x : String) (k : Closure FrameId), d.methods[x]? = some k → k.home < s.frames.size

namespace Store

variable {globals : FrameId} {s : Store}

namespace Rooted

variable (h : s.Rooted globals)

include h

theorem addFrame {outer : FrameId} (ho : outer < s.frames.size) (names : Names) :
    Rooted globals (s.addFrame (some outer) names).2 where
  root := by
    have hne : globals ≠ s.frames.size := Nat.ne_of_lt h.within
    rw [Store.addFrame, outer?_add, if_neg hne]
    exact h.root
  within := by
    rw [Store.addFrame, size_add]
    exact Nat.lt_succ_of_lt h.within
  inside f hf hne := by
    rw [Store.addFrame, size_add] at hf
    rw [Store.addFrame, outer?_add]
    by_cases hnew : f = s.frames.size
    · rw [if_pos hnew]
      exact ⟨outer, hnew ▸ ho, rfl⟩
    · rw [if_neg hnew]
      exact h.inside f (Nat.lt_of_le_of_ne (Nat.le_of_lt_succ hf) hnew) hne
  closures k hk := by
    rw [Store.addFrame, size_add]
    exact Nat.lt_succ_of_lt (h.closures k hk)
  methods d hd x k hk := by
    rw [Store.addFrame, size_add]
    exact Nat.lt_succ_of_lt (h.methods d hd x k hk)

/-- Names are no affair of the links. -/
theorem define (f : FrameId) (x : String) (v : Value) : Rooted globals { s with frames := s.frames.define f x v } where
  root := by
    rw [outer?_define]
    exact h.root
  within := by
    rw [size_define]
    exact h.within
  inside g hg hne := by
    rw [size_define] at hg
    rw [outer?_define]
    exact h.inside g hg hne
  closures k hk := by
    rw [size_define]
    exact h.closures k hk
  methods d hd x k hk := by
    rw [size_define]
    exact h.methods d hd x k hk

theorem addClosure {k : Closure FrameId} (hk : k.home < s.frames.size) :
    Rooted globals (s.inHeap fun h => h.addClosure k).2 where
  root := h.root
  within := h.within
  inside := h.inside
  closures k' hk' := by
    rcases Array.mem_push.mp hk' with hk' | rfl
    · exact h.closures k' hk'
    · exact hk
  methods := h.methods

theorem addClass {d : ClassDef FrameId}
    (hd : ∀ (x : String) (k : Closure FrameId), d.methods[x]? = some k → k.home < s.frames.size) :
    Rooted globals (s.inHeap fun h => h.addClass d).2 where
  root := h.root
  within := h.within
  inside := h.inside
  closures := h.closures
  methods d' hd' := by
    rcases Array.mem_push.mp hd' with hd' | rfl
    · exact h.methods d' hd'
    · exact hd

theorem addObject (c : ClassId) : Rooted globals (s.inHeap fun h => h.addObject c).2 :=
  ⟨h.root, h.within, h.inside, h.closures, h.methods⟩

theorem setField (o : ObjectId) (x : String) (v : Value) : Rooted globals (s.inHeap fun h => ((), h.setField o x v)).2 :=
  ⟨h.root, h.within, h.inside, h.closures, h.methods⟩

theorem method {c : ClassId} {x : String} {k : Closure FrameId} (hk : s.method? c x = some k) :
    k.home < s.frames.size := by
  obtain ⟨d, hd, hx⟩ := Heap.mem_of_method? hk
  exact h.methods d hd x k hx

theorem bind {k : Closure FrameId} (hk : k.home < s.frames.size) (o : ObjectId) : Rooted globals (s.bind k o).2 :=
  h.addFrame hk _

theorem descending : s.frames.Descending := by
  intro f g hg
  have hne : f ≠ globals := by
    rintro rfl
    rw [h.root] at hg
    cases hg
  obtain ⟨g', hlt, hg'⟩ := h.inside f (lt_of_outer hg) hne
  obtain rfl := Option.some.inj (hg.symm.trans hg')
  exact hlt

theorem outer?_eq_none_iff {f : FrameId} (hf : f < s.frames.size) : s.frames.outer? f = none ↔ f = globals := by
  constructor
  · intro hnone
    by_contra hne
    obtain ⟨g, -, hg⟩ := h.inside f hf hne
    rw [hnone] at hg
    cases hg
  · rintro rfl
    exact h.root

end Rooted

/-- The frame of the instance, which the bound method keeps, is the newest. -/
theorem home_bind (s : Store) (k : Closure FrameId) (o : ObjectId) : (s.bind k o).1.home < (s.bind k o).2.frames.size := by
  rw [show (s.bind k o).2.frames.size = s.frames.size + 1 from size_add ..]
  exact Nat.lt_succ_self _

end Store

structure Machine.Rooted (m : Machine) : Prop where
  store : m.store.Rooted m.globals
  current : m.current < m.store.frames.size

/-- The frames that are held: by the machine, by functions, bound methods among them, by the methods of classes, and by
frames that are held. -/
inductive Machine.Holds (m : Machine) : FrameId → Prop
  | globals : Holds m m.globals
  | current : Holds m m.current
  | function {k : Closure FrameId} : k ∈ m.store.closures → Holds m k.home
  | method {d : ClassDef FrameId} {x : String} {k : Closure FrameId} :
    d ∈ m.store.classes → d.methods[x]? = some k → Holds m k.home
  | outer {f g : FrameId} : Holds m f → m.store.frames.outer? f = some g → Holds m g

/-- The links of a frame end at the global frame, which alone has none, after as many steps as there are frames around it;
and a search by name along them ends with what reading and assigning the name come to. -/
structure Frames.Founded (fs : Frames) (globals f : FrameId) : Prop where
  orphan : fs.outer? f = none ↔ f = globals
  reaches : ∃ d, fs.ancestor? f d = some globals ∧ (fs.chain f).length = d + 1 ∧ ∀ k, (fs.ancestor? f k).isSome ↔ k ≤ d
  around : ∀ k, (fs.chain f)[k]? = fs.ancestor? f k
  get : ∀ x, Search fs.outer? (fs.here? · x) f (fs.get? f x)
  assign : ∀ x v, ∃ gs,
    Search fs.outer? (fun g => if (fs.here? g x).isSome then some (fs.define g x v) else none) f gs ∧
      fs.assign f x v = (gs.isSome, gs.getD fs)

/-- The links of a class lead to classes and end, and a search for a method along them ends with the method that is found. -/
structure Heap.Founded {ε : Type} (h : Heap ε) (c : ClassId) : Prop where
  ends : ∃ d, EndsAfter h.superclass? c d
  within : ∀ k c', steps h.superclass? c k = some c' → c' < h.classes.size
  method : ∀ x, Search h.superclass? (h.own? x) c (h.method? c x)

structure Machine.Founded (m : Machine) : Prop where
  outward : WellFounded fun g f => m.store.frames.outer? f = some g
  held : ∀ f, m.Holds f → f < m.store.frames.size
  frames : ∀ f < m.store.frames.size, m.store.frames.Founded m.globals f
  upward : WellFounded fun c' c => m.store.superclass? c = some c'
  classes : ∀ c < m.store.classes.size, m.store.toHeap.Founded c

theorem Store.Rooted.founded_frame {globals : FrameId} {s : Store} (h : s.Rooted globals) {f : FrameId}
    (hf : f < s.frames.size) : s.frames.Founded globals f where
  orphan := h.outer?_eq_none_iff hf
  reaches := by
    obtain ⟨d, -, hends⟩ := Downward.endsAfter h.descending f
    obtain ⟨g, hg, hlast⟩ := hends.last
    have hlt : g < s.frames.size :=
      steps_induction (P := fun f => f < s.frames.size) (fun a b hb ha => (h.descending a b hb).trans ha) hf hg
    obtain rfl := (h.outer?_eq_none_iff hlt).mp hlast
    have hiff (k : Nat) : (s.frames.ancestor? f k).isSome ↔ k ≤ d := by
      rw [ancestor?_eq_steps]
      exact hends k
    refine ⟨d, (ancestor?_eq_steps ..).trans hg, ?_, hiff⟩
    have hlength (k : Nat) : k < (s.frames.chain f).length ↔ k ≤ d := by
      rw [← hiff, ← h.descending.getElem?_chain]
      simp
    have hd := (hlength d).mpr le_rfl
    have hd' := mt (hlength (d + 1)).mp (by omega)
    omega
  around := h.descending.getElem?_chain f
  get := h.descending.search_get? f
  assign := h.descending.search_assign f

theorem Store.Whole.downward {s : Store} (h : s.Whole) : Downward s.superclass? := by
  intro c c' hc
  obtain ⟨d, hd, hs⟩ := Option.bind_eq_some_iff.mp hc
  exact h.superclasses c d c' hd hs

theorem Store.Whole.founded_class {s : Store} (h : s.Whole) {c : ClassId} (hc : c < s.classes.size) :
    s.toHeap.Founded c where
  ends := by
    obtain ⟨d, -, hends⟩ := h.downward.endsAfter c
    exact ⟨d, hends⟩
  within _ _ hk :=
    steps_induction (P := fun c => c < s.classes.size) (fun a b hb ha => (h.downward a b hb).trans ha) hc hk
  method := Heap.search_method? h.downward c

namespace Machine.Rooted

variable {m : Machine} (h : m.Rooted)

include h

theorem lt_of_holds {f : FrameId} (hf : m.Holds f) : f < m.store.frames.size := by
  induction hf with
  | globals => exact h.store.within
  | current => exact h.current
  | function hk => exact h.store.closures _ hk
  | method hd hx => exact h.store.methods _ hd _ _ hx
  | outer _ hg ih => exact (h.store.descending _ _ hg).trans ih

theorem founded (hw : m.store.Whole) : m.Founded where
  outward := Downward.wellFounded h.store.descending
  held _ hf := h.lt_of_holds hf
  frames _ hf := h.store.founded_frame hf
  upward := hw.downward.wellFounded
  classes _ hc := hw.founded_class hc

end Machine.Rooted

end LoxLang
