import LoxLang.Proofs.Classes.OwnUses
import LoxLang.Proofs.Scoping.Moments

/-! The class around a place in a running program. Around the body of a method stands the frame of the instance, and
around that the frame in which the method was declared, which names the superclass if there is one. Later stores keep
all of this, for no program overwrites a reserved name. -/

namespace LoxLang

open Frames Run

namespace Heap

variable {ε : Type}

/-- One class is another or inherits from it, through as many classes as may be. -/
def Descends (h : Heap ε) : ClassId → ClassId → Prop :=
  Relation.ReflTransGen fun k k' => ∃ d, h.classes[k]? = some d ∧ d.superclass = some k'

/-- A method that is found is declared by a class that the class descends from. -/
theorem descends_of_method? {h : Heap ε} {k : ClassId} {x : String} {method : Closure ε}
    (hmethod : h.method? k x = some method) :
    ∃ k' d, h.Descends k k' ∧ h.classes[k']? = some d ∧ d.methods[x]? = some method := by
  unfold method? at hmethod
  generalize k + 1 = n at hmethod
  induction n generalizing k with
  | zero => cases hmethod
  | succ n ih =>
    rw [method?.search, Option.bind_eq_some_iff] at hmethod
    obtain ⟨d, hd, hmethod⟩ := hmethod
    split at hmethod
    · rename_i hx
      exact ⟨k, d, .refl, hd, hx.trans hmethod⟩
    · obtain ⟨k', hk', hmethod⟩ := Option.bind_eq_some_iff.mp hmethod
      obtain ⟨k'', d', hdescends, hd', hx⟩ := ih hmethod
      exact ⟨k'', d', .head ⟨d, hd, hk'⟩ hdescends, hd', hx⟩

end Heap

/-- A moment at which a class declaration runs to its end, with the class it makes: its number, what is kept of it,
the frame that its methods are declared in, and the methods. The superclass is the class that the clause names then,
and the frame of the methods is a new one, which is for the name of the superclass. -/
inductive Moment.Declares : Moment → ClassId → ClassDef FrameId → FrameId → List Function → Prop
  | base {n : Nat} {name : Token} {methods : List Function} {m m' : Machine} {d : ClassDef FrameId} :
    exec n (.classDecl name none methods) m = .ok .normal m' → m'.store.classes[m.store.classes.size]? = some d →
      d = ⟨name.lexeme, none, .ofList m.current methods⟩ →
        Declares ⟨n, .stmt (.classDecl name none methods), m⟩ m.store.classes.size d m.current methods
  | derived {n : Nat} {name : Token} {u : NameUse} {c : ClassId} {methods : List Function} {m m' : Machine}
    {d : ClassDef FrameId} :
    read u.id u.name m = .ok (.cls c) m → exec n (.classDecl name (some u) methods) m = .ok .normal m' →
      m'.store.classes[m.store.classes.size]? = some d →
        d = ⟨name.lexeme, some c, .ofList m.store.frames.next methods⟩ →
          Declares ⟨n, .stmt (.classDecl name (some u) methods), m⟩ m.store.classes.size d m.store.frames.next methods

theorem Moment.Declares.methods_eq {k : Moment} {id : ClassId} {d : ClassDef FrameId} {home : FrameId}
    {methods : List Function} (h : k.Declares id d home methods) : d.methods = .ofList home methods := by
  cases h <;> subst_vars <;> rfl

/-- A class around a place, the frame its methods were declared in, and its methods. -/
structure Enclosure where
  cls : ClassId
  home : FrameId
  methods : List Function

/-- Every use of `this` or `super` among the given ones stands in a method of the class around, and of no class
inside it. -/
def Owned (around : Option Enclosure) (us : List Use) : Prop :=
  ∀ u ∈ us, u.OfClass → ∃ e ∈ around, ∃ f ∈ e.methods, u ∈ f.ownUses

theorem Owned.mono {around : Option Enclosure} {us vs : List Use} (h : Owned around us) (hs : vs ⊆ us) :
    Owned around vs := fun u hu => h u (hs hu)

/-- The instance is one of the class or of a class that inherits from it. -/
def Store.IsA (s : Store) (o : ObjectId) (k : ClassId) : Prop :=
  ∃ object, s.objects[o]? = some object ∧ s.toHeap.Descends object.cls k

section Places

variable (past : Moment → Prop) (s : Store)

/-- The class is in the store as a past moment declared it. If the innermost of the scopes around its methods is that
of the superclass, the superclass is there. -/
structure Enclosure.Built (e : Enclosure) (l : Layout) (d : ClassDef FrameId) : Prop where
  record : s.classes[e.cls]? = some d
  declared : ∃ k, past k ∧ k.Declares e.cls d e.home e.methods
  superclass : ∀ scope ∈ l.head?, "super" ∈ scope →
    ∃ c, d.superclass = some c ∧ s.frames.here? e.home "super" = some (.cls c)

/-- The frames of a layout, from the innermost scope out to the global frame, with the class whose instance is the
nearest. -/
inductive Enclosed (globals : FrameId) : FrameId → Layout → Option Enclosure → Prop
  | top : Enclosed globals globals [] none
  | scope {f g : FrameId} {scope : List String} {l : Layout} {around : Option Enclosure} :
    s.frames.outer? f = some g → (∀ x ∈ scope, x ∉ reserved) → Enclosed globals g l around →
      Enclosed globals f (scope :: l) around
  | superclass {f g : FrameId} {l : Layout} {around : Option Enclosure} :
    s.frames.outer? f = some g → Enclosed globals g l around → Enclosed globals f (["super"] :: l) around
  | receiver {f : FrameId} {l : Layout} {around : Option Enclosure} {e : Enclosure} {d : ClassDef FrameId}
    {o : ObjectId} :
    s.frames.outer? f = some e.home → s.frames.here? f "this" = some (.object o) → s.IsA o e.cls →
      e.Built past s l d → Enclosed globals e.home l around → Enclosed globals f (["this"] :: l) (some e)

end Places

/-- A later store: frames and classes stay, reserved names keep their values and instances their classes. -/
structure Store.Lasts (s s' : Store) : Prop where
  outer : ∀ f g, s.frames.outer? f = some g → s'.frames.outer? f = some g
  kept : ∀ f x v, x ∈ reserved → s.frames.here? f x = some v → s'.frames.here? f x = some v
  classes : ∀ (k : ClassId) d, s.classes[k]? = some d → s'.classes[k]? = some d
  objects : ∀ (o : ObjectId) object, s.objects[o]? = some object →
    ∃ object', s'.objects[o]? = some object' ∧ object'.cls = object.cls

namespace Store.Lasts

variable {s s' s'' : Store}

theorem refl (s : Store) : s.Lasts s :=
  ⟨fun _ _ h => h, fun _ _ _ _ h => h, fun _ _ h => h, fun _ object h => ⟨object, h, rfl⟩⟩

theorem trans (h : s.Lasts s') (h' : s'.Lasts s'') : s.Lasts s'' where
  outer f g hg := h'.outer f g (h.outer f g hg)
  kept f x v hx hv := h'.kept f x v hx (h.kept f x v hx hv)
  classes k d hd := h'.classes k d (h.classes k d hd)
  objects o object ho := by
    obtain ⟨object', ho', hcls⟩ := h.objects o object ho
    obtain ⟨object'', ho'', hcls'⟩ := h'.objects o object' ho'
    exact ⟨object'', ho'', hcls'.trans hcls⟩

theorem descends (h : s.Lasts s') {k k' : ClassId} (hk : s.toHeap.Descends k k') : s'.toHeap.Descends k k' :=
  Relation.ReflTransGen.mono (fun _ _ ⟨d, hd, hs⟩ => ⟨d, h.classes _ d hd, hs⟩) _ _ hk

theorem isA (h : s.Lasts s') {o : ObjectId} {k : ClassId} (ho : s.IsA o k) : s'.IsA o k := by
  obtain ⟨object, hobject, hk⟩ := ho
  obtain ⟨object', hobject', hcls⟩ := h.objects o object hobject
  exact ⟨object', hobject', hcls ▸ h.descends hk⟩

end Store.Lasts

variable {past past' : Moment → Prop} {s s' : Store} {globals f : FrameId} {l : Layout} {around : Option Enclosure}

theorem Enclosure.Built.lasts {e : Enclosure} {d : ClassDef FrameId} (h : e.Built past s l d) (hs : s.Lasts s')
    (hpast : ∀ k, past k → past' k) : e.Built past' s' l d where
  record := hs.classes _ _ h.record
  declared := by
    obtain ⟨k, hk, hdeclares⟩ := h.declared
    exact ⟨k, hpast k hk, hdeclares⟩
  superclass scope hscope hsuper := by
    obtain ⟨c, hc, hhere⟩ := h.superclass scope hscope hsuper
    exact ⟨c, hc, hs.kept _ _ _ (by simp [reserved]) hhere⟩

namespace Enclosed

theorem lasts (h : Enclosed past s globals f l around) (hs : s.Lasts s') (hpast : ∀ k, past k → past' k) :
    Enclosed past' s' globals f l around := by
  induction h with
  | top => exact .top
  | scope houter hscope _ ih => exact .scope (hs.outer _ _ houter) hscope ih
  | superclass houter _ ih => exact .superclass (hs.outer _ _ houter) ih
  | receiver houter hthis hisA hbuilt _ ih =>
    have hthis := hs.kept _ _ _ (by simp [reserved]) hthis
    exact .receiver (hs.outer _ _ houter) hthis (hs.isA hisA) (hbuilt.lasts hs hpast) ih

theorem declare (h : Enclosed past s globals f l around) {names : List String} (hn : ∀ x ∈ names, x ∉ reserved)
    (hplain : ∀ scope ∈ l.head?, ∀ x ∈ scope, x ∉ reserved) :
    Enclosed past s globals f (l.declare names) around := by
  cases h with
  | top => exact .top
  | scope houter hscope hrest =>
    exact .scope houter (fun x hx => (List.mem_append.mp hx).elim (hn x) (hscope x)) hrest
  | superclass => exact absurd (by simp [reserved]) (hplain _ rfl "super" (by simp))
  | receiver => exact absurd (by simp [reserved]) (hplain _ rfl "this" (by simp))

/-- Around a place in a class there is a scope of the instance. -/
theorem hops_of_mem (h : Enclosed past s globals f l around) {e : Enclosure} (he : e ∈ around) :
    ∃ n, l.hops? "this" = some n := by
  induction h with
  | top => cases he
  | scope _ hscope _ ih =>
    obtain ⟨n, hn⟩ := ih he
    exact ⟨n + 1, by rw [Layout.hops?_cons_of_not_mem fun hm => hscope _ hm (by simp [reserved]), hn]; rfl⟩
  | superclass _ _ ih =>
    obtain ⟨n, hn⟩ := ih he
    exact ⟨n + 1, by rw [Layout.hops?_cons_of_not_mem (by simp), hn]; rfl⟩
  | receiver => exact ⟨0, Layout.hops?_cons_of_mem (by simp) _⟩

/-- As far out as the layout says the frame of the instance is, which is one of the class around. Where the layout has
the superclass in the next scope out, it stands in the frame around the methods. -/
theorem receiver_at (h : Enclosed past s globals f l around) {n : Nat} (hn : l.hops? "this" = some n) :
    ∃ e ∈ around, ∃ t d o, s.frames.ancestor? f n = some t ∧ s.frames.here? t "this" = some (.object o) ∧
      s.frames.outer? t = some e.home ∧ s.frames.ancestor? f (n + 1) = some e.home ∧ s.IsA o e.cls ∧
      s.classes[e.cls]? = some d ∧ (∃ k, past k ∧ k.Declares e.cls d e.home e.methods) ∧
      (l.hops? "super" = some (n + 1) →
        ∃ c, d.superclass = some c ∧ s.frames.here? e.home "super" = some (.cls c)) := by
  induction h generalizing n with
  | top => cases hn
  | @scope f g scope l around houter hscope _ ih =>
    have hnot : ∀ x ∈ reserved, x ∉ scope := fun x hx hm => hscope x hm hx
    rw [Layout.hops?_cons_of_not_mem (hnot _ (by simp [reserved]))] at hn
    obtain ⟨n', hn', rfl⟩ := Option.map_eq_some_iff.mp hn
    obtain ⟨e, he, t, d, o, ht, hthis, hhome, hnext, hisA, hd, hdeclared, hsuper⟩ := ih hn'
    refine ⟨e, he, t, d, o, ?_, hthis, hhome, ?_, hisA, hd, hdeclared, fun h => hsuper ?_⟩
    · rw [ancestor?, houter]
      exact ht
    · rw [ancestor?, houter]
      exact hnext
    · rw [Layout.hops?_cons_of_not_mem (hnot _ (by simp [reserved]))] at h
      obtain ⟨n'', hn'', hsucc⟩ := Option.map_eq_some_iff.mp h
      rw [hn'', Nat.succ.inj hsucc]
  -- Here `super` is nearer than `this`, so nothing is said of the two one behind the other.
  | @superclass f g l around houter _ ih =>
    rw [Layout.hops?_cons_of_not_mem (by simp)] at hn
    obtain ⟨n', hn', rfl⟩ := Option.map_eq_some_iff.mp hn
    obtain ⟨e, he, t, d, o, ht, hthis, hhome, hnext, hisA, hd, hdeclared, -⟩ := ih hn'
    refine ⟨e, he, t, d, o, ?_, hthis, hhome, ?_, hisA, hd, hdeclared, fun h => ?_⟩
    · rw [ancestor?, houter]
      exact ht
    · rw [ancestor?, houter]
      exact hnext
    · rw [Layout.hops?_cons_of_mem (by simp)] at h
      cases h
  | @receiver f l around e d o houter hthis hisA hbuilt _ ih =>
    rw [Layout.hops?_cons_of_mem (by simp)] at hn
    cases hn
    refine ⟨e, rfl, f, d, o, rfl, hthis, houter, ?_, hisA, hbuilt.record, hbuilt.declared, fun h => ?_⟩
    · rw [ancestor?, houter]
      rfl
    · rw [Layout.hops?_cons_of_not_mem (by simp)] at h
      obtain ⟨n', hn', hsucc⟩ := Option.map_eq_some_iff.mp h
      cases l with
      | nil => cases hn'
      | cons scope outer =>
        refine hbuilt.superclass scope rfl ?_
        by_contra hm
        rw [Layout.hops?_cons_of_not_mem hm] at hn'
        obtain ⟨_, -, rfl⟩ := Option.map_eq_some_iff.mp hn'
        cases hsucc

end Enclosed

end LoxLang
