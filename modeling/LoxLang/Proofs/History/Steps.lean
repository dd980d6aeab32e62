import LoxLang.Proofs.Captures.Writes
import LoxLang.Proofs.Classes.Lawful

/-! The history of a store, change by change. Code changes the store in a few ways only, whatever else it does; so what
every such change keeps is kept for good. -/

namespace LoxLang

open Frames

/-- One change that code makes to a store. No reserved name is overwritten. -/
inductive Store.Step : Store → Store → Prop
  | frame (s : Store) (outer : FrameId) (names : Names) : Step s (s.addFrame (some outer) names).2
  | write {x : String} (s : Store) (f : FrameId) (v : Value) : x ∉ reserved →
    Step s { s with frames := s.frames.define f x v }
  /-- A function is declared. -/
  | function (s : Store) (f : Function) (home : FrameId) : Step s (s.inHeap fun h => h.addClosure ⟨f, home, false⟩).2
  /-- A method is bound to an instance, in a new frame. -/
  | method (s : Store) (k : Closure FrameId) (o : ObjectId) :
    Step s ((s.bind k o).2.inHeap fun h => h.addClosure (s.bind k o).1).2
  | cls (s : Store) (d : ClassDef FrameId) : Step s (s.inHeap fun h => h.addClass d).2
  | object (s : Store) (c : ClassId) : Step s (s.inHeap fun h => h.addObject c).2
  | field (s : Store) (o : ObjectId) (x : String) (v : Value) : Step s (s.inHeap fun h => ((), h.setField o x v)).2

/-- The one store becomes the other in some number of changes. -/
abbrev Store.Reaches : Store → Store → Prop := Relation.ReflTransGen Store.Step

/-- What lasts, and functions that stay as they are. -/
structure Store.Endures (s t : Store) : Prop extends s.Lasts t where
  closures : ∀ (id : ClosureId) k, s.closures[id]? = some k → t.closures[id]? = some k

/-- Every initializer that is a value is bound to an instance. -/
def Store.Bound (s : Store) : Prop :=
  ∀ k ∈ s.closures, k.isInitializer → ∃ o, s.frames.here? k.home "this" = some (.object o)

namespace Store

variable {s t u : Store}

theorem Endures.refl (s : Store) : s.Endures s := ⟨.refl s, fun _ _ h => h⟩

theorem Endures.trans (h : s.Endures t) (h' : t.Endures u) : s.Endures u :=
  ⟨h.toLasts.trans h'.toLasts, fun id k hk => h'.closures id k (h.closures id k hk)⟩

theorem Endures.this (h : s.Endures t) {f : FrameId} {v : Value} (hv : s.frames.here? f "this" = some v) :
    t.frames.here? f "this" = some v := h.kept f "this" v (by simp [reserved]) hv

theorem Step.endures (h : s.Step t) : s.Endures t := by
  cases h with
  | frame _ outer names => exact ⟨lasts_addFrame s _ names, fun _ _ h => h⟩
  | write _ f v hx => exact ⟨lasts_define s f hx v, fun _ _ h => h⟩
  | function _ f home => exact ⟨lasts_addClosure s _, fun _ _ h => getElem?_push_of_some h _⟩
  | method _ k o => exact ⟨(lasts_bind s k o).trans (lasts_addClosure _ _), fun _ _ h => getElem?_push_of_some h _⟩
  | cls _ d => exact ⟨lasts_addClass s d, fun _ _ h => h⟩
  | object _ c => exact ⟨lasts_addObject s c, fun _ _ h => h⟩
  | field _ o x v => exact ⟨lasts_setField s o x v, fun _ _ h => h⟩

theorem here?_bind (s : Store) (k : Closure FrameId) (o : ObjectId) (x : String) :
    (s.bind k o).2.frames.here? (s.bind k o).1.home x = if x = "this" then some (.object o) else none := by
  refine (here?_add ..).trans ((if_pos rfl).trans ?_)
  rw [Std.ExtTreeMap.getElem?_insert]
  by_cases hx : x = "this"
  · subst hx
    simp
  · rw [if_neg hx, if_neg (by simpa using Ne.symm hx)]
    simp

theorem Bound.endures (h : s.Bound) (hs : s.Endures t) (hclosures : t.closures = s.closures) : t.Bound := by
  intro k hk hflag
  obtain ⟨o, ho⟩ := h k (hclosures ▸ hk) hflag
  exact ⟨o, hs.this ho⟩

theorem Step.bound (h : s.Step t) (hs : s.Bound) : t.Bound := by
  have hendures := h.endures
  cases h with
  | frame | write | cls | object | field => exact hs.endures hendures rfl
  | function _ f home =>
    intro k hk hflag
    rcases Array.mem_push.mp hk with hk | rfl
    · exact hs k hk hflag
    · cases hflag
  | method _ k o =>
    intro k' hk' hflag
    rcases Array.mem_push.mp hk' with hk' | rfl
    · obtain ⟨o', ho'⟩ := hs k' hk' hflag
      exact ⟨o', hendures.this ho'⟩
    · exact ⟨o, (here?_bind s k o "this").trans (if_pos rfl)⟩

theorem Reaches.endures (h : s.Reaches t) : s.Endures t := by
  induction h with
  | refl => exact .refl s
  | tail _ hstep ih => exact ih.trans hstep.endures

theorem Reaches.bound (h : s.Reaches t) (hs : s.Bound) : t.Bound := by
  induction h with
  | refl => exact hs
  | tail _ hstep ih => exact hstep.bound ih

variable {f : FrameId} {may : FrameId → String → Prop}

/-- A change that overwrites no reserved name is a step. -/
theorem Change.step (h : s.Change f may t) (hmay : ∀ g x, may g x → x ∉ reserved) : s.Step t := by
  cases h with
  | adds h =>
    cases h with
    | frame names => exact .frame s _ names
    | object c => exact .object s c
  | write _ v h => exact .write s _ v (hmay _ _ h)
  | function _ declared => exact .function s declared f
  | @method _ _ _ k o => exact .method s k o
  | @cls _ d => exact .cls s d
  | field _ o x v => exact .field s o x v

theorem Changes.reaches (h : s.Changes f may t) (hmay : ∀ g x, may g x → x ∉ reserved) : s.Reaches t :=
  Relation.ReflTransGen.mono (fun _ _ hchange => hchange.step hmay) _ _ h

theorem Additions.reaches (h : s.Additions f t) : s.Reaches t := by
  have hchanges : s.Changes f (fun _ _ => False) t := Additions.changes h
  exact Changes.reaches hchanges fun _ _ => False.elim

end Store

end LoxLang
