import LoxLang.Proofs.Counting.Alignment
import LoxLang.Proofs.Run
import LoxLang.Proofs.Scoping.Frames

/-! Frames of two programs in pairs. Both frames of a pair have the same values for the same names, and a frame stands
in one pair at most, so what is written to both keeps all pairs alike. The second program may lack frames of the first,
and then its distances differ. -/

namespace LoxLang

namespace Frames

/-- Frames that have perhaps become more; each stays inside the same one. -/
structure Later (fs gs : Frames) : Prop where
  size : fs.size ≤ gs.size
  outer : ∀ f < fs.size, gs.outer? f = fs.outer? f

variable {fs gs hs : Frames} {f g : FrameId}

theorem Later.refl (fs : Frames) : Later fs fs := ⟨le_rfl, fun _ _ => rfl⟩

theorem Later.trans (h : Later fs gs) (h' : Later gs hs) : Later fs hs :=
  ⟨h.size.trans h'.size, fun f hf => (h'.outer f (hf.trans_le h.size)).trans (h.outer f hf)⟩

theorem later_add (fs : Frames) (outer : Option FrameId) (names : Names) : Later fs (fs.add outer names) where
  size := (size_add fs outer names).symm ▸ Nat.le_succ _
  outer f hf := by rw [outer?_add, if_neg hf.ne]

theorem later_define (fs : Frames) (f : FrameId) (x : String) (v : Value) : Later fs (fs.define f x v) where
  size := (size_define fs f x v).ge
  outer g _ := outer?_define fs f g x v

/-- What is around a frame stays around it. -/
theorem ancestor?_later (hc : Closed fs) (h : Later fs gs) (hf : f < fs.size) (d : Nat) :
    gs.ancestor? f d = fs.ancestor? f d := by
  induction d generalizing f with
  | zero => rfl
  | succ d ih =>
    rw [ancestor?, ancestor?, h.outer f hf]
    cases hg : fs.outer? f with
    | none => rfl
    | some g => exact ih (hc f g hg)

theorem lt_of_ancestor (hc : Closed fs) (hf : f < fs.size) {d : Nat} (h : fs.ancestor? f d = some g) : g < fs.size := by
  induction d generalizing f with
  | zero =>
    cases h
    exact hf
  | succ d ih =>
    rw [ancestor?] at h
    obtain ⟨k, hk, hg⟩ := Option.bind_eq_some_iff.mp h
    exact ih (hc f k hk) hg

theorem ancestor?_add_succ (hc : Closed fs) (hf : f < fs.size) (names : Names) (d : Nat) :
    (fs.add (some f) names).ancestor? fs.size (d + 1) = fs.ancestor? f d := by
  rw [ancestor?, outer?_add, if_pos rfl]
  exact ancestor?_later hc (later_add ..) hf d

theorem names_add_self (fs : Frames) (outer : Option FrameId) (names : Names) :
    (fs.add outer names).names fs.size = names := by
  simp only [Frames.names, add, size, Array.getElem?_push_size, Option.map_some, Option.getD_some]

end Frames

namespace Counting

open Frames

/-- Frames of two programs. -/
abbrev Pairing := FrameId → FrameId → Prop

namespace Pairing

/-- With one pair more. -/
def add (K : Pairing) (f f' : FrameId) : Pairing := fun g g' => K g g' ∨ g = f ∧ g' = f'

/-- With the frames of the loop, if they count. -/
def link (own K : Pairing) (wide : Prop) : Pairing := fun f f' => K f f' ∨ wide ∧ own f f'

variable {own K K' : Pairing} {wide : Prop}

theorem link_mono (h : ∀ f f', K f f' → K' f f') (f f' : FrameId) (hf : link own K wide f f') :
    link own K' wide f f' := hf.imp_left (h f f')

theorem link_true {f f' : FrameId} : link own K True f f' ↔ K f f' ∨ own f f' := by simp [link]

end Pairing

open Pairing

/-- From two frames, distances that stand for one another lead to frames of a pair. -/
structure Faces (K : Pairing) (fs fs' : Frames) (hops : Nat → Nat → Prop) (f f' : FrameId) : Prop where
  within : f < fs.size
  within' : f' < fs'.size
  ancestors : ∀ d d', hops d d' → Option.Rel K (fs.ancestor? f d) (fs'.ancestor? f' d')

/-- Frames in pairs that are alike. A pair of the loop is none of the others. -/
structure Paired (own K : Pairing) (fs fs' : Frames) : Prop where
  closed : Closed fs
  closed' : Closed fs'
  within : ∀ f f', link own K True f f' → f < fs.size ∧ f' < fs'.size
  names : ∀ f f', link own K True f f' → fs'.names f' = fs.names f
  unique : ∀ f f' g g', link own K True f f' → link own K True g g' → (g = f ↔ g' = f')
  apart : ∀ f f', K f f' → ¬ own f f'

variable {own K K' : Pairing} {fs fs' gs gs' : Frames} {hops : Nat → Nat → Prop} {f f' g g' : FrameId}

namespace Faces

theorem mono (h : Faces K fs fs' hops f f') (hK : ∀ f f', K f f' → K' f f') : Faces K' fs fs' hops f f' :=
  ⟨h.within, h.within', fun d d' hd => rel_imp (h.ancestors d d' hd) hK⟩

theorem later (h : Faces K fs fs' hops f f') (hc : Closed fs) (hc' : Closed fs') (hl : Later fs gs)
    (hl' : Later fs' gs') : Faces K gs gs' hops f f' where
  within := h.within.trans_le hl.size
  within' := h.within'.trans_le hl'.size
  ancestors d d' hd := by
    rw [ancestor?_later hc hl h.within, ancestor?_later hc' hl' h.within']
    exact h.ancestors d d' hd

/-- From new frames inside those there were, distances are one greater. -/
theorem inside (h : Faces K fs fs' hops f f') (hc : Closed fs) (hc' : Closed fs') (names names' : Names) :
    Faces (K.add fs.size fs'.size) (fs.add (some f) names) (fs'.add (some f') names') (deeper hops) fs.size fs'.size where
  within := by rw [size_add]; exact Nat.lt_succ_self _
  within' := by rw [size_add]; exact Nat.lt_succ_self _
  ancestors d d' hd := by
    match d, d', hd with
    | 0, 0, _ => exact .some (.inr ⟨rfl, rfl⟩)
    | d + 1, d' + 1, hd =>
      rw [ancestor?_add_succ hc h.within, ancestor?_add_succ hc' h.within']
      exact rel_imp (h.ancestors d d' hd) fun _ _ => .inl

theorem here (h : Faces K fs fs' hops f f') (hzero : hops 0 0) : K f f' := by
  cases h.ancestors 0 0 hzero with
  | some hf => exact hf

end Faces

namespace Paired

variable (h : Paired own K fs fs')

include h

theorem here? (hf : link own K True f f') (x : String) : fs'.here? f' x = fs.here? f x := by
  rw [here?_eq, here?_eq, h.names f f' hf]

/-- A name gets a value in both frames of a pair. -/
theorem define (hf : link own K True f f') (x : String) (v : Value) :
    Paired own K (fs.define f x v) (fs'.define f' x v) where
  closed := h.closed.define f x v
  closed' := h.closed'.define f' x v
  within g g' hg := by
    rw [size_define, size_define]
    exact h.within g g' hg
  names g g' hg := by
    by_cases hgf : g = f
    · obtain rfl := (h.unique f f' g g' hf hg).mp hgf
      subst hgf
      obtain ⟨hlt, hlt'⟩ := h.within g g' hf
      rw [names_define_self hlt, names_define_self hlt', h.names g g' hf]
    · have hgf' : g' ≠ f' := fun e => hgf ((h.unique f f' g g' hf hg).mpr e)
      rw [names_define_of_ne hgf, names_define_of_ne hgf', h.names g g' hg]
  unique := h.unique
  apart := h.apart

/-- New frames with the same names make a new pair. -/
theorem add (hf : f < fs.size) (hf' : f' < fs'.size) (names : Names) :
    Paired own (K.add fs.size fs'.size) (fs.add (some f) names) (fs'.add (some f') names) := by
  have hold : ∀ g g', link own (K.add fs.size fs'.size) True g g' →
      (g < fs.size ∧ g' < fs'.size ∧ link own K True g g') ∨ g = fs.size ∧ g' = fs'.size := by
    rintro g g' ((hg | hg) | ⟨-, hg⟩)
    · exact .inl ⟨(h.within g g' (.inl hg)).1, (h.within g g' (.inl hg)).2, .inl hg⟩
    · exact .inr hg
    · exact .inl ⟨(h.within g g' (.inr ⟨trivial, hg⟩)).1, (h.within g g' (.inr ⟨trivial, hg⟩)).2, .inr ⟨trivial, hg⟩⟩
  refine ⟨h.closed.add hf names, h.closed'.add hf' names, ?_, ?_, ?_, ?_⟩
  · intro g g' hg
    rw [size_add, size_add]
    rcases hold g g' hg with ⟨hlt, hlt', -⟩ | ⟨rfl, rfl⟩
    · exact ⟨Nat.lt_succ_of_lt hlt, Nat.lt_succ_of_lt hlt'⟩
    · exact ⟨Nat.lt_succ_self _, Nat.lt_succ_self _⟩
  · intro g g' hg
    rcases hold g g' hg with ⟨hlt, hlt', hg⟩ | ⟨rfl, rfl⟩
    · rw [names_add_of_ne _ _ hlt.ne, names_add_of_ne _ _ hlt'.ne, h.names g g' hg]
    · rw [names_add_self, names_add_self]
  · intro g g' k k' hg hk
    rcases hold g g' hg with ⟨hlt, hlt', hg⟩ | ⟨rfl, rfl⟩ <;> rcases hold k k' hk with ⟨hkt, hkt', hk⟩ | ⟨rfl, rfl⟩
    · exact h.unique g g' k k' hg hk
    · exact ⟨fun e => absurd e hlt.ne', fun e => absurd e hlt'.ne'⟩
    · exact ⟨fun e => absurd e hkt.ne, fun e => absurd e hkt'.ne⟩
    · exact ⟨fun _ => rfl, fun _ => rfl⟩
  · rintro g g' (hg | ⟨rfl, rfl⟩) hown
    · exact h.apart g g' hg hown
    · exact (h.within _ _ (.inr ⟨trivial, hown⟩)).1.ne rfl

/-- A name at distances that stand for one another has the same value. -/
theorem getAt? {wide : Prop} (hf : Faces (link own K wide) fs fs' hops f f') {d d' : Nat} (hd : hops d d') (x : String) :
    fs'.getAt? f' d' x = fs.getAt? f d x := by
  have hrel := hf.ancestors d d' hd
  unfold Frames.getAt?
  generalize fs.ancestor? f d = a, fs'.ancestor? f' d' = a' at hrel
  cases hrel with
  | none => rfl
  | some hg => exact h.here? (hg.imp_right fun hg => ⟨trivial, hg.2⟩) x

end Paired

end Counting

end LoxLang
