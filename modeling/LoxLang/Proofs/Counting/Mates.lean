import LoxLang.Proofs.Context
import LoxLang.Proofs.Counting.Outcomes
import LoxLang.Proofs.Counting.Pairs

/-! Machines of two programs that are alike but for frames that only one of them has. Values, instances, functions and
classes have the same numbers in both, so values are the same; functions stand in frames of a pair. -/

namespace LoxLang.Counting

open Frames Pairing

/-- A function of code that both programs share stands in frames of a pair, and so do all frames around them. -/
structure Homed (S : Setting) (K : Pairing) (fs fs' : Frames) (k : Closure FrameId) (home' : FrameId) : Prop where
  faces : Faces K fs fs' Eq k.home home'
  code : ∀ u ∈ k.declared.uses, u.id < S.limit

/-- The frames of the loop are pairs that no function stands in. -/
structure Mates (S : Setting) (own K : Pairing) (m m' : Machine) : Prop where
  left : m.bindings = S.left
  right : m'.bindings = S.right
  output : m'.output = m.output
  depth : m'.depth = m.depth
  globals : K m.globals m'.globals
  root : m.store.frames.outer? m.globals = none
  root' : m'.store.frames.outer? m'.globals = none
  frames : Paired own K m.store.frames m'.store.frames
  heap : m.store.toHeap.Matches (Homed S K m.store.frames m'.store.frames)
    (Homed S K m.store.frames m'.store.frames) m'.store.toHeap

/-- The programs run the same code at places that correspond. -/
abbrev Stands (own K : Pairing) (μ : Manner) (m m' : Machine) : Prop :=
  Faces (link own K μ.wide) m.store.frames m'.store.frames μ.hops m.current m'.current

/-- Mates that a run of both programs leads to, with more pairs, all of which are of new frames. -/
structure Leads (S : Setting) (own K K' : Pairing) (m m' t t' : Machine) : Prop where
  mates : Mates S own K' t t'
  grows : ∀ f f', K f f' → K' f f'
  fresh : ∀ f f', K' f f' → K f f' ∨ m.store.frames.size ≤ f ∧ m'.store.frames.size ≤ f'
  later : Later m.store.frames t.store.frames
  later' : Later m'.store.frames t'.store.frames
  context : t.context = m.context
  context' : t'.context = m'.context

variable {S : Setting} {own K K' K'' : Pairing} {m m' t t' u u' : Machine} {μ : Manner}

theorem Homed.later {fs fs' gs gs' : Frames} {k : Closure FrameId} {home' : FrameId} (h : Homed S K fs fs' k home')
    (hc : Closed fs) (hc' : Closed fs') (hl : Later fs gs) (hl' : Later fs' gs') (hK : ∀ f f', K f f' → K' f f') :
    Homed S K' gs gs' k home' := ⟨(h.faces.later hc hc' hl hl').mono hK, h.code⟩

namespace Leads

theorem refl (h : Mates S own K m m') : Leads S own K K m m' m m' :=
  ⟨h, fun _ _ => id, fun _ _ => .inl, .refl _, .refl _, rfl, rfl⟩

theorem trans (h : Leads S own K K' m m' t t') (h' : Leads S own K' K'' t t' u u') : Leads S own K K'' m m' u u' where
  mates := h'.mates
  grows f f' hf := h'.grows f f' (h.grows f f' hf)
  fresh f f' hf := by
    rcases h'.fresh f f' hf with hf | ⟨hf, hf'⟩
    · exact h.fresh f f' hf
    · exact .inr ⟨h.later.size.trans hf, h.later'.size.trans hf'⟩
  later := h.later.trans h'.later
  later' := h.later'.trans h'.later'
  context := h'.context.trans h.context
  context' := h'.context'.trans h.context'

theorem stands (h : Leads S own K K' m m' t t') (hm : Mates S own K m m') (hs : Stands own K μ m m') :
    Stands own K' μ t t' := by
  have hcurrent : t.current = m.current := congrArg Context.current h.context
  have hcurrent' : t'.current = m'.current := congrArg Context.current h.context'
  unfold Stands
  rw [hcurrent, hcurrent']
  exact (hs.later hm.frames.closed hm.frames.closed' h.later h.later').mono (link_mono h.grows)

/-- Back from new frames, which may be a pair of those the run has added. -/
theorem leave {K₁ : Pairing} {outer outer' : FrameId} {names names' : Names}
    (h : Leads S own K₁ K' (m.enter outer names) (m'.enter outer' names') t t') (hK : ∀ f f', K f f' → K₁ f f')
    (hnew : ∀ f f', K₁ f f' → K f f' ∨ m.store.frames.size ≤ f ∧ m'.store.frames.size ≤ f') :
    Leads S own K K' m m' { t with current := m.current } { t' with current := m'.current } where
  mates := { h.mates with }
  grows f f' hf := h.grows f f' (hK f f' hf)
  fresh f f' hf := by
    rcases h.fresh f f' hf with hf | ⟨hf, hf'⟩
    · exact hnew f f' hf
    · exact .inr ⟨(later_add ..).size.trans hf, (later_add ..).size.trans hf'⟩
  later := (later_add ..).trans h.later
  later' := (later_add ..).trans h.later'
  context := by
    have hcontext := h.context
    simp only [Machine.context, Context.mk.injEq] at hcontext ⊢
    exact ⟨hcontext.1, trivial, hcontext.2.2⟩
  context' := by
    have hcontext := h.context'
    simp only [Machine.context, Context.mk.injEq] at hcontext ⊢
    exact ⟨hcontext.1, trivial, hcontext.2.2⟩

end Leads

namespace Mates

variable (h : Mates S own K m m')

include h

theorem deeper : Mates S own K { m with depth := m.depth + 1 } { m' with depth := m'.depth + 1 } :=
  { h with depth := congrArg (· + 1) h.depth }

/-- Frames of a pair in which a name gets a value. -/
theorem leads_define {f f' : FrameId} (hf : link own K True f f') (x : String) (v : Value) :
    Leads S own K K m m' (m.withFrames (m.store.frames.define f x v)) (m'.withFrames (m'.store.frames.define f' x v)) where
  mates :=
    { left := h.left
      right := h.right
      output := h.output
      depth := h.depth
      globals := h.globals
      root := (outer?_define ..).trans h.root
      root' := (outer?_define ..).trans h.root'
      frames := h.frames.define hf x v
      heap := by
        have hhomed : ∀ k home', Homed S K m.store.frames m'.store.frames k home' →
            Homed S K (m.store.frames.define f x v) (m'.store.frames.define f' x v) k home' := fun k home' hk =>
          hk.later h.frames.closed h.frames.closed' (later_define ..) (later_define ..) fun _ _ => id
        exact h.heap.mono hhomed hhomed }
  grows _ _ := id
  fresh _ _ := .inl
  later := later_define ..
  later' := later_define ..
  context := rfl
  context' := rfl

/-- New frames inside two that are there. -/
theorem leads_add {f f' : FrameId} (hf : f < m.store.frames.size) (hf' : f' < m'.store.frames.size) (names : Names) :
    Leads S own K (K.add m.store.frames.size m'.store.frames.size) m m'
      (m.withFrames (m.store.frames.add (some f) names)) (m'.withFrames (m'.store.frames.add (some f') names)) where
  mates :=
    { left := h.left
      right := h.right
      output := h.output
      depth := h.depth
      globals := .inl h.globals
      root := ((later_add ..).outer _ (h.frames.within _ _ (.inl h.globals)).1).trans h.root
      root' := ((later_add ..).outer _ (h.frames.within _ _ (.inl h.globals)).2).trans h.root'
      frames := h.frames.add hf hf' names
      heap := by
        have hhomed : ∀ k home', Homed S K m.store.frames m'.store.frames k home' →
            Homed S (K.add m.store.frames.size m'.store.frames.size) (m.store.frames.add (some f) names)
              (m'.store.frames.add (some f') names) k home' := fun k home' hk =>
          hk.later h.frames.closed h.frames.closed' (later_add ..) (later_add ..) fun _ _ => .inl
        exact h.heap.mono hhomed hhomed }
  grows _ _ := .inl
  fresh g g' hg := hg.imp_right fun hg => ⟨hg.1.ge, hg.2.ge⟩
  later := later_add ..
  later' := later_add ..
  context := rfl
  context' := rfl

/-- In new frames with the same names, which are a pair. -/
theorem enter {f f' : FrameId} (hf : f < m.store.frames.size) (hf' : f' < m'.store.frames.size) (names : Names) :
    Mates S own (K.add m.store.frames.size m'.store.frames.size) (m.enter f names) (m'.enter f' names) :=
  { (h.leads_add hf hf' names).mates with }

theorem stands_enter {f f' : FrameId} (hf : Faces (link own K μ.wide) m.store.frames m'.store.frames μ.hops f f')
    (names : Names) : Stands own (K.add m.store.frames.size m'.store.frames.size) μ.inner (m.enter f names)
      (m'.enter f' names) := by
  refine (hf.inside h.frames.closed h.frames.closed' names names).mono fun g g' hg => ?_
  rcases hg with (hg | hg) | hg
  · exact .inl (.inl hg)
  · exact .inr hg
  · exact .inl (.inr hg)

theorem leads_heap {heap heap' : Heap FrameId} (hheap : heap.Matches (Homed S K m.store.frames m'.store.frames)
    (Homed S K m.store.frames m'.store.frames) heap') :
    Leads S own K K m m' (m.withHeap heap) (m'.withHeap heap') where
  mates := { h with heap := hheap }
  grows _ _ := id
  fresh _ _ := .inl
  later := .refl _
  later' := .refl _
  context := rfl
  context' := rfl

theorem leads_output (output : Sink) : Leads S own K K m m' { m with output := output } { m' with output := output } where
  mates := { h with output := rfl }
  grows _ _ := id
  fresh _ _ := .inl
  later := .refl _
  later' := .refl _
  context := rfl
  context' := rfl

theorem getGlobal (x : String) : m'.store.frames.get? m'.globals x = m.store.frames.get? m.globals x := by
  rw [get?_of_root h.root, get?_of_root h.root', h.frames.names _ _ (.inl h.globals)]

/-- A read finds the same. -/
theorem found (hs : Stands own K μ m m') {u : Use} (hu : u.Aligned S μ) (x : String) :
    m'.found? (u.id + μ.shift) x = m.found? u.id x := by
  unfold Use.Aligned at hu
  unfold Machine.found?
  rw [h.left, h.right]
  generalize S.left[u.id]? = d, S.right[u.id + μ.shift]? = d' at hu
  cases hu with
  | none => exact h.getGlobal x
  | some hd => exact h.frames.getAt? hs hd.1 x

/-- An assignment writes to frames of a pair, or to none. -/
theorem assigned (hs : Stands own K μ m m') {u : Use} (hu : u.Aligned S μ) (x : String) (v : Value) :
    (∃ f f', link own K True f f' ∧ m.assigned u.id x v = (true, m.store.frames.define f x v) ∧
      m'.assigned (u.id + μ.shift) x v = (true, m'.store.frames.define f' x v)) ∨
    m.assigned u.id x v = (false, m.store.frames) ∧ m'.assigned (u.id + μ.shift) x v = (false, m'.store.frames) := by
  unfold Use.Aligned at hu
  unfold Machine.assigned
  rw [h.left, h.right]
  generalize S.left[u.id]? = d, S.right[u.id + μ.shift]? = d' at hu
  cases hu with
  | none =>
    have hglobals : link own K True m.globals m'.globals := .inl h.globals
    dsimp only
    rw [assign_of_root h.root, assign_of_root h.root', h.frames.here? hglobals]
    cases m.store.frames.here? m.globals x with
    | none => exact .inr ⟨if_neg (by simp), if_neg (by simp)⟩
    | some w => exact .inl ⟨_, _, hglobals, if_pos rfl, if_pos rfl⟩
  | @some d d' hd =>
    have hrel := hs.ancestors d d' hd.1
    dsimp only
    unfold assignAt
    generalize m.store.frames.ancestor? m.current d = f, m'.store.frames.ancestor? m'.current d' = f' at hrel
    cases hrel with
    | none => exact .inr ⟨rfl, rfl⟩
    | @some f f' hf =>
      have hf := hf.imp_right fun hf => And.intro trivial hf.2
      dsimp only
      rw [h.frames.here? hf]
      cases m.store.frames.here? f x with
      | none => exact .inr ⟨if_neg (by simp), if_neg (by simp)⟩
      | some w => exact .inl ⟨_, _, hf, if_pos rfl, if_pos rfl⟩

end Mates

end LoxLang.Counting
