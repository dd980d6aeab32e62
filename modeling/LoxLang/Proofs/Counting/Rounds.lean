import LoxLang.Proofs.Counting.Iterations

/-! A round of a counting loop leads to mates again. While its body runs, the frame of the copy makes a pair with the
frame of the variable in the other program; before and after it the two frames of the variable do. -/

namespace LoxLang.Counting

open Frames Run Grammar Pairing

/-- Just these two frames. -/
def pair (f f' : FrameId) : Pairing := fun g g' => g = f ∧ g' = f'

/-- No frames. -/
def nobody : Pairing := fun _ _ => False

variable {S : Setting} {own K K' K'' : Pairing} {fs fs' gs : Frames} {f f' g : FrameId} {m m' t t' u u' : Machine}

section Frames

/-- A frame of the loop is in no other pair. -/
theorem Paired.lone (h : Paired own K fs fs') (hf : own f f') : (∀ g', ¬ K f g') ∧ ∀ g, ¬ K g f' := by
  have hlink : link own K True f f' := .inr ⟨trivial, hf⟩
  constructor
  · intro g' hg
    obtain rfl := (h.unique f f' f g' hlink (.inl hg)).mp rfl
    exact h.apart _ _ hg hf
  · intro g hg
    obtain rfl := (h.unique f f' g f' hlink (.inl hg)).mpr rfl
    exact h.apart _ _ hg hf

/-- Another pair of frames takes the place of those of the loop. -/
theorem Paired.exchange (h : Paired own K fs fs') (hc : Closed gs) (hl : Later fs gs)
    (hsame : ∀ g g', K g g' → gs.names g = fs.names g) (hf : f < gs.size) (hf' : f' < fs'.size)
    (hnames : fs'.names f' = gs.names f) (hfree : ∀ g', ¬ K f g') (hfree' : ∀ g, ¬ K g f') :
    Paired (pair f f') K gs fs' := by
  have hcases : ∀ g g', link (pair f f') K True g g' → K g g' ∨ g = f ∧ g' = f' := fun g g' hg =>
    link_true.mp hg
  have hkeep : ∀ {g g'}, K g g' → link own K True g g' := fun hg => .inl hg
  refine ⟨hc, h.closed', ?_, ?_, ?_, ?_⟩
  · intro g g' hg
    rcases hcases g g' hg with hg | ⟨rfl, rfl⟩
    · exact ⟨(h.within g g' (hkeep hg)).1.trans_le hl.size, (h.within g g' (hkeep hg)).2⟩
    · exact ⟨hf, hf'⟩
  · intro g g' hg
    rcases hcases g g' hg with hg | ⟨rfl, rfl⟩
    · rw [hsame g g' hg, h.names g g' (hkeep hg)]
    · exact hnames
  · intro g g' k k' hg hk
    rcases hcases g g' hg with hold | ⟨rfl, rfl⟩ <;> rcases hcases k k' hk with hold' | ⟨rfl, rfl⟩
    · exact h.unique g g' k k' (hkeep hold) (hkeep hold')
    · exact ⟨fun e => absurd (e ▸ hold) (hfree g'), fun e => absurd (e ▸ hold) (hfree' g)⟩
    · exact ⟨fun e => absurd (e ▸ hold') (hfree k'), fun e => absurd (e ▸ hold') (hfree' k)⟩
    · exact ⟨fun _ => rfl, fun _ => rfl⟩
  · rintro g g' hg ⟨rfl, rfl⟩
    exact hfree g' hg

theorem Paired.forget (h : Paired own K fs fs') : Paired nobody K fs fs' := by
  have hkeep : ∀ {g g'}, link nobody K True g g' → link own K True g g' := fun hg => .inl (hg.resolve_right fun h => h.2)
  exact ⟨h.closed, h.closed', fun g g' hg => h.within g g' (hkeep hg), fun g g' hg => h.names g g' (hkeep hg),
    fun g g' k k' hg hk => h.unique g g' k k' (hkeep hg) (hkeep hk), fun _ _ _ => id⟩

end Frames

section Mates

/-- Another pair of frames takes the place of those of the loop, in whatever frame the first program stands. -/
theorem Mates.exchange (h : Mates S own K m m') (hl : Later m.store.frames gs)
    (hp : Paired (pair f f') K gs m'.store.frames) (current : FrameId) :
    Mates S (pair f f') K { m.withFrames gs with current := current } m' where
  left := h.left
  right := h.right
  output := h.output
  depth := h.depth
  globals := h.globals
  root := (hl.outer _ (h.frames.within _ _ (.inl h.globals)).1).trans h.root
  root' := h.root'
  frames := hp
  heap := by
    have hhomed : ∀ k home', Homed S K m.store.frames m'.store.frames k home' →
        Homed S K gs m'.store.frames k home' := fun k home' hk =>
      hk.later h.frames.closed h.frames.closed' hl (.refl _) fun _ _ => id
    exact h.heap.mono hhomed hhomed

theorem Mates.forget (h : Mates S own K m m') : Mates S nobody K m m' := { h with frames := h.frames.forget }

theorem Leads.forget (h : Leads S own K K' m m' t t') : Leads S nobody K K' m m' t t' :=
  { h with mates := h.mates.forget }

end Mates

section Rounds

variable {id : NodeId} {x : Token} {body : Stmt} {n s k : Nat} {v v' : FrameId} {w : Value}

/-- Both programs stand where a round of the loop begins, with the variable as many hops out. -/
structure Begins (S : Setting) (k : Nat) (v v' : FrameId) (x : String) (K : Pairing) (m m' : Machine) : Prop where
  mates : Mates S (pair v v') K m m'
  within : m.current < m.store.frames.size
  within' : m'.current < m'.store.frames.size
  holder : m.store.frames.ancestor? m.current k = some v
  holder' : m'.store.frames.ancestor? m'.current k = some v'
  beyond : ∀ d, Option.Rel K (m.store.frames.ancestor? m.current (d + (1 + k)))
    (m'.store.frames.ancestor? m'.current (d + (1 + k)))
  sole : Sole m.store.frames v x

namespace Begins

variable (h : Begins S k v v' x.lexeme K m m')

include h

theorem poised (hwired : Wired S.left id k) : Poised m id x.lexeme k v :=
  ⟨h.mates.left ▸ hwired, h.mates.frames.closed, h.within, h.holder, h.sole⟩

theorem bounds : v < m.store.frames.size ∧ v' < m'.store.frames.size :=
  h.mates.frames.within _ _ (.inr ⟨trivial, rfl, rfl⟩)

/-- While the body runs, the frame of the copy stands for that of the variable. -/
theorem mates_opened (hw : m.store.frames.here? v x.lexeme = some w) :
    Mates S (pair (m.store.frames.size + 1) v') K (opened m x w) m' := by
  have hpaired := h.mates.frames
  have hlone := hpaired.lone (show pair v v' v v' from ⟨rfl, rfl⟩)
  rw [opened_eq]
  refine h.mates.exchange (opened_later m x w) ?_ _
  rw [opened_frames]
  refine hpaired.exchange (closed_nested hpaired.closed h.within) later_nested ?_ ?_ h.bounds.2 ?_ ?_ hlone.2
  · intro g g' hg
    exact names_nested (hpaired.within _ _ (.inl hg)).1
  · rw [size_nested]
    exact Nat.lt_succ_self _
  · rw [hpaired.names v v' (.inr ⟨trivial, rfl, rfl⟩)]
    refine h.sole.names_eq (sole_of_names names_nested_inner) ?_
    rw [hw, here?_eq, names_nested_inner]
    simp
  · intro g' hg
    exact absurd (hpaired.within _ _ (.inl hg)).1 (by simp)

theorem stands_opened : Stands (pair (m.store.frames.size + 1) v') K ⟨s, displaced k, True⟩ (opened m x w) m' := by
  have hc := h.mates.frames.closed
  unfold Stands
  rw [opened_current, opened_frames]
  refine ⟨?_, h.within', ?_⟩
  · rw [size_nested]
    exact Nat.lt_succ_self _
  · rintro d d' (⟨rfl, rfl⟩ | ⟨j, rfl, rfl⟩)
    · rw [h.holder']
      exact .some (.inr ⟨trivial, rfl, rfl⟩)
    · rw [show j + (3 + k) = j + (1 + k) + 2 by omega, ancestor?_nested hc h.within]
      exact rel_imp (h.beyond j) fun _ _ => .inl

end Begins

/-- Where the machine stands when the body of a round has ended, whichever way. -/
structure Closes (S : Setting) (K K' : Pairing) (x : Token) (w : Value) (v' : FrameId) (m m' u u' : Machine) : Prop where
  leads : Leads S (pair (m.store.frames.size + 1) v') K K' (opened m x w) m' u u'
  grows : Grows (opened m x w).store.frames u.store.frames (opened m x w).current []

namespace Closes

variable (h : Closes S K K' x w v' m m' u u')

include h

theorem later : Later m.store.frames u.store.frames := (opened_later m x w).trans h.leads.later

theorem fresh {f f' : FrameId} (hf : K' f f') :
    K f f' ∨ m.store.frames.size + 2 ≤ f ∧ m'.store.frames.size ≤ f' := by
  have hf := h.leads.fresh f f' hf
  rwa [opened_frames, size_nested] at hf

theorem context : ({ u with current := m.current } : Machine).context = m.context := by
  have hu := h.leads.context
  simp only [Machine.context, Context.mk.injEq] at hu ⊢
  exact ⟨hu.1, trivial, hu.2.2⟩

/-- The machines behind a round that does not go on. -/
theorem leads_forget : Leads S nobody K K' m m' { u with current := m.current } u' where
  mates := { h.leads.mates.forget with }
  grows := h.leads.grows
  fresh _ _ hf := (h.fresh hf).imp_right fun hf => ⟨by omega, hf.2⟩
  later := h.later
  later' := h.leads.later'
  context := h.context
  context' := h.leads.context'

variable (hm : Begins S k v v' x.lexeme K m m')

include hm

/-- With the value of the copy written to the carrier and to the variable, the frames of the variable are a pair again. -/
theorem leads_again {w' : Value} (hw : u.store.frames.here? (m.store.frames.size + 1) x.lexeme = some w') :
    let gs := (u.store.frames.define m.store.frames.size (carrier x).lexeme w').define v x.lexeme w'
    Leads S (pair v v') K K' m m' { u.withFrames gs with current := m.current } u' ∧ Sole gs v x.lexeme := by
  intro gs
  have hu := h.leads.mates.frames
  have hlone := hu.lone (show pair (m.store.frames.size + 1) v' (m.store.frames.size + 1) v' from ⟨rfl, rfl⟩)
  have hv : v < m.store.frames.size := hm.bounds.1
  have hold : v ≠ m.store.frames.size := hv.ne
  have hgs : Later u.store.frames gs := (later_define ..).trans (later_define ..)
  have hsole : Sole gs v x.lexeme := by
    refine Sole.overwrite ?_ w'
    intro y
    unfold Has
    rw [here?_eq, names_define_of_ne hold, ← here?_eq]
    exact hm.sole.behind h.grows y
  -- The frame of the variable takes the place of the copy's frame in the pair, so it must have no other partner.
  have hfree : ∀ g', ¬ K' v g' := by
    intro g' hg
    rcases h.fresh hg with hg | hg
    · exact (hm.mates.frames.lone (show pair v v' v v' from ⟨rfl, rfl⟩)).1 g' hg
    · exact hg.1.not_gt (Nat.lt_add_right 2 hv)
  have hpaired : Paired (pair v v') K' gs u'.store.frames := by
    refine hu.exchange ((hu.closed.define _ _ _).define _ _ _) hgs ?_ ?_ ?_ ?_ hfree hlone.2
    · intro g g' hg
      have hgc : g ≠ m.store.frames.size := by
        rcases h.fresh hg with hg | hg
        · exact (hm.mates.frames.within _ _ (.inl hg)).1.ne
        · exact (Nat.lt_of_lt_of_le (Nat.lt_add_of_pos_right Nat.two_pos) hg.1).ne'
      have hgv : g ≠ v := fun e => hfree g' (e ▸ hg)
      rw [names_define_of_ne hgv, names_define_of_ne hgc]
    · exact hv.trans_le (h.later.size.trans hgs.size)
    · exact (hu.within _ _ (.inr ⟨trivial, rfl, rfl⟩)).2
    · rw [hu.names (m.store.frames.size + 1) v' (.inr ⟨trivial, rfl, rfl⟩)]
      refine (sole_copy h.grows).names_eq hsole ?_
      rw [hw, here?_define_self]
      rw [size_define]
      exact hv.trans_le h.later.size
  refine ⟨?_, hsole⟩
  exact
    { mates := h.leads.mates.exchange hgs hpaired m.current
      grows := h.leads.grows
      fresh := h.leads_forget.fresh
      later := h.later.trans hgs
      later' := h.leads.later'
      context := h.context
      context' := h.leads.context' }

end Closes

/-- What holds behind a round in which the loop goes on. -/
def Again (S : Setting) (x : String) (v v' : FrameId) (K : Pairing) (m m' : Machine) : Between := fun t t' =>
  ∃ K', Leads S (pair v v') K K' m m' t t' ∧ Sole t.store.frames v x

/-- A round with a copy of the variable ends as one without. -/
theorem alike_iteration (h : Begins S k v v' x.lexeme K m m') (hwired : Wired S.left id k)
    (hbody : body.Aligned S ⟨s, displaced k, True⟩) (hgives : body.gives = []) (n : Nat) :
    Alike (atHead (Again S x.lexeme v v' K m m') (Led S nobody K m m')) (Led S nobody K m m')
      (exec (n + 5) (iteration id x body) m) (exec (n + 3) (body.shift s) m') := by
  obtain ⟨w, hw⟩ := Option.isSome_iff_exists.mp ((h.sole x.lexeme).mpr rfl)
  have hsim := (sim_evaluators S (pair (m.store.frames.size + 1) v') (n + 3)).2 (h.mates_opened hw)
    (h.stands_opened (s := s)) hbody
  have hpoised := h.poised hwired
  have hfound := hpoised.found hw
  -- The body gives its frame no names, so the copy is alone there when the body ends.
  have hcloses : ∀ {u u'}, (exec (n + 3) body).after (opened m x w) = u →
      Led S (pair (m.store.frames.size + 1) v') K (opened m x w) m' u u' →
        ∃ K', Closes S K K' x w v' m m' u u' := by
    rintro u u' rfl ⟨K', hK⟩
    have hgrows := (confined_exec (n + 3) body (opened m x w)).2
    rw [hgives] at hgrows
    exact ⟨K', hK, hgrows.grows⟩
  unfold Sim at hsim
  change Alike _ _ (exec (n + 3) body (opened m x w)) (exec (n + 3) (body.shift s) m') at hsim
  cases e : exec (n + 3) body (opened m x w) with
  | error halt u =>
    rw [e] at hsim
    rw [exec_iteration_error hfound e]
    cases e' : exec (n + 3) (body.shift s) m' with
    | ok => rw [e'] at hsim; cases hsim
    | error halt' u' =>
      rw [e'] at hsim
      obtain ⟨rfl, hled⟩ := hsim
      obtain ⟨K', hu⟩ := hcloses (Halting.after_of_error e) hled
      exact ⟨rfl, K', hu.leads_forget⟩
  | ok completion u =>
    rw [e] at hsim
    cases e' : exec (n + 3) (body.shift s) m' with
    | error => rw [e'] at hsim; cases hsim
    | ok completion' u' =>
      rw [e'] at hsim
      obtain ⟨rfl, hled⟩ := hsim
      obtain ⟨K', hu⟩ := hcloses (Halting.after_of_ok e) hled
      cases completion' with
      | returned r =>
        rw [exec_iteration_returned hfound e]
        exact ⟨rfl, K', hu.leads_forget⟩
      | normal =>
        obtain ⟨w', hw'⟩ := Option.isSome_iff_exists.mp ((sole_copy hu.grows x.lexeme).mpr rfl)
        rw [hpoised.exec_normal hu.grows hu.leads.context e hw hw']
        exact ⟨rfl, K', hu.leads_again h hw'⟩

end Rounds

end LoxLang.Counting
