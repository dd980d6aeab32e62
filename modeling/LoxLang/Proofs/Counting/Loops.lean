import LoxLang.Proofs.Counting.Rounds

/-! Both lowerings of a counting loop end alike wherever their code is aligned. -/

namespace LoxLang.Counting

open Frames Run Grammar Pairing

variable {S : Setting} {own K K' K'' : Pairing} {m m' t t' u u' : Machine} {id : NodeId} {n k : Nat} {v v' : FrameId}

section Sequences

variable {head out halted : Between} {after : Completion → Between} {s s' : Stmt} {rest rest' : List Stmt}

/-- What ends alike comes first, and what follows it ends alike. -/
theorem coincide_cons (h : Coincide (atHead head out) halted (exec · s) m (exec · s') m')
    (hrest : ∀ t t', head t t' → Coincide after halted (fun n => sequence (exec n) rest) t
      (fun n => sequence (exec n) rest') t') (hout : ∀ v t t', out t t' → after (.returned v) t t') :
    Coincide after halted (fun n => sequence (exec n) (s :: rest)) m (fun n => sequence (exec n) (s' :: rest')) m' := by
  refine h.bind (steadfast_exec _) (steadfast_exec _) (steadfast_leave (steadfast_sequence _))
    (steadfast_leave (steadfast_sequence _)) fun completion t t' ht => ?_
  cases completion with
  | normal => exact hrest t t' ht
  | returned v => exact coincide_pure (hout v t t' ht)

theorem coincide_nil (h : after .normal m m') :
    Coincide after halted (fun n => sequence (exec n) []) m (fun n => sequence (exec n) []) m' := coincide_pure h

theorem coincide_block {body body' : List Stmt}
    (h : Coincide (fun a t t' => after a { t with current := m.current } { t' with current := m'.current })
      (fun t t' => halted { t with current := m.current } { t' with current := m'.current })
      (fun n => sequence (exec n) body) (m.enter m.current ∅) (fun n => sequence (exec n) body') (m'.enter m'.current ∅)) :
    Coincide after halted (exec · (.block body)) m (exec · (.block body')) m' :=
  Coincide.succ (steadfast_exec _) (steadfast_exec _)
    (Coincide.congr (coincide_inNewFrame h) (fun _ => rfl) fun _ => rfl)

end Sequences

/-- Both programs stand in the frames of the variable of a loop, inside frames that correspond. -/
structure Stage (S : Setting) (x : String) (K : Pairing) (m m' : Machine) : Prop where
  mates : Mates S (pair m.current m'.current) K m m'
  sole : Sole m.store.frames m.current x
  inside : ∃ f f', m.store.frames.outer? m.current = some f ∧ m'.store.frames.outer? m'.current = some f' ∧
    Faces K m.store.frames m'.store.frames Eq f f'

/-- Code that both programs run while they are in the loop. -/
abbrev shifted (n : Nat) : Manner := ⟨n, Eq, True⟩

namespace Stage

variable {x : String} (h : Stage S x K m m')

include h

theorem bounds : m.current < m.store.frames.size ∧ m'.current < m'.store.frames.size :=
  h.mates.frames.within _ _ (.inr ⟨trivial, rfl, rfl⟩)

theorem beyond (d : Nat) : Option.Rel K (m.store.frames.ancestor? m.current (d + 1))
    (m'.store.frames.ancestor? m'.current (d + 1)) := by
  obtain ⟨f, f', hf, hf', hfaces⟩ := h.inside
  rw [ancestor?, ancestor?, hf, hf']
  exact hfaces.ancestors d d rfl

theorem stands : Stands (pair m.current m'.current) K (shifted n) m m' := by
  refine ⟨h.bounds.1, h.bounds.2, ?_⟩
  rintro d _ rfl
  cases d with
  | zero => exact .some (.inr ⟨trivial, rfl, rfl⟩)
  | succ d => exact rel_imp (h.beyond d) fun _ _ => .inl

/-- A run both programs have made in the loop. -/
theorem leads (hl : Leads S (pair m.current m'.current) K K' m m' t t') (hs : Sole t.store.frames m.current x) :
    Stage S x K' t t' := by
  obtain ⟨f, f', hf, hf', hfaces⟩ := h.inside
  have hcurrent : t.current = m.current := congrArg Context.current hl.context
  have hcurrent' : t'.current = m'.current := congrArg Context.current hl.context'
  refine ⟨?_, ?_, f, f', ?_, ?_, ?_⟩
  · rw [hcurrent, hcurrent']
    exact hl.mates
  · rw [hcurrent]
    exact hs
  · rw [hcurrent, hl.later.outer _ h.bounds.1, hf]
  · rw [hcurrent', hl.later'.outer _ h.bounds.2, hf']
  · exact (hfaces.later h.mates.frames.closed h.mates.frames.closed' hl.later hl.later').mono hl.grows

/-- A round without a block of its own begins in the frame of the variable. -/
theorem begins : Begins S 0 m.current m'.current x K m m' :=
  ⟨h.mates, h.bounds.1, h.bounds.2, rfl, rfl, h.beyond, h.sole⟩

/-- A round with an increment begins in a block. -/
theorem begins_inside : Begins S 1 m.current m'.current x (K.add m.store.frames.size m'.store.frames.size)
    (m.enter m.current ∅) (m'.enter m'.current ∅) where
  mates := h.mates.enter h.bounds.1 h.bounds.2 ∅
  within := (size_add ..).symm ▸ Nat.lt_succ_self _
  within' := (size_add ..).symm ▸ Nat.lt_succ_self _
  holder := ancestor?_add_succ h.mates.frames.closed h.bounds.1 ∅ 0
  holder' := ancestor?_add_succ h.mates.frames.closed' h.bounds.2 ∅ 0
  beyond d := by
    have hleft := ancestor?_add_succ h.mates.frames.closed h.bounds.1 ∅ (d + 1)
    have hright := ancestor?_add_succ h.mates.frames.closed' h.bounds.2 ∅ (d + 1)
    change Option.Rel _ ((m.store.frames.add (some m.current) ∅).ancestor? m.store.frames.size (d + 1 + 1))
      ((m'.store.frames.add (some m'.current) ∅).ancestor? m'.store.frames.size (d + 1 + 1))
    rw [hleft, hright]
    exact rel_imp (h.beyond d) fun _ _ => .inl
  sole := h.sole.grows (grows_add _ _ _ 0)

theorem stands_inside : Stands (pair m.current m'.current) (K.add m.store.frames.size m'.store.frames.size) (shifted n)
    (m.enter m.current ∅) (m'.enter m'.current ∅) := by
  have hstands := h.mates.stands_enter (μ := shifted n) h.stands ∅
  unfold Manner.inner at hstands
  rwa [deeper_eq] at hstands

end Stage

section Rounds

variable (ℓ : VarLoop)

theorem coincide_iteration {x : Token} {body : Stmt} (h : Begins S k v v' x.lexeme K m m') (hwired : Wired S.left id k)
    (hbody : body.Aligned S ⟨n, displaced k, True⟩) (hgives : body.gives = []) :
    Coincide (atHead (Again S x.lexeme v v' K m m') (Led S nobody K m m')) (Led S nobody K m m')
      (exec · (iteration id x body)) m (exec · (body.shift n)) m' :=
  coincide_of_ahead (steadfast_exec _) (steadfast_exec _) 5 3 fun j => alike_iteration h hwired hbody hgives j

theorem Again.trans {x : String} (h : Leads S (pair v v') K K' m m' t t') (ha : Again S x v v' K' t t' u u') :
    Again S x v v' K m m' u u' := by
  obtain ⟨K'', hl, hs⟩ := ha
  exact ⟨K'', h.trans hl, hs⟩

/-- What an expression leaves of the loop. -/
theorem coincide_again {e : Expr} {x : String} (h : Mates S (pair v v') K m m')
    (hs : Stands (pair v v') K (shifted n) m m') (he : e.Aligned S (shifted n)) (hx : Sole m.store.frames v x) :
    Coincide (fun _ => Again S x v v' K m m') (Led S nobody K m m') (eval · e) m (eval · (e.shift n)) m' := by
  refine Level.coincide fun j => ?_
  have hsim := (sim_evaluators S (pair v v') j).1 h hs he
  have hgrows : Grows m.store.frames ((eval j e).after m).store.frames m.current [] := (confined_eval j e m).2.grows
  exact (Alike.along hsim hgrows).weaken (fun _ _ _ ⟨⟨K', hl⟩, hg⟩ => ⟨K', hl, hx.grows hg⟩)
    fun _ _ ⟨⟨K', hl⟩, _⟩ => ⟨K', hl.forget⟩

/-- The increment of a round. -/
theorem coincide_expression {e : Expr} {x : String} {r r' : Machine} (h : Again S x v v' K r r' m m')
    (hr : Mates S (pair v v') K r r')
    (hs : Stands (pair v v') K (shifted n) r r') (he : e.Aligned S (shifted n)) :
    Coincide (atHead (Again S x v v' K r r') (Led S nobody K r r')) (Led S nobody K r r')
      (exec · (.expression e)) m (exec · (.expression (e.shift n))) m' := by
  obtain ⟨K', hl, hx⟩ := h
  have heval := coincide_again hl.mates (hl.stands hr hs) he hx
  refine Coincide.succ (steadfast_exec _) (steadfast_exec _) ?_
  refine (heval.weaken (fun _ _ _ => Again.trans hl) fun _ _ ⟨K'', hl'⟩ => ⟨K'', hl.forget.trans hl'⟩).bind
    (steadfast_eval _) (steadfast_eval _) (fun _ => steadfast_const _) (fun _ => steadfast_const _) fun _ _ _ ht => ?_
  exact coincide_pure ht

variable {ℓ}

/-- Behind the block of a round the loop goes on. -/
theorem Again.leave {x : String} {f f' : FrameId} {names : Names}
    (h : Again S x v v' (K.add m.store.frames.size m'.store.frames.size) (m.enter f names) (m'.enter f' names) t t') :
    Again S x v v' K m m' { t with current := m.current } { t' with current := m'.current } := by
  obtain ⟨K', hl, hs⟩ := h
  exact ⟨K', hl.leave (fun _ _ => .inl) fun _ _ hf => hf.imp_right fun hf => ⟨hf.1.ge, hf.2.ge⟩, hs⟩

theorem Led.leave {f f' : FrameId} {names : Names}
    (h : Led S own (K.add m.store.frames.size m'.store.frames.size) (m.enter f names) (m'.enter f' names) t t') :
    Led S own K m m' { t with current := m.current } { t' with current := m'.current } := by
  obtain ⟨K', hl⟩ := h
  exact ⟨K', hl.leave (fun _ _ => .inl) fun _ _ hf => hf.imp_right fun hf => ⟨hf.1.ge, hf.2.ge⟩⟩

/-- One round of both loops. -/
theorem coincide_round (h : Stage S ℓ.name.lexeme K m m') (hwired : Wired S.left id ℓ.inset) (ha : ℓ.Aligned S n)
    (hgives : ℓ.body.gives = []) :
    Coincide (atHead (Again S ℓ.name.lexeme m.current m'.current K m m') (Led S nobody K m m')) (Led S nobody K m m')
      (exec · (ℓ.round (iteration id ℓ.name ℓ.body))) m (exec · ((ℓ.round ℓ.body).shift n)) m' := by
  obtain ⟨-, -, hincrement, hbody⟩ := ha
  unfold VarLoop.inset at hwired hbody
  unfold VarLoop.round
  cases e : ℓ.increment with
  | none =>
    rw [e] at hwired hbody
    exact coincide_iteration h.begins hwired hbody hgives
  | some e' =>
    rw [e] at hwired hbody hincrement
    have hround := coincide_iteration h.begins_inside hwired hbody hgives
    have hboth : Coincide (atHead (Again S ℓ.name.lexeme m.current m'.current (K.add m.store.frames.size m'.store.frames.size)
        (m.enter m.current ∅) (m'.enter m'.current ∅)) (Led S nobody (K.add m.store.frames.size m'.store.frames.size)
        (m.enter m.current ∅) (m'.enter m'.current ∅))) (Led S nobody (K.add m.store.frames.size m'.store.frames.size)
        (m.enter m.current ∅) (m'.enter m'.current ∅))
        (fun j => sequence (exec j) [iteration id ℓ.name ℓ.body, .expression e']) (m.enter m.current ∅)
        (fun j => sequence (exec j) [ℓ.body.shift n, .expression (e'.shift n)]) (m'.enter m'.current ∅) := by
      refine coincide_cons hround (fun t t' ht => ?_) fun _ _ _ ht => ht
      have hincrement := coincide_expression ht h.begins_inside.mates h.stands_inside (hincrement e' rfl)
      exact coincide_cons hincrement (fun u u' hu => coincide_nil hu) fun _ _ _ ht => ht
    refine coincide_block (hboth.weaken ?_ fun _ _ => Led.leave)
    rintro (_ | _) t t' ht
    · exact Again.leave ht
    · exact Led.leave ht

/-- Both loops, from the declaration of the variable on. -/
theorem coincide_loops (h : Stage S ℓ.name.lexeme K m m') (hwired : Wired S.left id ℓ.inset) (ha : ℓ.Aligned S n)
    (hgives : ℓ.body.gives = []) :
    Coincide (fun _ => Led S nobody K m m') (Led S nobody K m m')
      (exec · (.loop ℓ.test (ℓ.round (iteration id ℓ.name ℓ.body)))) m
      (exec · ((Stmt.loop ℓ.test (ℓ.round ℓ.body)).shift n)) m' := by
  have hstage : ∀ {t t' K'}, Leads S (pair m.current m'.current) K K' m m' t t' →
      Sole t.store.frames m.current ℓ.name.lexeme →
        Stage S ℓ.name.lexeme K' t t' ∧ t.current = m.current ∧ t'.current = m'.current := fun hl hx =>
    ⟨h.leads hl hx, congrArg Context.current hl.context, congrArg Context.current hl.context'⟩
  have hhead : Again S ℓ.name.lexeme m.current m'.current K m m' m m' := ⟨K, .refl h.mates, h.sole⟩
  have htest : ∀ t t', Again S ℓ.name.lexeme m.current m'.current K m m' t t' →
      Coincide (fun _ => Again S ℓ.name.lexeme m.current m'.current K m m') (Led S nobody K m m') (eval · ℓ.test) t
        (eval · (ℓ.test.shift n)) t' := by
    rintro t t' ⟨K', hl, hx⟩
    have htest := coincide_again hl.mates (hl.stands h.mates h.stands) ha.test hx
    exact htest.weaken (fun _ _ _ => Again.trans hl) fun _ _ ⟨K'', hl'⟩ => ⟨K'', hl.forget.trans hl'⟩
  refine coincide_loop htest ?_ ?_ hhead
  · rintro t t' ⟨K', hl, hx⟩
    obtain ⟨ht, hcurrent, hcurrent'⟩ := hstage hl hx
    have hround := coincide_round ht hwired ha hgives
    rw [hcurrent, hcurrent'] at hround
    refine hround.weaken ?_ fun _ _ ⟨K'', hl'⟩ => ⟨K'', hl.forget.trans hl'⟩
    rintro (_ | _) u u' hu
    · exact Again.trans hl hu
    · obtain ⟨K'', hl'⟩ := hu
      exact ⟨K'', hl.forget.trans hl'⟩
  · rintro t t' ⟨K', hl, -⟩
    exact ⟨K', hl.forget⟩

/-- The variable is the only name in its frame. -/
theorem coincide_define {x : String} (h : Mates S (pair m.current m'.current) K m m')
    (hblank : ∀ y, ¬ m.store.frames.Has m.current y) (w : Value) :
    Coincide (fun _ => Again S x m.current m'.current K m m') (Led S nobody K m m')
      (fun _ => define x w) m (fun _ => define x w) m' := by
  have hlink : link (pair m.current m'.current) K True m.current m'.current := .inr ⟨trivial, rfl, rfl⟩
  refine Level.coincide fun _ => ⟨rfl, K, h.leads_define hlink x w, ?_⟩
  intro y
  change Has (m.store.frames.define m.current x w) m.current y ↔ _
  rw [has_define (h.frames.within _ _ hlink).1]
  simp [hblank y]

/-- The value is there before the variable is. -/
theorem coincide_var {name : Token} {initial : Option Expr} (h : Mates S (pair m.current m'.current) K m m')
    (hs : Stands (pair m.current m'.current) K (shifted n) m m')
    (hblank : ∀ y, ¬ m.store.frames.Has m.current y) (ha : (Stmt.var name initial).Aligned S (shifted n)) :
    Coincide (atHead (Again S name.lexeme m.current m'.current K m m') (Led S nobody K m m')) (Led S nobody K m m')
      (exec · (.var name initial)) m (exec · ((Stmt.var name initial).shift n)) m' := by
  have hdefine : ∀ t t' K' w, Leads S (pair m.current m'.current) K K' m m' t t' →
      (∀ y, ¬ t.store.frames.Has m.current y) →
        Coincide (atHead (Again S name.lexeme m.current m'.current K m m') (Led S nobody K m m')) (Led S nobody K m m')
          (fun _ => define name.lexeme w >>= fun _ => pure .normal) t
          (fun _ => define name.lexeme w >>= fun _ => pure .normal) t' := by
    intro t t' K' w hl ht
    have hcurrent : t.current = m.current := congrArg Context.current hl.context
    have hcurrent' : t'.current = m'.current := congrArg Context.current hl.context'
    rw [← hcurrent] at ht
    have hmates : Mates S (pair t.current t'.current) K' t t' := by
      rw [hcurrent, hcurrent']
      exact hl.mates
    have hvar := coincide_define (x := name.lexeme) hmates ht w
    rw [hcurrent, hcurrent'] at hvar
    refine (hvar.weaken (fun _ _ _ => Again.trans hl) fun _ _ ⟨K'', hl'⟩ => ⟨K'', hl.forget.trans hl'⟩).bind
      (steadfast_const _) (steadfast_const _) (fun _ => steadfast_const _) (fun _ => steadfast_const _) fun _ _ _ hu => ?_
    exact coincide_pure hu
  refine Coincide.succ (steadfast_exec _) (steadfast_exec _) ?_
  cases initial with
  | none => exact (hdefine m m' K .nil (.refl h) hblank).congr (fun _ => rfl) fun _ => rfl
  | some e =>
    have heval : Coincide (fun _ t t' => (∃ K', Leads S (pair m.current m'.current) K K' m m' t t') ∧
        ∀ y, ¬ t.store.frames.Has m.current y) (Led S nobody K m m') (eval · e) m (eval · (e.shift n)) m' := by
      refine Level.coincide fun j => ?_
      have hsim := (sim_evaluators S (pair m.current m'.current) j).1 h hs (ha.2 e rfl)
      have hgrows : Grows m.store.frames ((eval j e).after m).store.frames m.current [] := (confined_eval j e m).2.grows
      have hboth := Alike.along (P := fun t => Grows m.store.frames t.store.frames m.current []) hsim hgrows
      refine hboth.weaken (fun _ t t' ⟨hl, hg⟩ => ⟨hl, fun y hy => ?_⟩) fun _ _ ⟨⟨K', hl⟩, _⟩ => ⟨K', hl.forget⟩
      exact hblank y (((hg.has _ hs.within y).mp hy).resolve_right (by simp))
    exact heval.bind (steadfast_eval _) (steadfast_eval _) (fun _ => steadfast_const _) (fun _ => steadfast_const _)
      fun w t t' ⟨⟨K', hl⟩, ht⟩ => hdefine t t' K' w hl ht

end Rounds

/-- In new frames that are those of the loop. -/
theorem Mates.enter_loop (h : Mates S nobody K m m') {f f' : FrameId} (hf : f < m.store.frames.size)
    (hf' : f' < m'.store.frames.size) :
    Mates S (pair m.store.frames.size m'.store.frames.size) K (m.enter f ∅) (m'.enter f' ∅) where
  left := h.left
  right := h.right
  output := h.output
  depth := h.depth
  globals := h.globals
  root := (h.enter hf hf' ∅).root
  root' := (h.enter hf hf' ∅).root'
  frames := by
    have hadd := h.frames.add hf hf' ∅
    have hlink : ∀ {g g'}, link (pair m.store.frames.size m'.store.frames.size) K True g g' →
        link nobody (K.add m.store.frames.size m'.store.frames.size) True g g' := fun hg => .inl (link_true.mp hg)
    refine ⟨hadd.closed, hadd.closed', fun g g' hg => hadd.within g g' (hlink hg), fun g g' hg => hadd.names g g' (hlink hg),
      fun g g' k k' hg hk => hadd.unique g g' k k' (hlink hg) (hlink hk), ?_⟩
    rintro g g' hg ⟨rfl, rfl⟩
    exact (h.frames.within _ _ (.inl hg)).1.ne rfl
  heap := by
    have hhomed : ∀ k home', Homed S K m.store.frames m'.store.frames k home' →
        Homed S K (m.store.frames.add (some f) ∅) (m'.store.frames.add (some f') ∅) k home' := fun k home' hk =>
      hk.later h.frames.closed h.frames.closed' (later_add ..) (later_add ..) fun _ _ => id
    exact h.heap.mono hhomed hhomed

section Entered

variable (h : Mates S nobody K m m') (hs : Faces K m.store.frames m'.store.frames Eq m.current m'.current)

include h hs

/-- In the new frames of the loop both programs stand opposite to each other. -/
theorem stands_entered : Stands (pair m.store.frames.size m'.store.frames.size) K (shifted n) (m.enter m.current ∅)
    (m'.enter m'.current ∅) := by
  refine ⟨(size_add ..).symm ▸ Nat.lt_succ_self _, (size_add ..).symm ▸ Nat.lt_succ_self _, ?_⟩
  rintro (_ | d) _ rfl
  · exact .some (.inr ⟨trivial, rfl, rfl⟩)
  · have hleft := ancestor?_add_succ h.frames.closed hs.within ∅ d
    have hright := ancestor?_add_succ h.frames.closed' hs.within' ∅ d
    change Option.Rel _ ((m.store.frames.add (some m.current) ∅).ancestor? m.store.frames.size (d + 1))
      ((m'.store.frames.add (some m'.current) ∅).ancestor? m'.store.frames.size (d + 1))
    rw [hleft, hright]
    exact rel_imp (hs.ancestors d d rfl) fun _ _ => .inl

/-- Once the variable of the loop is there, the loop can begin. -/
theorem stage_declared {x : String} (hdeclared : Again S x (m.enter m.current ∅).current (m'.enter m'.current ∅).current K
    (m.enter m.current ∅) (m'.enter m'.current ∅) t t') : ∃ K',
      Leads S (pair (m.enter m.current ∅).current (m'.enter m'.current ∅).current) K K' (m.enter m.current ∅)
        (m'.enter m'.current ∅) t t' ∧ Stage S x K' t t' := by
  obtain ⟨K', hl, hx⟩ := hdeclared
  have henter := h.enter_loop hs.within hs.within'
  have hstands := stands_entered (n := 0) h hs
  have hlater : Faces K (m.enter m.current ∅).store.frames (m'.enter m'.current ∅).store.frames Eq m.current m'.current :=
    hs.later h.frames.closed h.frames.closed' (later_add ..) (later_add ..)
  have hcurrent : t.current = m.store.frames.size := congrArg Context.current hl.context
  have hcurrent' : t'.current = m'.store.frames.size := congrArg Context.current hl.context'
  refine ⟨K', hl, ?_, ?_, m.current, m'.current, ?_, ?_, ?_⟩
  · rw [hcurrent, hcurrent']
    exact hl.mates
  · rw [hcurrent]
    exact hx
  · rw [hcurrent]
    exact (hl.later.outer _ hstands.within).trans ((outer?_add ..).trans (if_pos rfl))
  · rw [hcurrent']
    exact (hl.later'.outer _ hstands.within').trans ((outer?_add ..).trans (if_pos rfl))
  · exact (hlater.later henter.frames.closed henter.frames.closed' hl.later hl.later').mono hl.grows

end Entered

/-- From machines that are alike, both lowerings of a loop end alike. -/
theorem coincide_lowerings {ℓ : VarLoop} (h : Mates S nobody K m m')
    (hs : Faces K m.store.frames m'.store.frames Eq m.current m'.current)
    (hwired : Wired S.left id ℓ.inset) (ha : ℓ.Aligned S n) (hgives : ℓ.body.gives = []) :
    Coincide (fun _ => Led S nobody K m m') (Led S nobody K m m') (exec · (ℓ.copying id)) m
      (exec · (ℓ.plain.shift n)) m' := by
  have henter : Mates S (pair (m.enter m.current ∅).current (m'.enter m'.current ∅).current) K (m.enter m.current ∅)
      (m'.enter m'.current ∅) := h.enter_loop hs.within hs.within'
  have hblank : ∀ y, ¬ (m.enter m.current ∅).store.frames.Has m.store.frames.size y := by
    intro y hy
    exact absurd ((has_add_self _ _ _ _).mp hy) (by simp)
  have hvar := coincide_var henter (stands_entered h hs) hblank ha.declaration
  have hboth : Coincide (fun _ => Led S nobody K (m.enter m.current ∅) (m'.enter m'.current ∅))
      (Led S nobody K (m.enter m.current ∅) (m'.enter m'.current ∅))
      (fun j => sequence (exec j) [.var ℓ.name ℓ.initial, .loop ℓ.test (ℓ.round (iteration id ℓ.name ℓ.body))])
      (m.enter m.current ∅)
      (fun j => sequence (exec j) [(Stmt.var ℓ.name ℓ.initial).shift n, (Stmt.loop ℓ.test (ℓ.round ℓ.body)).shift n])
      (m'.enter m'.current ∅) := by
    refine coincide_cons hvar (fun t t' hdeclared => ?_) fun _ _ _ ht => ht
    obtain ⟨K', hl, hstage⟩ := stage_declared h hs hdeclared
    have hloops := coincide_loops hstage hwired ha hgives
    refine coincide_cons (hloops.weaken ?_ fun _ _ ⟨K'', hl'⟩ => ⟨K'', hl.forget.trans hl'⟩)
      (fun u u' hu => coincide_nil hu) fun _ _ _ hu => hu
    rintro (_ | _) u u' ⟨K'', hl'⟩
    · exact ⟨K'', hl.forget.trans hl'⟩
    · exact ⟨K'', hl.forget.trans hl'⟩
  have hleave : ∀ t t', Led S nobody K (m.enter m.current ∅) (m'.enter m'.current ∅) t t' →
      Led S nobody K m m' { t with current := m.current } { t' with current := m'.current } :=
    fun _ _ ⟨K', hl⟩ => ⟨K', hl.leave (fun _ _ hf => hf) fun _ _ => .inl⟩
  exact coincide_block (hboth.weaken (fun _ => hleave) hleave)

end LoxLang.Counting
