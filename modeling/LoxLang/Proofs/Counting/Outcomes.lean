import LoxLang.Proofs.Bounds

/-! Two pieces of code that need different bounds: they coincide on two machines if, however one of them ends within
some bound, the other ends alike within some bound. -/

namespace LoxLang.Counting

open Run

/-- Relations between two machines. -/
abbrev Between := Machine → Machine → Prop

/-- The same value or the same halt, on related machines. -/
def Alike {α : Type} (after : α → Between) (halted : Between) :
    EStateM.Result Halt Machine α → EStateM.Result Halt Machine α → Prop
  | .ok a t, .ok b t' => b = a ∧ after a t t'
  | .error k t, .error k' t' => k' = k ∧ halted t t'
  | _, _ => False

/-- However the first run ends, so does the second. -/
def Tracks {α : Type} (after : α → Between) (halted : Between) (run : Nat → Run α) (m : Machine) (run' : Nat → Run α)
    (m' : Machine) : Prop :=
  ∀ r, Ends run m r → ∃ r', Ends run' m' r' ∧ Alike after halted r r'

/-- Each of two runs ends as the other does. -/
structure Coincide {α : Type} (after : α → Between) (halted : Between) (run : Nat → Run α) (m : Machine)
    (run' : Nat → Run α) (m' : Machine) : Prop where
  there : Tracks after halted run m run' m'
  back : Tracks (fun a t t' => after a t' t) (fun t t' => halted t' t) run' m' run m

variable {α β : Type} {after after' : α → Between} {then_ : β → Between} {halted : Between} {m m' : Machine}
  {run run' : Nat → Run α} {next next' : Nat → α → Run β}

/-- At the same bound both runs end alike, or neither does. -/
def Level (after : α → Between) (halted : Between) (run : Nat → Run α) (m : Machine) (run' : Nat → Run α)
    (m' : Machine) : Prop := ∀ n, Alike after halted (run n m) (run' n m')

theorem Alike.swap {r r' : EStateM.Result Halt Machine α} (h : Alike after halted r r') :
    Alike (fun a t t' => after a t' t) (fun t t' => halted t' t) r' r := by
  cases r <;> cases r'
  · obtain ⟨rfl, h⟩ := h
    exact ⟨rfl, h⟩
  · exact h
  · exact h
  · obtain ⟨rfl, h⟩ := h
    exact ⟨rfl, h⟩

theorem Alike.weaken {halted' : Between} {r r' : EStateM.Result Halt Machine α} (h : Alike after halted r r')
    (ha : ∀ a t t', after a t t' → after' a t t') (hh : ∀ t t', halted t t' → halted' t t') :
    Alike after' halted' r r' := by
  cases r <;> cases r'
  · exact ⟨h.1, ha _ _ _ h.2⟩
  · exact h
  · exact h
  · exact ⟨h.1, hh _ _ h.2⟩

/-- A run alike one that did not exhaust its bound did not exhaust its own. -/
theorem Alike.ends {r r' : EStateM.Result Halt Machine α} (h : Alike after halted r r')
    (hr : ∀ t, r ≠ .error .exhausted t) (t : Machine) : r' ≠ .error .exhausted t := by
  rintro rfl
  cases r with
  | ok => exact h
  | error k t' =>
    obtain ⟨rfl, -⟩ := h
    exact hr t' rfl

theorem tracks_of_level (h : Level after halted run m run' m') : Tracks after halted run m run' m' := by
  rintro r ⟨⟨n, rfl⟩, hr⟩
  exact ⟨run' n m', ⟨⟨n, rfl⟩, (h n).ends hr⟩, h n⟩

theorem Level.coincide (h : Level after halted run m run' m') : Coincide after halted run m run' m' :=
  ⟨tracks_of_level h, tracks_of_level fun n => (h n).swap⟩

theorem Tracks.weaken {halted' : Between} (h : Tracks after halted run m run' m')
    (ha : ∀ a t t', after a t t' → after' a t t') (hh : ∀ t t', halted t t' → halted' t t') :
    Tracks after' halted' run m run' m' := by
  intro r hr
  obtain ⟨r', hr', halike⟩ := h r hr
  exact ⟨r', hr', halike.weaken ha hh⟩

theorem Coincide.weaken {halted' : Between} (h : Coincide after halted run m run' m')
    (ha : ∀ a t t', after a t t' → after' a t t') (hh : ∀ t t', halted t t' → halted' t t') :
    Coincide after' halted' run m run' m' :=
  ⟨h.there.weaken ha hh, h.back.weaken (fun a t t' => ha a t' t) fun t t' => hh t' t⟩

theorem tracks_pure {a : α} (h : after a m m') : Tracks after halted (fun _ => pure a) m (fun _ => pure a) m' :=
  tracks_of_level fun _ => ⟨rfl, h⟩

theorem coincide_pure {a : α} (h : after a m m') :
    Coincide after halted (fun _ => pure a) m (fun _ => pure a) m' := ⟨tracks_pure h, tracks_pure h⟩

theorem Tracks.bind (h : Tracks after halted run m run' m') (hrun : Steadfast run')
    (hnext : ∀ a, Steadfast (next' · a))
    (hn : ∀ a t t', after a t t' → Tracks then_ halted (next · a) t (next' · a) t') :
    Tracks then_ halted (fun n => run n >>= next n) m (fun n => run' n >>= next' n) m' := by
  intro r hr
  rcases ends_bind hr with ⟨k, t, rfl, hfirst⟩ | ⟨a, t, hfirst, hsecond⟩
  · obtain ⟨r', hfirst', halike⟩ := h _ hfirst
    cases r' with
    | ok b t' => cases halike
    | error k' t' => exact ⟨.error k' t', hfirst'.bind_error hrun, halike⟩
  · obtain ⟨r', hfirst', halike⟩ := h _ hfirst
    cases r' with
    | error k' t' => cases halike
    | ok b t' =>
      obtain ⟨rfl, hafter⟩ := halike
      obtain ⟨r', hsecond', halike⟩ := hn _ t t' hafter r hsecond
      exact ⟨r', hfirst'.bind_ok hrun hnext hsecond', halike⟩

theorem Coincide.bind (h : Coincide after halted run m run' m') (hrun : Steadfast run) (hrun' : Steadfast run')
    (hnext : ∀ a, Steadfast (next · a)) (hnext' : ∀ a, Steadfast (next' · a))
    (hn : ∀ a t t', after a t t' → Coincide then_ halted (next · a) t (next' · a) t') :
    Coincide then_ halted (fun n => run n >>= next n) m (fun n => run' n >>= next' n) m' where
  there := h.there.bind hrun' hnext' fun a t t' ha => (hn a t t' ha).there
  back := h.back.bind hrun hnext fun a t t' ha => (hn a t' t ha).back

theorem ends_congr {run₁ : Nat → Run α} (h : ∀ n, run n m = run₁ n m) {r : EStateM.Result Halt Machine α} :
    Ends run m r ↔ Ends run₁ m r := by
  unfold Ends
  simp only [h]

theorem Coincide.congr {run₁ run₁' : Nat → Run α} (h : Coincide after halted run m run' m')
    (he : ∀ n, run₁ n m = run n m) (he' : ∀ n, run₁' n m' = run' n m') :
    Coincide after halted run₁ m run₁' m' := by
  constructor
  · intro r hr
    obtain ⟨r', hr', halike⟩ := h.there r ((ends_congr he).mp hr)
    exact ⟨r', (ends_congr he').mpr hr', halike⟩
  · intro r hr
    obtain ⟨r', hr', halike⟩ := h.back r ((ends_congr he').mp hr)
    exact ⟨r', (ends_congr he).mpr hr', halike⟩

/-- What is known of the first run by itself. -/
theorem Alike.along {P : Machine → Prop} {run : Run α} {r' : EStateM.Result Halt Machine α}
    (h : Alike after halted (run m) r') (hP : P (run.after m)) :
    Alike (fun a t t' => after a t t' ∧ P t) (fun t t' => halted t t' ∧ P t) (run m) r' := by
  unfold Halting.after at hP
  cases e : run m with
  | ok a t =>
    rw [e] at h hP
    cases r' with
    | ok b t' => exact ⟨h.1, h.2, hP⟩
    | error => cases h
  | error k t =>
    rw [e] at h hP
    cases r' with
    | ok => cases h
    | error k' t' => exact ⟨h.1, h.2, hP⟩

/-- Runs that are alike but need different bounds. -/
theorem coincide_of_ahead (hrun : Steadfast run) (hrun' : Steadfast run') (j j' : Nat)
    (h : ∀ n, Alike after halted (run (n + j) m) (run' (n + j') m')) : Coincide after halted run m run' m' := by
  have hlevel : Level after halted (fun n => run (n + j)) m (fun n => run' (n + j')) m' := h
  constructor
  · intro r hr
    obtain ⟨r', hr', halike⟩ := hlevel.coincide.there r ((hrun.ends_add j).mpr hr)
    exact ⟨r', (hrun'.ends_add j').mp hr', halike⟩
  · intro r hr
    obtain ⟨r', hr', halike⟩ := hlevel.coincide.back r ((hrun'.ends_add j').mpr hr)
    exact ⟨r', (hrun.ends_add j).mp hr', halike⟩

/-- The first bound counts for nothing. -/
theorem Coincide.succ (hrun : Steadfast run) (hrun' : Steadfast run')
    (h : Coincide after halted (fun n => run (n + 1)) m (fun n => run' (n + 1)) m') :
    Coincide after halted run m run' m' := by
  constructor
  · intro r hr
    obtain ⟨r', hr', halike⟩ := h.there r (hrun.ends_succ.mpr hr)
    exact ⟨r', hrun'.ends_succ.mp hr', halike⟩
  · intro r hr
    obtain ⟨r', hr', halike⟩ := h.back r (hrun'.ends_succ.mpr hr)
    exact ⟨r', hrun.ends_succ.mp hr', halike⟩

section Frames

/-- The result of a run, back in another frame. -/
def returning (f : FrameId) : EStateM.Result Halt Machine α → EStateM.Result Halt Machine α
  | .ok a t => .ok a { t with current := f }
  | .error k t => .error k { t with current := f }

theorem inNewFrame_eq (run : Stmt → Run Completion) (outer : FrameId) (names : Names) (body : List Stmt)
    (m : Machine) : inNewFrame run outer names body m = returning m.current (sequence run body (m.enter outer names)) := by
  rw [inNewFrame_apply]
  cases sequence run body (m.enter outer names) <;> rfl

theorem Alike.returning {f f' : FrameId} {r r' : EStateM.Result Halt Machine α}
    (h : Alike (fun a t t' => after a { t with current := f } { t' with current := f' })
      (fun t t' => halted { t with current := f } { t' with current := f' }) r r') :
    Alike after halted (returning f r) (returning f' r') := by
  cases r <;> cases r' <;> exact h

theorem returning_ne {f : FrameId} {r : EStateM.Result Halt Machine α} :
    (∀ t, returning f r ≠ .error .exhausted t) ↔ ∀ t, r ≠ .error .exhausted t := by
  cases r with
  | ok => simp [returning]
  | error k t =>
    simp only [returning, ne_eq, EStateM.Result.error.injEq, not_and]
    exact ⟨fun h t hk => absurd rfl (h _ hk), fun h t' hk => absurd rfl (h _ hk)⟩

theorem ends_inNewFrame {outer : FrameId} {names : Names} {body : List Stmt}
    {r : EStateM.Result Halt Machine Completion} :
    Ends (fun n => inNewFrame (exec n) outer names body) m r ↔
      ∃ r', Ends (fun n => sequence (exec n) body) (m.enter outer names) r' ∧ r = returning m.current r' := by
  constructor
  · rintro ⟨⟨n, e⟩, hr⟩
    obtain rfl := (inNewFrame_eq (exec n) outer names body m).symm.trans e
    exact ⟨_, ⟨⟨n, rfl⟩, returning_ne.mp hr⟩, rfl⟩
  · rintro ⟨r', ⟨⟨n, rfl⟩, hr⟩, rfl⟩
    exact ⟨⟨n, inNewFrame_eq ..⟩, returning_ne.mpr hr⟩

variable {after : Completion → Between} {outer outer' : FrameId} {names names' : Names} {body body' : List Stmt}

theorem tracks_inNewFrame (h : Tracks (fun a t t' => after a { t with current := m.current }
      { t' with current := m'.current }) (fun t t' => halted { t with current := m.current }
      { t' with current := m'.current })
      (fun n => sequence (exec n) body) (m.enter outer names) (fun n => sequence (exec n) body') (m'.enter outer' names')) :
    Tracks after halted (fun n => inNewFrame (exec n) outer names body) m
      (fun n => inNewFrame (exec n) outer' names' body') m' := by
  intro r hr
  obtain ⟨inner, hinner, rfl⟩ := ends_inNewFrame.mp hr
  obtain ⟨inner', hinner', halike⟩ := h inner hinner
  exact ⟨_, ends_inNewFrame.mpr ⟨inner', hinner', rfl⟩, halike.returning⟩

/-- Runs in new frames coincide if they do inside those frames. -/
theorem coincide_inNewFrame (h : Coincide (fun a t t' => after a { t with current := m.current }
      { t' with current := m'.current }) (fun t t' => halted { t with current := m.current }
      { t' with current := m'.current })
      (fun n => sequence (exec n) body) (m.enter outer names) (fun n => sequence (exec n) body') (m'.enter outer' names')) :
    Coincide after halted (fun n => inNewFrame (exec n) outer names body) m
      (fun n => inNewFrame (exec n) outer' names' body') m' :=
  ⟨tracks_inNewFrame h.there, tracks_inNewFrame h.back⟩

end Frames

section Loops

variable {head middle out : Between} {condition condition' : Expr} {body body' : Stmt}

/-- What holds after the body of a loop: at its head again, or behind it. -/
def atHead (head out : Between) : Completion → Between
  | .normal => head
  | .returned _ => out

/-- The rest of a round once the condition has a value. -/
def round (body again : Run Completion) (v : Value) : Run Completion := do
  if v.truthy then
    match ← body with
    | .normal => again
    | .returned v => return .returned v
  else return .normal

theorem steadfast_leave {again : Nat → Run Completion} (h : Steadfast again) (completion : Completion) :
    Steadfast fun n => (match completion with
      | .normal => again n
      | .returned v => return .returned v) := by
  cases completion with
  | normal => exact h
  | returned v => exact steadfast_const _

theorem steadfast_round {body again : Nat → Run Completion} (hb : Steadfast body) (ha : Steadfast again) (v : Value) :
    Steadfast fun n => round (body n) (again n) v := by
  unfold round
  split
  · exact hb.bind fun completion => steadfast_leave ha completion
  · exact steadfast_const _

/-- By induction on the bound of the first loop: each of its rounds is one of the second. -/
theorem tracks_loop
    (hcondition : ∀ m m', head m m' → Tracks (fun _ => middle) halted (eval · condition) m (eval · condition') m')
    (hbody : ∀ m m', middle m m' → Tracks (atHead head out) halted (exec · body) m (exec · body') m')
    (hout : ∀ m m', middle m m' → out m m') (h : head m m') :
    Tracks (fun _ => out) halted (exec · (.loop condition body)) m (exec · (.loop condition' body')) m' := by
  suffices hbound : ∀ n m m', head m m' → Tracks (fun _ => out) halted (fun _ => exec n (.loop condition body)) m
      (exec · (.loop condition' body')) m' by
    rintro r ⟨⟨n, e⟩, hr⟩
    exact hbound n m m' h r ⟨⟨n, e⟩, hr⟩
  intro n
  induction n with
  | zero =>
    rintro m m' - r ⟨⟨_, rfl⟩, hr⟩
    exact absurd rfl (hr m)
  | succ n ih =>
    intro m m' hm
    have hloop := steadfast_exec (.loop condition' body')
    have hround : Tracks (fun _ => out) halted
        (fun k => eval k condition >>= round (exec k body) (exec n (.loop condition body))) m
        (fun k => eval k condition' >>= round (exec k body') (exec k (.loop condition' body'))) m' := by
      refine (hcondition m m' hm).bind (steadfast_eval _) (steadfast_round (steadfast_exec _) hloop) fun v t t' ht => ?_
      unfold round
      split
      · refine (hbody t t' ht).bind (steadfast_exec _) (steadfast_leave hloop) fun completion t t' ht => ?_
        cases completion with
        | normal => exact ih t t' ht
        | returned v => exact tracks_pure (show out t t' from ht)
      · exact tracks_pure (hout t t' ht)
    rintro r ⟨⟨_, e⟩, hr⟩
    obtain ⟨r', hr', halike⟩ := hround r ⟨⟨n, e⟩, hr⟩
    exact ⟨r', hloop.ends_succ.mp hr', halike⟩

theorem coincide_loop
    (hcondition : ∀ m m', head m m' → Coincide (fun _ => middle) halted (eval · condition) m (eval · condition') m')
    (hbody : ∀ m m', middle m m' → Coincide (atHead head out) halted (exec · body) m (exec · body') m')
    (hout : ∀ m m', middle m m' → out m m') (h : head m m') :
    Coincide (fun _ => out) halted (exec · (.loop condition body)) m (exec · (.loop condition' body')) m' where
  there := tracks_loop (fun m m' hm => (hcondition m m' hm).there) (fun m m' hm => (hbody m m' hm).there) hout h
  back := by
    have hcondition' : ∀ m' m, head m m' →
        Tracks (fun _ t' t => middle t t') (fun t' t => halted t t') (eval · condition') m' (eval · condition) m :=
      fun m' m hm => (hcondition m m' hm).back
    refine tracks_loop hcondition' (fun m' m hm => ?_) (fun m' m => hout m m') h
    refine (hbody m m' hm).back.weaken (fun completion t t' ht => ?_) fun _ _ ht => ht
    cases completion with
    | normal => exact ht
    | returned v => exact ht

end Loops

end LoxLang.Counting
