import LoxLang.Proofs.Captures.Sessions
import LoxLang.Proofs.Counting.Replacement

/-! The run of a counting loop that copies its variable: where its rounds begin, where the body runs in them, and what
the loop runs behind each. The variable has a frame that is there from the first round to the last. -/

namespace LoxLang

open Frames Run Grammar Counting Moment

namespace VarLoop

variable (ℓ : VarLoop) (id : NodeId)

/-- What comes behind the declaration of the variable. -/
def cycle : Stmt := .loop ℓ.test (ℓ.round (iteration id ℓ.name ℓ.body))

/-- A round goes on to the next. -/
inductive Advances : Moment → Moment → Prop
  | mk {n : Nat} {v : Value} {m m' m'' : Machine} : eval n ℓ.test m = .ok v m' → v.truthy = true →
    exec n (ℓ.round (iteration id ℓ.name ℓ.body)) m' = .ok .normal m'' →
      Advances ⟨n + 1, .stmt (ℓ.cycle id), m⟩ ⟨n, .stmt (ℓ.cycle id), m''⟩

/-- Where a round of the loop begins. -/
inductive Heads : Moment → Moment → Prop
  | first {n : Nat} {m m' : Machine} : exec n (.var ℓ.name ℓ.initial) (m.enter m.current ∅) = .ok .normal m' →
    Heads ⟨n + 1, .stmt (ℓ.copying id), m⟩ ⟨n, .stmt (ℓ.cycle id), m'⟩
  | again {k h h' : Moment} : Heads k h → ℓ.Advances id h h' → Heads k h'

/-- What a round runs if the condition holds. -/
inductive Iterates : Moment → Moment → Prop
  | bare {n : Nat} {v : Value} {m m' : Machine} : ℓ.increment = none → eval n ℓ.test m = .ok v m' → v.truthy = true →
    Iterates ⟨n + 1, .stmt (ℓ.cycle id), m⟩ ⟨n, .stmt (iteration id ℓ.name ℓ.body), m'⟩
  | inside {n : Nat} {v : Value} {e : Expr} {m m' : Machine} : ℓ.increment = some e → eval (n + 1) ℓ.test m = .ok v m' →
    v.truthy = true →
      Iterates ⟨n + 2, .stmt (ℓ.cycle id), m⟩ ⟨n, .stmt (iteration id ℓ.name ℓ.body), m'.enter m'.current ∅⟩

/-- Where the body begins. -/
inductive Bodies : Moment → Moment → Prop
  | mk {n : Nat} {m m₁ m₂ : Machine} : exec (n + 1) (.var (carrier ℓ.name) none) (m.enter m.current ∅) = .ok .normal m₁ →
    exec n (.var ℓ.name (some (.read id ℓ.name))) (m₁.enter m₁.current ∅) = .ok .normal m₂ →
      Bodies ⟨n + 2, .stmt (iteration id ℓ.name ℓ.body), m⟩ ⟨n, .stmt ℓ.body, m₂⟩

/-- What the loop runs behind an iteration, but for what is inside calls: the increment, and all rounds to come. -/
inductive Follows (h i : Moment) : Moment → Prop
  | increment {e : Expr} {t : Machine} : ℓ.increment = some e →
    exec i.bound (iteration id ℓ.name ℓ.body) i.machine = .ok .normal t → Follows h i ⟨i.bound, .stmt (.expression e), t⟩
  | rounds {h' q : Moment} : ℓ.Advances id h h' → h'.Active [] q → Follows h i q

variable {ℓ id} {c : Chart} {l : Layout} {k h h' i b q : Moment} {hops : Nat} {v : FrameId}

/-- The program stands in a frame with this one name. -/
theorem sole_of_at {m : Machine} {x : String} (h : m.At ([x] :: l)) : Sole m.store.frames m.current x := by
  intro y
  rw [← List.mem_singleton]
  exact ⟨h.exact [x] rfl y, h.linked.has⟩

theorem Advances.starts (h₁ : ℓ.Advances id h h') : h.Starts h' := by
  obtain ⟨heval, htrue, hexec⟩ := h₁
  exact .again heval htrue hexec

theorem Heads.visits (hh : ℓ.Heads id k h) : k.Visits h := by
  induction hh with
  | first hexec => exact .head .block (.head (.rest hexec) (.single .statement))
  | again _ hnext ih => exact ih.tail hnext.starts

theorem Advances.stands (hnext : ℓ.Advances id h h') (hh : h.Fits c ([ℓ.name.lexeme] :: l)) :
    h'.Fits c ([ℓ.name.lexeme] :: l) ∧ h'.machine.current = h.machine.current := by
  obtain ⟨heval, -, hexec⟩ := hnext
  exact ⟨hh.again heval hexec, (current_of_ok (steady_exec _ _) hexec).trans (current_of_ok (steady_eval _ _) heval)⟩

/-- All rounds begin in the frame of the variable, which the loop makes. -/
theorem Heads.stands (hh : ℓ.Heads id k h) (hk : k.Fits c l) :
    h.Fits c ([ℓ.name.lexeme] :: l) ∧ h.machine.current = k.machine.store.frames.size := by
  induction hh with
  | first hexec => exact ⟨(hk.block.rest hexec).statement, current_of_ok (steady_exec _ _) hexec⟩
  | again _ hnext ih =>
    obtain ⟨hfits, hcurrent⟩ := ih hk
    obtain ⟨hfits', hcurrent'⟩ := hnext.stands hfits
    exact ⟨hfits', hcurrent'.trans hcurrent⟩

theorem round_of_none {inner : Stmt} (h : ℓ.increment = none) : ℓ.round inner = inner := by rw [round, h]

theorem round_of_some {inner : Stmt} {e : Expr} (h : ℓ.increment = some e) :
    ℓ.round inner = .block [inner, .expression e] := by rw [round, h]

section Rounds

variable {n : Nat} {w : Value} {m m' : Machine} (heval : eval n ℓ.test m = .ok w m') (htrue : w.truthy = true)

include heval

theorem mem_of_advances (hnext : ℓ.Advances id ⟨n + 1, .stmt (ℓ.cycle id), m⟩ h') :
    h' ∈ (exec n (ℓ.round (iteration id ℓ.name ℓ.body))).upon m' fun c t => goingOn ⟨n, .stmt (ℓ.cycle id), t⟩ c := by
  obtain ⟨heval', -, hexec⟩ := hnext
  cases heval.symm.trans heval'
  exact Halting.mem_upon.mpr ⟨_, _, hexec, mem_goingOn.mpr ⟨rfl, rfl⟩⟩

include htrue

theorem parts_round : parts ⟨n + 1, .stmt (ℓ.cycle id), m⟩ =
    [⟨n, .expr none ℓ.test, m⟩, ⟨n, .stmt (ℓ.round (iteration id ℓ.name ℓ.body)), m'⟩] ++
      (exec n (ℓ.round (iteration id ℓ.name ℓ.body))).upon m' fun c t => goingOn ⟨n, .stmt (ℓ.cycle id), t⟩ c := by
  change partsOf n m (.loop ℓ.test _) = _
  rw [partsOf, Halting.upon_of_ok heval, if_pos htrue]
  rfl

theorem starts_round : Starts ⟨n + 1, .stmt (ℓ.cycle id), m⟩ ⟨n, .stmt (ℓ.round (iteration id ℓ.name ℓ.body)), m'⟩ :=
  .chosen rfl heval (if_pos htrue)

/-- The second part of a round begins in the frame of the variable. -/
theorem stands_round (hh : Fits c ⟨n + 1, .stmt (ℓ.cycle id), m⟩ ([ℓ.name.lexeme] :: l)) :
    Fits c ⟨n, .stmt (ℓ.round (iteration id ℓ.name ℓ.body)), m'⟩ ([ℓ.name.lexeme] :: l) ∧
      m'.current = m.current ∧ Sole m'.store.frames m.current ℓ.name.lexeme := by
  have hfits := hh.chosen rfl heval (if_pos htrue)
  have hcurrent : m'.current = m.current := current_of_ok (steady_eval _ _) heval
  have hsole := sole_of_at hfits.stands
  rw [hcurrent] at hsole
  exact ⟨hfits, hcurrent, hsole⟩

end Rounds

/-- The next round is a part of its own behind the one in which the body runs. -/
theorem Iterates.parts (hi : ℓ.Iterates id h i) :
    ∃ p r back, h.parts = [p, r] ++ back ∧ r.Visits i ∧ ∀ h', ℓ.Advances id h h' → h' ∈ back := by
  cases hi with
  | bare hnone heval htrue =>
    refine ⟨_, _, _, parts_round heval htrue, ?_, fun _ => mem_of_advances heval⟩
    rw [round_of_none hnone]
  | inside hsome heval htrue =>
    refine ⟨_, _, _, parts_round heval htrue, ?_, fun _ => mem_of_advances heval⟩
    rw [round_of_some hsome]
    exact .head .block (.single .statement)

theorem Iterates.visits (hi : ℓ.Iterates id h i) : h.Visits i := by
  obtain ⟨p, r, back, hparts, hvisits, -⟩ := hi.parts
  exact hvisits.head (mem_parts_iff.mp (by simp [hparts]))

theorem Iterates.stands (hi : ℓ.Iterates id h i) (hh : h.Fits c ([ℓ.name.lexeme] :: l)) :
    i.Fits c (ℓ.around l) ∧ i.machine.store.frames.ancestor? i.machine.current ℓ.inset = some h.machine.current ∧
      Sole i.machine.store.frames h.machine.current ℓ.name.lexeme := by
  cases hi with
  | bare hnone heval htrue =>
    obtain ⟨hround, hcurrent, hsole⟩ := stands_round heval htrue hh
    rw [round_of_none hnone] at hround
    rw [around, inset, hnone]
    exact ⟨hround, congrArg some hcurrent, hsole⟩
  | @inside n w e m m' hsome heval htrue =>
    obtain ⟨hround, hcurrent, hsole⟩ := stands_round heval htrue hh
    rw [round_of_some hsome] at hround
    rw [around, inset, hsome]
    refine ⟨hround.block.statement, ?_, hsole.grows (grows_add _ _ _ m'.current)⟩
    exact (ancestor?_add_succ hround.closed hround.within ∅ 0).trans (congrArg some hcurrent)

/-- Where an iteration begins, the distances to the variable are right. -/
theorem Iterates.poised (hi : ℓ.Iterates id h i) (hh : h.Fits c ([ℓ.name.lexeme] :: l)) (hbody : ℓ.body.declares = []) :
    Poised i.machine id ℓ.name.lexeme ℓ.inset h.machine.current := by
  obtain ⟨hfits, hholder, hsole⟩ := hi.stands hh
  refine ⟨?_, hfits.closed, hfits.within, hholder, hsole⟩
  rw [← hfits.sound.bindings]
  have hcode : (iteration id ℓ.name ℓ.body).Fits c (ℓ.around l) := by
    have hfits' := hfits.code
    cases hi <;> exact hfits'
  refine wired_of_fits hcode ?_ hbody
  rw [ℓ.hops_around, if_pos rfl]

/-- An iteration comes to the body, if the bound is not too small. -/
theorem Iterates.exists_body (hi : ℓ.Iterates id h i) (hpoised : Poised i.machine id ℓ.name.lexeme hops v)
    (hbound : 4 ≤ i.bound) : ∃ b, ℓ.Bodies id i b := by
  obtain ⟨w, hw⟩ := Option.isSome_iff_exists.mp ((hpoised.sole ℓ.name.lexeme).mpr rfl)
  have hcode : i = ⟨i.bound, .stmt (iteration id ℓ.name ℓ.body), i.machine⟩ := by cases hi <;> rfl
  obtain ⟨n, hn⟩ := Nat.exists_eq_add_of_le' hbound
  rw [hcode, hn]
  exact ⟨_, .mk (exec_var_none _) (exec_var_read (hpoised.found hw))⟩

/-- The body begins inside the frame of a copy that has the value of the variable. -/
theorem Bodies.opened (hb : ℓ.Bodies id i b) (hi : Poised i.machine id ℓ.name.lexeme hops v) :
    ∃ n w, i = ⟨n + 4, .stmt (iteration id ℓ.name ℓ.body), i.machine⟩ ∧
      i.machine.store.frames.here? v ℓ.name.lexeme = some w ∧ b = ⟨n + 2, .stmt ℓ.body, opened i.machine ℓ.name w⟩ := by
  obtain ⟨w, hw⟩ := Option.isSome_iff_exists.mp ((hi.sole ℓ.name.lexeme).mpr rfl)
  have hfound := hi.found hw
  obtain @⟨n, m, m₁, m₂, houter, hinner⟩ := hb
  cases (exec_var_none (carrier ℓ.name)).symm.trans houter
  match n with
  | 0 | 1 => cases hinner
  | n + 2 =>
    cases (exec_var_read hfound).symm.trans hinner
    exact ⟨n, w, rfl, hw, rfl⟩

theorem Bodies.visits (hb : ℓ.Bodies id i b) : Moment.Visits i b := by
  obtain ⟨houter, hinner⟩ := hb
  exact .head .block (.head (.rest houter) (.head .statement (.head .block (.head (.rest hinner) (.single .statement)))))

theorem Bodies.stands (hb : ℓ.Bodies id i b) (hi : i.Fits c l) :
    b.Fits c ([ℓ.name.lexeme] :: [(carrier ℓ.name).lexeme] :: l) := by
  obtain ⟨houter, hinner⟩ := hb
  exact ((hi.block.rest houter).statement.block.rest hinner).statement

/-- What follows an iteration comes behind it. -/
theorem Follows.before (hq : ℓ.Follows id h i q) (hi : ℓ.Iterates id h i) : Before h.parts i q := by
  cases hq with
  | @increment e t hsome hexec =>
    cases hi with
    | bare hnone => cases hnone.symm.trans hsome
    | @inside n w e' m m' hsome' heval htrue =>
      have hround : Starts ⟨n + 2, .stmt (ℓ.cycle id), m⟩ _ := starts_round heval htrue
      rw [round_of_some hsome] at hround
      have hbody : Before (parts ⟨n, .body [iteration id ℓ.name ℓ.body, .expression e], m'.enter m'.current ∅⟩)
          ⟨n, .stmt (iteration id ℓ.name ℓ.body), m'.enter m'.current ∅⟩ ⟨n, .stmt (.expression e), t⟩ := by
        change Before (_ :: Halting.upon _ _ _) _ _
        rw [Halting.upon_of_ok hexec]
        exact .apart (List.mem_singleton_self _) .refl (List.mem_singleton_self _) (.single .statement)
      exact hbody.of_visits (mem_parts_iff.mpr hround) (.single .block)
  | rounds hnext hactive =>
    obtain ⟨p, r, back, hparts, hvisits, hback⟩ := hi.parts
    rw [hparts]
    exact .apart (List.mem_cons_of_mem _ (List.mem_singleton_self _)) hvisits (hback _ hnext) hactive.visits

section Outside

variable {f : FrameId} {w : Moment} {x : String} (hi : ℓ.Iterates id h i) (hh : h.Fits c ([ℓ.name.lexeme] :: l))
  (hf : i.machine.store.frames.size ≤ f)

include hi

theorem Follows.later (hq : ℓ.Follows id h i q) : Later i.after.store.frames q.machine.store.frames := by
  obtain ⟨u, htrail, -⟩ := h.traced
  exact htrail.later_before (hq.before hi)

include hh hf

/-- What follows an iteration stands outside the frames that the iteration makes. -/
theorem Follows.outside (hq : ℓ.Follows id h i q) (hfi : f < i.after.store.frames.size) :
    ¬ q.machine.store.frames.Around f q.machine.current := by
  intro ha
  cases hq with
  | increment hsome hexec =>
    have hfits := (hi.stands hh).1
    have hlater := i.later_after.trans (Follows.later hi (.increment hsome hexec))
    rw [current_of_ok (steady_exec _ _) hexec, around_later hfits.closed hlater hfits.within] at ha
    exact hf.not_gt (ha.lt hfits.closed hfits.within)
  | rounds hnext hactive =>
    obtain ⟨hfits, hcurrent⟩ := hnext.stands hh
    have hfh := hfi.trans_le (Follows.later hi (.rounds hnext .start)).size
    have hround := around_of_active hfits hactive hfh ha
    rw [hcurrent, around_later hh.closed (later_of_starts hnext.starts).1 hh.within] at hround
    exact hf.not_gt ((hround.lt hh.closed hh.within).trans_le (later_of_visits hi.visits).1.size)

/-- What follows an iteration writes to a frame that the iteration makes only by way of functions that captured it. -/
theorem Follows.byCaptor (hq : ℓ.Follows id h i q) (hfi : f < i.after.store.frames.size) (hw : q.Visits w)
    (hwrites : w.Writes f x) : q.ByCaptor f w := by
  obtain ⟨-, p, hp, hpq⟩ := (hq.before hi).visited
  obtain ⟨l', hfits⟩ := fits_of_visits (hpq.head (mem_parts_iff.mp hp)) hh
  exact byCaptor_of_outside hfits (hfi.trans_le (hq.later hi).size) (hq.outside hi hh hf hfi) hw hwrites

end Outside

end VarLoop

end LoxLang
