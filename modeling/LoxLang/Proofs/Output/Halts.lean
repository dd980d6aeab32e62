import LoxLang.Proofs.Scoping.Moments

/-! A halt at any moment of a run is the halt of the run: nothing catches it, and no code begins after it. -/

namespace LoxLang

/-- The halt of a run, with the store and the output that it leaves. -/
def Halting.halted? {α : Type} (run : Run α) (m : Machine) : Option (Halt × Store × Sink) :=
  match run m with
  | .ok _ _ => none
  | .error h t => some (h, t.store, t.output)

/-- The halt of the code of a moment. -/
def Moment.halted? (k : Moment) : Option (Halt × Store × Sink) :=
  match k.code with
  | .expr _ e => (eval k.bound e).halted? k.machine
  | .arguments _ es => (Run.each (eval k.bound) es).halted? k.machine
  | .stmt s => (exec k.bound s).halted? k.machine
  | .body statements => (Run.sequence (exec k.bound) statements).halted? k.machine
  | .unit statements => (interpret k.bound statements).halted? k.machine

/-- The value that a statement writes, and the machine on which it writes it. -/
inductive Moment.Prints : Moment → Machine → Value → Prop
  | print {n : Nat} {e : Expr} {v : Value} {m m' : Machine} : eval n e m = .ok v m' →
    Prints ⟨n + 1, .stmt (.print e), m⟩ m' v
  | shown {n : Nat} {e : Expr} {rest : List Stmt} {v : Value} {m m' : Machine} : m.prompt = true →
    eval n e m = .ok v m' → Prints ⟨n, .unit (.expression e :: rest), m⟩ m' v

/-- The output does not take the value. -/
def Machine.Refuses (m : Machine) (v : Value) : Prop := (m.output.writeLine (m.store.display v)).1 = false

namespace Halting

variable {α β : Type} {run : Run α} {next : α → Run β} {m t : Machine} {a : α} {x : Halt × Store × Sink}

theorem halted?_bind (h : run.halted? m = some x) : (run >>= next).halted? m = some x := by
  unfold halted? at h ⊢
  cases e : run m with
  | ok => simp [e] at h
  | error =>
    rw [e] at h
    rwa [bind_of_error e]

theorem halted?_after (e : run m = .ok a t) (h : (next a).halted? t = some x) : (run >>= next).halted? m = some x := by
  unfold halted? at h ⊢
  rwa [bind_of_ok e]

theorem halted?_get {next : Machine → Run β} (h : (next m).halted? m = some x) : (get >>= next).halted? m = some x := h

theorem exists_of_halted {h : Halt} {s : Store} {o : Sink} (hrun : run.halted? m = some (h, s, o)) :
    ∃ u, run m = .error h u ∧ u.store = s ∧ u.output = o := by
  unfold halted? at hrun
  cases e : run m with
  | ok a t =>
    rw [e] at hrun
    cases hrun
  | error k t =>
    rw [e] at hrun
    cases hrun
    exact ⟨t, rfl, rfl, rfl⟩

theorem ok_of_halted (h : run.halted? m = none) : ∃ a t, run m = .ok a t := by
  unfold halted? at h
  cases e : run m with
  | ok a t => exact ⟨a, t, rfl⟩
  | error k t =>
    rw [e] at h
    cases h

end Halting

namespace Run

open Halting

variable {x : Halt × Store × Sink} {m : Machine}

theorem halted?_inFrame {α : Type} {run : Run α} {f : FrameId} (h : run.halted? { m with current := f } = some x) :
    (inFrame f run).halted? m = some x := by
  unfold halted? inFrame at *
  cases e : run { m with current := f } <;> simp only [e] at h ⊢ <;> exact h

theorem halted?_asCall {α : Type} {run : Run α} (h : run.halted? { m with depth := m.depth + 1 } = some x) :
    (asCall run).halted? m = some x := by
  unfold halted? asCall at *
  cases e : run { m with depth := m.depth + 1 } <;> simp only [e] at h ⊢ <;> exact h

/-- A call halts as the body that it runs. -/
theorem halted?_call {exec : Stmt → Run Completion} {f : Value} {values : List Value} {body : List Stmt} {m' : Machine}
    (hcalled : m.called? values f = some (body, m')) (h : (sequence exec body).halted? m' = some x) :
    (call exec f values).halted? m = some x := by
  have hbody : ∀ {m₁ : Machine} {k : Closure FrameId}, Machine.called?.enterBody values m₁ k = (body, m') →
      (callClosure exec k values).halted? m₁ = some x := by
    rintro m₁ k hk
    obtain ⟨rfl, rfl⟩ := Prod.mk.inj hk
    exact halted?_bind (halted?_inFrame (m := { m₁ with store := _ }) h)
  cases f with
  | function id =>
    obtain ⟨k, hk, hcalled⟩ := Option.map_eq_some_iff.mp hcalled
    refine halted?_get ?_
    rw [hk]
    exact hbody hcalled
  | cls id =>
    obtain ⟨method, hmethod, hcalled⟩ := Option.map_eq_some_iff.mp hcalled
    refine halted?_after (t := { m with store := (m.store.inHeap fun h => h.addObject id).2 }) rfl (halted?_get ?_)
    dsimp only
    rw [hmethod]
    exact halted?_after rfl (halted?_bind (hbody hcalled))
  | nil | bool | number | string | native | object => cases hcalled

end Run

namespace Moment

open Halting Run

variable {k k' : Moment} {x : Halt × Store × Sink}

theorem halted?_first {n : Nat} {d : Option Token} {e e' : Expr} {m : Machine} (h : e.first? = some e')
    (hx : (eval n e').halted? m = some x) : (Moment.mk (n + 1) (.expr d e) m).halted? = some x := by
  cases e <;> simp only [Expr.first?, Option.some.injEq, reduceCtorEq] at h <;> subst h
  case grouping => exact hx
  all_goals exact halted?_bind hx

theorem halted?_second {n : Nat} {d : Option Token} {e e' e'' : Expr} {a : Value} {m m' : Machine}
    (h : e.first? = some e') (heval : eval n e' m = .ok a m') (h' : e.second? a = some e'')
    (hx : (eval n e'').halted? m' = some x) : (Moment.mk (n + 1) (.expr d e) m).halted? = some x := by
  unfold Expr.second? at h'
  split at h'
  · cases h
    cases h'
    exact halted?_after heval (halted?_bind hx)
  · cases h
    split at h' <;> cases h'
    rename_i hdecides
    refine halted?_after heval ?_
    rwa [if_neg hdecides]
  · cases h
    split at h' <;> cases h'
    exact halted?_after heval (halted?_bind hx)
  · cases h'

/-- A superclass is read by the declaration itself, within any bound. -/
theorem halted?_value {n : Nat} {d : Option Token} {s : Stmt} {e : Expr} {m : Machine} (h : s.value? = some (d, e))
    (hx : (eval n e).halted? m = some x) (hbound : x.1 ≠ .exhausted) : (Moment.mk (n + 1) (.stmt s) m).halted? = some x := by
  unfold Stmt.value? at h
  split at h
  iterate 4
    · cases h
      exact halted?_bind hx
  · obtain ⟨e', rfl, h⟩ := Option.map_eq_some_iff.mp h
    cases h
    exact halted?_bind hx
  · obtain ⟨e', rfl, h⟩ := Option.map_eq_some_iff.mp h
    cases h
    exact halted?_bind hx
  · obtain ⟨u, rfl, h⟩ := Option.map_eq_some_iff.mp h
    cases h
    cases n with
    | zero =>
      cases hx
      exact absurd rfl hbound
    | succ n => exact halted?_bind (halted?_bind hx)
  · cases h
  · cases h

theorem halted?_chosen {n : Nat} {d : Option Token} {s s' : Stmt} {e : Expr} {v : Value} {m m' : Machine}
    (h : s.value? = some (d, e)) (heval : eval n e m = .ok v m') (h' : s.chosen? v = some s')
    (hx : (exec n s').halted? m' = some x) : (Moment.mk (n + 1) (.stmt s) m).halted? = some x := by
  unfold Stmt.chosen? at h'
  split at h'
  · cases h
    refine halted?_after heval ?_
    split at h' <;> rename_i hv
    · cases h'
      rwa [if_pos hv]
    · rw [if_neg hv]
      subst h'
      exact hx
  · cases h
    split at h' <;> cases h'
    rename_i hv
    refine halted?_after heval ?_
    rw [if_pos hv]
    exact halted?_bind hx
  · cases h'

/-- What halts after a moment has led to it halts the moment too. -/
theorem halted?_of_starts (h : k.Starts k') (hx : k'.halted? = some x) (hbound : x.1 ≠ .exhausted) : k.halted? = some x := by
  cases h with
  | first hfirst => exact halted?_first hfirst hx
  | second hfirst e hsecond => exact halted?_second hfirst e hsecond hx
  | arguments e => exact halted?_after e (halted?_bind hx)
  | argument => exact halted?_bind hx
  | others e => exact halted?_after e (halted?_bind hx)
  | call e₁ e₂ e₃ hcalled =>
    exact halted?_after e₁ (halted?_after e₂ (halted?_after e₃ (halted?_asCall (halted?_call hcalled hx))))
  | value hvalue => exact halted?_value hvalue hx hbound
  | chosen hvalue e hchosen => exact halted?_chosen hvalue e hchosen hx
  | again e₁ htrue e₂ =>
    refine halted?_after e₁ ?_
    rw [if_pos htrue]
    exact halted?_after e₂ hx
  | @block _ _ m => exact halted?_get (halted?_inFrame (m := { m with store := _ }) hx)
  | statement => exact halted?_bind hx
  | rest e => exact halted?_after e hx
  | shown hprompt =>
    refine halted?_bind (halted?_get ?_)
    rw [hprompt]
    exact halted?_bind hx
  | @performed n s _ m hstrict =>
    refine halted?_bind (halted?_get ?_)
    split
    · rename_i hprompt
      exact absurd (hprompt.symm.trans (hstrict _ rfl)) (by simp)
    · exact halted?_bind hx
  | next e => exact halted?_after e hx

theorem halted?_of_visits (h : k.Visits k') (hx : k'.halted? = some x) (hbound : x.1 ≠ .exhausted) : k.halted? = some x := by
  induction h using Relation.ReflTransGen.head_induction_on with
  | refl => exact hx
  | head hstep _ ih => exact halted?_of_starts hstep ih hbound

/-- A value that is refused halts the statement that writes it. -/
theorem Prints.halted? {m : Machine} {v : Value} (h : k.Prints m v) (hrefused : m.Refuses v) :
    k.halted? = some (.outputFailed, m.store, (m.output.writeLine (m.store.display v)).2) := by
  have hprint : (Run.print v).halted? m = some (.outputFailed, m.store, (m.output.writeLine (m.store.display v)).2) := by
    unfold Machine.Refuses at hrefused
    simp [Halting.halted?, Run.print, hrefused]
  cases h with
  | print e => exact halted?_after e (halted?_bind hprint)
  | shown hprompt e =>
    refine halted?_bind (halted?_get ?_)
    rw [hprompt]
    exact halted?_after e hprint

end Moment

end LoxLang
