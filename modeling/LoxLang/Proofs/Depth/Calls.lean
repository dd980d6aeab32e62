import LoxLang.Proofs.Scoping.Agreement

/-! The count of active calls. It is the number of calls inside which code runs, at every moment; a call that would be one
too many is refused before anything of what is called is run. -/

namespace LoxLang

namespace Moment

open Run

/-- A call expression has its callee and its arguments, on a machine; nothing is called yet. -/
inductive Prepares : Moment → Token → Value → List Value → Machine → Prop
  | mk {n : Nat} {d : Option Token} {callee : Expr} {paren : Token} {es : List Expr} {f : Value} {values : List Value}
    {m m₁ m₂ : Machine} : eval n callee m = .ok f m₁ → each (eval n) es m₁ = .ok values m₂ →
      Prepares ⟨n + 1, .expr d (.call callee paren es), m⟩ paren f values m₂

/-- A call expression begins to run what it calls, on a machine. -/
def Enters (k : Moment) (f : Value) (values : List Value) (m : Machine) : Prop :=
  ∃ paren m', k.Prepares paren f values m' ∧ admitCall paren f values.length m' = .ok () m' ∧
    m = { m' with depth := m'.depth + 1 }

/-- A call expression begins to run the body of what it calls: of a function, or of the initializer of a class. -/
def Calls (k k' : Moment) : Prop :=
  ∃ f values m body m', k.Enters f values m ∧ m.called? values f = some (body, m') ∧
    k' = ⟨k.bound - 1, .body body, m'⟩

/-- A moment of the run that begins at the first one, with the call expressions inside whose callee it is, the innermost
first. -/
inductive Active (start : Moment) : List Moment → Moment → Prop
  | start : Active start [] start
  | part {calls : List Moment} {k k' : Moment} : Active start calls k → k.Starts k' → ¬k.Calls k' → Active start calls k'
  | call {calls : List Moment} {k k' : Moment} : Active start calls k → k.Calls k' → Active start (k :: calls) k'

/-- The machine on which the code leaves off. -/
def after (k : Moment) : Machine :=
  match k.code with
  | .expr _ e => (eval k.bound e).after k.machine
  | .arguments _ es => (each (eval k.bound) es).after k.machine
  | .stmt s => (exec k.bound s).after k.machine
  | .body statements => (sequence (exec k.bound) statements).after k.machine
  | .unit statements => (interpret k.bound statements).after k.machine

variable {start k k' : Moment} {calls : List Moment} {f : Value} {values : List Value} {paren : Token} {m m' : Machine}

theorem context_after (k : Moment) : k.after.context = k.machine.context := by
  unfold after
  cases k.code with
  | expr d e => exact steady_eval _ _ _
  | arguments d es => exact steady_each (steady_eval _) _ _
  | stmt s => exact steady_exec _ _ _
  | body statements => exact steady_sequence (steady_exec _) _ _
  | unit statements => exact steady_interpret _ _ _

theorem depth_of_ok {α : Type} {run : Run α} {a : α} (h : Steady run) (e : run m = .ok a m') : m'.depth = m.depth :=
  congrArg Context.depth (h.of_ok e)

theorem Prepares.depth (h : k.Prepares paren f values m) : m.depth = k.machine.depth := by
  obtain ⟨e₁, e₂⟩ := h
  exact (depth_of_ok (steady_each (steady_eval _) _) e₂).trans (depth_of_ok (steady_eval _ _) e₁)

/-- A call expression is prepared in one way. -/
theorem Prepares.unique {paren' : Token} {f' : Value} {values' : List Value} (h : k.Prepares paren f values m)
    (h' : k.Prepares paren' f' values' m') : paren' = paren ∧ f' = f ∧ values' = values ∧ m' = m := by
  obtain ⟨e₁, e₂⟩ := h
  obtain ⟨e₁', e₂'⟩ := h'
  obtain ⟨rfl, rfl⟩ := EStateM.Result.ok.inj (e₁.symm.trans e₁')
  obtain ⟨rfl, rfl⟩ := EStateM.Result.ok.inj (e₂.symm.trans e₂')
  exact ⟨rfl, rfl, rfl, rfl⟩

theorem below_of_admitCall {given : Nat} (e : admitCall paren f given m = .ok () m') : m.depth < maxDepth := by
  rw [admitCall_apply, (arity_of_admitCall e).2] at e
  dsimp only at e
  rw [if_neg (not_not.mpr rfl)] at e
  split at e
  · cases e
  · rename_i hdepth
    exact not_le.mp hdepth

/-- Every other call is admitted, if the number of arguments is right. -/
theorem admitCall_of_below {given : Nat} (harity : m.store.arity? f = some given) (hdepth : m.depth < maxDepth) :
    admitCall paren f given m = .ok () m := by
  rw [admitCall_apply, harity]
  dsimp only
  rw [if_neg (not_not.mpr rfl), if_neg (not_le.mpr hdepth)]
  rfl

theorem Enters.depth (h : k.Enters f values m) : m.depth = k.machine.depth + 1 ∧ k.machine.depth < maxDepth := by
  obtain ⟨paren, m', hprepared, hadmitted, rfl⟩ := h
  rw [← hprepared.depth]
  exact ⟨rfl, below_of_admitCall hadmitted⟩

/-- The initializer of a class runs in the call of the class. -/
theorem depth_of_called {body : List Stmt} (h : m.called? values f = some (body, m')) : m'.depth = m.depth := by
  obtain ⟨κ, m₁, hinvokes, -, rfl⟩ := Machine.called?_eq_some.mp h
  cases hinvokes <;> rfl

theorem Calls.depth (h : k.Calls k') : k'.machine.depth = k.machine.depth + 1 ∧ k.machine.depth < maxDepth := by
  obtain ⟨f, values, m, body, m', henters, hcalled, rfl⟩ := h
  exact ⟨(depth_of_called hcalled).trans henters.depth.1, henters.depth.2⟩

theorem Calls.starts (h : k.Calls k') : k.Starts k' := by
  obtain ⟨f, values, m, body, m', ⟨paren, m'', ⟨e₁, e₂⟩, hadmitted, rfl⟩, hcalled, rfl⟩ := h
  exact .call e₁ e₂ hadmitted hcalled

/-- But for calls, what code begins to run begins with as many active calls. -/
theorem calls_or_depth (h : k.Starts k') : k.Calls k' ∨ k'.machine.depth = k.machine.depth := by
  cases h with
  | first | argument | value | block | statement | shown | performed => exact .inr rfl
  | second _ e => exact .inr (depth_of_ok (steady_eval _ _) e)
  | arguments e => exact .inr (depth_of_ok (steady_eval _ _) e)
  | others e => exact .inr (depth_of_ok (steady_eval _ _) e)
  | call e₁ e₂ e₃ hcalled =>
    obtain ⟨rfl, -⟩ := arity_of_admitCall e₃
    exact .inl ⟨_, _, _, _, _, ⟨_, _, .mk e₁ e₂, e₃, rfl⟩, hcalled, rfl⟩
  | chosen _ e => exact .inr (depth_of_ok (steady_eval _ _) e)
  | again e₁ _ e₂ => exact .inr ((depth_of_ok (steady_exec _ _) e₂).trans (depth_of_ok (steady_eval _ _) e₁))
  | rest e => exact .inr (depth_of_ok (steady_exec _ _) e)
  | next e => exact .inr (depth_of_ok (steady_perform _ _) e)

theorem Active.visits (h : start.Active calls k) : start.Visits k := by
  induction h with
  | start => exact .refl
  | part _ hstep _ ih => exact ih.tail hstep
  | call _ hcall ih => exact ih.tail hcall.starts

theorem exists_active (h : start.Visits k) : ∃ calls, start.Active calls k := by
  induction h with
  | refl => exact ⟨[], .start⟩
  | @tail k k' _ hstep ih =>
    obtain ⟨calls, hk⟩ := ih
    by_cases hcall : k.Calls k'
    · exact ⟨k :: calls, .call hk hcall⟩
    · exact ⟨calls, .part hk hstep hcall⟩

/-- The count at a moment is the number of calls inside which it is. -/
theorem Active.depth (h : start.Active calls k) (hstart : start.machine.depth = 0) :
    k.machine.depth = calls.length ∧ calls.length ≤ maxDepth := by
  induction h with
  | start => exact ⟨hstart, Nat.zero_le _⟩
  | part _ hstep hcall ih =>
    rw [(calls_or_depth hstep).resolve_left hcall]
    exact ih
  | call _ hcall ih =>
    obtain ⟨hdepth, hbelow⟩ := hcall.depth
    rw [hdepth, List.length_cons]
    omega

end Moment

open Moment Run

end LoxLang
