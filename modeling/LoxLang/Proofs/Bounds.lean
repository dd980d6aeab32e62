import LoxLang.Proofs.Run

/-! A greater bound on the depth of a run changes nothing but whether the bound is exhausted. So a run ends in one way
at most, whatever the bound is that suffices. -/

namespace LoxLang

/-- The second run does what the first does wherever the bound of the first suffices. -/
def Halting.Extends {σ α : Type} (run run' : Halting σ α) : Prop :=
  ∀ s, (∃ t, run s = .error .exhausted t) ∨ run' s = run s

namespace Halting

variable {σ α β : Type}

theorem Extends.refl (run : Halting σ α) : run.Extends run := fun _ => .inr rfl

theorem Extends.trans {run run' run'' : Halting σ α} (h : run.Extends run') (h' : run'.Extends run'') :
    run.Extends run'' := by
  intro s
  rcases h s with he | he
  · exact .inl he
  · rcases h' s with he' | he'
    · exact .inl (he ▸ he')
    · exact .inr (he'.trans he)

theorem extends_exhausted (run : Halting σ α) : Halting.Extends (throw .exhausted) run := fun s => .inl ⟨s, rfl⟩

theorem Extends.bind {run run' : Halting σ α} {next next' : α → Halting σ β} (h : run.Extends run')
    (hn : ∀ a, (next a).Extends (next' a)) : (run >>= next).Extends (run' >>= next') := by
  intro s
  rcases h s with ⟨t, he⟩ | he
  · exact .inl ⟨t, bind_of_error he⟩
  · cases e : run s with
    | error k t => exact .inr ((bind_of_error (he.trans e)).trans (bind_of_error e).symm)
    | ok a t =>
      rw [bind_of_ok e, bind_of_ok (he.trans e)]
      exact hn a t

end Halting

namespace Run

open Halting (Extends)

variable {α : Type}

theorem extends_inFrame (frame : FrameId) {run run' : Run α} (h : run.Extends run') :
    (inFrame frame run).Extends (inFrame frame run') := by
  intro m
  rcases h { m with current := frame } with ⟨t, he⟩ | he
  · left
    unfold inFrame
    dsimp only
    rw [he]
    exact ⟨_, rfl⟩
  · right
    unfold inFrame
    dsimp only
    rw [he]

theorem extends_asCall {run run' : Run α} (h : run.Extends run') : (asCall run).Extends (asCall run') := by
  intro m
  rcases h { m with depth := m.depth + 1 } with ⟨t, he⟩ | he
  · left
    unfold asCall
    dsimp only
    rw [he]
    exact ⟨_, rfl⟩
  · right
    unfold asCall
    dsimp only
    rw [he]

theorem extends_each {run run' : Expr → Run Value} (h : ∀ e, (run e).Extends (run' e)) (es : List Expr) :
    (each run es).Extends (each run' es) := by
  induction es with
  | nil => exact .refl _
  | cons e rest ih => exact (h e).bind fun _ => ih.bind fun _ => .refl _

section Bodies

variable {run run' : Stmt → Run Completion} (h : ∀ s, (run s).Extends (run' s))

include h

theorem extends_sequence (body : List Stmt) : (sequence run body).Extends (sequence run' body) := by
  induction body with
  | nil => exact .refl _
  | cons s rest ih =>
    refine (h s).bind fun completion => ?_
    cases completion with
    | normal => exact ih
    | returned v => exact .refl _

theorem extends_inNewFrame (outer : FrameId) (names : Names) (body : List Stmt) :
    (inNewFrame run outer names body).Extends (inNewFrame run' outer names body) :=
  (Extends.refl _).bind fun frame => extends_inFrame frame (extends_sequence h body)

theorem extends_callClosure (k : Closure FrameId) (arguments : List Value) :
    (callClosure run k arguments).Extends (callClosure run' k arguments) :=
  (extends_inNewFrame h _ _ _).bind fun _ => .refl _

theorem extends_construct (c : ClassId) (arguments : List Value) :
    (construct run c arguments).Extends (construct run' c arguments) := by
  refine (Extends.refl _).bind fun o => (Extends.refl _).bind fun m => ?_
  split
  · exact (Extends.refl _).bind fun closure => (extends_callClosure h closure arguments).bind fun _ => .refl _
  · exact .refl _

theorem extends_call (callee : Value) (arguments : List Value) :
    (call run callee arguments).Extends (call run' callee arguments) := by
  unfold call
  split
  · exact .refl _
  · refine (Extends.refl _).bind fun m => ?_
    split
    · exact extends_callClosure h _ _
    · exact .refl _
  · exact extends_construct h _ _
  · exact .refl _

end Bodies

end Run

open Run Halting

section Step

variable {n : Nat} (he : ∀ e, (eval n e).Extends (eval (n + 1) e)) (hs : ∀ s, (exec n s).Extends (exec (n + 1) s))

include he hs

theorem extends_eval_succ (e : Expr) : (eval (n + 1) e).Extends (eval (n + 2) e) := by
  cases e with
  | literal | read | self | inherited => exact .refl _
  | grouping inner => exact he inner
  | unary operator operand => exact (he operand).bind fun _ => .refl _
  | binary left operator right => exact (he left).bind fun _ => (he right).bind fun _ => .refl _
  | logical left operator right =>
    refine (he left).bind fun a => ?_
    split
    · exact .refl _
    · exact he right
  | assign id name value => exact (he value).bind fun _ => .refl _
  | call callee paren arguments =>
    exact (he callee).bind fun f => (extends_each he arguments).bind fun values =>
      (Extends.refl _).bind fun _ => extends_asCall (extends_call hs f values)
  | get object name => exact (he object).bind fun _ => .refl _
  | set object name value =>
    refine (he object).bind fun v => ?_
    split
    · exact (he value).bind fun _ => .refl _
    · exact .refl _

theorem extends_exec_succ (s : Stmt) : (exec (n + 1) s).Extends (exec (n + 2) s) := by
  cases s with
  | expression e => exact (he e).bind fun _ => .refl _
  | print e => exact (he e).bind fun _ => .refl _
  | var name initial =>
    cases initial with
    | none => exact .refl _
    | some e => exact (he e).bind fun _ => .refl _
  | block body => exact (Extends.refl _).bind fun _ => extends_inNewFrame hs _ _ body
  | branch condition yes no =>
    refine (he condition).bind fun v => ?_
    split
    · exact hs yes
    · cases no with
      | none => exact .refl _
      | some s => exact hs s
  | loop condition body =>
    refine (he condition).bind fun v => ?_
    split
    · refine (hs body).bind fun completion => ?_
      cases completion with
      | normal => exact hs _
      | returned v => exact .refl _
    · exact .refl _
  | function | classDecl => exact .refl _
  | ret keyword value =>
    cases value with
    | none => exact .refl _
    | some e => exact (he e).bind fun _ => .refl _

end Step

/-- One induction on the bound for both evaluators, since calls run statements and statements evaluate. -/
theorem extends_evaluators (n : Nat) :
    (∀ e, (eval n e).Extends (eval (n + 1) e)) ∧ ∀ s, (exec n s).Extends (exec (n + 1) s) := by
  induction n with
  | zero => exact ⟨fun _ => extends_exhausted _, fun _ => extends_exhausted _⟩
  | succ n ih => exact ⟨extends_eval_succ ih.1 ih.2, extends_exec_succ ih.1 ih.2⟩

namespace Run

variable {α β : Type}

/-- Runs by bound, each of which extends the one before. -/
def Steadfast (run : Nat → Run α) : Prop := ∀ n, (run n).Extends (run (n + 1))

theorem steadfast_eval (e : Expr) : Steadfast (eval · e) := fun n => (extends_evaluators n).1 e

theorem steadfast_exec (s : Stmt) : Steadfast (exec · s) := fun n => (extends_evaluators n).2 s

theorem steadfast_const (run : Run α) : Steadfast fun _ => run := fun _ => .refl run

theorem Steadfast.bind {run : Nat → Run α} {next : Nat → α → Run β} (h : Steadfast run)
    (hn : ∀ a, Steadfast (next · a)) : Steadfast fun n => run n >>= next n := fun n => (h n).bind fun a => hn a n

theorem steadfast_sequence (body : List Stmt) : Steadfast fun n => sequence (exec n) body := fun n =>
  extends_sequence (extends_evaluators n).2 body

theorem Steadfast.le {run : Nat → Run α} (h : Steadfast run) {n k : Nat} (hnk : n ≤ k) : (run n).Extends (run k) := by
  induction hnk with
  | refl => exact .refl _
  | step _ ih => exact ih.trans (h _)

/-- Within some bound the run ends so, or halts so for another reason than the bound. -/
def Ends (run : Nat → Run α) (m : Machine) (r : EStateM.Result Halt Machine α) : Prop :=
  (∃ n, run n m = r) ∧ ∀ t, r ≠ .error .exhausted t

variable {run : Nat → Run α} {next : Nat → α → Run β} {m t : Machine} {r : EStateM.Result Halt Machine β}

theorem Steadfast.eventually (h : Steadfast run) {r : EStateM.Result Halt Machine α} (hr : Ends run m r) :
    ∃ n, ∀ k, n ≤ k → run k m = r := by
  obtain ⟨⟨n, rfl⟩, hne⟩ := hr
  refine ⟨n, fun k hk => ?_⟩
  rcases h.le hk m with ⟨t, he⟩ | he
  · exact absurd he (hne t)
  · exact he

/-- A run ends in one way at most. -/
theorem Steadfast.unique (h : Steadfast run) {r r' : EStateM.Result Halt Machine α} (hr : Ends run m r)
    (hr' : Ends run m r') : r = r' := by
  obtain ⟨n, hn⟩ := h.eventually hr
  obtain ⟨k, hk⟩ := h.eventually hr'
  exact (hn (max n k) (by omega)).symm.trans (hk (max n k) (by omega))

theorem Steadfast.ends_add (h : Steadfast run) {r : EStateM.Result Halt Machine α} (j : Nat) :
    Ends (fun n => run (n + j)) m r ↔ Ends run m r := by
  refine ⟨fun ⟨⟨n, e⟩, hr⟩ => ⟨⟨n + j, e⟩, hr⟩, fun hr => ⟨?_, hr.2⟩⟩
  obtain ⟨n, hn⟩ := h.eventually hr
  exact ⟨n, hn (n + j) (by omega)⟩

theorem Steadfast.ends_succ (h : Steadfast run) {r : EStateM.Result Halt Machine α} :
    Ends (fun n => run (n + 1)) m r ↔ Ends run m r := h.ends_add 1

theorem Ends.bind_error (h : Steadfast run) {k : Halt} (hr : Ends run m (.error k t)) :
    Ends (fun n => run n >>= next n) m (.error k t) := by
  obtain ⟨n, hn⟩ := h.eventually hr
  refine ⟨⟨n, Halting.bind_of_error (hn n le_rfl)⟩, fun t' e => hr.2 t' ?_⟩
  cases e
  rfl

theorem Ends.bind_ok (h : Steadfast run) (hn : ∀ a, Steadfast (next · a)) {a : α} (hr : Ends run m (.ok a t))
    (hnext : Ends (next · a) t r) : Ends (fun n => run n >>= next n) m r := by
  obtain ⟨n, hrun⟩ := h.eventually hr
  obtain ⟨k, hk⟩ := (hn a).eventually hnext
  exact ⟨⟨max n k, (Halting.bind_of_ok (hrun _ (by omega))).trans (hk _ (by omega))⟩, hnext.2⟩

/-- How two runs in a row end. -/
theorem ends_bind (h : Ends (fun n => run n >>= next n) m r) :
    (∃ k t, r = .error k t ∧ Ends run m (.error k t)) ∨ ∃ a t, Ends run m (.ok a t) ∧ Ends (next · a) t r := by
  obtain ⟨⟨n, e⟩, hr⟩ := h
  dsimp only at e
  cases hrun : run n m with
  | error k t =>
    rw [Halting.bind_of_error hrun] at e
    subst e
    exact .inl ⟨k, t, rfl, ⟨n, hrun⟩, fun t' e => hr t' (by cases e; rfl)⟩
  | ok a t =>
    rw [Halting.bind_of_ok hrun] at e
    exact .inr ⟨a, t, ⟨⟨n, hrun⟩, nofun⟩, ⟨n, e⟩, hr⟩

end Run

end LoxLang
