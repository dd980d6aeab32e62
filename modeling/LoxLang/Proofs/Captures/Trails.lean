import LoxLang.Proofs.Failures.Atomic
import LoxLang.Proofs.Output.Halts

/-! Stores followed from part to part. In front of each part things are added at most; behind the last the code changes what
it changes of its own, or it fails and has changed nothing. What is kept by such changes is kept along a run. -/

namespace LoxLang

open Frames Run

namespace Moment

variable {α β : Type}

/-- The code of the moment ends as the run does, which begins in the same frame. -/
structure EndsAs (k : Moment) (run : Run α) (m : Machine) : Prop where
  after : k.after = run.after m
  halted : k.halted? = run.halted? m
  current : m.current = k.machine.current

/-- The store along a run, from part to part. -/
inductive Course (k : Moment) : Store → List Moment → Prop
  | done {s : Store} : s.Changes k.machine.current (Writes · · k) k.after.store →
    (∀ e t o, k.halted? = some (.error e, t, o) → k.after.store = s) → Course k s []
  | part {s : Store} {p : Moment} {ps : List Moment} : s.Additions k.machine.current p.machine.store →
    Course k p.after.store ps → Course k s (p :: ps)

variable {k p : Moment} {ps : List Moment} {run : Run α} {next : α → Run β} {f : α → Machine → List Moment}
  {m m' u : Machine} {s : Store} {n : Nat} {d : Option Token}

theorem current_of_ok {a : α} (hrun : Steady run) (e : run m = .ok a u) : u.current = m.current :=
  congrArg Context.current (hrun.of_ok e)

theorem EndsAs.behind {a : α} (h : k.EndsAs (run >>= next) m) (hrun : Steady run) (e : run m = .ok a u) :
    k.EndsAs (next a) u := by
  refine ⟨h.after.trans (Halting.after_bind_of_ok e), h.halted.trans ?_, (current_of_ok hrun e).trans h.current⟩
  unfold Halting.halted?
  rw [Halting.bind_of_ok e]

theorem Course.first (h : k.Course p.after.store ps) : k.Course p.machine.store (p :: ps) := .part .refl h

theorem course_of_store (h : k.after.store = s) : k.Course s [] := .done (h ▸ .refl) fun _ _ _ _ => h

theorem course_end (h : k.EndsAs run m) : k.Course (run.after m).store [] :=
  course_of_store (congrArg Machine.store h.after)

theorem course_of_idle (h : k.EndsAs run m) (hrun : run.after m = m) : k.Course m.store [] :=
  course_of_store (congrArg Machine.store (h.after.trans hrun))

/-- What does not fail may change what the code writes. -/
theorem course_of_ok {a : α} (h : k.EndsAs run m) (e : run m = .ok a u)
    (hchanges : m.store.Changes m.current (Writes · · k) u.store) : k.Course m.store [] := by
  have hafter : k.after = u := h.after.trans (Halting.after_of_ok e)
  refine .done (hafter ▸ h.current ▸ hchanges) fun x t o hx => ?_
  rw [h.halted, Halting.halted?, e] at hx
  cases hx

theorem course_of_quiet (h : k.EndsAs run m) (hquiet : Quiet run) (hatomic : Atomic run) : k.Course m.store [] := by
  have hchanges : m.store.Changes m.current (Writes · · k) (run.after m).store :=
    Store.Changes.mono (hquiet m) fun _ _ => False.elim
  refine .done (h.after ▸ h.current ▸ hchanges) fun e t o hx => ?_
  obtain ⟨u, hu, -, -⟩ := Halting.exists_of_halted (h.halted ▸ hx)
  rw [h.after, Halting.after_of_error hu, hatomic m e u hu]

/-- The parts behind a run begin if it does not halt. -/
theorem course_bind (h : k.EndsAs (run >>= next) m) (hrun : Steady run)
    (hn : ∀ a t, run m = .ok a t → k.EndsAs (next a) t → k.Course t.store (f a t)) :
    k.Course (run.after m).store (run.upon m f) := by
  cases e : run m with
  | ok a t =>
    rw [Halting.upon_of_ok e, Halting.after_of_ok e]
    exact hn a t e (h.behind hrun e)
  | error x t =>
    rw [Halting.upon_of_error e, Halting.after_of_error e]
    exact course_of_store (congrArg Machine.store (h.after.trans (Halting.after_bind_of_error e)))

theorem course_last (h : k.EndsAs (run >>= next) m) (hrun : Steady run) (hquiet : ∀ a, Quiet (next a))
    (hatomic : ∀ a, Atomic (next a)) : k.Course (run.after m).store [] := by
  have hcourse := course_bind (f := fun _ _ => []) h hrun fun a _ _ h => course_of_quiet h (hquiet a) (hatomic a)
  rwa [Halting.upon_nil] at hcourse

theorem store_asCall : ((asCall run).after m).store = (run.after { m with depth := m.depth + 1 }).store := by
  unfold Halting.after asCall
  cases e : run { m with depth := m.depth + 1 } <;> simp only [e]

section Expressions

theorem course_assign {id : NodeId} {name : Token} {e : Expr} {v : Value} (heval : eval n e m = .ok v u)
    (h : EndsAs ⟨n + 1, .expr d (.assign id name e), m⟩ (assign id name v) u) :
    Course ⟨n + 1, .expr d (.assign id name e), m⟩ u.store [] := by
  by_cases hx : ∃ g, u.target? id name.lexeme = some g ∧ u.store.frames.Has g name.lexeme
  · obtain ⟨g, hg, hx⟩ := hx
    exact course_of_ok h (assign_of_assigned (Machine.assigned_of_target hg hx v))
      (.single (.write u.store v (.assigns heval hg hx)))
  · have hmissing := Machine.assigned_of_missing (v := v) fun g hg hx' => hx ⟨g, hg, hx'⟩
    exact course_of_idle h (Halting.after_of_error (assign_of_refused hmissing))

/-- A call without a body to run does not halt. -/
theorem call_ok_of_uncalled {f : Value} {values : List Value} (h : m.called? values f = none) :
    ∃ v t, call (exec n) f values m = .ok v t := by
  cases f with
  | function id =>
    rw [call_function_eq, Option.map_eq_none_iff.mp h]
    exact ⟨_, _, rfl⟩
  | cls id =>
    rw [call_cls_eq, Option.map_eq_none_iff.mp h]
    exact ⟨_, _, rfl⟩
  | nil | bool | number | string | native | object => exact ⟨_, _, rfl⟩

theorem course_call {f : Value} {values : List Value} (h : k.EndsAs (asCall (call (exec n) f values)) m) :
    k.Course m.store ((({ m with depth := m.depth + 1 } : Machine).called? values f).toList.map
      fun entry => ⟨n, .body entry.1, entry.2⟩) := by
  have hstore : k.after.store = _ := (congrArg Machine.store h.after).trans store_asCall
  cases hcalled : ({ m with depth := m.depth + 1 } : Machine).called? values f with
  | none =>
    obtain ⟨v, t, hok⟩ := call_ok_of_uncalled (n := n) hcalled
    refine course_of_ok h (asCall_of_ok hok) (Store.Additions.changes ?_)
    rw [← Halting.after_of_ok hok]
    exact additions_call hcalled
  | some entry =>
    have hadditions : m.store.Additions m.current entry.2.store :=
      additions_called (m := { m with depth := m.depth + 1 }) hcalled
    exact .part (p := ⟨n, .body entry.1, entry.2⟩) (h.current ▸ hadditions)
      (course_of_store (hstore.trans (store_call hcalled)))

/-- An expression, from operand to operand. -/
theorem course_expr (n : Nat) (d : Option Token) (e : Expr) (m : Machine) :
    Course ⟨n + 1, .expr d e, m⟩ m.store (operands n d m e) := by
  have hends : EndsAs ⟨n + 1, .expr d e, m⟩ (eval (n + 1) e) m := ⟨rfl, rfl, rfl⟩
  cases e with
  | literal value => exact course_of_idle hends rfl
  | read id name | self id name => exact course_of_idle hends (after_read id name m)
  | inherited id keyword method =>
    exact course_of_quiet hends (quiet_inherited id keyword method) (atomic_inherited id keyword method)
  | grouping inner =>
    rw [operands_of_first rfl]
    change Course _ _ (_ :: (eval n inner).upon m fun _ _ => [])
    rw [Halting.upon_nil]
    exact Course.first (p := ⟨n, .expr d inner, m⟩) (course_end hends)
  | unary operator operand =>
    rw [operands_of_first rfl]
    refine Course.first (p := ⟨n, .expr d operand, m⟩) (course_bind hends (steady_eval n operand) fun a t _ h => ?_)
    exact course_of_quiet h (quiet_unary operator a) (atomic_unary operator a)
  | binary left operator right =>
    rw [operands_of_first rfl]
    refine Course.first (p := ⟨n, .expr d left, m⟩) (course_bind hends (steady_eval n left) fun a t _ h => ?_)
    exact Course.first (p := ⟨n, .expr d right, t⟩)
      (course_last h (steady_eval n right) (fun b => quiet_binary operator a b) fun b => atomic_binary operator a b)
  | logical left operator right =>
    rw [operands_of_first rfl]
    refine Course.first (p := ⟨n, .expr d left, m⟩) (course_bind hends (steady_eval n left) fun a t _ h => ?_)
    change Course _ _ ((if decides operator a then none else some right).toList.map fun e => ⟨n, .expr d e, t⟩)
    split at h <;> rename_i hdecides
    · rw [if_pos hdecides]
      exact course_of_idle h rfl
    · rw [if_neg hdecides]
      exact Course.first (p := ⟨n, .expr d right, t⟩) (course_end h)
  | assign id name value =>
    rw [operands_of_first rfl]
    exact Course.first (p := ⟨n, .expr d value, m⟩)
      (course_bind hends (steady_eval n value) fun a t e h => course_assign e h)
  | call callee paren es =>
    rw [operands_of_first rfl]
    refine Course.first (p := ⟨n, .expr d callee, m⟩) (course_bind hends (steady_eval n callee) fun a t _ h => ?_)
    have hvalues : Steady (each (eval n) es) := steady_each (steady_eval n) es
    refine Course.first (p := ⟨n, .arguments d es, t⟩) (course_bind h hvalues fun values u _ h => ?_)
    have hcall := course_bind (f := fun _ u => (({ u with depth := u.depth + 1 } : Machine).called? values a).toList.map
      fun entry => ⟨n, .body entry.1, entry.2⟩) h (steady_admitCall paren a values.length) fun _ _ _ h => course_call h
    rwa [after_admitCall] at hcall
  | get object name =>
    rw [operands_of_first rfl]
    refine Course.first (p := ⟨n, .expr d object, m⟩) (course_bind hends (steady_eval n object) fun a t _ h => ?_)
    split at h
    · exact course_of_quiet h (quiet_property _ name) (atomic_property _ name)
    · exact course_of_idle h rfl
  | set object name value =>
    rw [operands_of_first rfl]
    refine Course.first (p := ⟨n, .expr d object, m⟩) (course_bind hends (steady_eval n object) fun a t _ h => ?_)
    cases a with
    | object o =>
      refine Course.first (p := ⟨n, .expr d value, t⟩) (course_last h (steady_eval n value) (fun v => ?_) fun v => ?_)
      · exact (quiet_setField o name.lexeme v).ends v
      · exact atomic_of_ok fun m => ⟨_, _, rfl⟩
    | nil | bool | number | string | native | function | cls => exact course_of_idle h rfl

end Expressions

section Statements

/-- A statement ends with a declaration in the frame in which it began. -/
theorem course_declare {s : Stmt} {x : String} {declare : Run Unit} (hdeclare : Binds declare x) (hx : x ∈ s.declares)
    (h : exec (n + 1) s m = (declare >>= fun _ => pure Completion.normal) u) (hcurrent : u.current = m.current) :
    Course ⟨n + 1, .stmt s, m⟩ u.store [] := by
  obtain ⟨t, hok, hchanges⟩ := hdeclare u
  have hexec : exec (n + 1) s m = .ok .normal t := h.trans (Halting.bind_of_ok hok)
  have hends : EndsAs ⟨n + 1, .stmt s, m⟩ declare u := by
    refine ⟨(Halting.after_of_ok hexec).trans (Halting.after_of_ok hok).symm, ?_, hcurrent⟩
    change (exec (n + 1) s).halted? m = _
    rw [Halting.halted?, hexec, Halting.halted?, hok]
  exact course_of_ok hends hok (hchanges _ (hcurrent ▸ .declares hexec hx))

/-- A superclass is looked up as an expression, which leaves the machine as it is, and again by the declaration. -/
theorem after_superclass (superclass : NameUse) (n : Nat) (m : Machine) :
    after ⟨n, .expr none superclass.expr, m⟩ = m := by
  cases n with
  | zero => rfl
  | succ n => exact after_read superclass.id superclass.name m

/-- A statement, from part to part. -/
theorem course_stmt (n : Nat) (s : Stmt) (m : Machine) : Course ⟨n + 1, .stmt s, m⟩ m.store (partsOf n m s) := by
  have hends : EndsAs ⟨n + 1, .stmt s, m⟩ (exec (n + 1) s) m := ⟨rfl, rfl, rfl⟩
  cases s with
  | expression e =>
    exact Course.first (p := ⟨n, .expr none e, m⟩)
      (course_bind hends (steady_eval n e) fun a t _ h => course_of_idle h rfl)
  | print e =>
    refine Course.first (p := ⟨n, .expr none e, m⟩) (course_bind hends (steady_eval n e) fun a t _ h => ?_)
    exact course_of_quiet h ((quiet_print a).ends Completion.normal)
      ((atomic_print a).before_ok fun _ m => ⟨_, m, rfl⟩)
  | var name initial =>
    cases initial with
    | none => exact course_declare (binds_define name.lexeme .nil) (List.mem_singleton_self _) rfl rfl
    | some e =>
      refine Course.first (p := ⟨n, .expr (some name) e, m⟩) (course_bind hends (steady_eval n e) fun a t heval _ => ?_)
      exact course_declare (binds_define name.lexeme a) (List.mem_singleton_self _) (Halting.bind_of_ok heval)
        (current_of_ok (steady_eval n e) heval)
  | block body =>
    have hstore : (after ⟨n + 1, .stmt (.block body), m⟩).store = _ := store_inNewFrame m.current ∅ body
    exact .part (p := ⟨n, .body body, m.enter m.current ∅⟩) (.single (.frame ∅ .here)) (course_of_store hstore)
  | branch condition yes no =>
    refine Course.first (p := ⟨n, .expr none condition, m⟩) (course_bind hends (steady_eval n condition) fun a t _ h => ?_)
    rw [Stmt.chosen?]
    split at h <;> rename_i htrue
    · rw [if_pos htrue]
      exact Course.first (p := ⟨n, .stmt yes, t⟩) (course_end h)
    · rw [if_neg htrue]
      cases no with
      | none => exact course_of_idle h rfl
      | some s => exact Course.first (p := ⟨n, .stmt s, t⟩) (course_end h)
  | loop condition body =>
    rw [partsOf]
    refine Course.first (p := ⟨n, .expr none condition, m⟩) (course_bind hends (steady_eval n condition) fun a t _ h => ?_)
    split at h <;> rename_i htrue
    · rw [if_pos htrue]
      refine Course.first (p := ⟨n, .stmt body, t⟩) (course_bind h (steady_exec n body) fun c u _ h => ?_)
      cases c with
      | normal => exact Course.first (p := ⟨n, .stmt (.loop condition body), u⟩) (course_end h)
      | returned v => exact course_of_idle h rfl
    · rw [if_neg htrue]
      exact course_of_idle h rfl
  | function f => exact course_declare (binds_declareFunction f) (List.mem_singleton_self _) rfl rfl
  | ret keyword value =>
    cases value with
    | none => exact course_of_idle hends rfl
    | some e =>
      exact Course.first (p := ⟨n, .expr none e, m⟩)
        (course_bind hends (steady_eval n e) fun a t _ h => course_of_idle h rfl)
  | classDecl name superclass methods =>
    have hdeclare (c : Option ClassId) := binds_declareClass name c methods
    cases superclass with
    | none => exact course_declare (hdeclare none) (List.mem_singleton_self _) rfl rfl
    | some superclass =>
      refine Course.first (p := ⟨n, .expr none superclass.expr, m⟩) ?_
      change Course _ _ ((eval n superclass.expr).upon m fun _ _ => [])
      rw [Halting.upon_nil, after_superclass]
      have hidle := after_superclassOf superclass m
      cases e : superclassOf superclass m with
      | error x t =>
        rw [Halting.after_of_error e] at hidle
        exact course_of_idle hends ((Halting.after_bind_of_error e).trans hidle)
      | ok c t =>
        rw [Halting.after_of_ok e] at hidle
        subst hidle
        exact course_declare (hdeclare (some c)) (List.mem_singleton_self _) (Halting.bind_of_ok e) rfl

end Statements

section Lists

theorem course_arguments (n : Nat) (d : Option Token) (es : List Expr) (m : Machine) :
    Course ⟨n, .arguments d es, m⟩ m.store (parts ⟨n, .arguments d es, m⟩) := by
  have hends : EndsAs ⟨n, .arguments d es, m⟩ (each (eval n) es) m := ⟨rfl, rfl, rfl⟩
  cases es with
  | nil => exact course_of_idle hends rfl
  | cons e rest =>
    refine Course.first (p := ⟨n, .expr d e, m⟩) (course_bind hends (steady_eval n e) fun v t _ h => ?_)
    have hrest : Steady (each (eval n) rest) := steady_each (steady_eval n) rest
    exact Course.first (p := ⟨n, .arguments d rest, t⟩) (course_last h hrest (fun _ => quiet_pure _) fun _ => atomic_pure _)

theorem course_body (n : Nat) (statements : List Stmt) (m : Machine) :
    Course ⟨n, .body statements, m⟩ m.store (parts ⟨n, .body statements, m⟩) := by
  have hends : EndsAs ⟨n, .body statements, m⟩ (sequence (exec n) statements) m := ⟨rfl, rfl, rfl⟩
  cases statements with
  | nil => exact course_of_idle hends rfl
  | cons s rest =>
    refine Course.first (p := ⟨n, .stmt s, m⟩) (course_bind hends (steady_exec n s) fun c t _ h => ?_)
    cases c with
    | normal => exact Course.first (p := ⟨n, .body rest, t⟩) (course_end h)
    | returned v => exact course_of_idle h rfl

/-- What a prompt shows leaves the store alone. -/
theorem store_performs (n : Nat) (s : Stmt) (m : Machine) : (performs n m s).after.store = ((perform n s).after m).store := by
  have hplain : ∀ s : Stmt, ((exec n s >>= fun _ => pure ()).after m).store = ((exec n s).after m).store := fun s => by
    rw [Halting.after_bind_pure]
  cases s with
  | expression e =>
    have hget : ∀ next : Machine → Run Unit, (get >>= next).after m = (next m).after m := fun _ => rfl
    rw [perform, hget, performs]
    cases hprompt : m.prompt with
    | true =>
      change ((eval n e).after m).store = ((eval n e >>= print).after m).store
      cases he : eval n e m with
      | ok v t => rw [Halting.after_of_ok he, Halting.after_bind_of_ok he, store_print]
      | error k t => rw [Halting.after_of_error he, Halting.after_bind_of_error he]
    | false => exact (hplain (.expression e)).symm
  | _ => exact (hplain _).symm

theorem machine_performs (n : Nat) (s : Stmt) (m : Machine) : (performs n m s).machine = m := by
  unfold performs
  repeat' split
  all_goals rfl

theorem course_unit (n : Nat) (statements : List Stmt) (m : Machine) :
    Course ⟨n, .unit statements, m⟩ m.store (parts ⟨n, .unit statements, m⟩) := by
  have hends : EndsAs ⟨n, .unit statements, m⟩ (interpret n statements) m := ⟨rfl, rfl, rfl⟩
  cases statements with
  | nil => exact course_of_idle hends rfl
  | cons s rest =>
    have hrest := course_bind (f := fun _ t => [⟨n, .unit rest, t⟩]) hends (steady_perform n s) fun _ t _ h =>
      Course.first (p := ⟨n, .unit rest, t⟩) (course_end h)
    rw [← store_performs] at hrest
    have hfirst := hrest.first
    rwa [machine_performs] at hfirst

end Lists

/-- From its beginning to its end, code changes the store as its parts do, and besides in the ways said. -/
theorem course (k : Moment) : k.Course k.machine.store k.parts := by
  obtain ⟨n, code, m⟩ := k
  cases code with
  | expr d e =>
    cases n with
    | zero => exact course_of_store rfl
    | succ n => exact course_expr n d e m
  | arguments d es => exact course_arguments n d es m
  | stmt s =>
    cases n with
    | zero => exact course_of_store rfl
    | succ n => exact course_stmt n s m
  | body statements => exact course_body n statements m
  | unit statements => exact course_unit n statements m

end Moment

/-- From one machine to another by way of code that runs; between pieces of it, frames keep their values. -/
inductive Trail : Machine → List Moment → Machine → Prop
  | done {m u : Machine} : Kept m.store.frames u.store.frames → Trail m [] u
  | part {m u : Machine} {p : Moment} {ps : List Moment} : Kept m.store.frames p.machine.store.frames →
    Trail p.after ps u → Trail m (p :: ps) u

theorem Trail.before {m m' u : Machine} {ps : List Moment} (h : Trail m ps u) (hm : Kept m'.store.frames m.store.frames) :
    Trail m' ps u := by
  cases h with
  | done hu => exact .done (hm.trans hu)
  | part hp hps => exact .part (hm.trans hp) hps

namespace Moment

/-- What code does of its own once its parts have ended is to write what it writes. -/
structure Settles (k : Moment) (u : Machine) : Prop where
  later : Later u.store.frames k.after.store.frames
  wrote : ∀ f < u.store.frames.size, ∀ x, k.after.store.frames.here? f x ≠ u.store.frames.here? f x → k.Writes f x

/-- The frames of a run, from part to part and then to its end. -/
def Traced (k : Moment) (ps : List Moment) (m : Machine) : Prop := ∃ u, Trail m ps u ∧ k.Settles u

theorem Course.traced {k : Moment} {s : Store} {ps : List Moment} (h : k.Course s ps) :
    ∀ m : Machine, m.store = s → k.Traced ps m := by
  induction h with
  | done hchanges _ =>
    rintro m rfl
    exact ⟨m, .done (.refl _), Store.Changes.later hchanges, fun f hf x hne => Store.Changes.wrote hchanges hf hne⟩
  | @part s p ps hadditions _ ih =>
    rintro m rfl
    obtain ⟨u, htrail, hu⟩ := ih p.after rfl
    exact ⟨u, .part (Store.Additions.kept hadditions) htrail, hu⟩

/-- The frames of a run, from part to part. -/
theorem traced (k : Moment) : k.Traced k.parts k.machine := k.course.traced k.machine rfl

end Moment

end LoxLang
