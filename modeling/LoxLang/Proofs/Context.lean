import LoxLang.Proofs.Compositional

/-! What every run leaves as it found it, however it ends: the frame in which the program runs, the global
frame, the number of active calls, the distances and the prompt flag. -/

namespace LoxLang

/-- The part of a machine that a run gives back unchanged. -/
structure Context where
  globals : FrameId
  current : FrameId
  depth : Nat
  bindings : Bindings
  prompt : Bool

def Machine.context (m : Machine) : Context := ⟨m.globals, m.current, m.depth, m.bindings, m.prompt⟩

namespace Run

/-- Wherever it begins and however it ends, the run leaves the context as it was. -/
def Steady {α : Type} (run : Run α) : Prop := ∀ m, (run.after m).context = m.context

variable {α β : Type}

theorem Steady.of_ok {run : Run α} {a : α} {m u : Machine} (h : Steady run) (e : run m = .ok a u) :
    u.context = m.context := by
  have hm := h m
  rwa [Halting.after_of_ok e] at hm

theorem steady_pure (a : α) : Steady (pure a) := fun _ => rfl

theorem steady_get : Steady (get : Run Machine) := fun _ => rfl

theorem steady_throw (h : Halt) : Steady (throw h : Run α) := fun _ => rfl

theorem steady_bind {run : Run α} {next : α → Run β} (h : Steady run) (hn : ∀ a, Steady (next a)) :
    Steady (run >>= next) := by
  intro m
  cases e : run m with
  | ok a u =>
    rw [← h.of_ok e, ← hn a u]
    simp only [Halting.after, Halting.bind_of_ok e]
  | error k u =>
    have hm := h m
    rw [Halting.after_of_error e] at hm
    rw [← hm, Halting.after_of_error (Halting.bind_of_error e)]

theorem steady_inStore (f : Store → α × Store) : Steady (inStore f) := fun _ => rfl

theorem steady_define (name : String) (v : Value) : Steady (define name v) := fun _ => rfl

theorem steady_print (v : Value) : Steady (print v) := by
  intro m
  unfold Halting.after print
  cases h : (m.output.writeLine (m.store.display v)).1 <;> simp only [h] <;> rfl

/-- The frame given up on entry comes back on every exit. -/
theorem steady_inFrame (frame : FrameId) {run : Run α} (h : Steady run) : Steady (inFrame frame run) := by
  intro m
  have hm := h { m with current := frame }
  unfold Halting.after inFrame
  unfold Halting.after at hm
  cases e : run { m with current := frame } <;> simp only [e, Machine.context, Context.mk.injEq] at hm ⊢ <;>
    exact ⟨hm.1, trivial, hm.2.2⟩

/-- A call counted on entry is no longer counted on any exit. -/
theorem steady_asCall {run : Run α} (h : Steady run) : Steady (asCall run) := by
  intro m
  have hm := h { m with depth := m.depth + 1 }
  unfold Halting.after asCall
  unfold Halting.after at hm
  cases e : run { m with depth := m.depth + 1 } <;> simp only [e, Machine.context, Context.mk.injEq] at hm ⊢ <;>
    exact ⟨hm.1, hm.2.1, trivial, hm.2.2.2⟩

theorem compositional_steady : Compositional @Steady where
  pure := steady_pure
  exhausted := steady_throw _
  fail _ _ := steady_throw _
  bind := steady_bind
  get h _ := steady_bind steady_get h
  inStore := steady_inStore
  define := steady_define
  print := steady_print
  inFrame frame _ := steady_inFrame frame
  asCall := steady_asCall

theorem steady_admitCall (paren : Token) (callee : Value) (given : Nat) : Steady (admitCall paren callee given) :=
  compositional_steady.admitCall paren callee given

theorem steady_each {run : Expr → Run Value} (h : ∀ e, Steady (run e)) (es : List Expr) : Steady (each run es) :=
  compositional_steady.each h es

section Bodies

variable {run : Stmt → Run Completion} (h : ∀ s, Steady (run s))

include h

theorem steady_sequence (body : List Stmt) : Steady (sequence run body) := compositional_steady.sequence h body

theorem steady_inNewFrame (outer : FrameId) (names : Names) (body : List Stmt) :
    Steady (inNewFrame run outer names body) := compositional_steady.inNewFrame h outer names body

theorem steady_call (callee : Value) (arguments : List Value) : Steady (call run callee arguments) :=
  compositional_steady.call h callee arguments

end Bodies

end Run

open Run

theorem steady_eval (n : Nat) (e : Expr) : Steady (eval n e) := compositional_steady.eval n e

theorem steady_exec (n : Nat) (s : Stmt) : Steady (exec n s) := compositional_steady.exec n s

theorem steady_perform (n : Nat) (s : Stmt) : Steady (perform n s) := by
  refine steady_bind steady_get fun m => ?_
  split
  · exact steady_bind (steady_eval n _) fun v => steady_print v
  · exact steady_bind (steady_exec n _) fun _ => steady_pure _

theorem steady_interpret (n : Nat) (statements : List Stmt) : Steady (interpret n statements) := by
  induction statements with
  | nil => exact steady_pure _
  | cons s rest ih => exact steady_bind (steady_perform n s) fun _ => ih

end LoxLang
