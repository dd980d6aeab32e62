import LoxLang.Evaluation.Eval
import Mathlib.Tactic

/-! How runs compose: the state a run leaves off in, however it ends, and the equations of the operations
that later proofs use in place of their definitions. -/

namespace LoxLang

/-- The state in which a run leaves off, at its end or at a halt. -/
def Halting.after {σ α : Type} (run : Halting σ α) (s : σ) : σ :=
  match run s with
  | .ok _ s => s
  | .error _ s => s

/-- The reason for which a run halts, if it does. -/
def Halting.halt? {σ α : Type} (run : Halting σ α) (s : σ) : Option Halt :=
  match run s with
  | .ok _ _ => none
  | .error h _ => some h

/-- The value that a run has if it does not halt. -/
def Halting.value? {σ α : Type} (run : Halting σ α) (s : σ) : Option α :=
  match run s with
  | .ok a _ => some a
  | .error _ _ => none

namespace Halting

variable {σ α β : Type} {run : Halting σ α} {next : α → Halting σ β} {s t : σ} {a : α} {h : Halt}

theorem after_of_ok (e : run s = .ok a t) : run.after s = t := by simp only [after, e]

theorem after_of_error (e : run s = .error h t) : run.after s = t := by simp only [after, e]

theorem bind_of_ok (e : run s = .ok a t) : (run >>= next) s = next a t := by
  simp only [bind, EStateM.bind, e]

theorem bind_of_error (e : run s = .error h t) : (run >>= next) s = .error h t := by
  simp only [bind, EStateM.bind, e]

theorem bind_eq_ok {b : β} :
    (run >>= next) s = .ok b t ↔ ∃ a u, run s = .ok a u ∧ next a u = .ok b t := by
  cases e : run s with
  | ok a u => simp [bind_of_ok e]
  | error h u => simp [bind_of_error e]

theorem get_apply (s : σ) : (get : Halting σ σ) s = .ok s s := rfl

end Halting

namespace Machine

/-- In a new frame inside the given one. -/
def enter (m : Machine) (outer : FrameId) (names : Names) : Machine :=
  { m with store := (m.store.addFrame (some outer) names).2, current := m.store.frames.next }

/-- The value that a read finds. -/
def found? (m : Machine) (id : NodeId) (x : String) : Option Value :=
  match m.bindings[id]? with
  | some d => m.store.frames.getAt? m.current d x
  | none => m.store.frames.get? m.globals x

/-- The frames once an assignment has been tried, and whether it took place. -/
def assigned (m : Machine) (id : NodeId) (x : String) (v : Value) : Bool × Frames :=
  match m.bindings[id]? with
  | some d => m.store.frames.assignAt m.current d x v
  | none => m.store.frames.assign m.globals x v

section Distances

variable {m : Machine} {id : NodeId} {d : Nat} (h : m.bindings[id]? = some d)

include h

theorem found?_of_distance (x : String) : m.found? id x = m.store.frames.getAt? m.current d x := by
  rw [found?, h]

theorem assigned_of_distance (x : String) (v : Value) :
    m.assigned id x v = m.store.frames.assignAt m.current d x v := by
  rw [assigned, h]

end Distances

def withFrames (m : Machine) (fs : Frames) : Machine := { m with store := { m.store with frames := fs } }

def withHeap (m : Machine) (heap : Heap FrameId) : Machine := { m with store := { m.store with toHeap := heap } }

end Machine

namespace Run

variable {m : Machine} {id : NodeId} {name : Token}

theorem read_apply : read id name m = (match m.found? id name.lexeme with
    | some v => pure v
    | none => fail name (.undefinedVariable name.lexeme) : Run Value) m := rfl

theorem read_of_found {v : Value} (h : m.found? id name.lexeme = some v) : read id name m = .ok v m := by
  rw [read_apply, h]
  rfl

theorem read_of_missing (h : m.found? id name.lexeme = none) :
    read id name m = .error (.error ⟨.undefinedVariable name.lexeme, name.line⟩) m := by
  rw [read_apply, h]
  rfl

theorem assign_of_assigned {v : Value} {fs : Frames} (h : m.assigned id name.lexeme v = (true, fs)) :
    assign id name v m = .ok v (m.withFrames fs) := by
  change (if (m.assigned id name.lexeme v).1 then pure v else fail name (.undefinedVariable name.lexeme) : Run Value)
    (m.withFrames (m.assigned id name.lexeme v).2) = _
  rw [h]
  rfl

theorem assign_of_refused {v : Value} {fs : Frames} (h : m.assigned id name.lexeme v = (false, fs)) :
    assign id name v m = .error (.error ⟨.undefinedVariable name.lexeme, name.line⟩) (m.withFrames fs) := by
  change (if (m.assigned id name.lexeme v).1 then pure v else fail name (.undefinedVariable name.lexeme) : Run Value)
    (m.withFrames (m.assigned id name.lexeme v).2) = _
  rw [h]
  rfl

theorem inNewFrame_apply (exec : Stmt → Run Completion) (outer : FrameId) (names : Names) (body : List Stmt) :
    inNewFrame exec outer names body m =
      match sequence exec body (m.enter outer names) with
      | .ok completion m' => .ok completion { m' with current := m.current }
      | .error k m' => .error k { m' with current := m.current } := by
  change inFrame m.store.frames.next (sequence exec body)
    { m with store := (m.store.addFrame (some outer) names).2 } = _
  cases h : sequence exec body (m.enter outer names) <;>
  · unfold Machine.enter at h
    simp only [inFrame, h]

section Calls

variable {exec : Stmt → Run Completion} {m : Machine}

theorem call_function_eq (id : ClosureId) (values : List Value) :
    call exec (.function id) values m = (match m.store.closures[id]? with
      | some k => callClosure exec k values
      | none => pure .nil : Run Value) m := rfl

/-- An instance is made before anything of the class is run. -/
theorem call_cls_eq (id : ClassId) (values : List Value) : call exec (.cls id) values m =
    (match (m.store.inHeap fun h => h.addObject id).2.initializer? id with
      | some method => inStore (fun s => s.bind method m.store.objects.size) >>= fun k =>
        callClosure exec k values >>= fun _ => pure (.object m.store.objects.size)
      | none => pure (.object m.store.objects.size) : Run Value)
      { m with store := (m.store.inHeap fun h => h.addObject id).2 } := rfl

end Calls

end Run

end LoxLang
