import LoxLang.Proofs.Captures.Writes

/-! Operations that fail before they write. Names, properties and callees are looked at first, and what writes in the end
does not fail. -/

namespace LoxLang

namespace Run

variable {α β : Type} {run : Run α} {next : α → Run β} {m u : Machine} {e : RuntimeError}

/-- An error comes before any change. -/
def Atomic (run : Run α) : Prop := ∀ m e u, run m = .error (.error e) u → u = m

theorem atomic_of_idle (h : ∀ m, run.after m = m) : Atomic run := fun m _ _ hrun =>
  (Halting.after_of_error hrun).symm.trans (h m)

theorem atomic_of_ok (h : ∀ m, ∃ a t, run m = .ok a t) : Atomic run := fun m e u hrun => by
  obtain ⟨a, t, hok⟩ := h m
  cases hrun.symm.trans hok

theorem atomic_pure (a : α) : Atomic (pure a : Run α) := atomic_of_idle fun _ => rfl

theorem atomic_fail (t : Token) (cause : RuntimeFault) : Atomic (fail t cause : Run α) := atomic_of_idle fun _ => rfl

theorem atomic_get {next : Machine → Run β} (h : ∀ m, Atomic (next m)) : Atomic (get >>= next) := fun m => h m m

/-- What never fails can come behind. -/
theorem Atomic.before_ok (h : Atomic run) (hn : ∀ a m, ∃ b t, next a m = .ok b t) : Atomic (run >>= next) := by
  intro m e u hrun
  cases hfirst : run m with
  | ok a t =>
    obtain ⟨b, t', hok⟩ := hn a t
    cases hrun.symm.trans ((Halting.bind_of_ok hfirst).trans hok)
  | error k t =>
    cases hrun.symm.trans (Halting.bind_of_error hfirst)
    exact h m e u hfirst

theorem atomic_assign (id : NodeId) (name : Token) (v : Value) : Atomic (assign id name v) := by
  intro m e u hrun
  by_cases hx : ∃ g, m.target? id name.lexeme = some g ∧ m.store.frames.Has g name.lexeme
  · obtain ⟨g, hg, hx⟩ := hx
    cases hrun.symm.trans (assign_of_assigned (Machine.assigned_of_target hg hx v))
  · have hmissing := Machine.assigned_of_missing (v := v) fun g hg hx' => hx ⟨g, hg, hx'⟩
    cases hrun.symm.trans (assign_of_refused hmissing)
    rfl

theorem atomic_boundMethod (c : ClassId) (o : ObjectId) (name : Token) : Atomic (boundMethod c o name) := by
  refine atomic_get fun m => ?_
  split
  · exact atomic_of_ok fun m => ⟨_, _, rfl⟩
  · exact atomic_fail _ _

theorem atomic_property (o : ObjectId) (name : Token) : Atomic (property o name) := by
  refine atomic_get fun m => ?_
  split
  · exact atomic_pure _
  · exact atomic_boundMethod _ _ _
  · exact atomic_fail _ _

theorem atomic_inherited (id : NodeId) (keyword method : Token) : Atomic (inherited id keyword method) := by
  refine atomic_get fun m => ?_
  repeat' split
  all_goals first | exact atomic_fail _ _ | exact atomic_boundMethod _ _ _

theorem atomic_unary (operator : Token) (a : Value) : Atomic (unary operator a) := by
  unfold unary
  repeat' split
  all_goals first | exact atomic_pure _ | exact atomic_fail _ _

theorem atomic_binary (operator : Token) (a b : Value) : Atomic (binary operator a b) := by
  unfold binary sum onNumbers
  repeat' split
  all_goals first | exact atomic_pure _ | exact atomic_fail _ _

/-- Output that is not taken is no error of the program. -/
theorem atomic_print (v : Value) : Atomic (print v) := by
  intro m e u hrun
  unfold print at hrun
  dsimp only at hrun
  split at hrun <;> cases hrun

theorem asCall_of_ok {a : α} {t : Machine} (h : run { m with depth := m.depth + 1 } = .ok a t) :
    asCall run m = .ok a { t with depth := m.depth } := by
  simp only [asCall, h]

theorem after_admitCall (paren : Token) (callee : Value) (given : Nat) (m : Machine) :
    (admitCall paren callee given).after m = m := by
  rw [Halting.after, admitCall_apply]
  cases m.store.arity? callee with
  | none => rfl
  | some expected =>
    dsimp only
    by_cases hgiven : given ≠ expected
    · rw [if_pos hgiven]
      rfl
    · rw [if_neg hgiven]
      by_cases hdepth : maxDepth ≤ m.depth
      · rw [if_pos hdepth]
        rfl
      · rw [if_neg hdepth]
        rfl

theorem after_superclassOf (superclass : NameUse) (m : Machine) : (superclassOf superclass).after m = m := by
  have hread := after_read superclass.id superclass.name m
  cases h : read superclass.id superclass.name m with
  | error k t =>
    rw [Halting.after_of_error h] at hread
    exact (Halting.after_bind_of_error h).trans hread
  | ok v t =>
    rw [Halting.after_of_ok h] at hread
    refine (Halting.after_bind_of_ok h).trans (Eq.trans ?_ hread)
    cases v <;> rfl

end Run

end LoxLang
