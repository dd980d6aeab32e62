import LoxLang.Proofs.Compositional

/-! Code that does not know whether it runs at a prompt, nor what was written before it. Only the statements of a unit
do, and only the outermost. -/

namespace LoxLang

namespace Machine

/-- The machine at a prompt or not, with a text in an output that takes everything. -/
def writing (m : Machine) (prompt : Bool) (text : String) : Machine := { m with prompt := prompt, output := ⟨text, none⟩ }

/-- The machine without a prompt and with nothing written. -/
def silent (m : Machine) : Machine := m.writing false ""

/-- The machine with a text before what it has written. -/
def behind (m : Machine) (prompt : Bool) (before : String) : Machine := m.writing prompt (before ++ m.output.text)

theorem silent_behind (m : Machine) (prompt : Bool) (before : String) :
    m.silent.behind prompt before = m.writing prompt before := by
  unfold behind silent writing
  rw [String.append_empty]

end Machine

namespace Run

/-- The run ends in one way, at a prompt or not and whatever was written before it, and its own writing is taken. -/
def Oblivious {α : Type} (run : Run α) : Prop := ∀ m : Machine,
  (∃ a, ∃ t : Machine, ∀ prompt before, run (m.behind prompt before) = .ok a (t.behind prompt before)) ∨
    ∃ k, ∃ t : Machine, k ≠ .outputFailed ∧
      ∀ prompt before, run (m.behind prompt before) = .error k (t.behind prompt before)

variable {α β : Type}

section Rules

variable {run : Run α}

/-- What a run does with nothing written before it tells what it does elsewhere. -/
theorem Oblivious.ok (h : Oblivious run) {m t : Machine} {a : α} (e : run m.silent = .ok a t) (prompt : Bool)
    (before : String) : run (m.writing prompt before) = .ok a (t.behind prompt before) := by
  rcases h m.silent with ⟨a', t', hrun⟩ | ⟨k, t', -, hrun⟩
  · obtain ⟨rfl, rfl⟩ := EStateM.Result.ok.inj (e.symm.trans (hrun false ""))
    rw [← Machine.silent_behind, hrun]
    simp [Machine.behind, Machine.writing]
  · exact nomatch e.symm.trans (hrun false "")

theorem Oblivious.error (h : Oblivious run) {m t : Machine} {k : Halt} (e : run m.silent = .error k t) :
    k ≠ .outputFailed ∧ ∀ prompt before, run (m.writing prompt before) = .error k (t.behind prompt before) := by
  rcases h m.silent with ⟨a, t', hrun⟩ | ⟨k', t', hk, hrun⟩
  · exact nomatch e.symm.trans (hrun false "")
  · obtain ⟨rfl, rfl⟩ := EStateM.Result.error.inj (e.symm.trans (hrun false ""))
    refine ⟨hk, fun prompt before => ?_⟩
    rw [← Machine.silent_behind, hrun]
    simp [Machine.behind, Machine.writing]

theorem oblivious_pure (a : α) : Oblivious (pure a) := fun m => .inl ⟨a, m, fun _ _ => rfl⟩

theorem oblivious_exhausted : Oblivious (throw .exhausted : Run α) := fun m =>
  .inr ⟨.exhausted, m, nofun, fun _ _ => rfl⟩

theorem oblivious_fail (t : Token) (cause : RuntimeFault) : Oblivious (fail t cause : Run α) := fun m =>
  .inr ⟨.error ⟨cause, t.line⟩, m, nofun, fun _ _ => rfl⟩

theorem oblivious_bind {next : α → Run β} (h : Oblivious run) (hn : ∀ a, Oblivious (next a)) :
    Oblivious (run >>= next) := by
  intro m
  rcases h m with ⟨a, t, hrun⟩ | ⟨k, t, hk, hrun⟩
  · rcases hn a t with ⟨b, u, hnext⟩ | ⟨k, u, hk, hnext⟩
    · exact .inl ⟨b, u, fun prompt before => (Halting.bind_of_ok (hrun prompt before)).trans (hnext prompt before)⟩
    · exact .inr ⟨k, u, hk, fun prompt before => (Halting.bind_of_ok (hrun prompt before)).trans (hnext prompt before)⟩
  · exact .inr ⟨k, t, hk, fun prompt before => Halting.bind_of_error (hrun prompt before)⟩

/-- What a run reads of the machine is neither the prompt flag nor the output. -/
theorem oblivious_get {next : Machine → Run β} (hn : ∀ m, Oblivious (next m))
    (hsame : ∀ m prompt before, next (m.behind prompt before) = next m) : Oblivious (get >>= next) := by
  intro m
  have hget : ∀ prompt before, (get >>= next) (m.behind prompt before) = next m (m.behind prompt before) :=
    fun prompt before => congrFun (hsame m prompt before) _
  simp only [hget]
  exact hn m m

theorem oblivious_inStore (f : Store → α × Store) : Oblivious (inStore f) := fun m =>
  .inl ⟨(f m.store).1, { m with store := (f m.store).2 }, fun _ _ => rfl⟩

theorem oblivious_define (name : String) (v : Value) : Oblivious (define name v) := fun m =>
  .inl ⟨(), { m with store := { m.store with frames := m.store.frames.define m.current name v } }, fun _ _ => rfl⟩

theorem oblivious_print (v : Value) : Oblivious (print v) := fun m =>
  .inl ⟨(), m.writing m.prompt (m.output.text ++ (m.store.display v ++ "\n")), fun prompt before => by
    simp [print, Sink.writeLine, Machine.behind, Machine.writing, String.append_assoc]⟩

theorem oblivious_inFrame (frame : FrameId) (h : Oblivious run) : Oblivious (inFrame frame run) := by
  intro m
  have hsame : ∀ prompt before,
      ({ m.behind prompt before with current := frame } : Machine) = { m with current := frame }.behind prompt before :=
    fun _ _ => rfl
  unfold inFrame
  simp only [hsame]
  rcases h { m with current := frame } with ⟨a, t, hrun⟩ | ⟨k, t, hk, hrun⟩ <;> simp only [hrun]
  · exact .inl ⟨a, { t with current := m.current }, fun _ _ => rfl⟩
  · exact .inr ⟨k, { t with current := m.current }, hk, fun _ _ => rfl⟩

theorem oblivious_asCall (h : Oblivious run) : Oblivious (asCall run) := by
  intro m
  have hsame : ∀ prompt before, ({ m.behind prompt before with depth := m.depth + 1 } : Machine) =
      { m with depth := m.depth + 1 }.behind prompt before := fun _ _ => rfl
  have hdepth : ∀ prompt before, (m.behind prompt before).depth = m.depth := fun _ _ => rfl
  unfold asCall
  simp only [hdepth, hsame]
  rcases h { m with depth := m.depth + 1 } with ⟨a, t, hrun⟩ | ⟨k, t, hk, hrun⟩ <;> simp only [hrun]
  · exact .inl ⟨a, { t with depth := m.depth }, fun _ _ => rfl⟩
  · exact .inr ⟨k, { t with depth := m.depth }, hk, fun _ _ => rfl⟩

end Rules

theorem compositional_oblivious : Compositional @Oblivious where
  pure := oblivious_pure
  exhausted := oblivious_exhausted
  fail := oblivious_fail
  bind := oblivious_bind
  get h hsame := oblivious_get h fun m prompt _ => hsame m prompt _
  inStore := oblivious_inStore
  define := oblivious_define
  print := oblivious_print
  inFrame frame _ := oblivious_inFrame frame
  asCall := oblivious_asCall

end Run

open Run

theorem oblivious_eval (n : Nat) (e : Expr) : Oblivious (eval n e) := compositional_oblivious.eval n e

theorem oblivious_exec (n : Nat) (s : Stmt) : Oblivious (exec n s) := compositional_oblivious.exec n s

end LoxLang
