import LoxLang.Proofs.Output.Halts

/-! Runs with a limit on the output beside the same runs without one: they are the same, but for those that halt because a
value was refused. -/

namespace LoxLang

namespace Sink

/-- The sink without its limit. -/
def uncapped (s : Sink) : Sink := { s with capacity := none }

variable {s : Sink}

theorem writeLine_uncapped {line : String} (h : (s.writeLine line).1 = true) :
    s.uncapped.writeLine line = (true, (s.writeLine line).2.uncapped) := by
  unfold writeLine uncapped at *
  cases hc : s.capacity with
  | none => simp
  | some room =>
    simp only [hc] at h ⊢
    split at h
    · rename_i hroom
      rw [if_pos hroom]
    · cases h

theorem writeLines_uncapped {lines : List String} (h : (s.writeLines lines).1 = true) :
    s.uncapped.writeLines lines = (true, (s.writeLines lines).2.uncapped) := by
  induction lines generalizing s with
  | nil => rfl
  | cons line rest ih =>
    cases hline : (s.writeLine line).1 with
    | false => simp [writeLines, hline] at h
    | true =>
      simp only [writeLines, hline] at h ⊢
      rw [writeLine_uncapped hline]
      exact ih h

/-- A line that is refused is not written, not even in part. -/
theorem text_of_refused {line : String} (h : (s.writeLine line).1 = false) : (s.writeLine line).2.text = s.text := by
  unfold writeLine at *
  cases hc : s.capacity with
  | none => simp [hc] at h
  | some room =>
    simp only [hc] at h ⊢
    split at h
    · cases h
    · rename_i hroom
      rw [if_neg hroom]

end Sink

/-- The machine without a limit on its output. -/
def Machine.uncapped (m : Machine) : Machine := { m with output := m.output.uncapped }

namespace Run

/-- Without a limit on the output the run is the same, unless output fails, and then for the given reason. -/
def Lifts {α : Type} (P : Prop) (run : Run α) (m : Machine) : Prop :=
  match run m with
  | .ok a t => run m.uncapped = .ok a t.uncapped
  | .error k t => k = .outputFailed ∧ P ∨ k ≠ .outputFailed ∧ run m.uncapped = .error k t.uncapped

variable {P Q : Prop} {α β : Type} {m : Machine}

section Rules

variable {run : Run α} {next : α → Run β}

theorem Lifts.mono (h : Lifts P run m) (hP : P → Q) : Lifts Q run m := by
  unfold Lifts at h ⊢
  split at h
  · exact h
  · exact h.imp_left (And.imp_right hP)

theorem Lifts.bind (h : Lifts P run m) (hn : ∀ a t, run m = .ok a t → Lifts P (next a) t) :
    Lifts P (run >>= next) m := by
  unfold Lifts at h ⊢
  cases e : run m with
  | ok a t =>
    rw [e] at h
    rw [Halting.bind_of_ok e, Halting.bind_of_ok h]
    exact hn a t e
  | error k t =>
    rw [e] at h
    rw [Halting.bind_of_error e]
    exact h.imp_right (And.imp_right Halting.bind_of_error)

theorem lifts_pure (a : α) : Lifts P (pure a) m := rfl

theorem lifts_fail (t : Token) (cause : RuntimeFault) : Lifts P (fail t cause : Run α) m := .inr ⟨nofun, rfl⟩

theorem lifts_exhausted : Lifts P (throw .exhausted : Run α) m := .inr ⟨nofun, rfl⟩

/-- Nothing but a write depends on the output. -/
theorem lifts_get {next : Machine → Run β} (h : Lifts P (next m) m) (hsame : next m.uncapped = next m) :
    Lifts P (get >>= next) m := by
  have hget : (get >>= next) m.uncapped = next m m.uncapped := congrFun hsame m.uncapped
  unfold Lifts at h ⊢
  rw [hget]
  exact h

theorem lifts_inStore (f : Store → α × Store) : Lifts P (inStore f) m := rfl

theorem lifts_inFrames (f : Frames → α × Frames) : Lifts P (inFrames f) m := rfl

theorem lifts_define (name : String) (v : Value) : Lifts P (define name v) m := rfl

theorem lifts_inFrame {f : FrameId} (h : Lifts P run { m with current := f }) : Lifts P (inFrame f run) m := by
  have hsame : ({ m with current := f } : Machine).uncapped = { m.uncapped with current := f } := rfl
  unfold Lifts inFrame at *
  rw [hsame] at h
  cases e : run { m with current := f } <;> simp only [e] at h ⊢
  · rw [h]
    rfl
  · exact h.imp_right (And.imp_right fun h => by rw [h]; rfl)

theorem lifts_asCall (h : Lifts P run { m with depth := m.depth + 1 }) : Lifts P (asCall run) m := by
  have hsame : ({ m with depth := m.depth + 1 } : Machine).uncapped = { m.uncapped with depth := m.uncapped.depth + 1 } := rfl
  unfold Lifts asCall at *
  rw [hsame] at h
  cases e : run { m with depth := m.depth + 1 } <;> simp only [e] at h ⊢
  · rw [h]
    rfl
  · exact h.imp_right (And.imp_right fun h => by rw [h]; rfl)

theorem lifts_print {v : Value} (h : m.Refuses v → P) : Lifts P (print v) m := by
  unfold Lifts print
  cases e : (m.output.writeLine (m.store.display v)).1 with
  | false => simp only [e]; exact .inl ⟨rfl, h e⟩
  | true =>
    have hwrite : m.uncapped.output.writeLine (m.uncapped.store.display v) = _ := Sink.writeLine_uncapped e
    simp only [e, hwrite]
    rfl

end Rules

section Expressions

theorem lifts_read (id : NodeId) (name : Token) : Lifts P (read id name) m := by
  refine lifts_get ?_ rfl
  dsimp only
  split
  · exact lifts_pure _
  · exact lifts_fail _ _

theorem lifts_assign (id : NodeId) (name : Token) (v : Value) : Lifts P (assign id name v) m := by
  refine lifts_get (Lifts.bind (lifts_inFrames _) fun assigned _ _ => ?_) rfl
  split
  · exact lifts_pure _
  · exact lifts_fail _ _

theorem lifts_boundMethod (c : ClassId) (o : ObjectId) (name : Token) : Lifts P (boundMethod c o name) m := by
  refine lifts_get ?_ rfl
  split
  · exact lifts_inStore _
  · exact lifts_fail _ _

theorem lifts_property (o : ObjectId) (name : Token) : Lifts P (property o name) m := by
  refine lifts_get ?_ rfl
  split
  · exact lifts_pure _
  · exact lifts_boundMethod _ _ _
  · exact lifts_fail _ _

theorem lifts_inherited (id : NodeId) (keyword method : Token) : Lifts P (inherited id keyword method) m := by
  refine lifts_get ?_ rfl
  split
  · exact lifts_fail _ _
  · split
    · split
      · exact lifts_fail _ _
      · split
        · exact lifts_boundMethod _ _ _
        · exact lifts_fail _ _
    · exact lifts_fail _ _

theorem lifts_sum (operator : Token) (a b : Value) : Lifts P (sum operator a b) m := by
  unfold sum
  split <;> first | exact lifts_pure _ | exact lifts_fail _ _

theorem lifts_onNumbers (operator : Token) (f : Number → Number → Value) (a b : Value) :
    Lifts P (onNumbers operator f a b) m := by
  unfold onNumbers
  split <;> first | exact lifts_pure _ | exact lifts_fail _ _

theorem lifts_binary (operator : Token) (a b : Value) : Lifts P (binary operator a b) m := by
  unfold binary
  split <;> first
    | exact lifts_sum _ _ _
    | exact lifts_onNumbers _ _ _ _
    | exact lifts_pure _
    | exact lifts_fail _ _

theorem lifts_unary (operator : Token) (a : Value) : Lifts P (unary operator a) m := by
  unfold unary
  split
  · split <;> first | exact lifts_pure _ | exact lifts_fail _ _
  · exact lifts_pure _

theorem lifts_admitCall (paren : Token) (callee : Value) (given : Nat) : Lifts P (admitCall paren callee given) m := by
  refine lifts_get ?_ rfl
  split
  · exact lifts_fail _ _
  · split
    · exact lifts_fail _ _
    · split <;> first | exact lifts_pure _ | exact lifts_fail _ _

theorem lifts_superclassOf (superclass : NameUse) : Lifts P (superclassOf superclass) m := by
  refine Lifts.bind (lifts_read _ _) fun v _ _ => ?_
  split
  · exact lifts_pure _
  · exact lifts_fail _ _

theorem lifts_declareFunction (f : Function) : Lifts P (declareFunction f) m :=
  lifts_get (Lifts.bind (lifts_inStore _) fun _ _ _ => lifts_define _ _) rfl

theorem lifts_declareClass (name : Token) (superclass : Option ClassId) (methods : List Function) :
    Lifts P (declareClass name superclass methods) m :=
  Lifts.bind (lifts_define _ _) fun _ _ _ => lifts_get (Lifts.bind (lifts_inStore _) fun _ _ _ => lifts_define _ _) rfl

end Expressions

end Run

/-- At some moment from here on a value is refused. -/
def Moment.Refused (k : Moment) : Prop := ∃ k' m v, k.Visits k' ∧ k'.Prints m v ∧ m.Refuses v

theorem Moment.refused_of_starts {k k' : Moment} (h : k.Starts k') : k'.Refused → k.Refused := by
  rintro ⟨k'', m, v, hvisits, hprints⟩
  exact ⟨k'', m, v, .head h hvisits, hprints⟩

open Run Moment

section Parts

variable {n : Nat} {P : Prop} (he : ∀ d e m, Lifts (Refused ⟨n, .expr d e, m⟩) (eval n e) m)
  (hs : ∀ s m, Lifts (Refused ⟨n, .stmt s, m⟩) (exec n s) m)

include he in
theorem lifts_each (d : Option Token) : ∀ (es : List Expr) (m : Machine),
    Lifts (Refused ⟨n, .arguments d es, m⟩) (each (eval n) es) m
  | [], _ => lifts_pure _
  | e :: rest, m => by
    refine Lifts.bind ((he d e m).mono (refused_of_starts .argument)) fun v m' e' => ?_
    exact Lifts.bind ((lifts_each d rest m').mono (refused_of_starts (.others e'))) fun _ _ _ => lifts_pure _

include he in
theorem lifts_first {d : Option Token} {e e' : Expr} {m : Machine} (h : e.first? = some e') :
    Lifts (Refused ⟨n + 1, .expr d e, m⟩) (eval n e') m := (he _ _ _).mono (refused_of_starts (.first h))

include he in
theorem lifts_second {d : Option Token} {e e' e'' : Expr} {a : Value} {m m' : Machine} (h : e.first? = some e')
    (h' : eval n e' m = .ok a m') (h'' : e.second? a = some e'') :
    Lifts (Refused ⟨n + 1, .expr d e, m⟩) (eval n e'') m' := (he _ _ _).mono (refused_of_starts (.second h h' h''))

include he in
theorem lifts_value {d : Option Token} {s : Stmt} {e : Expr} {m : Machine} (h : s.value? = some (d, e)) :
    Lifts (Refused ⟨n + 1, .stmt s, m⟩) (eval n e) m := (he _ _ _).mono (refused_of_starts (.value h))

include hs

theorem lifts_sequence : ∀ (body : List Stmt) (m : Machine),
    Lifts (Refused ⟨n, .body body, m⟩) (sequence (exec n) body) m
  | [], _ => lifts_pure _
  | s :: rest, m => by
    refine Lifts.bind ((hs s m).mono (refused_of_starts .statement)) fun completion m' e => ?_
    cases completion with
    | normal => exact (lifts_sequence rest m').mono (refused_of_starts (.rest e))
    | returned v => exact lifts_pure _

theorem lifts_inNewFrame {m : Machine} {outer : FrameId} {names : Names} {body : List Stmt}
    (hP : Refused ⟨n, .body body, m.enter outer names⟩ → P) : Lifts P (inNewFrame (exec n) outer names body) m :=
  Lifts.bind (lifts_inStore _) fun frame m' e => by
    cases e
    exact lifts_inFrame ((lifts_sequence hs body (m.enter outer names)).mono hP)

theorem lifts_callClosure {m : Machine} {k : Closure FrameId} {arguments : List Value}
    (hP : Refused ⟨n, .body k.declared.body, m.enter k.home (parameterNames k.declared.parameters arguments)⟩ → P) :
    Lifts P (callClosure (exec n) k arguments) m := by
  refine Lifts.bind (lifts_inNewFrame hs hP) fun completion m' _ => ?_
  split
  · exact lifts_get (lifts_pure _) rfl
  · split <;> exact lifts_pure _

/-- A call writes what its body writes. -/
theorem lifts_call {m : Machine} {f : Value} {arguments : List Value}
    (hP : ∀ body m', m.called? arguments f = some (body, m') → Refused ⟨n, .body body, m'⟩ → P) :
    Lifts P (call (exec n) f arguments) m := by
  cases f with
  | nil | bool | number | string | object => exact lifts_pure _
  | native id => exact lifts_get (lifts_pure _) rfl
  | function id =>
    refine lifts_get ?_ rfl
    cases hk : m.store.closures[id]? with
    | none => exact lifts_pure _
    | some k => exact lifts_callClosure hs (hP _ _ (by simp [Machine.called?, hk, Machine.called?.enterBody]))
  | cls id =>
    refine Lifts.bind (lifts_inStore _) fun o m' e => ?_
    cases e
    refine lifts_get ?_ rfl
    split
    · rename_i method hmethod
      refine Lifts.bind (lifts_inStore _) fun closure m' e => ?_
      cases e
      refine Lifts.bind (lifts_callClosure hs (hP _ _ ?_)) fun _ _ _ => lifts_pure _
      exact Option.map_eq_some_iff.mpr ⟨method, hmethod, rfl⟩
    · exact lifts_pure _

include he in
theorem lifts_eval_succ (d : Option Token) (e : Expr) (m : Machine) :
    Lifts (Refused ⟨n + 1, .expr d e, m⟩) (eval (n + 1) e) m := by
  cases e with
  | literal value => exact lifts_pure _
  | grouping inner => exact lifts_first he rfl
  | unary operator operand => exact (lifts_first he rfl).bind fun a _ _ => lifts_unary operator a
  | binary left operator right =>
    exact (lifts_first he rfl).bind fun a _ h => (lifts_second he rfl h rfl).bind fun b _ _ => lifts_binary operator a b
  | logical left operator right =>
    refine (lifts_first he rfl).bind fun a _ h => ?_
    split
    · exact lifts_pure _
    · rename_i hdecides
      exact lifts_second he rfl h (if_neg hdecides)
  | read id name => exact lifts_read id name
  | assign id name value => exact (lifts_first he rfl).bind fun v _ _ => lifts_assign id name v
  | call callee paren arguments =>
    refine (lifts_first he rfl).bind fun f _ h₁ => ?_
    refine ((lifts_each he d arguments _).mono (refused_of_starts (.arguments h₁))).bind fun values _ h₂ => ?_
    exact (lifts_admitCall _ _ _).bind fun _ _ h₃ => lifts_asCall (lifts_call hs fun body m' hcalled =>
      refused_of_starts (.call h₁ h₂ h₃ hcalled))
  | get object name =>
    refine (lifts_first he rfl).bind fun v _ _ => ?_
    split
    · exact lifts_property _ _
    · exact lifts_fail _ _
  | set object name value =>
    refine (lifts_first he rfl).bind fun v _ h => ?_
    split
    · exact (lifts_second he rfl h rfl).bind fun v _ _ => Lifts.bind (lifts_inStore _) fun _ _ _ => lifts_pure _
    · exact lifts_fail _ _
  | self id keyword => exact lifts_read id keyword
  | inherited id keyword method => exact lifts_inherited id keyword method

include he in
theorem lifts_exec_succ (s : Stmt) (m : Machine) : Lifts (Refused ⟨n + 1, .stmt s, m⟩) (exec (n + 1) s) m := by
  cases s with
  | expression e => exact (lifts_value he rfl).bind fun _ _ _ => lifts_pure _
  | print e =>
    refine (lifts_value he rfl).bind fun v m' h => ?_
    exact (lifts_print fun hrefused => ⟨_, m', v, .refl, .print h, hrefused⟩).bind fun _ _ _ => lifts_pure _
  | var name initial =>
    cases initial with
    | none => exact Lifts.bind (lifts_pure _) fun v _ _ => Lifts.bind (lifts_define _ _) fun _ _ _ => lifts_pure _
    | some e => exact (lifts_value he rfl).bind fun v _ _ => Lifts.bind (lifts_define _ _) fun _ _ _ => lifts_pure _
  | block body => exact lifts_get (lifts_inNewFrame hs (refused_of_starts .block)) rfl
  | branch condition yes no =>
    refine (lifts_value he rfl).bind fun v _ h => ?_
    split
    · rename_i hv
      exact (hs yes _).mono (refused_of_starts (.chosen rfl h (if_pos hv)))
    · rename_i hv
      cases no with
      | none => exact lifts_pure _
      | some s => exact (hs s _).mono (refused_of_starts (.chosen rfl h (if_neg hv)))
  | loop condition body =>
    refine (lifts_value he rfl).bind fun v _ h => ?_
    split
    · rename_i hv
      have hbody := (hs body _).mono (refused_of_starts (.chosen (s := .loop condition body) rfl h (if_pos hv)))
      refine hbody.bind fun completion _ h' => ?_
      cases completion with
      | normal => exact (hs _ _).mono (refused_of_starts (.again h hv h'))
      | returned v => exact lifts_pure _
    · exact lifts_pure _
  | function f => exact (lifts_declareFunction f).bind fun _ _ _ => lifts_pure _
  | ret keyword value =>
    cases value with
    | none => exact lifts_pure _
    | some e => exact (lifts_value he rfl).bind fun _ _ _ => lifts_pure _
  | classDecl name superclass methods =>
    cases superclass with
    | none =>
      exact Lifts.bind (lifts_pure _) fun _ _ _ => (lifts_declareClass _ _ _).bind fun _ _ _ => lifts_pure _
    | some u =>
      exact (lifts_superclassOf u).bind fun _ _ _ => Lifts.bind (lifts_pure _) fun _ _ _ =>
        (lifts_declareClass _ _ _).bind fun _ _ _ => lifts_pure _

end Parts

/-- Without a limit on the output code runs in the same way, unless at some moment a value is refused. -/
theorem lifts_evaluators (n : Nat) : (∀ d e m, Lifts (Refused ⟨n, .expr d e, m⟩) (eval n e) m) ∧
    ∀ s m, Lifts (Refused ⟨n, .stmt s, m⟩) (exec n s) m := by
  induction n with
  | zero => exact ⟨fun _ _ _ => lifts_exhausted, fun _ _ => lifts_exhausted⟩
  | succ n ih => exact ⟨lifts_eval_succ ih.1 ih.2, lifts_exec_succ ih.1 ih.2⟩

theorem lifts_interpret (n : Nat) : ∀ (statements : List Stmt) (m : Machine),
    Lifts (Refused ⟨n, .unit statements, m⟩) (interpret n statements) m
  | [], _ => lifts_pure _
  | s :: rest, m => by
    have hperform : Lifts (Refused ⟨n, .unit (s :: rest), m⟩) (perform n s) m := by
      refine lifts_get ?_ rfl
      split
      · rename_i e hprompt
        refine (((lifts_evaluators n).1 none e m).mono (refused_of_starts (.shown hprompt))).bind fun v m' h => ?_
        exact lifts_print fun hrefused => ⟨_, m', v, .refl, .shown hprompt h, hrefused⟩
      · rename_i hother
        refine Lifts.bind (((lifts_evaluators n).2 _ m).mono (refused_of_starts (.performed fun e h => ?_))) fun _ _ _ =>
          lifts_pure _
        simpa using hother e h
    exact hperform.bind fun _ m' h => (lifts_interpret n rest m').mono (refused_of_starts (.next h))

end LoxLang
