import LoxLang.Proofs.Run

/-! What holds of all code because every step has it and a run has it if its parts have. -/

namespace LoxLang

namespace Run

/-- A property of runs that every step has and that passes from the parts of a run to the whole. What a run reads of the
machine is neither the prompt flag nor the output. -/
structure Compositional (P : ∀ {α : Type}, Run α → Prop) : Prop where
  pure {α : Type} (a : α) : P (pure a)
  exhausted {α : Type} : P (throw .exhausted : Run α)
  fail {α : Type} (t : Token) (cause : RuntimeFault) : P (fail t cause : Run α)
  bind {α β : Type} {run : Run α} {next : α → Run β} : P run → (∀ a, P (next a)) → P (run >>= next)
  get {β : Type} {next : Machine → Run β} : (∀ m, P (next m)) →
    (∀ (m : Machine) (prompt : Bool) (output : Sink), next { m with prompt := prompt, output := output } = next m) →
      P (get >>= next)
  inStore {α : Type} (f : Store → α × Store) : P (inStore f)
  define (name : String) (v : Value) : P (define name v)
  print (v : Value) : P (print v)
  inFrame {α : Type} (frame : FrameId) {run : Run α} : P run → P (inFrame frame run)
  asCall {α : Type} {run : Run α} : P run → P (asCall run)

namespace Compositional

variable {P : ∀ {α : Type}, Run α → Prop} (h : Compositional P)

include h

theorem read (id : NodeId) (name : Token) : P (Run.read id name) := by
  refine h.get (fun m => ?_) fun _ _ _ => rfl
  dsimp only
  split
  · exact h.pure _
  · exact h.fail _ _

theorem assign (id : NodeId) (name : Token) (v : Value) : P (Run.assign id name v) := by
  refine h.get (fun m => h.bind (h.inStore _) fun assigned => ?_) fun _ _ _ => rfl
  split
  · exact h.pure _
  · exact h.fail _ _

theorem boundMethod (c : ClassId) (o : ObjectId) (name : Token) : P (Run.boundMethod c o name) := by
  refine h.get (fun m => ?_) fun _ _ _ => rfl
  split
  · exact h.inStore _
  · exact h.fail _ _

theorem property (o : ObjectId) (name : Token) : P (Run.property o name) := by
  refine h.get (fun m => ?_) fun _ _ _ => rfl
  split
  · exact h.pure _
  · exact h.boundMethod _ _ _
  · exact h.fail _ _

theorem inherited (id : NodeId) (keyword method : Token) : P (Run.inherited id keyword method) := by
  refine h.get (fun m => ?_) fun _ _ _ => rfl
  split
  · exact h.fail _ _
  · split
    · split
      · exact h.fail _ _
      · split
        · exact h.boundMethod _ _ _
        · exact h.fail _ _
    · exact h.fail _ _

theorem sum (operator : Token) (a b : Value) : P (Run.sum operator a b) := by
  unfold Run.sum
  split <;> first | exact h.pure _ | exact h.fail _ _

theorem onNumbers (operator : Token) (f : Number → Number → Value) (a b : Value) : P (Run.onNumbers operator f a b) := by
  unfold Run.onNumbers
  split <;> first | exact h.pure _ | exact h.fail _ _

theorem binary (operator : Token) (a b : Value) : P (Run.binary operator a b) := by
  unfold Run.binary
  split <;> first
    | exact h.sum _ _ _
    | exact h.onNumbers _ _ _ _
    | exact h.pure _
    | exact h.fail _ _

theorem unary (operator : Token) (a : Value) : P (Run.unary operator a) := by
  unfold Run.unary
  split
  · split <;> first | exact h.pure _ | exact h.fail _ _
  · exact h.pure _

theorem admitCall (paren : Token) (callee : Value) (given : Nat) : P (Run.admitCall paren callee given) := by
  refine h.get (fun m => ?_) fun _ _ _ => rfl
  split
  · exact h.fail _ _
  · split
    · exact h.fail _ _
    · split <;> first | exact h.pure _ | exact h.fail _ _

theorem each {run : Expr → Run Value} (hrun : ∀ e, P (run e)) (es : List Expr) : P (Run.each run es) := by
  induction es with
  | nil => exact h.pure _
  | cons e rest ih => exact h.bind (hrun e) fun _ => h.bind ih fun _ => h.pure _

section Bodies

variable {run : Stmt → Run Completion} (hrun : ∀ s, P (run s))

include hrun

theorem sequence (body : List Stmt) : P (Run.sequence run body) := by
  induction body with
  | nil => exact h.pure _
  | cons s rest ih =>
    refine h.bind (hrun s) fun completion => ?_
    cases completion with
    | normal => exact ih
    | returned v => exact h.pure _

theorem inNewFrame (outer : FrameId) (names : Names) (body : List Stmt) : P (Run.inNewFrame run outer names body) :=
  h.bind (h.inStore _) fun frame => h.inFrame frame (h.sequence hrun body)

theorem callClosure (c : Closure FrameId) (arguments : List Value) : P (Run.callClosure run c arguments) := by
  refine h.bind (h.inNewFrame hrun _ _ _) fun completion => ?_
  split
  · exact h.get (fun _ => h.pure _) fun _ _ _ => rfl
  · split <;> exact h.pure _

theorem construct (c : ClassId) (arguments : List Value) : P (Run.construct run c arguments) := by
  refine h.bind (h.inStore _) fun o => h.get (fun m => ?_) fun _ _ _ => rfl
  split
  · exact h.bind (h.inStore _) fun closure => h.bind (h.callClosure hrun closure arguments) fun _ => h.pure _
  · exact h.pure _

theorem call (callee : Value) (arguments : List Value) : P (Run.call run callee arguments) := by
  unfold Run.call
  split
  · exact h.get (fun _ => h.pure _) fun _ _ _ => rfl
  · refine h.get (fun m => ?_) fun _ _ _ => rfl
    split
    · exact h.callClosure hrun _ _
    · exact h.pure _
  · exact h.construct hrun _ _
  · exact h.pure _

end Bodies

theorem declareFunction (f : Function) : P (Run.declareFunction f) :=
  h.get (fun _ => h.bind (h.inStore _) fun _ => h.define _ _) fun _ _ _ => rfl

theorem superclassOf (superclass : NameUse) : P (Run.superclassOf superclass) := by
  refine h.bind (h.read _ _) fun v => ?_
  split
  · exact h.pure _
  · exact h.fail _ _

theorem declareClass (name : Token) (superclass : Option ClassId) (methods : List Function) :
    P (Run.declareClass name superclass methods) :=
  h.bind (h.define _ _) fun _ => h.get (fun _ => h.bind (h.inStore _) fun _ => h.define _ _) fun _ _ _ => rfl

section Step

variable {n : Nat} (he : ∀ e, P (LoxLang.eval n e)) (hs : ∀ s, P (LoxLang.exec n s))

include he hs

theorem eval_succ (e : Expr) : P (LoxLang.eval (n + 1) e) := by
  cases e with
  | literal value => exact h.pure _
  | grouping inner => exact he inner
  | unary operator operand => exact h.bind (he operand) fun a => h.unary operator a
  | binary left operator right => exact h.bind (he left) fun a => h.bind (he right) fun b => h.binary operator a b
  | logical left operator right =>
    refine h.bind (he left) fun a => ?_
    split
    · exact h.pure _
    · exact he right
  | read id name => exact h.read id name
  | assign id name value => exact h.bind (he value) fun v => h.assign id name v
  | call callee paren arguments =>
    exact h.bind (he callee) fun f => h.bind (h.each he arguments) fun values =>
      h.bind (h.admitCall _ _ _) fun _ => h.asCall (h.call hs f values)
  | get object name =>
    refine h.bind (he object) fun v => ?_
    split
    · exact h.property _ _
    · exact h.fail _ _
  | set object name value =>
    refine h.bind (he object) fun v => ?_
    split
    · exact h.bind (he value) fun v => h.bind (h.inStore _) fun _ => h.pure _
    · exact h.fail _ _
  | self id keyword => exact h.read id keyword
  | inherited id keyword method => exact h.inherited id keyword method

theorem exec_succ (s : Stmt) : P (LoxLang.exec (n + 1) s) := by
  cases s with
  | expression e => exact h.bind (he e) fun _ => h.pure _
  | print e => exact h.bind (he e) fun v => h.bind (h.print v) fun _ => h.pure _
  | var name initial =>
    cases initial with
    | none => exact h.bind (h.pure _) fun v => h.bind (h.define _ _) fun _ => h.pure _
    | some e => exact h.bind (he e) fun v => h.bind (h.define _ _) fun _ => h.pure _
  | block body => exact h.get (fun _ => h.inNewFrame hs _ _ body) fun _ _ _ => rfl
  | branch condition yes no =>
    refine h.bind (he condition) fun v => ?_
    split
    · exact hs yes
    · cases no with
      | none => exact h.pure _
      | some s => exact hs s
  | loop condition body =>
    refine h.bind (he condition) fun v => ?_
    split
    · refine h.bind (hs body) fun completion => ?_
      cases completion with
      | normal => exact hs _
      | returned v => exact h.pure _
    · exact h.pure _
  | function f => exact h.bind (h.declareFunction f) fun _ => h.pure _
  | ret keyword value =>
    cases value with
    | none => exact h.pure _
    | some e => exact h.bind (he e) fun _ => h.pure _
  | classDecl name superclass methods =>
    cases superclass with
    | none => exact h.bind (h.pure _) fun _ => h.bind (h.declareClass _ _ _) fun _ => h.pure _
    | some u =>
      exact h.bind (h.superclassOf u) fun _ => h.bind (h.pure _) fun _ =>
        h.bind (h.declareClass _ _ _) fun _ => h.pure _

end Step

/-- One induction on the bound for both evaluators, since calls run statements and statements evaluate. -/
theorem evaluators (n : Nat) : (∀ e, P (LoxLang.eval n e)) ∧ ∀ s, P (LoxLang.exec n s) := by
  induction n with
  | zero => exact ⟨fun _ => h.exhausted, fun _ => h.exhausted⟩
  | succ n ih => exact ⟨h.eval_succ ih.1 ih.2, h.exec_succ ih.1 ih.2⟩

theorem eval (n : Nat) (e : Expr) : P (LoxLang.eval n e) := (h.evaluators n).1 e

theorem exec (n : Nat) (s : Stmt) : P (LoxLang.exec n s) := (h.evaluators n).2 s

end Compositional

end Run

end LoxLang
