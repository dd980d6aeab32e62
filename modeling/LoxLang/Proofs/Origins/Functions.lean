import LoxLang.Proofs.Domain.Trees
import LoxLang.Proofs.Heap
import LoxLang.Proofs.Scoping.Moments

/-! Where the functions of a machine come from: each was declared by code that ran. So a property that passes from code to
the code in it, and to the functions that it declares, is one of all functions that there ever are. -/

namespace LoxLang

/-- All functions, and all methods of classes, are as described. -/
structure Store.Only (P : Function → Prop) (s : Store) : Prop where
  closures : ∀ k ∈ s.closures, P k.declared
  methods : ∀ d ∈ s.classes, ∀ (x : String) (k : Closure FrameId), d.methods[x]? = some k → P k.declared

namespace Store.Only

variable {P : Function → Prop} {s : Store} (h : s.Only P)

include h

theorem addClosure {k : Closure FrameId} (hk : P k.declared) : Store.Only P (s.inHeap fun heap => heap.addClosure k).2 where
  closures k' hk' := by
    rcases Array.mem_push.mp hk' with hk' | rfl
    · exact h.closures k' hk'
    · exact hk
  methods := h.methods

theorem addClass {d : ClassDef FrameId} (hd : ∀ (x : String) (k : Closure FrameId), d.methods[x]? = some k → P k.declared) :
    Store.Only P (s.inHeap fun heap => heap.addClass d).2 where
  closures := h.closures
  methods d' hd' := by
    rcases Array.mem_push.mp hd' with hd' | rfl
    · exact h.methods d' hd'
    · exact hd

theorem mono {Q : Function → Prop} (hP : ∀ f, P f → Q f) : s.Only Q :=
  ⟨fun k hk => hP _ (h.closures k hk), fun d hd x k hk => hP _ (h.methods d hd x k hk)⟩

theorem method {c : ClassId} {x : String} {k : Closure FrameId} (hk : s.method? c x = some k) : P k.declared := by
  obtain ⟨d, hd, hx⟩ := Heap.mem_of_method? hk
  exact h.methods d hd x k hx

end Store.Only

/-- What passes from code to the code in it, to the functions that it declares and from these to their bodies, with the
faults that such code may have. The flag tells that the code is inside a block or a function. -/
structure Hereditary (C : Bool → Code → Prop) (P : Function → Prop) (F : RuntimeFault → Prop) : Prop where
  first {b d e e'} : C b (.expr d e) → e.first? = some e' → C b (.expr d e')
  second {b d e e'} {a : Value} : C b (.expr d e) → e.second? a = some e' → C b (.expr d e')
  arguments {b d callee paren es} : C b (.expr d (.call callee paren es)) → C b (.arguments d es)
  argument {b d e es} : C b (.arguments d (e :: es)) → C b (.expr d e)
  others {b d e es} : C b (.arguments d (e :: es)) → C b (.arguments d es)
  value {b d s e} : C b (.stmt s) → s.value? = some (d, e) → C b (.expr d e)
  chosen {b s s'} {v : Value} : C b (.stmt s) → s.chosen? v = some s' → C b (.stmt s')
  block {b body} : C b (.stmt (.block body)) → C true (.body body)
  statement {b s rest} : C b (.body (s :: rest)) → C b (.stmt s)
  rest {b s rest} : C b (.body (s :: rest)) → C b (.body rest)
  function {b f} : C b (.stmt (.function f)) → P f
  methods {b name superclass fs} : C b (.stmt (.classDecl name superclass fs)) → ∀ f ∈ fs, P f
  body {f} : P f → C true (.body f.body)
  fault {cause} : (∀ x, cause ≠ .unknownOperator x) → F cause
  operator {b d left operator right} : C b (.expr d (.binary left operator right)) → operator.kind ∉ Kind.binary →
    F (.unknownOperator operator.lexeme)

namespace Run

/-- However the run ends, all functions are as described if they were before; if it fails, then with one of the faults. -/
def Obeys {α : Type} (P : Function → Prop) (F : RuntimeFault → Prop) (run : Run α) : Prop :=
  ∀ m, m.store.Only P → match run m with
    | .ok _ m' => m'.store.Only P
    | .error k m' => m'.store.Only P ∧ ∀ e, k = .error e → F e.cause

variable {C : Bool → Code → Prop} {P : Function → Prop} {F : RuntimeFault → Prop} {α β : Type}

section Rules

theorem Obeys.after {run : Run α} (h : Obeys P F run) {m : Machine} (hm : m.store.Only P) : (run.after m).store.Only P := by
  have hrun := h m hm
  unfold Halting.after
  cases e : run m with
  | ok a u =>
    rw [e] at hrun
    exact hrun
  | error k u =>
    rw [e] at hrun
    exact hrun.1

theorem obeys_pure (a : α) : Obeys P F (pure a) := fun _ h => h

theorem obeys_exhausted : Obeys P F (throw .exhausted : Run α) := fun _ h => ⟨h, nofun⟩

theorem obeys_fail (t : Token) {cause : RuntimeFault} (hcause : F cause) : Obeys P F (fail t cause : Run α) :=
  fun _ h => ⟨h, fun _ he => Halt.error.inj he ▸ hcause⟩

theorem Obeys.bind {run : Run α} {next : α → Run β} (h : Obeys P F run) (hn : ∀ a, Obeys P F (next a)) :
    Obeys P F (run >>= next) := by
  intro m hm
  have hrun := h m hm
  cases e : run m with
  | ok a u =>
    rw [e] at hrun
    rw [Halting.bind_of_ok e]
    exact hn a u hrun
  | error k u =>
    rw [e] at hrun
    rw [Halting.bind_of_error e]
    exact hrun

theorem obeys_get {next : Machine → Run β} (h : ∀ m, m.store.Only P → Obeys P F (next m)) :
    Obeys P F (get >>= next) := fun m hm => h m hm m hm

theorem obeys_inStore {f : Store → α × Store} (h : ∀ s : Store, s.Only P → (f s).2.Only P) : Obeys P F (inStore f) :=
  fun m hm => h m.store hm

theorem obeys_define (name : String) (v : Value) : Obeys P F (define name v) := fun _ h => ⟨h.closures, h.methods⟩

theorem obeys_print (v : Value) : Obeys P F (print v) := by
  intro m h
  unfold print
  cases e : (m.output.writeLine (m.store.display v)).1 <;> simp only [e]
  · exact ⟨h, nofun⟩
  · exact h

theorem Obeys.inFrame {run : Run α} (h : Obeys P F run) (frame : FrameId) : Obeys P F (inFrame frame run) := by
  intro m hm
  have hrun := h { m with current := frame } hm
  unfold Run.inFrame
  cases e : run { m with current := frame } <;> simpa only [e] using hrun

theorem Obeys.asCall {run : Run α} (h : Obeys P F run) : Obeys P F (asCall run) := by
  intro m hm
  have hrun := h { m with depth := m.depth + 1 } hm
  unfold Run.asCall
  cases e : run { m with depth := m.depth + 1 } <;> simpa only [e] using hrun

end Rules

section Declarations

theorem obeys_declareFunction {f : Function} (hf : P f) : Obeys P F (declareFunction f) :=
  obeys_get fun _ _ => (obeys_inStore fun _ hs => hs.addClosure hf).bind fun _ => obeys_define _ _

theorem obeys_declareClass (name : Token) (superclass : Option ClassId) {methods : List Function}
    (hmethods : ∀ f ∈ methods, P f) : Obeys P F (declareClass name superclass methods) := by
  have hdeclared : ∀ (home : FrameId) (x : String) (k : Closure FrameId),
      (Methods.ofList home methods)[x]? = some k → P k.declared := by
    intro home x k hk
    obtain ⟨f, hf, rfl, -⟩ := Methods.mem_of_ofList hk
    exact hmethods _ hf
  refine (obeys_define _ _).bind fun _ => obeys_get fun m _ => Obeys.bind (obeys_inStore fun s hs => ?_) fun _ =>
    obeys_define _ _
  cases superclass with
  | none => exact hs.addClass (hdeclared _)
  | some c =>
    have hframe : (s.addFrame (some m.current) ((∅ : Names).insert "super" (.cls c))).2.Only P :=
      ⟨hs.closures, hs.methods⟩
    exact hframe.addClass (d := ⟨_, _, _⟩) (hdeclared _)

end Declarations

variable (h : Hereditary C P F)

include h

section Steps

/-- Of all faults only the one of operators depends on the code. -/
theorem obeys_failure (t : Token) {cause : RuntimeFault} (hcause : ∀ x, cause ≠ .unknownOperator x) :
    Obeys P F (fail t cause : Run α) := obeys_fail t (h.fault hcause)

theorem obeys_read (id : NodeId) (name : Token) : Obeys P F (read id name) := by
  refine obeys_get fun m _ => ?_
  dsimp only
  split
  · exact obeys_pure _
  · exact obeys_failure h _ nofun

theorem obeys_assign (id : NodeId) (name : Token) (v : Value) : Obeys P F (assign id name v) := by
  refine obeys_get fun m _ => Obeys.bind (obeys_inStore fun _ hs => ⟨hs.closures, hs.methods⟩) fun assigned => ?_
  split
  · exact obeys_pure _
  · exact obeys_failure h _ nofun

/-- A bound method is a copy of one of a class. -/
theorem obeys_boundMethod (c : ClassId) (o : ObjectId) (name : Token) : Obeys P F (boundMethod c o name) := by
  refine obeys_get fun m hm => ?_
  split
  · rename_i method hmethod
    have hmethod' := hm.method hmethod
    refine obeys_inStore fun s hs => ?_
    have hframe : (s.bind method o).2.Only P := ⟨hs.closures, hs.methods⟩
    exact hframe.addClosure (k := (s.bind method o).1) hmethod'
  · exact obeys_failure h _ nofun

theorem obeys_property (o : ObjectId) (name : Token) : Obeys P F (property o name) := by
  refine obeys_get fun m _ => ?_
  split
  · exact obeys_pure _
  · exact obeys_boundMethod h _ _ _
  · exact obeys_failure h _ nofun

theorem obeys_inherited (id : NodeId) (keyword method : Token) : Obeys P F (inherited id keyword method) := by
  refine obeys_get fun m _ => ?_
  repeat' split
  all_goals first
    | exact obeys_boundMethod h _ _ _
    | exact obeys_failure h _ nofun

theorem obeys_unary (operator : Token) (a : Value) : Obeys P F (unary operator a) := by
  unfold unary
  repeat' split
  all_goals first
    | exact obeys_pure _
    | exact obeys_failure h _ nofun

theorem obeys_binary (operator : Token) (a b : Value)
    (hunknown : operator.kind ∉ Kind.binary → F (.unknownOperator operator.lexeme)) : Obeys P F (binary operator a b) := by
  unfold binary
  split
  case h_11 => exact obeys_fail _ (hunknown (by simp_all [Kind.binary]))
  all_goals
    try unfold sum
    try unfold onNumbers
    try split
    all_goals first
      | exact obeys_pure _
      | exact obeys_failure h _ nofun

theorem obeys_admitCall (paren : Token) (callee : Value) (given : Nat) : Obeys P F (admitCall paren callee given) := by
  refine obeys_get fun m _ => ?_
  repeat' split
  all_goals first
    | exact obeys_pure _
    | exact obeys_failure h _ nofun

theorem obeys_superclassOf (u : NameUse) : Obeys P F (superclassOf u) := by
  refine (obeys_read h _ _).bind fun v => ?_
  split
  · exact obeys_pure _
  · exact obeys_failure h _ nofun

end Steps

section Calls

variable {run : Stmt → Run Completion} (hrun : ∀ b s, C b (.stmt s) → Obeys P F (run s))

include hrun

theorem obeys_sequence {b : Bool} : ∀ {body : List Stmt}, C b (.body body) → Obeys P F (sequence run body)
  | [], _ => obeys_pure _
  | s :: rest, hbody => by
    refine (hrun b s (h.statement hbody)).bind fun completion => ?_
    cases completion with
    | normal => exact obeys_sequence (h.rest hbody)
    | returned v => exact obeys_pure _

theorem obeys_inNewFrame (outer : FrameId) (names : Names) {body : List Stmt} (hbody : C true (.body body)) :
    Obeys P F (inNewFrame run outer names body) :=
  Obeys.bind (obeys_inStore fun _ hs => ⟨hs.closures, hs.methods⟩) fun frame =>
    (obeys_sequence h hrun hbody).inFrame frame

theorem obeys_callClosure {k : Closure FrameId} (hk : P k.declared) (arguments : List Value) :
    Obeys P F (callClosure run k arguments) := by
  refine (obeys_inNewFrame h hrun _ _ (h.body hk)).bind fun completion => ?_
  split
  · exact obeys_get fun _ _ => obeys_pure _
  · split <;> exact obeys_pure _

theorem obeys_construct (c : ClassId) (arguments : List Value) : Obeys P F (construct run c arguments) := by
  refine Obeys.bind (obeys_inStore fun _ hs => ⟨hs.closures, hs.methods⟩) fun o => obeys_get fun m hm => ?_
  split
  · rename_i method hmethod
    have hmethod' := hm.method hmethod
    intro m' hm'
    have hcall := obeys_callClosure h hrun (k := (m'.store.bind method o).1) hmethod' arguments
    exact (hcall.bind fun _ => obeys_pure _) { m' with store := (m'.store.bind method o).2 } ⟨hm'.closures, hm'.methods⟩
  · exact obeys_pure _

theorem obeys_call (callee : Value) (arguments : List Value) : Obeys P F (call run callee arguments) := by
  unfold call
  split
  · exact obeys_get fun _ _ => obeys_pure _
  · refine obeys_get fun m hm => ?_
    split
    · rename_i k hk
      exact obeys_callClosure h hrun (hm.closures k (Array.mem_of_getElem? hk)) _
    · exact obeys_pure _
  · exact obeys_construct h hrun _ _
  · exact obeys_pure _

end Calls

theorem obeys_each {b : Bool} {d : Option Token} {run : Expr → Run Value} (hrun : ∀ e, C b (.expr d e) → Obeys P F (run e)) :
    ∀ {es : List Expr}, C b (.arguments d es) → Obeys P F (each run es)
  | [], _ => obeys_pure _
  | e :: _, hes =>
    (hrun e (h.argument hes)).bind fun _ => (obeys_each hrun (h.others hes)).bind fun _ => obeys_pure _

end Run

open Run

section Evaluators

variable {C : Bool → Code → Prop} {P : Function → Prop} {F : RuntimeFault → Prop} (h : Hereditary C P F)

include h

section Step

variable {n : Nat} (he : ∀ b d e, C b (.expr d e) → Obeys P F (eval n e))
  (hs : ∀ b s, C b (.stmt s) → Obeys P F (exec n s))

include he hs

theorem obeys_eval_succ {b : Bool} {d : Option Token} {e : Expr} (hcode : C b (.expr d e)) :
    Obeys P F (eval (n + 1) e) := by
  have hfirst {e' : Expr} (hfirst : e.first? = some e') := he b d e' (h.first hcode hfirst)
  cases e with
  | literal value => exact obeys_pure _
  | grouping inner => exact hfirst rfl
  | unary operator operand => exact (hfirst rfl).bind fun a => obeys_unary h operator a
  | binary left operator right =>
    refine (hfirst rfl).bind fun a => (he b d right (h.second (a := a) hcode rfl)).bind fun _ => ?_
    exact obeys_binary h operator _ _ (h.operator hcode)
  | logical left operator right =>
    refine (hfirst rfl).bind fun a => ?_
    split
    · exact obeys_pure _
    · rename_i hdecides
      exact he b d right (h.second (a := a) hcode (if_neg hdecides))
  | read id name => exact obeys_read h id name
  | assign id name value => exact (hfirst rfl).bind fun v => obeys_assign h id name v
  | call callee paren arguments =>
    exact (hfirst rfl).bind fun f => (obeys_each h (he b d) (h.arguments hcode)).bind fun values =>
      (obeys_admitCall h _ _ _).bind fun _ => (obeys_call h hs f values).asCall
  | get object name =>
    refine (hfirst rfl).bind fun v => ?_
    split
    · exact obeys_property h _ _
    · exact obeys_failure h _ nofun
  | set object name value =>
    refine (hfirst rfl).bind fun v => ?_
    split
    · rename_i o
      exact (he b d value (h.second (a := .object o) hcode rfl)).bind fun v =>
        Obeys.bind (obeys_inStore fun _ hs => ⟨hs.closures, hs.methods⟩) fun _ => obeys_pure _
    · exact obeys_failure h _ nofun
  | self id keyword => exact obeys_read h id keyword
  | inherited id keyword method => exact obeys_inherited h id keyword method

theorem obeys_exec_succ {b : Bool} {s : Stmt} (hcode : C b (.stmt s)) : Obeys P F (exec (n + 1) s) := by
  have hvalue {d : Option Token} {e : Expr} (hvalue : s.value? = some (d, e)) := he b d e (h.value hcode hvalue)
  cases s with
  | expression e => exact (hvalue rfl).bind fun _ => obeys_pure _
  | print e => exact (hvalue rfl).bind fun v => (obeys_print v).bind fun _ => obeys_pure _
  | var name initial =>
    cases initial with
    | none => exact (obeys_pure _).bind fun v => (obeys_define _ _).bind fun _ => obeys_pure _
    | some e => exact (hvalue rfl).bind fun v => (obeys_define _ _).bind fun _ => obeys_pure _
  | block body => exact obeys_get fun m _ => obeys_inNewFrame h hs _ _ (h.block hcode)
  | branch condition yes no =>
    refine (hvalue rfl).bind fun v => ?_
    split
    · rename_i htrue
      exact hs b yes (h.chosen (v := v) hcode (if_pos htrue))
    · rename_i hfalse
      cases no with
      | none => exact obeys_pure _
      | some s => exact hs b s (h.chosen (v := v) hcode (if_neg hfalse))
  | loop condition body =>
    refine (hvalue rfl).bind fun v => ?_
    split
    · rename_i htrue
      refine (hs b body (h.chosen (v := v) hcode (if_pos htrue))).bind fun completion => ?_
      cases completion with
      | normal => exact hs b _ hcode
      | returned v => exact obeys_pure _
    · exact obeys_pure _
  | function f => exact (obeys_declareFunction (h.function hcode)).bind fun _ => obeys_pure _
  | ret keyword value =>
    cases value with
    | none => exact obeys_pure _
    | some e => exact (hvalue rfl).bind fun _ => obeys_pure _
  | classDecl name superclass methods =>
    cases superclass with
    | none =>
      exact (obeys_pure _).bind fun _ => (obeys_declareClass _ _ (h.methods hcode)).bind fun _ => obeys_pure _
    | some u =>
      exact (obeys_superclassOf h u).bind fun _ => (obeys_pure _).bind fun _ =>
        (obeys_declareClass _ _ (h.methods hcode)).bind fun _ => obeys_pure _

end Step

/-- One induction on the bound for both evaluators, since calls run statements and statements evaluate. -/
theorem obeys_evaluators (n : Nat) : (∀ b d e, C b (.expr d e) → Obeys P F (eval n e)) ∧
    ∀ b s, C b (.stmt s) → Obeys P F (exec n s) := by
  induction n with
  | zero => exact ⟨fun _ _ _ _ => obeys_exhausted, fun _ _ _ => obeys_exhausted⟩
  | succ n ih =>
    exact ⟨fun _ _ _ => obeys_eval_succ h ih.1 ih.2, fun _ _ => obeys_exec_succ h ih.1 ih.2⟩

theorem obeys_eval (n : Nat) {b : Bool} {d : Option Token} {e : Expr} (hcode : C b (.expr d e)) : Obeys P F (eval n e) :=
  (obeys_evaluators h n).1 b d e hcode

theorem obeys_exec (n : Nat) {b : Bool} {s : Stmt} (hcode : C b (.stmt s)) : Obeys P F (exec n s) :=
  (obeys_evaluators h n).2 b s hcode

theorem obeys_perform (n : Nat) {b : Bool} {s : Stmt} (hcode : C b (.stmt s)) : Obeys P F (perform n s) := by
  refine obeys_get fun m _ => ?_
  split
  · exact (obeys_eval h n (h.value hcode rfl)).bind fun v => obeys_print v
  · exact (obeys_exec h n hcode).bind fun _ => obeys_pure _

theorem obeys_interpret (n : Nat) {b : Bool} : ∀ {statements : List Stmt}, (∀ s ∈ statements, C b (.stmt s)) →
    Obeys P F (interpret n statements)
  | [], _ => obeys_pure _
  | s :: rest, hcode => by
    rw [List.forall_mem_cons] at hcode
    exact (obeys_perform h n hcode.1).bind fun _ => obeys_interpret n hcode.2

end Evaluators

end LoxLang
