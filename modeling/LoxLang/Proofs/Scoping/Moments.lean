import LoxLang.Proofs.Scoping.Evaluation

/-! The moments of a run: which code begins to run on which machine. The relation follows the evaluator part by part,
so what holds at the start of a unit and is kept from a moment to the next holds whenever a node is evaluated. -/

namespace LoxLang

/-- Code that runs. An expression may belong to the initial value of a variable. -/
inductive Code
  | expr (declaring : Option Token) (e : Expr)
  | arguments (declaring : Option Token) (es : List Expr)
  | stmt (s : Stmt)
  | body (statements : List Stmt)
  | unit (statements : List Stmt)

/-- Code that begins to run on a machine, with the bound on the depth of its run. -/
structure Moment where
  bound : Nat
  code : Code
  machine : Machine

/-- The operand that is evaluated first. -/
def Expr.first? : Expr → Option Expr
  | .grouping e | .unary _ e | .binary e _ _ | .logical e _ _ | .assign _ _ e | .call e _ _ | .get e _
  | .set e _ _ => some e
  | .literal _ | .read _ _ | .self _ _ | .inherited _ _ _ => none

/-- The operand that is evaluated next, if any is, once the first has a value. -/
def Expr.second? (a : Value) : Expr → Option Expr
  | .binary _ _ e => some e
  | .logical _ operator e => if decides operator a then none else some e
  | .set _ _ e => match a with
    | .object _ => some e
    | _ => none
  | _ => none

/-- The expression that is evaluated first, with the variable whose initial value it is. -/
def Stmt.value? : Stmt → Option (Option Token × Expr)
  | .expression e | .print e | .branch e _ _ | .loop e _ => some (none, e)
  | .var name initial => initial.map fun e => (some name, e)
  | .ret _ value => value.map fun e => (none, e)
  | .classDecl _ superclass _ => superclass.map fun u => (none, u.expr)
  | .block _ | .function _ => none

/-- The statement inside that is chosen by the value of the condition. -/
def Stmt.chosen? (v : Value) : Stmt → Option Stmt
  | .branch _ yes no => if v.truthy then some yes else no
  | .loop _ body => if v.truthy then some body else none
  | _ => none

/-- The body that a call runs, and the machine on which it begins. -/
def Machine.called? (m : Machine) (arguments : List Value) : Value → Option (List Stmt × Machine)
  | .function id => m.store.closures[id]?.map fun k => enterBody m k
  | .cls id =>
    let made := m.store.inHeap fun h => h.addObject id
    (made.2.initializer? id).map fun method =>
      let bound := made.2.bind method made.1
      enterBody { m with store := bound.2 } bound.1
  | _ => none
where
  enterBody (m : Machine) (k : Closure FrameId) : List Stmt × Machine :=
    (k.declared.body, m.enter k.home (Run.parameterNames k.declared.parameters arguments))

/-- A call of the value runs the function, on a machine to which the instance and its frame have been added if the value
is a class. -/
inductive Machine.Invokes (m : Machine) : Value → Closure FrameId → Machine → Prop
  | function {id : ClosureId} {κ : Closure FrameId} : m.store.closures[id]? = some κ → Invokes m (.function id) κ m
  | cls {c : ClassId} {method : Closure FrameId} : m.store.initializer? c = some method →
    Invokes m (.cls c) ((m.store.inHeap fun h => h.addObject c).2.bind method m.store.objects.size).1
      { m with store := ((m.store.inHeap fun h => h.addObject c).2.bind method m.store.objects.size).2 }

theorem Store.initializer?_addObject (s : Store) (c c' : ClassId) :
    (s.inHeap fun h => h.addObject c).2.initializer? c' = s.initializer? c' :=
  Heap.method?_congr (s.toHeap.addObject c).2 s.toHeap rfl c' _

namespace Machine

variable {m m' m₁ : Machine} {f : Value} {values : List Value} {body : List Stmt} {κ : Closure FrameId}

/-- What a call runs is the body of the function, with the arguments. -/
theorem called?_eq_some : m.called? values f = some (body, m') ↔ ∃ κ m₁, m.Invokes f κ m₁ ∧ body = κ.declared.body ∧
    m' = m₁.enter κ.home (Run.parameterNames κ.declared.parameters values) := by
  constructor
  · intro h
    cases f with
    | function id =>
      obtain ⟨κ, hκ, h⟩ := Option.map_eq_some_iff.mp h
      cases h
      exact ⟨κ, m, .function hκ, rfl, rfl⟩
    | cls id =>
      obtain ⟨method, hmethod, h⟩ := Option.map_eq_some_iff.mp h
      cases h
      exact ⟨_, _, .cls (m.store.initializer?_addObject id id ▸ hmethod), rfl, rfl⟩
    | nil | bool | number | string | native | object => cases h
  · rintro ⟨κ, m₁, hinvokes, rfl, rfl⟩
    cases hinvokes with
    | function hκ => exact Option.map_eq_some_iff.mpr ⟨κ, hκ, rfl⟩
    | @cls id method hmethod =>
      exact Option.map_eq_some_iff.mpr ⟨method, (m.store.initializer?_addObject id id).trans hmethod, rfl⟩

theorem Invokes.arity (h : m.Invokes f κ m₁) : m.store.arity? f = some κ.arity := by
  cases h with
  | function hκ => exact Option.map_eq_some_iff.mpr ⟨κ, hκ, rfl⟩
  | cls hmethod =>
    rw [Heap.arity?, hmethod]
    rfl

end Machine

open Run in
/-- One moment leads to another when the code of the first begins to run a part of it, all that comes before that
part having ended. -/
inductive Moment.Starts : Moment → Moment → Prop
  | first {n : Nat} {d : Option Token} {e e' : Expr} {m : Machine} :
    e.first? = some e' → Starts ⟨n + 1, .expr d e, m⟩ ⟨n, .expr d e', m⟩
  | second {n : Nat} {d : Option Token} {e e' e'' : Expr} {a : Value} {m m' : Machine} :
    e.first? = some e' → eval n e' m = .ok a m' → e.second? a = some e'' →
      Starts ⟨n + 1, .expr d e, m⟩ ⟨n, .expr d e'', m'⟩
  | arguments {n : Nat} {d : Option Token} {callee : Expr} {paren : Token} {es : List Expr} {f : Value}
    {m m' : Machine} : eval n callee m = .ok f m' →
      Starts ⟨n + 1, .expr d (.call callee paren es), m⟩ ⟨n, .arguments d es, m'⟩
  | argument {n : Nat} {d : Option Token} {e : Expr} {rest : List Expr} {m : Machine} :
    Starts ⟨n, .arguments d (e :: rest), m⟩ ⟨n, .expr d e, m⟩
  | others {n : Nat} {d : Option Token} {e : Expr} {rest : List Expr} {v : Value} {m m' : Machine} :
    eval n e m = .ok v m' → Starts ⟨n, .arguments d (e :: rest), m⟩ ⟨n, .arguments d rest, m'⟩
  | call {n : Nat} {d : Option Token} {callee : Expr} {paren : Token} {es : List Expr} {f : Value}
    {values : List Value} {body : List Stmt} {m m₁ m₂ m₃ m₄ : Machine} :
    eval n callee m = .ok f m₁ → each (eval n) es m₁ = .ok values m₂ →
      admitCall paren f values.length m₂ = .ok () m₃ →
        { m₃ with depth := m₃.depth + 1 }.called? values f = some (body, m₄) →
          Starts ⟨n + 1, .expr d (.call callee paren es), m⟩ ⟨n, .body body, m₄⟩
  | value {n : Nat} {d : Option Token} {s : Stmt} {e : Expr} {m : Machine} :
    s.value? = some (d, e) → Starts ⟨n + 1, .stmt s, m⟩ ⟨n, .expr d e, m⟩
  | chosen {n : Nat} {d : Option Token} {s s' : Stmt} {e : Expr} {v : Value} {m m' : Machine} :
    s.value? = some (d, e) → eval n e m = .ok v m' → s.chosen? v = some s' →
      Starts ⟨n + 1, .stmt s, m⟩ ⟨n, .stmt s', m'⟩
  | again {n : Nat} {condition : Expr} {body : Stmt} {v : Value} {m m' m'' : Machine} :
    eval n condition m = .ok v m' → v.truthy = true → exec n body m' = .ok .normal m'' →
      Starts ⟨n + 1, .stmt (.loop condition body), m⟩ ⟨n, .stmt (.loop condition body), m''⟩
  | block {n : Nat} {body : List Stmt} {m : Machine} :
    Starts ⟨n + 1, .stmt (.block body), m⟩ ⟨n, .body body, m.enter m.current ∅⟩
  | statement {n : Nat} {s : Stmt} {rest : List Stmt} {m : Machine} :
    Starts ⟨n, .body (s :: rest), m⟩ ⟨n, .stmt s, m⟩
  | rest {n : Nat} {s : Stmt} {rest : List Stmt} {m m' : Machine} :
    exec n s m = .ok .normal m' → Starts ⟨n, .body (s :: rest), m⟩ ⟨n, .body rest, m'⟩
  | shown {n : Nat} {e : Expr} {rest : List Stmt} {m : Machine} :
    m.prompt = true → Starts ⟨n, .unit (.expression e :: rest), m⟩ ⟨n, .expr none e, m⟩
  | performed {n : Nat} {s : Stmt} {rest : List Stmt} {m : Machine} :
    (∀ e, s = .expression e → m.prompt = false) → Starts ⟨n, .unit (s :: rest), m⟩ ⟨n, .stmt s, m⟩
  | next {n : Nat} {s : Stmt} {rest : List Stmt} {m m' : Machine} :
    perform n s m = .ok () m' → Starts ⟨n, .unit (s :: rest), m⟩ ⟨n, .unit rest, m'⟩

/-- All moments of the run that begins at a moment. -/
abbrev Moment.Visits : Moment → Moment → Prop := Relation.ReflTransGen Starts

open Run in
/-- A statement that only calls, without arguments, leads to the body of what it calls. -/
theorem Moment.visits_called {n : Nat} {callee : Expr} {paren : Token} {f : Value} {body : List Stmt}
    {m m₁ m₂ m₃ : Machine} (hf : eval n callee m = .ok f m₁) (hadmitted : admitCall paren f 0 m₁ = .ok () m₂)
    (hcalled : { m₂ with depth := m₂.depth + 1 }.called? [] f = some (body, m₃)) :
    Moment.Visits ⟨n + 2, .stmt (.expression (.call callee paren [])), m⟩ ⟨n, .body body, m₃⟩ :=
  .head (.value rfl) (.single (.call hf rfl hadmitted hcalled))

/-- The name whose initial value code belongs to, if it is a local one. -/
def Layout.ownOf (l : Layout) (declaring : Option Token) : Option String := declaring.bind fun t => l.own t.lexeme

/-- All distances in the code are right where it stands. -/
def Code.Fits (c : Chart) (l : Layout) : Code → Prop
  | .expr d e => (∀ t ∈ d, l.Free t.lexeme) ∧ e.Fits c (l.ownOf d) l
  | .arguments d es => (∀ t ∈ d, l.Free t.lexeme) ∧ ∀ e ∈ es, e.Fits c (l.ownOf d) l
  | .stmt s => s.Fits c l
  | .body statements => Stmt.FitsEach c l statements
  | .unit statements => l = [] ∧ Stmt.FitsEach c [] statements

/-- The machine is sound, and the code fits where the program stands. -/
structure Moment.Fits (c : Chart) (k : Moment) (l : Layout) : Prop where
  sound : k.machine.Sound c
  stands : k.machine.At l
  code : k.code.Fits c l

namespace Moment

open Run Frames

variable {c : Chart}

theorem uses_first {e e' : Expr} (h : e.first? = some e') : e'.uses ⊆ e.uses := by
  cases e <;> simp only [Expr.first?, Option.some.injEq, reduceCtorEq] at h <;> subst h <;> simp [Expr.uses]

theorem uses_second {a : Value} {e e' : Expr} (h : e.second? a = some e') : e'.uses ⊆ e.uses := by
  unfold Expr.second? at h
  split at h
  · cases h
    simp [Expr.uses]
  · split at h <;> cases h
    simp [Expr.uses]
  · split at h <;> cases h
    simp [Expr.uses]
  · cases h

theorem fits_part {l : Layout} {d : Option Token} {e e' : Expr} (h : Code.Fits c l (.expr d e))
    (hs : e'.uses ⊆ e.uses) : Code.Fits c l (.expr d e') := ⟨h.1, fun u hu => h.2 u (hs hu)⟩

theorem fits_arguments {l : Layout} {d : Option Token} {callee : Expr} {paren : Token} {es : List Expr}
    (h : Code.Fits c l (.expr d (.call callee paren es))) : Code.Fits c l (.arguments d es) :=
  ⟨h.1, fun e he u hu => h.2 u (by simp [Expr.uses, Expr.uses_subset_usesEach he hu])⟩

theorem fits_value {l : Layout} {s : Stmt} {d : Option Token} {e : Expr} (h : s.Fits c l)
    (hv : s.value? = some (d, e)) : Code.Fits c l (.expr d e) := by
  unfold Stmt.value? at hv
  split at hv
  iterate 2
    · cases hv
      exact ⟨nofun, h⟩
  iterate 2
    · cases hv
      exact ⟨nofun, h.1⟩
  · obtain ⟨e', he, hv⟩ := Option.map_eq_some_iff.mp hv
    cases hv
    exact ⟨fun t ht => Option.some.inj ht ▸ h.1, h.2 e he⟩
  · obtain ⟨e', he, hv⟩ := Option.map_eq_some_iff.mp hv
    cases hv
    exact ⟨nofun, h e he⟩
  · obtain ⟨u, hu, hv⟩ := Option.map_eq_some_iff.mp hv
    cases hv
    exact ⟨nofun, List.forall_mem_singleton.mpr (h.2.1 u hu)⟩
  · cases hv
  · cases hv

theorem fits_chosen {l : Layout} {s s' : Stmt} {v : Value} (h : s.Fits c l) (hv : s.chosen? v = some s') :
    Code.Fits c l (.stmt s') := by
  unfold Stmt.chosen? at hv
  split at hv
  · split at hv
    · cases hv
      exact h.2.1
    · subst hv
      exact h.2.2.2.1
  · split at hv <;> cases hv
    exact h.2.1
  · cases hv

/-- The body that an admitted call runs fits the frames of its function. -/
theorem fits_called {m m' : Machine} (hm : m.Sound c) {f : Value} {values : List Value} {body : List Stmt}
    (harity : m.store.arity? f = some values.length) (h : m.called? values f = some (body, m')) (n : Nat) :
    ∃ l, Fits c ⟨n, .body body, m'⟩ l := by
  have hbody : ∀ {m : Machine} {k : Closure FrameId}, m.Sound c → k.Placed c m.store.frames m.globals [] →
      values.length = k.arity → ∃ l, Fits c ⟨n, .body k.declared.body,
        m.enter k.home (parameterNames k.declared.parameters values)⟩ l := by
    rintro m ⟨⟨name, parameters, body⟩, frame, isInitializer⟩ hm ⟨l, hl, -, hbody⟩ hn
    exact ⟨_, hm.enter hl _, Machine.at_enter hl (mem_parameterNames hn), hbody⟩
  obtain ⟨κ, m₁, hinvokes, rfl, rfl⟩ := Machine.called?_eq_some.mp h
  have hn : values.length = κ.arity := Option.some.inj (harity.symm.trans hinvokes.arity)
  cases hinvokes with
  | function hκ => exact hbody hm (hm.store.closures κ (Array.mem_of_getElem? hκ)) hn
  | @cls id method hmethod =>
    obtain ⟨d, hd, hx⟩ := Heap.mem_of_method? hmethod
    have hobject := hm.store.addObject id
    have hmethod' := hobject.methods d hd _ _ hx
    have hplaced := Store.placed_bind hmethod' m.store.objects.size
    exact hbody (m := { m with store := _ }) ⟨hm.bindings, hobject.bind hmethod' _⟩ hplaced hn

/-- A run that ended kept the layout, so other code that fits it fits where the run left off. -/
theorem fits_behind {α : Type} {run : Run α} {m m' : Machine} {l : Layout} {a : α} {code : Code}
    (hm : m.Sound c) (ha : m.At l) (h : Keeps c run m []) (e : run m = .ok a m') (hcode : code.Fits c l) (n : Nat) :
    Fits c ⟨n, code, m'⟩ l :=
  ⟨(h.of_ok e).sound, (h.of_ok e).at_same hm ha, hcode⟩

section Parts

variable {l : Layout} {n : Nat} {s s' : Stmt} {body others : List Stmt} {m m' m'' : Machine} {d : Option Token} {e : Expr}
  {v : Value}

theorem Fits.block (h : Fits c ⟨n + 1, .stmt (.block body), m⟩ l) :
    Fits c ⟨n, .body body, m.enter m.current ∅⟩ ([] :: l) :=
  ⟨h.sound.enter h.stands.linked _, Machine.at_enter h.stands.linked (by simp), h.code⟩

theorem Fits.statement (h : Fits c ⟨n, .body (s :: others), m⟩ l) : Fits c ⟨n, .stmt s, m⟩ l :=
  ⟨h.sound, h.stands, h.code.1⟩

theorem Fits.rest (h : Fits c ⟨n, .body (s :: others), m⟩ l) (hexec : exec n s m = .ok .normal m') :
    Fits c ⟨n, .body others, m'⟩ (l.declare s.declares) := by
  have hrun := (keeps_exec n h.sound h.stands h.code.1).of_ok hexec
  exact ⟨hrun.sound, hrun.at_declare h.sound h.stands, h.code.2⟩

theorem Fits.chosen (h : Fits c ⟨n + 1, .stmt s, m⟩ l) (hvalue : s.value? = some (d, e)) (heval : eval n e m = .ok v m')
    (hchosen : s.chosen? v = some s') : Fits c ⟨n, .stmt s', m'⟩ l :=
  fits_behind h.sound h.stands (keeps_eval n h.sound h.stands (fits_value h.code hvalue).2) heval
    (fits_chosen h.code hchosen) n

theorem Fits.again (h : Fits c ⟨n + 1, .stmt (.loop e s), m⟩ l) (heval : eval n e m = .ok v m')
    (hexec : exec n s m' = .ok .normal m'') : Fits c ⟨n, .stmt (.loop e s), m''⟩ l := by
  obtain ⟨hm, ha, hcode⟩ := h
  have h₁ := (keeps_eval n hm ha hcode.1).of_ok heval
  have ha₁ := h₁.at_same hm ha
  have hbody := keeps_exec n h₁.sound ha₁ hcode.2.1
  rw [hcode.2.2] at hbody
  exact fits_behind h₁.sound ha₁ hbody hexec hcode n

end Parts

/-- What fits at a moment fits at each moment it leads to. -/
theorem fits_of_starts {k k' : Moment} (h : k.Starts k') {l : Layout} (hk : k.Fits c l) : ∃ l', k'.Fits c l' := by
  have ⟨hm, ha, hcode⟩ := hk
  cases h with
  | first hfirst => exact ⟨l, hm, ha, fits_part hcode (uses_first hfirst)⟩
  | second hfirst e hsecond =>
    have hoperand := fits_part hcode (uses_first hfirst)
    exact ⟨l, fits_behind hm ha (keeps_eval _ hm ha hoperand.2) e (fits_part hcode (uses_second hsecond)) _⟩
  | arguments e =>
    have hcallee := fits_part hcode (uses_first rfl)
    exact ⟨l, fits_behind hm ha (keeps_eval _ hm ha hcallee.2) e (fits_arguments hcode) _⟩
  | argument => exact ⟨l, hm, ha, hcode.1, hcode.2 _ List.mem_cons_self⟩
  | others e =>
    have hothers : Code.Fits c l (.arguments _ _) :=
      ⟨hcode.1, fun e' he' => hcode.2 e' (List.mem_cons_of_mem _ he')⟩
    exact ⟨l, fits_behind hm ha (keeps_eval _ hm ha (hcode.2 _ List.mem_cons_self)) e hothers _⟩
  | call e₁ e₂ e₃ hcalled =>
    have h₁ := (keeps_eval _ hm ha (fits_part hcode (uses_first rfl)).2).of_ok e₁
    have ha₁ := h₁.at_same hm ha
    have h₂ := (keeps_each (keeps_eval _) _ h₁.sound ha₁ (fits_arguments hcode).2).of_ok e₂
    obtain ⟨rfl, harity⟩ := arity_of_admitCall e₃
    exact fits_called (h₂.sound.deeper (_ + 1)) harity hcalled _
  | value hvalue => exact ⟨l, hm, ha, fits_value hcode hvalue⟩
  | chosen hvalue e hchosen => exact ⟨l, hk.chosen hvalue e hchosen⟩
  | again e₁ _ e₂ => exact ⟨l, hk.again e₁ e₂⟩
  | block => exact ⟨[] :: l, hk.block⟩
  | statement => exact ⟨l, hk.statement⟩
  | rest e => exact ⟨_, hk.rest e⟩
  | shown => exact ⟨[], hm, hcode.1 ▸ ha, nofun, hcode.2.1⟩
  | performed => exact ⟨[], hm, hcode.1 ▸ ha, hcode.2.1⟩
  | next e =>
    obtain ⟨rfl, hcode⟩ := hcode
    have hrun := (keeps_perform _ hm ha hcode.1).of_ok e
    exact ⟨[], hrun.sound, hrun.at_declare hm ha, rfl, hcode.2⟩

/-- Code that fits when a run begins fits at every moment of the run. -/
theorem fits_of_visits {k k' : Moment} (h : k.Visits k') {l : Layout} (hk : k.Fits c l) : ∃ l', k'.Fits c l' := by
  induction h with
  | refl => exact ⟨l, hk⟩
  | tail _ hstep ih =>
    obtain ⟨l', hl'⟩ := ih
    exact fits_of_starts hstep hl'

end Moment

end LoxLang
