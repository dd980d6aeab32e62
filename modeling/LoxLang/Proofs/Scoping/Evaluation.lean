import LoxLang.Proofs.Scoping.Invariant

/-! The scoping invariant along a run: code that fits the layout it runs in leads to a sound machine however the run
ends, and a statement that ends adds just the names it declares to the frame it runs in. -/

namespace LoxLang

open Frames

namespace Run

variable {α β : Type} {c : Chart}

/-- However the run ends, it leads to a sound machine. -/
def Stays (c : Chart) (run : Run α) (m : Machine) : Prop := ∃ names, m.Follows c (run.after m) names

/-- A run that ends adds the given names to the current frame, one that halts perhaps some. -/
def Keeps (c : Chart) (run : Run α) (m : Machine) (names : List String) : Prop :=
  match run m with
  | .ok _ m' => m.Follows c m' names
  | .error _ m' => ∃ some, m.Follows c m' some

section Rules

variable {run : Run α} {next : α → Run β} {m : Machine} {names more : List String}

theorem keeps_of_ok {a : α} {m' : Machine} (e : run m = .ok a m') (h : m.Follows c m' names) :
    Keeps c run m names := by
  unfold Keeps
  rw [e]
  exact h

theorem Keeps.of_ok {a : α} {m' : Machine} (h : Keeps c run m names) (e : run m = .ok a m') :
    m.Follows c m' names := by
  unfold Keeps at h
  rwa [e] at h

theorem keeps_of_idle (h : m.Sound c) (e : run.after m = m) : Keeps c run m [] := by
  unfold Keeps
  unfold Halting.after at e
  split <;> simp_all only
  · exact .refl h
  · exact ⟨_, .refl h⟩

theorem keeps_pure (h : m.Sound c) (a : α) : Keeps c (pure a : Run α) m [] := keeps_of_idle h rfl

theorem keeps_fail (h : m.Sound c) (t : Token) (cause : RuntimeFault) : Keeps c (fail t cause : Run α) m names :=
  ⟨[], .refl h⟩

theorem Keeps.bind (h : Keeps c run m names)
    (hn : ∀ a m', run m = .ok a m' → m.Follows c m' names → Keeps c (next a) m' more) :
    Keeps c (run >>= next) m (more ++ names) := by
  unfold Keeps at h
  cases e : run m with
  | error k m' =>
    rw [e] at h
    unfold Keeps
    rw [Halting.bind_of_error e]
    exact h
  | ok a m' =>
    rw [e] at h
    have hm' := hn a m' e h
    unfold Keeps at hm' ⊢
    rw [Halting.bind_of_ok e]
    cases e' : next a m' with
    | error k m'' =>
      rw [e'] at hm'
      obtain ⟨some, hm'⟩ := hm'
      exact ⟨_, h.trans hm'⟩
    | ok b m'' =>
      rw [e'] at hm'
      exact h.trans hm'

/-- Behind a run that adds no name. -/
theorem Keeps.then (h : Keeps c run m [])
    (hn : ∀ a m', run m = .ok a m' → m.Follows c m' [] → Keeps c (next a) m' more) :
    Keeps c (run >>= next) m more := by
  simpa using h.bind hn

theorem Keeps.congr (h : Keeps c run m names) (hs : ∀ x, x ∈ names ↔ x ∈ more) : Keeps c run m more := by
  unfold Keeps at h ⊢
  split <;> simp_all only
  exact Machine.Follows.congr h hs

theorem keeps_get {next : Machine → Run β} (h : Keeps c (next m) m names) : Keeps c (get >>= next) m names := h

theorem Keeps.stays (h : Keeps c run m names) : Stays c run m := by
  unfold Keeps at h
  unfold Stays Halting.after
  cases e : run m with
  | error k m' =>
    rw [e] at h
    exact h
  | ok a m' =>
    rw [e] at h
    exact ⟨_, h⟩

theorem Keeps.bind_stays (h : Keeps c run m names)
    (hn : ∀ a m', run m = .ok a m' → m.Follows c m' names → Stays c (next a) m') : Stays c (run >>= next) m := by
  cases e : run m with
  | error k m' =>
    obtain ⟨some, hm'⟩ := h.stays
    refine ⟨some, ?_⟩
    rwa [Halting.after_of_error e, ← Halting.after_of_error (Halting.bind_of_error e)] at hm'
  | ok a m' =>
    unfold Keeps at h
    rw [e] at h
    obtain ⟨some, hm'⟩ := hn a m' e h
    refine ⟨some ++ names, h.trans ?_⟩
    unfold Halting.after at hm' ⊢
    rwa [Halting.bind_of_ok e]

end Rules

section Operations

variable {m : Machine} {l : Layout} (hm : m.Sound c)

include hm

theorem keeps_sum (operator : Token) (a b : Value) : Keeps c (sum operator a b) m [] := by
  unfold sum
  split <;> first | exact keeps_pure hm _ | exact keeps_fail hm _ _

theorem keeps_onNumbers (operator : Token) (f : Number → Number → Value) (a b : Value) :
    Keeps c (onNumbers operator f a b) m [] := by
  unfold onNumbers
  split <;> first | exact keeps_pure hm _ | exact keeps_fail hm _ _

theorem keeps_binary (operator : Token) (a b : Value) : Keeps c (binary operator a b) m [] := by
  unfold binary
  split <;> first
    | exact keeps_sum hm _ _ _
    | exact keeps_onNumbers hm _ _ _ _
    | exact keeps_pure hm _
    | exact keeps_fail hm _ _

theorem keeps_unary (operator : Token) (a : Value) : Keeps c (unary operator a) m [] := by
  unfold unary
  split
  · split <;> first | exact keeps_pure hm _ | exact keeps_fail hm _ _
  · exact keeps_pure hm _

theorem keeps_read (id : NodeId) (name : Token) : Keeps c (read id name) m [] := by
  refine keeps_get ?_
  dsimp only
  split
  · exact keeps_pure hm _
  · exact keeps_fail hm _ _

theorem keeps_admitCall (paren : Token) (callee : Value) (given : Nat) :
    Keeps c (admitCall paren callee given) m [] := by
  refine keeps_get ?_
  split
  · exact keeps_fail hm _ _
  · split
    · exact keeps_fail hm _ _
    · split
      · exact keeps_fail hm _ _
      · exact keeps_pure hm _

/-- A step that changes the store and adds no name to a frame. -/
theorem keeps_inStore (f : Store → α × Store) (hs : (f m.store).2.Sound c m.globals)
    (hgrows : Grows m.store.frames (f m.store).2.frames m.current []) : Keeps c (inStore f) m [] := by
  have e : inStore f m = .ok (f m.store).1 { m with store := (f m.store).2 } := rfl
  exact keeps_of_ok e (Machine.follows_store hm hs hgrows)

theorem keeps_define (ha : m.At l) (x : String) (v : Value) : Keeps c (define x v) m [x] := by
  have hgrows := grows_define (ha.linked.lt hm.store.within) x v
  exact keeps_of_ok rfl (Machine.follows_store hm (hm.store.frames hgrows (hm.store.closed.define _ x v)) hgrows)

theorem keeps_assign (id : NodeId) (name : Token) (v : Value) : Keeps c (assign id name v) m [] := by
  have hgrows : Grows m.store.frames (m.assigned id name.lexeme v).2 m.current [] := by
    unfold Machine.assigned
    split
    · exact grows_assignAt _ _ _ _ _ _
    · exact grows_assign _ _ _ _ _
  have hclosed : Closed (m.assigned id name.lexeme v).2 := by
    unfold Machine.assigned
    split
    · exact hm.store.closed.assignAt _ _ _ _
    · exact hm.store.closed.assign _ _ _
  have hsound := hm.store.frames hgrows hclosed
  refine keeps_get (Keeps.then (keeps_inStore hm _ hsound hgrows) fun assigned m' _ h => ?_)
  split
  · exact keeps_pure h.sound _
  · exact keeps_fail h.sound _ _

theorem keeps_boundMethod (k : ClassId) (o : ObjectId) (name : Token) : Keeps c (boundMethod k o name) m [] := by
  refine keeps_get ?_
  split
  · rename_i method hmethod
    obtain ⟨d, hd, hx⟩ := Heap.mem_of_method? hmethod
    have hmethod := hm.store.methods d hd _ _ hx
    have hplaced := Store.placed_bind hmethod o
    exact keeps_inStore hm _ ((hm.store.bind hmethod o).addClosure hplaced) (Store.grows_bind _ _ _ _)
  · exact keeps_fail hm _ _

theorem keeps_property (o : ObjectId) (name : Token) : Keeps c (property o name) m [] := by
  refine keeps_get ?_
  split
  · exact keeps_pure hm _
  · exact keeps_boundMethod hm _ _ _
  · exact keeps_fail hm _ _

theorem keeps_inherited (id : NodeId) (keyword method : Token) : Keeps c (inherited id keyword method) m [] := by
  refine keeps_get ?_
  repeat' split
  all_goals first | exact keeps_fail hm _ _ | exact keeps_boundMethod hm _ _ _

theorem keeps_print (v : Value) : Keeps c (print v) m [] := by
  have hfollows : ∀ output, m.Follows c { m with output := output } [] := fun output =>
    ⟨⟨hm.bindings, hm.store⟩, .refl _ _, rfl⟩
  unfold Keeps print
  cases h : (m.output.writeLine (m.store.display v)).1 <;> simp only [h]
  · exact ⟨_, hfollows _⟩
  · exact hfollows _

end Operations

/-- A call is counted and then no longer. -/
theorem keeps_asCall {run : Run α} {m : Machine} (hrun : Keeps c run { m with depth := m.depth + 1 } []) :
    Keeps c (asCall run) m [] := by
  have hback : ∀ (m' : Machine) names, Machine.Follows c { m with depth := m.depth + 1 } m' names →
      m.Follows c { m' with depth := m.depth } names := by
    intro m' names h
    have hcontext := h.context
    simp only [Machine.context, Context.mk.injEq] at hcontext
    refine ⟨⟨h.sound.bindings, h.sound.store⟩, h.grows, ?_⟩
    simp only [Machine.context, Context.mk.injEq]
    exact ⟨hcontext.1, hcontext.2.1, trivial, hcontext.2.2.2⟩
  unfold Keeps at hrun ⊢
  unfold asCall
  cases e : run { m with depth := m.depth + 1 } with
  | ok a m' =>
    simp only [e] at hrun ⊢
    exact hback m' [] hrun
  | error k m' =>
    simp only [e] at hrun ⊢
    obtain ⟨some, hrun⟩ := hrun
    exact ⟨some, hback m' some hrun⟩

section Bodies

/-- The run of each expression keeps the invariant. -/
def EvalKeeps (c : Chart) (run : Expr → Run Value) : Prop :=
  ∀ {e own l m}, m.Sound c → m.At l → e.Fits c own l → Keeps c (run e) m []

/-- The run of each statement keeps the invariant. -/
def ExecKeeps (c : Chart) (run : Stmt → Run Completion) : Prop :=
  ∀ {s l m}, m.Sound c → m.At l → s.Fits c l → Keeps c (run s) m s.declares

theorem keeps_each {run : Expr → Run Value} (h : EvalKeeps c run) {own : Option String} {l : Layout} :
    ∀ (es : List Expr) {m : Machine}, m.Sound c → m.At l → (∀ e ∈ es, e.Fits c own l) → Keeps c (each run es) m []
  | [], _, hm, _, _ => keeps_pure hm _
  | e :: rest, m, hm, ha, hes => by
    refine (h hm ha (hes e List.mem_cons_self)).then fun v m' _ h' => ?_
    have hrest := keeps_each h rest h'.sound (h'.at_same hm ha) fun e he => hes e (List.mem_cons_of_mem _ he)
    exact hrest.then fun vs m'' _ h'' => keeps_pure h''.sound _

variable {run : Stmt → Run Completion} (h : ExecKeeps c run)

include h

theorem stays_sequence : ∀ (body : List Stmt) {l : Layout} {m : Machine}, m.Sound c → m.At l →
    Stmt.FitsEach c l body → Stays c (sequence run body) m
  | [], _, _, hm, _, _ => (keeps_pure hm _).stays
  | s :: rest, l, m, hm, ha, hbody => by
    refine (h hm ha hbody.1).bind_stays fun completion m' _ h' => ?_
    cases completion with
    | normal => exact stays_sequence rest h'.sound (h'.at_declare hm ha) hbody.2
    | returned v => exact (keeps_pure h'.sound _).stays

/-- The frame of a scope is new, so no other frame gets a name. -/
theorem keeps_inNewFrame {m : Machine} (hm : m.Sound c) {outer : FrameId} {names : Names} {body : List Stmt}
    {l : Layout} {scope : List String} (hl : Linked m.store.frames m.globals outer l)
    (hnames : ∀ x, x ∈ names ↔ x ∈ scope) (hbody : Stmt.FitsEach c (scope :: l) body) :
    Keeps c (inNewFrame run outer names body) m [] := by
  obtain ⟨some, hfollows⟩ := stays_sequence h body (hm.enter hl names) (Machine.at_enter hl hnames) hbody
  have hback := hfollows.leave
  unfold Halting.after at hback
  unfold Keeps
  rw [inNewFrame_apply]
  cases e : sequence run body (m.enter outer names) with
  | ok a m' =>
    rw [e] at hback
    exact hback
  | error k m' =>
    rw [e] at hback
    exact ⟨[], hback⟩

theorem keeps_callClosure {m : Machine} (hm : m.Sound c) {k : Closure FrameId}
    (hk : k.Placed c m.store.frames m.globals []) {arguments : List Value} (hn : arguments.length = k.arity) :
    Keeps c (callClosure run k arguments) m [] := by
  obtain ⟨⟨name, parameters, body⟩, home, isInitializer⟩ := k
  obtain ⟨l, hl, -, hbody⟩ := hk
  have hrun := keeps_inNewFrame h hm hl (mem_parameterNames hn) hbody
  refine hrun.then fun completion m' _ h' => ?_
  dsimp only
  split
  · exact keeps_get (keeps_pure h'.sound _)
  · split <;> exact keeps_pure h'.sound _

/-- The initializer takes as many arguments as the class. -/
theorem keeps_construct {m : Machine} (hm : m.Sound c) {k : ClassId} {arguments : List Value}
    (hn : ∀ method, m.store.initializer? k = some method → arguments.length = method.arity) :
    Keeps c (construct run k arguments) m [] := by
  have hobject : Keeps c (inHeap fun h => h.addObject k) m [] :=
    keeps_inStore hm _ (hm.store.addObject k) (.refl _ _)
  refine hobject.then fun o m' e h' => keeps_get ?_
  obtain rfl : m' = { m with store := (m.store.inHeap fun h => h.addObject k).2 } := by cases e; rfl
  split
  · rename_i method hmethod
    obtain ⟨d, hd, hx⟩ := Heap.mem_of_method? hmethod
    have hplaced' := h'.sound.store.methods d hd _ _ hx
    have hbind : Keeps c (inStore fun s => s.bind method o) { m with store := (m.store.inHeap fun h => h.addObject k).2 } [] :=
      keeps_inStore h'.sound _ (h'.sound.store.bind hplaced' o) (Store.grows_bind _ _ _ _)
    refine hbind.then fun closure m'' e' h'' => ?_
    have hplaced := Store.placed_bind hplaced' o
    cases e'
    have hinitializer : m.store.initializer? k = some method :=
      (Heap.method?_congr m.store.toHeap (m.store.toHeap.addObject k).2 rfl k _).trans hmethod
    exact (keeps_callClosure h h''.sound hplaced (hn method hinitializer)).then fun _ m₃ _ h₃ => keeps_pure h₃.sound _
  · exact keeps_pure h'.sound _

/-- A call that is admitted keeps the invariant. -/
theorem keeps_call {m : Machine} (hm : m.Sound c) {callee : Value} {arguments : List Value}
    (hn : m.store.arity? callee = some arguments.length) : Keeps c (call run callee arguments) m [] := by
  unfold call
  split
  · exact keeps_get (keeps_pure hm _)
  · refine keeps_get ?_
    split
    · rename_i k hk
      refine keeps_callClosure h hm (hm.store.closures k (Array.mem_of_getElem? hk)) ?_
      rw [Heap.arity?, hk] at hn
      exact (Option.some.inj hn).symm
    · exact keeps_pure hm _
  · refine keeps_construct h hm fun method hmethod => ?_
    rw [Heap.arity?, hmethod] at hn
    exact (Option.some.inj hn).symm
  · exact keeps_pure hm _

end Bodies

theorem admitCall_apply (paren : Token) (callee : Value) (given : Nat) (m : Machine) : admitCall paren callee given m =
    (match m.store.arity? callee with
    | none => fail paren .notCallable
    | some expected => if given ≠ expected then fail paren (.wrongArity expected given)
      else if maxDepth ≤ m.depth then fail paren .stackOverflow else pure () : Run Unit) m := rfl

/-- A call that is admitted has as many arguments as it takes, and nothing has changed. -/
theorem arity_of_admitCall {paren : Token} {callee : Value} {given : Nat} {m m' : Machine} {u : Unit}
    (e : admitCall paren callee given m = .ok u m') : m' = m ∧ m.store.arity? callee = some given := by
  rw [admitCall_apply] at e
  cases h : m.store.arity? callee with
  | none =>
    rw [h] at e
    cases e
  | some expected =>
    rw [h] at e
    dsimp only at e
    split at e
    · cases e
    · rename_i hgiven
      split at e
      · cases e
      · cases e
        exact ⟨rfl, congrArg some (not_not.mp hgiven).symm⟩

theorem keeps_superclassOf {m : Machine} (hm : m.Sound c) (superclass : NameUse) :
    Keeps c (superclassOf superclass) m [] := by
  refine (keeps_read hm _ _).then fun v m' _ h' => ?_
  split
  · exact keeps_pure h'.sound _
  · exact keeps_fail h'.sound _ _

section Declarations

variable {m : Machine} {l : Layout} (hm : m.Sound c) (ha : m.At l)

include hm ha

/-- A declared function stands in the frame that has its own name. -/
theorem keeps_declareFunction {f : Function} (hf : f.Fits c (l.declare [f.name.lexeme])) :
    Keeps c (declareFunction f) m [f.name.lexeme] := by
  have hgrows := grows_define (ha.linked.lt hm.store.within) f.name.lexeme (.function m.store.closures.size)
  have hdefined := hm.store.frames hgrows (hm.store.closed.define _ _ _)
  have hfollows : m.Follows c _ [f.name.lexeme] := Machine.follows_store hm hdefined hgrows
  have hplaced : Closure.Placed c (m.store.frames.define m.current f.name.lexeme (.function m.store.closures.size))
      m.globals [] ⟨f, m.current, false⟩ := ⟨_, (hfollows.at_declare hm ha).linked, hf⟩
  exact keeps_of_ok rfl (Machine.follows_store hm (hdefined.addClosure hplaced) hgrows)

/-- The methods of a class stand in the frame that has its name, or in one inside it that has the superclass. -/
theorem keeps_declareClass {name : Token} {superclass : Option NameUse} {k : Option ClassId}
    (hk : k.isSome = superclass.isSome) {methods : List Function}
    (hfits : Function.FitsEach c ((l.declare [name.lexeme]).ofClass superclass) methods) :
    Keeps c (declareClass name k methods) m [name.lexeme] := by
  have hmethods : ∀ {frame : FrameId} {m' : Machine} {l' : Layout},
      Linked m'.store.frames m'.globals frame l' → Function.FitsEach c (["this"] :: l') methods →
        ∀ (x : String) (method : Closure FrameId), (Methods.ofList frame methods)[x]? = some method →
          method.Placed c m'.store.frames m'.globals .ofInstance := by
    intro frame m' l' hl hfits x method hx
    obtain ⟨f, hf, hdeclared, hframe⟩ := Methods.mem_of_ofList hx
    exact ⟨l', hframe ▸ hl, hdeclared ▸ hfits.mem hf⟩
  have hrun : Keeps c (declareClass name k methods) m ([name.lexeme] ++ [name.lexeme]) := by
    refine (keeps_define hm ha name.lexeme .nil).bind fun _ m₁ _ h₁ => keeps_get ?_
    have ha₁ := h₁.at_declare hm ha
    refine Keeps.then ?_ fun id m₂ _ h₂ => keeps_define h₂.sound (h₂.at_same h₁.sound ha₁) _ _
    cases k with
    | none =>
      cases superclass with
      | some u => cases hk
      | none => exact keeps_inStore h₁.sound _ (h₁.sound.store.addClass (hmethods ha₁.linked hfits)) (.refl _ _)
    | some k =>
      cases superclass with
      | none => cases hk
      | some u =>
        have hsuper : (m₁.enter m₁.current ((∅ : Names).insert "super" (.cls k))).At
            (["super"] :: l.declare [name.lexeme]) :=
          Machine.at_enter ha₁.linked fun x => Names.mem_single "super" x _
        exact keeps_inStore h₁.sound _
          ((h₁.sound.store.addFrame (ha₁.linked.lt h₁.sound.store.within) _).addClass (hmethods hsuper.linked hfits)) (grows_add ..)
  exact hrun.congr (by simp)

end Declarations

end Run

open Run

variable {c : Chart}

section Step

variable {n : Nat} (he : EvalKeeps c (eval n)) (hs : ExecKeeps c (exec n))

include he hs

theorem keeps_eval_succ : EvalKeeps c (eval (n + 1)) := by
  intro e own l m hm ha hfits
  have hpart : ∀ {e' : Expr}, e'.uses ⊆ e.uses → e'.Fits c own l := fun hsub u hu => hfits u (hsub hu)
  cases e with
  | literal value => exact keeps_pure hm _
  | grouping inner => exact he hm ha (hpart (by simp [Expr.uses]))
  | unary operator operand =>
    exact (he hm ha (hpart (by simp [Expr.uses]))).then fun a m' _ h => keeps_unary h.sound operator a
  | binary left operator right =>
    refine (he hm ha (hpart (by simp [Expr.uses]))).then fun a m' _ h => ?_
    refine (he h.sound (h.at_same hm ha) (hpart (by simp [Expr.uses]))).then fun b m'' _ h' => ?_
    exact keeps_binary h'.sound operator a b
  | logical left operator right =>
    refine (he hm ha (hpart (by simp [Expr.uses]))).then fun a m' _ h => ?_
    split
    · exact keeps_pure h.sound _
    · exact he h.sound (h.at_same hm ha) (hpart (by simp [Expr.uses]))
  | read id name => exact keeps_read hm id name
  | assign id name value =>
    exact (he hm ha (hpart (by simp [Expr.uses]))).then fun v m' _ h => keeps_assign h.sound id name v
  | call callee paren arguments =>
    have harguments : ∀ e ∈ arguments, e.Fits c own l := fun e he' =>
      hpart (by simp [Expr.uses, Expr.uses_subset_usesEach he'])
    refine (he hm ha (hpart (by simp [Expr.uses]))).then fun f m₁ _ h₁ => ?_
    refine (keeps_each he arguments h₁.sound (h₁.at_same hm ha) harguments).then fun values m₂ _ h₂ => ?_
    refine (keeps_admitCall h₂.sound _ _ _).then fun _ m₃ e₃ _ => ?_
    obtain ⟨rfl, harity⟩ := arity_of_admitCall e₃
    exact keeps_asCall (keeps_call hs (h₂.sound.deeper _) harity)
  | get object name =>
    refine (he hm ha (hpart (by simp [Expr.uses]))).then fun v m' _ h => ?_
    split
    · exact keeps_property h.sound _ _
    · exact keeps_fail h.sound _ _
  | set object name value =>
    refine (he hm ha (hpart (by simp [Expr.uses]))).then fun v m' _ h => ?_
    split
    · rename_i o _
      refine (he h.sound (h.at_same hm ha) (hpart (by simp [Expr.uses]))).then fun w m'' _ h' => ?_
      have hset : Keeps c (inHeap fun h => ((), h.setField o name.lexeme w)) m'' [] :=
        keeps_of_ok rfl (Machine.follows_store h'.sound (h'.sound.store.setField o name.lexeme w) (.refl _ _))
      exact hset.then fun _ _ _ h₃ => keeps_pure h₃.sound _
    · exact keeps_fail h.sound _ _
  | self id keyword => exact keeps_read hm id keyword
  | inherited id keyword method => exact keeps_inherited hm id keyword method

theorem keeps_exec_succ : ExecKeeps c (exec (n + 1)) := by
  intro s l m hm ha hfits
  cases s with
  | expression e => exact (he hm ha hfits).then fun _ _ _ h => keeps_pure h.sound _
  | print e =>
    exact (he hm ha hfits).then fun v _ _ h => (keeps_print h.sound v).then fun _ _ _ h' => keeps_pure h'.sound _
  | var name initial =>
    have hdefine : ∀ {v : Value} {m' : Machine}, m.Follows c m' [] →
        Keeps c (define name.lexeme v >>= fun _ => pure Completion.normal) m' [name.lexeme] := fun h =>
      (keeps_define h.sound (h.at_same hm ha) _ _).bind fun _ _ _ h' => keeps_pure h'.sound _
    cases initial with
    | none => exact (keeps_pure hm _).then fun v m' _ h => hdefine h
    | some e => exact (he hm ha (hfits.2 e rfl)).then fun v m' _ h => hdefine h
  | block body => exact keeps_get (keeps_inNewFrame hs hm ha.linked (by simp) hfits)
  | branch condition yes no =>
    refine (he hm ha hfits.1).then fun v m' _ h => ?_
    have ha' := h.at_same hm ha
    split
    · have hyes := hs h.sound ha' hfits.2.1
      rw [hfits.2.2.1] at hyes
      exact hyes
    · cases no with
      | none => exact keeps_pure h.sound _
      | some s =>
        have hno := hs h.sound ha' hfits.2.2.2.1
        rw [hfits.2.2.2.2] at hno
        exact hno
  | loop condition body =>
    refine (he hm ha hfits.1).then fun v m' _ h => ?_
    have ha' := h.at_same hm ha
    split
    · refine Keeps.then (hfits.2.2 ▸ hs h.sound ha' hfits.2.1) fun completion m'' _ h' => ?_
      cases completion with
      | normal => exact hs h'.sound (h'.at_same h.sound ha') hfits
      | returned v => exact keeps_pure h'.sound _
    · exact keeps_pure h.sound _
  | function f =>
    exact (keeps_declareFunction hm ha hfits.2).bind fun _ _ _ h => keeps_pure h.sound _
  | ret keyword value =>
    cases value with
    | none => exact keeps_pure hm _
    | some e => exact (he hm ha (hfits e rfl)).then fun _ _ _ h => keeps_pure h.sound _
  | classDecl name superclass methods =>
    have hdeclare : ∀ {k : Option ClassId} {m' : Machine}, k.isSome = superclass.isSome → m.Follows c m' [] →
        Keeps c (declareClass name k methods >>= fun _ => pure Completion.normal) m' [name.lexeme] := fun hk h =>
      (keeps_declareClass h.sound (h.at_same hm ha) hk hfits.2.2).bind fun _ _ _ h' => keeps_pure h'.sound _
    cases superclass with
    | none => exact (keeps_pure hm _).then fun k m' e h => by cases e; exact hdeclare rfl h
    | some u =>
      refine (keeps_superclassOf hm u).then fun k m' _ h => (keeps_pure h.sound _).then fun k' m'' e _ => ?_
      cases e
      exact hdeclare rfl h

end Step

/-- One induction on the bound for both evaluators: calls run statements, and statements evaluate. -/
theorem keeps_evaluators (c : Chart) (n : Nat) : EvalKeeps c (eval n) ∧ ExecKeeps c (exec n) := by
  induction n with
  | zero => exact ⟨fun hm _ _ => ⟨[], .refl hm⟩, fun hm _ _ => ⟨[], .refl hm⟩⟩
  | succ n ih => exact ⟨keeps_eval_succ ih.1 ih.2, keeps_exec_succ ih.1 ih.2⟩

theorem keeps_eval (n : Nat) : EvalKeeps c (eval n) := (keeps_evaluators c n).1

theorem keeps_exec (n : Nat) : ExecKeeps c (exec n) := (keeps_evaluators c n).2

/-- A statement of a unit that ends gives the current frame the names that it declares. -/
theorem keeps_perform (n : Nat) {s : Stmt} {m : Machine} {l : Layout} (hm : m.Sound c) (ha : m.At l)
    (hs : s.Fits c l) : Keeps c (perform n s) m s.declares := by
  unfold perform
  cases s with
  | expression e =>
    apply keeps_get
    cases m.prompt with
    | true => exact (keeps_eval n hm ha hs).then fun v _ _ h => keeps_print h.sound v
    | false => exact Keeps.then (keeps_exec n hm ha hs) fun _ _ _ h => keeps_pure h.sound _
  | print | var | block | branch | loop | function | ret | classDecl =>
    exact keeps_get ((keeps_exec n hm ha hs).bind fun _ _ _ h => keeps_pure h.sound _)

/-- A unit that fits the top level keeps the invariant, however it ends. -/
theorem keeps_interpret (n : Nat) (statements : List Stmt) {m : Machine} (hm : m.Sound c) (ha : m.At [])
    (hs : Stmt.FitsEach c [] statements) : Keeps c (interpret n statements) m (statements.flatMap Stmt.declares) := by
  induction statements generalizing m with
  | nil => exact keeps_pure hm _
  | cons s rest ih =>
    have hfirst := (keeps_perform n hm ha hs.1).bind fun _ _ _ h => ih h.sound (h.at_declare hm ha) hs.2
    exact hfirst.congr fun x => by simp [or_comm]

end LoxLang
