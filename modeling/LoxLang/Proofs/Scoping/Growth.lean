import LoxLang.Proofs.Scoping.Agreement

/-! Which frames a run gives names to, whatever the machine it begins on and however it ends: new ones, and the frame it
runs in, which gets names that the statement declares. No frame loses a name or moves into another. -/

namespace LoxLang

open Frames

mutual

/-- The names that a statement may give to the frame it runs in. -/
def Stmt.gives : Stmt → List String
  | .var name _ | .classDecl name _ _ => [name.lexeme]
  | .function f => [f.name.lexeme]
  | .branch _ yes no => yes.gives ++ Stmt.givesOption no
  | .loop _ body => body.gives
  | .expression _ | .print _ | .block _ | .ret _ _ => []

def Stmt.givesOption : Option Stmt → List String
  | none => []
  | some s => s.gives

end

mutual

/-- As programs are read, branches and loop bodies declare nothing, and the names are those that are declared. -/
theorem Stmt.Tidy.gives : ∀ {s : Stmt}, s.Tidy → s.gives = s.declares
  | .var _ _, _ | .classDecl _ _ _, _ | .function _, _ => rfl
  | .expression _, _ | .print _, _ | .block _, _ | .ret _ _, _ => rfl
  | .branch _ _ _, h => by rw [Stmt.gives, h.1.gives, h.2.1, Stmt.TidyOption.gives h.2.2]; rfl
  | .loop _ _, h => by rw [Stmt.gives, h.1.gives, h.2]; rfl

theorem Stmt.TidyOption.gives : ∀ {s : Option Stmt}, Stmt.TidyOption s → Stmt.givesOption s = []
  | none, _ => rfl
  | some _, h => by rw [Stmt.givesOption, h.1.gives, h.2]

end

namespace Frames

variable {fs gs hs : Frames} {f g : FrameId} {names more : List String}

/-- Later frames: all there were, where one of them may have got some of the given names. -/
def Gains (fs gs : Frames) (f : FrameId) (names : List String) : Prop :=
  ∃ added, added ⊆ names ∧ Grows fs gs f added

theorem Gains.refl (fs : Frames) (f : FrameId) (names : List String) : Gains fs fs f names :=
  ⟨[], List.nil_subset _, Grows.refl fs f⟩

theorem Gains.trans (h : Gains fs gs f names) (h' : Gains gs hs f more) : Gains fs hs f (more ++ names) := by
  obtain ⟨added, hadded, hgrows⟩ := h
  obtain ⟨added', hadded', hgrows'⟩ := h'
  refine ⟨added' ++ added, ?_, hgrows.trans hgrows'⟩
  intro x hx
  rcases List.mem_append.mp hx with hx | hx
  · exact List.mem_append_left _ (hadded' hx)
  · exact List.mem_append_right _ (hadded hx)

theorem Gains.mono (h : Gains fs gs f names) (hs : names ⊆ more) : Gains fs gs f more := by
  obtain ⟨added, hadded, hgrows⟩ := h
  exact ⟨added, fun x hx => hs (hadded hx), hgrows⟩

theorem Gains.grows (h : Gains fs gs f []) : Grows fs gs f [] := by
  obtain ⟨added, hadded, hgrows⟩ := h
  obtain rfl := List.subset_nil.mp hadded
  exact hgrows

theorem gains_of_grows (h : Grows fs gs g []) (f : FrameId) : Gains fs gs f [] :=
  ⟨[], List.nil_subset _, h.elsewhere f⟩

/-- A frame that is not there gets no name. -/
theorem define_of_le (h : fs.size ≤ f) (x : String) (v : Value) : fs.define f x v = fs := by
  unfold define
  have hmodify : fs.all.modify f (fun frame => { frame with names := frame.names.insert x v }) = fs.all := by
    refine Array.ext (Array.size_modify ..) fun i hi _ => ?_
    rw [Array.getElem_modify, if_neg]
    rintro rfl
    exact absurd (by rwa [Array.size_modify] at hi) (Nat.not_lt_of_le h)
  rw [hmodify]

theorem gains_define (fs : Frames) (f : FrameId) (x : String) (v : Value) : Gains fs (fs.define f x v) f [x] := by
  by_cases h : f < fs.size
  · exact ⟨[x], fun y hy => hy, grows_define h x v⟩
  · rw [define_of_le (Nat.le_of_not_lt h)]
    exact .refl _ _ _

end Frames

namespace Run

/-- Wherever it begins and however it ends, the run stays in its frame, and gives no other one that was there a name. -/
def Confined {α : Type} (names : List String) (run : Run α) : Prop :=
  ∀ m, (run.after m).current = m.current ∧
    Gains m.store.frames (run.after m).store.frames m.current names

variable {α β : Type} {names more : List String} {run : Run α} {next : α → Run β}

theorem Confined.mono (h : Confined names run) (hs : names ⊆ more) : Confined more run := fun m =>
  ⟨(h m).1, (h m).2.mono hs⟩

/-- A run that leaves the machine as it was. -/
theorem confined_of_idle (h : ∀ m, run.after m = m) : Confined names run := by
  intro m
  rw [h m]
  exact ⟨rfl, .refl _ _ _⟩

theorem confined_pure (a : α) : Confined names (pure a : Run α) := confined_of_idle fun _ => rfl

theorem confined_get : Confined names (get : Run Machine) := confined_of_idle fun _ => rfl

theorem confined_throw (h : Halt) : Confined names (throw h : Run α) := confined_of_idle fun _ => rfl

theorem confined_fail (t : Token) (cause : RuntimeFault) : Confined names (fail t cause : Run α) :=
  confined_of_idle fun _ => rfl

theorem Confined.bind (h : Confined names run) (hn : ∀ a, Confined more (next a)) :
    Confined (more ++ names) (run >>= next) := by
  intro m
  obtain ⟨hcurrent, hgains⟩ := h m
  cases e : run m with
  | ok a u =>
    rw [Halting.after_of_ok e] at hcurrent hgains
    obtain ⟨hcurrent', hgains'⟩ := hn a u
    have hafter : (run >>= next).after m = (next a).after u := by
      simp only [Halting.after, Halting.bind_of_ok e]
    rw [hafter]
    rw [hcurrent] at hcurrent' hgains'
    exact ⟨hcurrent', hgains.trans hgains'⟩
  | error k u =>
    rw [Halting.after_of_error e] at hcurrent hgains
    rw [Halting.after_of_error (Halting.bind_of_error e)]
    exact ⟨hcurrent, hgains.mono (List.subset_append_right _ _)⟩

/-- Behind a run that gives a name to no frame. -/
theorem Confined.then (h : Confined [] run) (hn : ∀ a, Confined names (next a)) : Confined names (run >>= next) := by
  have hbind := h.bind hn
  rwa [List.append_nil] at hbind

theorem Confined.ends (h : Confined names run) (b : β) : Confined names (run >>= fun _ => pure b) := by
  have hbind : Confined ([] ++ names) (run >>= fun _ => pure b) := h.bind fun _ => confined_pure b
  exact hbind

/-- A step on the store that gives a name to no frame. -/
theorem confined_inStore (f : Store → α × Store) (h : ∀ s : Store, ∀ g, Grows s.frames (f s).2.frames g []) :
    Confined [] (inStore f) := fun m => ⟨rfl, gains_of_grows (h m.store m.current) m.current⟩

theorem confined_define (x : String) (v : Value) : Confined [x] (define x v) := fun m =>
  ⟨rfl, gains_define m.store.frames m.current x v⟩

theorem confined_print (v : Value) : Confined [] (print v) := by
  intro m
  unfold Halting.after print
  cases h : (m.output.writeLine (m.store.display v)).1 <;> simp only [h] <;> exact ⟨rfl, .refl _ _ _⟩

theorem confined_inHeap (f : Heap FrameId → α × Heap FrameId) : Confined [] (inHeap f) :=
  confined_inStore _ fun s g => .refl s.frames g

theorem confined_asCall (h : Confined [] run) : Confined [] (asCall run) := by
  intro m
  have hm := h { m with depth := m.depth + 1 }
  unfold Halting.after asCall
  unfold Halting.after at hm
  cases e : run { m with depth := m.depth + 1 } <;> simp only [e] at hm ⊢ <;> exact hm

theorem confined_read (id : NodeId) (name : Token) : Confined [] (read id name) := by
  refine confined_get.then fun m => ?_
  dsimp only
  split
  · exact confined_pure _
  · exact confined_fail _ _

theorem confined_assign (id : NodeId) (name : Token) (v : Value) : Confined [] (assign id name v) := by
  intro m
  have hgrows : Gains m.store.frames (m.assigned id name.lexeme v).2 m.current [] := by
    unfold Machine.assigned
    split
    · exact gains_of_grows (grows_assignAt m.store.frames m.current _ name.lexeme v m.current) _
    · exact gains_of_grows (grows_assign m.store.frames m.globals name.lexeme v m.current) _
  cases h : m.assigned id name.lexeme v with
  | mk assigned fs =>
    rw [h] at hgrows
    cases assigned with
    | true =>
      rw [Halting.after_of_ok (assign_of_assigned h)]
      exact ⟨rfl, hgrows⟩
    | false =>
      rw [Halting.after_of_error (assign_of_refused h)]
      exact ⟨rfl, hgrows⟩

theorem confined_boundMethod (c : ClassId) (o : ObjectId) (name : Token) : Confined [] (boundMethod c o name) := by
  refine confined_get.then fun m => ?_
  split
  · rename_i method _
    refine confined_inStore _ fun s g => ?_
    exact Store.grows_bind s method o g
  · exact confined_fail _ _

theorem confined_property (o : ObjectId) (name : Token) : Confined [] (property o name) := by
  refine confined_get.then fun m => ?_
  split
  · exact confined_pure _
  · exact confined_boundMethod _ _ _
  · exact confined_fail _ _

theorem confined_inherited (id : NodeId) (keyword method : Token) : Confined [] (inherited id keyword method) := by
  refine confined_get.then fun m => ?_
  split
  · exact confined_fail _ _
  · split
    · split
      · exact confined_fail _ _
      · split
        · exact confined_boundMethod _ _ _
        · exact confined_fail _ _
    · exact confined_fail _ _

theorem confined_binary (operator : Token) (a b : Value) : Confined [] (binary operator a b) := by
  unfold binary sum onNumbers
  split <;> first
    | exact confined_pure _
    | exact confined_fail _ _
    | split <;> first | exact confined_pure _ | exact confined_fail _ _

theorem confined_unary (operator : Token) (a : Value) : Confined [] (unary operator a) := by
  unfold unary
  split
  · split <;> first | exact confined_pure _ | exact confined_fail _ _
  · exact confined_pure _

theorem confined_admitCall (paren : Token) (callee : Value) (given : Nat) :
    Confined [] (admitCall paren callee given) := by
  refine confined_get.then fun m => ?_
  split
  · exact confined_fail _ _
  · split
    · exact confined_fail _ _
    · split <;> first | exact confined_pure _ | exact confined_fail _ _

theorem confined_each {run : Expr → Run Value} (h : ∀ e, Confined [] (run e)) (es : List Expr) :
    Confined [] (each run es) := by
  induction es with
  | nil => exact confined_pure _
  | cons e rest ih => exact (h e).then fun _ => ih.then fun _ => confined_pure _

section Bodies

variable {run : Stmt → Run Completion} (h : ∀ s, Confined s.gives (run s))

include h

/-- The statements of a body give names to the frame of the body alone. -/
theorem confined_sequence (body : List Stmt) : Confined (body.flatMap Stmt.gives) (sequence run body) := by
  induction body with
  | nil => exact confined_pure _
  | cons s rest ih =>
    have hsubset : rest.flatMap Stmt.gives ++ s.gives ⊆ (s :: rest).flatMap Stmt.gives := fun x hx => by
      rw [List.flatMap_cons]
      exact List.mem_append.mpr (List.mem_append.mp hx).symm
    refine Confined.mono ((h s).bind fun completion => ?_) hsubset
    cases completion with
    | normal => exact ih
    | returned v => exact confined_pure _

/-- The frame of the body is a new one. -/
theorem confined_inNewFrame (outer : FrameId) (names : Names) (body : List Stmt) :
    Confined [] (inNewFrame run outer names body) := by
  intro m
  obtain ⟨-, added, -, hgrows⟩ := confined_sequence h body (m.enter outer names)
  have hadd : Grows m.store.frames (m.enter outer names).store.frames m.current [] :=
    grows_add m.store.frames (some outer) names m.current
  -- what the body adds, it adds to a frame that was not there before
  have hbody : Grows m.store.frames ((sequence run body).after (m.enter outer names)).store.frames m.current [] := by
    have hboth : Grows m.store.frames _ m.store.frames.size (added ++ []) := (hadd.elsewhere _).trans hgrows
    exact hboth.inside le_rfl m.current
  have hafter : (inNewFrame run outer names body).after m =
      { (sequence run body).after (m.enter outer names) with current := m.current } := by
    unfold Halting.after
    rw [inNewFrame_apply]
    cases sequence run body (m.enter outer names) <;> rfl
  rw [hafter]
  exact ⟨rfl, gains_of_grows hbody _⟩

theorem confined_callClosure (k : Closure FrameId) (arguments : List Value) :
    Confined [] (callClosure run k arguments) := by
  refine (confined_inNewFrame h _ _ _).then fun completion => ?_
  split
  · exact confined_get.then fun _ => confined_pure _
  · split <;> exact confined_pure _

theorem confined_construct (c : ClassId) (arguments : List Value) : Confined [] (construct run c arguments) := by
  refine (confined_inHeap _).then fun o => confined_get.then fun m => ?_
  split
  · rename_i method _
    refine (confined_inStore _ fun s g => Store.grows_bind s method o g).then fun closure => ?_
    exact (confined_callClosure h closure arguments).then fun _ => confined_pure _
  · exact confined_pure _

theorem confined_call (callee : Value) (arguments : List Value) : Confined [] (call run callee arguments) := by
  unfold call
  split
  · exact confined_get.then fun _ => confined_pure _
  · refine confined_get.then fun m => ?_
    split
    · exact confined_callClosure h _ _
    · exact confined_pure _
  · exact confined_construct h _ _
  · exact confined_pure _

end Bodies

theorem confined_declareFunction (f : Function) : Confined [f.name.lexeme] (declareFunction f) :=
  confined_get.then fun _ => (confined_inHeap _).then fun _ => confined_define _ _

theorem confined_superclassOf (superclass : NameUse) : Confined [] (superclassOf superclass) := by
  refine (confined_read _ _).then fun v => ?_
  split
  · exact confined_pure _
  · exact confined_fail _ _

theorem confined_declareClass (name : Token) (superclass : Option ClassId) (methods : List Function) :
    Confined [name.lexeme] (declareClass name superclass methods) := by
  have hsubset : [name.lexeme] ++ [name.lexeme] ⊆ [name.lexeme] := by simp
  refine Confined.mono ((confined_define name.lexeme .nil).bind fun _ => ?_) hsubset
  refine confined_get.then fun m => Confined.then (confined_inStore _ fun s g => ?_) fun id => confined_define _ _
  cases superclass with
  | none => exact .refl s.frames g
  | some c => exact grows_add s.frames (some m.current) _ g

end Run

open Run

section Step

variable {n : Nat} (he : ∀ e, Confined [] (eval n e)) (hs : ∀ s : Stmt, Confined s.gives (exec n s))

include he hs

theorem confined_eval_succ (e : Expr) : Confined [] (eval (n + 1) e) := by
  cases e with
  | literal value => exact confined_pure _
  | grouping inner => exact he inner
  | unary operator operand => exact (he operand).then fun a => confined_unary operator a
  | binary left operator right =>
    exact (he left).then fun a => (he right).then fun b => confined_binary operator a b
  | logical left operator right =>
    refine (he left).then fun a => ?_
    split
    · exact confined_pure _
    · exact he right
  | read id name => exact confined_read id name
  | assign id name value => exact (he value).then fun v => confined_assign id name v
  | call callee paren arguments =>
    refine (he callee).then fun f => (confined_each he arguments).then fun values => ?_
    exact (confined_admitCall _ _ _).then fun _ => confined_asCall (confined_call hs f values)
  | get object name =>
    refine (he object).then fun v => ?_
    split
    · exact confined_property _ _
    · exact confined_fail _ _
  | set object name value =>
    refine (he object).then fun v => ?_
    split
    · exact (he value).then fun v => (confined_inHeap _).then fun _ => confined_pure _
    · exact confined_fail _ _
  | self id keyword => exact confined_read id keyword
  | inherited id keyword method => exact confined_inherited id keyword method

theorem confined_exec_succ (s : Stmt) : Confined s.gives (exec (n + 1) s) := by
  cases s with
  | expression e => exact (he e).then fun _ => confined_pure _
  | print e => exact (he e).then fun v => (confined_print v).then fun _ => confined_pure _
  | var name initial =>
    cases initial with
    | none => exact Confined.then (confined_pure _) fun v => (confined_define _ _).ends _
    | some e => exact (he e).then fun v => (confined_define _ _).ends _
  | block body => exact confined_get.then fun _ => confined_inNewFrame hs _ _ body
  | branch condition yes no =>
    refine (he condition).then fun v => ?_
    split
    · exact (hs yes).mono (List.subset_append_left _ _)
    · cases no with
      | none => exact confined_pure _
      | some s => exact (hs s).mono (List.subset_append_right _ _)
  | loop condition body =>
    refine (he condition).then fun v => ?_
    split
    · have hsubset : body.gives ++ body.gives ⊆ (Stmt.loop condition body).gives := by simp [Stmt.gives]
      refine Confined.mono ((hs body).bind fun completion => ?_) hsubset
      cases completion with
      | normal => exact hs (.loop condition body)
      | returned v => exact confined_pure _
    · exact confined_pure _
  | function f => exact (confined_declareFunction f).ends _
  | ret keyword value =>
    cases value with
    | none => exact confined_pure _
    | some e => exact (he e).then fun _ => confined_pure _
  | classDecl name superclass methods =>
    cases superclass with
    | none => exact Confined.then (confined_pure _) fun _ => (confined_declareClass _ _ _).ends _
    | some u =>
      exact (confined_superclassOf u).then fun _ => Confined.then (confined_pure _) fun _ =>
        (confined_declareClass _ _ _).ends _

end Step

/-- One induction on the bound for both evaluators, since calls run statements and statements evaluate. -/
theorem confined_evaluators (n : Nat) :
    (∀ e, Confined [] (eval n e)) ∧ ∀ s : Stmt, Confined s.gives (exec n s) := by
  induction n with
  | zero => exact ⟨fun _ => confined_throw _, fun _ => confined_throw _⟩
  | succ n ih => exact ⟨confined_eval_succ ih.1 ih.2, confined_exec_succ ih.1 ih.2⟩

theorem confined_eval (n : Nat) (e : Expr) : Confined [] (eval n e) := (confined_evaluators n).1 e

theorem confined_exec (n : Nat) (s : Stmt) : Confined s.gives (exec n s) := (confined_evaluators n).2 s

theorem confined_perform (n : Nat) (s : Stmt) : Confined s.gives (perform n s) := by
  refine confined_get.then fun m => ?_
  split
  · exact (confined_eval n _).then fun v => confined_print v
  · exact (confined_exec n _).ends _

/-- What a unit adds to the frame it runs in, its statements declare that have begun to run. -/
theorem grows_interpret (n : Nat) (statements : List Stmt) (m : Machine) :
    ∃ names, Grows m.store.frames ((interpret n statements).after m).store.frames m.current names ∧
      ∀ x ∈ names, ∃ s ∈ statements, ∃ rest m', x ∈ s.gives ∧
        Moment.Visits ⟨n, .unit statements, m⟩ ⟨n, .unit (s :: rest), m'⟩ := by
  induction statements generalizing m with
  | nil => exact ⟨[], .refl _ _, by simp⟩
  | cons s rest ih =>
    obtain ⟨hcurrent, added, hadded, hgrows⟩ := confined_perform n s m
    have hfirst : ∀ x ∈ added, ∃ s' ∈ s :: rest, ∃ rest' m', x ∈ s'.gives ∧
        Moment.Visits ⟨n, .unit (s :: rest), m⟩ ⟨n, .unit (s' :: rest'), m'⟩ := fun x hx =>
      ⟨s, List.mem_cons_self, rest, m, hadded hx, .refl⟩
    cases e : perform n s m with
    | error k u =>
      have hafter : (interpret n (s :: rest)).after m = u := Halting.after_of_error (Halting.bind_of_error e)
      rw [Halting.after_of_error e] at hgrows
      rw [hafter]
      exact ⟨added, hgrows, hfirst⟩
    | ok _ u =>
      have hafter : (interpret n (s :: rest)).after m = (interpret n rest).after u := by
        change (perform n s >>= fun _ => interpret n rest).after m = _
        simp only [Halting.after, Halting.bind_of_ok e]
      rw [Halting.after_of_ok e] at hgrows hcurrent
      rw [hafter]
      obtain ⟨names, hrest, hnames⟩ := ih u
      rw [hcurrent] at hrest
      refine ⟨names ++ added, hgrows.trans hrest, fun x hx => ?_⟩
      rcases List.mem_append.mp hx with hx | hx
      · obtain ⟨s', hs', rest', m', hgives, hvisits⟩ := hnames x hx
        exact ⟨s', List.mem_cons_of_mem _ hs', rest', m', hgives, hvisits.head (.next e)⟩
      · exact hfirst x hx

theorem Stmt.TidyEach.mem {body : List Stmt} (h : Stmt.TidyEach body) {s : Stmt} (hs : s ∈ body) : s.Tidy := by
  induction body with
  | nil => cases hs
  | cons first rest ih =>
    rcases List.mem_cons.mp hs with rfl | hs
    · exact h.1
    · exact ih h.2 hs

namespace Session

/-- The names that become global by a unit are declared by statements of it that were reached. -/
theorem Reachable.grows_run {s : Session} (h : s.Reachable) (n : Nat) (source : String) :
    ∃ names, Grows s.machine.store.frames (s.run n source).2.machine.store.frames s.machine.globals names ∧
      ∀ x ∈ names, ∃ d rest m, x ∈ d.declares ∧ s.Visits n source ⟨n, .unit (d :: rest), m⟩ := by
  cases ha : s.accepted? source with
  | none =>
    obtain ⟨sink, hs⟩ := run_of_refused ha n
    rw [hs]
    exact ⟨[], .refl _ _, by simp⟩
  | some unit =>
    obtain ⟨statements, bindings⟩ := unit
    obtain ⟨names, hgrows, hnames⟩ := grows_interpret n statements (s.ready bindings)
    obtain ⟨sink, hs⟩ := execute_session n statements
      { s with machine := s.ready bindings, nextId := (s.read source).nextId }
    rw [run_of_accepted ha, hs]
    have hcurrent : (s.ready bindings).current = s.machine.globals := h.atRest.1
    rw [hcurrent] at hgrows
    refine ⟨names, hgrows, fun x hx => ?_⟩
    obtain ⟨d, hd, rest, m, hgives, hvisits⟩ := hnames x hx
    have htidy : d.Tidy := (made_of_accepted ha).tidy.mem hd
    exact ⟨d, rest, m, htidy.gives ▸ hgives, (statements, bindings), ha, hvisits⟩

end Session

/-- A host function gets a name in the global frame, and no other frame changes. -/
theorem Machine.gains_defineNative (m : Machine) (f : Native) :
    Gains m.store.frames (m.defineNative f).store.frames m.globals [f.name] :=
  gains_define m.store.frames m.globals f.name (.native m.store.natives.size)

/-- No frame that was there before an expression gets a name by its evaluation, whatever the expression calls, and by a
statement at most the frame in which it runs does. However the run ends, no frame loses a name, and each stays inside the
same frame. So, once the host functions are defined, a name becomes global only by a statement at the top level of a
unit that declares it and has been reached. -/
theorem frames_keep_shape :
    (∀ n e m, Grows m.store.frames ((eval n e).after m).store.frames m.current []) ∧
    (∀ n s m, ∃ names ⊆ s.gives, Grows m.store.frames ((exec n s).after m).store.frames m.current names) ∧
    (∀ m f, ∃ names ⊆ [f.name],
      Grows m.store.frames (Machine.defineNative m f).store.frames m.globals names) ∧
    (∀ prompt now output diagnostics g x,
      (Session.start prompt now output diagnostics).machine.store.frames.Has g x →
        x = (clock now).name) ∧
    ∀ s : Session, s.Reachable → ∀ n source,
      ∃ names, Grows s.machine.store.frames (s.run n source).2.machine.store.frames s.machine.globals names ∧
        ∀ x ∈ names, ∃ d rest m, x ∈ d.declares ∧ s.Visits n source ⟨n, .unit (d :: rest), m⟩ := by
  refine ⟨fun n e m => ((confined_eval n e) m).2.grows, fun n s m => ((confined_exec n s) m).2,
    Machine.gains_defineNative, ?_, fun s hs => hs.grows_run⟩
  intro prompt now output diagnostics g x hx
  have hframes : (Session.start prompt now output diagnostics).machine.store.frames =
    (Frames.empty.add none ∅).define 0 "clock" (.native 0) := rfl
  rw [hframes, has_define (by rw [size_add]; exact Nat.succ_pos _)] at hx
  rcases hx with hx | hx
  · rw [Frames.Has, here?_add] at hx
    split at hx
    · simp at hx
    · simp [Frames.here?, Frames.empty] at hx
  · exact hx.2

/-- A unit that fails behind a block. The variable of the block, and the one of the function called there, are in frames
of their own. -/
theorem frames_keep_shape_around_block :
    let s := Session.start false ⟨0⟩ .unlimited .unlimited
    let unit := "var y = 0; { var x = 1; function g() { var z = y; y = x; } g(); } nosuch; var w;"
    s.Reachable ∧ (s.run 30 unit).1 = .runtimeError ∧ (s.run 30 unit).2.machine.globalNames = ["clock", "y"] ∧
      ∃ names, Grows s.machine.store.frames (s.run 30 unit).2.machine.store.frames s.machine.globals names ∧
        ∀ x ∈ names, ∃ d rest m, x ∈ d.declares ∧ s.Visits 30 unit ⟨30, .unit (d :: rest), m⟩ :=
  ⟨.start false ⟨0⟩ .unlimited .unlimited, by decide +kernel, by decide +kernel,
    frames_keep_shape.2.2.2.2 _ (.start false ⟨0⟩ .unlimited .unlimited) 30 _⟩

end LoxLang
