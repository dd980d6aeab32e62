import LoxLang.Proofs.Heap
import LoxLang.Proofs.Run
import LoxLang.Proofs.Relabeling.Trees

/-! Machines whose code is the same up to node ids and lines. Code runs alike on them: frames and values stay equal, what
is written is equal, and a fault is at the line that the other code has in its place. -/

namespace LoxLang

open Run

/-- The relabelings that lead from code of one machine to code of another, and the node ids each of them is for. -/
structure Labels where
  allowed : Relabeling → Prop
  ids : Relabeling → NodeId → Prop

namespace Labels

section

variable (L : Labels)

structure Carries (ρ : Relabeling) (us : List Use) : Prop where
  allowed : L.allowed ρ
  ids : ∀ u ∈ us, L.ids ρ u.id

/-- The same function, relabeled. -/
def Twin (k k' : Closure FrameId) : Prop :=
  ∃ ρ, L.Carries ρ k.declared.uses ∧ k' = { k with declared := k.declared.relabel ρ }

/-- The distances of corresponding nodes are the same. -/
def Keeps (known known' : Bindings) : Prop := ∀ ρ, L.allowed ρ → ∀ i, L.ids ρ i → known'[ρ.id i]? = known[i]?

structure Twins (m m' : Machine) : Prop where
  heap : m.store.toHeap.Corresponds L.Twin L.Twin m'.store.toHeap
  frames : m'.store.frames = m.store.frames
  globals : m'.globals = m.globals
  current : m'.current = m.current
  depth : m'.depth = m.depth
  prompt : m'.prompt = m.prompt
  output : m'.output = m.output
  bindings : L.Keeps m.bindings m'.bindings

/-- The same halt, but for the line of a fault. -/
inductive Halts : Halt → Halt → Prop
  | error {ρ : Relabeling} (cause : RuntimeFault) (line : Nat) : L.allowed ρ →
    Halts (.error ⟨cause, line⟩) (.error ⟨cause, ρ.line line⟩)
  | outputFailed : Halts .outputFailed .outputFailed
  | exhausted : Halts .exhausted .exhausted

/-- The same value or halt, on twins. -/
def Ends {α : Type} : EStateM.Result Halt Machine α → EStateM.Result Halt Machine α → Prop
  | .ok a t, .ok b t' => b = a ∧ L.Twins t t'
  | .error k t, .error k' t' => L.Halts k k' ∧ L.Twins t t'
  | _, _ => False

def Echoes {α : Type} (m m' : Machine) (run run' : Run α) : Prop := L.Ends (run m) (run' m')

end

variable {L : Labels} {ρ : Relabeling} {m m' : Machine} {α β : Type}

theorem Carries.mono {us vs : List Use} (h : L.Carries ρ us) (hs : vs ⊆ us) : L.Carries ρ vs :=
  ⟨h.allowed, fun u hu => h.ids u (hs hu)⟩

theorem Twin.alike (k k' : Closure FrameId) (h : L.Twin k k') : k.Alike k' := by
  obtain ⟨ρ, -, rfl⟩ := h
  constructor
  · rw [Function.name_relabel, Token.lexeme_relabel]
  · simp only [Closure.arity, Function.parameters_relabel, List.length_map]

namespace Twins

variable (h : L.Twins m m')

include h

theorem display (v : Value) : m'.store.display v = m.store.display v := h.heap.display Twin.alike v

theorem arity? (v : Value) : m'.store.arity? v = m.store.arity? v := h.heap.arity? Twin.alike Twin.alike v

theorem withFrames (fs : Frames) : L.Twins (m.withFrames fs) (m'.withFrames fs) := { h with frames := rfl }

theorem withHeap {heap heap' : Heap FrameId} (hh : heap.Corresponds L.Twin L.Twin heap') :
    L.Twins (m.withHeap heap) (m'.withHeap heap') := { h with heap := hh }

theorem withOutput (output : Sink) : L.Twins { m with output := output } { m' with output := output } :=
  { h with output := rfl }

theorem inFrame (f : FrameId) : L.Twins { m with current := f } { m' with current := f } := { h with current := rfl }

theorem withDepth (depth : Nat) : L.Twins { m with depth := depth } { m' with depth := depth } :=
  { h with depth := rfl }

theorem addFrame (outer : Option FrameId) (names : Names) :
    L.Twins { m with store := (m.store.addFrame outer names).2 } { m' with store := (m'.store.addFrame outer names).2 } :=
  { h with frames := congrArg (·.add outer names) h.frames }

theorem enter (outer : FrameId) (names : Names) : L.Twins (m.enter outer names) (m'.enter outer names) :=
  { h.addFrame (some outer) names with current := congrArg Frames.next h.frames }

theorem found? (hρ : L.allowed ρ) {id : NodeId} (hid : L.ids ρ id) (x : String) :
    m'.found? (ρ.id id) x = m.found? id x := by
  unfold Machine.found?
  rw [h.bindings ρ hρ id hid, h.frames, h.current, h.globals]

theorem assigned (hρ : L.allowed ρ) {id : NodeId} (hid : L.ids ρ id) (x : String) (v : Value) :
    m'.assigned (ρ.id id) x v = m.assigned id x v := by
  unfold Machine.assigned
  rw [h.bindings ρ hρ id hid, h.frames, h.current, h.globals]

end Twins

section Rules

variable {t t' : Machine} {run run' : Run α} {next next' : α → Run β}

theorem echoes_of_ok {a : α} (e : run m = .ok a t) (e' : run' m' = .ok a t') (h : L.Twins t t') :
    L.Echoes m m' run run' := by
  unfold Echoes
  rw [e, e']
  exact ⟨rfl, h⟩

theorem echoes_of_error {k k' : Halt} (e : run m = .error k t) (e' : run' m' = .error k' t') (hk : L.Halts k k')
    (h : L.Twins t t') : L.Echoes m m' run run' := by
  unfold Echoes
  rw [e, e']
  exact ⟨hk, h⟩

theorem echoes_pure (h : L.Twins m m') (a : α) : L.Echoes m m' (pure a) (pure a) := ⟨rfl, h⟩

theorem echoes_exhausted (h : L.Twins m m') : L.Echoes m m' (throw .exhausted : Run α) (throw .exhausted) :=
  ⟨.exhausted, h⟩

theorem echoes_fail (h : L.Twins m m') (hρ : L.allowed ρ) (t : Token) (cause : RuntimeFault) :
    L.Echoes m m' (fail t cause : Run α) (fail (t.relabel ρ) cause) := ⟨.error cause t.line hρ, h⟩

theorem Echoes.bind (h : L.Echoes m m' run run')
    (hn : ∀ a t t', L.Twins t t' → L.Echoes t t' (next a) (next' a)) :
    L.Echoes m m' (run >>= next) (run' >>= next') := by
  unfold Echoes at h ⊢
  cases e : run m <;> cases e' : run' m' <;> rw [e, e'] at h
  · obtain ⟨rfl, h⟩ := h
    rw [Halting.bind_of_ok e, Halting.bind_of_ok e']
    exact hn _ _ _ h
  · exact h.elim
  · exact h.elim
  · rw [Halting.bind_of_error e, Halting.bind_of_error e']
    exact h

theorem echoes_get {next next' : Machine → Run β} (h : L.Echoes m m' (next m) (next' m')) :
    L.Echoes m m' (get >>= next) (get >>= next') := h

/-- A step that changes both stores, perhaps with a result of its own on each machine. -/
theorem echoes_inStore {γ γ' : Type} {f : Store → γ × Store} {f' : Store → γ' × Store} {next : γ → Run β}
    {next' : γ' → Run β}
    (hn : L.Echoes { m with store := (f m.store).2 } { m' with store := (f' m'.store).2 } (next (f m.store).1)
      (next' (f' m'.store).1)) :
    L.Echoes m m' (inStore f >>= next) (inStore f' >>= next') := hn

end Rules

section Operators

variable (h : L.Twins m m') (hρ : L.allowed ρ) (operator : Token)

include h hρ

theorem echoes_sum (a b : Value) : L.Echoes m m' (sum operator a b) (sum (operator.relabel ρ) a b) := by
  unfold sum
  split
  · exact echoes_pure h _
  · exact echoes_pure h _
  · exact echoes_fail h hρ _ _

theorem echoes_onNumbers (f : Number → Number → Value) (a b : Value) :
    L.Echoes m m' (onNumbers operator f a b) (onNumbers (operator.relabel ρ) f a b) := by
  unfold onNumbers
  split
  · exact echoes_pure h _
  · exact echoes_fail h hρ _ _

theorem echoes_binary (a b : Value) : L.Echoes m m' (binary operator a b) (binary (operator.relabel ρ) a b) := by
  unfold binary
  rw [Token.kind_relabel, Token.lexeme_relabel]
  split
  · exact echoes_sum h hρ _ _ _
  iterate 7 exact echoes_onNumbers h hρ _ _ _ _
  · exact echoes_pure h _
  · exact echoes_pure h _
  · exact echoes_fail h hρ _ _

theorem echoes_unary (a : Value) : L.Echoes m m' (unary operator a) (unary (operator.relabel ρ) a) := by
  unfold unary
  rw [Token.kind_relabel]
  split
  · split
    · exact echoes_pure h _
    · exact echoes_fail h hρ _ _
  · exact echoes_pure h _

end Operators

section Operations

variable (h : L.Twins m m')

include h

theorem echoes_print (v : Value) : L.Echoes m m' (print v) (print v) := by
  have hline : m'.output.writeLine (m'.store.display v) = m.output.writeLine (m.store.display v) := by
    rw [h.output, h.display]
  unfold Echoes print
  simp only [hline]
  generalize m.output.writeLine (m.store.display v) = written
  obtain ⟨taken, output⟩ := written
  cases taken with
  | false => exact ⟨.outputFailed, h.withOutput output⟩
  | true => exact ⟨rfl, h.withOutput output⟩

theorem echoes_define (x : String) (v : Value) : L.Echoes m m' (define x v) (define x v) := by
  refine ⟨rfl, { h with frames := ?_ }⟩
  dsimp only
  rw [h.frames, h.current]

theorem echoes_setField (o : ObjectId) (x : String) (v : Value) :
    L.Echoes m m' (inHeap fun h => ((), h.setField o x v)) (inHeap fun h => ((), h.setField o x v)) :=
  ⟨rfl, h.withHeap (h.heap.setField o x v)⟩

theorem Twins.bind {k k' : Closure FrameId} (hk : L.Twin k k') (o : ObjectId) :
    L.Twins { m with store := (m.store.bind k o).2 } { m' with store := (m'.store.bind k' o).2 } ∧
      L.Twin (m.store.bind k o).1 (m'.store.bind k' o).1 := by
  obtain ⟨ρ, hρ, rfl⟩ := hk
  refine ⟨h.addFrame (some k.home) _, ρ, hρ, ?_⟩
  exact congrArg (fun fs => { k with declared := k.declared.relabel ρ, home := Frames.next fs }) h.frames

theorem echoes_boundMethod (hρ : L.allowed ρ) (c : ClassId) (o : ObjectId) (name : Token) :
    L.Echoes m m' (boundMethod c o name) (boundMethod c o (name.relabel ρ)) := by
  refine echoes_get ?_
  have hmethod := h.heap.method? c name.lexeme
  rw [Token.lexeme_relabel]
  generalize m.store.method? c name.lexeme = method, m'.store.method? c name.lexeme = method' at hmethod ⊢
  cases hmethod with
  | none => exact echoes_fail h hρ _ _
  | some hk =>
    obtain ⟨hl, hbound⟩ := h.bind hk o
    have hsize : m'.store.closures.size = m.store.closures.size := size_of_rel h.heap.closures
    exact ⟨congrArg Value.function hsize, hl.withHeap (hl.heap.addClosure hbound)⟩

theorem echoes_property (hρ : L.allowed ρ) (o : ObjectId) (name : Token) :
    L.Echoes m m' (property o name) (property o (name.relabel ρ)) := by
  refine echoes_get ?_
  simp only [h.heap.field?, h.heap.objects, Token.lexeme_relabel]
  cases m.store.field? o name.lexeme with
  | some v => exact echoes_pure h v
  | none =>
    cases m.store.objects[o]? with
    | some object => exact echoes_boundMethod h hρ object.cls o name
    | none => exact echoes_fail h hρ _ _

theorem echoes_admitCall (hρ : L.allowed ρ) (paren : Token) (callee : Value) (given : Nat) :
    L.Echoes m m' (admitCall paren callee given) (admitCall (paren.relabel ρ) callee given) := by
  refine echoes_get ?_
  simp only [h.arity?, h.depth]
  split
  · exact echoes_fail h hρ _ _
  · split
    · exact echoes_fail h hρ _ _
    · split
      · exact echoes_fail h hρ _ _
      · exact echoes_pure h _

section Names

variable (hρ : L.allowed ρ) {id : NodeId} (hid : L.ids ρ id)

include hρ hid

theorem echoes_read (name : Token) : L.Echoes m m' (read id name) (read (ρ.id id) (name.relabel ρ)) := by
  have hfound := h.found? hρ hid name.lexeme
  cases hv : m.found? id name.lexeme with
  | some v => exact echoes_of_ok (read_of_found hv) (read_of_found (hfound.trans hv)) h
  | none =>
    exact echoes_of_error (read_of_missing hv) (read_of_missing (hfound.trans hv)) (.error _ name.line hρ) h

theorem echoes_assign (name : Token) (v : Value) :
    L.Echoes m m' (assign id name v) (assign (ρ.id id) (name.relabel ρ) v) := by
  have hassigned := h.assigned hρ hid name.lexeme v
  cases hv : m.assigned id name.lexeme v with
  | mk taken fs =>
    cases taken with
    | true => exact echoes_of_ok (assign_of_assigned hv) (assign_of_assigned (hassigned.trans hv)) (h.withFrames fs)
    | false =>
      exact echoes_of_error (assign_of_refused hv) (assign_of_refused (hassigned.trans hv)) (.error _ name.line hρ)
        (h.withFrames fs)

theorem echoes_inherited (keyword method : Token) :
    L.Echoes m m' (inherited id keyword method) (inherited (ρ.id id) (keyword.relabel ρ) (method.relabel ρ)) := by
  refine echoes_get ?_
  rw [h.bindings ρ hρ id hid, h.frames, h.current]
  cases m.bindings[id]? with
  | none => exact echoes_fail h hρ _ _
  | some d =>
    dsimp only
    split
    · cases d with
      | zero => exact echoes_fail h hρ _ _
      | succ d =>
        dsimp only
        split
        · exact echoes_boundMethod h hρ _ _ method
        · exact echoes_fail h hρ _ _
    · exact echoes_fail h hρ _ _

end Names

end Operations

/-- What evaluates an expression does so alike on twins. -/
def EvalEchoes (L : Labels) (run : Expr → Run Value) : Prop :=
  ∀ {e : Expr} {ρ : Relabeling} {m m' : Machine}, L.Twins m m' → L.Carries ρ e.uses →
    L.Echoes m m' (run e) (run (e.relabel ρ))

/-- What runs a statement does so alike on twins. -/
def ExecEchoes (L : Labels) (run : Stmt → Run Completion) : Prop :=
  ∀ {s : Stmt} {ρ : Relabeling} {m m' : Machine}, L.Twins m m' → L.Carries ρ s.uses →
    L.Echoes m m' (run s) (run (s.relabel ρ))

theorem echoes_each {run : Expr → Run Value} (he : EvalEchoes L run) : ∀ (es : List Expr) {m m' : Machine},
    L.Twins m m' → L.Carries ρ (Expr.usesEach es) →
      L.Echoes m m' (each run es) (each run (Expr.relabelEach ρ es))
  | [], _, _, h, _ => echoes_pure h _
  | e :: rest, _, _, h, hu => by
    have hrest : L.Carries ρ (Expr.usesEach rest) := hu.mono (List.subset_append_right _ _)
    refine (he h (hu.mono (List.subset_append_left _ _))).bind fun v t t' ht => ?_
    exact (echoes_each he rest ht hrest).bind fun vs t t' ht => echoes_pure ht _

section Bodies

variable {run : Stmt → Run Completion} (hx : ExecEchoes L run)

include hx

theorem echoes_sequence : ∀ (body : List Stmt) {m m' : Machine}, L.Twins m m' →
    L.Carries ρ (Stmt.usesEach body) →
      L.Echoes m m' (sequence run body) (sequence run (Stmt.relabelEach ρ body))
  | [], _, _, h, _ => echoes_pure h _
  | s :: rest, _, _, h, hu => by
    refine (hx h (hu.mono (List.subset_append_left _ _))).bind fun completion t t' ht => ?_
    cases completion with
    | normal => exact echoes_sequence rest ht (hu.mono (List.subset_append_right _ _))
    | returned v => exact echoes_pure ht _

theorem echoes_inNewFrame (h : L.Twins m m') (outer : FrameId) (names : Names) {body : List Stmt}
    (hu : L.Carries ρ (Stmt.usesEach body)) :
    L.Echoes m m' (inNewFrame run outer names body) (inNewFrame run outer names (Stmt.relabelEach ρ body)) := by
  have hbody := echoes_sequence hx body (h.enter outer names) hu
  unfold Echoes at hbody ⊢
  rw [inNewFrame_apply, inNewFrame_apply, h.current]
  revert hbody
  cases sequence run body (m.enter outer names) <;>
    cases sequence run (Stmt.relabelEach ρ body) (m'.enter outer names) <;> intro hbody
  · exact ⟨hbody.1, hbody.2.inFrame m.current⟩
  · exact hbody
  · exact hbody
  · exact ⟨hbody.1, hbody.2.inFrame m.current⟩

theorem echoes_callClosure (h : L.Twins m m') {k k' : Closure FrameId} (hk : L.Twin k k') (arguments : List Value) :
    L.Echoes m m' (callClosure run k arguments) (callClosure run k' arguments) := by
  obtain ⟨⟨name, parameters, body⟩, home, initializer⟩ := k
  obtain ⟨ρ, hρ, rfl⟩ := hk
  have hnames : parameterNames (parameters.map (Token.relabel ρ)) arguments = parameterNames parameters arguments := by
    unfold parameterNames
    rw [List.zip_map_left, List.foldl_map]
    rfl
  have hframe : L.Echoes m m' (inNewFrame run home (parameterNames parameters arguments) body)
      (inNewFrame run home (parameterNames (parameters.map (Token.relabel ρ)) arguments) (Stmt.relabelEach ρ body)) := by
    rw [hnames]
    exact echoes_inNewFrame hx h home _ hρ
  refine hframe.bind fun completion t t' ht => ?_
  dsimp only
  cases initializer with
  | true =>
    refine echoes_get ?_
    rw [ht.frames]
    exact echoes_pure ht _
  | false =>
    cases completion with
    | normal => exact echoes_pure ht _
    | returned v => exact echoes_pure ht _

theorem echoes_construct (h : L.Twins m m') (c : ClassId) (arguments : List Value) :
    L.Echoes m m' (construct run c arguments) (construct run c arguments) := by
  have hadd : L.Twins { m with store := (m.store.inHeap fun h => h.addObject c).2 }
      { m' with store := (m'.store.inHeap fun h => h.addObject c).2 } := h.withHeap (h.heap.addObject c)
  have hnumber : (m'.store.inHeap fun h => h.addObject c).1 = (m.store.inHeap fun h => h.addObject c).1 :=
    congrArg Array.size h.heap.objects
  refine echoes_inStore (echoes_get ?_)
  rw [hnumber]
  generalize (m.store.inHeap fun h => h.addObject c).1 = o
  revert hadd
  generalize ({ m with store := (m.store.inHeap fun h => h.addObject c).2 } : Machine) = t,
    ({ m' with store := (m'.store.inHeap fun h => h.addObject c).2 } : Machine) = t'
  intro ht
  have hmethod : Option.Rel L.Twin (t.store.initializer? c) (t'.store.initializer? c) :=
    ht.heap.method? c initializerName
  generalize t.store.initializer? c = method, t'.store.initializer? c = method' at hmethod ⊢
  cases hmethod with
  | none => exact echoes_pure ht _
  | some hk =>
    obtain ⟨hl, hbound⟩ := ht.bind hk o
    refine echoes_inStore ?_
    exact (echoes_callClosure hx hl hbound arguments).bind fun _ _ _ ht => echoes_pure ht _

theorem echoes_call (h : L.Twins m m') (callee : Value) (arguments : List Value) :
    L.Echoes m m' (call run callee arguments) (call run callee arguments) := by
  cases callee with
  | native id =>
    refine echoes_get ?_
    dsimp only
    rw [h.heap.natives, funext h.display]
    exact echoes_pure h _
  | function id =>
    refine echoes_get ?_
    have hk := h.heap.closures id
    generalize m.store.closures[id]? = k, m'.store.closures[id]? = k' at hk ⊢
    cases hk with
    | none => exact echoes_pure h _
    | some hk => exact echoes_callClosure hx h hk arguments
  | cls id => exact echoes_construct hx h id arguments
  | nil | bool | number | string | object => exact echoes_pure h _

end Bodies

theorem echoes_asCall {run run' : Run α} (hm : L.Twins m m')
    (h : L.Echoes { m with depth := m.depth + 1 } { m' with depth := m.depth + 1 } run run') :
    L.Echoes m m' (asCall run) (asCall run') := by
  unfold Echoes asCall at *
  rw [hm.depth]
  dsimp only
  revert h
  cases run { m with depth := m.depth + 1 } <;> cases run' { m' with depth := m.depth + 1 } <;> intro h
  · exact ⟨h.1, h.2.withDepth m.depth⟩
  · exact h
  · exact h
  · exact ⟨h.1, h.2.withDepth m.depth⟩

section Declarations

variable (h : L.Twins m m')

include h

theorem echoes_declareFunction {f : Function} (hf : L.Carries ρ f.uses) :
    L.Echoes m m' (declareFunction f) (declareFunction (f.relabel ρ)) := by
  have hnumber : m'.store.closures.size = m.store.closures.size := size_of_rel h.heap.closures
  have htwin : L.Twin ⟨f, m.current, false⟩ ⟨f.relabel ρ, m'.current, false⟩ := ⟨ρ, hf, by rw [h.current]⟩
  have hadd := h.withHeap (h.heap.addClosure htwin)
  refine echoes_get (echoes_inStore ?_)
  rw [Function.name_relabel, Token.lexeme_relabel]
  change L.Echoes _ _ (define _ (.function m.store.closures.size)) (define _ (.function m'.store.closures.size))
  rw [hnumber]
  exact echoes_define hadd _ _

theorem echoes_superclassOf {u : NameUse} (hu : L.Carries ρ [⟨.read, u.id, u.name⟩]) :
    L.Echoes m m' (superclassOf u) (superclassOf (u.relabel ρ)) := by
  refine Echoes.bind (echoes_read h hu.allowed (hu.ids _ List.mem_cons_self) u.name) fun v t t' ht => ?_
  cases v with
  | cls c => exact echoes_pure ht c
  | nil | bool | number | string | native | function | object => exact echoes_fail ht hu.allowed _ _

theorem echoes_declareClass (name : Token) (superclass : Option ClassId) {methods : List Function}
    (hu : L.Carries ρ (Function.usesEach methods)) :
    L.Echoes m m' (declareClass name superclass methods)
      (declareClass (name.relabel ρ) superclass (Function.relabelEach ρ methods)) := by
  have hdeclared : ∀ f ∈ methods, L.Carries ρ f.uses := fun f hf =>
    hu.mono (Function.uses_subset_usesEach hf)
  have hname : ∀ f : Function, (f.relabel ρ).name.lexeme = f.name.lexeme := fun f => by
    rw [Function.name_relabel, Token.lexeme_relabel]
  have hclass : ∀ {t t' : Machine} {home home' : FrameId}, home' = home → L.Twins t t' →
      L.Twins (t.withHeap (t.store.addClass ⟨name.lexeme, superclass, .ofList home methods⟩).2)
        (t'.withHeap (t'.store.addClass ⟨name.lexeme, superclass, .ofList home' (methods.map (Function.relabel ρ))⟩).2) := by
    rintro t t' home _ rfl ht
    refine ht.withHeap (ht.heap.addClass ⟨rfl, rfl, Methods.corresponds_ofList hname fun f hf => ?_⟩)
    exact ⟨ρ, hdeclared f hf, rfl⟩
  rw [Function.relabelEach_eq]
  refine (echoes_define h name.lexeme .nil).bind fun _ t t' ht => echoes_get ?_
  have hnumber : t'.store.classes.size = t.store.classes.size := size_of_rel ht.heap.classes
  rw [ht.current]
  cases superclass with
  | none =>
    refine echoes_inStore ?_
    change L.Echoes _ _ (define _ (.cls t.store.classes.size)) (define _ (.cls t'.store.classes.size))
    rw [hnumber]
    exact echoes_define (hclass rfl ht) _ _
  | some c =>
    have hadd := ht.addFrame (some t.current) ((∅ : Names).insert "super" (.cls c))
    refine echoes_inStore ?_
    change L.Echoes _ _ (define _ (.cls t.store.classes.size)) (define _ (.cls t'.store.classes.size))
    rw [hnumber]
    exact echoes_define (hclass (congrArg Frames.next ht.frames) hadd) _ _

end Declarations

section Step

variable {n : Nat} (he : EvalEchoes L (eval n)) (hx : ExecEchoes L (exec n))

include he hx

theorem echoes_eval_succ : EvalEchoes L (eval (n + 1)) := by
  intro e ρ m m' h hu
  have hρ := hu.allowed
  have hpart : ∀ {e' : Expr}, e'.uses ⊆ e.uses → L.Carries ρ e'.uses := fun hs => hu.mono hs
  cases e with
  | literal value => exact echoes_pure h _
  | grouping inner => exact he h hu
  | unary operator operand => exact (he (e := operand) h hu).bind fun a t t' ht => echoes_unary ht hρ operator a
  | binary left operator right =>
    refine (he h (hpart (by simp [Expr.uses]))).bind fun a t t' ht => ?_
    refine (he ht (hpart (by simp [Expr.uses]))).bind fun b t t' ht => ?_
    exact echoes_binary ht hρ operator a b
  | logical left operator right =>
    refine (he h (hpart (by simp [Expr.uses]))).bind fun a t t' ht => ?_
    have hdecides : decides (operator.relabel ρ) a = decides operator a := rfl
    rw [hdecides]
    split
    · exact echoes_pure ht a
    · exact he ht (hpart (by simp [Expr.uses]))
  | read id name => exact echoes_read h hρ (hu.ids _ List.mem_cons_self) name
  | assign id name value =>
    refine (he h (hpart (by simp [Expr.uses]))).bind fun v t t' ht => ?_
    exact echoes_assign ht hρ (hu.ids _ List.mem_cons_self) name v
  | call callee paren arguments =>
    refine (he h (hpart (by simp [Expr.uses]))).bind fun f t t' ht => ?_
    refine (echoes_each he arguments ht (hu.mono (by simp [Expr.uses]))).bind fun values t t' ht => ?_
    refine (echoes_admitCall ht hρ paren f values.length).bind fun _ t t' ht => ?_
    exact echoes_asCall ht (echoes_call hx (ht.withDepth _) f values)
  | get object name =>
    refine (he (e := object) h hu).bind fun v t t' ht => ?_
    cases v with
    | object o => exact echoes_property ht hρ o name
    | nil | bool | number | string | native | function | cls => exact echoes_fail ht hρ _ _
  | set object name value =>
    refine (he h (hpart (by simp [Expr.uses]))).bind fun v t t' ht => ?_
    cases v with
    | object o =>
      refine (he ht (hpart (by simp [Expr.uses]))).bind fun w t t' ht => ?_
      exact (echoes_setField ht o name.lexeme w).bind fun _ _ _ ht => echoes_pure ht w
    | nil | bool | number | string | native | function | cls => exact echoes_fail ht hρ _ _
  | self id keyword => exact echoes_read h hρ (hu.ids _ List.mem_cons_self) keyword
  | inherited id keyword method => exact echoes_inherited h hρ (hu.ids _ List.mem_cons_self) keyword method

theorem echoes_exec_succ : ExecEchoes L (exec (n + 1)) := by
  intro s ρ m m' h hu
  have hpart : ∀ {e : Expr}, e.uses ⊆ s.uses → L.Carries ρ e.uses := fun hs => hu.mono hs
  have hpart' : ∀ {s' : Stmt}, s'.uses ⊆ s.uses → L.Carries ρ s'.uses := fun hs => hu.mono hs
  cases s with
  | expression e => exact (he h hu).bind fun _ _ _ ht => echoes_pure ht _
  | print e =>
    refine (he h hu).bind fun v t t' ht => ?_
    exact (echoes_print ht v).bind fun _ _ _ ht => echoes_pure ht _
  | var name initial =>
    have hdefine : ∀ {t t'} (v : Value), L.Twins t t' →
        L.Echoes t t' (define name.lexeme v >>= fun _ => pure Completion.normal)
          (define name.lexeme v >>= fun _ => pure .normal) := fun v ht =>
      (echoes_define ht name.lexeme v).bind fun _ _ _ ht => echoes_pure ht _
    cases initial with
    | none => exact (echoes_pure h Value.nil).bind fun v _ _ ht => hdefine v ht
    | some e => exact (he h hu).bind fun v _ _ ht => hdefine v ht
  | block body =>
    refine echoes_get ?_
    rw [h.current]
    exact echoes_inNewFrame hx h m.current ∅ hu
  | branch condition yes no =>
    refine (he h (hpart (by simp [Stmt.uses]))).bind fun v t t' ht => ?_
    split
    · exact hx ht (hpart' (by simp [Stmt.uses]))
    · cases no with
      | none => exact echoes_pure ht _
      | some s => exact hx ht (hpart' (by simp [Stmt.uses, Stmt.usesOption]))
  | loop condition body =>
    refine (he h (hpart (by simp [Stmt.uses]))).bind fun v t t' ht => ?_
    split
    · refine (hx ht (hpart' (by simp [Stmt.uses]))).bind fun completion t t' ht => ?_
      cases completion with
      | normal => exact hx ht hu
      | returned v => exact echoes_pure ht _
    · exact echoes_pure ht _
  | function f => exact (echoes_declareFunction h hu).bind fun _ _ _ ht => echoes_pure ht _
  | ret keyword value =>
    cases value with
    | none => exact echoes_pure h _
    | some e => exact (he h hu).bind fun v _ _ ht => echoes_pure ht _
  | classDecl name superclass methods =>
    have hdeclare : ∀ {t t'} (c : Option ClassId), L.Twins t t' →
        L.Echoes t t' (declareClass name c methods >>= fun _ => pure Completion.normal)
          (declareClass (name.relabel ρ) c (Function.relabelEach ρ methods) >>= fun _ => pure .normal) := fun c ht =>
      (echoes_declareClass ht name c (hu.mono (by simp [Stmt.uses]))).bind fun _ _ _ ht => echoes_pure ht _
    cases superclass with
    | none => exact (echoes_pure h (none : Option ClassId)).bind fun c _ _ ht => hdeclare c ht
    | some u =>
      have hclass := (echoes_superclassOf h (u := u) (hu.mono (by simp [Stmt.uses]))).bind fun c _ _ ht =>
        (echoes_pure ht (some c)).bind fun c _ _ ht => hdeclare c ht
      exact hclass

end Step

/-- One induction on the bound for both evaluators, since calls run statements and statements evaluate. -/
theorem echoes_evaluators (L : Labels) (n : Nat) : EvalEchoes L (eval n) ∧ ExecEchoes L (exec n) := by
  induction n with
  | zero => exact ⟨fun h _ => echoes_exhausted h, fun h _ => echoes_exhausted h⟩
  | succ n ih => exact ⟨echoes_eval_succ ih.1 ih.2, echoes_exec_succ ih.1 ih.2⟩

theorem echoes_perform (n : Nat) (h : L.Twins m m') {s : Stmt} (hu : L.Carries ρ s.uses) :
    L.Echoes m m' (perform n s) (perform n (s.relabel ρ)) := by
  obtain ⟨he, hx⟩ := echoes_evaluators L n
  refine echoes_get ?_
  rw [h.prompt]
  have hstatement : L.Echoes m m' (exec n s >>= fun _ => pure ()) (exec n (s.relabel ρ) >>= fun _ => pure ()) :=
    (hx h hu).bind fun _ _ _ ht => echoes_pure ht _
  cases s with
  | expression e =>
    cases m.prompt with
    | true => exact (he h hu).bind fun v _ _ ht => echoes_print ht v
    | false => exact hstatement
  | _ => exact hstatement

/-- The statements of a unit, relabeled, run alike on a twin of the machine. -/
theorem echoes_interpret (n : Nat) : ∀ (statements : List Stmt) {m m' : Machine}, L.Twins m m' →
    L.Carries ρ (Stmt.usesEach statements) →
      L.Echoes m m' (interpret n statements) (interpret n (Stmt.relabelEach ρ statements))
  | [], _, _, h, _ => echoes_pure h _
  | _ :: rest, _, _, h, hu => (echoes_perform n h (hu.mono (List.subset_append_left _ _))).bind fun _ _ _ ht =>
    echoes_interpret n rest ht (hu.mono (List.subset_append_right _ _))

end Labels

end LoxLang
