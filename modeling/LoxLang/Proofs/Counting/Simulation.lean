import LoxLang.Proofs.Counting.Mates
import LoxLang.Proofs.Lexical.Pairs

/-! Aligned code runs alike on mates: it ends in the same way at the same bound, and leads to mates again. -/

namespace LoxLang.Counting

open Frames Pairing Run

/-- Mates that a run of both programs leads to. -/
def Led (S : Setting) (own K : Pairing) (m m' : Machine) : Between := fun t t' =>
  ∃ K', Leads S own K K' m m' t t'

/-- Both programs end alike. -/
def Sim {α : Type} (S : Setting) (own K : Pairing) (m m' : Machine) (run run' : Run α) : Prop :=
  Alike (fun _ => Led S own K m m') (Led S own K m m') (run m) (run' m')

variable {α β : Type} {S : Setting} {own K K' K'' : Pairing} {m m' t t' u u' : Machine} {μ : Manner}

section Rules

variable {run run' : Run α} {next next' : α → Run β}

theorem sim_of_ok {a : α} (e : run m = .ok a t) (e' : run' m' = .ok a t') (h : Leads S own K K' m m' t t') :
    Sim S own K m m' run run' := by
  unfold Sim
  rw [e, e']
  exact ⟨rfl, K', h⟩

theorem sim_of_error {k : Halt} (e : run m = .error k t) (e' : run' m' = .error k t') (h : Leads S own K K' m m' t t') :
    Sim S own K m m' run run' := by
  unfold Sim
  rw [e, e']
  exact ⟨rfl, K', h⟩

theorem sim_pure (h : Mates S own K m m') (a : α) : Sim S own K m m' (pure a) (pure a) := sim_of_ok rfl rfl (.refl h)

theorem sim_throw (h : Mates S own K m m') (k : Halt) : Sim S own K m m' (throw k : Run α) (throw k) :=
  sim_of_error rfl rfl (.refl h)

theorem sim_fail (h : Mates S own K m m') (t : Token) (cause : RuntimeFault) :
    Sim S own K m m' (fail t cause : Run α) (fail t cause) := sim_throw h _

/-- What runs alike on mates that others have led to. -/
theorem Leads.alike (h : Leads S own K K' m m' t t') (hs : Sim S own K' t t' run run') :
    Alike (fun _ => Led S own K m m') (Led S own K m m') (run t) (run' t') :=
  hs.weaken (fun _ _ _ ⟨K'', h'⟩ => ⟨K'', h.trans h'⟩) fun _ _ ⟨K'', h'⟩ => ⟨K'', h.trans h'⟩

theorem Sim.bind (h : Sim S own K m m' run run')
    (hn : ∀ a t t' K', Leads S own K K' m m' t t' → Sim S own K' t t' (next a) (next' a)) :
    Sim S own K m m' (run >>= next) (run' >>= next') := by
  unfold Sim at h ⊢
  cases e : run m <;> cases e' : run' m' <;> rw [e, e'] at h
  · obtain ⟨rfl, K', h⟩ := h
    rw [Halting.bind_of_ok e, Halting.bind_of_ok e']
    exact h.alike (hn _ _ _ K' h)
  · exact h.elim
  · exact h.elim
  · rw [Halting.bind_of_error e, Halting.bind_of_error e']
    exact h

theorem sim_get {next next' : Machine → Run β} (h : Sim S own K m m' (next m) (next' m')) :
    Sim S own K m m' (get >>= next) (get >>= next') := h

/-- A step that changes both stores, perhaps with a result of its own in each program. -/
theorem sim_inStore {γ γ' : Type} {f : Store → γ × Store} {f' : Store → γ' × Store} {next : γ → Run β}
    {next' : γ' → Run β}
    (h : Leads S own K K' m m' { m with store := (f m.store).2 } { m' with store := (f' m'.store).2 })
    (hn : Sim S own K' { m with store := (f m.store).2 } { m' with store := (f' m'.store).2 }
      (next (f m.store).1) (next' (f' m'.store).1)) :
    Sim S own K m m' (inStore f >>= next) (inStore f' >>= next') := h.alike hn

theorem sim_of_uniform {run : (σ : Type) → Halting σ α} (hu : Lexical.Uniform run) (h : Mates S own K m m') :
    Sim S own K m m' (run _) (run _) := by
  rcases hu with ⟨a, ha⟩ | ⟨k, hk⟩
  · exact sim_of_ok (ha _ m) (ha _ m') (.refl h)
  · exact sim_of_error (hk _ m) (hk _ m') (.refl h)

end Rules

section Operations

variable (h : Mates S own K m m')

include h

theorem sim_print (v : Value) : Sim S own K m m' (print v) (print v) := by
  have hline : m'.output.writeLine (m'.store.display v) = m.output.writeLine (m.store.display v) := by
    rw [h.output, h.heap.display]
  unfold Sim print
  simp only [hline]
  generalize m.output.writeLine (m.store.display v) = written
  obtain ⟨taken, output⟩ := written
  cases taken with
  | false => exact ⟨rfl, K, h.leads_output output⟩
  | true => exact ⟨rfl, K, h.leads_output output⟩

theorem sim_read (hs : Stands own K μ m m') {kind : UseKind} {id : NodeId} {name : Token}
    (hu : Use.Aligned S μ ⟨kind, id, name⟩) : Sim S own K m m' (read id name) (read (id + μ.shift) name) := by
  have hfound := h.found hs hu name.lexeme
  cases hv : m.found? id name.lexeme with
  | some v => exact sim_of_ok (read_of_found hv) (read_of_found (hfound.trans hv)) (.refl h)
  | none => exact sim_of_error (read_of_missing hv) (read_of_missing (hfound.trans hv)) (.refl h)

theorem sim_assign (hs : Stands own K μ m m') {kind : UseKind} {id : NodeId} {name : Token}
    (hu : Use.Aligned S μ ⟨kind, id, name⟩) (v : Value) :
    Sim S own K m m' (assign id name v) (assign (id + μ.shift) name v) := by
  rcases h.assigned hs hu name.lexeme v with ⟨f, f', hf, he, he'⟩ | ⟨he, he'⟩
  · exact sim_of_ok (assign_of_assigned he) (assign_of_assigned he') (h.leads_define hf _ _)
  · exact sim_of_error (assign_of_refused he) (assign_of_refused he') (.refl h)

theorem sim_define (hs : Stands own K μ m m') (hzero : μ.hops 0 0) (x : String) (v : Value) :
    Sim S own K m m' (define x v) (define x v) :=
  sim_of_ok rfl rfl (h.leads_define ((hs.here hzero).imp_right fun hf => ⟨trivial, hf.2⟩) x v)

theorem sim_setField (o : ObjectId) (x : String) (v : Value) :
    Sim S own K m m' (inHeap fun h => ((), h.setField o x v)) (inHeap fun h => ((), h.setField o x v)) :=
  sim_of_ok rfl rfl (h.leads_heap (h.heap.setField o x v))

/-- Bound to an instance, a method stands in a new frame inside its own. -/
theorem Mates.bind {k k' : Closure FrameId} (hk : k.Matches (Homed S K m.store.frames m'.store.frames) k')
    (o : ObjectId) :
    ∃ K', Leads S own K K' m m' { m with store := (m.store.bind k o).2 } { m' with store := (m'.store.bind k' o).2 } ∧
      (m.store.bind k o).1.Matches
        (Homed S K' (m.store.bind k o).2.frames (m'.store.bind k' o).2.frames) (m'.store.bind k' o).1 := by
  obtain ⟨hdeclared, hinitializer, hfaces, hcode⟩ := hk
  refine ⟨_, h.leads_add hfaces.within hfaces.within' ((∅ : Names).insert "this" (.object o)),
    hdeclared, hinitializer, ?_, hcode⟩
  have hinside := hfaces.inside h.frames.closed h.frames.closed' ((∅ : Names).insert "this" (.object o))
    ((∅ : Names).insert "this" (.object o))
  rw [deeper_eq] at hinside
  exact hinside

theorem sim_boundMethod (c : ClassId) (o : ObjectId) (name : Token) :
    Sim S own K m m' (boundMethod c o name) (boundMethod c o name) := by
  refine sim_get ?_
  have hmethod := h.heap.method? c name.lexeme
  generalize m.store.method? c name.lexeme = method, m'.store.method? c name.lexeme = method' at hmethod ⊢
  cases hmethod with
  | none => exact sim_fail h _ _
  | @some k k' hk =>
    obtain ⟨K', hl, hbound⟩ := h.bind hk o
    have hsize : m'.store.closures.size = m.store.closures.size := size_of_rel h.heap.closures
    have hadd := hl.trans (hl.mates.leads_heap (hl.mates.heap.addClosure hbound))
    refine ⟨?_, K', hadd⟩
    exact congrArg Value.function hsize

theorem sim_property (o : ObjectId) (name : Token) : Sim S own K m m' (property o name) (property o name) := by
  refine sim_get ?_
  simp only [h.heap.field?, h.heap.objects]
  cases m.store.field? o name.lexeme with
  | some v => exact sim_pure h v
  | none =>
    cases m.store.objects[o]? with
    | some object => exact sim_boundMethod h object.cls o name
    | none => exact sim_fail h _ _

theorem sim_inherited (hs : Stands own K μ m m') {id : NodeId} {keyword : Token}
    (hu : Use.Aligned S μ ⟨.inherited, id, keyword⟩) (method : Token) :
    Sim S own K m m' (inherited id keyword method) (inherited (id + μ.shift) keyword method) := by
  refine sim_get ?_
  unfold Use.Aligned at hu
  rw [h.left, h.right]
  generalize S.left[id]? = d, S.right[id + μ.shift]? = d' at hu ⊢
  cases hu with
  | none => exact sim_fail h _ _
  | @some d d' hd =>
    obtain ⟨hd, hdeeper⟩ := hd
    dsimp only
    rw [h.frames.getAt? hs hd "super"]
    cases m.store.frames.getAt? m.current d "super" with
    | none => exact sim_fail h _ _
    | some v =>
      cases v with
      | cls c =>
        match d, d', hdeeper rfl with
        | 0, 0, _ => exact sim_fail h _ _
        | d + 1, d' + 1, hd =>
          dsimp only
          rw [h.frames.getAt? hs hd "this"]
          cases m.store.frames.getAt? m.current d "this" with
          | none => exact sim_fail h _ _
          | some v =>
            cases v with
            | object o => exact sim_boundMethod h c o method
            | nil | bool | number | string | native | function | cls => exact sim_fail h _ _
      | nil | bool | number | string | native | function | object => exact sim_fail h _ _

theorem sim_admitCall (paren : Token) (callee : Value) (given : Nat) :
    Sim S own K m m' (admitCall paren callee given) (admitCall paren callee given) := by
  refine sim_get ?_
  simp only [h.heap.arity?, h.depth]
  split
  · exact sim_fail h _ _
  · split
    · exact sim_fail h _ _
    · split
      · exact sim_fail h _ _
      · exact sim_pure h _

end Operations

/-- What evaluates an expression does so alike in both programs. -/
def EvalSims (S : Setting) (own : Pairing) (run : Expr → Run Value) : Prop :=
  ∀ {e : Expr} {μ : Manner} {K : Pairing} {m m' : Machine}, Mates S own K m m' → Stands own K μ m m' →
    e.Aligned S μ → Sim S own K m m' (run e) (run (e.shift μ.shift))

/-- What runs a statement does so alike in both programs. -/
def ExecSims (S : Setting) (own : Pairing) (run : Stmt → Run Completion) : Prop :=
  ∀ {s : Stmt} {μ : Manner} {K : Pairing} {m m' : Machine}, Mates S own K m m' → Stands own K μ m m' →
    s.Aligned S μ → Sim S own K m m' (run s) (run (s.shift μ.shift))

theorem sim_each {run : Expr → Run Value} (he : EvalSims S own run) : ∀ (es : List Expr) {K : Pairing}
    {m m' : Machine}, Mates S own K m m' → Stands own K μ m m' → (∀ e ∈ es, e.Aligned S μ) →
      Sim S own K m m' (each run es) (each run (Expr.shiftEach μ.shift es))
  | [], _, _, _, h, _, _ => sim_pure h _
  | e :: rest, _, _, _, h, hs, hes => by
    refine (he h hs (hes e List.mem_cons_self)).bind fun v t t' K' hl => ?_
    have hrest : ∀ e' ∈ rest, e'.Aligned S μ := fun e' he' => hes e' (List.mem_cons_of_mem _ he')
    exact (sim_each he rest hl.mates (hl.stands h hs) hrest).bind fun vs t t' K' hl => sim_pure hl.mates _

section Bodies

variable {run : Stmt → Run Completion} (hx : ExecSims S own run)

include hx

theorem sim_sequence : ∀ (body : List Stmt) {K : Pairing} {m m' : Machine}, Mates S own K m m' →
    Stands own K μ m m' → Stmt.AlignedEach S μ body →
      Sim S own K m m' (sequence run body) (sequence run (Stmt.shiftEach μ.shift body))
  | [], _, _, _, h, _, _ => sim_pure h _
  | s :: rest, _, _, _, h, hs, hbody => by
    refine (hx h hs hbody.1).bind fun completion t t' K' hl => ?_
    cases completion with
    | normal => exact sim_sequence rest hl.mates (hl.stands h hs) hbody.2
    | returned v => exact sim_pure hl.mates _

/-- Statements in new frames inside two that correspond. -/
theorem sim_inNewFrame (h : Mates S own K m m') {outer outer' : FrameId}
    (hf : Faces (link own K μ.wide) m.store.frames m'.store.frames μ.hops outer outer') (names : Names)
    {body : List Stmt} (hbody : Stmt.AlignedEach S μ.inner body) :
    Sim S own K m m' (inNewFrame run outer names body)
      (inNewFrame run outer' names (Stmt.shiftEach μ.shift body)) := by
  -- The frames are left behind as a pair, for functions may stand in them.
  have hleave : ∀ {t t' : Machine}, Led S own (K.add m.store.frames.size m'.store.frames.size) (m.enter outer names)
      (m'.enter outer' names) t t' → Led S own K m m' { t with current := m.current }
        { t' with current := m'.current } := fun ⟨K', hl⟩ =>
    ⟨K', hl.leave (fun _ _ => .inl) fun _ _ hf => hf.imp_right fun hf => ⟨hf.1.ge, hf.2.ge⟩⟩
  have hsequence : Sim S own (K.add m.store.frames.size m'.store.frames.size) (m.enter outer names)
      (m'.enter outer' names) (sequence run body) (sequence run (Stmt.shiftEach μ.shift body)) :=
    sim_sequence (μ := μ.inner) hx body (h.enter hf.within hf.within' names) (h.stands_enter hf names) hbody
  unfold Sim
  rw [inNewFrame_eq, inNewFrame_eq]
  exact (Alike.weaken hsequence (fun _ _ _ => hleave) fun _ _ => hleave).returning

theorem sim_callClosure (h : Mates S own K m m') {k k' : Closure FrameId}
    (hk : k.Matches (Homed S K m.store.frames m'.store.frames) k') (arguments : List Value) :
    Sim S own K m m' (callClosure run k arguments) (callClosure run k' arguments) := by
  obtain ⟨⟨name, parameters, body⟩, home, initializer⟩ := k
  obtain ⟨declared, home', initializer'⟩ := k'
  obtain ⟨hdeclared, hinitializer, hfaces, hcode⟩ := hk
  dsimp only at hdeclared hinitializer hfaces
  subst hdeclared hinitializer
  have hbody : Stmt.AlignedEach S Manner.shared.inner body := by
    rw [Manner.inner_shared]
    exact Stmt.aligned_sharedEach body hcode
  have hframe : Sim S own K m m' (inNewFrame run home (parameterNames parameters arguments) body)
      (inNewFrame run home' (parameterNames parameters arguments) body) := by
    have hinside := sim_inNewFrame (μ := .shared) hx h (hfaces.mono fun _ _ => .inl) (parameterNames parameters arguments)
      hbody
    rwa [Manner.shared, Stmt.shiftEach_zero] at hinside
  refine hframe.bind fun completion t t' K' hl => ?_
  dsimp only
  cases initializer' with
  | true =>
    have hhome : link own K' True home home' := .inl (hl.grows _ _ (hfaces.here rfl))
    refine sim_get ?_
    rw [hl.mates.frames.here? hhome]
    exact sim_pure hl.mates _
  | false =>
    cases completion with
    | normal => exact sim_pure hl.mates _
    | returned v => exact sim_pure hl.mates _

/-- A new instance is initialized alike. -/
theorem sim_initialized (h : Mates S own K m m') (c : ClassId) (o : ObjectId) (arguments : List Value) :
    Sim S own K m m'
      (match m.store.initializer? c with
        | some method => do
          let closure ← inStore fun s => s.bind method o
          let _ ← callClosure run closure arguments
          return Value.object o
        | none => return Value.object o)
      (match m'.store.initializer? c with
        | some method => do
          let closure ← inStore fun s => s.bind method o
          let _ ← callClosure run closure arguments
          return Value.object o
        | none => return Value.object o) := by
  have hmethod : Option.Rel _ (m.store.initializer? c) (m'.store.initializer? c) := h.heap.method? c initializerName
  generalize m.store.initializer? c = method, m'.store.initializer? c = method' at hmethod ⊢
  cases hmethod with
  | none => exact sim_pure h _
  | some hk =>
    obtain ⟨K', hl, hbound⟩ := h.bind hk o
    refine sim_inStore hl ?_
    exact (sim_callClosure hx hl.mates hbound arguments).bind fun _ _ _ _ hl => sim_pure hl.mates _

theorem sim_construct (h : Mates S own K m m') (c : ClassId) (arguments : List Value) :
    Sim S own K m m' (construct run c arguments) (construct run c arguments) := by
  have hadd := h.leads_heap (h.heap.addObject c)
  have hnumber : (m'.store.inHeap fun h => h.addObject c).1 = (m.store.inHeap fun h => h.addObject c).1 :=
    congrArg Array.size h.heap.objects
  refine sim_inStore hadd (sim_get ?_)
  rw [hnumber]
  exact sim_initialized hx hadd.mates c _ arguments

theorem sim_call (h : Mates S own K m m') (callee : Value) (arguments : List Value) :
    Sim S own K m m' (call run callee arguments) (call run callee arguments) := by
  cases callee with
  | native id =>
    refine sim_get ?_
    dsimp only
    rw [h.heap.natives, funext h.heap.display]
    exact sim_pure h _
  | function id =>
    refine sim_get ?_
    have hk := h.heap.closures id
    generalize m.store.closures[id]? = k, m'.store.closures[id]? = k' at hk ⊢
    cases hk with
    | none => exact sim_pure h _
    | some hk => exact sim_callClosure hx h hk arguments
  | cls id => exact sim_construct hx h id arguments
  | nil | bool | number | string | object => exact sim_pure h _

end Bodies

theorem sim_asCall {run run' : Run α}
    (h : Sim S own K { m with depth := m.depth + 1 } { m' with depth := m'.depth + 1 } run run')
    (hm : Mates S own K m m') : Sim S own K m m' (asCall run) (asCall run') := by
  have hleave : ∀ {t t' : Machine}, Led S own K { m with depth := m.depth + 1 } { m' with depth := m'.depth + 1 } t t' →
      Led S own K m m' { t with depth := m.depth } { t' with depth := m'.depth } := by
    rintro t t' ⟨K', hl⟩
    refine ⟨K', { hl.mates with depth := hm.depth }, hl.grows, hl.fresh, hl.later, hl.later', ?_, ?_⟩
    · have hcontext := hl.context
      simp only [Machine.context, Context.mk.injEq] at hcontext ⊢
      exact ⟨hcontext.1, hcontext.2.1, trivial, hcontext.2.2.2⟩
    · have hcontext := hl.context'
      simp only [Machine.context, Context.mk.injEq] at hcontext ⊢
      exact ⟨hcontext.1, hcontext.2.1, trivial, hcontext.2.2.2⟩
  unfold Sim asCall at *
  dsimp only
  revert h
  cases run { m with depth := m.depth + 1 } <;> cases run' { m' with depth := m'.depth + 1 } <;> intro h
  · exact ⟨h.1, hleave h.2⟩
  · exact h.elim
  · exact h.elim
  · exact ⟨h.1, hleave h.2⟩

theorem faces_of_shared (hs : Stands own K .shared m m') :
    Faces K m.store.frames m'.store.frames Eq m.current m'.current := hs.mono fun _ _ hf => hf.resolve_right fun hf => hf.1

/-- A class whose methods are declared in frames of a pair. -/
theorem Mates.leads_class (h : Mates S own K m m') {f f' : FrameId}
    (hf : Faces K m.store.frames m'.store.frames Eq f f') (name : String) (superclass : Option ClassId)
    {methods : List Function} (hmethods : ∀ f ∈ methods, ∀ u ∈ f.uses, u.id < S.limit) :
    Leads S own K K m m' (m.withHeap (m.store.addClass ⟨name, superclass, .ofList f methods⟩).2)
      (m'.withHeap (m'.store.addClass ⟨name, superclass, .ofList f' methods⟩).2) :=
  h.leads_heap (h.heap.addClass ⟨rfl, rfl, Methods.matches_ofList fun g hg => ⟨hf, hmethods g hg⟩⟩)

section Declarations

variable (h : Mates S own K m m') (hs : Stands own K .shared m m')

include h hs

theorem sim_declareFunction {f : Function} (hf : ∀ u ∈ f.uses, u.id < S.limit) :
    Sim S own K m m' (declareFunction f) (declareFunction f) := by
  have hhomed : (Closure.mk f m.current false).Matches (Homed S K m.store.frames m'.store.frames)
      ⟨f, m'.current, false⟩ := ⟨rfl, rfl, faces_of_shared hs, hf⟩
  have hadd := h.leads_heap (h.heap.addClosure hhomed)
  have hnumber : m'.store.closures.size = m.store.closures.size := size_of_rel h.heap.closures
  refine sim_get (sim_inStore hadd ?_)
  have hdefine := sim_define hadd.mates (hadd.stands h hs) rfl f.name.lexeme (.function m.store.closures.size)
  change Sim S own K _ _ (define _ (.function m.store.closures.size)) (define _ (.function m'.store.closures.size))
  rw [hnumber]
  exact hdefine

theorem sim_superclassOf {u : NameUse} (hu : u.use.Aligned S .shared) :
    Sim S own K m m' (superclassOf u) (superclassOf u) := by
  refine Sim.bind (sim_read h hs hu) fun v t t' K' hl => ?_
  cases v with
  | cls c => exact sim_pure hl.mates c
  | nil | bool | number | string | native | function | object => exact sim_fail hl.mates _ _

theorem sim_declareClass (name : Token) (superclass : Option ClassId) {methods : List Function}
    (hmethods : ∀ f ∈ methods, ∀ u ∈ f.uses, u.id < S.limit) :
    Sim S own K m m' (declareClass name superclass methods) (declareClass name superclass methods) := by
  refine (sim_define h hs rfl name.lexeme .nil).bind fun _ t t' K₁ hl => sim_get ?_
  have h₁ := hl.mates
  have hs₁ := hl.stands h hs
  have hfaces := faces_of_shared hs₁
  have hnumber : t'.store.classes.size = t.store.classes.size := size_of_rel h₁.heap.classes
  have hdefine : ∀ {K₂ u u'}, Leads S own K₁ K₂ t t' u u' →
      Sim S own K₂ u u' (define name.lexeme (.cls t.store.classes.size)) (define name.lexeme (.cls t'.store.classes.size)) := by
    intro K₂ u u' hl₂
    rw [hnumber]
    exact sim_define hl₂.mates (hl₂.stands h₁ hs₁) rfl name.lexeme _
  cases superclass with
  | none =>
    have hclass := h₁.leads_class hfaces name.lexeme none hmethods
    exact sim_inStore hclass (hdefine hclass)
  | some c =>
    have hadd := h₁.leads_add hfaces.within hfaces.within' ((∅ : Names).insert "super" (.cls c))
    have hinside := hfaces.inside h₁.frames.closed h₁.frames.closed' ((∅ : Names).insert "super" (.cls c))
      ((∅ : Names).insert "super" (.cls c))
    rw [deeper_eq] at hinside
    have hclass := hadd.trans (hadd.mates.leads_class hinside name.lexeme (some c) hmethods)
    exact sim_inStore hclass (hdefine hclass)

end Declarations

section Step

variable {n : Nat} (he : EvalSims S own (eval n)) (hx : ExecSims S own (exec n))

include he hx

theorem sim_eval_succ : EvalSims S own (eval (n + 1)) := by
  intro e μ K m m' h hs ha
  have hpart : ∀ {e' : Expr}, e'.uses ⊆ e.uses → e'.Aligned S μ := fun hsub u hu => ha u (hsub hu)
  cases e with
  | literal value => exact sim_pure h _
  | grouping inner => exact he h hs (hpart (by simp [Expr.uses]))
  | unary operator operand =>
    refine (he h hs (hpart (by simp [Expr.uses]))).bind fun a t t' K' hl => ?_
    exact sim_of_uniform (Lexical.uniform_unary operator a) hl.mates
  | binary left operator right =>
    refine (he h hs (hpart (by simp [Expr.uses]))).bind fun a t t' K' hl => ?_
    refine (he hl.mates (hl.stands h hs) (hpart (by simp [Expr.uses]))).bind fun b t t' K' hl => ?_
    exact sim_of_uniform (Lexical.uniform_binary operator a b) hl.mates
  | logical left operator right =>
    refine (he h hs (hpart (by simp [Expr.uses]))).bind fun a t t' K' hl => ?_
    split
    · exact sim_pure hl.mates a
    · exact he hl.mates (hl.stands h hs) (hpart (by simp [Expr.uses]))
  | read id name => exact sim_read h hs (ha ⟨.read, id, name⟩ List.mem_cons_self)
  | assign id name value =>
    refine (he h hs (hpart (by simp [Expr.uses]))).bind fun v t t' K' hl => ?_
    exact sim_assign hl.mates (hl.stands h hs) (ha ⟨.assign, id, name⟩ List.mem_cons_self) v
  | call callee paren arguments =>
    have harguments : ∀ e ∈ arguments, e.Aligned S μ := fun e he' =>
      hpart (by simp [Expr.uses, Expr.uses_subset_usesEach he'])
    refine (he h hs (hpart (by simp [Expr.uses]))).bind fun f t₁ t₁' K₁ hl₁ => ?_
    refine (sim_each he arguments hl₁.mates (hl₁.stands h hs) harguments).bind fun values t₂ t₂' K₂ hl₂ => ?_
    refine (sim_admitCall hl₂.mates paren f values.length).bind fun _ t₃ t₃' K₃ hl₃ => ?_
    exact sim_asCall (sim_call hx hl₃.mates.deeper f values) hl₃.mates
  | get object name =>
    refine (he h hs (hpart (by simp [Expr.uses]))).bind fun v t t' K' hl => ?_
    cases v with
    | object o => exact sim_property hl.mates o name
    | nil | bool | number | string | native | function | cls => exact sim_fail hl.mates _ _
  | set object name value =>
    refine (he h hs (hpart (by simp [Expr.uses]))).bind fun v t t' K' hl => ?_
    cases v with
    | object o =>
      refine (he hl.mates (hl.stands h hs) (hpart (by simp [Expr.uses]))).bind fun w t t' K' hl => ?_
      exact (sim_setField hl.mates o name.lexeme w).bind fun _ _ _ _ hl => sim_pure hl.mates w
    | nil | bool | number | string | native | function | cls => exact sim_fail hl.mates _ _
  | self id keyword => exact sim_read h hs (ha ⟨.self, id, keyword⟩ List.mem_cons_self)
  | inherited id keyword method => exact sim_inherited h hs (ha ⟨.inherited, id, keyword⟩ List.mem_cons_self) method

theorem sim_exec_succ : ExecSims S own (exec (n + 1)) := by
  intro s μ K m m' h hs ha
  have hnormal : ∀ {K m m'}, Mates S own K m m' → Sim S own K m m' (pure Completion.normal) (pure .normal) :=
    fun h => sim_pure h _
  cases s with
  | expression e => exact (he h hs ha).bind fun _ _ _ _ hl => hnormal hl.mates
  | print e =>
    refine (he h hs ha).bind fun v t t' K' hl => ?_
    exact (sim_print hl.mates v).bind fun _ _ _ _ hl => hnormal hl.mates
  | var name initial =>
    obtain ⟨hzero, hinitial⟩ := ha
    have hdefine : ∀ {K' t t'} (v : Value), Leads S own K K' m m' t t' →
        Sim S own K' t t' (define name.lexeme v >>= fun _ => pure Completion.normal)
          (define name.lexeme v >>= fun _ => pure .normal) := fun v hl =>
      (sim_define hl.mates (hl.stands h hs) hzero name.lexeme v).bind fun _ _ _ _ hl => hnormal hl.mates
    cases initial with
    | none => exact (sim_pure h Value.nil).bind fun v _ _ _ hl => hdefine v hl
    | some e => exact (he h hs (hinitial e rfl)).bind fun v _ _ _ hl => hdefine v hl
  | block body => exact sim_get (sim_inNewFrame hx h hs ∅ ha)
  | branch condition yes no =>
    obtain ⟨hcondition, hyes, hno⟩ := ha
    refine (he h hs hcondition).bind fun v t t' K' hl => ?_
    split
    · exact hx hl.mates (hl.stands h hs) hyes
    · cases no with
      | none => exact hnormal hl.mates
      | some s => exact hx hl.mates (hl.stands h hs) hno
  | loop condition body =>
    refine (he h hs ha.1).bind fun v t t' K' hl => ?_
    have hs' := hl.stands h hs
    split
    · refine (hx hl.mates hs' ha.2).bind fun completion u u' K'' hl' => ?_
      cases completion with
      | normal => exact hx hl'.mates (hl'.stands hl.mates hs') (s := .loop condition body) ha
      | returned v => exact sim_pure hl'.mates _
    · exact hnormal hl.mates
  | function f =>
    obtain ⟨rfl, hf⟩ := ha
    rw [Manner.shared, Stmt.shift_zero]
    exact (sim_declareFunction h hs hf).bind fun _ _ _ _ hl => hnormal hl.mates
  | ret keyword value =>
    cases value with
    | none => exact sim_pure h _
    | some e => exact (he h hs (ha e rfl)).bind fun v _ _ _ hl => sim_pure hl.mates _
  | classDecl name superclass methods =>
    obtain ⟨rfl, hsuperclass, hmethods⟩ := ha
    rw [Manner.shared, Stmt.shift_zero]
    have hdeclare : ∀ {K' t t'} (c : Option ClassId), Leads S own K K' m m' t t' →
        Sim S own K' t t' (declareClass name c methods >>= fun _ => pure Completion.normal)
          (declareClass name c methods >>= fun _ => pure .normal) := fun c hl =>
      (sim_declareClass hl.mates (hl.stands h hs) name c hmethods).bind fun _ _ _ _ hl => hnormal hl.mates
    cases superclass with
    | none => exact (sim_pure h (none : Option ClassId)).bind fun c _ _ _ hl => hdeclare c hl
    | some u =>
      have hclass := (sim_superclassOf h hs (hsuperclass u rfl)).bind fun c _ _ _ hl =>
        (sim_pure hl.mates (some c)).bind fun c _ _ _ hl' => hdeclare c (hl.trans hl')
      exact hclass

end Step

/-- One induction on the bound for both evaluators, since calls run statements and statements evaluate. -/
theorem sim_evaluators (S : Setting) (own : Pairing) (n : Nat) : EvalSims S own (eval n) ∧ ExecSims S own (exec n) := by
  induction n with
  | zero => exact ⟨fun h _ _ => sim_throw h _, fun h _ _ => sim_throw h _⟩
  | succ n ih => exact ⟨sim_eval_succ ih.1 ih.2, sim_exec_succ ih.1 ih.2⟩

end LoxLang.Counting
