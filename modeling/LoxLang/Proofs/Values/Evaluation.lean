import LoxLang.Proofs.Scoping.Invariant
import LoxLang.Proofs.Values.Whole

/-! Runs yield values that name what is there. From a whole store every run leads to a whole store in which there is
perhaps more, and the value that it ends with names something of it. -/

namespace LoxLang

open Frames Run

/-- What a statement that returns hands on. -/
def Completion.In (h : Heap FrameId) : Completion → Prop
  | .normal => True
  | .returned v => v.In h

/-- However the run ends, the store is whole and has all that was there, and the result is as stated of its heap. -/
structure Run.Yields {α : Type} (P : Heap FrameId → α → Prop) (run : Run α) (m : Machine) : Prop where
  whole : (run.after m).store.Whole
  le : m.store.toHeap.Le (run.after m).store.toHeap
  result : ∀ a m', run m = .ok a m' → P m'.store.toHeap a

namespace Run

variable {α β : Type} {P : Heap FrameId → α → Prop} {Q : Heap FrameId → β → Prop}

section Rules

variable {run : Run α} {next : α → Run β} {m : Machine}

theorem yields_pure (hm : m.store.Whole) {a : α} (ha : P m.store.toHeap a) : Yields P (pure a) m :=
  ⟨hm, .refl _, fun _ _ e => by cases e; exact ha⟩

theorem yields_throw (hm : m.store.Whole) (k : Halt) : Yields P (throw k) m := ⟨hm, .refl _, fun _ _ e => nomatch e⟩

theorem yields_fail (hm : m.store.Whole) (t : Token) (cause : RuntimeFault) : Yields P (fail t cause) m :=
  yields_throw hm _

theorem yields_get {next : Machine → Run β} (h : Yields Q (next m) m) : Yields Q (get >>= next) m :=
  ⟨h.whole, h.le, h.result⟩

theorem Yields.bind (h : Yields P run m)
    (hn : ∀ a m', m'.store.Whole → m.store.toHeap.Le m'.store.toHeap → P m'.store.toHeap a → Yields Q (next a) m') :
    Yields Q (run >>= next) m := by
  obtain ⟨hwhole, hle, hresult⟩ := h
  cases e : run m with
  | error k m' =>
    rw [Halting.after_of_error e] at hwhole hle
    have hbind : (run >>= next) m = .error k m' := Halting.bind_of_error e
    refine ⟨?_, ?_, fun b m'' e' => nomatch hbind.symm.trans e'⟩
    · rwa [Halting.after_of_error hbind]
    · rwa [Halting.after_of_error hbind]
  | ok a m' =>
    rw [Halting.after_of_ok e] at hwhole hle
    obtain ⟨hwhole', hle', hresult'⟩ := hn a m' hwhole hle (hresult a m' e)
    have hbind : (run >>= next) m = next a m' := Halting.bind_of_ok e
    have hafter : (run >>= next).after m = (next a).after m' := by simp only [Halting.after, hbind]
    exact ⟨hafter ▸ hwhole', hafter ▸ hle.trans hle', fun b m'' e' => hresult' b m'' (hbind ▸ e')⟩

theorem Yields.of_ok {a : α} {m' : Machine} (h : Yields P run m) (e : run m = .ok a m') :
    m'.store.Whole ∧ m.store.toHeap.Le m'.store.toHeap ∧ P m'.store.toHeap a := by
  obtain ⟨hwhole, hle, hresult⟩ := h
  rw [Halting.after_of_ok e] at hwhole hle
  exact ⟨hwhole, hle, hresult a m' e⟩

theorem yields_inStore (f : Store → α × Store) (hs : (f m.store).2.Whole)
    (hle : m.store.toHeap.Le (f m.store).2.toHeap) (ha : P (f m.store).2.toHeap (f m.store).1) :
    Yields P (inStore f) m := ⟨hs, hle, fun _ _ e => by cases e; exact ha⟩

theorem yields_asCall (h : Yields P run { m with depth := m.depth + 1 }) : Yields P (asCall run) m := by
  obtain ⟨hwhole, hle, hresult⟩ := h
  unfold Halting.after at hwhole hle
  cases e : run { m with depth := m.depth + 1 } <;> simp only [e] at hwhole hle
  · rename_i a t
    have hcall : asCall run m = .ok a { t with depth := m.depth } := by simp only [asCall, e]
    refine ⟨?_, ?_, fun b m' e' => ?_⟩
    · rwa [Halting.after_of_ok hcall]
    · rwa [Halting.after_of_ok hcall]
    · cases hcall.symm.trans e'
      exact hresult a t e
  · rename_i k t
    have hcall : asCall run m = .error k { t with depth := m.depth } := by simp only [asCall, e]
    refine ⟨?_, ?_, fun b m' e' => nomatch hcall.symm.trans e'⟩
    · rwa [Halting.after_of_error hcall]
    · rwa [Halting.after_of_error hcall]

end Rules

section Operations

variable {m : Machine} (hm : m.store.Whole)

include hm

theorem in_of_found {id : NodeId} {x : String} {v : Value} (h : m.found? id x = some v) : v.In m.store.toHeap := by
  unfold Machine.found? at h
  split at h
  · obtain ⟨g, -, hg⟩ := Option.bind_eq_some_iff.mp h
    exact hm.names g x v hg
  · obtain ⟨g, -, hg⟩ := Option.bind_eq_some_iff.mp h
    exact hm.names g x v hg

theorem yields_read (id : NodeId) (name : Token) : Yields Value.In (read id name) m := by
  refine yields_get ?_
  dsimp only
  split
  · rename_i v hv
    exact yields_pure hm (in_of_found hm hv)
  · exact yields_fail hm _ _

theorem yields_assign (id : NodeId) (name : Token) {v : Value} (hv : v.In m.store.toHeap) :
    Yields Value.In (assign id name v) m := by
  have hassigned : Store.Whole { m.store with frames := (m.assigned id name.lexeme v).2 } := by
    unfold Machine.assigned
    split
    · exact hm.assignAt _ _ _ hv
    · exact hm.assign _ _ hv
  refine yields_get (Yields.bind (P := fun _ _ => True) (yields_inStore _ hassigned (.refl _) trivial) fun _ m' hm' hle _ => ?_)
  split
  · exact yields_pure hm' (hv.mono hle)
  · exact yields_fail hm' _ _

theorem yields_define (x : String) {v : Value} (hv : v.In m.store.toHeap) :
    Yields (fun _ _ => True) (define x v) m := ⟨hm.define _ _ hv, .refl _, fun _ _ _ => trivial⟩

theorem yields_unary (operator : Token) (a : Value) : Yields Value.In (unary operator a) m := by
  unfold unary
  repeat' split
  all_goals first | exact yields_pure hm trivial | exact yields_fail hm _ _

theorem yields_binary (operator : Token) (a b : Value) : Yields Value.In (binary operator a b) m := by
  unfold binary sum onNumbers
  repeat' split
  all_goals first | exact yields_pure hm trivial | exact yields_fail hm _ _

theorem whole_bind (k : Closure FrameId) {o : ObjectId} (ho : o < m.store.objects.size) : (m.store.bind k o).2.Whole := by
  refine hm.addFrame _ fun x v hv => ?_
  rw [Std.ExtTreeMap.getElem?_insert] at hv
  split at hv
  · cases hv
    exact ho
  · cases hv

theorem yields_boundMethod (c : ClassId) {o : ObjectId} (ho : o < m.store.objects.size) (name : Token) :
    Yields Value.In (boundMethod c o name) m := by
  refine yields_get ?_
  split
  · rename_i method _
    have hsize : m.store.closures.size < (m.store.closures.push (m.store.bind method o).1).size := by
      rw [Array.size_push]
      exact Nat.lt_succ_self _
    exact yields_inStore _ ((whole_bind hm method ho).addClosure _) ⟨le_rfl, hsize.le, le_rfl, le_rfl⟩ hsize
  · exact yields_fail hm _ _

theorem yields_property {o : ObjectId} (ho : o < m.store.objects.size) (name : Token) :
    Yields Value.In (property o name) m := by
  refine yields_get ?_
  split
  · rename_i v hv
    obtain ⟨object, hobject, hv⟩ := Option.bind_eq_some_iff.mp hv
    exact yields_pure hm (hm.fields o object _ v hobject hv)
  · exact yields_boundMethod hm _ ho name
  · exact yields_fail hm _ _

theorem yields_inherited (id : NodeId) (keyword method : Token) :
    Yields Value.In (inherited id keyword method) m := by
  refine yields_get ?_
  split
  · exact yields_fail hm _ _
  · rename_i d _
    split
    · split
      · exact yields_fail hm _ _
      · split
        · rename_i d o ho
          obtain ⟨g, -, hg⟩ := Option.bind_eq_some_iff.mp ho
          exact yields_boundMethod hm _ (hm.names g _ _ hg) method
        · exact yields_fail hm _ _
    · exact yields_fail hm _ _

theorem yields_admitCall (paren : Token) (callee : Value) (given : Nat) :
    Yields (fun _ _ => True) (admitCall paren callee given) m := by
  refine yields_get ?_
  repeat' split
  all_goals first | exact yields_pure hm trivial | exact yields_fail hm _ _

theorem yields_print (v : Value) : Yields (fun _ _ => True) (print v) m := by
  have hstore : ((print v).after m).store = m.store := by
    unfold Halting.after print
    cases h : (m.output.writeLine (m.store.display v)).1 <;> simp only [h] <;> rfl
  exact ⟨hstore ▸ hm, hstore ▸ .refl _, fun _ _ _ => trivial⟩

theorem yields_superclassOf (u : NameUse) : Yields (fun h c => c < h.classes.size) (superclassOf u) m := by
  refine (yields_read hm _ _).bind fun v m' hm' _ hv => ?_
  split
  · exact yields_pure hm' hv
  · exact yields_fail hm' _ _

theorem yields_declareFunction (f : Function) : Yields (fun _ _ => True) (declareFunction f) m := by
  have hsize : m.store.closures.size < (m.store.closures.push ⟨f, m.current, false⟩).size := by
    rw [Array.size_push]
    exact Nat.lt_succ_self _
  have hfirst : Yields (fun h id => id < h.closures.size) (inHeap fun h => h.addClosure ⟨f, m.current, false⟩) m :=
    yields_inStore _ (hm.addClosure _) ⟨le_rfl, hsize.le, le_rfl, le_rfl⟩ hsize
  exact yields_get (hfirst.bind fun id m' hm' _ hid => yields_define hm' _ hid)

theorem yields_declareClass (name : Token) {superclass : Option ClassId}
    (hs : ∀ c ∈ superclass, c < m.store.classes.size) (methods : List Function) :
    Yields (fun _ _ => True) (declareClass name superclass methods) m := by
  refine (yields_define hm name.lexeme (v := .nil) trivial).bind fun _ m₁ hm₁ hle₁ _ => yields_get ?_
  have hs₁ : ∀ c ∈ superclass, c < m₁.store.classes.size := fun c hc => (hs c hc).trans_le hle₁.classes
  refine Yields.bind (P := fun h id => id < h.classes.size) ?_ fun id m₂ hm₂ _ hid => yields_define hm₂ _ hid
  have hsize (d : ClassDef FrameId) : m₁.store.classes.size < (m₁.store.classes.push d).size := by
    rw [Array.size_push]
    exact Nat.lt_succ_self _
  cases superclass with
  | none => exact yields_inStore _ (hm₁.addClass hs₁) ⟨le_rfl, le_rfl, (hsize _).le, le_rfl⟩ (hsize _)
  | some c =>
    have hframe : (m₁.store.addFrame (some m₁.current) ((∅ : Names).insert "super" (.cls c))).2.Whole := by
      refine hm₁.addFrame _ fun x v hv => ?_
      rw [Std.ExtTreeMap.getElem?_insert] at hv
      split at hv
      · cases hv
        exact hs₁ c rfl
      · cases hv
    exact yields_inStore _ (hframe.addClass hs₁) ⟨le_rfl, le_rfl, (hsize _).le, le_rfl⟩ (hsize _)

end Operations

/-- What is yielded within the bound names what is there. -/
structure Yielding (n : Nat) : Prop where
  eval : ∀ {e m}, m.store.Whole → Yields Value.In (eval n e) m
  exec : ∀ {s m}, m.store.Whole → Yields Completion.In (exec n s) m

section Parts

variable {n : Nat} (h : Yielding n)

include h

theorem yields_each : ∀ (es : List Expr) {m : Machine}, m.store.Whole →
    Yields (fun h vs => ∀ v ∈ vs, Value.In h v) (each (LoxLang.eval n) es) m
  | [], _, hm => yields_pure hm nofun
  | e :: rest, m, hm => by
    refine (h.eval hm).bind fun v m₁ hm₁ _ hv => ?_
    refine (yields_each rest hm₁).bind fun vs m₂ hm₂ hle hvs => yields_pure hm₂ ?_
    exact List.forall_mem_cons.mpr ⟨hv.mono hle, hvs⟩

theorem yields_sequence : ∀ (body : List Stmt) {m : Machine}, m.store.Whole →
    Yields Completion.In (sequence (LoxLang.exec n) body) m
  | [], _, hm => yields_pure hm trivial
  | s :: rest, m, hm => by
    refine (h.exec hm).bind fun c m₁ hm₁ _ hc => ?_
    cases c with
    | normal => exact yields_sequence rest hm₁
    | returned v => exact yields_pure hm₁ hc

theorem yields_inNewFrame {m : Machine} (hm : m.store.Whole) (outer : FrameId) {names : Names}
    (hn : ∀ (x : String) v, names[x]? = some v → v.In m.store.toHeap) (body : List Stmt) :
    Yields Completion.In (inNewFrame (LoxLang.exec n) outer names body) m := by
  have hbody := yields_sequence h body (m := m.enter outer names) (hm.addFrame _ hn)
  obtain ⟨hwhole, hle, hresult⟩ := hbody
  unfold Halting.after at hwhole hle
  have happly := inNewFrame_apply (m := m) (LoxLang.exec n) outer names body
  cases e : sequence (LoxLang.exec n) body (m.enter outer names) <;> simp only [e] at hwhole hle happly
  · rename_i completion t
    refine ⟨?_, ?_, fun c m' e' => ?_⟩
    · rwa [Halting.after_of_ok happly]
    · rwa [Halting.after_of_ok happly]
    · cases happly.symm.trans e'
      exact hresult completion t e
  · refine ⟨?_, ?_, fun c m' e' => nomatch happly.symm.trans e'⟩
    · rwa [Halting.after_of_error happly]
    · rwa [Halting.after_of_error happly]

omit h in
theorem in_of_parameterNames {values : List Value} {heap : Heap FrameId} (hvalues : ∀ v ∈ values, v.In heap)
    (parameters : List Token) (x : String) (v : Value) (hv : (parameterNames parameters values)[x]? = some v) :
    v.In heap := by
  rw [getElem?_parameterNames] at hv
  obtain ⟨p, hp, rfl⟩ := Option.map_eq_some_iff.mp hv
  exact hvalues p.2 (List.of_mem_zip (List.mem_reverse.mp (List.mem_of_find?_eq_some hp))).2

theorem yields_callClosure {m : Machine} (hm : m.store.Whole) (k : Closure FrameId) {values : List Value}
    (hvalues : ∀ v ∈ values, v.In m.store.toHeap) :
    Yields Value.In (callClosure (LoxLang.exec n) k values) m := by
  refine (yields_inNewFrame h hm _ (in_of_parameterNames hvalues _) _).bind fun c m' hm' _ hc => ?_
  split
  · refine yields_get (yields_pure hm' ?_)
    cases hthis : m'.store.frames.here? k.home "this" with
    | none => trivial
    | some v => exact hm'.names _ _ _ hthis
  · cases c with
    | normal => exact yields_pure hm' trivial
    | returned v => exact yields_pure hm' hc

theorem yields_construct {m : Machine} (hm : m.store.Whole) {c : ClassId} (hc : c < m.store.classes.size)
    {values : List Value} (hvalues : ∀ v ∈ values, v.In m.store.toHeap) :
    Yields Value.In (construct (LoxLang.exec n) c values) m := by
  have hsize : m.store.objects.size < (m.store.objects.push ⟨c, ∅⟩).size := by
    rw [Array.size_push]
    exact Nat.lt_succ_self _
  have hfirst : Yields (fun h o => o < h.objects.size) (inHeap fun h => h.addObject c) m :=
    yields_inStore _ (hm.addObject hc) ⟨le_rfl, le_rfl, le_rfl, hsize.le⟩ hsize
  refine hfirst.bind fun o m₁ hm₁ hle₁ ho => yields_get ?_
  split
  · rename_i method _
    have hbind : Yields (fun _ _ => True) (inStore fun s => s.bind method o) m₁ :=
      yields_inStore _ (whole_bind hm₁ method ho) (.refl _) trivial
    refine hbind.bind fun k m₂ hm₂ hle₂ _ => ?_
    refine (yields_callClosure h hm₂ k fun v hv => (hvalues v hv).mono (hle₁.trans hle₂)).bind
      fun _ m₃ hm₃ hle₃ _ => yields_pure hm₃ ?_
    exact Value.In.mono (v := .object o) (hle₂.trans hle₃) ho
  · exact yields_pure hm₁ ho

theorem yields_call {m : Machine} (hm : m.store.Whole) {f : Value} (hf : f.In m.store.toHeap) {values : List Value}
    (hvalues : ∀ v ∈ values, v.In m.store.toHeap) : Yields Value.In (call (LoxLang.exec n) f values) m := by
  unfold call
  split
  · refine yields_get (yields_pure hm ?_)
    rename_i id
    cases hid : m.store.natives[id]? with
    | none => trivial
    | some f => exact hm.natives f (Array.mem_of_getElem? hid) _ _ _
  · refine yields_get ?_
    split
    · exact yields_callClosure h hm _ hvalues
    · exact yields_pure hm trivial
  · exact yields_construct h hm hf hvalues
  · exact yields_pure hm trivial

theorem yields_eval (e : Expr) {m : Machine} (hm : m.store.Whole) : Yields Value.In (LoxLang.eval (n + 1) e) m := by
  cases e with
  | literal value => exact yields_pure hm (by cases value <;> trivial)
  | grouping inner => exact h.eval hm
  | unary operator operand => exact (h.eval hm).bind fun a _ hm' _ _ => yields_unary hm' operator a
  | binary left operator right =>
    exact (h.eval hm).bind fun a _ hm₁ _ _ => (h.eval hm₁).bind fun b _ hm₂ _ _ => yields_binary hm₂ operator a b
  | logical left operator right =>
    refine (h.eval hm).bind fun a _ hm' _ ha => ?_
    split
    · exact yields_pure hm' ha
    · exact h.eval hm'
  | read id name => exact yields_read hm id name
  | assign id name value => exact (h.eval hm).bind fun v _ hm' _ hv => yields_assign hm' id name hv
  | call callee paren es =>
    refine (h.eval hm).bind fun f _ hm₁ _ hf => (yields_each h es hm₁).bind fun values _ hm₂ hle₂ hvalues => ?_
    refine (yields_admitCall hm₂ paren f values.length).bind fun _ m₃ hm₃ hle₃ _ => yields_asCall ?_
    exact yields_call h (m := { m₃ with depth := m₃.depth + 1 }) hm₃ (hf.mono (hle₂.trans hle₃))
      fun v hv => (hvalues v hv).mono hle₃
  | get object name =>
    refine (h.eval hm).bind fun a _ hm' _ ha => ?_
    split
    · exact yields_property hm' ha name
    · exact yields_fail hm' _ _
  | set object name value =>
    refine (h.eval hm).bind fun a _ hm' _ ha => ?_
    split
    · rename_i o
      refine (h.eval hm').bind fun v m₂ hm₂ _ hv => ?_
      have hset : Yields (fun _ _ => True) (inHeap fun h => ((), h.setField o name.lexeme v)) m₂ :=
        yields_inStore _ (hm₂.setField o name.lexeme hv) ⟨le_rfl, le_rfl, le_rfl, (Array.size_modify ..).ge⟩ trivial
      exact hset.bind fun _ _ hm₃ hle₃ _ => yields_pure hm₃ (hv.mono hle₃)
    · exact yields_fail hm' _ _
  | self id keyword => exact yields_read hm id keyword
  | inherited id keyword method => exact yields_inherited hm id keyword method

theorem yields_exec (s : Stmt) {m : Machine} (hm : m.store.Whole) :
    Yields Completion.In (LoxLang.exec (n + 1) s) m := by
  cases s with
  | expression e => exact (h.eval hm).bind fun _ _ hm' _ _ => yields_pure hm' trivial
  | print e =>
    exact (h.eval hm).bind fun v _ hm' _ _ => (yields_print hm' v).bind fun _ _ hm'' _ _ => yields_pure hm'' trivial
  | var name initial =>
    have hdone : ∀ (v : Value) (m' : Machine), m'.store.Whole → v.In m'.store.toHeap →
        Yields Completion.In (define name.lexeme v >>= fun _ => pure .normal) m' := fun v m' hm' hv =>
      (yields_define hm' _ hv).bind fun _ _ hm'' _ _ => yields_pure hm'' trivial
    cases initial with
    | none => exact hdone .nil m hm trivial
    | some e => exact (h.eval hm).bind fun v m' hm' _ hv => hdone v m' hm' hv
  | block body => exact yields_get (yields_inNewFrame h hm _ (by simp) body)
  | branch condition yes no =>
    refine (h.eval hm).bind fun v _ hm' _ _ => ?_
    split
    · exact h.exec hm'
    · cases no with
      | none => exact yields_pure hm' trivial
      | some s => exact h.exec hm'
  | loop condition body =>
    refine (h.eval hm).bind fun v _ hm' _ _ => ?_
    split
    · refine (h.exec hm').bind fun c _ hm'' _ hc => ?_
      cases c with
      | normal => exact h.exec hm''
      | returned v => exact yields_pure hm'' hc
    · exact yields_pure hm' trivial
  | function f => exact (yields_declareFunction hm f).bind fun _ _ hm' _ _ => yields_pure hm' trivial
  | ret keyword value =>
    cases value with
    | none => exact yields_pure hm trivial
    | some e => exact (h.eval hm).bind fun v _ hm' _ hv => yields_pure hm' hv
  | classDecl name superclass methods =>
    have hdone : ∀ (c : Option ClassId) (m' : Machine), m'.store.Whole → (∀ id ∈ c, id < m'.store.classes.size) →
        Yields Completion.In (declareClass name c methods >>= fun _ => pure .normal) m' := fun c m' hm' hc =>
      (yields_declareClass hm' name hc methods).bind fun _ _ hm'' _ _ => yields_pure hm'' trivial
    cases superclass with
    | none => exact hdone none m hm nofun
    | some u =>
      refine (yields_superclassOf hm u).bind fun c m' hm' _ hc => hdone (some c) m' hm' fun id hid => ?_
      exact Option.some.inj hid ▸ hc

end Parts

theorem yielding (n : Nat) : Yielding n := by
  induction n with
  | zero => exact ⟨fun hm => yields_throw hm _, fun hm => yields_throw hm _⟩
  | succ n ih => exact ⟨fun hm => yields_eval ih _ hm, fun hm => yields_exec ih _ hm⟩

theorem yields_perform (n : Nat) (s : Stmt) {m : Machine} (hm : m.store.Whole) :
    Yields (fun _ _ => True) (perform n s) m := by
  have hexec : ∀ s, Yields (fun _ _ => True) (LoxLang.exec n s >>= fun _ => pure ()) m := fun s =>
    ((yielding n).exec hm).bind fun _ _ hm' _ _ => yields_pure hm' trivial
  refine yields_get ?_
  split
  · exact ((yielding n).eval hm).bind fun v _ hm' _ _ => yields_print hm' v
  · exact hexec _

theorem yields_interpret (n : Nat) : ∀ (statements : List Stmt) {m : Machine}, m.store.Whole →
    Yields (fun _ _ => True) (interpret n statements) m
  | [], _, hm => yields_pure hm trivial
  | s :: rest, _, hm => (yields_perform n s hm).bind fun _ _ hm' _ _ => yields_interpret n rest hm'

end Run

end LoxLang
