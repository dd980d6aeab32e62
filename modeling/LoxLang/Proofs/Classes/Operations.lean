import LoxLang.Proofs.Classes.Lawful

/-! The invariant of classes along the operations of a run: wherever they begin and however they end, they lead from
a lawful machine to a lawful one. -/

namespace LoxLang

open Frames

variable {past : Moment → Prop} {c : Chart}

namespace Machine

variable {m m' m'' : Machine}

namespace Leads

theorem refl (h : m.Lawful past c) : m.Leads past c m := ⟨h, .refl _, rfl⟩

theorem trans (h : m.Leads past c m') (h' : m'.Leads past c m'') : m.Leads past c m'' :=
  ⟨h'.lawful, h.lasts.trans h'.lasts, h'.context.trans h.context⟩

theorem current (h : m.Leads past c m') : m'.current = m.current := congrArg Context.current h.context

theorem globals (h : m.Leads past c m') : m'.globals = m.globals := congrArg Context.globals h.context

theorem enclosed (h : m.Leads past c m') {l : Layout} {around : Option Enclosure}
    (hl : Enclosed past m.store m.globals m.current l around) :
    Enclosed past m'.store m'.globals m'.current l around := by
  rw [h.current, h.globals]
  exact hl.lasts h.lasts fun _ h => h

/-- Back in the frame before. -/
theorem leave {outer : FrameId} {names : Names} (h : (m.enter outer names).Leads past c m') :
    m.Leads past c { m' with current := m.current } where
  lawful := ⟨h.lawful.bindings, h.lawful.store⟩
  lasts := (Store.lasts_addFrame m.store (some outer) names).trans h.lasts
  context := by
    have hcontext := h.context
    simp only [Machine.context, Context.mk.injEq] at hcontext ⊢
    exact ⟨hcontext.1, trivial, hcontext.2.2⟩

/-- With the call no longer active. -/
theorem uncount (h : ({ m with depth := m.depth + 1 } : Machine).Leads past c m') :
    m.Leads past c { m' with depth := m.depth } where
  lawful := ⟨h.lawful.bindings, h.lawful.store⟩
  lasts := h.lasts
  context := by
    have hcontext := h.context
    simp only [Machine.context, Context.mk.injEq] at hcontext ⊢
    exact ⟨hcontext.1, hcontext.2.1, trivial, hcontext.2.2.2⟩

end Leads

theorem Lawful.deeper (h : m.Lawful past c) (depth : Nat) : Lawful past c { m with depth := depth } :=
  ⟨h.bindings, h.store⟩

theorem Lawful.enter (h : m.Lawful past c) (outer : FrameId) (names : Names) : (m.enter outer names).Lawful past c :=
  ⟨h.bindings, h.store.addFrame _ _⟩

/-- A function that a call runs sits in its frames, which are there with the instance if a class is called. -/
theorem Lawful.invokes (hm : m.Lawful past c) {f : Value} {κ : Closure FrameId} {m₁ : Machine} (h : m.Invokes f κ m₁) :
    m₁.Lawful past c ∧ κ.Sits past c m₁.globals m₁.store := by
  cases h with
  | function hκ => exact ⟨hm, hm.store.closures κ (Array.mem_of_getElem? hκ)⟩
  | @cls id method hmethod =>
    have hobject := hm.store.addObject id
    have hisA : Store.IsA (m.store.inHeap fun h => h.addObject id).2 m.store.objects.size id :=
      ⟨⟨id, ∅⟩, Array.getElem?_push_size, .refl⟩
    exact ⟨⟨hm.bindings, hobject.addFrame _ _⟩, hobject.bind ((m.store.initializer?_addObject id id).trans hmethod) hisA⟩

end Machine

namespace Run

variable {α β : Type}

/-- However the run ends, it leads to a lawful machine. -/
def Guards (past : Moment → Prop) (c : Chart) (run : Run α) (m : Machine) : Prop := m.Leads past c (run.after m)

section Rules

variable {run : Run α} {next : α → Run β} {m : Machine}

theorem guards_idle (h : m.Lawful past c) (e : run.after m = m) : Guards past c run m := by
  unfold Guards
  rw [e]
  exact .refl h

theorem guards_pure (h : m.Lawful past c) (a : α) : Guards past c (pure a : Run α) m := guards_idle h rfl

theorem guards_throw (h : m.Lawful past c) (k : Halt) : Guards past c (throw k : Run α) m := guards_idle h rfl

theorem guards_fail (h : m.Lawful past c) (t : Token) (cause : RuntimeFault) :
    Guards past c (fail t cause : Run α) m := guards_idle h rfl

theorem guards_get {next : Machine → Run β} (h : Guards past c (next m) m) : Guards past c (get >>= next) m := h

theorem Guards.bind (h : Guards past c run m)
    (hn : ∀ a m', run m = .ok a m' → m.Leads past c m' → Guards past c (next a) m') :
    Guards past c (run >>= next) m := by
  unfold Guards at h ⊢
  cases e : run m with
  | error k m' => rwa [Halting.after_of_error e, ← Halting.after_of_error (Halting.bind_of_error e)] at h
  | ok a m' =>
    rw [Halting.after_of_ok e] at h
    have hnext : (run >>= next).after m = (next a).after m' := by
      simp only [Halting.after, Halting.bind_of_ok e]
    rw [hnext]
    exact h.trans (hn a m' e h)

theorem Guards.of_ok {a : α} {m' : Machine} (h : Guards past c run m) (e : run m = .ok a m') : m.Leads past c m' := by
  unfold Guards at h
  rwa [Halting.after_of_ok e] at h

/-- A step that changes the store. -/
theorem guards_inStore (f : Store → α × Store) (hm : m.Lawful past c) (hs : (f m.store).2.Lawful past c m.globals)
    (hlasts : m.store.Lasts (f m.store).2) : Guards past c (inStore f) m := ⟨⟨hm.bindings, hs⟩, hlasts, rfl⟩

end Rules

section Operations

variable {m : Machine} (hm : m.Lawful past c)

include hm

theorem guards_sum (operator : Token) (a b : Value) : Guards past c (sum operator a b) m := by
  unfold sum
  split <;> first | exact guards_pure hm _ | exact guards_fail hm _ _

theorem guards_onNumbers (operator : Token) (f : Number → Number → Value) (a b : Value) :
    Guards past c (onNumbers operator f a b) m := by
  unfold onNumbers
  split <;> first | exact guards_pure hm _ | exact guards_fail hm _ _

theorem guards_binary (operator : Token) (a b : Value) : Guards past c (binary operator a b) m := by
  unfold binary
  split <;> first
    | exact guards_sum hm _ _ _
    | exact guards_onNumbers hm _ _ _ _
    | exact guards_pure hm _
    | exact guards_fail hm _ _

theorem guards_unary (operator : Token) (a : Value) : Guards past c (unary operator a) m := by
  unfold unary
  split
  · split <;> first | exact guards_pure hm _ | exact guards_fail hm _ _
  · exact guards_pure hm _

theorem guards_read (id : NodeId) (name : Token) : Guards past c (read id name) m := by
  refine guards_get ?_
  dsimp only
  split
  · exact guards_pure hm _
  · exact guards_fail hm _ _

theorem guards_admitCall (paren : Token) (callee : Value) (given : Nat) :
    Guards past c (admitCall paren callee given) m := by
  refine guards_get ?_
  split
  · exact guards_fail hm _ _
  · split
    · exact guards_fail hm _ _
    · split
      · exact guards_fail hm _ _
      · exact guards_pure hm _

theorem guards_define {x : String} (hx : x ∉ reserved) (v : Value) : Guards past c (define x v) m := by
  have hlasts := Store.lasts_define m.store m.current hx v
  exact ⟨⟨hm.bindings, hm.store.lasts hlasts rfl rfl⟩, hlasts, rfl⟩

theorem guards_assign (id : NodeId) {name : Token} (hname : name.lexeme ∉ reserved) (v : Value) :
    Guards past c (assign id name v) m := by
  have hlasts : m.store.Lasts { m.store with frames := (m.assigned id name.lexeme v).2 } := by
    unfold Machine.assigned
    split
    · exact Store.lasts_assignAt _ _ _ hname _
    · exact Store.lasts_assign _ _ hname _
  have hlawful := hm.store.lasts hlasts rfl rfl
  refine guards_get (Guards.bind (guards_inStore _ hm hlawful hlasts) fun assigned m' _ h => ?_)
  split
  · exact guards_pure h.lawful _
  · exact guards_fail h.lawful _ _

/-- The method belongs to a class that the instance is one of. -/
theorem guards_boundMethod {k : ClassId} {o : ObjectId} (ho : m.store.IsA o k) (name : Token) :
    Guards past c (boundMethod k o name) m := by
  refine guards_get ?_
  split
  · rename_i method hmethod
    have hlasts := Store.lasts_bind m.store method o
    have hsits := hm.store.bind hmethod ho
    exact guards_inStore _ hm ((hm.store.addFrame _ _).addClosure hsits) (hlasts.trans (Store.lasts_addClosure _ _))
  · exact guards_fail hm _ _

theorem guards_property (o : ObjectId) (name : Token) : Guards past c (property o name) m := by
  refine guards_get ?_
  split
  · exact guards_pure hm _
  · rename_i object _ hobject
    exact guards_boundMethod hm ⟨object, hobject, .refl⟩ _
  · exact guards_fail hm _ _

theorem guards_print (v : Value) : Guards past c (print v) m := by
  have hleads : ∀ output, m.Leads past c { m with output := output } := fun output =>
    ⟨⟨hm.bindings, hm.store⟩, .refl _, rfl⟩
  unfold Guards print Halting.after
  cases h : (m.output.writeLine (m.store.display v)).1 <;> simp only [h] <;> exact hleads _

theorem guards_superclassOf (superclass : NameUse) : Guards past c (superclassOf superclass) m := by
  refine (guards_read hm _ _).bind fun v m' _ h' => ?_
  split
  · exact guards_pure h'.lawful _
  · exact guards_fail h'.lawful _ _

end Operations

theorem guards_asCall {run : Run α} {m : Machine} (h : Guards past c run { m with depth := m.depth + 1 }) :
    Guards past c (asCall run) m := by
  unfold Guards Halting.after at h
  unfold Guards Halting.after asCall
  cases e : run { m with depth := m.depth + 1 } <;> simp only [e] at h ⊢ <;> exact h.uncount

theorem guards_inNewFrame {exec : Stmt → Run Completion} {m : Machine} {outer : FrameId} {names : Names}
    {body : List Stmt} (h : Guards past c (sequence exec body) (m.enter outer names)) :
    Guards past c (inNewFrame exec outer names body) m := by
  unfold Guards Halting.after at h
  unfold Guards Halting.after
  rw [inNewFrame_apply]
  cases e : sequence exec body (m.enter outer names) <;> simp only [e] at h ⊢ <;> exact h.leave

end Run

end LoxLang
