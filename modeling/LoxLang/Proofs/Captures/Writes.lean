import LoxLang.Proofs.Captures.Parts
import LoxLang.Proofs.Counting.Pairs
import LoxLang.Proofs.Scoping.Growth

/-! What code does to a store of its own, besides what its parts do. It adds frames and instances in front of its parts;
behind the last of them it changes the store in a few ways only, and it writes a name just where it assigns or declares
one. -/

namespace LoxLang

open Frames

namespace Frames

/-- Frames that have perhaps become more; those there were have the same values. -/
structure Kept (fs gs : Frames) : Prop extends Later fs gs where
  names : ∀ f < fs.size, gs.names f = fs.names f

variable {fs gs hs : Frames} {f : FrameId} {x : String}

theorem Kept.refl (fs : Frames) : Kept fs fs := ⟨.refl fs, fun _ _ => rfl⟩

theorem Kept.trans (h : Kept fs gs) (h' : Kept gs hs) : Kept fs hs :=
  ⟨h.toLater.trans h'.toLater, fun f hf => (h'.names f (hf.trans_le h.size)).trans (h.names f hf)⟩

theorem kept_add (fs : Frames) (outer : Option FrameId) (names : Names) : Kept fs (fs.add outer names) :=
  ⟨later_add .., fun _ hf => names_add_of_ne _ _ hf.ne⟩

theorem Kept.here? (h : Kept fs gs) (hf : f < fs.size) (x : String) : gs.here? f x = fs.here? f x := by
  rw [here?_eq, here?_eq, h.names f hf]

end Frames

namespace Machine

/-- The frame in which an assignment looks for its name. -/
def target? (m : Machine) (id : NodeId) (x : String) : Option FrameId :=
  match m.bindings[id]? with
  | some d => m.store.frames.ancestor? m.current d
  | none => m.store.frames.holder? m.globals x

theorem assigned_of_target {m : Machine} {id : NodeId} {x : String} {g : FrameId} (h : m.target? id x = some g)
    (hx : m.store.frames.Has g x) (v : Value) : m.assigned id x v = (true, m.store.frames.define g x v) := by
  unfold target? at h
  unfold assigned
  cases hd : m.bindings[id]? with
  | some d =>
    rw [hd] at h
    dsimp only at h ⊢
    rw [assignAt, h]
    exact if_pos hx
  | none =>
    rw [hd] at h
    dsimp only at h ⊢
    rw [assign, h]

theorem assigned_of_missing {m : Machine} {id : NodeId} {x : String}
    (h : ∀ g, m.target? id x = some g → ¬ m.store.frames.Has g x) (v : Value) :
    m.assigned id x v = (false, m.store.frames) := by
  unfold target? at h
  unfold assigned
  cases hd : m.bindings[id]? with
  | some d =>
    rw [hd] at h
    dsimp only at h ⊢
    unfold assignAt
    split
    · rename_i g hg
      exact if_neg (h g hg)
    · rfl
  | none =>
    rw [hd] at h
    dsimp only at h ⊢
    unfold assign
    split
    · rename_i g hg
      have hx : m.store.frames.Has g x := by simpa [Has] using List.find?_some hg
      exact absurd hx (h g hg)
    · rfl

end Machine

/-- Code writes a name in a frame: it assigns the name there, or it declares the name in the frame in which it runs. -/
inductive Moment.Writes : FrameId → String → Moment → Prop
  | assigns {n : Nat} {d : Option Token} {id : NodeId} {name : Token} {e : Expr} {v : Value} {m m' : Machine} {f : FrameId} :
    eval n e m = .ok v m' → m'.target? id name.lexeme = some f → m'.store.frames.Has f name.lexeme →
      Writes f name.lexeme ⟨n + 1, .expr d (.assign id name e), m⟩
  | declares {n : Nat} {s : Stmt} {c : Completion} {m m' : Machine} {x : String} :
    exec n s m = .ok c m' → x ∈ s.declares → Writes m.current x ⟨n, .stmt s, m⟩

namespace Store

/-- The frames inside which code that runs in a frame puts new ones: that frame, those that functions and methods keep,
and the newest. -/
inductive Near (s : Store) (f : FrameId) : FrameId → Prop
  | here : Near s f f
  | function {k : Closure FrameId} : k ∈ s.closures → Near s f k.home
  | method {c : ClassId} {x : String} {k : Closure FrameId} : s.method? c x = some k → Near s f k.home
  | newest {g : FrameId} : g + 1 = s.frames.size → Near s f g

/-- Code that runs in a frame adds a frame or an instance. -/
inductive Addition (f : FrameId) : Store → Store → Prop
  | frame {s : Store} {outer : FrameId} (names : Names) : s.Near f outer → Addition f s (s.addFrame (some outer) names).2
  | object (s : Store) (c : ClassId) : Addition f s (s.inHeap fun h => h.addObject c).2

/-- One change that code makes to a store as it runs in a frame. It writes a name in a frame only where it may. -/
inductive Change (f : FrameId) (may : FrameId → String → Prop) : Store → Store → Prop
  | adds {s t : Store} : s.Addition f t → Change f may s t
  | write {g : FrameId} {x : String} (s : Store) (v : Value) : may g x →
    Change f may s { s with frames := s.frames.define g x v }
  /-- A function is declared. -/
  | function (s : Store) (declared : Function) : Change f may s (s.inHeap fun h => h.addClosure ⟨declared, f, false⟩).2
  /-- A method is bound to an instance, in a new frame. -/
  | method {s : Store} {c : ClassId} {x : String} {k : Closure FrameId} (o : ObjectId) : s.method? c x = some k →
    Change f may s ((s.bind k o).2.inHeap fun h => h.addClosure (s.bind k o).1).2
  | cls {s : Store} {d : ClassDef FrameId} :
    (∀ (x : String) (k : Closure FrameId), d.methods[x]? = some k → s.Near f k.home) →
      Change f may s (s.inHeap fun h => h.addClass d).2
  | field (s : Store) (o : ObjectId) (x : String) (v : Value) : Change f may s (s.inHeap fun h => ((), h.setField o x v)).2

/-- Frames and instances are added, some number of times. -/
abbrev Additions (f : FrameId) : Store → Store → Prop := Relation.ReflTransGen (Addition f)

/-- The one store becomes the other in some number of changes, with names written where they may be. -/
abbrev Changes (f : FrameId) (may : FrameId → String → Prop) : Store → Store → Prop := Relation.ReflTransGen (Change f may)

variable {may allowed : FrameId → String → Prop} {s t : Store} {f g : FrameId} {x : String}

theorem Additions.changes (h : s.Additions f t) : s.Changes f may t := Relation.ReflTransGen.mono (fun _ _ => .adds) _ _ h

theorem Change.mono (h : s.Change f may t) (hmay : ∀ f x, may f x → allowed f x) : s.Change f allowed t := by
  cases h with
  | adds h => exact .adds h
  | write _ v h => exact .write _ v (hmay _ _ h)
  | function _ declared => exact .function _ declared
  | method o hk => exact .method o hk
  | cls hd => exact .cls hd
  | field _ o x v => exact .field _ o x v

theorem Changes.mono (h : s.Changes f may t) (hmay : ∀ f x, may f x → allowed f x) : s.Changes f allowed t :=
  Relation.ReflTransGen.mono (fun _ _ hchange => hchange.mono hmay) _ _ h

theorem Addition.kept (h : s.Addition f t) : Kept s.frames t.frames := by
  cases h with
  | frame names => exact kept_add ..
  | object => exact .refl _

theorem Additions.kept (h : s.Additions f t) : Kept s.frames t.frames := by
  induction h with
  | refl => exact .refl _
  | tail _ h ih => exact ih.trans h.kept

theorem Change.later (h : s.Change f may t) : Later s.frames t.frames := by
  cases h with
  | adds h => exact h.kept.toLater
  | write => exact later_define ..
  | method => exact later_add ..
  | function | cls | field => exact .refl _

/-- What a change has made other than it was, it has written. -/
theorem Change.wrote (h : s.Change f may t) (hg : g < s.frames.size) (hne : t.frames.here? g x ≠ s.frames.here? g x) :
    may g x := by
  cases h with
  | adds h => exact absurd (h.kept.here? hg x) hne
  | @write g' y _ v hmay =>
    by_cases hgx : g = g' ∧ x = y
    · obtain ⟨rfl, rfl⟩ := hgx
      exact hmay
    · exact absurd (here?_define_of_ne s.frames v (not_and_or.mp hgx)) hne
  | @method _ _ _ k => exact absurd ((kept_add s.frames (some k.home) _).here? hg x) hne
  | function | cls | field => exact absurd rfl hne

theorem Changes.later (h : s.Changes f may t) : Later s.frames t.frames := by
  induction h with
  | refl => exact .refl _
  | tail _ h ih => exact ih.trans h.later

theorem Changes.wrote (h : s.Changes f may t) (hg : g < s.frames.size)
    (hne : t.frames.here? g x ≠ s.frames.here? g x) : may g x := by
  induction h with
  | refl => exact absurd rfl hne
  | @tail t u hchanges h ih =>
    by_cases hsame : t.frames.here? g x = s.frames.here? g x
    · exact h.wrote (hg.trans_le (Changes.later hchanges).size) (hsame ▸ hne)
    · exact ih hsame

end Store

namespace Halting

variable {σ α β : Type} {run : Halting σ α} {next : α → Halting σ β} {s t : σ} {a : α} {h : Halt}

theorem after_bind_of_ok (e : run s = .ok a t) : (run >>= next).after s = (next a).after t := by
  simp only [after, bind_of_ok e]

theorem after_bind_of_error (e : run s = .error h t) : (run >>= next).after s = t := after_of_error (bind_of_error e)

theorem after_bind_pure (b : β) : (run >>= fun _ => pure b).after s = run.after s := by
  cases e : run s with
  | ok a t =>
    rw [after_bind_of_ok e, after_of_ok e]
    rfl
  | error h t => rw [after_bind_of_error e, after_of_error e]

end Halting

namespace Run

variable {α β : Type} {run : Run α} {next : α → Run β}

/-- Wherever it begins and however it ends, the run writes no name. -/
def Quiet (run : Run α) : Prop := ∀ m : Machine, m.store.Changes m.current (fun _ _ => False) (run.after m).store

theorem quiet_of_idle (h : ∀ m, (run.after m).store = m.store) : Quiet run := fun m => (h m).symm ▸ .refl

theorem quiet_pure (a : α) : Quiet (pure a : Run α) := quiet_of_idle fun _ => rfl

theorem quiet_fail (t : Token) (cause : RuntimeFault) : Quiet (fail t cause : Run α) := quiet_of_idle fun _ => rfl

theorem quiet_get {next : Machine → Run β} (h : ∀ m, Quiet (next m)) : Quiet (get >>= next) := fun m => h m m

theorem Quiet.ends (h : Quiet run) (b : β) : Quiet (run >>= fun _ => pure b) := fun m => by
  rw [Halting.after_bind_pure]
  exact h m

theorem after_read (id : NodeId) (name : Token) (m : Machine) : (read id name).after m = m := by
  cases h : m.found? id name.lexeme with
  | some v => exact Halting.after_of_ok (read_of_found h)
  | none => exact Halting.after_of_error (read_of_missing h)

theorem quiet_boundMethod (c : ClassId) (o : ObjectId) (name : Token) : Quiet (boundMethod c o name) := by
  intro m
  have hget : (boundMethod c o name).after m = _ := Halting.after_bind_of_ok (t := m) rfl
  rw [hget]
  split
  · rename_i hmethod
    exact .single (.method o hmethod)
  · exact .refl

theorem quiet_property (o : ObjectId) (name : Token) : Quiet (property o name) := by
  refine quiet_get fun m => ?_
  split
  · exact quiet_pure _
  · exact quiet_boundMethod _ _ _
  · exact quiet_fail _ _

theorem quiet_inherited (id : NodeId) (keyword method : Token) : Quiet (inherited id keyword method) := by
  refine quiet_get fun m => ?_
  repeat' split
  all_goals first | exact quiet_fail _ _ | exact quiet_boundMethod _ _ _

theorem quiet_unary (operator : Token) (a : Value) : Quiet (unary operator a) := by
  unfold unary
  repeat' split
  all_goals first | exact quiet_pure _ | exact quiet_fail _ _

theorem quiet_binary (operator : Token) (a b : Value) : Quiet (binary operator a b) := by
  unfold binary sum onNumbers
  repeat' split
  all_goals first | exact quiet_pure _ | exact quiet_fail _ _

theorem quiet_setField (o : ObjectId) (x : String) (v : Value) : Quiet (inHeap fun h => ((), h.setField o x v)) :=
  fun m => .single (.field m.store o x v)

theorem store_print (v : Value) (m : Machine) : ((print v).after m).store = m.store := by
  unfold Halting.after print
  cases h : (m.output.writeLine (m.store.display v)).1 <;> simp only [h] <;> rfl

theorem quiet_print (v : Value) : Quiet (print v) := quiet_of_idle (store_print v)

/-- The run does not fail, and it writes just the name, in the current frame. -/
def Binds (run : Run Unit) (x : String) : Prop :=
  ∀ m : Machine, ∃ t, run m = .ok () t ∧ ∀ may, may m.current x → m.store.Changes m.current may t.store

theorem binds_define (x : String) (v : Value) : Binds (define x v) x := fun m =>
  ⟨_, rfl, fun _ hmay => .single (.write m.store v hmay)⟩

theorem binds_declareFunction (f : Function) : Binds (declareFunction f) f.name.lexeme := fun m =>
  ⟨_, rfl, fun _ hmay => .tail (.single (.function m.store f)) (.write _ _ hmay)⟩

/-- A class is defined by its name twice, first as nil. Its methods keep the current frame, or that of the superclass. -/
theorem binds_declareClass (name : Token) (superclass : Option ClassId) (methods : List Function) :
    Binds (declareClass name superclass methods) name.lexeme := by
  have hhome (home : FrameId) (x : String) (k : Closure FrameId) (hk : (Methods.ofList home methods)[x]? = some k) :
      k.home = home := by
    obtain ⟨f, -, -, hk⟩ := Methods.mem_of_ofList hk
    exact hk
  intro m
  cases superclass with
  | none =>
    refine ⟨_, rfl, fun may hmay => ?_⟩
    have hnil : m.store.Changes m.current may _ := .single (.write m.store .nil hmay)
    refine (hnil.tail (.cls fun x k hk => ?_)).tail (.write _ _ hmay)
    rw [hhome _ x k hk]
    exact .here
  | some c =>
    refine ⟨_, rfl, fun may hmay => ?_⟩
    have hnil : m.store.Changes m.current may _ := .single (.write m.store .nil hmay)
    refine ((hnil.tail (.adds (.frame _ .here))).tail (.cls fun x k hk => ?_)).tail (.write _ _ hmay)
    rw [hhome _ x k hk]
    exact .newest (size_add ..).symm

section Calls

variable {exec : Stmt → Run Completion} {m : Machine}

theorem store_inNewFrame (outer : FrameId) (names : Names) (body : List Stmt) :
    ((inNewFrame exec outer names body).after m).store = ((sequence exec body).after (m.enter outer names)).store := by
  rw [Halting.after, inNewFrame_apply, Halting.after]
  cases sequence exec body (m.enter outer names) <;> rfl

/-- Behind a call the store is the one that the body of the function leaves. -/
theorem store_callClosure (k : Closure FrameId) (arguments : List Value) :
    ((callClosure exec k arguments).after m).store = ((sequence exec k.declared.body).after
      (m.enter k.home (parameterNames k.declared.parameters arguments))).store := by
  rw [← store_inNewFrame]
  unfold callClosure
  cases e : inNewFrame exec k.home (parameterNames k.declared.parameters arguments) k.declared.body m with
  | error h t => rw [Halting.after_bind_of_error e, Halting.after_of_error e]
  | ok completion t =>
    rw [Halting.after_bind_of_ok e, Halting.after_of_ok e]
    cases k.isInitializer <;> cases completion <;> rfl

theorem store_call {f : Value} {values : List Value} {body : List Stmt} {m' : Machine}
    (h : m.called? values f = some (body, m')) :
    ((call exec f values).after m).store = ((sequence exec body).after m').store := by
  obtain ⟨κ, m₁, hinvokes, rfl, rfl⟩ := Machine.called?_eq_some.mp h
  cases hinvokes with
  | function hκ =>
    rw [Halting.after, call_function_eq, hκ]
    exact store_callClosure κ values
  | cls hmethod =>
    rw [Halting.after, call_cls_eq, Store.initializer?_addObject, hmethod]
    change ((callClosure exec _ values >>= fun _ => pure _).after _).store = _
    rw [Halting.after_bind_pure]
    exact store_callClosure _ values

/-- Between the arguments and the body a call makes an instance at most, and frames. -/
theorem additions_called {f : Value} {values : List Value} {body : List Stmt} {m' : Machine}
    (h : m.called? values f = some (body, m')) : m.store.Additions m.current m'.store := by
  obtain ⟨κ, m₁, hinvokes, -, rfl⟩ := Machine.called?_eq_some.mp h
  cases hinvokes with
  | function hκ => exact .single (.frame _ (.function (Array.mem_of_getElem? hκ)))
  | @cls c method hmethod =>
    have hmade : (m.store.inHeap fun h => h.addObject c).2.initializer? c = some method :=
      (m.store.initializer?_addObject c c).trans hmethod
    have hobject : m.store.Additions m.current _ := .single (.object m.store c)
    exact (hobject.tail (.frame _ (.method hmade))).tail (.frame _ (.newest (size_add ..).symm))

/-- Where no body is run, an instance is made at most. -/
theorem additions_call {f : Value} {values : List Value} (h : m.called? values f = none) :
    m.store.Additions m.current ((call exec f values).after m).store := by
  cases f with
  | function id =>
    rw [Halting.after, call_function_eq, Option.map_eq_none_iff.mp h]
    exact .refl
  | cls id =>
    rw [Halting.after, call_cls_eq, Option.map_eq_none_iff.mp h]
    exact .single (.object m.store id)
  | nil | bool | number | string | native | object => exact .refl

end Calls

end Run

end LoxLang
