import LoxLang.Proofs.Classes.Moments

/-! The evaluator keeps the invariant of classes. `this` is an instance of the class around, and a method of the
superclass is sought for that instance in the superclass that the declaration found. -/

namespace LoxLang

open Frames Run

variable {past : Moment → Prop} {c : Chart} {l : Layout} {around : Option Enclosure}

/-- The class that most closely encloses a use of `this` or `super`, where the use is evaluated: a past moment declared
it, the use stands in one of its methods, and the frame so far out is that of an instance of it, just inside the frame
in which the methods were declared. -/
structure Moment.Encloses (past : Moment → Prop) (k : Moment) (u : Use) (h : Nat) (e : Enclosure)
    (d : ClassDef FrameId) (o : ObjectId) : Prop where
  declared : ∃ k₀, past k₀ ∧ k₀.Declares e.cls d e.home e.methods
  record : k.machine.store.classes[e.cls]? = some d
  method : ∃ f ∈ e.methods, u ∈ f.ownUses
  receiver : ∃ t, k.machine.store.frames.ancestor? k.machine.current h = some t ∧
    k.machine.store.frames.here? t "this" = some (.object o) ∧ k.machine.store.frames.outer? t = some e.home
  home : k.machine.store.frames.ancestor? k.machine.current (h + 1) = some e.home
  isA : k.machine.store.IsA o e.cls

namespace Moment.Lawful

variable {k : Moment} {d : Option Token} {id : NodeId} {keyword : Token}

/-- Around a use of `this` or `super` there is a class, whose instance is as far out as the layout says. -/
theorem encloses (hk : k.Lawful past c l around) {u : Use} (hu : u ∈ k.code.ownUses) (hclass : u.OfClass) :
    ∃ h e d o, l.hops? "this" = some h ∧ k.Encloses past u h e d o ∧
      (l.hops? "super" = some (h + 1) →
        ∃ c, d.superclass = some c ∧ k.machine.store.frames.here? e.home "super" = some (.cls c)) := by
  obtain ⟨e, he, hmethod⟩ := hk.code.owned u hu hclass
  obtain ⟨h, hops⟩ := hk.stands.hops_of_mem he
  obtain ⟨e', he', t, d, o, ht, hthis, hhome, hnext, hisA, hd, hdeclared, hsuper⟩ := hk.stands.receiver_at hops
  obtain rfl : e = e' := Option.some.inj (he.symm.trans he')
  exact ⟨h, e, d, o, hops, ⟨hdeclared, hd, hmethod, ⟨t, ht, hthis, hhome⟩, hnext, hisA⟩, hsuper⟩

theorem self_eq (hk : k.Lawful past c l around) (hcode : k.code = .expr d (.self id keyword)) :
    ∃ h e cls o, k.machine.bindings[id]? = some h ∧ k.Encloses past ⟨.self, id, keyword⟩ h e cls o ∧
      read id keyword k.machine = .ok (.object o) k.machine := by
  have hmem : (⟨.self, id, keyword⟩ : Use) ∈ k.code.ownUses := hcode ▸ List.mem_singleton_self _
  have hproper := hk.code.proper ⟨.self, id, keyword⟩ (hcode ▸ List.mem_singleton_self _)
  have hfits := hk.code.fits
  rw [hcode] at hfits
  obtain ⟨h, e, cls, o, hops, hencloses, -⟩ := hk.encloses hmem (.inl rfl)
  obtain ⟨-, hentry⟩ := hfits.2 ⟨.self, id, keyword⟩ (List.mem_singleton_self _)
  have hname : keyword.lexeme = "this" := hproper
  dsimp only at hentry
  rw [hname, hops, hk.machine.bindings] at hentry
  obtain ⟨t, ht, hthis, -⟩ := hencloses.receiver
  refine ⟨h, e, cls, o, hentry, hencloses, read_of_found ?_⟩
  rw [Machine.found?, hentry, hname]
  dsimp only
  rw [getAt?, ht]
  exact hthis

theorem inherited_eq (hk : k.Lawful past c l around) {method : Token}
    (hcode : k.code = .expr d (.inherited id keyword method)) :
    ∃ h e cls o s, k.machine.bindings[id]? = some (h + 1) ∧ k.Encloses past ⟨.inherited, id, keyword⟩ h e cls o ∧
      cls.superclass = some s ∧ k.machine.store.frames.here? e.home "super" = some (.cls s) ∧
        inherited id keyword method k.machine = boundMethod s o method k.machine := by
  have hmem : (⟨.inherited, id, keyword⟩ : Use) ∈ k.code.ownUses := hcode ▸ List.mem_singleton_self _
  have hfits := hk.code.fits
  rw [hcode] at hfits
  obtain ⟨h, e, cls, o, hops, hencloses, hsuper⟩ := hk.encloses hmem (.inr rfl)
  obtain ⟨-, -, h', hops', hnext, hentry⟩ := hfits.2 ⟨.inherited, id, keyword⟩ (List.mem_singleton_self _)
  obtain rfl : h = h' := Option.some.inj (hops.symm.trans hops')
  obtain ⟨s, hs, hhere⟩ := hsuper hnext
  dsimp only at hentry
  rw [hk.machine.bindings] at hentry
  obtain ⟨t, ht, hthis, -⟩ := hencloses.receiver
  refine ⟨h, e, cls, o, s, hentry, hencloses, hs, hhere, ?_⟩
  have hsuperAt : k.machine.store.frames.getAt? k.machine.current (h + 1) "super" = some (.cls s) := by
    rw [getAt?, hencloses.home]
    exact hhere
  have hthisAt : k.machine.store.frames.getAt? k.machine.current h "this" = some (.object o) := by
    rw [getAt?, ht]
    exact hthis
  unfold inherited
  rw [Halting.bind_of_ok (Halting.get_apply _)]
  simp only [hentry, hsuperAt, hthisAt]

end Moment.Lawful

namespace Run

theorem guards_inherited {k : Moment} (hk : k.Lawful past c l around) {d : Option Token} {id : NodeId}
    {keyword method : Token} (hcode : k.code = .expr d (.inherited id keyword method)) :
    Guards past c (inherited id keyword method) k.machine := by
  obtain ⟨h, e, cls, o, s, -, hencloses, hs, -, heq⟩ := hk.inherited_eq hcode
  obtain ⟨object, hobject, hdescends⟩ := hencloses.isA
  have ho : k.machine.store.IsA o s := ⟨object, hobject, hdescends.tail ⟨cls, hencloses.record, hs⟩⟩
  have hbound := guards_boundMethod hk.machine ho method
  unfold Guards Halting.after at hbound ⊢
  rwa [heq]

/-- What begins in a lawful place within the bound leads to lawful machines. -/
structure Leading (past : Moment → Prop) (c : Chart) (n : Nat) : Prop where
  eval : ∀ {d e m l around}, Moment.Lawful past c l around ⟨n, .expr d e, m⟩ → Guards past c (eval n e) m
  exec : ∀ {s m l around}, Moment.Lawful past c l around ⟨n, .stmt s, m⟩ → Guards past c (exec n s) m

section Parts

variable {n : Nat} (h : Leading past c n) (hpast : Timeline past)

include h hpast

theorem guards_each {d : Option Token} : ∀ (es : List Expr) {m : Machine},
    Moment.Lawful past c l around ⟨n, .arguments d es, m⟩ → Guards past c (each (eval n) es) m
  | [], _, hk => guards_pure hk.machine _
  | e :: rest, m, hk => by
    refine (h.eval (hk.argument hpast)).bind fun v m' he h' => ?_
    exact (guards_each rest (hk.others hpast he h')).bind fun vs m'' _ h'' => guards_pure h''.lawful _

theorem guards_sequence : ∀ (body : List Stmt) {m : Machine} {l : Layout},
    Moment.Lawful past c l around ⟨n, .body body, m⟩ → Guards past c (sequence (exec n) body) m
  | [], _, _, hk => guards_pure hk.machine _
  | s :: rest, m, l, hk => by
    refine (h.exec (hk.statement hpast)).bind fun completion m' e h' => ?_
    cases completion with
    | normal => exact guards_sequence rest (hk.rest hpast e h')
    | returned v => exact guards_pure h'.lawful _

theorem guards_callClosure {m : Machine} (hm : m.Lawful past c) {f : Closure FrameId}
    (hf : f.Sits past c m.globals m.store) {arguments : List Value}
    (hbody : past ⟨n, .body f.declared.body, m.enter f.home (parameterNames f.declared.parameters arguments)⟩) :
    Guards past c (callClosure (exec n) f arguments) m := by
  obtain ⟨l, around, hk⟩ := Moment.Lawful.called hm hf hbody
  refine (guards_inNewFrame (guards_sequence h hpast _ hk)).bind fun completion m' _ h' => ?_
  split
  · exact guards_get (guards_pure h'.lawful _)
  · split <;> exact guards_pure h'.lawful _

/-- The initializer is a method of a class that the new instance is one of. -/
theorem guards_construct {m : Machine} (hm : m.Lawful past c) {id : ClassId} {arguments : List Value}
    (hbody : ∀ body m', m.called? arguments (.cls id) = some (body, m') → past ⟨n, .body body, m'⟩) :
    Guards past c (construct (exec n) id arguments) m := by
  have hobject : Guards past c (inHeap fun h => h.addObject id) m :=
    guards_inStore _ hm (hm.store.addObject id) (Store.lasts_addObject _ _)
  refine hobject.bind fun o m' e h' => guards_get ?_
  cases e
  split
  · rename_i method hmethod
    have hisA : Store.IsA (m.store.inHeap fun h => h.addObject id).2 m.store.objects.size id :=
      ⟨⟨id, ∅⟩, Array.getElem?_push_size, .refl⟩
    have hbind := guards_inStore (fun s => s.bind method m.store.objects.size) h'.lawful (h'.lawful.store.addFrame _ _)
      (Store.lasts_bind _ _ _)
    refine hbind.bind fun closure m'' e' h'' => ?_
    cases e'
    refine (guards_callClosure h hpast h''.lawful (h'.lawful.store.bind hmethod hisA) (hbody _ _ ?_)).bind
      fun _ m₃ _ h₃ => guards_pure h₃.lawful _
    exact congrArg (Option.map _) hmethod
  · exact guards_pure h'.lawful _

theorem guards_call {m : Machine} (hm : m.Lawful past c) {callee : Value} {arguments : List Value}
    (hbody : ∀ body m', m.called? arguments callee = some (body, m') → past ⟨n, .body body, m'⟩) :
    Guards past c (call (exec n) callee arguments) m := by
  unfold call
  split
  · exact guards_get (guards_pure hm _)
  · refine guards_get ?_
    split
    · rename_i id f hf
      refine guards_callClosure h hpast hm (hm.store.closures f (Array.mem_of_getElem? hf)) (hbody _ _ ?_)
      exact congrArg (Option.map _) hf
    · exact guards_pure hm _
  · exact guards_construct h hpast hm hbody
  · exact guards_pure hm _

end Parts

section Declarations

variable {n : Nat} {m : Machine}

/-- A function stands in the frame in which it is declared, where its name is known by then. -/
theorem guards_declareFunction {f : Function} (hk : Moment.Lawful past c l around ⟨n, .stmt (.function f), m⟩) :
    Guards past c (declareFunction f) m := by
  have hname : f.name.lexeme ∉ reserved := hk.code.tidy.1
  have hstands := hk.stands.declare (List.forall_mem_singleton.mpr hname) hk.plain
  have hsits : f.Sits c (l.declare [f.name.lexeme]) around :=
    ⟨hk.code.fits.2, hk.code.tidy.2, hk.code.proper, hk.code.owned⟩
  have hclosure : Guards past c (inHeap fun h => h.addClosure ⟨f, m.current, false⟩) m :=
    guards_inStore _ hk.machine (hk.machine.store.addClosure ⟨_, _, hstands, hsits⟩) (Store.lasts_addClosure _ _)
  exact guards_get (hclosure.bind fun id m' _ h' => guards_define h'.lawful hname _)

/-- The store in which a class has been made. -/
theorem classes_declareClass (name : Token) (superclass : Option ClassId) (methods : List Function) :
    ((declareClass name superclass methods).after m).store.classes = m.store.classes.push
      ⟨name.lexeme, superclass, .ofList (match superclass with
        | some _ => m.store.frames.next
        | none => m.current) methods⟩ := by
  cases superclass with
  | none => rfl
  | some k =>
    have hsize : (m.store.frames.define m.current name.lexeme .nil).next = m.store.frames.next := size_define ..
    change m.store.classes.push ⟨_, _, .ofList (m.store.frames.define m.current name.lexeme .nil).next methods⟩ = _
    rw [hsize]

variable {name : Token} {superclass : Option NameUse} {methods : List Function}
  (hk : Moment.Lawful past c l around ⟨n, .stmt (.classDecl name superclass methods), m⟩)

include hk

/-- Each method sits in the scopes of the class and owns its uses. -/
theorem methods_sit {f : Function} {e : Enclosure} (he : e.methods = methods) (hf : f ∈ methods) :
    f.Sits c ((l.declare [name.lexeme]).ofClass superclass) (some e) where
  fits := hk.code.fits.2.2.mem hf
  tidy := tidy_of_mem hk.code.tidy.2 hf
  proper u hu := hk.code.proper u (by
    have := Function.uses_subset_usesEach hf hu
    simp [Code.uses, Stmt.uses, this])
  owned u hu _ := ⟨e, rfl, f, he ▸ hf, hu⟩
where
  tidy_of_mem {fs : List Function} (h : Function.TidyEach fs) {f : Function} (hf : f ∈ fs) : f.Tidy := by
    induction fs with
    | nil => cases hf
    | cons g rest ih =>
      rcases List.mem_cons.mp hf with rfl | hf
      · exact h.1
      · exact ih h.2 hf

end Declarations

section ClassDeclarations

variable {n : Nat} {m : Machine} {name : Token} {methods : List Function}

theorem declares_base : Moment.Declares ⟨n + 1, .stmt (.classDecl name none methods), m⟩ m.store.classes.size
    ⟨name.lexeme, none, .ofList m.current methods⟩ m.current methods := by
  have hexec : exec (n + 1) (.classDecl name none methods) m = .ok .normal ((declareClass name none methods).after m) :=
    rfl
  refine .base hexec ?_ rfl
  rw [classes_declareClass]
  exact Array.getElem?_push_size

/-- The machine is as it was when the superclass has been found. -/
theorem read_of_superclassOf {u : NameUse} {k : ClassId} {m' : Machine} (h : superclassOf u m = .ok k m') :
    m' = m ∧ read u.id u.name m = .ok (.cls k) m := by
  obtain ⟨v, m₁, hread, hcls⟩ := Halting.bind_eq_ok.mp h
  have hm : m₁ = m := by
    cases hv : m.found? u.id u.name.lexeme with
    | some v =>
      rw [read_of_found hv] at hread
      cases hread
      rfl
    | none =>
      rw [read_of_missing hv] at hread
      cases hread
  subst hm
  split at hcls <;> cases hcls
  exact ⟨rfl, hread⟩

theorem declares_derived {u : NameUse} {k : ClassId} (h : superclassOf u m = .ok k m) :
    Moment.Declares ⟨n + 1, .stmt (.classDecl name (some u) methods), m⟩ m.store.classes.size
      ⟨name.lexeme, some k, .ofList m.store.frames.next methods⟩ m.store.frames.next methods := by
  have hexec : exec (n + 1) (.classDecl name (some u) methods) m =
      .ok .normal ((declareClass name (some k) methods).after m) := by
    rw [exec]
    exact Halting.bind_of_ok h
  refine .derived (read_of_superclassOf h).2 hexec ?_ rfl
  rw [classes_declareClass]
  exact Array.getElem?_push_size

/-- Without a superclass the methods stand in the frame of the declaration, which has no reserved name. -/
theorem guards_declareBase
    (hk : Moment.Lawful past c l around ⟨n + 1, .stmt (.classDecl name none methods), m⟩) :
    Guards past c (declareClass name none methods) m := by
  have hname : name.lexeme ∉ reserved := hk.code.tidy.1
  refine (guards_define hk.machine hname .nil).bind fun _ m₁ e₁ h₁ => guards_get ?_
  have hstands := (h₁.enclosed hk.stands).declare (List.forall_mem_singleton.mpr hname) hk.plain
  cases e₁
  have hplain : ∀ scope ∈ (l.declare [name.lexeme]).head?, "super" ∉ scope := by
    have hplain := hk.plain
    cases l with
    | nil => nofun
    | cons scope outer =>
      intro scope' hscope' hm
      cases hscope'
      rcases List.mem_append.mp hm with hm | hm
      · exact hname (List.mem_singleton.mp hm ▸ by simp [reserved])
      · exact hplain scope rfl _ hm (by simp [reserved])
  refine (guards_inStore _ h₁.lawful (h₁.lawful.store.addClass ?_) (Store.lasts_addClass _ _)).bind
    fun id m₂ _ h₂ => guards_define h₂.lawful hname _
  refine ⟨⟨m.store.classes.size, m.current, methods⟩, _, around, rfl, ⟨Array.getElem?_push_size, ⟨_, hk.reached,
    declares_base⟩, fun scope hscope hm => absurd hm (hplain scope hscope)⟩,
    hstands.lasts (Store.lasts_addClass _ _) fun _ h => h, fun f hf => methods_sit hk rfl hf⟩

/-- With a superclass the methods stand in a frame that has its name. -/
theorem guards_declareDerived {u : NameUse} {k : ClassId} (hu : superclassOf u m = .ok k m)
    (hk : Moment.Lawful past c l around ⟨n + 1, .stmt (.classDecl name (some u) methods), m⟩) :
    Guards past c (declareClass name (some k) methods) m := by
  have hname : name.lexeme ∉ reserved := hk.code.tidy.1
  refine (guards_define hk.machine hname .nil).bind fun _ m₁ e₁ h₁ => guards_get ?_
  have hstands := (h₁.enclosed hk.stands).declare (List.forall_mem_singleton.mpr hname) hk.plain
  have hsize : m₁.store.frames.next = m.store.frames.next := by
    cases e₁
    exact size_define ..
  have hclasses : m₁.store.classes.size = m.store.classes.size := by
    cases e₁
    rfl
  have hframe := Store.lasts_addFrame m₁.store (some m₁.current) ((∅ : Names).insert "super" (.cls k))
  refine (guards_inStore _ h₁.lawful ((h₁.lawful.store.addFrame _ _).addClass ?_)
    (hframe.trans (Store.lasts_addClass _ _))).bind fun id m₂ _ h₂ => guards_define h₂.lawful hname _
  have hdeclares : Moment.Declares ⟨n + 1, .stmt (.classDecl name (some u) methods), m⟩ m.store.classes.size
      ⟨name.lexeme, some k, .ofList m.store.frames.next methods⟩ m.store.frames.next methods := declares_derived hu
  rw [← hsize, ← hclasses] at hdeclares
  refine ⟨⟨m₁.store.classes.size, m₁.store.frames.next, methods⟩, ["super"] :: l.declare [name.lexeme], around, rfl,
    ⟨Array.getElem?_push_size, ⟨_, hk.reached, hdeclares⟩, fun scope hscope hm => ⟨k, rfl, ?_⟩⟩, ?_,
    fun f hf => methods_sit hk rfl hf⟩
  · exact (here?_add ..).trans ((if_pos rfl).trans Std.ExtTreeMap.getElem?_insert_self)
  · exact .superclass ((outer?_add ..).trans (if_pos rfl))
      (hstands.lasts (hframe.trans (Store.lasts_addClass _ _)) fun _ h => h)

end ClassDeclarations

end Run

end LoxLang
