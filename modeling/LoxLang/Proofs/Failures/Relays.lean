import LoxLang.Proofs.Captures.Trails
import LoxLang.Proofs.Returns.Calls

/-! What fails has written nothing of its own: an error finds the store as the parts of the code have left it. -/

namespace LoxLang

open Run

namespace Store

/-- All that is there is still there, as it was and where it was. -/
structure Intact (s t : Store) : Prop where
  frames : s.frames.all.toList <+: t.frames.all.toList
  objects : s.objects.toList <+: t.objects.toList
  closures : s.closures.toList <+: t.closures.toList
  classes : s.classes.toList <+: t.classes.toList
  natives : s.natives.toList <+: t.natives.toList

variable {s t u : Store}

theorem Intact.refl (s : Store) : s.Intact s :=
  ⟨List.prefix_rfl, List.prefix_rfl, List.prefix_rfl, List.prefix_rfl, List.prefix_rfl⟩

theorem Intact.trans (h : s.Intact t) (h' : t.Intact u) : s.Intact u :=
  ⟨h.frames.trans h'.frames, h.objects.trans h'.objects, h.closures.trans h'.closures, h.classes.trans h'.classes,
    h.natives.trans h'.natives⟩

theorem prefix_push {α : Type} (as : Array α) (a : α) : as.toList <+: (as.push a).toList := by
  rw [Array.toList_push]
  exact List.prefix_append ..

theorem intact_addFrame (s : Store) (outer : Option FrameId) (names : Names) : s.Intact (s.addFrame outer names).2 :=
  ⟨prefix_push .., List.prefix_rfl, List.prefix_rfl, List.prefix_rfl, List.prefix_rfl⟩

theorem intact_addObject (s : Store) (c : ClassId) : s.Intact (s.inHeap fun h => h.addObject c).2 :=
  ⟨List.prefix_rfl, prefix_push .., List.prefix_rfl, List.prefix_rfl, List.prefix_rfl⟩

theorem Additions.intact {f : FrameId} (h : s.Additions f t) : s.Intact t := by
  induction h with
  | refl => exact .refl _
  | tail _ h ih =>
    refine ih.trans ?_
    cases h with
    | frame => exact intact_addFrame ..
    | object => exact intact_addObject ..

end Store

/-- From one store to another by way of code that runs. In front of each piece things are added at most, and behind the
last nothing is done. -/
inductive Relay : Store → List Moment → Store → Prop
  | done (s : Store) : Relay s [] s
  | part {s u : Store} {p : Moment} {ps : List Moment} : s.Intact p.machine.store → Relay p.after.store ps u →
    Relay s (p :: ps) u

namespace Moment

section Relays

variable {k : Moment} {ps : List Moment} {s t : Store} {o : Sink} {e : RuntimeError}

theorem store_of_halted {x : Halt} (h : k.halted? = some (x, s, o)) : k.after.store = s := by
  obtain ⟨n, code, m⟩ := k
  cases code <;> obtain ⟨u, hu, rfl, -⟩ := Halting.exists_of_halted h <;>
    exact congrArg Machine.store (Halting.after_of_error hu)

theorem Course.relay (hcourse : k.Course t ps) (h : k.halted? = some (.error e, s, o)) : Relay t ps s := by
  induction hcourse with
  | done _ hfails =>
    obtain rfl := (hfails e s o h).symm.trans (store_of_halted h)
    exact .done _
  | part hadditions _ ih => exact .part (Store.Additions.intact hadditions) ih

/-- What fails has left the store as its parts have left it. -/
theorem relay (h : k.halted? = some (.error e, s, o)) : Relay k.machine.store k.parts s := k.course.relay h

end Relays

section Points

variable {k p : Moment} {f : Value} {values : List Value} {paren : Token} {n : Nat} {m u : Machine} {e : RuntimeError}

/-- A superclass that is refused is refused before the class has its name. -/
theorem after_classDecl {name : Token} {superclass : Option NameUse} {methods : List Function}
    (h : exec (n + 1) (.classDecl name superclass methods) m = .error (.error e) u) : u = m := by
  have hdeclare : ∀ c t, (declareClass name c methods >>= fun _ => pure Completion.normal) t ≠ .error (.error e) u := by
    intro c t ht
    obtain ⟨t', hok, -⟩ := binds_declareClass name c methods t
    cases ht.symm.trans (Halting.bind_of_ok hok)
  cases superclass with
  | none => exact absurd h (hdeclare none m)
  | some superclass =>
    have hidle := after_superclassOf superclass m
    cases hfound : superclassOf superclass m with
    | error k t =>
      rw [Halting.after_of_error hfound] at hidle
      cases h.symm.trans (Halting.bind_of_error hfound)
      exact hidle
    | ok c t => exact absurd ((Halting.bind_of_ok hfound).symm.trans h) (hdeclare (some c) t)

/-- An assignment that fails is left where its value is left. -/
theorem failed_assign {id : NodeId} {name : Token} {value : Expr} (h : eval (n + 1) (.assign id name value) m =
    .error (.error e) u) : eval n value m = .error (.error e) u ∨ ∃ v, eval n value m = .ok v u := by
  cases hvalue : eval n value m with
  | ok v t =>
    obtain rfl := atomic_assign id name v t e u ((Halting.bind_of_ok hvalue).symm.trans h)
    exact .inr ⟨v, rfl⟩
  | error k t =>
    cases h.symm.trans (Halting.bind_of_error hvalue)
    exact .inl rfl

theorem failed_set {object value : Expr} {name : Token} (h : eval (n + 1) (.set object name value) m =
    .error (.error e) u) : eval n object m = .error (.error e) u ∨
      (∃ v, eval n object m = .ok v u ∧ ∀ o, v ≠ .object o) ∨
        ∃ o t, eval n object m = .ok (.object o) t ∧ eval n value t = .error (.error e) u := by
  cases hobject : eval n object m with
  | error k t =>
    cases h.symm.trans (Halting.bind_of_error hobject)
    exact .inl rfl
  | ok v t =>
    have hrest := (Halting.bind_of_ok hobject).symm.trans h
    cases v with
    | object o =>
      refine .inr (.inr ⟨o, t, rfl, ?_⟩)
      cases hvalue : eval n value t with
      | ok w t' => cases hrest.symm.trans (Halting.bind_of_ok hvalue)
      | error k t' =>
        cases hrest.symm.trans (Halting.bind_of_error hvalue)
        rfl
    | nil | bool | number | string | native | function | cls =>
      cases hrest
      exact .inr (.inl ⟨_, rfl, nofun⟩)

/-- A call that is refused ends where its arguments have their values, and begins nothing of what it was to call. -/
theorem Prepares.ends_refused (h : k.Prepares paren f values m)
    (hrefused : m.store.arity? f ≠ some values.length ∨ maxDepth ≤ m.depth) :
    (∃ e, k.halted? = some (.error e, m.store, m.output)) ∧ ∀ f values m, ¬ k.Enters f values m := by
  have hadmit : ∃ e, admitCall paren f values.length m = .error (.error e) m := by
    rw [admitCall_apply]
    cases harity : m.store.arity? f with
    | none => exact ⟨_, rfl⟩
    | some expected =>
      dsimp only
      by_cases hgiven : values.length ≠ expected
      · rw [if_pos hgiven]
        exact ⟨_, rfl⟩
      · obtain rfl := not_not.mp hgiven
        rw [if_neg hgiven, if_pos (hrefused.resolve_left fun hne => hne harity)]
        exact ⟨_, rfl⟩
  obtain ⟨e, hadmit⟩ := hadmit
  refine ⟨⟨e, ?_⟩, ?_⟩
  · obtain ⟨e₁, e₂⟩ := h
    refine Halting.halted?_after e₁ (Halting.halted?_after e₂ (Halting.halted?_bind ?_))
    rw [Halting.halted?, hadmit]
  · rintro f' values' - ⟨paren', m', hprepared, hadmitted, -⟩
    obtain ⟨rfl, rfl, rfl, rfl⟩ := h.unique hprepared
    cases hadmit.symm.trans hadmitted

/-- What a call does once it is admitted. -/
theorem Enters.call_eq (h : k.Enters f values m) : ∃ d e t, k.code = .expr d e ∧ m = { t with depth := t.depth + 1 } ∧
    eval k.bound e k.machine = asCall (call (exec (k.bound - 1)) f values) t := by
  obtain ⟨paren, t, ⟨e₁, e₂⟩, hadmitted, rfl⟩ := h
  exact ⟨_, _, t, rfl, rfl, (Halting.bind_of_ok e₁).trans ((Halting.bind_of_ok e₂).trans (Halting.bind_of_ok hadmitted))⟩

theorem Enters.ok (h : k.Enters f values m) (hcall : ∃ v t, call (exec (k.bound - 1)) f values m = .ok v t) :
    k.halted? = none := by
  obtain ⟨n, code, machine⟩ := k
  obtain ⟨d, e, t, rfl, rfl, heval⟩ := h.call_eq
  obtain ⟨v, t', hok⟩ := hcall
  change (eval n e).halted? machine = none
  rw [Halting.halted?, heval, asCall_of_ok hok]

theorem callClosure_ok {κ : Closure FrameId} {t : Machine} {c : Completion} (h : sequence (exec n) κ.declared.body
    (m.enter κ.home (parameterNames κ.declared.parameters values)) = .ok c t) :
    ∃ v u, callClosure (exec n) κ values m = .ok v u := by
  have hbody : sequence (exec n) κ.declared.body (bodyOf n κ values m).machine = .ok c t := h
  rw [callClosure_apply, hbody]
  exact ⟨_, _, rfl⟩

theorem call_ok_of_body {body : List Stmt} {t t' : Machine} {c : Completion} (h : m.called? values f = some (body, t))
    (hbody : sequence (exec n) body t = .ok c t') : ∃ v u, call (exec n) f values m = .ok v u := by
  obtain ⟨κ, m₁, hinvokes, rfl, rfl⟩ := Machine.called?_eq_some.mp h
  obtain ⟨v, u, hok⟩ := callClosure_ok hbody
  cases hinvokes with
  | function hκ =>
    rw [call_function_eq, hκ]
    exact ⟨v, u, hok⟩
  | cls hmethod =>
    rw [call_cls_eq, Store.initializer?_addObject, hmethod]
    exact ⟨_, u, Halting.bind_of_ok hok⟩

/-- A call that runs a body fails just if the body does, and leaves what the body leaves. -/
theorem Calls.halted?_eq (h : k.Calls p) : k.halted? = p.halted? := by
  obtain ⟨f, values, m, body, m', henters, hcalled, rfl⟩ := h
  cases hp : (⟨k.bound - 1, .body body, m'⟩ : Moment).halted? with
  | some x =>
    obtain ⟨paren, m'', ⟨e₁, e₂⟩, hadmitted, rfl⟩ := henters
    exact Halting.halted?_after e₁ (Halting.halted?_after e₂ (Halting.halted?_after hadmitted
      (halted?_asCall (halted?_call hcalled hp))))
  | none =>
    obtain ⟨c, t, hbody⟩ := Halting.ok_of_halted hp
    exact henters.ok (call_ok_of_body hcalled hbody)

end Points

end Moment

open Moment

/-- An error finds the store as the parts of the code have left it: between the parts that were begun nothing that was
there has changed, and behind the last of them nothing is written. So an assignment that fails is left as its value is
left, and one to a property as its object or its value; a class without a class to inherit from changes nothing at all, not
even its name; and a call that is refused, because the callee cannot be called, for the number of its arguments or for its
depth, begins nothing of the callee and is left as its arguments are. A call that is admitted fails just as the body that it
runs, and not if it runs none. -/
theorem failure_writes_nothing :
    (∀ (k : Moment) (e : RuntimeError) (s : Store) (o : Sink), k.halted? = some (.error e, s, o) →
      Relay k.machine.store k.parts s) ∧
    (∀ n id name value m e u, eval (n + 1) (.assign id name value) m = .error (.error e) u →
      eval n value m = .error (.error e) u ∨ ∃ v, eval n value m = .ok v u) ∧
    (∀ n object name value m e u, eval (n + 1) (.set object name value) m = .error (.error e) u →
      eval n object m = .error (.error e) u ∨ (∃ v, eval n object m = .ok v u ∧ ∀ o, v ≠ .object o) ∨
        ∃ o t, eval n object m = .ok (.object o) t ∧ eval n value t = .error (.error e) u) ∧
    (∀ n name superclass methods m e u, exec (n + 1) (.classDecl name superclass methods) m = .error (.error e) u → u = m) ∧
    (∀ (k : Moment) paren f values m, k.Prepares paren f values m →
      m.store.arity? f ≠ some values.length ∨ maxDepth ≤ m.depth →
        (∃ e, k.halted? = some (.error e, m.store, m.output)) ∧ ∀ f values m, ¬ k.Enters f values m) ∧
    ∀ (k : Moment) f values m, k.Enters f values m →
      (∀ p, k.Calls p → k.halted? = p.halted?) ∧ ((∀ p, ¬ k.Calls p) → k.halted? = none) := by
  refine ⟨fun k e s o => relay, fun n id name value m e u => failed_assign, fun n object name value m e u => failed_set,
    fun n name superclass methods m e u => after_classDecl, fun k paren f values m => Prepares.ends_refused,
    fun k f values m henters => ⟨fun p => Calls.halted?_eq, fun hnone => ?_⟩⟩
  -- A call that runs no body asks a native function or makes an instance, and neither fails.
  refine henters.ok (call_ok_of_uncalled ?_)
  by_contra hsome
  obtain ⟨⟨body, m'⟩, hcalled⟩ := Option.ne_none_iff_exists'.mp hsome
  exact hnone _ ⟨f, values, m, body, m', henters, hcalled, rfl⟩

/-- What cannot be called is refused with its arguments evaluated, and what they have written stays. -/
theorem failure_writes_nothing_refused :
    let paren : Token := ⟨.rightParen, ")", 1⟩
    let value : Expr := .literal (.bool true)
    let m := (Machine.start false .unlimited).defineGlobal "x" .nil
    let k : Moment := ⟨3, .expr none (.call value paren [.assign 0 ⟨.identifier, "x", 1⟩ value]), m⟩
    ∃ e s o, k.halted? = some (.error e, s, o) ∧ Relay m.store k.parts s ∧ s.frames.here? m.globals "x" = some (.bool true) ∧
      ∀ f values m, ¬ k.Enters f values m := by
  intro paren value m k
  let m₁ := m.withFrames (m.assigned 0 "x" (.bool true)).2
  have hassigned : m.assigned 0 "x" (.bool true) = (true, (m.assigned 0 "x" (.bool true)).2) :=
    Prod.ext (by decide +kernel) rfl
  have hassign : assign 0 ⟨.identifier, "x", 1⟩ (.bool true) m = .ok (.bool true) m₁ := assign_of_assigned hassigned
  have hvalue : eval 2 (.assign 0 ⟨.identifier, "x", 1⟩ value) m = .ok (.bool true) m₁ := hassign
  have hvalues : each (eval 2) [.assign 0 ⟨.identifier, "x", 1⟩ value] m = .ok [.bool true] m₁ := Halting.bind_of_ok hvalue
  have hprepared : k.Prepares paren (.bool true) [.bool true] m₁ := .mk rfl hvalues
  obtain ⟨hleft, -, -, -, hrefused, -⟩ := failure_writes_nothing
  obtain ⟨⟨e, hk⟩, hnone⟩ := hrefused k paren _ _ m₁ hprepared (.inl nofun)
  exact ⟨e, _, _, hk, hleft k e _ _ hk, by decide +kernel, hnone⟩

end LoxLang
