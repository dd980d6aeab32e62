import LoxLang.Proofs.Methods.Bound

/-! Initializers have their instance as their value. The frame that an initializer keeps names its instance for good, so
what a call comes to does not depend on how the body ends. -/

namespace LoxLang

open Frames Run

section Completing

variable {n : Nat} {κ : Closure FrameId} {f : Value} {values : List Value} {m m₁ u : Machine} {c : ClassId} {v : Value}

/-- What a call of the value comes to, once the body that it runs has ended: of a class the instance that is next. -/
def Run.valueOf (m : Machine) (κ : Closure FrameId) (completion : Completion) (t : Machine) : Value → Value
  | .cls _ => .object m.store.objects.size
  | _ => resultOf κ completion t

theorem Run.callClosure_eq_ok : callClosure (exec n) κ values m = .ok v u ↔
    ∃ completion t, (bodyOf n κ values m).Ends completion t ∧ v = resultOf κ completion t ∧
      u = { m with store := t.store, output := t.output } := by
  rw [callClosure_apply]
  constructor
  · intro h
    cases e : sequence (exec n) κ.declared.body (bodyOf n κ values m).machine with
    | error halt t =>
      rw [e] at h
      cases h
    | ok completion t =>
      rw [e] at h
      cases h
      exact ⟨completion, t, e, rfl, rfl⟩
  · rintro ⟨completion, t, hends, rfl, rfl⟩
    have hends : sequence (exec n) κ.declared.body (bodyOf n κ values m).machine = .ok completion t := hends
    rw [hends]

theorem Run.call_eq_ok (h : m.Invokes f κ m₁) : call (exec n) f values m = .ok v u ↔
    ∃ completion t, (bodyOf n κ values m₁).Ends completion t ∧ v = valueOf m κ completion t f ∧
      u = { m₁ with store := t.store, output := t.output } := by
  cases h with
  | function hκ =>
    rw [call_function hκ]
    exact callClosure_eq_ok
  | @cls c method hmethod =>
    rw [call_cls_eq, Store.initializer?_addObject, hmethod]
    constructor
    · intro h
      obtain ⟨κ, m₁, ⟨⟩, h⟩ := Halting.bind_eq_ok.mp h
      obtain ⟨result, t, hclosure, ⟨⟩⟩ := Halting.bind_eq_ok.mp h
      obtain ⟨completion, t, hends, -, rfl⟩ := callClosure_eq_ok.mp hclosure
      exact ⟨completion, t, hends, rfl, rfl⟩
    · rintro ⟨completion, t, hends, rfl, rfl⟩
      have hclosure := callClosure_eq_ok.mpr ⟨completion, t, hends, rfl, rfl⟩
      exact Halting.bind_eq_ok.mpr ⟨_, _, rfl, Halting.bind_eq_ok.mpr ⟨_, _, hclosure, rfl⟩⟩

theorem Run.call_cls_of_none (h : m.store.initializer? c = none) : call (exec n) (.cls c) values m =
    .ok (.object m.store.objects.size) { m with store := (m.store.inHeap fun h => h.addObject c).2 } := by
  rw [call_cls_eq, Store.initializer?_addObject, h]
  rfl

/-- The frame that an initializer keeps names an instance: the one that is made if a class is called. -/
theorem Machine.Invokes.bound (h : m.Invokes f κ m₁) (hm : m.store.Bound) (hflag : κ.isInitializer) :
    ∃ o, m₁.store.frames.here? κ.home "this" = some (.object o) ∧ ∀ c, f = .cls c → o = m.store.objects.size := by
  cases h with
  | function hκ =>
    obtain ⟨o, ho⟩ := hm κ (Array.mem_of_getElem? hκ) hflag
    exact ⟨o, ho, nofun⟩
  | cls hmethod => exact ⟨m.store.objects.size, (Store.here?_bind ..).trans (if_pos rfl), fun _ _ => rfl⟩

/-- What a class runs is found as an initializer. -/
theorem Machine.Invokes.isInitializer (h : m.Invokes (.cls c) κ m₁) {past : Moment → Prop} {chart : Chart} {globals : FrameId}
    (hm : m.store.Lawful past chart globals) : κ.isInitializer := by
  cases h with
  | cls hmethod => exact (hm.nearest_of_search hmethod).2.trans (beq_self_eq_true _)

end Completing

namespace Moment

variable {past : Moment → Prop} {k b : Moment} {paren : Token} {f : Value} {values : List Value} {m m₁ u : Machine}
  {κ : Closure FrameId} {c : ClassId} {o : ObjectId} {id : ClosureId} {v : Value}

/-- A call that runs a body completes just if it is admitted and the body ends. -/
theorem completes_invoked_iff (h : k.Prepares paren f values m)
    (hinvokes : ({ m with depth := m.depth + 1 } : Machine).Invokes f κ m₁) :
    k.Completes v u ↔ k.Enters f values { m with depth := m.depth + 1 } ∧
      ∃ completion t, (bodyOf (k.bound - 1) κ values m₁).Ends completion t ∧ v = valueOf m κ completion t f ∧
        u = { m₁ with store := t.store, depth := m.depth, output := t.output } := by
  rw [completes_iff h]
  simp only [call_eq_ok hinvokes]
  refine and_congr_right fun _ => ⟨?_, ?_⟩
  · rintro ⟨_, ⟨completion, t, hends, hv, rfl⟩, rfl⟩
    exact ⟨completion, t, hends, hv, rfl⟩
  · rintro ⟨completion, t, hends, hv, rfl⟩
    exact ⟨_, ⟨completion, t, hends, hv, rfl⟩, rfl⟩

/-- A call of a class comes to an instance of it that was not there. -/
theorem Completes.made (hpast : Timeline past) (hk : k.Legal past) (hprepared : k.Prepares paren (.cls c) values m)
    (h : k.Completes v u) : v = .object m.store.objects.size ∧
      ∃ object, u.store.objects[m.store.objects.size]? = some object ∧ object.cls = c := by
  have hmade : (m.store.objects.push ⟨c, ∅⟩)[m.store.objects.size]? = some ⟨c, ∅⟩ := Array.getElem?_push_size
  cases hmethod : m.store.initializer? c with
  | none =>
    obtain ⟨-, t, hcall, rfl⟩ := (completes_iff hprepared).mp h
    rw [call_cls_of_none (m := { m with depth := m.depth + 1 }) hmethod] at hcall
    cases hcall
    exact ⟨rfl, _, hmade, rfl⟩
  | some method =>
    have hinvokes := Machine.Invokes.cls (m := { m with depth := m.depth + 1 }) hmethod
    obtain ⟨henters, completion, t, hends, rfl, rfl⟩ := (completes_invoked_iff hprepared hinvokes).mp h
    have hcalls := calls_iff.mpr ⟨_, _, _, _, _, henters, hinvokes, rfl⟩
    have hreaches := (hk.starts hpast hcalls.starts).reaches hpast
    rw [show (bodyOf _ _ _ _).after = t from Halting.after_of_ok hends] at hreaches
    obtain ⟨object, hobject, hcls⟩ := hreaches.endures.objects _ _ hmade
    exact ⟨rfl, object, hobject, hcls⟩

/-- What is called begins with the arguments that were prepared. -/
theorem Calls.enters (h : k.Calls b) (hprepared : k.Prepares paren f values m) :
    k.Enters f values { m with depth := m.depth + 1 } := by
  obtain ⟨f', values', _, _, _, ⟨paren', m', hprepared', hadmitted, rfl⟩, -, -⟩ := h
  obtain ⟨rfl, rfl, rfl, rfl⟩ := hprepared.unique hprepared'
  exact ⟨paren', m', hprepared', hadmitted, rfl⟩

/-- In the activation of an initializer the frame that the function keeps names the instance from beginning to end, and
the call comes to the instance however the body ends. -/
structure Initializes (k b : Moment) (κ : Closure FrameId) (o : ObjectId) : Prop where
  begins : b.machine.store.frames.here? κ.home "this" = some (.object o)
  ends : b.after.store.frames.here? κ.home "this" = some (.object o)
  value : ∀ v u, k.Completes v u → v = .object o
  completes : ∀ completion t, b.Ends completion t → ∃ u, k.Completes (.object o) u

theorem Legal.initializes (hpast : Timeline past) (hk : k.Legal past) (hbound : k.machine.store.Bound)
    (hprepared : k.Prepares paren f values m) (henters : k.Enters f values { m with depth := m.depth + 1 })
    (hinvokes : ({ m with depth := m.depth + 1 } : Machine).Invokes f κ m₁) (hflag : κ.isInitializer) :
    ∃ o, k.Initializes (bodyOf (k.bound - 1) κ values m₁) κ o := by
  obtain ⟨o, ho, hcls⟩ := hinvokes.bound ((hk.prepares hpast hprepared).bound hbound) hflag
  have hcalls := calls_iff.mpr ⟨_, _, _, _, _, henters, hinvokes, rfl⟩
  have hreaches := (hk.starts hpast hcalls.starts).reaches hpast
  have hbegins : (bodyOf (k.bound - 1) κ values m₁).machine.store.frames.here? κ.home "this" = some (.object o) :=
    (Store.lasts_addFrame ..).kept _ _ _ (by simp [reserved]) ho
  have hends := hreaches.endures.this hbegins
  have hvalue : ∀ completion t, (bodyOf (k.bound - 1) κ values m₁).Ends completion t →
      valueOf m κ completion t f = .object o := by
    intro completion t h
    have hafter : (bodyOf (k.bound - 1) κ values m₁).after = t := Halting.after_of_ok h
    cases hinvokes with
    | function =>
      change resultOf κ completion t = _
      unfold resultOf
      rw [if_pos hflag, ← hafter, hends, Option.getD_some]
    | cls => rw [valueOf, hcls _ rfl]
  refine ⟨o, hbegins, hends, fun v u h => ?_, fun completion t h => ?_⟩
  · obtain ⟨-, completion, t, hends, rfl, -⟩ := (completes_invoked_iff hprepared hinvokes).mp h
    exact hvalue completion t hends
  · have hcompletes := (completes_invoked_iff hprepared hinvokes).mpr ⟨henters, completion, t, h, rfl, rfl⟩
    rw [hvalue completion t h] at hcompletes
    exact ⟨_, hcompletes⟩

/-- The value of the expression is the function. -/
theorem Obtains.value {x : String} (h : k.Obtains o c x id) : ∃ u, k.Completes (.function id) u := by
  cases h with
  | get _ _ _ h => exact ⟨_, _, _, rfl, h⟩
  | inherited _ _ _ h => exact ⟨_, _, _, rfl, h⟩

end Moment

open Moment Session

/-- In every session, a call of a class that completes comes to an instance of that very class, which was not there when
the arguments had their values nor behind any code before. A call of an initializer that was obtained from an instance, or
through `super` for it, comes to that instance whenever the body ends, by a `return` or without one: when it was stored in
between, and when it is the callee itself. Wherever an initializer is run, the frame that it keeps names an instance, from
the beginning of the body to its end, and that is what the call comes to; and what is run for a class is an initializer. -/
theorem initializers_yield_instance {prompt : Bool} {now : Number} {output diagnostics : Sink} {units : List Moment}
    {s' : Session} (h : (start prompt now output diagnostics).Runs units s') :
    (∀ k paren c values m v u, Passed units k → k.Prepares paren (.cls c) values m → k.Completes v u →
      ∃ o object, v = .object o ∧ u.store.objects[o]? = some object ∧ object.cls = c ∧ m.store.objects[o]? = none ∧
        ∀ i, Before units i k → i.after.store.objects[o]? = none) ∧
    (∀ k₀ o c id, Passed units k₀ → k₀.Obtains o c initializerName id →
      ∀ k paren values m, Passed units k → k.Prepares paren (.function id) values m →
        (∀ b, k.Calls b → Before units k₀ b) →
          (∀ v u, k.Completes v u → v = .object o) ∧
          ∀ b completion t, k.Calls b → b.Ends completion t → ∃ u, k.Completes (.object o) u) ∧
    (∀ n d callee paren es m o c id v u, Passed units ⟨n + 1, .expr d (.call callee paren es), m⟩ →
      Obtains ⟨n, .expr d callee, m⟩ o c initializerName id →
        Completes ⟨n + 1, .expr d (.call callee paren es), m⟩ v u → v = .object o) ∧
    ∀ k b, Passed units k → k.Calls b → ∃ f values m κ m₁, k.Enters f values m ∧ m.Invokes f κ m₁ ∧
      b = bodyOf (k.bound - 1) κ values m₁ ∧ (∀ c, f = .cls c → κ.isInitializer) ∧
        (κ.isInitializer → ∃ o, k.Initializes b κ o) := by
  have hpast := timeline_passed units
  have hobtained : ∀ k₀ o c id, Passed units k₀ → k₀.Obtains o c initializerName id →
      ∀ k paren values m, Passed units k → k.Prepares paren (.function id) values m →
        (∀ b, k.Calls b → Before units k₀ b) →
          (∀ v u, k.Completes v u → v = .object o) ∧
          ∀ b completion t, k.Calls b → b.Ends completion t → ∃ u, k.Completes (.object o) u := by
    intro k₀ o c id hk₀ hobtains k paren values m hk hprepared hbefore
    -- A bound function keeps the receiver that it was bound to, so the one in the call is that instance.
    have hinitializes : ∀ b, k.Calls b → ∃ κ, k.Initializes b κ o := by
      intro b hcalls
      obtain ⟨κ, home, -, hκ, hflag, hbound, rfl, -⟩ :=
        hobtains.runsFor hpast (h.legal hk₀).1 (h.reaches (hbefore b hcalls)) (h.legal hk).1 hprepared hcalls
      have hflag : κ.isInitializer = true := hflag.trans (beq_self_eq_true _)
      obtain ⟨o', ho'⟩ := (h.legal hk).1.initializes hpast (h.bound hk) hprepared (hcalls.enters hprepared)
        (.function (m := { m with depth := m.depth + 1 }) hκ) hflag
      obtain rfl : o' = o := Value.object.inj (Option.some.inj (ho'.begins.symm.trans hbound.this))
      exact ⟨κ, ho'⟩
    refine ⟨fun v u hcompletes => ?_, fun b completion t hcalls hends => ?_⟩
    · obtain ⟨κ, -, hcalls⟩ := ((completes_iff hprepared).mp hcompletes).1.function
      obtain ⟨_, ho⟩ := hinitializes _ hcalls
      exact ho.value v u hcompletes
    · obtain ⟨_, ho⟩ := hinitializes b hcalls
      exact ho.completes completion t hends
  refine ⟨fun k paren c values m v u hk hprepared hcompletes => ?_, hobtained, ?_, fun k b hk hcalls => ?_⟩
  · have hlegal := (h.legal hk).1
    obtain ⟨hv, object, hobject, hcls⟩ := hcompletes.made hpast hlegal hprepared
    have hnone : m.store.objects[m.store.objects.size]? = none := Array.getElem?_size
    refine ⟨_, object, hv, hobject, hcls, hnone, fun i hi => ?_⟩
    have hreaches := (h.reaches hi).trans (hlegal.prepares hpast hprepared)
    refine Option.eq_none_iff_forall_not_mem.mpr fun object' hobject' => ?_
    obtain ⟨_, hm, -⟩ := (Store.Reaches.endures hreaches).objects _ _ hobject'
    cases hnone.symm.trans hm
  · intro n d callee paren es m o c id v u hk hobtains hcompletes
    obtain ⟨u', _, _, ⟨⟩, hcallee⟩ := hobtains.value
    obtain ⟨_, _, ⟨⟩, heval⟩ := hcompletes
    obtain ⟨values, m₁, hprepared⟩ := exists_prepares (d := d) hcallee heval
    obtain ⟨unit, hunit, hvisits⟩ := hk
    have hbefore := fun b (hb : Calls _ b) => hb.behind_callee.of_visits hunit hvisits
    have hfirst : Passed units ⟨n, .expr d callee, m⟩ := ⟨unit, hunit, hvisits.tail (.first rfl)⟩
    exact (hobtained _ o c id hfirst hobtains _ paren values m₁ ⟨unit, hunit, hvisits⟩ hprepared hbefore).1 v u
      ⟨_, _, rfl, heval⟩
  · obtain ⟨f, values, m, κ, m₁, henters, hinvokes, hb⟩ := calls_iff.mp hcalls
    obtain ⟨paren, m', hprepared, hadmitted, rfl⟩ := henters
    refine ⟨f, values, _, κ, m₁, ⟨paren, m', hprepared, hadmitted, rfl⟩, hinvokes, hb, ?_, fun hflag => ?_⟩
    · rintro c rfl
      obtain ⟨chart, l, around, hlawful⟩ := (h.legal hk).1
      exact hinvokes.isInitializer (hlawful.prepares hpast hprepared).lawful.store
    · subst hb
      exact (h.legal hk).1.initializes hpast (h.bound hk) hprepared ⟨paren, m', hprepared, hadmitted, rfl⟩ hinvokes hflag

/-- An initializer that ends with a bare `return` runs for an instance when that is made, and later through a variable. -/
theorem initializers_yield_instance_again : ∃ units s' made obtained called c o id,
    (start false ⟨0⟩ .unlimited .unlimited).Runs units s' ∧ Recalls units made obtained called c o initializerName id ∧
      (∃ paren values m u object, made.Prepares paren (.cls c) values m ∧ made.Completes (.object o) u ∧
        u.store.objects[o]? = some object ∧ object.cls = c ∧ m.store.objects[o]? = none) ∧
      ∃ u, called.Completes (.object o) u := by
  obtain ⟨units, s', made, obtained, called, c, o, id, h, hrecalls⟩ := exists_recalls
  obtain ⟨hmade, hobtained, hcalled⟩ := hrecalls.passed
  obtain ⟨hfresh, hobtains, -⟩ := initializers_yield_instance h
  obtain ⟨paren, values, m, hprepares, -⟩ := hrecalls.prepares
  obtain ⟨u, hmakes⟩ := hrecalls.makes
  obtain ⟨_, object, ⟨⟩, hobject, hcls, hnone, -⟩ := hfresh made paren c values m _ u hmade hprepares hmakes
  obtain ⟨c', hobtained'⟩ := hrecalls.obtains
  obtain ⟨paren', values', m', hprepares'⟩ := hrecalls.recalls
  obtain ⟨v, u', hcompletes⟩ := hrecalls.completes
  obtain ⟨hvalue, -⟩ := hobtains obtained o c' id hobtained hobtained' called paren' values' m' hcalled hprepares' hrecalls.order
  obtain rfl := hvalue v u' hcompletes
  exact ⟨units, s', made, obtained, called, c, o, id, h, hrecalls,
    ⟨paren, values, m, u, object, hprepares, hmakes, hobject, hcls, hnone⟩, u', hcompletes⟩

end LoxLang
