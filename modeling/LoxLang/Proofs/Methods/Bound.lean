import LoxLang.Proofs.Methods.Activations
import LoxLang.Proofs.Methods.Dispatch

/-! Method values keep their receiver. A method that was obtained from an instance, or through `super` for the instance
whose method ran, runs for that instance whenever it is called, whatever has happened in between. -/

namespace LoxLang

open Frames Run

/-- An expression has a method as its value, sought from a class up for an instance: a property that is no field, or a
method of the superclass for the instance whose method runs. -/
inductive Moment.Obtains : Moment → ObjectId → ClassId → String → ClosureId → Prop
  | get {n : Nat} {d : Option Token} {e : Expr} {name : Token} {m m₁ m' : Machine} {o : ObjectId} {object : Object}
    {id : ClosureId} : eval n e m = .ok (.object o) m₁ → m₁.store.objects[o]? = some object →
      m₁.store.field? o name.lexeme = none → eval (n + 1) (.get e name) m = .ok (.function id) m' →
        Obtains ⟨n + 1, .expr d (.get e name), m⟩ o object.cls name.lexeme id
  | inherited {n : Nat} {d : Option Token} {node : NodeId} {keyword name : Token} {m m' : Machine} {h : Nat}
    {o : ObjectId} {c : ClassId} {id : ClosureId} : m.bindings[node]? = some (h + 1) →
      m.store.frames.getAt? m.current h "this" = some (.object o) →
        m.store.frames.getAt? m.current (h + 1) "super" = some (.cls c) →
          eval (n + 1) (.inherited node keyword name) m = .ok (.function id) m' →
            Obtains ⟨n + 1, .expr d (.inherited node keyword name), m⟩ o c name.lexeme id

section Binding

variable {past : Moment → Prop} {c : Chart} {m m' : Machine} {k : ClassId} {o : ObjectId} {name : Token} {v : Value}

theorem Run.found_of_boundMethod (h : boundMethod k o name m = .ok v m') :
    ∃ κ, m.store.method? k name.lexeme = some κ ∧ v = .function m.store.closures.size ∧
      m'.store = ((m.store.bind κ o).2.inHeap fun h => h.addClosure (m.store.bind κ o).1).2 := by
  unfold boundMethod at h
  rw [Halting.bind_of_ok (Halting.get_apply m)] at h
  revert h
  cases hfound : m.store.method? k name.lexeme with
  | none =>
    intro h
    cases h
  | some κ =>
    intro h
    cases h
    exact ⟨κ, rfl, rfl, rfl⟩

/-- The function that is made of a method is bound to the instance. -/
theorem Machine.Lawful.boundMethod (hm : m.Lawful past c) (ho : m.store.IsA o k) {id : ClosureId}
    (h : Run.boundMethod k o name m = .ok (.function id) m') :
    ∃ κ home, m'.store.closures[id]? = some κ ∧ m'.store.Nearest past name.lexeme k κ.declared home ∧
      κ.isInitializer = (name.lexeme == initializerName) ∧ m'.store.BoundTo κ name.lexeme o := by
  obtain ⟨κ, hfound, hid, hstore⟩ := found_of_boundMethod h
  cases hid
  obtain ⟨hnearest, hflag⟩ := hm.store.nearest_of_search hfound
  have hadded := Store.lasts_addClosure (m.store.bind κ o).2 (m.store.bind κ o).1
  rw [hstore]
  exact ⟨(m.store.bind κ o).1, κ.home, Array.getElem?_push_size,
    hnearest.lasts ((Store.lasts_bind m.store κ o).trans hadded), hflag, (Store.boundTo_bind hfound ho).lasts hadded⟩

end Binding

namespace Moment

variable {past : Moment → Prop} {k : Moment} {o : ObjectId} {c : ClassId} {x : String} {id : ClosureId}

theorem Obtains.boundTo (h : k.Obtains o c x id) (hpast : Timeline past) (hk : k.Legal past) :
    ∃ κ home, k.after.store.closures[id]? = some κ ∧ k.after.store.Nearest past x c κ.declared home ∧
      κ.isInitializer = (x == initializerName) ∧ k.after.store.BoundTo κ x o := by
  obtain ⟨chart, l, around, hlawful⟩ := hk
  cases h with
  | @get n d e name m m₁ m' o object id heval hobject hfield hget =>
    have hafter : after ⟨n + 1, .expr d (.get e name), m⟩ = m' := Halting.after_of_ok hget
    have hleads := ((leading hpast n).eval (hlawful.first hpast rfl)).of_ok heval
    rw [eval, Halting.bind_of_ok heval] at hget
    have hget : property o name m₁ = .ok (.function id) m' := hget
    rw [property_of_none hfield hobject] at hget
    rw [hafter]
    exact hleads.lawful.boundMethod ⟨object, hobject, .refl⟩ hget
  | @inherited n d node keyword name m m' h o c id hnode hthis hsuper hget =>
    have hafter : after ⟨n + 1, .expr d (.inherited node keyword name), m⟩ = m' := Halting.after_of_ok hget
    obtain ⟨h', e, cls, o', s, hnode', hencloses, hs, hhere, heq⟩ := hlawful.inherited_eq rfl
    obtain rfl : h = h' := Nat.succ.inj (Option.some.inj (hnode.symm.trans hnode'))
    obtain ⟨t, ht, hthis', -⟩ := hencloses.receiver
    rw [getAt?, ht] at hthis
    cases hthis.symm.trans hthis'
    rw [getAt?, hencloses.home] at hsuper
    cases hsuper.symm.trans hhere
    obtain ⟨object, hobject, hdescends⟩ := hencloses.isA
    rw [eval, heq] at hget
    rw [hafter]
    exact hlawful.machine.boundMethod ⟨object, hobject, hdescends.tail ⟨cls, hencloses.record, hs⟩⟩ hget

/-- A call of the function that was obtained runs the method, for the instance it was obtained from. -/
theorem Obtains.runsFor {b k' : Moment} {paren : Token} {values : List Value} {m : Machine} (h : k.Obtains o c x id)
    (hpast : Timeline past) (hk : k.Legal past) (hreaches : k.after.store.Reaches b.machine.store) (hk' : k'.Legal past)
    (hprepared : k'.Prepares paren (.function id) values m) (hcalls : k'.Calls b) :
    ∃ κ home, k.after.store.Nearest past x c κ.declared home ∧ m.store.closures[id]? = some κ ∧
      κ.isInitializer = (x == initializerName) ∧ b.machine.store.BoundTo κ x o ∧
        b = bodyOf (k'.bound - 1) κ values { m with depth := m.depth + 1 } ∧ b.RunsFor o := by
  obtain ⟨κ, home, hκ, hnearest, hflag, hbound⟩ := h.boundTo hpast hk
  obtain ⟨f, values', m', κ', m₁, ⟨paren', m₂, hprepared', -, rfl⟩, hinvokes, rfl⟩ := calls_iff.mp hcalls
  obtain ⟨-, rfl, rfl, rfl⟩ := hprepared.unique hprepared'
  cases hinvokes with
  | function hκ' =>
    have hkept := hreaches.endures.closures id κ hκ
    obtain rfl : κ = κ' := Option.some.inj (hkept.symm.trans hκ')
    have hbound' := hbound.lasts hreaches.endures.toLasts
    obtain ⟨chart, l, around, hlawful⟩ := hk'
    have hm := (hlawful.prepares hpast hprepared).lawful.deeper (m₂.depth + 1)
    have hpassed := hpast _ _ hlawful.reached hcalls.starts
    exact ⟨κ, home, hnearest, hκ', hflag, hbound', rfl, runsFor_bodyOf hpast hm hbound' hpassed⟩

end Moment

open Moment Session

/-- A call makes an instance of a class that has an initializer. A method is obtained from the instance, and is called behind that. -/
structure Recalls (units : List Moment) (made obtained called : Moment) (c : ClassId) (o : ObjectId) (x : String)
    (id : ClosureId) : Prop where
  passed : Passed units made ∧ Passed units obtained ∧ Passed units called
  prepares : ∃ paren values m, made.Prepares paren (.cls c) values m ∧ (m.store.initializer? c).isSome
  makes : ∃ u, made.Completes (.object o) u
  obtains : ∃ c', obtained.Obtains o c' x id
  recalls : ∃ paren values m, called.Prepares paren (.function id) values m
  completes : ∃ v u, called.Completes v u
  order : ∀ b, called.Calls b → Before units obtained b

/-- A variable is given a method of an instance that is made there, and is called in the next statement. -/
theorem recalls_of_unit {units : List Moment} {n : Nat} {first : Stmt} {g paren₁ paren₂ name : Token}
    {maker callee : Expr} {es₁ es₂ : List Expr} {m m₁ m₂ m₂' m₃ m₄ m₅ m₆ u : Machine} {c : ClassId} {o : ObjectId}
    {object : Object} {id : ClosureId} {values : List Value} {v : Value} {made call : Expr} (hmade : made = .call maker paren₁ es₁)
    (hcall : call = .call callee paren₂ es₂)
    (hmem : ⟨n + 3, .unit [first, .var g (some (.get made name)), .expression call], m⟩ ∈ units)
    (h₁ : perform (n + 3) first m = .ok () m₁) (hmaker : eval n maker m₁ = .ok (.cls c) m₂)
    (heach : each (eval n) es₁ m₂ = .ok values m₂') (hinitializer : (m₂'.store.initializer? c).isSome)
    (hmakes : eval (n + 1) made m₁ = .ok (.object o) m₃) (hobject : m₃.store.objects[o]? = some object)
    (hfield : m₃.store.field? o name.lexeme = none) (hget : eval (n + 2) (.get made name) m₁ = .ok (.function id) m₄)
    (h₂ : perform (n + 3) (.var g (some (.get made name))) m₁ = .ok () m₅)
    (hcallee : eval (n + 1) callee m₅ = .ok (.function id) m₆) (hcompletes : eval (n + 2) call m₅ = .ok v u)
    (hprompt₁ : m₁.prompt = false) (hprompt₅ : m₅.prompt = false) :
    Recalls units ⟨n + 1, .expr (some g) made, m₁⟩ ⟨n + 2, .expr (some g) (.get made name), m₁⟩
      ⟨n + 2, .expr none call, m₅⟩ c o name.lexeme id := by
  have hunit : Visits ⟨n + 3, .unit [first, .var g (some (.get made name)), .expression call], m⟩
      ⟨n + 3, .unit [.var g (some (.get made name)), .expression call], m₁⟩ := .single (.next h₁)
  have hobtained : Visits ⟨n + 3, .stmt (.var g (some (.get made name))), m₁⟩
      ⟨n + 2, .expr (some g) (.get made name), m₁⟩ := .single (.value rfl)
  have hsecond := hunit.trans (.head (.performed fun _ _ => hprompt₁) hobtained)
  have hthird : Visits ⟨n + 3, .unit [.expression call], m₅⟩ ⟨n + 2, .expr none call, m₅⟩ :=
    .head (.performed fun _ _ => hprompt₅) (.single (.value rfl))
  have horder : ∀ b, Calls ⟨n + 2, .expr none call, m₅⟩ b → Before units ⟨n + 2, .expr (some g) (.get made name), m₁⟩ b :=
    fun b hb => ((before_behind h₂ hobtained hthird).behind (.single hb.starts)).of_visits hmem hunit
  subst hmade hcall
  obtain ⟨values₂, u₂, hrecalls⟩ := exists_prepares hcallee hcompletes
  exact {
    passed := ⟨⟨_, hmem, hsecond.tail (.first rfl)⟩, ⟨_, hmem, hsecond⟩, ⟨_, hmem, hunit.trans (.head (.next h₂) hthird)⟩⟩
    prepares := ⟨_, _, _, ⟨hmaker, heach⟩, hinitializer⟩
    makes := ⟨_, _, _, rfl, hmakes⟩
    obtains := ⟨_, .get hmakes hobject hfield hget⟩
    recalls := ⟨_, _, _, hrecalls⟩
    completes := ⟨_, _, _, _, rfl, hcompletes⟩
    order := horder }

/-- Behind a class declaration a unit gives a variable an initializer of an instance that is made there, and calls it. -/
def Session.recallsInitializer (s : Session) (source : String) : Bool :=
  match s.accepted? source with
  | some ([first, .var g (some (.get (.call maker paren₁ es₁) name)), .expression (.call callee paren₂ es₂)], known) =>
    match perform 9 first (s.ready known) with
    | .ok () m₁ =>
      match eval 6 maker m₁, eval 7 (.call maker paren₁ es₁) m₁, eval 8 (.get (.call maker paren₁ es₁) name) m₁,
        perform 9 (.var g (some (.get (.call maker paren₁ es₁) name))) m₁ with
      | .ok (.cls c) m₂, .ok (.object o) m₃, .ok (.function id) _, .ok () m₅ =>
        match each (eval 6) es₁ m₂, m₃.store.objects[o]?, eval 7 callee m₅, eval 8 (.call callee paren₂ es₂) m₅ with
        | .ok _ m, some _, .ok (.function id') _, .ok _ _ => (m.store.initializer? c).isSome &&
          (m₃.store.field? o name.lexeme).isNone && id' == id && name.lexeme == initializerName && !m₁.prompt && !m₅.prompt
        | _, _, _, _ => false
      | _, _, _, _ => false
    | _ => false
  | _ => false

theorem Session.recalls_of_recallsInitializer {s : Session} {source : String} (h : s.recallsInitializer source = true) :
    ∃ made obtained called c o id, Recalls (s.begun 9 source) made obtained called c o initializerName id := by
  unfold recallsInitializer at h
  split at h
  · rename_i ha
    split at h
    · rename_i h₁
      split at h
      · rename_i hmaker hmakes hget h₂
        split at h
        · rename_i heach hobject hcallee hcompletes
          simp only [Bool.and_eq_true, Option.isNone_iff_eq_none, beq_iff_eq, Bool.not_eq_true'] at h
          obtain ⟨⟨⟨⟨⟨hinitializer, hfield⟩, rfl⟩, hname⟩, hprompt₁⟩, hprompt₅⟩ := h
          exact ⟨_, _, _, _, _, _, hname ▸ recalls_of_unit rfl rfl (mem_begun.mpr ⟨_, ha, rfl⟩) h₁ hmaker heach hinitializer
            hmakes hobject hfield hget h₂ hcallee hcompletes hprompt₁ hprompt₅⟩
        · cases h
      · cases h
    · cases h
  · cases h

/-- An initializer that ends with a bare `return`. -/
theorem exists_recalls : ∃ units s' made obtained called c o id,
    (start false ⟨0⟩ .unlimited .unlimited).Runs units s' ∧ Recalls units made obtained called c o initializerName id := by
  let s := start false ⟨0⟩ .unlimited .unlimited
  let source := "class A { init(x) { return; } } var g = A(1).init; g(2);"
  have hrecalls : s.recallsInitializer source = true := by decide +kernel
  obtain ⟨made, obtained, called, c, o, id, h⟩ := recalls_of_recallsInitializer hrecalls
  exact ⟨_, _, made, obtained, called, c, o, id, .run 9 source .refl, h⟩

/-- In every session, at every machine on which code begins or leaves off, a property of an instance is its field of the
name; or else a function made of the method of the nearest class, from the class of the instance up, that declares the
name, where the last declaration of a class body counts; or else there is a fault. So it is where a property is read. A
method obtained in this way, or through `super`, is the one found then: whenever the function is called later, it runs the
body of that method, and in all of its activation `this` is the instance that it was obtained from. -/
theorem properties_dispatch {prompt : Bool} {now : Number} {output diagnostics : Sink} {units : List Moment} {s' : Session}
    (h : (start prompt now output diagnostics).Runs units s') :
    (∀ k, Passed units k → ∀ m ∈ [k.machine, k.after], ∀ o object, m.store.objects[o]? = some object →
      ∀ name, m.Dispatches (Passed units) o object.cls name) ∧
    (∀ n d e name m o m', Passed units ⟨n + 1, .expr d (.get e name), m⟩ → eval n e m = .ok (.object o) m' →
      ∃ object, m'.store.objects[o]? = some object ∧ m'.Dispatches (Passed units) o object.cls name ∧
        eval (n + 1) (.get e name) m = property o name m') ∧
    ∀ k o c x id, Passed units k → k.Obtains o c x id →
      ∃ f home, k.after.store.Nearest (Passed units) x c f home ∧
        ∀ k' b paren values m, Passed units k' → k'.Prepares paren (.function id) values m → k'.Calls b →
          Before units k b → b.code = .body f.body ∧ b.RunsFor o := by
  have hpast := timeline_passed units
  have hdispatches : ∀ k, Passed units k → ∀ m ∈ [k.machine, k.after], ∀ (o : ObjectId) object,
      m.store.objects[o]? = some object → ∀ name, m.Dispatches (Passed units) o object.cls name := by
    intro k hk m hm o object ho name
    obtain ⟨⟨c, l, around, hlawful⟩, hbefore, hbehind⟩ := h.legal hk
    rcases List.mem_pair.mp hm with rfl | rfl
    · exact hlawful.machine.dispatches hbefore ho name
    · exact (hlawful.leads hpast).lawful.dispatches hbehind ho name
  refine ⟨hdispatches, fun n d e name m o m' hk heval => ?_, fun k o c x id hk hobtains => ?_⟩
  · have hoperand : Passed units ⟨n, .expr d e, m⟩ := hpast _ _ hk (.first rfl)
    have hafter : after ⟨n, .expr d e, m⟩ = m' := Halting.after_of_ok heval
    obtain ⟨-, hwhole, -⟩ := h.legal hoperand
    have hin : o < m'.store.objects.size := (((yielding n).eval hwhole).of_ok heval).2.2
    have hobject : m'.store.objects[o]? = some m'.store.objects[o] := Array.getElem?_eq_getElem hin
    refine ⟨_, hobject, hdispatches _ hoperand m' (by simp [hafter]) o _ hobject name, ?_⟩
    rw [eval, Halting.bind_of_ok heval]
  · obtain ⟨κ, home, hκ, hnearest, -⟩ := hobtains.boundTo hpast (h.legal hk).1
    refine ⟨κ.declared, home, hnearest, fun k' b paren values m hk' hprepared hcalls hbefore => ?_⟩
    obtain ⟨κ', home', hnearest', hκ', -, -, rfl, hruns⟩ :=
      hobtains.runsFor hpast (h.legal hk).1 (h.reaches hbefore) (h.legal hk').1 hprepared hcalls
    obtain rfl : κ' = κ := by
      have hkept := (h.reaches hbefore).endures.closures id κ hκ
      exact Option.some.inj (hκ'.symm.trans hkept)
    exact ⟨rfl, hruns⟩

/-- A method that was stored in a variable is called through it. -/
theorem properties_dispatch_stored : ∃ units s' k o c id f home k' b,
    (start false ⟨0⟩ .unlimited .unlimited).Runs units s' ∧ Passed units k ∧ k.Obtains o c initializerName id ∧
      k.after.store.Nearest (Passed units) initializerName c f home ∧ Passed units k' ∧ k'.Calls b ∧ Before units k b ∧
        b.code = .body f.body ∧ b.RunsFor o := by
  obtain ⟨units, s', made, k, k', _, o, id, h, hrecalls⟩ := exists_recalls
  obtain ⟨c, hobtains⟩ := hrecalls.obtains
  obtain ⟨paren, values, m, hprepared⟩ := hrecalls.recalls
  obtain ⟨v, u, hcompletes⟩ := hrecalls.completes
  obtain ⟨κ, -, hcalls⟩ := ((completes_iff hprepared).mp hcompletes).1.function
  obtain ⟨f, home, hnearest, hruns⟩ := (properties_dispatch h).2.2 k o c _ id hrecalls.passed.2.1 hobtains
  have hbefore := hrecalls.order _ hcalls
  obtain ⟨hcode, hrunsFor⟩ := hruns k' _ paren values m hrecalls.passed.2.2 hprepared hcalls hbefore
  exact ⟨units, s', k, o, c, id, f, home, k', _, h, hrecalls.passed.2.1, hobtains, hnearest, hrecalls.passed.2.2, hcalls,
    hbefore, hcode, hrunsFor⟩

end LoxLang
