import LoxLang.Proofs.History.Order
import LoxLang.Proofs.Returns.Calls

/-! The activation of a function. A call runs the body of one function in a new frame inside the frame that the function
keeps; and as long as the activation lasts, whatever blocks are entered in it, `this` is what the frame of the receiver
says. -/

namespace LoxLang

open Frames Run

theorem Store.Lasts.ancestor {s t : Store} (h : s.Lasts t) {f g : FrameId} {d : Nat} (hd : s.frames.ancestor? f d = some g) :
    t.frames.ancestor? f d = some g := by
  induction d generalizing f with
  | zero => exact hd
  | succ d ih =>
    obtain ⟨f', hf', hd⟩ := Option.bind_eq_some_iff.mp hd
    rw [ancestor?, h.outer _ _ hf']
    exact ih hd

namespace Moment

variable {past : Moment → Prop} {c : Chart} {l : Layout} {around : Option Enclosure} {k k' b r : Moment} {m m' m₁ : Machine}
  {f : Value} {values : List Value} {κ : Closure FrameId} {t : FrameId} {o : ObjectId}

/-- What a call expression begins to run is the body of the function that the call runs. -/
theorem calls_iff : k.Calls b ↔
    ∃ f values m κ m₁, k.Enters f values m ∧ m.Invokes f κ m₁ ∧ b = bodyOf (k.bound - 1) κ values m₁ := by
  constructor
  · rintro ⟨f, values, m, body, m', henters, hcalled, rfl⟩
    obtain ⟨κ, m₁, hinvokes, rfl, rfl⟩ := Machine.called?_eq_some.mp hcalled
    exact ⟨f, values, m, κ, m₁, henters, hinvokes, rfl⟩
  · rintro ⟨f, values, m, κ, m₁, henters, hinvokes, rfl⟩
    exact ⟨f, values, m, _, _, henters, Machine.called?_eq_some.mpr ⟨κ, m₁, hinvokes, rfl, rfl⟩, rfl⟩

/-- What is called begins behind the callee. -/
theorem Calls.behind_callee {n : Nat} {d : Option Token} {callee : Expr} {paren : Token} {es : List Expr}
    (h : Calls ⟨n + 1, .expr d (.call callee paren es), m⟩ b) :
    Before (parts ⟨n + 1, .expr d (.call callee paren es), m⟩) ⟨n, .expr d callee, m⟩ b := by
  have hparts : parts ⟨n + 1, .expr d (.call callee paren es), m⟩ = [⟨n, .expr d callee, m⟩] ++
      (eval n callee).upon m fun f m' => partsBehind n d f m' (.call callee paren es) := by
    change operands n d m (.call callee paren es) = _
    rw [operands_of_first rfl]
    rfl
  have hb := mem_parts_iff.mpr h.starts
  rw [hparts] at hb ⊢
  rcases List.mem_cons.mp hb with rfl | hb
  · obtain ⟨f, values, m, body, m', -, -, hb⟩ := h
    cases hb
  · exact .apart (List.mem_singleton_self _) .refl hb .refl

/-- The expression has the value, on the machine that it leaves. -/
def Completes (k : Moment) (v : Value) (u : Machine) : Prop :=
  ∃ d e, k.code = .expr d e ∧ eval k.bound e k.machine = .ok v u

section Completing

variable {n : Nat} {d : Option Token} {callee : Expr} {paren : Token} {es : List Expr} {v : Value} {u : Machine}

theorem exists_prepares (hcallee : eval n callee m = .ok f m₁) (h : eval (n + 1) (.call callee paren es) m = .ok v u) :
    ∃ values m₂, Prepares ⟨n + 1, .expr d (.call callee paren es), m⟩ paren f values m₂ := by
  rw [eval, Halting.bind_of_ok hcallee] at h
  obtain ⟨values, m₂, harguments, -⟩ := Halting.bind_eq_ok.mp h
  exact ⟨values, m₂, hcallee, harguments⟩

/-- Behind its arguments a call expression completes just if the call is admitted and completes. -/
theorem completes_iff (h : k.Prepares paren f values m) : k.Completes v u ↔
    k.Enters f values { m with depth := m.depth + 1 } ∧
      ∃ t, call (exec (k.bound - 1)) f values { m with depth := m.depth + 1 } = .ok v t ∧ u = { t with depth := m.depth } := by
  obtain @⟨n, d, callee, paren, es, f, values, m₀, m₁, m, e₁, e₂⟩ := h
  have hprepared : Prepares ⟨n + 1, .expr d (.call callee paren es), m₀⟩ paren f values m := ⟨e₁, e₂⟩
  have heval : eval (n + 1) (.call callee paren es) m₀ =
      (admitCall paren f values.length >>= fun _ => asCall (call (exec n) f values)) m := by
    rw [eval, Halting.bind_of_ok e₁, Halting.bind_of_ok e₂]
  have hcompletes : Completes ⟨n + 1, .expr d (.call callee paren es), m₀⟩ v u ↔
      eval (n + 1) (.call callee paren es) m₀ = .ok v u := by
    constructor
    · rintro ⟨_, _, ⟨⟩, h⟩
      exact h
    · exact fun h => ⟨d, _, rfl, h⟩
  rw [hcompletes, heval, Halting.bind_eq_ok]
  constructor
  · rintro ⟨⟨⟩, m', hadmitted, h⟩
    obtain ⟨rfl, -⟩ := arity_of_admitCall hadmitted
    refine ⟨⟨paren, m', hprepared, hadmitted, rfl⟩, ?_⟩
    unfold asCall at h
    cases e : call (exec n) f values { m' with depth := m'.depth + 1 } with
    | error halt t => simp [e] at h
    | ok v' t =>
      simp only [e] at h
      cases h
      exact ⟨t, e, rfl⟩
  · rintro ⟨⟨paren', m', hprepared', hadmitted, -⟩, t, hcall, rfl⟩
    obtain ⟨rfl, -, -, rfl⟩ := hprepared.unique hprepared'
    refine ⟨(), m', hadmitted, ?_⟩
    have hcall : call (exec n) f values { m' with depth := m'.depth + 1 } = .ok v t := hcall
    unfold asCall
    simp only [hcall]

/-- A function that is called is there, and its body is run. -/
theorem Enters.function {id : ClosureId} (h : k.Enters (.function id) values m) :
    ∃ κ, m.store.closures[id]? = some κ ∧ k.Calls (bodyOf (k.bound - 1) κ values m) := by
  obtain ⟨paren, m', hprepared, hadmitted, rfl⟩ := h
  obtain ⟨κ, hκ, -⟩ := Option.map_eq_some_iff.mp (arity_of_admitCall hadmitted).2
  exact ⟨κ, hκ, calls_iff.mpr ⟨_, _, _, κ, _, ⟨paren, m', hprepared, hadmitted, rfl⟩, .function hκ, rfl⟩⟩

end Completing

section Runs

variable {paren : Token} (hpast : Timeline past)

include hpast

theorem Lawful.prepares (hk : k.Lawful past c l around) (h : k.Prepares paren f values m) : k.machine.Leads past c m := by
  obtain @⟨n, d, callee, paren, es, f, values, m, m₁, m₂, e₁, e₂⟩ := h
  have h₁ := ((leading hpast n).eval (hk.first hpast rfl)).of_ok e₁
  exact h₁.trans ((guards_each (leading hpast n) hpast es (hk.arguments hpast e₁ h₁)).of_ok e₂)

theorem Legal.prepares (hk : k.Legal past) (h : k.Prepares paren f values m) : k.machine.store.Reaches m.store := by
  obtain @⟨n, d, callee, paren, es, f, values, m₀, m₁, m₂, e₁, e₂⟩ := h
  have hcallee := (hk.starts hpast (.first rfl)).reaches hpast
  have harguments := (hk.starts hpast (.arguments e₁)).reaches hpast
  have hm₁ : after ⟨n, .expr d callee, m₀⟩ = m₁ := Halting.after_of_ok e₁
  have hm₂ : after ⟨n, .arguments d es, m₁⟩ = m := Halting.after_of_ok e₂
  rw [hm₁] at hcallee
  rw [hm₂] at harguments
  exact hcallee.trans harguments

end Runs

/-- The frame is the nearest one outward that has the scope of an instance. -/
def Serves (past : Moment → Prop) (t : FrameId) (k : Moment) : Prop :=
  ∃ c l around n, k.Lawful past c l around ∧ l.hops? "this" = some n ∧
    k.machine.store.frames.ancestor? k.machine.current n = some t

/-- It is the same frame for all code of an activation. -/
theorem Serves.active (h : b.Serves past t) (hpast : Timeline past) (hr : b.Active [] r) : r.Serves past t := by
  generalize hcalls : ([] : List Moment) = calls at hr
  induction hr with
  | start => exact h
  | @part calls k k' _ hstep hcall ih =>
    obtain ⟨c, l, around, n, hk, hops, ht⟩ := ih hcalls
    have hlasts := (Legal.reaches_of_starts hpast ⟨c, l, around, hk⟩ hstep).1.endures.toLasts
    rcases hk.starts_cases hpast hstep with ⟨names, hnames, hk', hcurrent⟩ | ⟨hk', hmachine⟩ | ⟨hcalls, -⟩
    · have hthis : "this" ∉ names := fun hm => hnames _ hm (by simp [reserved])
      exact ⟨c, _, around, n, hk', (Layout.hops?_declare_of_not_mem hthis l).trans hops, hcurrent ▸ hlasts.ancestor ht⟩
    · refine ⟨c, _, around, n + 1, hk', ?_, ?_⟩
      · rw [Layout.hops?_cons_of_not_mem List.not_mem_nil, hops]
        rfl
      · have houter : k'.machine.store.frames.outer? k'.machine.current = some k.machine.current := by
          rw [hmachine]
          exact (outer?_add ..).trans (if_pos rfl)
        rw [ancestor?, houter]
        exact hlasts.ancestor ht
    · exact absurd hcalls hcall
  | call => cases hcalls

/-- There `this` is the instance that the frame names. -/
theorem Serves.self_eq (h : k.Serves past t) (ho : k.machine.store.frames.here? t "this" = some (.object o))
    {d : Option Token} {id : NodeId} {keyword : Token} (hcode : k.code = .expr d (.self id keyword)) :
    read id keyword k.machine = .ok (.object o) k.machine := by
  obtain ⟨c, l, around, n, hk, hops, ht⟩ := h
  have hname : keyword.lexeme = "this" := hk.code.proper ⟨.self, id, keyword⟩ (hcode ▸ List.mem_singleton_self _)
  have hfits := hk.code.fits
  rw [hcode] at hfits
  obtain ⟨-, hentry⟩ := hfits.2 ⟨.self, id, keyword⟩ (List.mem_singleton_self _)
  dsimp only at hentry
  rw [hname, hops, hk.machine.bindings] at hentry
  refine read_of_found ?_
  rw [Machine.found?_of_distance hentry, hname, getAt?, ht]
  exact ho

/-- Code runs for an instance: just outside its frame is one that names the instance, and in its whole activation `this`
is the instance. -/
structure RunsFor (b : Moment) (o : ObjectId) : Prop where
  frame : ∃ t, b.machine.store.frames.outer? b.machine.current = some t ∧
    b.machine.store.frames.here? t "this" = some (.object o)
  self : ∀ r d id keyword, b.Active [] r → r.code = .expr d (.self id keyword) →
    ∀ n, eval (n + 1) (.self id keyword) r.machine = .ok (.object o) r.machine

/-- The body of a function that is bound to an instance runs for the instance. -/
theorem runsFor_bodyOf (hpast : Timeline past) {n : Nat} (hm : m.Lawful past c) {x : String}
    (hκ : (bodyOf n κ values m).machine.store.BoundTo κ x o) (hb : past (bodyOf n κ values m)) :
    (bodyOf n κ values m).RunsFor o := by
  obtain ⟨e, l, hl, hsits⟩ := (hm.enter κ.home (parameterNames κ.declared.parameters values)).store.sits_of_boundTo hκ
  have hlawful := Lawful.inside hm hl hsits hb
  have houter : (bodyOf n κ values m).machine.store.frames.outer? (bodyOf n κ values m).machine.current = some κ.home :=
    (outer?_add ..).trans (if_pos rfl)
  have hserves : (bodyOf n κ values m).Serves past κ.home := by
    refine ⟨c, _, _, 1, hlawful, ?_, ?_⟩
    · have hparameters : "this" ∉ κ.declared.parameters.map Token.lexeme := fun hmem =>
        hlawful.plain _ rfl _ hmem (by simp [reserved])
      rw [Layout.hops?_cons_of_not_mem hparameters, Layout.hops?_cons_of_mem (by simp)]
      rfl
    · rw [ancestor?, houter]
      rfl
  refine ⟨⟨κ.home, houter, hκ.this⟩, fun r d id keyword hr hcode n => ?_⟩
  have hreaches := (Legal.reaches_of_visits hpast ⟨c, _, _, hlawful⟩ hr.visits).1
  rw [eval]
  exact (hserves.active hpast hr).self_eq (hreaches.endures.this hκ.this) hcode

end Moment

end LoxLang
