import LoxLang.Proofs.Methods.Initializers

/-! The arguments of a call. A body is entered with one value for each parameter, the values of the arguments from left to
right, in a new frame in which the parameters have them and nothing else has a value. -/

namespace LoxLang

open Frames Run

/-- Expressions have values one after the other, each from the machine that the one before it leaves. -/
inductive InTurn (n : Nat) : List Expr → Machine → List Value → Machine → Prop
  | nil (m : Machine) : InTurn n [] m [] m
  | cons {e : Expr} {es : List Expr} {v : Value} {values : List Value} {m m' m'' : Machine} :
    eval n e m = .ok v m' → InTurn n es m' values m'' → InTurn n (e :: es) m (v :: values) m''

section Arguments

variable {n : Nat} {e : Expr} {es : List Expr} {values : List Value} {m u : Machine}

theorem each_eq_ok : each (eval n) es m = .ok values u ↔ InTurn n es m values u := by
  constructor
  · intro h
    induction es generalizing m values with
    | nil =>
      cases h
      exact .nil _
    | cons e es ih =>
      obtain ⟨v, m', he, h⟩ := Halting.bind_eq_ok.mp h
      obtain ⟨rest, m'', hes, ⟨⟩⟩ := Halting.bind_eq_ok.mp h
      exact .cons he (ih hes)
  · intro h
    induction h with
    | nil => rfl
    | cons he _ ih =>
      rw [each, Halting.bind_of_ok he, Halting.bind_of_ok ih]
      rfl

theorem InTurn.length (h : InTurn n es m values u) : es.length = values.length := by
  induction h with
  | nil => rfl
  | cons _ _ ih => rw [List.length_cons, List.length_cons, ih]

end Arguments

section Entering

variable {past : Moment → Prop} {chart : Chart} {m m₁ : Machine} {f : Value} {κ : Closure FrameId}

theorem Function.Fits.nodup {l : Layout} {f : Function} (h : f.Fits chart l) : (f.parameters.map Token.lexeme).Nodup := by
  cases f
  exact h.1

theorem Machine.Invokes.frames (h : m.Invokes f κ m₁) : m.store.frames.size ≤ m₁.store.frames.size := by
  cases h with
  | function => exact le_rfl
  | cls => exact (size_add ..).ge.trans' (Nat.le_succ _)

/-- In the frame only `this` has a value, an instance; around it is the frame of a method. -/
structure Frames.Receiver (fs : Frames) (t home : FrameId) (o : ObjectId) : Prop where
  outer : fs.outer? t = some home
  names : ∀ x, fs.here? t x = if x = "this" then some (.object o) else none

/-- What runs for a class is found as its initializer, and keeps a frame for the instance that is made. -/
theorem Machine.Invokes.receiver {c : ClassId} (h : m.Invokes (.cls c) κ m₁) :
    ∃ method, m.store.initializer? c = some method ∧ κ.declared = method.declared ∧ m.store.frames.size ≤ κ.home ∧
      ∀ names, (m₁.enter κ.home names).store.frames.Receiver κ.home method.home m.store.objects.size := by
  cases h with
  | @cls c method hmethod =>
    refine ⟨method, hmethod, rfl, le_rfl, fun names => ⟨?_, fun x => ?_⟩⟩
    · exact (Store.lasts_addFrame ..).outer _ _ ((outer?_add ..).trans (if_pos rfl))
    · have hthis := (Store.here?_bind (m.store.inHeap fun h => h.addObject c).2 method m.store.objects.size "this").trans
        (if_pos rfl)
      have hne := (lt_of_has (Option.isSome_of_eq_some hthis)).ne
      exact (here?_add ..).trans ((if_neg hne).trans (Store.here?_bind ..))

/-- Where a call begins does not depend on the frame of the caller. -/
theorem Machine.called?_current (m : Machine) (g : FrameId) (values : List Value) (f : Value) :
    ({ m with current := g } : Machine).called? values f = m.called? values f := by
  cases f <;> rfl

end Entering

namespace Moment

variable {past : Moment → Prop} {k b : Moment} {paren : Token} {f : Value} {values : List Value} {m m₁ : Machine}
  {κ : Closure FrameId} {chart : Chart}

theorem enters_iff (h : k.Prepares paren f values m) : k.Enters f values { m with depth := m.depth + 1 } ↔
    m.store.arity? f = some values.length ∧ m.depth < maxDepth := by
  constructor
  · rintro ⟨paren', m', hprepared', hadmitted, -⟩
    obtain ⟨rfl, -, -, rfl⟩ := h.unique hprepared'
    exact ⟨(arity_of_admitCall hadmitted).2, below_of_admitCall hadmitted⟩
  · rintro ⟨harity, hdepth⟩
    exact ⟨paren, m, h, admitCall_of_below harity hdepth, rfl⟩

/-- With a wrong number of arguments a call expression halts behind them. -/
theorem Prepares.refused (h : k.Prepares paren f values m) {expected : Nat} (harity : m.store.arity? f = some expected)
    (hne : values.length ≠ expected) : ∃ d e, k.code = .expr d e ∧
      eval k.bound e k.machine = .error (.error ⟨.wrongArity expected values.length, paren.line⟩) m := by
  obtain @⟨n, d, callee, paren, es, f, values, m₀, m₁, m, e₁, e₂⟩ := h
  refine ⟨d, _, rfl, ?_⟩
  rw [eval, Halting.bind_of_ok e₁, Halting.bind_of_ok e₂]
  refine Halting.bind_of_error ?_
  rw [admitCall_apply, harity]
  dsimp only
  rw [if_pos hne]
  rfl

/-- A body as a call enters it: with a value for each parameter, in a frame that is new in the store, inside the frame that
the function keeps. There the names are the parameters, and they have the values at their places. -/
structure Entered (b : Moment) (κ : Closure FrameId) (values : List Value) (s : Store) : Prop where
  code : b.code = .body κ.declared.body
  count : values.length = κ.declared.parameters.length
  distinct : (κ.declared.parameters.map Token.lexeme).Nodup
  fresh : s.frames.size ≤ b.machine.current
  outer : b.machine.store.frames.outer? b.machine.current = some κ.home
  names : ∀ x v, b.machine.store.frames.here? b.machine.current x = some v ↔
    ∃ i : Nat, κ.declared.parameters[i]?.map Token.lexeme = some x ∧ values[i]? = some v

theorem entered_bodyOf {n : Nat} (hinvokes : m.Invokes f κ m₁) (hm : m.Lawful past chart)
    (harity : m.store.arity? f = some values.length) : (bodyOf n κ values m₁).Entered κ values m.store := by
  obtain ⟨-, l, around, -, hsits⟩ := hm.invokes hinvokes
  have hcount : values.length = κ.declared.parameters.length :=
    Option.some.inj (harity.symm.trans hinvokes.arity)
  exact {
    code := rfl
    count := hcount
    distinct := hsits.fits.nodup
    fresh := hinvokes.frames
    outer := (outer?_add ..).trans (if_pos rfl)
    names := fun x v => by
      rw [← getElem?_parameterNames_iff hsits.fits.nodup hcount]
      exact Eq.congr_left ((here?_add ..).trans (if_pos rfl)) }

theorem Calls.entered (hpast : Timeline past) (hk : k.Legal past) (hprepared : k.Prepares paren f values m)
    (h : k.Calls b) : ∃ κ m₁, ({ m with depth := m.depth + 1 } : Machine).Invokes f κ m₁ ∧
      b = bodyOf (k.bound - 1) κ values m₁ ∧ b.Entered κ values m.store := by
  obtain ⟨chart, l, around, hlawful⟩ := hk
  obtain ⟨f', values', _, κ, m₁, ⟨paren', m', hprepared', hadmitted, rfl⟩, hinvokes, rfl⟩ := calls_iff.mp h
  obtain ⟨rfl, rfl, rfl, rfl⟩ := hprepared.unique hprepared'
  have hm := (hlawful.prepares hpast hprepared).lawful.deeper (m'.depth + 1)
  exact ⟨κ, m₁, hinvokes, rfl, entered_bodyOf (m := { m' with depth := m'.depth + 1 }) hinvokes hm (arity_of_admitCall hadmitted).2⟩

end Moment

open Moment Session

/-- When the arguments of a call have their values, the initializer of a class is the one of the nearest class that declares
one. -/
theorem Session.Runs.initializer?_iff {prompt : Bool} {now : Number} {output diagnostics : Sink} {units : List Moment}
    {s' : Session} (h : (start prompt now output diagnostics).Runs units s') {k : Moment} {paren : Token} {f : Value}
    {values : List Value} {m : Machine} (hk : Passed units k) (hprepared : k.Prepares paren f values m) {c : ClassId}
    {κ : Closure FrameId} : m.store.initializer? c = some κ ↔
      ∃ f home, m.store.Nearest (Passed units) initializerName c f home ∧ κ = ⟨f, home, true⟩ := by
  obtain ⟨⟨chart, l, around, hlawful⟩, -⟩ := h.legal hk
  have hm := (hlawful.prepares (timeline_passed units) hprepared).lawful
  have hwhole : m.store.Whole := by
    obtain @⟨n, d, callee, paren, es, f, values, m₀, m₁, m, e₁, e₂⟩ := hprepared
    have hafter : after ⟨n, .arguments d es, m₁⟩ = m := Halting.after_of_ok e₂
    exact hafter ▸ (h.legal (timeline_passed units _ _ hk (.arguments e₁))).2.2
  exact hm.store.method?_iff hwhole

/-- In every session, what a call begins to run is entered behind the callee and then the arguments, from left to right,
with exactly as many of them as the function has parameters. It runs in a new frame, whose names are exactly the parameters
with the arguments at their places, inside the frame that the function keeps; the frame of the caller has no part in it.
A class takes as many arguments as the nearest initializer has parameters, and that is what runs then, in a frame
inside a new one that binds `this`; every other number is refused. A class with no initializer takes none. -/
theorem arguments_fill_parameters {prompt : Bool} {now : Number} {output diagnostics : Sink} {units : List Moment}
    {s' : Session} (h : (start prompt now output diagnostics).Runs units s') :
    (∀ k b, Passed units k → k.Calls b → ∃ n d callee paren es f values m m₁ m₂ κ m₃,
      k = ⟨n + 1, .expr d (.call callee paren es), m⟩ ∧ eval n callee m = .ok f m₁ ∧ InTurn n es m₁ values m₂ ∧
        ({ m₂ with depth := m₂.depth + 1 } : Machine).Invokes f κ m₃ ∧ es.length = κ.declared.parameters.length ∧
          b.Entered κ values m₂.store ∧ ∀ g, ({ m₂ with current := g, depth := m₂.depth + 1 } : Machine).called? values f =
            some (κ.declared.body, b.machine)) ∧
    ∀ k paren c values m, Passed units k → k.Prepares paren (.cls c) values m →
      (∀ f home, m.store.Nearest (Passed units) initializerName c f home →
        (k.Enters (.cls c) values { m with depth := m.depth + 1 } ↔
          values.length = f.parameters.length ∧ m.depth < maxDepth) ∧
        (values.length ≠ f.parameters.length → ∃ d e, k.code = .expr d e ∧ eval k.bound e k.machine =
          .error (.error ⟨.wrongArity f.parameters.length values.length, paren.line⟩) m) ∧
        ∀ b, k.Calls b → ∃ κ, κ.declared = f ∧ b.Entered κ values m.store ∧ m.store.frames.size ≤ κ.home ∧
          b.machine.store.frames.Receiver κ.home home m.store.objects.size) ∧
      ((∀ f home, ¬m.store.Nearest (Passed units) initializerName c f home) →
        (k.Enters (.cls c) values { m with depth := m.depth + 1 } ↔ values = [] ∧ m.depth < maxDepth) ∧
        (values ≠ [] → ∃ d e, k.code = .expr d e ∧ eval k.bound e k.machine =
          .error (.error ⟨.wrongArity 0 values.length, paren.line⟩) m) ∧
        ∀ b, ¬k.Calls b) := by
  have hpast := timeline_passed units
  refine ⟨fun k b hk hcalls => ?_, fun k paren c values m hk hprepared => ⟨fun f home hnearest => ?_, fun hnone => ?_⟩⟩
  · obtain ⟨f, values, _, -, -, ⟨paren, m₂, hprepared, -, -⟩, -⟩ := calls_iff.mp hcalls
    obtain ⟨κ, m₃, hinvokes, hb, hentered⟩ := hcalls.entered hpast (h.legal hk).1 hprepared
    obtain @⟨n, d, callee, paren, es, f, values, m, m₁, m₂, e₁, e₂⟩ := hprepared
    have harguments := each_eq_ok.mp e₂
    refine ⟨n, d, callee, paren, es, f, values, m, m₁, m₂, κ, m₃, rfl, e₁, harguments, hinvokes,
      harguments.length.trans hentered.count, hentered, fun g => ?_⟩
    exact (Machine.called?_current { m₂ with depth := m₂.depth + 1 } g values f).trans
      (Machine.called?_eq_some.mpr ⟨κ, m₃, hinvokes, rfl, congrArg Moment.machine hb⟩)
  · have hmethod := (h.initializer?_iff hk hprepared).mpr ⟨f, home, hnearest, rfl⟩
    have harity : m.store.arity? (.cls c) = some f.parameters.length := by
      rw [Heap.arity?, hmethod]
      rfl
    refine ⟨?_, hprepared.refused harity, fun b hcalls => ?_⟩
    · rw [enters_iff hprepared, harity, Option.some.injEq, eq_comm]
    · obtain ⟨κ, m₁, hinvokes, rfl, hentered⟩ := hcalls.entered hpast (h.legal hk).1 hprepared
      obtain ⟨method, hmethod', hdeclared, hfresh, hreceiver⟩ := hinvokes.receiver
      cases hmethod.symm.trans hmethod'
      exact ⟨κ, hdeclared, hentered, hfresh, hreceiver _⟩
  · have hmethod : m.store.initializer? c = none := by
      refine Option.eq_none_iff_forall_not_mem.mpr fun κ hκ => ?_
      obtain ⟨f, home, hnearest, -⟩ := (h.initializer?_iff hk hprepared).mp hκ
      exact hnone f home hnearest
    have harity : m.store.arity? (.cls c) = some 0 := by
      rw [Heap.arity?, hmethod]
      rfl
    refine ⟨?_, fun hne => ?_, fun b hcalls => ?_⟩
    · rw [enters_iff hprepared, harity, Option.some.injEq, eq_comm, List.length_eq_zero_iff]
    · exact hprepared.refused harity (List.length_eq_zero_iff.not.mpr hne)
    · obtain ⟨κ, m₁, hinvokes, -⟩ := hcalls.entered hpast (h.legal hk).1 hprepared
      obtain ⟨method, hmethod', -⟩ := hinvokes.receiver
      cases hmethod.symm.trans hmethod'

/-- An initializer of one parameter runs when its instance is made, and later through a variable. -/
theorem arguments_fill_parameters_again : ∃ units s' made k b κ values s c f home,
    (start false ⟨0⟩ .unlimited .unlimited).Runs units s' ∧ Passed units k ∧ k.Calls b ∧ b.Entered κ values s ∧
      Passed units made ∧ ∃ paren values m, made.Prepares paren (.cls c) values m ∧
        m.store.Nearest (Passed units) initializerName c f home ∧ values.length = f.parameters.length := by
  obtain ⟨units, s', made, obtained, k, c, o, id, h, hrecalls⟩ := exists_recalls
  obtain ⟨hmade, -, hk⟩ := hrecalls.passed
  obtain ⟨hentered, hconstructor⟩ := arguments_fill_parameters h
  obtain ⟨paren, values, m, hprepared⟩ := hrecalls.recalls
  obtain ⟨v, u, hcompletes⟩ := hrecalls.completes
  obtain ⟨κ', -, hcalls⟩ := ((completes_iff hprepared).mp hcompletes).1.function
  obtain ⟨_, _, _, _, _, _, values₂, _, _, m₂, κ, _, -, -, -, -, -, hb, -⟩ := hentered k _ hk hcalls
  obtain ⟨paren₁, values₁, m₁, hprepared₁, hsome⟩ := hrecalls.prepares
  obtain ⟨u₁, hmakes⟩ := hrecalls.makes
  obtain ⟨method, hmethod⟩ := Option.isSome_iff_exists.mp hsome
  obtain ⟨f, home, hnearest, -⟩ := (h.initializer?_iff hmade hprepared₁).mp hmethod
  obtain ⟨hiff, -⟩ := (hconstructor made paren₁ c values₁ m₁ hmade hprepared₁).1 f home hnearest
  have hlength := (hiff.mp ((completes_iff hprepared₁).mp hmakes).1).1
  exact ⟨units, s', made, k, _, κ, values₂, m₂.store, c, f, home, h, hk, hcalls, hb, hmade, paren₁, values₁, m₁, hprepared₁,
    hnearest, hlength⟩

end LoxLang
