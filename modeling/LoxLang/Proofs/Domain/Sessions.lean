import LoxLang.Proofs.Nodes.History
import LoxLang.Proofs.Origins.Moments

/-! The evaluator has an answer for all that it meets in a session: the trees are as the grammar makes them, and so is the
code of every function, however long ago it was declared. -/

namespace LoxLang

open Run

def Code.InDomain : Code → Prop
  | expr _ e => e.InDomain
  | arguments _ es => Expr.InDomainEach es
  | stmt s => s.InDomain
  | body statements | unit statements => Stmt.InDomainEach statements

/-- Every fault but that of an operator that is not known. -/
def RuntimeFault.Answered (cause : RuntimeFault) : Prop := ∀ x, cause ≠ .unknownOperator x

section Parts

variable {d : Option Token} {e e' : Expr} {s s' : Stmt}

theorem Expr.inDomain_first (h : e.InDomain) (hfirst : e.first? = some e') : e'.InDomain := by
  cases e <;> simp only [Expr.first?, Option.some.injEq, reduceCtorEq] at hfirst <;> subst hfirst
  case grouping => exact h
  case unary | assign | get => exact h.2
  case binary | logical | set => exact h.2.1
  case call => exact h.2.2.1

theorem Expr.inDomain_second {a : Value} (h : e.InDomain) (hsecond : e.second? a = some e') : e'.InDomain := by
  unfold Expr.second? at hsecond
  split at hsecond
  · cases hsecond
    exact h.2.2
  · split at hsecond <;> cases hsecond
    exact h.2.2
  · split at hsecond <;> cases hsecond
    exact h.2.2
  · cases hsecond

theorem Stmt.inDomain_value (h : s.InDomain) (hvalue : s.value? = some (d, e)) : e.InDomain := by
  unfold Stmt.value? at hvalue
  split at hvalue
  iterate 2
    · cases hvalue
      exact h
  iterate 2
    · cases hvalue
      exact h.1
  iterate 2
    · obtain ⟨e', rfl, hvalue⟩ := Option.map_eq_some_iff.mp hvalue
      cases hvalue
      exact h.2
  · obtain ⟨u, rfl, hvalue⟩ := Option.map_eq_some_iff.mp hvalue
    cases hvalue
    exact h.2.1 u rfl
  · cases hvalue
  · cases hvalue

theorem Stmt.inDomain_chosen {v : Value} (h : s.InDomain) (hchosen : s.chosen? v = some s') : s'.InDomain := by
  unfold Stmt.chosen? at hchosen
  split at hchosen
  · split at hchosen
    · cases hchosen
      exact h.2.1
    · subst hchosen
      exact h.2.2
  · split at hchosen <;> cases hchosen
    exact h.2
  · cases hchosen

end Parts

/-- What the evaluator knows passes from code to the code in it and to the functions that it declares. -/
theorem hereditary_inDomain : Hereditary (fun _ => Code.InDomain) Function.InDomain RuntimeFault.Answered where
  first h hfirst := Expr.inDomain_first h hfirst
  second h hsecond := Expr.inDomain_second h hsecond
  arguments h := h.2.2.2
  argument h := h.1
  others h := h.2
  value h hvalue := Stmt.inDomain_value h hvalue
  chosen h hchosen := Stmt.inDomain_chosen h hchosen
  block h := h
  statement h := h.1
  rest h := h.2
  function h := h
  methods h := Function.inDomainEach_iff.mp h.2.2
  body {f} h := by
    cases f with
    | mk name parameters body => exact h.2.2.2
  fault h := h
  operator h hunknown := absurd h.1 hunknown

namespace Parsed

variable {source : String} {nextId : NodeId}

theorem inDomain_ofSource_program {lenient : Bool} {statements : List Stmt}
    (h : (ofSource (Parsed.program lenient) source nextId).result = .ok statements) : Stmt.InDomainEach statements :=
  inDomain_of_program ((ofSource_eq (Parsed.program lenient) source nextId).2 statements h)

theorem inDomain_ofSource_expression {e : Expr}
    (h : (ofSource Parsed.expression source nextId).result = .ok e) : e.InDomain :=
  inDomain_of_expression ((ofSource_eq Parsed.expression source nextId).2 e h)

end Parsed

namespace Session

variable {s s' : Session} {source : String} {statements : List Stmt} {known : Bindings} {e : Expr} {n : Nat} {k : Moment}

theorem inDomain_of_accepted (ha : s.accepted? source = some (statements, known)) : Stmt.InDomainEach statements :=
  Parsed.inDomain_ofSource_program (read_of_accepted ha).1

/-- What a unit does with the functions, and how it can fail. -/
theorem obeys_accepted (ha : s.accepted? source = some (statements, known)) (n : Nat) :
    Obeys Function.InDomain RuntimeFault.Answered (interpret n statements) :=
  obeys_interpret hereditary_inDomain n (b := false) (Stmt.inDomainEach_iff.mp (inDomain_of_accepted ha))

theorem obeys_value (h : (Parsed.ofSource Parsed.expression source s.nextId).result = .ok e) (n : Nat) :
    Obeys Function.InDomain RuntimeFault.Answered (eval n e) :=
  obeys_eval hereditary_inDomain n (b := false) (d := none) (Parsed.inDomain_ofSource_expression h)

/-- All functions that units and lone expressions leave behind. -/
theorem Reads.inDomain {trees : List Tree} (h : s.Reads trees s') (hs : s.machine.store.Only Function.InDomain) :
    s'.machine.store.Only Function.InDomain := by
  induction h with
  | refl => exact hs
  | @run trees s' n source _ ih =>
    cases ha : s'.accepted? source with
    | none =>
      obtain ⟨sink, hrun⟩ := run_of_refused ha n
      rw [hrun]
      exact ih
    | some unit =>
      rw [(run_conclude ha n).2]
      exact (obeys_accepted ha n).after (m := s'.ready unit.2) ih
  | @value trees s' n source _ ih =>
    cases hr : (Parsed.ofSource Parsed.expression source s'.nextId).result with
    | error faults =>
      simp only [Session.value, hr]
      exact ih
    | ok e =>
      have hafter := (obeys_value hr n).after ih
      unfold Halting.after at hafter
      simp only [Session.value, hr]
      cases he : eval n e s'.machine <;> simpa only [he] using hafter
  | takeWritten _ ih => exact ih

variable (hs : s.machine.store.Only Function.InDomain)

include hs

theorem inDomain_of_visits (hk : s.Visits n source k) : k.code.InDomain := by
  obtain ⟨⟨statements, known⟩, ha, hvisits⟩ := hk
  have hdomain := inDomain_of_accepted ha
  obtain ⟨front, back, t, rfl, hfront, rfl | ⟨first, rest, rfl, hinside⟩⟩ := Moment.exists_front hvisits
  all_goals rw [Stmt.inDomainEach_iff, List.forall_mem_append] at hdomain
  · exact Stmt.inDomainEach_iff.mpr hdomain.2
  · have ht := (obeys_interpret hereditary_inDomain n (b := false) hdomain.1).after (m := s.ready known) hs
    rw [Halting.after_of_ok hfront] at ht
    have hstmt : Moment.Inherits (fun _ => Code.InDomain) Function.InDomain ⟨n, .stmt first, t⟩ :=
      ⟨⟨true, hdomain.2 first List.mem_cons_self, fun _ => rfl⟩, ht⟩
    obtain ⟨⟨_, hcode, -⟩, -⟩ := (Moment.inherits_of_performs hereditary_inDomain hstmt hinside).1
    exact hcode

theorem inDomain_of_value (h : (Parsed.ofSource Parsed.expression source s.nextId).result = .ok e)
    (hk : Moment.Visits ⟨n, .expr none e, s.machine⟩ k) : k.code.InDomain := by
  have hexpr : Moment.Inherits (fun _ => Code.InDomain) Function.InDomain ⟨n, .expr none e, s.machine⟩ :=
    ⟨⟨true, Parsed.inDomain_ofSource_expression h, fun _ => rfl⟩, hs⟩
  obtain ⟨⟨_, hcode, -⟩, -⟩ := (Moment.inherits_of_visits hereditary_inDomain hexpr nofun hk).1
  exact hcode

theorem halt?_answered {fault : RuntimeError} (h : s.halt? n source = some (.error fault)) : fault.cause.Answered := by
  obtain ⟨⟨statements, known⟩, ha, hhalt⟩ := Option.bind_eq_some_iff.mp h
  have hrun := obeys_accepted ha n (s.ready known) hs
  unfold Halting.halt? at hhalt
  cases e : interpret n statements (s.ready known) with
  | ok => simp [e] at hhalt
  | error halt m =>
    simp only [e, Option.some.injEq] at hhalt hrun
    exact hrun.2 fault hhalt

theorem value_answered {fault : RuntimeError} (h : (s.value n source).1 = .error (.halted (.error fault))) :
    fault.cause.Answered := by
  cases hr : (Parsed.ofSource Parsed.expression source s.nextId).result with
  | error faults => simp [Session.value, hr] at h
  | ok e =>
    have hrun := obeys_value hr n s.machine hs
    simp only [Session.value, hr] at h
    cases he : eval n e s.machine with
    | ok => simp [he] at h
    | error halt m =>
      simp only [he, Except.error.injEq, NoValue.halted.injEq] at h hrun
      exact hrun.2 fault h

/-- The moments of a unit that is run, or of a lone expression that is evaluated. -/
inductive Meets (s : Session) (n : Nat) (source : String) (k : Moment) : Prop
  | unit : s.Visits n source k → Meets s n source k
  | value {e : Expr} : (Parsed.ofSource Parsed.expression source s.nextId).result = .ok e →
    Moment.Visits ⟨n, .expr none e, s.machine⟩ k → Meets s n source k

end Session

/-- Whatever source is read as a program, strictly or with missing semicolons, or as a lone expression: in the whole tree,
with all that is generated for loops and increments, the operator of a unary node is `!` or `-`, that of a binary node is one
of the ten of arithmetic, comparison and equality, and that of a logical node is `or` or `and`; a superclass is the value of
a name; and there are at most 255 arguments to a call and 255 parameters of a function. Whatever code begins to run in a
session is so as well, in the functions of earlier units too, so a unary operator that is no minus is `!`, and a logical
operator that is not `or` is `and`. No unit and no lone expression ever fails because a binary operator is not known. -/
theorem trees_in_domain :
    (∀ lenient source nextId statements, (Parsed.ofSource (Parsed.program lenient) source nextId).result = .ok statements →
      Stmt.InDomainEach statements) ∧
    (∀ source nextId e, (Parsed.ofSource Parsed.expression source nextId).result = .ok e → e.InDomain) ∧
    ∀ prompt now output diagnostics trees s, (Session.start prompt now output diagnostics).Reads trees s → ∀ n source,
      (∀ k, s.Meets n source k → k.code.InDomain ∧
        (∀ d operator operand, k.code = .expr d (.unary operator operand) →
          operator.kind ≠ .minus → operator.kind = .bang) ∧
        (∀ d left operator right, k.code = .expr d (.logical left operator right) →
          operator.kind ≠ .kwOr → operator.kind = .kwAnd) ∧
        ∀ d left operator right, k.code = .expr d (.binary left operator right) → operator.kind ∈ Kind.binary) ∧
      (∀ x line, s.halt? n source ≠ some (.error ⟨.unknownOperator x, line⟩)) ∧
      ∀ x line, (s.value n source).1 ≠ .error (.halted (.error ⟨.unknownOperator x, line⟩)) := by
  refine ⟨fun _ _ _ _ => Parsed.inDomain_ofSource_program, fun _ _ _ => Parsed.inDomain_ofSource_expression, ?_⟩
  intro prompt now output diagnostics trees s h n source
  have hs : s.machine.store.Only Function.InDomain := h.inDomain ⟨nofun, nofun⟩
  refine ⟨fun k hk => ?_, fun x line hhalt => Session.halt?_answered hs hhalt x rfl,
    fun x line hvalue => Session.value_answered hs hvalue x rfl⟩
  have hcode : k.code.InDomain := by
    cases hk with
    | unit hk => exact Session.inDomain_of_visits hs hk
    | value he hk => exact Session.inDomain_of_value hs he hk
  refine ⟨hcode, fun d operator operand hk hminus => ?_, fun d left operator right hk hor => ?_,
    fun d left operator right hk => ?_⟩ <;> rw [hk] at hcode
  · simpa [Kind.unary, hminus] using hcode.1
  · simpa [Kind.logical, hor] using hcode.1
  · exact hcode.1

/-- A function with a loop and a step, left behind by one unit and called in the next, which fails for another reason. -/
theorem trees_in_domain_of_loop :
    let source := "function f(n) { for (var i = 0; i < n; i++) print -i; }"
    let s₀ := Session.start false ⟨0⟩ .unlimited .unlimited
    let s := (s₀.run 30 source).2
    (∃ statements, (Parsed.ofSource (Parsed.program false) source 0).result = .ok statements ∧
      Stmt.InDomainEach statements) ∧
    (∃ trees, s₀.Reads trees s) ∧ (s.run 30 "f(2); f(2) * 1;").1 = .runtimeError ∧
      ∀ x line, s.halt? 30 "f(2); f(2) * 1;" ≠ some (.error ⟨.unknownOperator x, line⟩) := by
  intro source s₀ s
  have hread : (Parsed.ofSource (Parsed.program false) source 0).result.isOk := by decide +kernel
  have hs : ∃ trees, s₀.Reads trees s := ⟨_, .run _ _ .refl⟩
  have hfails : (s.run 30 "f(2); f(2) * 1;").1 = .runtimeError := by decide +kernel
  clear_value s source
  obtain ⟨trees, hreads⟩ := hs
  refine ⟨?_, ⟨trees, hreads⟩, hfails, (trees_in_domain.2.2 _ _ _ _ _ _ hreads _ _).2.1⟩
  cases h : (Parsed.ofSource (Parsed.program false) source 0).result with
  | error => rw [h] at hread; cases hread
  | ok statements => exact ⟨statements, rfl, trees_in_domain.1 _ _ _ _ h⟩

end LoxLang
