import LoxLang.Proofs.Returns.Activations
import LoxLang.Proofs.Scoping.Agreement
import LoxLang.Proofs.WellFormed.Statements

/-! A `return` ends the activation that it stands in, and nothing else. -/

namespace LoxLang

mutual

/-- No `return` stands in the statement, but in functions and methods that it declares. -/
def Stmt.ReturnFree : Stmt → Prop
  | .ret _ _ => False
  | .block body => Stmt.ReturnFreeEach body
  | .branch _ yes no => yes.ReturnFree ∧ Stmt.ReturnFreeOption no
  | .loop _ body => body.ReturnFree
  | .expression _ | .print _ | .var _ _ | .function _ | .classDecl _ _ _ => True

def Stmt.ReturnFreeEach : List Stmt → Prop
  | [] => True
  | s :: rest => s.ReturnFree ∧ Stmt.ReturnFreeEach rest

def Stmt.ReturnFreeOption : Option Stmt → Prop
  | none => True
  | some s => s.ReturnFree

end

theorem Stmt.returnFree_of_mem {s : Stmt} : ∀ {body : List Stmt}, ReturnFreeEach body → s ∈ body → s.ReturnFree
  | _ :: _, h, hs => by
    cases hs with
    | head => exact h.1
    | tail _ hs => exact returnFree_of_mem h.2 hs

namespace Moment

variable {k k' r : Moment}

def ReturnFree (k : Moment) : Prop :=
  match k.code with
  | .stmt s => s.ReturnFree
  | .body statements => Stmt.ReturnFreeEach statements
  | _ => True

theorem ReturnFree.step (h : k.ReturnFree) (hstep : k.Into k' ∨ k.Onward k') : k'.ReturnFree := by
  rcases hstep with hstep | hstep
  · cases hstep with
    | chosen _ _ hchosen =>
      unfold Stmt.chosen? at hchosen
      split at hchosen
      · split at hchosen
        · cases hchosen
          exact h.1
        · subst hchosen
          exact h.2
      · split at hchosen <;> cases hchosen
        exact h
      · cases hchosen
    | block => exact h
    | statement => exact h.1
  · cases hstep with
    | again => exact h
    | rest => exact h.2

theorem ReturnFree.reaches (h : k.ReturnFree) (hr : k.Reaches r) : r.ReturnFree := by
  induction hr with
  | refl => exact h
  | tail _ hstep ih => exact ih.step hstep

theorem ReturnFree.normal {n : Nat} {s : Stmt} {m t : Machine} {c : Completion} (hs : s.ReturnFree)
    (h : exec n s m = .ok c t) : c = .normal := by
  cases c with
  | normal => rfl
  | returned v =>
    obtain ⟨r, _, hr, hgives, -⟩ := found_of_exec n s m v t h
    have hfree : r.ReturnFree := ReturnFree.reaches (k := ⟨n, .stmt s, m⟩) hs hr
    cases hgives <;> exact hfree.elim

end Moment

mutual

/-- Where no `return` is outside functions, none stands in the code. -/
theorem Stmt.returnFree_of_sites : ∀ (s : Stmt) {p : Place}, p.around.function = .none →
    (∀ valued, .ret .none valued ∉ s.sites p) → s.ReturnFree
  | .ret _ value, p, hp, h => (h value.isSome (by simp [Stmt.sites, hp])).elim
  | .block body, p, hp, h => by
    rw [Stmt.sites] at h
    exact Stmt.returnFreeEach_of_sites body (p := p.inside []) hp fun valued hmem => h valued (List.mem_cons_of_mem _ hmem)
  | .branch condition yes no, p, hp, h => by
    rw [Stmt.sites] at h
    exact ⟨yes.returnFree_of_sites hp fun valued hmem => h valued (by simp [hmem]),
      Stmt.returnFreeOption_of_sites no hp fun valued hmem => h valued (by simp [hmem])⟩
  | .loop condition body, p, hp, h => by
    rw [Stmt.sites] at h
    exact body.returnFree_of_sites hp fun valued hmem => h valued (by simp [hmem])
  | .expression _, _, _, _ | .print _, _, _, _ | .var _ _, _, _, _ | .function _, _, _, _ | .classDecl _ _ _, _, _, _ => trivial

theorem Stmt.returnFreeEach_of_sites : ∀ (body : List Stmt) {p : Place}, p.around.function = .none →
    (∀ valued, .ret .none valued ∉ Stmt.sitesEach p body) → Stmt.ReturnFreeEach body
  | [], _, _, _ => trivial
  | s :: rest, p, hp, h => by
    rw [Stmt.sitesEach] at h
    have hrest : (p.declare s.declares).around.function = .none := by rw [Place.around_declare, hp]
    exact ⟨s.returnFree_of_sites hp fun valued hmem => h valued (by simp [hmem]),
      Stmt.returnFreeEach_of_sites rest hrest fun valued hmem => h valued (by simp [hmem])⟩

theorem Stmt.returnFreeOption_of_sites : ∀ (s : Option Stmt) {p : Place}, p.around.function = .none →
    (∀ valued, .ret .none valued ∉ Stmt.sitesOption p s) → Stmt.ReturnFreeOption s
  | none, _, _, _ => trivial
  | some s, p, hp, h => s.returnFree_of_sites hp fun valued hmem => h valued (by rwa [Stmt.sitesOption])

end

/-- A unit that is accepted has no `return` at top level. -/
theorem Session.returnFree_of_accepted {s : Session} {source : String} {statements : List Stmt} {known : Bindings}
    (ha : s.accepted? source = some (statements, known)) : Stmt.ReturnFreeEach statements := by
  have hresolves : (resolve s.globals statements).isOk := by rw [(read_of_accepted ha).2]; rfl
  have hwell := (resolve_iff_sites (made_of_accepted ha).tidy).mp hresolves
  exact Stmt.returnFreeEach_of_sites statements rfl fun valued hmem => hwell.returns .none valued hmem rfl

namespace Run

variable {n : Nat} {k : Closure FrameId} {arguments : List Value} {m : Machine} {v : Value}

/-- Where the body of a function begins, with the arguments. -/
def bodyOf (n : Nat) (k : Closure FrameId) (arguments : List Value) (m : Machine) : Moment :=
  ⟨n, .body k.declared.body, m.enter k.home (parameterNames k.declared.parameters arguments)⟩

theorem call_function {id : ClosureId} (hk : m.store.closures[id]? = some k) (exec : Stmt → Run Completion) :
    call exec (.function id) arguments m = callClosure exec k arguments m := by
  rw [call_function_eq, hk]

/-- What a call of a function has as its value, once the body has ended: an initializer the instance that its frame
names, any other function what the body returns, or `nil` if it returns nothing. -/
def resultOf (k : Closure FrameId) (completion : Completion) (t : Machine) : Value :=
  if k.isInitializer then (t.store.frames.here? k.home "this").getD .nil
  else match completion with
    | .returned v => v
    | .normal => .nil

theorem callClosure_apply :
    callClosure (exec n) k arguments m =
      match sequence (exec n) k.declared.body (bodyOf n k arguments m).machine with
      | .ok completion t => .ok (resultOf k completion t) { m with store := t.store, output := t.output }
      | .error h t => .error h { m with store := t.store, output := t.output } := by
  have hframe := inNewFrame_apply (m := m) (exec n) k.home (parameterNames k.declared.parameters arguments) k.declared.body
  have hback : ∀ t : Machine, t.context = (bodyOf n k arguments m).machine.context →
      ({ t with current := m.current } : Machine) = { m with store := t.store, output := t.output } := by
    rintro ⟨store, globals, current, depth, bindings, prompt, output⟩ h
    simp only [Machine.context, Context.mk.injEq] at h
    obtain ⟨rfl, -, rfl, rfl, rfl⟩ := h
    rfl
  have hsteady := steady_sequence (steady_exec n) k.declared.body (bodyOf n k arguments m).machine
  unfold Halting.after at hsteady
  have hbegins : m.enter k.home (parameterNames k.declared.parameters arguments) = (bodyOf n k arguments m).machine := rfl
  rw [hbegins] at hframe
  unfold callClosure resultOf
  cases e : sequence (exec n) k.declared.body (bodyOf n k arguments m).machine with
  | error h t =>
    rw [e] at hframe hsteady
    rw [Halting.bind_of_error hframe, hback t hsteady]
  | ok completion t =>
    rw [e] at hframe hsteady
    rw [Halting.bind_of_ok hframe, hback t hsteady]
    cases k.isInitializer <;> cases completion <;> rfl

/-- A function that is not an initializer has the value that its body returns, or `nil` if it returns none. -/
theorem callClosure_eq (hinit : k.isInitializer = false) :
    callClosure (exec n) k arguments m =
      match sequence (exec n) k.declared.body (bodyOf n k arguments m).machine with
      | .ok (.returned v) t => .ok v { m with store := t.store, output := t.output }
      | .ok .normal t => .ok .nil { m with store := t.store, output := t.output }
      | .error h t => .error h { m with store := t.store, output := t.output } := by
  rw [callClosure_apply]
  cases sequence (exec n) k.declared.body (bodyOf n k arguments m).machine with
  | error h t => rfl
  | ok completion t =>
    unfold resultOf
    rw [hinit]
    cases completion <;> rfl

end Run

open Run Moment

/-- A `return` ends the activation of the function in which it stands. Where none stands outside functions, whatever is
called there ends normally if it ends, and so do all statements of a unit that is accepted. A call of a function that is
not an initializer has the value of the `return` that its activation reaches first, whatever blocks, branches and loops
are around it, and leaves what is there then: no moment of the activation comes after it. Without one it has `nil`. -/
theorem return_ends_activation :
    (∀ n s m c t, s.ReturnFree → exec n s m = .ok c t → c = .normal) ∧
    (∀ (s : Session) source statements known, s.accepted? source = some (statements, known) →
      ∀ stmt ∈ statements, ∀ n m c t, exec n stmt m = .ok c t → c = .normal) ∧
    ∀ n m id k arguments, m.store.closures[id]? = some k → k.isInitializer = false →
      (∀ r v t, (bodyOf n k arguments m).Reaches r → r.Gives v t →
        call (exec n) (.function id) arguments m = .ok v { m with store := t.store, output := t.output } ∧
        (∀ r' v' t', (bodyOf n k arguments m).Reaches r' → r'.Gives v' t' → r' = r) ∧
        ∀ later, ¬ (bodyOf n k arguments m).After later r) ∧
      ∀ v u, call (exec n) (.function id) arguments m = .ok v u →
        (∃ r t, (bodyOf n k arguments m).Reaches r ∧ r.Gives v t) ∨
          v = .nil ∧ ∀ r v' t, (bodyOf n k arguments m).Reaches r → ¬ r.Gives v' t := by
  refine ⟨fun n s m c t hs h => ReturnFree.normal hs h, fun s source statements known ha stmt hstmt n m c t h => ?_, ?_⟩
  · exact ReturnFree.normal (Stmt.returnFree_of_mem (Session.returnFree_of_accepted ha) hstmt) h
  intro n m id k arguments hk hinit
  rw [call_function hk, callClosure_eq hinit]
  constructor
  · intro r v t hr hgives
    obtain ⟨t', hends, hstore, houtput⟩ := leaves_of_reaches hr hgives.leaves
    have hends : sequence (exec n) k.declared.body (bodyOf n k arguments m).machine = .ok (.returned v) t' := hends
    refine ⟨?_, fun r' v' t' hr' hgives' => hgives.unique hr hr' hgives', fun later => hgives.not_after _⟩
    rw [hends]
    dsimp only
    rw [hstore, houtput]
  · intro v u h
    cases e : sequence (exec n) k.declared.body (bodyOf n k arguments m).machine with
    | error => simp [e] at h
    | ok completion t =>
      rw [e] at h
      cases completion with
      | returned w =>
        cases h
        obtain ⟨r, t', hr, hgives, -⟩ := found_of_sequence (found_of_exec n) k.declared.body e
        exact .inl ⟨r, t', hr, hgives⟩
      | normal =>
        cases h
        refine .inr ⟨rfl, fun r v' t' hr hgives => ?_⟩
        obtain ⟨t'', hends, -⟩ := leaves_of_reaches hr hgives.leaves
        cases e.symm.trans hends

/-- A `return` in a branch in a block in a loop, reached in its second round. -/
theorem return_ends_activation_in_loop :
    let s := Session.start false ⟨0⟩ .unlimited .unlimited
    let source := "function f(s) \x7b while (true) \x7b \x7b if (s == \"ab\") return s; \x7d s = s + \"b\"; \x7d \x7d"
    ∃ k r t u, (s.run 30 source).2.machine.store.closures[0]? = some k ∧ k.isInitializer = false ∧
      call (exec 30) (.function 0) [.string "a"] (s.run 30 source).2.machine = .ok (.string "ab") u ∧
      (bodyOf 30 k [.string "a"] (s.run 30 source).2.machine).Reaches r ∧ r.Gives (.string "ab") t ∧
        u.store = t.store := by
  intro s source
  have hclosure : ((s.run 30 source).2.machine.store.closures[0]?.map Closure.isInitializer) = some false := by
    decide +kernel
  have hcall : Halting.value? (call (exec 30) (.function 0) [.string "a"]) (s.run 30 source).2.machine =
      some (.string "ab") := by decide +kernel
  generalize (s.run 30 source).2.machine = m at hclosure hcall ⊢
  obtain ⟨k, hk, hinit⟩ := Option.map_eq_some_iff.mp hclosure
  obtain ⟨hgiven, hvalue⟩ := return_ends_activation.2.2 30 m 0 k [.string "a"] hk hinit
  unfold Halting.value? at hcall
  split at hcall
  · rename_i v u e
    cases hcall
    rcases hvalue _ u e with ⟨r, t, hr, hgives⟩ | ⟨hnil, -⟩
    · have hsame := e.symm.trans (hgiven r _ t hr hgives).1
      cases hsame
      exact ⟨k, r, t, _, hk, hinit, e, hr, hgives, rfl⟩
    · cases hnil
  · cases hcall

end LoxLang
