import LoxLang.Proofs.Scoping.Moments

/-! The moments of one activation of a function: what its own statements run, without what the functions that they call
run. The first `return` that is reached among them ends it with its value. -/

namespace LoxLang

namespace Moment

/-- Code of an activation begins a part of its own. -/
inductive Into : Moment → Moment → Prop
  | chosen {n : Nat} {d : Option Token} {s s' : Stmt} {e : Expr} {v : Value} {m m' : Machine} :
    s.value? = some (d, e) → eval n e m = .ok v m' → s.chosen? v = some s' →
      Into ⟨n + 1, .stmt s, m⟩ ⟨n, .stmt s', m'⟩
  | block {n : Nat} {body : List Stmt} {m : Machine} :
    Into ⟨n + 1, .stmt (.block body), m⟩ ⟨n, .body body, m.enter m.current ∅⟩
  | statement {n : Nat} {s : Stmt} {rest : List Stmt} {m : Machine} :
    Into ⟨n, .body (s :: rest), m⟩ ⟨n, .stmt s, m⟩

/-- Code of an activation goes on behind a part that has ended normally. -/
inductive Onward : Moment → Moment → Prop
  | again {n : Nat} {condition : Expr} {body : Stmt} {v : Value} {m m' m'' : Machine} :
    eval n condition m = .ok v m' → v.truthy = true → exec n body m' = .ok .normal m'' →
      Onward ⟨n + 1, .stmt (.loop condition body), m⟩ ⟨n, .stmt (.loop condition body), m''⟩
  | rest {n : Nat} {s : Stmt} {rest : List Stmt} {m m' : Machine} :
    exec n s m = .ok .normal m' → Onward ⟨n, .body (s :: rest), m⟩ ⟨n, .body rest, m'⟩

/-- The moments that an activation reaches from one of its moments. -/
abbrev Reaches : Moment → Moment → Prop := Relation.ReflTransGen fun k k' => k.Into k' ∨ k.Onward k'

/-- One moment comes after another: some code goes on to it behind a part in which the other is. -/
def After (start k r : Moment) : Prop :=
  ∃ j part next, start.Reaches j ∧ j.Into part ∧ part.Reaches r ∧ j.Onward next ∧ next.Reaches k

/-- A `return` has a value, on a machine. -/
inductive Gives : Moment → Value → Machine → Prop
  | bare {n : Nat} {t : Token} {m : Machine} : Gives ⟨n + 1, .stmt (.ret t none), m⟩ .nil m
  | valued {n : Nat} {t : Token} {e : Expr} {v : Value} {m m' : Machine} : eval n e m = .ok v m' →
    Gives ⟨n + 1, .stmt (.ret t (some e)), m⟩ v m'

/-- Statements run to an end. -/
def Ends (k : Moment) (c : Completion) (t : Machine) : Prop :=
  match k.code with
  | .stmt s => exec k.bound s k.machine = .ok c t
  | .body statements => Run.sequence (exec k.bound) statements k.machine = .ok c t
  | _ => False

/-- Statements return a value and leave the store and the output of a machine. -/
def Leaves (k : Moment) (v : Value) (t : Machine) : Prop :=
  ∃ t', k.Ends (.returned v) t' ∧ t'.store = t.store ∧ t'.output = t.output

open Run

variable {k k' part next r r' : Moment} {v v' : Value} {t t' : Machine} {c : Completion}

/-- The moments of an activation are among those of the run. -/
theorem Reaches.visits (h : k.Reaches k') : k.Visits k' := by
  induction h with
  | refl => exact .refl
  | tail _ hstep ih =>
    refine ih.tail ?_
    rcases hstep with hstep | hstep
    · cases hstep with
      | chosen hvalue e hchosen => exact .chosen hvalue e hchosen
      | block => exact .block
      | statement => exact .statement
    · cases hstep with
      | again e htrue e' => exact .again e htrue e'
      | rest e => exact .rest e

theorem Gives.leaves (h : r.Gives v t) : r.Leaves v t := by
  cases h with
  | bare => exact ⟨_, rfl, rfl, rfl⟩
  | valued e => exact ⟨_, Halting.bind_of_ok e, rfl, rfl⟩

theorem Into.leaves (h : k.Into part) (hv : part.Leaves v t) : k.Leaves v t := by
  obtain ⟨t', hends, hstore, houtput⟩ := hv
  cases h with
  | chosen hvalue e hchosen =>
    refine ⟨t', ?_, hstore, houtput⟩
    unfold Stmt.chosen? at hchosen
    split at hchosen
    · cases hvalue
      refine (Halting.bind_of_ok e).trans ?_
      split at hchosen <;> rename_i htrue
      · cases hchosen
        rwa [if_pos htrue]
      · rw [if_neg htrue]
        subst hchosen
        exact hends
    · cases hvalue
      split at hchosen <;> cases hchosen
      rename_i htrue
      refine (Halting.bind_of_ok e).trans ?_
      rw [if_pos htrue]
      exact Halting.bind_of_ok hends
    · cases hchosen
  | @block n body m =>
    have hends : sequence (exec n) body (m.enter m.current ∅) = .ok (.returned v) t' := hends
    refine ⟨{ t' with current := m.current }, (inNewFrame_apply _ _ _ _).trans ?_, hstore, houtput⟩
    rw [hends]
  | statement => exact ⟨t', Halting.bind_of_ok hends, hstore, houtput⟩

theorem Onward.leaves (h : k.Onward next) (hv : next.Leaves v t) : k.Leaves v t := by
  obtain ⟨t', hends, hstore, houtput⟩ := hv
  refine ⟨t', ?_, hstore, houtput⟩
  cases h with
  | again e htrue e' =>
    refine (Halting.bind_of_ok e).trans ?_
    rw [if_pos htrue]
    exact (Halting.bind_of_ok e').trans hends
  | rest e => exact (Halting.bind_of_ok e).trans hends

theorem leaves_of_reaches (h : k.Reaches k') (hv : k'.Leaves v t) : k.Leaves v t := by
  induction h using Relation.ReflTransGen.head_induction_on with
  | refl => exact hv
  | head hstep _ ih => exact hstep.elim (Into.leaves · ih) (Onward.leaves · ih)

/-- Behind a part that returns nothing goes on. -/
theorem Into.stops (h : k.Into part) (hv : part.Leaves v t) : ¬ k.Onward next := by
  obtain ⟨t', hends, -⟩ := hv
  intro hnext
  cases hnext with
  | again e htrue e' =>
    cases h with
    | chosen hvalue e'' hchosen =>
      cases hvalue
      cases e.symm.trans e''
      rw [Stmt.chosen?, if_pos htrue] at hchosen
      cases hchosen
      cases e'.symm.trans hends
  | rest e =>
    cases h with
    | statement => cases e.symm.trans hends

theorem Into.unique (h : k.Into part) (h' : k.Into k') : k' = part := by
  cases h with
  | chosen hvalue e hchosen =>
    cases h' with
    | chosen hvalue' e' hchosen' =>
      cases hvalue.symm.trans hvalue'
      cases e.symm.trans e'
      cases hchosen.symm.trans hchosen'
      rfl
    | block => cases hvalue
  | block =>
    cases h' with
    | chosen hvalue => cases hvalue
    | block => rfl
  | statement =>
    cases h' with
    | statement => rfl

theorem Onward.unique (h : k.Onward next) (h' : k.Onward k') : k' = next := by
  cases h with
  | again e _ e₂ =>
    cases h' with
    | again e' _ e₂' =>
      cases e.symm.trans e'
      cases e₂.symm.trans e₂'
      rfl
  | rest e =>
    cases h' with
    | rest e' =>
      cases e.symm.trans e'
      rfl

/-- With a `return` an activation ends. -/
theorem Gives.last (h : r.Gives v t) : ¬ (r.Into k ∨ r.Onward k) := by
  rintro (hstep | hstep)
  · cases hstep with
    | chosen hvalue _ hchosen => cases h <;> cases hchosen
    | block => cases h
    | statement => cases h
  · cases hstep <;> cases h

theorem Gives.eq_of_reaches (h : r.Gives v t) (hr : r.Reaches k) : k = r := by
  cases Relation.ReflTransGen.cases_head hr with
  | inl heq => exact heq.symm
  | inr hstep =>
    obtain ⟨_, hstep, -⟩ := hstep
    exact absurd hstep h.last

/-- Of all moments that are reached, at most one is a `return` that has a value: behind it there is none. -/
theorem Gives.unique (hr : k.Reaches r) (h : r.Gives v t) (hr' : k.Reaches r') (h' : r'.Gives v' t') : r' = r := by
  induction hr using Relation.ReflTransGen.head_induction_on with
  | refl => exact h.eq_of_reaches hr'
  | head hstep hrest ih =>
    rcases Relation.ReflTransGen.cases_head hr' with rfl | ⟨k₁, hstep', hrest'⟩
    · exact absurd hstep h'.last
    · have hleaves := leaves_of_reaches hrest h.leaves
      have hleaves' := leaves_of_reaches hrest' h'.leaves
      rcases hstep with hinto | honward <;> rcases hstep' with hinto' | honward'
      · cases hinto.unique hinto'
        exact ih hrest'
      · exact absurd honward' (hinto.stops hleaves)
      · exact absurd honward (hinto'.stops hleaves')
      · cases honward.unique honward'
        exact ih hrest'

theorem Gives.not_after (h : r.Gives v t) (start : Moment) : ¬ start.After k r := by
  rintro ⟨j, part, next, -, hinto, hpart, honward, -⟩
  exact hinto.stops (leaves_of_reaches hpart h.leaves) honward

section Reached

/-- Where statements return a value, a `return` has been reached that has it. -/
def Found (k : Moment) (v : Value) (t : Machine) : Prop :=
  ∃ r t', k.Reaches r ∧ r.Gives v t' ∧ t.store = t'.store ∧ t.output = t'.output

theorem Found.of_step (h : k.Into k' ∨ k.Onward k') (hfound : k'.Found v t) (hstore : t'.store = t.store)
    (houtput : t'.output = t.output) : k.Found v t' := by
  obtain ⟨r, u, hr, hgives, hs, ho⟩ := hfound
  exact ⟨r, u, .head h hr, hgives, hstore.trans hs, houtput.trans ho⟩

theorem found_of_sequence {n : Nat} (hs : ∀ s m v t, exec n s m = .ok (.returned v) t → Found ⟨n, .stmt s, m⟩ v t) :
    ∀ (body : List Stmt) {m : Machine}, sequence (exec n) body m = .ok (.returned v) t → Found ⟨n, .body body, m⟩ v t
  | [], _, h => nomatch h
  | s :: rest, m, h => by
    obtain ⟨completion, m', e, hrest⟩ := Halting.bind_eq_ok.mp h
    cases completion with
    | normal => exact (found_of_sequence hs rest hrest).of_step (.inr (.rest e)) rfl rfl
    | returned w =>
      cases hrest
      exact (hs s m _ _ e).of_step (.inl .statement) rfl rfl

theorem found_of_exec (n : Nat) (s : Stmt) (m : Machine) (v : Value) (t : Machine)
    (h : exec n s m = .ok (.returned v) t) : Found ⟨n, .stmt s, m⟩ v t := by
  induction n generalizing s m v t with
  | zero => cases h
  | succ n ih =>
    cases s with
    | expression e =>
      obtain ⟨_, _, -, h⟩ := Halting.bind_eq_ok.mp h
      cases h
    | print e =>
      obtain ⟨_, _, -, h⟩ := Halting.bind_eq_ok.mp h
      obtain ⟨_, _, -, h⟩ := Halting.bind_eq_ok.mp h
      cases h
    | var name initial =>
      cases initial <;>
      · obtain ⟨_, _, -, h⟩ := Halting.bind_eq_ok.mp h
        obtain ⟨_, _, -, h⟩ := Halting.bind_eq_ok.mp h
        cases h
    | block body =>
      have h := (inNewFrame_apply _ _ _ _).symm.trans h
      cases e : sequence (exec n) body (m.enter m.current ∅) with
      | error => simp [e] at h
      | ok completion t' =>
        rw [e] at h
        cases h
        exact (found_of_sequence ih body e).of_step (.inl .block) rfl rfl
    | branch condition yes no =>
      obtain ⟨w, m', e, h⟩ := Halting.bind_eq_ok.mp h
      split at h <;> rename_i htrue
      · exact (ih yes m' v t h).of_step (.inl (.chosen rfl e (if_pos htrue))) rfl rfl
      · cases no with
        | none => cases h
        | some s => exact (ih s m' v t h).of_step (.inl (.chosen rfl e (if_neg htrue))) rfl rfl
    -- Either the body returns in this round, or a later round does.
    | loop condition body =>
      obtain ⟨w, m', e, h⟩ := Halting.bind_eq_ok.mp h
      split at h <;> rename_i htrue
      · obtain ⟨completion, m'', e', h⟩ := Halting.bind_eq_ok.mp h
        cases completion with
        | normal => exact (ih _ m'' v t h).of_step (.inr (.again e htrue e')) rfl rfl
        | returned w =>
          cases h
          exact (ih body m' v t e').of_step (.inl (.chosen (s := .loop condition body) rfl e (if_pos htrue))) rfl rfl
      · cases h
    | function f =>
      obtain ⟨_, _, -, h⟩ := Halting.bind_eq_ok.mp h
      cases h
    | ret keyword value =>
      cases value with
      | none =>
        cases h
        exact ⟨_, m, .refl, .bare, rfl, rfl⟩
      | some e =>
        obtain ⟨w, m', e', h⟩ := Halting.bind_eq_ok.mp h
        cases h
        exact ⟨_, t, .refl, .valued e', rfl, rfl⟩
    | classDecl name superclass methods =>
      cases superclass with
      | none =>
        obtain ⟨_, _, -, h⟩ := Halting.bind_eq_ok.mp h
        obtain ⟨_, _, -, h⟩ := Halting.bind_eq_ok.mp h
        cases h
      | some u =>
        obtain ⟨_, _, -, h⟩ := Halting.bind_eq_ok.mp h
        obtain ⟨_, _, -, h⟩ := Halting.bind_eq_ok.mp h
        obtain ⟨_, _, -, h⟩ := Halting.bind_eq_ok.mp h
        cases h

end Reached

end Moment

end LoxLang
