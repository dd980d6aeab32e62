import LoxLang.Proofs.Depth.Calls
import LoxLang.Proofs.Values.Evaluation

/-! Stores are whole whenever code begins to run and whenever it leaves off, in every unit of every session. -/

namespace LoxLang

open Frames Run

namespace Moment

variable {k k' : Moment}

/-- The body of a call begins with arguments that name what is there. -/
theorem whole_called {m m' : Machine} (hm : m.store.Whole) {f : Value} (hf : f.In m.store.toHeap) {values : List Value}
    (hvalues : ∀ v ∈ values, v.In m.store.toHeap) {body : List Stmt} (h : m.called? values f = some (body, m')) :
    m'.store.Whole := by
  obtain ⟨κ, m₁, hinvokes, -, rfl⟩ := Machine.called?_eq_some.mp h
  cases hinvokes with
  | function => exact hm.addFrame _ (in_of_parameterNames hvalues _)
  | @cls c method =>
    have hsize : m.store.objects.size < (m.store.objects.push ⟨c, ∅⟩).size := by
      rw [Array.size_push]
      exact Nat.lt_succ_self _
    have hle : m.store.toHeap.Le (m.store.toHeap.addObject c).2 := ⟨le_rfl, le_rfl, le_rfl, hsize.le⟩
    have hbound := whole_bind (m := { m with store := (m.store.inHeap fun h => h.addObject c).2 }) (hm.addObject hf)
      method hsize
    exact hbound.addFrame _ (in_of_parameterNames (fun v hv => (hvalues v hv).mono hle) _)

theorem whole_of_starts (h : k.Starts k') (hk : k.machine.store.Whole) : k'.machine.store.Whole := by
  have heval {n : Nat} {e : Expr} {v : Value} {m m' : Machine} (hm : m.store.Whole) (e : eval n e m = .ok v m') :=
    ((yielding n).eval hm).of_ok e
  cases h with
  | first | argument | value | statement | shown | performed => exact hk
  | second _ e | arguments e | others e | chosen _ e => exact (heval hk e).1
  | @call n d callee paren es f values body m m₁ m₂ m₃ m₄ e₁ e₂ e₃ hcalled =>
    obtain ⟨hm₁, -, hf⟩ := heval hk e₁
    obtain ⟨hm₂, hle, hvalues⟩ := (yields_each (yielding n) es hm₁).of_ok e₂
    obtain ⟨rfl, -⟩ := arity_of_admitCall e₃
    exact whole_called (m := { m₃ with depth := m₃.depth + 1 }) hm₂ (hf.mono hle) hvalues hcalled
  | again e₁ _ e₂ => exact (((yielding _).exec (heval hk e₁).1).of_ok e₂).1
  | block => exact hk.addFrame _ (by simp)
  | rest e => exact (((yielding _).exec hk).of_ok e).1
  | next e => exact ((yields_perform _ _ hk).of_ok e).1

theorem whole_of_visits (h : k.Visits k') (hk : k.machine.store.Whole) : k'.machine.store.Whole := by
  induction h with
  | refl => exact hk
  | tail _ hstep ih => exact whole_of_starts hstep ih

theorem whole_after (hk : k.machine.store.Whole) : k.after.store.Whole := by
  unfold after
  cases k.code with
  | expr d e => exact ((yielding _).eval hk).whole
  | arguments d es => exact (yields_each (yielding _) es hk).whole
  | stmt s => exact ((yielding _).exec hk).whole
  | body statements => exact (yields_sequence (yielding _) statements hk).whole
  | unit statements => exact (yields_interpret _ statements hk).whole

end Moment

namespace Session

variable {s : Session}

theorem whole_start (prompt : Bool) (now : Number) (output diagnostics : Sink) :
    (start prompt now output diagnostics).machine.store.Whole where
  names f x v hv := by
    have hframes : (start prompt now output diagnostics).machine.store.frames =
      (Frames.empty.add none ∅).define 0 "clock" (.native 0) := rfl
    by_cases hfx : f = 0 ∧ x = "clock"
    · obtain ⟨rfl, rfl⟩ := hfx
      rw [hframes, here?_define_self (Nat.zero_lt_one)] at hv
      cases hv
      exact Nat.zero_lt_one
    · rw [hframes, here?_define_of_ne _ _ (not_and_or.mp hfx), here?_add] at hv
      split at hv
      · simp at hv
      · simp [here?, Frames.empty] at hv
  fields := nofun
  instances := nofun
  superclasses := nofun
  natives f hf _ _ _ := by
    have hnatives : (start prompt now output diagnostics).machine.store.natives = #[clock now] := rfl
    rw [hnatives, List.mem_toArray, List.mem_singleton] at hf
    subst hf
    trivial

theorem Reachable.whole (h : s.Reachable) : s.machine.store.Whole := by
  induction h with
  | start => exact whole_start _ _ _ _
  | @run s n source _ ih =>
    cases ha : s.accepted? source with
    | none =>
      obtain ⟨sink, hs⟩ := run_of_refused ha n
      rw [hs]
      exact ih
    | some unit =>
      rw [(run_conclude ha n).2]
      exact (yields_interpret n unit.1 (m := s.ready unit.2) ih).whole
  | takeWritten _ ih => exact ih

/-- Every moment of a unit begins with a whole store. -/
theorem Reachable.whole_of_visits (hs : s.Reachable) {n : Nat} {source : String} {k : Moment}
    (hk : s.Visits n source k) : k.machine.store.Whole := by
  obtain ⟨unit, -, hvisits⟩ := hk
  exact Moment.whole_of_visits hvisits hs.whole

end Session

end LoxLang
