import LoxLang.Proofs.Joining.Names
import LoxLang.Proofs.Joining.Sources
import LoxLang.Proofs.Relabeling.Rejections

/-! Why a unit halts, and where. Moved down as a whole it halts at a line further down, or at the same one if that is in
code from before. -/

namespace LoxLang

/-- The halt of code that stands further down. -/
def Halt.lower (k : Nat) : Halt → Halt
  | .error ⟨cause, line⟩ => .error ⟨cause, line + k⟩
  | .outputFailed => .outputFailed
  | .exhausted => .exhausted

@[simp] theorem Halt.lower_zero : lower 0 = id := funext fun h => by cases h <;> rfl

/-- The outcome is that of the halt, while all can be reported. -/
theorem Sink.conclude_lower {sink : Sink} (h : sink.capacity = none) (k : Nat) (halt : Option Halt) :
    (sink.conclude (halt.map (Halt.lower k))).1 = (sink.conclude halt).1 := by
  cases halt with
  | none => rfl
  | some halt => cases halt <;> simp [conclude, writeLines_of_unlimited h, Halt.lower, Halt.outcome]

theorem newlines_append (i j : Nat) : newlines i ++ newlines j = newlines (i + j) := by
  unfold newlines
  rw [← String.ofList_append, List.replicate_append_replicate]

namespace Session

variable {s : Session} {source : String} {statements : List Stmt} {known : Bindings}

open Labels Relabeling

variable (hs : s.Reachable) (ha : s.accepted? source = some (statements, known))

include hs ha

/-- A unit that stands further down is accepted as well, and halts further down or where it did. -/
theorem Reachable.halt?_newlines (j n : Nat) :
    ∃ known', s.accepted? (newlines j ++ source) = some (Stmt.relabelEach (lower j) statements, known') ∧
      ∃ i, (i = 0 ∨ i = j) ∧ s.halt? n (newlines j ++ source) = (s.halt? n source).map (Halt.lower i) := by
  have hc : Corresponds (lower j) s s source (newlines j ++ source) :=
    ⟨fun _ => rfl, fun _ _ _ _ h => h, tokens_newlines j source, lexicalDiagnostics_newlines j source, rfl, rfl, rfl⟩
  obtain ⟨known', ha', hsame⟩ := hc.accepted (accept_of_accepted ha)
  have hself : (since s.nextId (lower j)).Twins s.machine s.machine :=
    twins_self (L := since s.nextId (lower j)) hs.sound.machine (.inl rfl) (fun i hi => .inl ⟨rfl, hi⟩)
      (keeps_since (fun _ _ => rfl) fun _ _ => rfl)
  obtain ⟨htwins, hcarries⟩ := twins_ready hself le_rfl le_rfl ha (accepted_of_accept ha') hsame
  have hruns := echoes_interpret n statements htwins hcarries
  refine ⟨known', accepted_of_accept ha', ?_⟩
  simp only [halt?, ha, accepted_of_accept ha', Option.bind_some, Halting.halt?]
  unfold Labels.Echoes at hruns
  revert hruns
  cases interpret n statements (s.ready known) <;>
    cases interpret n (Stmt.relabelEach (lower j) statements) (s.ready known') <;> intro hruns
  · exact ⟨0, .inl rfl, rfl⟩
  · exact hruns.elim
  · exact hruns.elim
  · rcases hruns with ⟨⟨cause, line, rfl | rfl⟩ | _ | _, -⟩
    · exact ⟨0, .inl rfl, rfl⟩
    · exact ⟨j, .inr rfl, rfl⟩
    · exact ⟨0, .inl rfl, rfl⟩
    · exact ⟨0, .inl rfl, rfl⟩

/-- A halt is in the unit's own text, and moves with it, or in code from before, and stays. -/
theorem Reachable.exists_own (n : Nat) : ∃ own : Bool, ∀ j,
    s.halt? n (newlines j ++ source) = (s.halt? n source).map (Halt.lower (if own then j else 0)) := by
  obtain ⟨known', hnext, i, hi, hone⟩ := hs.halt?_newlines ha 1 n
  -- The line of a text moved by `j + 1` is compared with that of the text itself and with that of the text moved by one.
  have hboth : ∀ j, ∃ d e, (d = 0 ∨ d = j + 1) ∧ (e = 0 ∨ e = j) ∧
      s.halt? n (newlines (j + 1) ++ source) = (s.halt? n source).map (Halt.lower d) ∧
      s.halt? n (newlines (j + 1) ++ source) = (s.halt? n (newlines 1 ++ source)).map (Halt.lower e) := by
    intro j
    obtain ⟨-, -, d, hd, hhalt⟩ := hs.halt?_newlines ha (j + 1) n
    obtain ⟨-, -, e, he, hhalt'⟩ := hs.halt?_newlines hnext j n
    rw [← String.append_assoc, newlines_append] at hhalt'
    exact ⟨d, e, hd, he, hhalt, hhalt'⟩
  refine ⟨i = 1, fun j => ?_⟩
  cases j with
  | zero => simp [newlines]
  | succ j =>
    obtain ⟨d, e, hd, he, hhalt, hhalt'⟩ := hboth j
    rw [hhalt]
    rw [hhalt, hone] at hhalt'
    rcases hk : s.halt? n source with - | ⟨cause, line⟩ | - | -
    · rfl
    · simp only [hk, Option.map_some, Halt.lower, Option.some.injEq, Halt.error.injEq, RuntimeError.mk.injEq, true_and]
        at hhalt' ⊢
      rcases hi with rfl | rfl <;> simp <;> omega
    · rfl
    · rfl

end Session

end LoxLang
