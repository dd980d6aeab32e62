import LoxLang.Proofs.Joining.Halts
import LoxLang.Proofs.Joining.Units

/-! One text does what its two parts do one after the other. An error of the second part has its line in the whole text,
unless it is in a function that the first part or a unit before them declared, which stands where it stood. -/

namespace LoxLang

/-- The same function, but for its node ids, where it stood or as many lines further down. -/
def Closure.Lowered (k : Nat) (c c' : Closure FrameId) : Prop :=
  ∃ ρ : Relabeling, (ρ.line = (fun n => n) ∨ ρ.line = (· + k)) ∧ c' = { c with declared := c.declared.relabel ρ }

/-- The same machine, but for the node ids and lines in the code of functions and the distances known. -/
structure Machine.Lowered (k : Nat) (m m' : Machine) : Prop where
  frames : m'.store.frames = m.store.frames
  heap : m.store.toHeap.Corresponds (Closure.Lowered k) (Closure.Lowered k) m'.store.toHeap
  globals : m'.globals = m.globals
  current : m'.current = m.current
  depth : m'.depth = m.depth
  prompt : m'.prompt = m.prompt
  output : m'.output = m.output

theorem Labels.Twins.lowered {L : Labels} {k : Nat} {m m' : Machine} (h : L.Twins m m')
    (hline : ∀ ρ, L.allowed ρ → ρ.line = (fun n => n) ∨ ρ.line = (· + k)) : m.Lowered k m' := by
  have hcode : ∀ c c', L.Twin c c' → c.Lowered k c' := by
    rintro c c' ⟨ρ, hρ, rfl⟩
    exact ⟨ρ, hline ρ hρ.allowed, rfl⟩
  exact ⟨h.frames, h.heap.mono hcode hcode, h.globals, h.current, h.depth, h.prompt, h.output⟩

namespace Session

variable {s t : Session} {first second : String} {a b : List Stmt} {known known' : Bindings} {n : Nat}

/-- The second text on its own lines, or moved down to where it stands in the whole one. -/
theorem joins_lower (h : lexicalDiagnostics first = []) :
    Joins (· + lineCount first) first second (first ++ "\n" ++ second) :=
  ⟨tokens_join second h, lexicalDiagnostics_join second h⟩

theorem joins_newlines (h : lexicalDiagnostics first = []) :
    Joins (fun n => n) first (newlines (lineCount first) ++ second) (first ++ "\n" ++ second) := by
  obtain ⟨ts, stop, hfirst, hts, hstop, hwhole⟩ := tokens_join second h
  refine ⟨⟨ts, stop, hfirst, hts, hstop, ?_⟩, ?_⟩
  · rw [hwhole, tokens_newlines]
    exact congrArg (ts ++ ·) (List.map_id _).symm
  · have hstill : Diagnostic.relabel ⟨fun i => i, fun n => n⟩ = id := funext fun d => by cases d <;> rfl
    rw [lexicalDiagnostics_join second h, lexicalDiagnostics_newlines, hstill, List.map_id]

/-- A unit that ends well, with the session behind it. -/
theorem Reachable.exists_behind (hs : s.Reachable) (hstrict : s.machine.prompt = false) (h : (s.run n first).1 = .ok) :
    (∃ a known, s.Behind (s.run n first).2 first n a known) ∧ (s.run n first).2.diagnostics = s.diagnostics := by
  obtain ⟨a, known, m, ha, hends, hafter⟩ := ends_of_run_ok h
  refine ⟨⟨a, known, hs, hstrict, ha, ?_, ?_, .run n first hs⟩, ?_⟩ <;> rw [hafter]
  exact hends

namespace Behind

variable (h : s.Behind t first n a known) (hb : t.accepted? second = some (b, known'))

include h hb

/-- In the whole text the second unit halts where it does as many lines further down. -/
theorem halt?_join : s.halt? n (first ++ "\n" ++ second) = t.halt? n (newlines (lineCount first) ++ second) := by
  have hclean : lexicalDiagnostics first = [] := Parsed.lexical_of_ok (read_of_accepted h.accepted).1
  obtain ⟨known'', hb', -⟩ := h.follows.halt?_newlines hb (lineCount first) n
  obtain ⟨body, both, L, hbody, hline, hruns⟩ := h.ends_join hb' (joins_newlines hclean)
  simp only [halt?, hbody, hb', Option.bind_some, Halting.halt?]
  revert hruns
  cases interpret n (Stmt.relabelEach (.lower (lineCount first)) b) (t.ready known'') <;>
    cases interpret n body (s.ready both) <;> intro hruns
  · rfl
  · exact hruns.elim
  · exact hruns.elim
  · rw [hruns.1.eq fun ρ hρ i => congrFun ((or_self_iff).mp (hline ρ hρ)) i]

theorem lowered_join : (s.accepted? (first ++ "\n" ++ second)).isSome ∧
    (t.run n second).2.machine.Lowered (lineCount first) (s.run n (first ++ "\n" ++ second)).2.machine := by
  have hclean : lexicalDiagnostics first = [] := Parsed.lexical_of_ok (read_of_accepted h.accepted).1
  obtain ⟨body, both, L, hbody, hline, hruns⟩ := h.ends_join hb (joins_lower hclean)
  rw [hbody, (run_conclude hb n).2, (run_conclude hbody n).2]
  refine ⟨rfl, ?_⟩
  unfold Halting.after
  revert hruns
  cases interpret n b (t.ready known') <;> cases interpret n body (s.ready both) <;> intro hruns
  · exact hruns.2.lowered hline
  · exact hruns.elim
  · exact hruns.elim
  · exact hruns.2.lowered hline

end Behind

end Session

open Session

/-- A unit behind one that ends well, outside a prompt: in one text with that it is accepted too, and leaves the same
output, names and values. It halts for the same reason, and a fault is at the same line or as many lines further down as
the first unit has: further down just if it is in the text of the second unit, so that it moves with that. -/
theorem joined_units {s : Session} (hs : s.Reachable) (hstrict : s.machine.prompt = false) {n : Nat}
    {first second : String} (hfirst : (s.run n first).1 = .ok)
    (hsecond : ((s.run n first).2.accepted? second).isSome) :
    let between := (s.run n first).2
    let parts := between.run n second
    let whole := s.run n (first ++ "\n" ++ second)
    (s.accepted? (first ++ "\n" ++ second)).isSome ∧
    parts.2.machine.Lowered (lineCount first) whole.2.machine ∧
    (∃ own : Bool,
      s.halt? n (first ++ "\n" ++ second) =
        (between.halt? n second).map (Halt.lower (if own then lineCount first else 0)) ∧
      ∀ j, between.halt? n (newlines j ++ second) = (between.halt? n second).map (Halt.lower (if own then j else 0))) ∧
    (parts.1, parts.2.diagnostics) = s.diagnostics.conclude (between.halt? n second) ∧
    (whole.1, whole.2.diagnostics) = s.diagnostics.conclude (s.halt? n (first ++ "\n" ++ second)) ∧
    (s.diagnostics.capacity = none → whole.1 = parts.1) := by
  intro between parts whole
  obtain ⟨⟨a, known, h⟩, hsink⟩ := hs.exists_behind hstrict hfirst
  obtain ⟨⟨b, known'⟩, hb⟩ := Option.isSome_iff_exists.mp hsecond
  obtain ⟨haccepted, hlowered⟩ := h.lowered_join hb
  obtain ⟨⟨body, both⟩, hbody⟩ := Option.isSome_iff_exists.mp haccepted
  obtain ⟨own, hown⟩ := h.follows.exists_own hb n
  -- Whether the lines of the halt are lines of the second text does not depend on how far down it stands.
  have hhalt := (h.halt?_join hb).trans (hown (lineCount first))
  have hparts : (parts.1, parts.2.diagnostics) = s.diagnostics.conclude (between.halt? n second) :=
    hsink ▸ (run_conclude hb n).1
  have hwhole : (whole.1, whole.2.diagnostics) = s.diagnostics.conclude (s.halt? n (first ++ "\n" ++ second)) :=
    (run_conclude hbody n).1
  refine ⟨haccepted, hlowered, ⟨own, hhalt, hown⟩, hparts, hwhole, fun hunlimited => ?_⟩
  calc whole.1 = (s.diagnostics.conclude (s.halt? n (first ++ "\n" ++ second))).1 := congrArg Prod.fst hwhole
    _ = (s.diagnostics.conclude (between.halt? n second)).1 := by rw [hhalt, Sink.conclude_lower hunlimited]
    _ = parts.1 := (congrArg Prod.fst hparts).symm

/-- Two lines and then two of a unit that fails on its second. -/
theorem joined_units_own_line :
    let s := Session.start false ⟨0⟩ .unlimited .unlimited
    let first := "var x = 1;\nfunction f(y) { print y; return x + y; }"
    let second := "{ var z = f(x); print z; }\nprint z;"
    s.Reachable ∧ s.machine.prompt = false ∧ (s.run 30 first).1 = .ok ∧ ((s.run 30 first).2.accepted? second).isSome ∧
      (s.run 30 first).2.halt? 30 second = some (.error ⟨.undefinedVariable "z", 2⟩) ∧
      ((s.run 30 first).2.run 30 second).2.machine.Lowered 2 (s.run 30 (first ++ "\n" ++ second)).2.machine ∧
      s.halt? 30 (first ++ "\n" ++ second) = some (.error ⟨.undefinedVariable "z", 4⟩) := by
  intro s first second
  have hs : s.Reachable := .start false ⟨0⟩ .unlimited .unlimited
  have hstrict : s.machine.prompt = false := rfl
  have hfirst : (s.run 30 first).1 = .ok := by decide +kernel
  have hsecond : ((s.run 30 first).2.accepted? second).isSome := by decide +kernel
  have hhalt : (s.run 30 first).2.halt? 30 second = some (.error ⟨.undefinedVariable "z", 2⟩) := by decide +kernel
  have hmoved : (s.run 30 first).2.halt? 30 (newlines 1 ++ second) = some (.error ⟨.undefinedVariable "z", 3⟩) := by
    decide +kernel
  have hlines : lineCount first = 2 := by decide +kernel
  clear_value s first second
  obtain ⟨-, hlowered, ⟨own, hwhole, hown⟩, -⟩ := joined_units hs hstrict hfirst hsecond
  have hmoves := (hown 1).symm.trans hmoved
  rw [hhalt] at hmoves
  obtain rfl : own = true := by cases own <;> simp [Halt.lower] at hmoves ⊢
  rw [hlines] at hlowered hwhole
  rw [hhalt] at hwhole
  exact ⟨hs, hstrict, hfirst, hsecond, hhalt, hlowered, hwhole⟩

/-- A fault in a function of the first unit, called by the second, is where it was: not further down in the whole text.
And the report of a line further down may be the one that does not fit into a sink. -/
theorem joined_line_stays :
    let s := Session.start false ⟨0⟩ .unlimited .unlimited
    let first := "function f() { nosuch; }"
    let limited := Session.start false ⟨0⟩ .unlimited (.ofCapacity (some 38))
    ((s.run 30 first).1 = .ok ∧ ((s.run 30 first).2.accepted? "f();").isSome ∧
      (s.run 30 first).2.halt? 30 "f();" = some (.error ⟨.undefinedVariable "nosuch", 1⟩) ∧
      s.halt? 30 (first ++ "\n" ++ "f();") ≠ some (.error ⟨.undefinedVariable "nosuch", 1 + lineCount first⟩)) ∧
    (limited.run 30 (newlines 8)).1 = .ok ∧ ((limited.run 30 (newlines 8)).2.accepted? "nosuch;").isSome ∧
      (limited.run 30 (newlines 8 ++ "\n" ++ "nosuch;")).1 ≠ ((limited.run 30 (newlines 8)).2.run 30 "nosuch;").1 := by
  decide +kernel

end LoxLang
