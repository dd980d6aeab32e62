import LoxLang.Proofs.Derivation.Sound
import LoxLang.Proofs.Derivation.Unique

/-! A lone expression is read if and only if its tokens have a derivation, which then is the only one and has the
tree that is read. -/

namespace LoxLang

theorem Cursor.ofTokens_append {ts : List Token} {stop : Token} (hts : ∀ t ∈ ts, t.kind ≠ .eof)
    (hstop : stop.kind = .eof) (nextId : NodeId) :
    Cursor.ofTokens (ts ++ [stop]) nextId = ⟨ts, stop, [], nextId⟩ := by
  have heof : ∀ t ∈ ts, t.isEof = false := fun t ht => beq_eq_false_iff_ne.mpr (hts t ht)
  have hend : stop.isEof = true := beq_iff_eq.mpr hstop
  have hrest : (ts ++ [stop]).takeWhile (fun t => !t.isEof) = ts := by
    rw [List.takeWhile_append_of_pos fun t ht => by simp [heof t ht]]
    simp [hend]
  have hfind : (ts ++ [stop]).find? Token.isEof = some stop := by
    rw [List.find?_append, List.find?_eq_none.mpr fun t ht => by simp [heof t ht]]
    simp [hend]
  rw [ofTokens, hrest, hfind]
  rfl

namespace Parsed

variable {α : Type} {reader : Nat → Reader α} {ts : List Token} {stop : Token} {nextId : NodeId} {a : α}

/-- A tree is given if the reader reaches a place without a fault. -/
theorem run_eq_ok (hts : ∀ t ∈ ts, t.kind ≠ .eof) (hstop : stop.kind = .eof) :
    (run reader (ts ++ [stop]) nextId).result = .ok a ↔
      ∃ c, reader (ts.length + 1) ⟨ts, stop, [], nextId⟩ = .ok a c ∧ c.faults = [] := by
  rw [run, Cursor.ofTokens_append hts hstop]
  dsimp only
  cases reader (ts.length + 1) ⟨ts, stop, [], nextId⟩ with
  | ok b c =>
    by_cases hf : c.faults = [] <;> simp [hf]
  | error s c => cases s <;> simp

/-- What the tokens taken by a reader satisfy holds for the whole list if none is left. -/
theorem of_run_eq_ok {P : List Token → List Token → α → Prop} (hts : ∀ t ∈ ts, t.kind ≠ .eof)
    (hstop : stop.kind = .eof) (h : Parses (reader (ts.length + 1)) fun taken rest a => rest = [] ∧ P taken rest a)
    (ha : (run reader (ts ++ [stop]) nextId).result = .ok a) : P ts [] a := by
  obtain ⟨c, e, hf⟩ := (run_eq_ok hts hstop).mp ha
  obtain ⟨-, h⟩ := h _ a c e hf
  obtain ⟨-, taken, htaken, hrest, hP⟩ := h hstop
  rw [hrest, List.append_nil] at htaken
  dsimp only at htaken
  rwa [htaken, ← hrest]

theorem run_of_takes {P : α → Prop} (hts : ∀ t ∈ ts, t.kind ≠ .eof) (hstop : stop.kind = .eof)
    (h : Takes (reader (ts.length + 1)) ⟨ts, stop, [], nextId⟩ [] P) :
    ∃ a, (run reader (ts ++ [stop]) nextId).result = .ok a ∧ P a := by
  obtain ⟨a, i, e, hP⟩ := h
  exact ⟨a, (run_eq_ok hts hstop).mpr ⟨_, e, rfl⟩, hP⟩

end Parsed

namespace Grammar

open Reader Parses

/-- Behind a lone expression nothing is left. -/
theorem parses_loneExpression (n : Nat) : Parses (loneExpression n) fun taken rest e =>
    rest = [] ∧ Symbol.expression.Derives taken e := by
  refine (parses_expression n).bind fun taken e => after_atEnd fun b => ?_
  cases b with
  | true =>
    refine done fun rest hrest he => ?_
    exact ⟨List.isEmpty_iff.mp hrest, by simpa using he⟩
  | false =>
    refine after_get fun c => after_report ?_ c
    exact done fun _ => trivial

theorem takes_loneExpression {n : Nat} (d : Derivation .expression) {c : Cursor} (hrest : c.rest = d.tokens)
    (hlen : d.tokens.length < n) : Takes (loneExpression n) c [] fun e => e.unnumbered = d.tree := by
  have h := takes_expression n d c [] (by simpa using hrest) (by simpa using hlen) Derivation.ends_nil
  exact h.bind fun e i he => Takes.done rfl he

end Grammar

/-- A list of tokens is read as an expression if and only if it has a derivation. The tree read is that of the
derivation up to node ids, and there is no other derivation. -/
theorem expression_iff_derivation {ts : List Token} {stop : Token} (hts : ∀ t ∈ ts, t.kind ≠ .eof)
    (hstop : stop.kind = .eof) (nextId : NodeId) :
    (∀ e, (Parsed.expression (ts ++ [stop]) nextId).result = .ok e →
      ∃ d : Derivation .expression, d.tokens = ts ∧ e.unnumbered = d.tree) ∧
    (∀ d : Derivation .expression, d.tokens = ts →
      ∃ e, (Parsed.expression (ts ++ [stop]) nextId).result = .ok e ∧ e.unnumbered = d.tree) ∧
    ∀ d d' : Derivation .expression, d.tokens = ts → d'.tokens = ts → d = d' := by
  refine ⟨fun e he => ?_, fun d hd => ?_, fun d d' hd hd' => d.unique d' (hd.trans hd'.symm)⟩
  · obtain ⟨d, hd, htree⟩ := Parsed.of_run_eq_ok hts hstop (Grammar.parses_loneExpression _) he
    exact ⟨d, hd.symm, htree⟩
  · subst hd
    exact Parsed.run_of_takes hts hstop (Grammar.takes_loneExpression d rfl (Nat.lt_succ_self _))

/-- A lone step is an expression, in one way. -/
theorem expression_iff_derivation_step :
    let ts : List Token := [⟨.identifier, "x", 1⟩, ⟨.minus, "-", 1⟩, ⟨.minus, "-", 1⟩]
    let stop : Token := ⟨.eof, "", 1⟩
    (∀ t ∈ ts, t.kind ≠ .eof) ∧ stop.kind = .eof ∧
      ∃ d : Derivation .expression, d.tokens = ts ∧ (∀ d' : Derivation .expression, d'.tokens = ts → d = d') ∧
        ∃ e, (Parsed.expression (ts ++ [stop]) 0).result = .ok e ∧ e.unnumbered = d.tree := by
  intro ts stop
  have hts : ∀ t ∈ ts, t.kind ≠ .eof := by decide
  have hstop : stop.kind = .eof := rfl
  obtain ⟨hread, hderived, hunique⟩ := expression_iff_derivation hts hstop 0
  obtain ⟨d, hd, -⟩ := hread _ rfl
  exact ⟨hts, hstop, d, hd, fun d' hd' => hunique d d' hd hd', hderived d hd⟩

end LoxLang
