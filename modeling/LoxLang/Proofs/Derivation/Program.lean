import LoxLang.Proofs.Derivation.LoneExpression
import LoxLang.Proofs.Derivation.StatementComplete
import LoxLang.Proofs.Derivation.StatementSound

/-! A program is read if and only if its tokens have a derivation; what is read is the tree of the derivation. -/

namespace LoxLang

/-- Whatever is read as a program, with or without all its semicolons, has a derivation. -/
theorem Parsed.derivation_of_program {lenient : Bool} {ts : List Token} {stop : Token} {nextId : NodeId}
    {statements : List Stmt} (hts : ∀ t ∈ ts, t.kind ≠ .eof) (hstop : stop.kind = .eof)
    (h : (Parsed.program lenient (ts ++ [stop]) nextId).result = .ok statements) :
    ∃ d : DeclarationsDerivation lenient, d.tokens = ts ∧ Stmt.unnumberedEach statements = d.trees := by
  obtain ⟨d, hd, htrees⟩ := of_run_eq_ok hts hstop (Grammar.parses_program _) h
  exact ⟨d, hd.symm, htrees⟩

/-- A list of tokens is read as a program if and only if it has a derivation. The statements read are those of the
derivation up to node ids, with every counting loop unrolled. -/
theorem program_iff_derivation {ts : List Token} {stop : Token} (hts : ∀ t ∈ ts, t.kind ≠ .eof)
    (hstop : stop.kind = .eof) (nextId : NodeId) :
    (∀ statements, (Parsed.program false (ts ++ [stop]) nextId).result = .ok statements →
      ∃ d : DeclarationsDerivation false, d.tokens = ts ∧ Stmt.unnumberedEach statements = d.trees) ∧
    ∀ d : DeclarationsDerivation false, d.tokens = ts →
      ∃ statements, (Parsed.program false (ts ++ [stop]) nextId).result = .ok statements ∧
        Stmt.unnumberedEach statements = d.trees := by
  refine ⟨fun statements h => Parsed.derivation_of_program hts hstop h, fun d hd => ?_⟩
  subst hd
  exact Parsed.run_of_takes hts hstop (Grammar.takes_program d rfl (Nat.lt_succ_self _))

/-- In `if (a) if (b) x; else y;` the `else` belongs to the second `if`. -/
theorem program_iff_derivation_nearest_else :
    let name (lexeme : String) : Token := ⟨.identifier, lexeme, 1⟩
    let ts : List Token :=
      [⟨.kwIf, "if", 1⟩, ⟨.leftParen, "(", 1⟩, name "a", ⟨.rightParen, ")", 1⟩,
       ⟨.kwIf, "if", 1⟩, ⟨.leftParen, "(", 1⟩, name "b", ⟨.rightParen, ")", 1⟩, name "x", ⟨.semicolon, ";", 1⟩,
       ⟨.kwElse, "else", 1⟩, name "y", ⟨.semicolon, ";", 1⟩]
    let stop : Token := ⟨.eof, "", 1⟩
    let use (lexeme : String) : Expr := .read 0 (name lexeme)
    (∀ t ∈ ts, t.kind ≠ .eof) ∧ stop.kind = .eof ∧ ∃ d : DeclarationsDerivation false, d.tokens = ts ∧
      d.trees = [.branch (use "a") (.branch (use "b") (.expression (use "x")) (some (.expression (use "y")))) none] := by
  intro name ts stop use
  have hts : ∀ t ∈ ts, t.kind ≠ .eof := by decide
  have hstop : stop.kind = .eof := rfl
  have hread : (Parsed.program false (ts ++ [stop]) 0).result =
      .ok [.branch (.read 0 (name "a")) (.branch (.read 1 (name "b")) (.expression (.read 2 (name "x")))
        (some (.expression (.read 3 (name "y"))))) none] := by cbv
  obtain ⟨d, hd, htrees⟩ := (program_iff_derivation hts hstop 0).1 _ hread
  exact ⟨hts, hstop, d, hd, htrees.symm⟩

end LoxLang
