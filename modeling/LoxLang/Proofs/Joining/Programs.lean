import LoxLang.Proofs.Derivation.Program

/-! Two programs in a row are a program. What is behind a declaration does not matter to it, for no declaration begins with
an `else`. -/

namespace LoxLang

namespace DeclarationsDerivation

variable {lenient : Bool}

/-- Two derivations in a row. -/
def append : DeclarationsDerivation lenient → DeclarationsDerivation lenient → DeclarationsDerivation lenient
  | .nil, e => e
  | .cons first more, e => .cons first (more.append e)

theorem tokens_append : ∀ d e : DeclarationsDerivation lenient, (d.append e).tokens = d.tokens ++ e.tokens
  | .nil, _ => rfl
  | .cons first more, e => by
    rw [append, tokens, tokens, tokens_append more e, List.append_assoc]

theorem trees_append : ∀ d e : DeclarationsDerivation lenient, (d.append e).trees = d.trees ++ e.trees
  | .nil, _ => rfl
  | .cons first more, e => by
    rw [append, trees, trees, trees_append more e, List.cons_append]

end DeclarationsDerivation

/-- The tokens of two programs are read as the statements of both, with node ids of their own. -/
theorem Parsed.program_append {ts us : List Token} {stop stop' : Token} {i j : NodeId} {a b : List Stmt}
    (hts : ∀ t ∈ ts, t.kind ≠ .eof) (hstop : stop.kind = .eof) (hus : ∀ t ∈ us, t.kind ≠ .eof)
    (hstop' : stop'.kind = .eof) (ha : (Parsed.program false (ts ++ [stop]) i).result = .ok a)
    (hb : (Parsed.program false (us ++ [stop']) j).result = .ok b) (k : NodeId) :
    ∃ body, (Parsed.program false (ts ++ (us ++ [stop'])) k).result = .ok body ∧
      Stmt.unnumberedEach body = Stmt.unnumberedEach a ++ Stmt.unnumberedEach b := by
  obtain ⟨d, rfl, hd⟩ := derivation_of_program hts hstop ha
  obtain ⟨e, rfl, he⟩ := derivation_of_program hus hstop' hb
  have hboth : ∀ t ∈ (d.append e).tokens, t.kind ≠ .eof := by
    rw [d.tokens_append, List.forall_mem_append]
    exact ⟨hts, hus⟩
  have htakes := Grammar.takes_program (c := ⟨_, stop', [], k⟩) (d.append e) rfl (Nat.lt_succ_self _)
  obtain ⟨body, hread, hbody⟩ := run_of_takes hboth hstop' htakes
  rw [d.tokens_append, List.append_assoc] at hread
  exact ⟨body, hread, by rw [hbody, d.trees_append, hd, he]⟩

end LoxLang
