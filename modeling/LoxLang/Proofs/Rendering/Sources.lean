import LoxLang.Proofs.Grammar.Statements
import LoxLang.Proofs.Rendering.Trees

/-! The text of a tree determines the tree, up to what the text does not show: node ids and lines. -/

namespace LoxLang

mutual

/-- Neither node ids nor lines are shown. -/
theorem Expr.render_relabel (ρ : Relabeling) : ∀ e : Expr, (e.relabel ρ).render = e.render
  | .literal _ | .read _ _ | .self _ _ | .inherited _ _ _ => rfl
  | .grouping inner => by rw [relabel, render, inner.render_relabel ρ, render]
  | .unary _ operand => by rw [relabel, render, operand.render_relabel ρ, render]; rfl
  | .binary left _ right | .logical left _ right => by
    rw [relabel, render, left.render_relabel ρ, right.render_relabel ρ, render]
    rfl
  | .assign _ _ value => by rw [relabel, render, value.render_relabel ρ, render]; rfl
  | .call callee _ arguments => by
    rw [relabel, render, callee.render_relabel ρ, Expr.renderEach_relabel ρ arguments, render]
  | .get object _ => by rw [relabel, render, object.render_relabel ρ, render]; rfl
  | .set object _ value => by rw [relabel, render, object.render_relabel ρ, value.render_relabel ρ, render]; rfl

theorem Expr.renderEach_relabel (ρ : Relabeling) : ∀ es : List Expr, renderEach (relabelEach ρ es) = renderEach es
  | [] => rfl
  | e :: rest => by rw [relabelEach, renderEach, e.render_relabel ρ, Expr.renderEach_relabel ρ rest, renderEach]

end

namespace Parsed

variable {source : String} {nextId : NodeId} {e : Expr}

/-- What is read as a lone expression can be read from its text as a tree. -/
theorem legible_of_expression (h : (ofSource Parsed.expression source nextId).result = .ok e)
    (hliterals : ∀ v ∈ e.literals, v.isDistinct = true) : e.Legible := by
  have hread := (ofSource_eq Parsed.expression source nextId).2 e h
  have hdomain := inDomain_of_expression hread
  obtain ⟨ts, stop, htokens, hts, hstop⟩ := tokens_eq source
  have hspelled : ∀ t ∈ ts, t.Spelled := fun t ht => by
    have hmem : t ∈ (tokens source).dropLast := by rwa [htokens, List.dropLast_concat]
    exact lexeme_of_tokens hmem
  rw [htokens] at hread
  obtain ⟨d, rfl, htree⟩ := derivation_of_expression hts hstop hread
  have hmade := Expr.madeOf_of_derivation htree
  exact e.legible hdomain (fun t ht => hspelled t (hmade.tokens ht)) fun v hv =>
    Literal.legible hspelled (hmade.literals v hv) (hliterals v hv)

end Parsed

/-- Two expressions that were read, from whatever sources, and that have no strings and no infinite numbers in them: they are
written as the same text just if they are the same tree up to node ids and lines. Calls of all lengths, names such as
`call` and `group`, assignments to variables and to properties, and operators with one and with two operands are all told
apart, and so are numbers. -/
theorem render_determines : ∀ source source' nextId nextId' e e',
    (Parsed.ofSource Parsed.expression source nextId).result = .ok e →
    (Parsed.ofSource Parsed.expression source' nextId').result = .ok e' →
    (∀ v ∈ e.literals, v.isDistinct = true) → (∀ v ∈ e'.literals, v.isDistinct = true) →
      (e.render = e'.render ↔ e.relabel .blank = e'.relabel .blank) := by
  intro source source' nextId nextId' e e' h h' hliterals hliterals'
  have hlegible := Parsed.legible_of_expression h hliterals
  have hlegible' := Parsed.legible_of_expression h' hliterals'
  constructor
  · intro htext
    have hchars : e.nested.chars = e'.nested.chars := by rw [← e.render_eq, ← e'.render_eq, htext]
    have hnested := Nested.chars_injective hlegible.solid hlegible'.solid hchars
    rw [← hlegible.tree, hnested, hlegible'.tree]
  · intro htree
    rw [← e.render_relabel .blank, htree, e'.render_relabel]

/-- Both sources are read as expressions, with distinct literals, that are written as the same text. -/
def sameText (source source' : String) (nextId nextId' : NodeId) : Bool :=
  match (Parsed.ofSource Parsed.expression source nextId).result, (Parsed.ofSource Parsed.expression source' nextId').result with
  | .ok e, .ok e' =>
    e.literals.all Literal.isDistinct && e'.literals.all Literal.isDistinct && e.render == e'.render
  | _, _ => false

/-- The same expression at other lines and with other ids, and with another text for the same number. -/
theorem render_determines_call :
    ∃ e e', (Parsed.ofSource Parsed.expression "x.group = call(-1.50, group) == x" 0).result = .ok e ∧
      (Parsed.ofSource Parsed.expression "x\n.group =\ncall(- 1.5,\ngroup) == x" 7).result = .ok e' ∧
        e.render = e'.render ∧ e.relabel .blank = e'.relabel .blank := by
  have hsame : sameText "x.group = call(-1.50, group) == x" "x\n.group =\ncall(- 1.5,\ngroup) == x" 0 7 = true := by
    decide +kernel
  unfold sameText at hsame
  split at hsame
  · rename_i e e' h h'
    simp only [Bool.and_eq_true, List.all_eq_true, beq_iff_eq] at hsame
    obtain ⟨⟨hliterals, hliterals'⟩, htext⟩ := hsame
    exact ⟨e, e', h, h', htext, (render_determines _ _ _ _ e e' h h' hliterals hliterals').mp htext⟩
  · cases hsame

end LoxLang
