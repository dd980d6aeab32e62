import LoxLang.Grammar.Program
import LoxLang.Proofs.Rendering.Numbers
import LoxLang.Proofs.Rendering.Shortest
import LoxLang.Proofs.Tiling.Spacing
import LoxLang.Tree.Render

/-! The literal beside a number token and the same literal in a tree. They are the same text for all numbers but the whole
ones from `2 ^ 63` on. -/

namespace LoxLang

open Decimal

namespace Number

variable {n : Number} {k : Nat}

theorem size_eq_iff : size n.magnitude = k ↔ steps n.magnitude = k * unit := by
  rw [size, div_eq_iff unit_cast_pos.ne']
  exact_mod_cast Iff.rfl

/-- Whole numbers are those that stand for a natural. -/
theorem whole_of_size (hfinite : n.isFinite = true) (h : size n.magnitude = k) : n.isWhole = true ∧ n.whole = k := by
  rw [size_eq_iff] at h
  refine ⟨Bool.and_eq_true_iff.mpr ⟨hfinite, beq_iff_eq.mpr ?_⟩, ?_⟩
  · rw [h, Nat.mul_mod_left]
  · rw [whole, h, Nat.mul_div_cancel _ unit_pos]

theorem size_of_isWhole (h : n.isWhole = true) : size n.magnitude = n.whole := by
  rw [size_eq_iff, whole, Nat.div_mul_cancel (Nat.dvd_of_mod_eq_zero (eq_of_beq (Bool.and_eq_true_iff.mp h).2))]

theorem signed_wholeWithFraction (hpositive : n.isNegative = false) (hwhole : n.whole = k) :
    n.signed n.wholeWithFraction = toString k ++ ".0" := by
  have hdigits : (toString k).toList = Nat.toDigits 10 k := String.toList_ofList
  rw [← String.toList_inj, signed_of_positive hpositive, wholeWithFraction, hwhole, String.toList_append, hdigits]
  rfl

theorem inTree_of_isWhole (hpositive : n.isNegative = false) (h : n.isWhole = true) :
    n.inTree = toString n.whole ++ ".0" := by
  rw [inTree, if_pos h, signed_wholeWithFraction hpositive rfl]

/-- Below the limit the texts agree, for zeros too. -/
theorem inToken_of_lt (hpositive : n.isNegative = false) (h : n.isWhole = true) (hlt : n.whole < tokenLimit) :
    n.inToken = toString n.whole ++ ".0" := by
  rw [inToken]
  split
  · rename_i hzero
    rw [whole_of_isZero hzero]
    rfl
  · rw [if_pos (Bool.and_eq_true_iff.mpr ⟨h, decide_eq_true hlt⟩), signed_wholeWithFraction hpositive rfl]

theorem isZero_of_le (hle : tokenLimit ≤ n.whole) : n.isZero = false := by
  refine Bool.eq_false_iff.mpr fun hzero => ?_
  rw [whole_of_isZero hzero] at hle
  exact absurd hle (by decide)

theorem isZero_of_fraction (hfinite : n.isFinite = true) (h : n.isWhole = false) : n.isZero = false :=
  Bool.eq_false_iff.mpr fun hzero => Bool.false_ne_true (h.symm.trans (isWhole_of_isZero hfinite hzero))

theorem inToken_of_le (hle : tokenLimit ≤ n.whole) : n.inToken = n.plain := by
  rw [inToken, isZero_of_le hle, if_neg Bool.false_ne_true,
    if_neg fun h => absurd (of_decide_eq_true (Bool.and_eq_true_iff.mp h).2) hle.not_gt]

/-- A number with a fraction is written in one way. -/
theorem inToken_of_fraction (hfinite : n.isFinite = true) (h : n.isWhole = false) :
    n.inToken = n.plain ∧ n.inTree = n.plain := by
  rw [inToken, isZero_of_fraction hfinite h, inTree, h]
  exact ⟨rfl, rfl⟩

theorem magnitude_pos (hzero : n.isZero = false) : 0 < n.magnitude :=
  Nat.pos_of_ne_zero (beq_eq_false_iff_ne.mp hzero)

/-- The plain text is that of the shortest decimal. -/
theorem plain_shortest (hfinite : n.isFinite = true) (hpositive : n.isNegative = false) (hzero : n.isZero = false) :
    IsShortest (shortest .up n.magnitude) n.magnitude ∧ n.plain.toList = (shortest .up n.magnitude).positional := by
  rw [plain_of_finite hfinite hzero, signed_of_positive hpositive]
  exact ⟨isShortest_shortest .up (magnitude_lt hfinite) (magnitude_pos hzero), rfl⟩

/-- From the limit on there are no places behind the point. -/
theorem exponent_nonneg (hfinite : n.isFinite = true) (h : n.isWhole = true) (hle : tokenLimit ≤ n.whole) :
    0 ≤ (shortest .up n.magnitude).exponent := by
  have hpos := magnitude_pos (isZero_of_le hle)
  obtain ⟨-, hscale⟩ := decimalScale_spec (steps_pos hpos)
  have hexponent := le_exponent_shortest .up (magnitude_lt hfinite) hpos
  rw [size_of_isWhole h] at hscale
  have hplaces : 17 ≤ decimalScale (steps n.magnitude) := by
    by_contra hlt
    have hpow : (10 : ℚ) ^ decimalScale (steps n.magnitude) ≤ 10 ^ (17 : Int) :=
      zpow_le_zpow_right₀ (by norm_num) (by omega)
    have hwhole : (n.whole : ℚ) < (10 ^ 17 : Nat) := by
      push_cast
      exact hscale.trans_le hpow
    have hlimit : 10 ^ 17 ≤ tokenLimit := by decide
    exact absurd (Nat.cast_lt.mp hwhole) (hlimit.trans hle).not_gt
  exact (sub_nonneg.mpr hplaces).trans hexponent

end Number

section Sources

variable {source : String} {t stop : Token} {n : Number}

theorem tokens_pair (hitems : items source = [.token t, .token stop]) : tokens source = [t, stop] := by
  rw [tokens, hitems]
  rfl

/-- Two tokens of which the first is a number are read as its literal. -/
theorem Parsed.expression_of_number (hitems : items source = [.token t, .token stop]) (hkind : t.kind = .number n)
    (nextId : NodeId) : (ofSource expression source nextId).result = .ok (.literal (.number n)) := by
  have htokens := tokens_pair hitems
  have hstop : stop.kind = .eof := by
    obtain ⟨ts, last, hlast, -, heof⟩ := tokens_eq source
    have hpair : ts ++ [last] = [t] ++ [stop] := hlast.symm.trans htokens
    obtain rfl := List.singleton_injective (List.append_inj_right' hpair rfl)
    exact heof
  have hfaults : lexicalFaults source = [] := by rw [lexicalFaults, hitems]; rfl
  obtain ⟨kind, lexeme, line⟩ := t
  obtain ⟨stopKind, stopLexeme, stopLine⟩ := stop
  obtain rfl := hkind
  obtain rfl := hstop
  rw [ofSource, htokens, lexicalDiagnostics, hfaults]
  rfl

end Sources

/-- A source that is one number literal, of a finite value, is read as that literal. In a tree it is written as its digits
with a fraction of zero if it is whole, and otherwise as the shortest decimal that reads back. Beside its token the same
text stands, except for whole numbers from `2 ^ 63` on: there it is the shortest decimal, without a point. -/
theorem literal_columns (source : String) (nextId : NodeId) {t stop : Token} {n : Number}
    (hitems : items source = [.token t, .token stop]) (hkind : t.kind = .number n) (hfinite : n.isFinite = true) :
    ∃ e column, (Parsed.ofSource Parsed.expression source nextId).result = .ok e ∧
      t.text = "NUMBER " ++ t.lexeme ++ " " ++ column ∧
      (∀ k : Nat, size n.magnitude = k → e.render = toString k ++ ".0" ∧ (k < 2 ^ 63 → column = e.render) ∧
        (2 ^ 63 ≤ k → column ≠ e.render ∧ '.' ∉ column.toList ∧
          ∃ d, IsShortest d n.magnitude ∧ column.toList = d.positional)) ∧
      ((∀ k : Nat, size n.magnitude ≠ k) → column = e.render ∧
        ∃ d, IsShortest d n.magnitude ∧ e.render.toList = d.positional) := by
  have hpositive : n.isNegative = false := by
    have hmem : t ∈ (tokens source).dropLast := by
      rw [tokens_pair hitems]
      exact List.mem_singleton_self t
    exact Number.isNegative_of_lexeme (hkind ▸ lexeme_of_tokens hmem)
  refine ⟨_, n.inToken, Parsed.expression_of_number hitems hkind nextId, by rw [Token.text, hkind]; rfl, fun k hk => ?_,
    fun hfraction => ?_⟩
  · obtain ⟨hwhole, rfl⟩ := Number.whole_of_size hfinite hk
    have htree : (Expr.literal (.number n)).render = toString n.whole ++ ".0" := Number.inTree_of_isWhole hpositive hwhole
    refine ⟨htree, fun hlt => (Number.inToken_of_lt hpositive hwhole hlt).trans htree.symm, fun hle => ?_⟩
    have hcolumn := Number.inToken_of_le (n := n) hle
    obtain ⟨hshortest, htext⟩ := Number.plain_shortest hfinite hpositive (Number.isZero_of_le hle)
    rw [← hcolumn] at htext
    have hpoint : '.' ∉ n.inToken.toList := by
      rw [htext]
      exact Scaled.point_notMem (Number.exponent_nonneg hfinite hwhole hle)
    refine ⟨fun heq => hpoint ?_, hpoint, _, hshortest, htext⟩
    rw [heq, htree, String.toList_append]
    exact List.mem_append_right _ (by decide)
  · have hwhole : n.isWhole = false := Bool.eq_false_iff.mpr fun h => hfraction _ (Number.size_of_isWhole h)
    obtain ⟨htoken, htree⟩ := Number.inToken_of_fraction hfinite hwhole
    have htree : (Expr.literal (.number n)).render = n.plain := htree
    rw [htoken, htree]
    exact ⟨rfl, _, Number.plain_shortest hfinite hpositive (Number.isZero_of_fraction hfinite hwhole)⟩

/-- A literal that is rounded, below the limit. -/
theorem literal_columns_rounded :
    let source := "9007199254740993"
    let n : Number := ⟨0x4340000000000000⟩
    let t : Token := ⟨.number n, source, 1⟩
    items source = [.token t, .token ⟨.eof, "", 1⟩] ∧ t.kind = .number n ∧ n.isFinite = true ∧
      ∃ e column, (Parsed.ofSource Parsed.expression source 0).result = .ok e ∧
        t.text = "NUMBER 9007199254740993 " ++ column ∧ e.render = "9007199254740992.0" ∧ column = e.render := by
  intro source n t
  have hitems : items source = [.token t, .token ⟨.eof, "", 1⟩] := by decide +kernel
  have hfinite : n.isFinite = true := by decide
  have hsteps : steps n.magnitude = 9007199254740992 * unit := by decide +kernel
  obtain ⟨e, column, he, htext, hwhole, -⟩ := literal_columns source 0 hitems rfl hfinite
  obtain ⟨hrender, hbelow, -⟩ := hwhole _ (Number.size_eq_iff.mpr hsteps)
  exact ⟨hitems, rfl, hfinite, e, column, he, htext, hrender, hbelow (by decide)⟩

/-- At the limit a tree has all digits and a fraction, and the token does not. -/
theorem columns_differ_at_limit :
    let source := "9223372036854775808"
    let n : Number := ⟨0x43E0000000000000⟩
    let t : Token := ⟨.number n, source, 1⟩
    items source = [.token t, .token ⟨.eof, "", 1⟩] ∧ n.isFinite = true ∧
      t.text = "NUMBER 9223372036854775808 9223372036854776000" ∧
      (Parsed.ofSource Parsed.expression source 0).result.toOption.map Expr.render = some "9223372036854775808.0" := by
  decide +kernel

end LoxLang
