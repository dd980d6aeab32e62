import LoxLang.Decimal.Shortest
import Mathlib.Tactic

/-! Every finite double is read back from its own count of steps, and so from the decimal that is chosen for it. -/

namespace LoxLang.Decimal

theorem unit_pos : 0 < unit := by
  unfold unit
  -- the power is not to be computed
  generalize places = n
  exact Nat.two_pow_pos n

theorem roundQuotient_mul_left (num den : Nat) {k : Nat} (hk : 0 < k) :
    roundQuotient (k * num) (k * den) = roundQuotient num den := by
  unfold roundQuotient
  have hless : 2 * (k * (num % den)) < k * den ↔ 2 * (num % den) < den := by
    rw [Nat.mul_left_comm, Nat.mul_lt_mul_left hk]
  have hhalf : 2 * (k * (num % den)) = k * den ↔ 2 * (num % den) = den := by
    rw [Nat.mul_left_comm, Nat.mul_right_inj hk.ne']
  simp only [Nat.mul_div_mul_left _ _ hk, Nat.mul_mod_mul_left, hless, hhalf]

/-- Only the quotient counts. -/
theorem nearest_mul_left (num den : Nat) {k : Nat} (hk : 0 < k) : nearest (k * num) (k * den) = nearest num den := by
  unfold nearest
  simp only [Nat.mul_assoc, Nat.mul_div_mul_left _ _ hk, roundQuotient_mul_left _ _ hk]

/-- The exponent of the leading bit of a pattern's count of steps. -/
theorem log2_steps {bits : Nat} (h : binadeSize ≤ bits) : (steps bits).log2 = 52 + (bits / binadeSize - 1) := by
  have hfraction : bits % binadeSize < 2 ^ 52 := Nat.mod_lt _ (Nat.two_pow_pos 52)
  have hpos := Nat.two_pow_pos (bits / binadeSize - 1)
  rw [steps, if_neg (Nat.not_lt.mpr h)]
  change ((2 ^ 52 + bits % binadeSize) * 2 ^ (bits / binadeSize - 1)).log2 = _
  rw [Nat.log2_eq_iff (by positivity), Nat.pow_add, Nat.add_right_comm, Nat.pow_add _ (52 + 1)]
  exact ⟨Nat.mul_le_mul_right _ (by omega), Nat.mul_lt_mul_of_pos_right (by omega) hpos⟩

/-- The count of steps is the size of the double. -/
theorem nearest_steps {bits : Nat} (h : bits < infinity) : nearest (steps bits) unit = bits := by
  suffices hpattern : ((steps bits).log2 - 52) * binadeSize +
      roundQuotient (steps bits * unit) (unit * Nat.pow 2 ((steps bits).log2 - 52)) = bits by
    rw [nearest, Nat.mul_div_cancel _ unit_pos, hpattern, min_eq_right h.le]
  by_cases hnormal : binadeSize ≤ bits
  · have hpower : 0 < unit * Nat.pow 2 (bits / binadeSize - 1) := Nat.mul_pos unit_pos (Nat.two_pow_pos _)
    have hbinade : bits / binadeSize - 1 + 1 = bits / binadeSize :=
      Nat.sub_add_cancel (Nat.div_pos hnormal (Nat.two_pow_pos 52))
    rw [log2_steps hnormal, Nat.add_sub_cancel_left, steps, if_neg (Nat.not_lt.mpr hnormal), Nat.mul_assoc,
      Nat.mul_comm _ unit, roundQuotient_mul _ hpower, ← Nat.add_assoc, ← Nat.succ_mul, Nat.succ_eq_add_one, hbinade,
      Nat.mul_comm, Nat.div_add_mod]
  · have hlt : bits < binadeSize := Nat.lt_of_not_le hnormal
    have hzero : bits.log2 - 52 = 0 := by
      rcases Nat.eq_zero_or_pos bits with rfl | hpos
      · rfl
      · exact Nat.sub_eq_zero_of_le (Nat.le_of_lt ((Nat.log2_lt hpos.ne').mpr hlt))
    rw [steps_of_lt hlt, hzero, Nat.zero_mul, Nat.zero_add, Nat.pow_eq, Nat.pow_zero, Nat.mul_one,
      roundQuotient_mul bits unit_pos]

namespace Scaled

variable {d : Scaled}

theorem read_of_nonneg (h : 0 ≤ d.exponent) : d.read = nearest (d.digits * 10 ^ d.exponent.toNat) 1 := by
  have hzero : (-d.exponent).toNat = 0 := by omega
  rw [read, hzero]
  rfl

theorem read_of_neg (h : d.exponent < 0) : d.read = nearest d.digits (10 ^ (-d.exponent).toNat) := by
  have hzero : d.exponent.toNat = 0 := by omega
  rw [read, hzero]
  exact congrArg (nearest · _) (Nat.mul_one d.digits)

end Scaled

/-- A zero at the end of the digits is as good as an exponent that is higher by one. -/
theorem read_shift (n : Nat) (e : Int) : Scaled.read ⟨n, e + 1⟩ = Scaled.read ⟨10 * n, e⟩ := by
  rcases Int.lt_or_le e 0 with he | he
  · have hsucc : (-e).toNat = (-(e + 1)).toNat + 1 := by omega
    have hzero : (e + 1).toNat = 0 := by omega
    rw [Scaled.read_of_neg (d := ⟨10 * n, e⟩) he, Scaled.read]
    dsimp only
    rw [hsucc, hzero, Nat.pow_succ', nearest_mul_left _ _ (by decide)]
    exact congrArg (nearest · _) (Nat.mul_one n)
  · have hsucc : (e + 1).toNat = e.toNat + 1 := by omega
    rw [Scaled.read_of_nonneg (d := ⟨10 * n, e⟩) he, Scaled.read_of_nonneg (d := ⟨n, e + 1⟩) (by simp; omega)]
    dsimp only
    rw [hsucc, Nat.pow_succ', Nat.mul_left_comm, Nat.mul_assoc]

theorem read_stripZeros (k : Nat) (d : Scaled) : (stripZeros k d).read = d.read := by
  induction k generalizing d with
  | zero => rfl
  | succ k ih =>
    rw [stripZeros]
    split
    · rename_i hzero
      rw [ih, read_shift, Nat.mul_div_cancel' (Nat.dvd_of_mod_eq_zero hzero)]
    · rfl

theorem read_exact {bits : Nat} (h : bits < infinity) : (exact bits).read = bits := by
  have hneg : (exact bits).exponent < 0 := by
    simp only [exact, places]
    decide
  have hten : 10 ^ places = 5 ^ places * unit := by
    unfold unit
    generalize places = n
    rw [Nat.pow_eq, ← Nat.mul_pow]
  rw [Scaled.read_of_neg hneg]
  simp only [exact, Int.neg_neg, Int.toNat_natCast]
  rw [hten, Nat.pow_eq, Nat.mul_comm (steps bits), nearest_mul_left _ _ (Nat.pow_pos (by decide)), nearest_steps h]

/-- Whatever decimal is chosen for a finite double reads as that double. -/
theorem read_shortest (tie : Tie) {bits : Nat} (h : bits < infinity) : (shortest tie bits).read = bits := by
  unfold shortest
  dsimp only
  generalize hfound : List.findSome? _ _ = found
  cases found with
  | some d =>
    obtain ⟨n, -, hn⟩ := List.exists_of_findSome?_eq_some hfound
    exact (read_stripZeros 17 d).trans (read_of_onGrid hn)
  | none => exact read_exact h

end LoxLang.Decimal
