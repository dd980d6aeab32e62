import LoxLang.Proofs.Rendering.Rounding

/-! The decimal that is chosen for a double has the fewest digits of all that read back, and among those with as many
none is nearer. -/

namespace LoxLang.Decimal

/-- The number that a pattern stands for. -/
def size (bits : Nat) : ℚ := steps bits / unit

def Scaled.value (d : Scaled) : ℚ := d.digits * 10 ^ d.exponent

/-- Reads as the double, with the fewest digits, and is the nearest of those. -/
structure IsShortest (d : Scaled) (bits : Nat) : Prop where
  read : d.read = bits
  fewest : ∀ d' : Scaled, d'.read = bits → digitCount d.digits ≤ digitCount d'.digits
  nearest : ∀ d' : Scaled, d'.read = bits → digitCount d'.digits = digitCount d.digits →
    |d.value - size bits| ≤ |d'.value - size bits|

section Values

variable {d d' : Scaled} {bits : Nat}

theorem ten_zpow (e : Int) : (10 : ℚ) ^ e = Nat.pow 10 e.toNat / Nat.pow 10 (-e).toNat := by
  rcases Int.le_total 0 e with h | h
  · obtain ⟨k, rfl⟩ := Int.eq_ofNat_of_zero_le h
    simp
  · obtain ⟨k, hk⟩ := Int.exists_eq_neg_ofNat h
    subst hk
    simp

theorem pow_ten_pos (k : Nat) : (0 : ℚ) < Nat.pow 10 k := Nat.cast_pos.mpr (Nat.pow_pos (by decide))

theorem unit_cast_pos : (0 : ℚ) < unit := Nat.cast_pos.mpr unit_pos

/-- The value as the quotient that is rounded when it is read. -/
theorem Scaled.value_eq (d : Scaled) :
    d.value = ((d.digits * Nat.pow 10 d.exponent.toNat : Nat) : ℚ) / (Nat.pow 10 (-d.exponent).toNat : Nat) := by
  rw [value, ten_zpow, Nat.cast_mul, mul_div_assoc]

theorem nearest_mono_div {num den num' den' : Nat} (hden : 0 < den) (hden' : 0 < den')
    (h : (num : ℚ) / den ≤ num' / den') : nearest num den ≤ nearest num' den' := by
  rw [div_le_div_iff₀ (Nat.cast_pos.mpr hden) (Nat.cast_pos.mpr hden')] at h
  exact nearest_mono hden hden' (by exact_mod_cast h)

theorem read_mono (h : d.value ≤ d'.value) : d.read ≤ d'.read := by
  rw [d.value_eq, d'.value_eq] at h
  exact nearest_mono_div (Nat.pow_pos (by decide)) (Nat.pow_pos (by decide)) h

theorem read_le (hbits : bits < infinity) (h : d.value ≤ size bits) : d.read ≤ bits := by
  rw [d.value_eq] at h
  exact (nearest_mono_div (Nat.pow_pos (by decide)) unit_pos h).trans_eq (nearest_steps hbits)

theorem le_read (hbits : bits < infinity) (h : size bits ≤ d.value) : bits ≤ d.read := by
  rw [d.value_eq] at h
  exact (nearest_steps hbits).symm.trans_le (nearest_mono_div unit_pos (Nat.pow_pos (by decide)) h)

/-- What is between the double and a decimal that reads back reads back. -/
theorem read_of_between_below (hbits : bits < infinity) (hd : d.read = bits) (hlow : d.value ≤ d'.value)
    (hhigh : d'.value ≤ size bits) : d'.read = bits :=
  Nat.le_antisymm (read_le hbits hhigh) (hd ▸ read_mono hlow)

theorem read_of_between_above (hbits : bits < infinity) (hd : d.read = bits) (hlow : size bits ≤ d'.value)
    (hhigh : d'.value ≤ d.value) : d'.read = bits :=
  Nat.le_antisymm (hd ▸ read_mono hhigh) (le_read hbits hlow)

theorem read_of_close (hbits : bits < infinity) (h : |d.value - size bits| * 2 ^ 54 < size bits) : d.read = bits := by
  generalize hnum : d.digits * Nat.pow 10 d.exponent.toNat = num
  generalize hden : Nat.pow 10 (-d.exponent).toNat = den
  have hpos : (0 : ℚ) < den := hden ▸ pow_ten_pos _
  have hvalue : d.value = num / den := by rw [d.value_eq, hnum, hden]
  have hproduct : ∀ x : ℚ, x * (den * unit) = x * den * unit := fun x => (mul_assoc ..).symm
  have hvalue' : d.value * (den * unit) = num * unit := by rw [hvalue, hproduct, div_mul_cancel₀ _ hpos.ne']
  have hsize : size bits * (den * unit) = steps bits * den := by
    rw [size, mul_comm (den : ℚ), ← mul_assoc, div_mul_cancel₀ _ unit_cast_pos.ne']
  have hscale : (0 : ℚ) < den * unit := mul_pos hpos unit_cast_pos
  rw [← lt_div_iff₀ (by positivity), abs_lt] at h
  have hlow := mul_lt_mul_of_pos_right h.1 hscale
  have hhigh := mul_lt_mul_of_pos_right h.2 hscale
  rw [sub_mul, hvalue', hsize, neg_mul, div_mul_eq_mul_div, hsize] at hlow
  rw [sub_mul, hvalue', hsize, div_mul_eq_mul_div, hsize] at hhigh
  have hread : d.read = Decimal.nearest num den := by rw [Scaled.read, hnum, hden]
  rw [hread]
  refine nearest_of_close hbits ?_ ?_
  · have : (steps bits * den * 2 ^ 54 : ℚ) < num * unit * 2 ^ 54 + steps bits * den := by linarith
    exact_mod_cast this
  · have : (num * unit * 2 ^ 54 : ℚ) < steps bits * den * 2 ^ 54 + steps bits * den := by linarith
    exact_mod_cast this

end Values

section Grids

variable {bits m : Nat} {e : Int}

theorem le_gridBelow_iff : m ≤ gridBelow (steps bits) e ↔ (m : ℚ) * 10 ^ e ≤ size bits := by
  have hpos : 0 < unit * Nat.pow 10 e.toNat := Nat.mul_pos unit_pos (Nat.pow_pos (by decide))
  rw [size, gridBelow, Nat.le_div_iff_mul_le hpos, ten_zpow, ← mul_div_assoc,
    div_le_div_iff₀ (pow_ten_pos _) unit_cast_pos, ← Nat.cast_le (α := ℚ)]
  push_cast
  rw [← mul_assoc, mul_right_comm]

/-- The double is between two neighbours on a grid. -/
def below (bits : Nat) (e : Int) : Scaled := ⟨gridBelow (steps bits) e, e⟩

def above (bits : Nat) (e : Int) : Scaled := ⟨gridBelow (steps bits) e + 1, e⟩

theorem value_below_le : (below bits e).value ≤ size bits := le_gridBelow_iff.mp le_rfl

theorem lt_value_above : size bits < (above bits e).value :=
  lt_of_not_ge fun h => absurd (le_gridBelow_iff.mpr h) (Nat.not_succ_le_self _)

theorem le_value_below (h : (m : ℚ) * 10 ^ e ≤ size bits) : (m : ℚ) * 10 ^ e ≤ (below bits e).value :=
  mul_le_mul_of_nonneg_right (Nat.cast_le.mpr (le_gridBelow_iff.mpr h)) (by positivity)

theorem value_above_le (h : size bits < (m : ℚ) * 10 ^ e) : (above bits e).value ≤ (m : ℚ) * 10 ^ e := by
  have hlt : gridBelow (steps bits) e < m := by
    by_contra hle
    exact absurd (le_gridBelow_iff.mp (Nat.le_of_not_lt hle)) h.not_ge
  exact mul_le_mul_of_nonneg_right (Nat.cast_le.mpr hlt) (by positivity)

theorem value_above_eq : (above bits e).value = (below bits e).value + 10 ^ e := by
  rw [Scaled.value, Scaled.value, above, below]
  push_cast
  ring

end Grids

section Scales

variable {n k : Nat}

theorem digitCount_pos : 0 < digitCount n := Nat.length_toDigits_pos

theorem digitCount_le_iff (hk : 0 < k) : digitCount n ≤ k ↔ n < 10 ^ k := Nat.length_toDigits_le_iff (by decide) hk

theorem lt_pow_digitCount : n < 10 ^ digitCount n := (digitCount_le_iff digitCount_pos).mp le_rfl

theorem pow_digitCount_le (hn : 0 < n) : 10 ^ (digitCount n - 1) ≤ n := by
  rcases Nat.eq_or_lt_of_le (Nat.succ_le_of_lt (digitCount_pos (n := n))) with hone | hlt
  · rw [← hone]
    exact hn
  · by_contra h
    have := (digitCount_le_iff (n := n) (k := digitCount n - 1) (by omega)).mpr (Nat.lt_of_not_le h)
    omega

/-- The place of the leading digit. -/
theorem decimalScale_spec {bits : Nat} (hbits : 0 < steps bits) : (10 : ℚ) ^ (decimalScale (steps bits) - 1) ≤ size bits ∧
    size bits < 10 ^ decimalScale (steps bits) := by
  unfold size decimalScale
  generalize steps bits = count at *
  split
  · rename_i hunit
    have hpos : 0 < count / unit := Nat.div_pos hunit unit_pos
    have hexponent : (digitCount (count / unit) : Int) - 1 = (digitCount (count / unit) - 1 : Nat) := by
      rw [Nat.cast_sub (digitCount_pos (n := count / unit)), Nat.cast_one]
    rw [hexponent, zpow_natCast, zpow_natCast, le_div_iff₀ unit_cast_pos, div_lt_iff₀ unit_cast_pos]
    have hle : 10 ^ (digitCount (count / unit) - 1) * unit ≤ count :=
      (Nat.le_div_iff_mul_le unit_pos).mp (pow_digitCount_le hpos)
    have hlt : count < 10 ^ digitCount (count / unit) * unit := (Nat.div_lt_iff_lt_mul unit_pos).mp lt_pow_digitCount
    exact ⟨by exact_mod_cast hle, by exact_mod_cast hlt⟩
  · rename_i hunit
    have hpos : 0 < (unit - 1) / count := Nat.div_pos (by omega) hbits
    generalize hw : (unit - 1) / count = w at *
    have hdiv : w * count ≤ unit - 1 := (Nat.le_div_iff_mul_le hbits).mp hw.ge
    have hdiv' : unit - 1 < (w + 1) * count := (Nat.div_lt_iff_lt_mul hbits).mp (by omega)
    have hexponent : 1 - (digitCount w : Int) = -(digitCount w - 1 : Nat) := by
      rw [Nat.cast_sub (digitCount_pos (n := w)), Nat.cast_one, neg_sub]
    have hexponent' : 1 - (digitCount w : Int) - 1 = -(digitCount w : Nat) := by omega
    rw [hexponent', hexponent, zpow_neg, zpow_neg, zpow_natCast, zpow_natCast, inv_le_iff_one_le_mul₀ (by positivity),
      div_lt_iff₀ unit_cast_pos, inv_mul_eq_div, lt_div_iff₀ (by positivity), div_mul_eq_mul_div,
      le_div_iff₀ unit_cast_pos, one_mul]
    have hle : unit ≤ count * 10 ^ digitCount w := by
      calc unit ≤ (w + 1) * count := by omega
        _ ≤ 10 ^ digitCount w * count := Nat.mul_le_mul_right _ lt_pow_digitCount
        _ = count * 10 ^ digitCount w := Nat.mul_comm _ _
    have hlt : count * 10 ^ (digitCount w - 1) < unit := by
      calc count * 10 ^ (digitCount w - 1) ≤ count * w := Nat.mul_le_mul_left _ (pow_digitCount_le hpos)
        _ = w * count := Nat.mul_comm _ _
        _ < unit := by have := unit_pos; omega
    exact ⟨by exact_mod_cast hle, by exact_mod_cast hlt⟩

end Scales

section Search

variable {bits : Nat} {d : Scaled} {e : Int} {tie : Tie}

theorem steps_pos (hpos : 0 < bits) : 0 < steps bits := by
  unfold steps
  split
  · exact hpos
  · exact Nat.mul_pos (Nat.add_pos_left (by decide) _) (Nat.two_pow_pos _)

theorem choose_eq_none {α : Type} {passes : α → Bool} {first second : α} {preferSecond : Bool}
    (h : choose passes first second preferSecond = none) : passes first = false ∧ passes second = false := by
  unfold choose at h
  cases hfirst : passes first <;> cases hsecond : passes second <;> cases preferSecond <;> simp_all

theorem choose_eq_some {α : Type} {passes : α → Bool} {first second c : α} {preferSecond : Bool}
    (h : choose passes first second preferSecond = some c) :
    (c = first ∧ passes first = true ∧ (passes second = true → preferSecond = false)) ∨
      (c = second ∧ passes second = true ∧ (passes first = true → preferSecond = true)) := by
  unfold choose at h
  cases hfirst : passes first <;> cases hsecond : passes second <;> cases preferSecond <;> simp_all

/-- A decimal of so many digits is on the grid of that many places of the double, or below the leading place. -/
theorem onGrid_or_below (bits : Nat) (d : Scaled) :
    (∃ m : Nat, d.value = m * 10 ^ (decimalScale (steps bits) - digitCount d.digits)) ∨
      d.value < 10 ^ (decimalScale (steps bits) - 1) := by
  generalize decimalScale (steps bits) = scale
  rcases le_or_gt (scale - digitCount d.digits) d.exponent with hle | hlt
  · obtain ⟨k, hk⟩ := Int.eq_ofNat_of_zero_le (Int.sub_nonneg_of_le hle)
    refine .inl ⟨d.digits * 10 ^ k, ?_⟩
    have hexponent : d.exponent = k + (scale - digitCount d.digits) := by omega
    rw [Scaled.value, hexponent, zpow_add₀ (by norm_num), zpow_natCast]
    push_cast
    rw [mul_assoc]
  · refine .inr ?_
    have hdigits : (d.digits : ℚ) < 10 ^ digitCount d.digits := by exact_mod_cast lt_pow_digitCount
    have hpow : (0 : ℚ) < 10 ^ d.exponent := by positivity
    calc d.value < 10 ^ digitCount d.digits * 10 ^ d.exponent := mul_lt_mul_of_pos_right hdigits hpow
      _ = 10 ^ (digitCount d.digits + d.exponent) := by rw [zpow_add₀ (by norm_num), zpow_natCast]
      _ ≤ 10 ^ (scale - 1) := zpow_le_zpow_right₀ (by norm_num) (by omega)

/-- If a decimal of so many digits reads back, then so does the neighbour of the double on that grid that is on the same
side of it, and it is no farther. -/
theorem neighbour_of_read (hbits : bits < infinity) (hpos : 0 < bits) (hd : d.read = bits)
    (he : decimalScale (steps bits) - digitCount d.digits = e) :
    (d.value ≤ (below bits e).value ∧ (below bits e).read = bits) ∨
      ((above bits e).value ≤ d.value ∧ (above bits e).read = bits) := by
  obtain ⟨hscale, -⟩ := decimalScale_spec (steps_pos hpos)
  have hcases := onGrid_or_below bits d
  rw [he] at hcases
  rcases le_or_gt d.value (size bits) with hle | hgt
  · have hgrid : d.value ≤ (below bits e).value := by
      rcases hcases with ⟨m, hm⟩ | hlt
      · exact hm.trans_le (le_value_below (hm ▸ hle))
      · -- the leading place itself is on the grid
        have hplaces := digitCount_pos (n := d.digits)
        have hpoint : ((10 ^ (digitCount d.digits - 1) : Nat) : ℚ) * 10 ^ e = 10 ^ (decimalScale (steps bits) - 1) := by
          have hexponent : ((digitCount d.digits - 1 : Nat) : Int) + e = decimalScale (steps bits) - 1 := by omega
          rw [← hexponent, zpow_add₀ (by norm_num), zpow_natCast, Nat.cast_pow, Nat.cast_ofNat]
        exact hlt.le.trans (hpoint.symm.trans_le (le_value_below (hpoint.trans_le hscale)))
    exact .inl ⟨hgrid, read_of_between_below hbits hd hgrid value_below_le⟩
  · obtain ⟨m, hm⟩ := hcases.resolve_right fun hlt => absurd (hlt.trans_le hscale) hgt.not_gt
    have hgrid : (above bits e).value ≤ d.value := (value_above_le (hm ▸ hgt)).trans_eq hm.symm
    exact .inr ⟨hgrid, read_of_between_above hbits hd lt_value_above.le hgrid⟩

theorem onGrid_eq (tie : Tie) (bits : Nat) (e : Int) : onGrid tie bits e = choose (fun d => d.read == bits)
    (below bits e) (above bits e) (nearerAbove tie (steps bits) (gridBelow (steps bits) e) e) := rfl

theorem onGrid_isSome_of_read (tie : Tie) (h : (below bits e).read = bits ∨ (above bits e).read = bits) :
    (onGrid tie bits e).isSome = true := by
  by_contra hnone
  rw [Option.not_isSome_iff_eq_none, onGrid_eq] at hnone
  obtain ⟨hfirst, hsecond⟩ := choose_eq_none hnone
  exact h.elim (beq_eq_false_iff_ne.mp hfirst) (beq_eq_false_iff_ne.mp hsecond)

/-- Seventeen digits are enough. -/
theorem onGrid_seventeen (tie : Tie) (hbits : bits < infinity) (hpos : 0 < bits) :
    (onGrid tie bits (decimalScale (steps bits) - 17)).isSome = true := by
  obtain ⟨hscale, -⟩ := decimalScale_spec (steps_pos hpos)
  generalize he : decimalScale (steps bits) - 17 = e
  have hspacing : (10 : ℚ) ^ e * 10 ^ 16 ≤ size bits := by
    have hexponent : decimalScale (steps bits) - 1 = e + (16 : Nat) := by omega
    rw [hexponent, zpow_add₀ (by norm_num), zpow_natCast] at hscale
    exact hscale
  have hpow : (0 : ℚ) < 10 ^ e := by positivity
  have hlow : (below bits e).value ≤ size bits := value_below_le
  have hhigh : size bits < (above bits e).value := lt_value_above
  have hgap : (above bits e).value = (below bits e).value + 10 ^ e := value_above_eq
  refine onGrid_isSome_of_read tie ?_
  rcases le_total (size bits - (below bits e).value) ((above bits e).value - size bits) with hnear | hnear
  · refine .inl (read_of_close hbits ?_)
    rw [abs_sub_comm, abs_of_nonneg (sub_nonneg.mpr hlow)]
    linarith
  · refine .inr (read_of_close hbits ?_)
    rw [abs_of_pos (sub_pos.mpr hhigh)]
    linarith

/-- Both sides of the comparison with the middle, as numbers. -/
theorem compareMiddle_cast (bits : Nat) (e : Int) : ∃ k : ℚ, 0 < k ∧
    ((2 * steps bits * Nat.pow 10 (-e).toNat : Nat) : ℚ) = 2 * size bits * k ∧
    (((2 * gridBelow (steps bits) e + 1) * unit * Nat.pow 10 e.toNat : Nat) : ℚ) =
      ((below bits e).value + (above bits e).value) * k := by
  have hpow : (10 : ℚ) ^ e * (Nat.pow 10 (-e).toNat : Nat) = (Nat.pow 10 e.toNat : Nat) := by
    rw [ten_zpow, div_mul_cancel₀ _ (pow_ten_pos _).ne']
  have hpos := pow_ten_pos (-e).toNat
  have hunit := unit_cast_pos
  rw [value_above_eq, Scaled.value, below, size]
  generalize Nat.pow 10 (-e).toNat = p at *
  generalize Nat.pow 10 e.toNat = q at *
  generalize gridBelow (steps bits) e = n
  generalize steps bits = s
  generalize unit = u at *
  dsimp only
  generalize (10 : ℚ) ^ e = t at *
  refine ⟨u * p, mul_pos hunit hpos, ?_, ?_⟩
  · push_cast
    field_simp
  · push_cast
    rw [← hpow]
    ring

theorem ne_lt_of_prefersNext {n : Nat} {o : Ordering} (h : tie.prefersNext n o = true) : o ≠ .lt := by
  rintro rfl
  cases h

theorem ne_gt_of_prefersNext {n : Nat} {o : Ordering} (h : tie.prefersNext n o = false) : o ≠ .gt := by
  rintro rfl
  cases h

/-- The preferred neighbour is the nearer one. -/
theorem le_of_nearerAbove (h : nearerAbove tie (steps bits) (gridBelow (steps bits) e) e = true) :
    (above bits e).value - size bits ≤ size bits - (below bits e).value := by
  have hne := ne_lt_of_prefersNext h
  rw [compareMiddle, Nat.compare_ne_lt, ← Nat.cast_le (α := ℚ)] at hne
  obtain ⟨k, hk, hsize, hmiddle⟩ := compareMiddle_cast bits e
  rw [hsize, hmiddle, mul_le_mul_iff_left₀ hk] at hne
  linarith

theorem le_of_not_nearerAbove (h : nearerAbove tie (steps bits) (gridBelow (steps bits) e) e = false) :
    size bits - (below bits e).value ≤ (above bits e).value - size bits := by
  have hne := ne_gt_of_prefersNext h
  rw [compareMiddle, Nat.compare_ne_gt, ← Nat.cast_le (α := ℚ)] at hne
  obtain ⟨k, hk, hsize, hmiddle⟩ := compareMiddle_cast bits e
  rw [hsize, hmiddle, mul_le_mul_iff_left₀ hk] at hne
  linarith

/-- What is chosen on a grid is no farther than what is on the outer side of a neighbour that reads back. -/
theorem onGrid_nearest (h : onGrid tie bits e = some d) {d' : Scaled}
    (hd' : (d'.value ≤ (below bits e).value ∧ (below bits e).read = bits) ∨
      ((above bits e).value ≤ d'.value ∧ (above bits e).read = bits)) : |d.value - size bits| ≤ |d'.value - size bits| := by
  have hlow : (below bits e).value ≤ size bits := value_below_le
  have hhigh : size bits < (above bits e).value := lt_value_above
  rw [onGrid_eq] at h
  have hdistance : ((below bits e).read = bits ∧ size bits - (below bits e).value ≤ |d'.value - size bits|) ∨
      ((above bits e).read = bits ∧ (above bits e).value - size bits ≤ |d'.value - size bits|) := by
    rcases hd' with ⟨hle, hread⟩ | ⟨hle, hread⟩
    · exact .inl ⟨hread, by rw [abs_sub_comm]; exact (sub_le_sub_left hle _).trans (le_abs_self _)⟩
    · exact .inr ⟨hread, (sub_le_sub_right hle _).trans (le_abs_self _)⟩
  rcases choose_eq_some h with ⟨rfl, -, hsecond⟩ | ⟨rfl, -, hfirst⟩
  · rw [abs_sub_comm, abs_of_nonneg (sub_nonneg.mpr hlow)]
    rcases hdistance with ⟨-, hle⟩ | ⟨hread, hle⟩
    · exact hle
    · exact (le_of_not_nearerAbove (hsecond (beq_iff_eq.mpr hread))).trans hle
  · rw [abs_of_pos (sub_pos.mpr hhigh)]
    rcases hdistance with ⟨hread, hle⟩ | ⟨-, hle⟩
    · exact (le_of_nearerAbove (hfirst (beq_iff_eq.mpr hread))).trans hle
    · exact hle

end Search

section Digits

variable {c k : Nat} {d : Scaled}

theorem digits_stripZeros_le (c : Nat) (d : Scaled) : (stripZeros c d).digits ≤ d.digits := by
  induction c generalizing d with
  | zero => rfl
  | succ c ih =>
    rw [stripZeros]
    split
    · exact (ih _).trans (Nat.div_le_self _ _)
    · rfl

theorem value_stripZeros (c : Nat) (d : Scaled) : (stripZeros c d).value = d.value := by
  induction c generalizing d with
  | zero => rfl
  | succ c ih =>
    rw [stripZeros]
    split
    · rename_i hzero
      have hdigits : (d.digits : ℚ) = (d.digits / 10 : Nat) * 10 := by
        exact_mod_cast (Nat.div_mul_cancel (Nat.dvd_of_mod_eq_zero hzero)).symm
      rw [ih, Scaled.value, Scaled.value, hdigits, zpow_add_one₀ (by norm_num)]
      ring
    · rfl

theorem le_exponent_stripZeros (c : Nat) (d : Scaled) : d.exponent ≤ (stripZeros c d).exponent := by
  induction c generalizing d with
  | zero => rfl
  | succ c ih =>
    rw [stripZeros]
    split
    · exact (Int.le_add_one le_rfl).trans (ih _)
    · rfl

/-- A power of ten is left with one digit. -/
theorem digits_stripZeros_lt (hk : k < c) (h : d.digits ≤ 10 ^ (k + 1)) : (stripZeros c d).digits < 10 ^ (k + 1) := by
  induction c generalizing d k with
  | zero => cases hk
  | succ c ih =>
    rw [stripZeros]
    split
    · cases k with
      | zero =>
        have hle := digits_stripZeros_le c ⟨d.digits / 10, d.exponent + 1⟩
        dsimp only at hle
        omega
      | succ k =>
        have hdiv : d.digits / 10 ≤ 10 ^ (k + 1) := Nat.div_le_of_le_mul (h.trans_eq (Nat.pow_succ' ..))
        exact (ih (d := ⟨d.digits / 10, d.exponent + 1⟩) (Nat.lt_of_succ_lt_succ hk) hdiv).trans
          (Nat.pow_lt_pow_succ (by decide))
    · rename_i hzero
      refine Nat.lt_of_le_of_ne h fun heq => hzero ?_
      rw [heq, Nat.pow_succ, Nat.mul_mod_left]

end Digits

section Shortest

variable {bits n : Nat} {d : Scaled} {tie : Tie}

theorem exists_first_of_findSome {α : Type} {c : Nat} {f : Nat → Option α} {a : α} (h : (List.range c).findSome? f = some a) :
    ∃ n < c, f n = some a ∧ ∀ k < n, f k = none := by
  obtain ⟨l₁, n, l₂, hrange, hn, hnone⟩ := List.findSome?_eq_some_iff.mp h
  have hmem : ∀ k, k ∈ l₁ ++ n :: l₂ ↔ k < c := fun k => hrange ▸ List.mem_range
  refine ⟨n, (hmem n).mp (List.mem_append_right _ List.mem_cons_self), hn, fun k hk => ?_⟩
  have hlt : k < c := hk.trans ((hmem n).mp (List.mem_append_right _ List.mem_cons_self))
  have hsorted : (l₁ ++ n :: l₂).Pairwise (· < ·) := hrange ▸ List.pairwise_lt_range
  rcases List.mem_append.mp ((hmem k).mpr hlt) with hleft | hright
  · exact hnone k hleft
  · rcases List.mem_cons.mp hright with rfl | hright
    · exact absurd hk (lt_irrefl _)
    · exact absurd (List.rel_of_pairwise_cons (List.pairwise_append.mp hsorted).2.1 hright) hk.not_gt

/-- The search finds the first of the finer and finer grids with a neighbour that reads back. -/
theorem exists_grid (tie : Tie) (hbits : bits < infinity) (hpos : 0 < bits) : ∃ n < 17, ∃ d,
    onGrid tie bits (decimalScale (steps bits) - (n + 1 : Nat)) = some d ∧
    (∀ k < n, onGrid tie bits (decimalScale (steps bits) - (k + 1 : Nat)) = none) ∧
    shortest tie bits = stripZeros 17 d := by
  unfold shortest
  dsimp only
  generalize hfound : (List.range 17).findSome? _ = found
  cases found with
  | none =>
    have hlast := List.findSome?_eq_none_iff.mp hfound 16 (List.mem_range.mpr (by decide))
    have hsome := onGrid_seventeen tie hbits hpos
    exact absurd (hlast ▸ hsome) (by decide)
  | some d =>
    obtain ⟨n, hn, hd, hnone⟩ := exists_first_of_findSome hfound
    exact ⟨n, hn, d, hd, hnone, rfl⟩

theorem exponent_onGrid {e : Int} (h : onGrid tie bits e = some d) : d.exponent = e := by
  rw [onGrid_eq] at h
  rcases choose_eq_some h with ⟨rfl, -⟩ | ⟨rfl, -⟩ <;> rfl

/-- There are no places behind the seventeenth. -/
theorem le_exponent_shortest (tie : Tie) (hbits : bits < infinity) (hpos : 0 < bits) :
    decimalScale (steps bits) - 17 ≤ (shortest tie bits).exponent := by
  obtain ⟨n, hn, d, hd, -, hshortest⟩ := exists_grid tie hbits hpos
  have hexponent := le_exponent_stripZeros 17 d
  rw [exponent_onGrid hd] at hexponent
  rw [hshortest]
  exact (sub_le_sub_left (by omega) _).trans hexponent

theorem digits_onGrid_le (hpos : 0 < bits) (h : onGrid tie bits (decimalScale (steps bits) - n) = some d) :
    d.digits ≤ 10 ^ n := by
  obtain ⟨-, hscale⟩ := decimalScale_spec (steps_pos hpos)
  generalize he : decimalScale (steps bits) - n = e at h
  have hgrid : gridBelow (steps bits) e < 10 ^ n := by
    have hlow : (below bits e).value ≤ size bits := value_below_le
    have hsplit : decimalScale (steps bits) = n + e := by omega
    rw [hsplit, zpow_add₀ (by norm_num), zpow_natCast] at hscale
    have := lt_of_mul_lt_mul_right (hlow.trans_lt hscale) (by positivity)
    exact_mod_cast this
  rw [onGrid_eq] at h
  rcases choose_eq_some h with ⟨rfl, -⟩ | ⟨rfl, -⟩
  · exact hgrid.le
  · exact hgrid

/-- The decimal that is written for a double has the fewest digits and is the nearest. -/
theorem isShortest_shortest (tie : Tie) (hbits : bits < infinity) (hpos : 0 < bits) : IsShortest (shortest tie bits) bits := by
  obtain ⟨n, hn, d, hd, hnone, hshortest⟩ := exists_grid tie hbits hpos
  have hdigits : digitCount (stripZeros 17 d).digits ≤ n + 1 :=
    (digitCount_le_iff n.succ_pos).mpr (digits_stripZeros_lt hn (digits_onGrid_le hpos hd))
  -- With fewer digits it would have a neighbour on a coarser grid, and those were tried first.
  have hfewest : ∀ d' : Scaled, d'.read = bits → n + 1 ≤ digitCount d'.digits := fun d' hd' => by
    by_contra hlt
    obtain ⟨k, hk⟩ := Nat.exists_eq_add_one_of_ne_zero (digitCount_pos (n := d'.digits)).ne'
    have hneighbour := neighbour_of_read hbits hpos hd' rfl
    rw [hk] at hneighbour
    have hsome := onGrid_isSome_of_read tie (hneighbour.imp And.right And.right)
    rw [hnone k (by omega)] at hsome
    cases hsome
  rw [hshortest]
  refine ⟨hshortest ▸ read_shortest tie hbits, fun d' hd' => hdigits.trans (hfewest d' hd'), fun d' hd' hcount => ?_⟩
  have hplaces : digitCount d'.digits = n + 1 := Nat.le_antisymm (hcount.trans_le hdigits) (hfewest d' hd')
  have hneighbour := neighbour_of_read hbits hpos hd' rfl
  rw [hplaces] at hneighbour
  rw [value_stripZeros]
  exact onGrid_nearest hd hneighbour

end Shortest

end LoxLang.Decimal
