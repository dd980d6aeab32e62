import LoxLang.Proofs.Rendering.Decimals

/-! Rounding to doubles: a greater quotient is not rounded to a smaller double, and what is close to a double is rounded
to it. -/

namespace LoxLang.Decimal

section Quotients

variable {num den num' den' m : Nat}

/-- Less than a half away from a natural. -/
theorem roundQuotient_eq (hlow : 2 * m * den < 2 * num + den) (hhigh : 2 * num < (2 * m + 1) * den) :
    roundQuotient num den = m := by
  have hdiv := Nat.div_add_mod num den
  have hmod : num % den < den := Nat.mod_lt num (Nat.pos_of_lt_mul_left hhigh)
  unfold roundQuotient
  dsimp only
  generalize num / den = q at *
  generalize num % den = r at *
  subst hdiv
  have hle : q ≤ m := by
    by_contra hlt
    have := Nat.mul_le_mul_left den (Nat.lt_of_not_le hlt)
    nlinarith
  have hge : m ≤ q + 1 := by
    by_contra hlt
    have := Nat.mul_le_mul_left den (Nat.lt_of_not_le hlt)
    nlinarith
  rcases Nat.eq_or_lt_of_le hle with rfl | hlt
  · rw [if_pos (.inl (by nlinarith))]
  · obtain rfl : m = q + 1 := by omega
    have hgt : den < 2 * r := by nlinarith
    rw [if_neg (by omega)]

theorem roundQuotient_le (h : num < m * den) : roundQuotient num den ≤ m := by
  have hdiv : num / den < m := (Nat.div_lt_iff_lt_mul (Nat.pos_of_lt_mul_left h)).mpr h
  unfold roundQuotient
  dsimp only
  split <;> omega

theorem le_roundQuotient (hden : 0 < den) (h : m * den ≤ num) : m ≤ roundQuotient num den := by
  have hdiv : m ≤ num / den := (Nat.le_div_iff_mul_le hden).mpr h
  unfold roundQuotient
  dsimp only
  split <;> omega

theorem roundQuotient_mono (hden : 0 < den) (hden' : 0 < den') (h : num * den' ≤ num' * den) :
    roundQuotient num den ≤ roundQuotient num' den' := by
  have hdiv := Nat.div_add_mod num den
  have hdiv' := Nat.div_add_mod num' den'
  have hmod := Nat.mod_lt num hden
  have hmod' := Nat.mod_lt num' hden'
  unfold roundQuotient
  dsimp only
  generalize num / den = q at *
  generalize num % den = r at *
  generalize num' / den' = q' at *
  generalize num' % den' = r' at *
  subst hdiv hdiv'
  have hq : q ≤ q' := by
    by_contra hlt
    have := Nat.mul_le_mul_left (den * den') (Nat.lt_of_not_le hlt)
    nlinarith
  rcases Nat.eq_or_lt_of_le hq with rfl | hlt
  · -- of one whole part, the greater rest is rounded up if the other is
    have hr : r * den' ≤ r' * den := by nlinarith
    have hup : den ≤ 2 * r → den' ≤ 2 * r' := fun hr₂ => by
      by_contra hlt
      have := Nat.mul_lt_mul_of_pos_right (Nat.lt_of_not_le hlt) hden
      nlinarith
    have hup' : den < 2 * r → den' < 2 * r' := fun hr₂ => by
      by_contra hlt
      have := Nat.mul_le_mul_right den (Nat.le_of_not_lt hlt)
      nlinarith
    split <;> split <;> omega
  · split <;> split <;> omega

end Quotients

section Binades

variable {num den num' den' b : Nat}

/-- The number of steps is in the binade, or below all of them. -/
structure InBinade (num den b : Nat) : Prop where
  lt : num * unit < 2 ^ 53 * (den * 2 ^ b)
  le : b = 0 ∨ 2 ^ 52 * (den * 2 ^ b) ≤ num * unit

theorem InBinade.pos (h : InBinade num den b) : 0 < den * 2 ^ b := Nat.pos_of_lt_mul_left h.lt

theorem nearest_of_inBinade (h : InBinade num den b) :
    nearest num den = min infinity (b * binadeSize + roundQuotient (num * unit) (den * 2 ^ b)) := by
  have hden : 0 < den := Nat.pos_of_mul_pos_right h.pos
  have hlt : num * unit / den < 2 ^ (53 + b) := by
    rw [Nat.div_lt_iff_lt_mul hden, Nat.pow_add]
    exact h.lt.trans_eq (by ring)
  have hbinade : (num * unit / den).log2 - 52 = b := by
    rcases Nat.eq_zero_or_pos (num * unit / den) with hzero | hpos
    · rcases h.le with rfl | hle
      · rw [hzero]
        rfl
      · rw [Nat.div_eq_zero_iff_lt hden] at hzero
        have hone := Nat.one_le_two_pow (n := b)
        nlinarith
    · have hupper := (Nat.log2_lt hpos.ne').mpr hlt
      rcases h.le with rfl | hle
      · omega
      · have hlower : 2 ^ (52 + b) ≤ num * unit / den := by
          rw [Nat.le_div_iff_mul_le hden, Nat.pow_add]
          exact le_of_eq_of_le (by ring) hle
        have := (Nat.le_log2 hpos.ne').mpr hlower
        omega
  rw [nearest, hbinade]
  rfl

theorem exists_inBinade (num : Nat) (hden : 0 < den) : ∃ b, InBinade num den b := by
  refine ⟨(num * unit / den).log2 - 52, ?_, ?_⟩
  · have hlt : num * unit / den < 2 ^ (53 + ((num * unit / den).log2 - 52)) :=
      Nat.lt_log2_self.trans_le (Nat.pow_le_pow_right (by decide) (by omega))
    rw [Nat.div_lt_iff_lt_mul hden, Nat.pow_add] at hlt
    exact hlt.trans_eq (by ring)
  · rcases Nat.lt_or_ge 52 (num * unit / den).log2 with hlog | hlog
    · have hne : num * unit / den ≠ 0 := by
        intro hzero
        rw [hzero] at hlog
        exact absurd hlog (by decide)
      have hle := Nat.log2_self_le hne
      rw [← Nat.add_sub_cancel' hlog.le, Nat.le_div_iff_mul_le hden, Nat.pow_add] at hle
      exact .inr (le_of_eq_of_le (by ring) hle)
    · exact .inl (Nat.sub_eq_zero_of_le hlog)

theorem nearest_mono (hden : 0 < den) (hden' : 0 < den') (h : num * den' ≤ num' * den) :
    nearest num den ≤ nearest num' den' := by
  obtain ⟨b, hb⟩ := exists_inBinade num hden
  obtain ⟨b', hb'⟩ := exists_inBinade num' hden'
  have hsteps : num * unit * den' ≤ num' * unit * den := by nlinarith
  rw [nearest_of_inBinade hb, nearest_of_inBinade hb']
  refine min_le_min_left _ ?_
  rcases Nat.lt_trichotomy b b' with hlt | rfl | hgt
  · -- a significand that is rounded up to the next binade is not above the least one there
    have hlow : roundQuotient (num * unit) (den * 2 ^ b) ≤ 2 ^ 53 := roundQuotient_le hb.lt
    have hhigh : 2 ^ 52 ≤ roundQuotient (num' * unit) (den' * 2 ^ b') :=
      le_roundQuotient hb'.pos (hb'.le.resolve_left (by omega))
    have hsize : binadeSize = 2 ^ 52 := rfl
    rw [hsize]
    nlinarith
  · refine Nat.add_le_add_left (roundQuotient_mono hb.pos hb'.pos ?_) _
    nlinarith [Nat.two_pow_pos b]
  · exfalso
    have hlow := hb.le.resolve_left (by omega)
    have hhigh := hb'.lt
    have hpow : 2 * 2 ^ b' ≤ 2 ^ b := by
      rw [← Nat.pow_succ']
      exact Nat.pow_le_pow_right (by decide) hgt
    have h₁ := Nat.mul_le_mul_right den' hlow
    have h₂ := Nat.mul_lt_mul_of_pos_right hhigh hden
    have h₃ := Nat.mul_le_mul_left (2 ^ 52 * den * den') hpow
    nlinarith

end Binades

section Closeness

variable {num den bits : Nat}

/-- A pattern as a significand and a binade. -/
theorem exists_significand (bits : Nat) : ∃ b m, bits = b * 2 ^ 52 + m ∧ steps bits = m * 2 ^ b ∧ m < 2 ^ 53 ∧
    (b = 0 ∨ 2 ^ 52 ≤ m) := by
  by_cases hnormal : bits < binadeSize
  · exact ⟨0, bits, by omega, by rw [steps_of_lt hnormal, Nat.pow_zero, Nat.mul_one], Nat.lt_of_lt_of_le hnormal (by decide), .inl rfl⟩
  · have hpos : 0 < bits / binadeSize := Nat.div_pos (Nat.le_of_not_lt hnormal) (by decide)
    have hmod : bits % binadeSize < 2 ^ 52 := Nat.mod_lt _ (by decide)
    have hdiv : 2 ^ 52 * (bits / binadeSize) + bits % binadeSize = bits := Nat.div_add_mod bits binadeSize
    exact ⟨bits / binadeSize - 1, 2 ^ 52 + bits % binadeSize, by omega, by rw [steps, if_neg hnormal]; rfl, by omega,
      .inr (Nat.le_add_right _ _)⟩

/-- What differs from a double by less than one part in `2 ^ 54` of it is rounded to it. -/
theorem nearest_of_close (hbits : bits < infinity)
    (hlow : steps bits * den * 2 ^ 54 < num * unit * 2 ^ 54 + steps bits * den)
    (hhigh : num * unit * 2 ^ 54 < steps bits * den * 2 ^ 54 + steps bits * den) : nearest num den = bits := by
  obtain ⟨b, m, hpattern, hsteps, hm, hb⟩ := exists_significand bits
  have hproduct : steps bits * den = m * (den * 2 ^ b) := by rw [hsteps]; ring
  have hinfinity : min infinity (b * binadeSize + m) = bits := by
    rw [hpattern] at hbits
    exact (min_eq_right hbits.le).trans hpattern.symm
  rw [hproduct] at hlow hhigh
  have hpos : 0 < den * 2 ^ b := by
    by_contra hzero
    rw [Nat.eq_zero_of_not_pos hzero] at hhigh
    omega
  have hbelow : m * (den * 2 ^ b) + den * 2 ^ b ≤ 2 ^ 53 * (den * 2 ^ b) := by
    rw [← Nat.succ_mul]
    exact Nat.mul_le_mul_right _ hm
  by_cases hinside : b = 0 ∨ 2 ^ 52 * (den * 2 ^ b) ≤ num * unit
  · have hround : roundQuotient (num * unit) (den * 2 ^ b) = m := by
      refine roundQuotient_eq ?_ ?_
      · rw [Nat.mul_assoc]
        omega
      · rw [Nat.add_mul, Nat.mul_assoc]
        omega
    rw [nearest_of_inBinade ⟨by omega, hinside⟩, hround, hinfinity]
  · -- below the least double of a binade the steps are half as wide
    obtain ⟨hne, houtside⟩ := not_or.mp hinside
    obtain ⟨c, rfl⟩ := Nat.exists_eq_add_one_of_ne_zero hne
    generalize hhalf : den * 2 ^ c = half
    have hwhole : den * 2 ^ (c + 1) = 2 * half := by rw [← hhalf]; ring
    rw [hwhole] at hlow hhigh hpos hbelow houtside
    obtain rfl : m = 2 ^ 52 := by
      refine Nat.le_antisymm (Nat.le_of_not_lt fun hlt => ?_) (hb.resolve_left hne)
      have := Nat.mul_le_mul_right (2 * half) (Nat.succ_le_of_lt hlt)
      omega
    have hbinade : InBinade num den c := ⟨by rw [hhalf]; omega, .inr (by rw [hhalf]; omega)⟩
    have hround : roundQuotient (num * unit) half = 2 ^ 53 := roundQuotient_eq (by omega) (by omega)
    have hcarry : c * binadeSize + 2 ^ 53 = (c + 1) * binadeSize + 2 ^ 52 := by
      unfold binadeSize
      omega
    rw [nearest_of_inBinade hbinade, hhalf, hround, hcarry, hinfinity]

end Closeness

end LoxLang.Decimal
