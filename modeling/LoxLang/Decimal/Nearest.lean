/-! A finite double of sign zero is a whole number of steps of size `2 ^ -1074`; `steps` counts them from
the bits, `nearest` rounds a quotient of naturals back to bits, ties to the even neighbour. -/

namespace LoxLang.Decimal

/-- The bits of positive infinity; all smaller patterns are finite, all larger ones are not numbers. -/
def infinity : Nat := 0x7FF0000000000000

/-- Binary places of the least positive double. -/
def places : Nat := 1074

/-- Steps per unit. -/
def unit : Nat := Nat.pow 2 places

/-- Patterns in one binade, and the place of the exponent field: `2 ^ 52`. -/
def binadeSize : Nat := 0x10000000000000

/-- A normal pattern stands for `2 ^ 52 + fraction` steps of its binade; below that the bits are the count. -/
def steps (bits : Nat) : Nat :=
  if bits < binadeSize then bits
  else (binadeSize + bits % binadeSize) * Nat.pow 2 (bits / binadeSize - 1)

/-- The quotient of two naturals to the nearest natural, a half going to the even one. -/
def roundQuotient (num den : Nat) : Nat :=
  let q := num / den
  let r := num % den
  if 2 * r < den ∨ (2 * r = den ∧ q % 2 = 0) then q else q + 1

/-- The double nearest to `num / den`. A significand that rounds up to `2 ^ 53` carries into the exponent
field by plain addition, which is the next binade. -/
def nearest (num den : Nat) : Nat :=
  let binade := Nat.log2 (num * unit / den) - 52
  min infinity (binade * binadeSize + roundQuotient (num * unit) (den * Nat.pow 2 binade))

theorem steps_of_lt {bits : Nat} (h : bits < binadeSize) : steps bits = bits := if_pos h

theorem roundQuotient_mul (n : Nat) {den : Nat} (h : 0 < den) : roundQuotient (n * den) den = n := by
  simp [roundQuotient, Nat.mul_div_cancel _ h, h]

end LoxLang.Decimal
