import LoxLang.Decimal.Shortest

/-! Writing a scaled decimal: in positions with no exponent, or as one digit, the others after a point and
a signed exponent. -/

namespace LoxLang.Decimal

def zeros (n : Nat) : List Char := List.replicate n '0'

/-- Digits with a point before the last `places` of them, and a zero before a point that comes first. -/
def withPoint (digits : List Char) (places : Nat) : List Char :=
  let padded := zeros (places + 1 - digits.length) ++ digits
  padded.take (padded.length - places) ++ '.' :: padded.drop (padded.length - places)

/-- Positional digits; a whole number has no point. -/
def Scaled.positional (d : Scaled) : List Char :=
  let digits := Nat.toDigits 10 d.digits
  if 0 ≤ d.exponent then digits ++ zeros d.exponent.toNat else withPoint digits (-d.exponent).toNat

/-- The exponent of the leading digit. -/
def Scaled.leading (d : Scaled) : Int := digitCount d.digits + d.exponent - 1

/-- One digit, the rest after a point if there is any, and the exponent with its sign. -/
def Scaled.scientific (d : Scaled) : List Char :=
  let digits := Nat.toDigits 10 d.digits
  let tail := digits.drop 1
  let exponent := Nat.toDigits 10 d.leading.natAbs
  digits.take 1 ++ (if tail.isEmpty then [] else '.' :: tail) ++
    'e' :: (if d.leading < 0 then '-' else '+') :: exponent

end LoxLang.Decimal
