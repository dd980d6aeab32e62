import LoxLang.Decimal.Nearest

/-! The decimal with the fewest digits that reads back to a given double, and among those the nearest. -/

namespace LoxLang.Decimal

/-- The value `digits * 10 ^ exponent`. -/
structure Scaled where
  digits : Nat
  exponent : Int
deriving DecidableEq, Repr

/-- Where two decimals of one length are equally near. -/
inductive Tie
  | up
  | toEven
deriving DecidableEq, Repr

/-- The double that the decimal reads as. -/
def Scaled.read (d : Scaled) : Nat :=
  nearest (d.digits * Nat.pow 10 d.exponent.toNat) (Nat.pow 10 (-d.exponent).toNat)

def digitCount (n : Nat) : Nat := (Nat.toDigits 10 n).length

/-- The least `k` with `steps / unit < 10 ^ k`, for a positive count. -/
def decimalScale (count : Nat) : Int :=
  if unit ≤ count then digitCount (count / unit) else 1 - digitCount ((unit - 1) / count)

/-- The greatest multiple of `10 ^ e` not above `count / unit`, as a number of such multiples. -/
def gridBelow (count : Nat) (e : Int) : Nat :=
  count * Nat.pow 10 (-e).toNat / (unit * Nat.pow 10 e.toNat)

/-- How `count / unit` lies to the middle between the grid point `n * 10 ^ e` and the next. -/
def compareMiddle (count n : Nat) (e : Int) : Ordering :=
  compare (2 * count * Nat.pow 10 (-e).toNat) ((2 * n + 1) * unit * Nat.pow 10 e.toNat)

/-- Whether the next grid point is preferred to the point `n`, from how the double lies to the middle of the two. -/
def Tie.prefersNext (tie : Tie) (n : Nat) : Ordering → Bool
  | .lt => false
  | .gt => true
  | .eq => match tie with
    | .up => true
    | .toEven => n % 2 == 1

def nearerAbove (tie : Tie) (count n : Nat) (e : Int) : Bool := tie.prefersNext n (compareMiddle count n e)

/-- Whichever of two candidates passes; of two that do, the second if it is preferred. -/
def choose {α : Type} (passes : α → Bool) (first second : α) (preferSecond : Bool) : Option α :=
  if passes first && !(passes second && preferSecond) then some first
  else if passes second then some second
  else none

theorem passes_of_choose {α : Type} {passes : α → Bool} {first second c : α} {preferSecond : Bool}
    (h : choose passes first second preferSecond = some c) : passes c = true := by
  unfold choose at h
  split at h
  · simp_all
  · split at h <;> simp_all

/-- The neighbour of the double on the grid of `10 ^ e` that reads back to it, if one does. -/
def onGrid (tie : Tie) (bits : Nat) (e : Int) : Option Scaled :=
  let n := gridBelow (steps bits) e
  choose (fun d => d.read == bits) ⟨n, e⟩ ⟨n + 1, e⟩ (nearerAbove tie (steps bits) n e)

theorem read_of_onGrid {tie : Tie} {bits : Nat} {e : Int} {d : Scaled} (h : onGrid tie bits e = some d) :
    d.read = bits := by
  unfold onGrid at h
  have passed := passes_of_choose h
  exact eq_of_beq passed

/-- The double itself, written out in full. -/
def exact (bits : Nat) : Scaled := ⟨steps bits * Nat.pow 5 places, -places⟩

/-- Moves trailing zeros of the digits into the exponent; the first argument bounds how many. -/
def stripZeros : Nat → Scaled → Scaled
  | 0, d => d
  | n + 1, d => if d.digits % 10 = 0 then stripZeros n ⟨d.digits / 10, d.exponent + 1⟩ else d

/-- Tries one digit, then two, up to seventeen, which always suffice. -/
def shortest (tie : Tie) (bits : Nat) : Scaled :=
  let scale := decimalScale (steps bits)
  let found := (List.range 17).findSome? fun n => onGrid tie bits (scale - (n + 1 : Nat))
  (found.map (stripZeros 17)).getD (exact bits)

end LoxLang.Decimal
