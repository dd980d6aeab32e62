import LoxLang.Decimal.Notation

/-! Numbers are doubles, held as their bits; arithmetic and order are those of the machine. A number has four
written forms: as a value, as a literal in a tree, as the literal of a token, and as a member of a listing. -/

namespace LoxLang

open Decimal

structure Number where
  bits : UInt64
deriving DecidableEq, Inhabited, Repr

namespace Number

def ofFloat (x : Float) : Number := ⟨x.toBits⟩

def toFloat (n : Number) : Float := Float.ofBits n.bits

def add (a b : Number) : Number := ofFloat (a.toFloat + b.toFloat)
def sub (a b : Number) : Number := ofFloat (a.toFloat - b.toFloat)
def mul (a b : Number) : Number := ofFloat (a.toFloat * b.toFloat)
def div (a b : Number) : Number := ofFloat (a.toFloat / b.toFloat)
def neg (a : Number) : Number := ofFloat (-a.toFloat)

def less (a b : Number) : Bool := a.toFloat < b.toFloat
def lessEqual (a b : Number) : Bool := a.toFloat <= b.toFloat

/-- Equality of values: zero equals negative zero, and what is not a number equals nothing. -/
def same (a b : Number) : Bool := a.toFloat == b.toFloat

/-- The bit that is set in negative numbers, `2 ^ 63`. -/
def signBit : Nat := 0x8000000000000000

/-- The bits without the sign. -/
def magnitude (n : Number) : Nat := n.bits.toNat % signBit

def isNegative (n : Number) : Bool := signBit ≤ n.bits.toNat

def isNaN (n : Number) : Bool := infinity < n.magnitude

def isFinite (n : Number) : Bool := n.magnitude < infinity

def isZero (n : Number) : Bool := n.magnitude == 0

/-- Finite and without a fraction. -/
def isWhole (n : Number) : Bool := n.isFinite && steps n.magnitude % unit == 0

/-- The size of a whole number. -/
def whole (n : Number) : Nat := steps n.magnitude / unit

def ofMagnitude (magnitude : Nat) : Number := ⟨UInt64.ofNat magnitude⟩

def one : Number := ofMagnitude 0x3FF0000000000000

/-- The number nearest to the decimal with these digits before and after the point. -/
def ofDigits (before after : List Char) : Number :=
  ofMagnitude (nearest (Nat.ofDigitChars 10 (before ++ after) 0) (Nat.pow 10 after.length))

def signed (n : Number) (size : List Char) : String :=
  String.ofList (if n.isNegative then '-' :: size else size)

/-- The fewest digits that read back, never with an exponent; a zero keeps its sign. -/
def plain (n : Number) : String :=
  if n.isNaN then "NaN"
  else if !n.isFinite then n.signed "inf".toList
  else if n.isZero then n.signed ['0']
  else n.signed (shortest .up n.magnitude).positional

/-- What printing a value writes: whole numbers in full, without sign for either zero. -/
def display (n : Number) : String :=
  if n.isZero then "0"
  else if n.isWhole then n.signed (Nat.toDigits 10 n.whole)
  else n.plain

/-- The digits of a whole number with a fraction of zero. -/
def wholeWithFraction (n : Number) : List Char := Nat.toDigits 10 n.whole ++ ['.', '0']

/-- A literal in a tree: whole numbers in full with a fraction of zero. -/
def inTree (n : Number) : String :=
  if n.isWhole then n.signed n.wholeWithFraction else n.plain

/-- Whole numbers from `2 ^ 63` on are beyond the integers of a token dump. -/
def tokenLimit : Nat := 0x8000000000000000

/-- A literal beside its token: as in a tree below the limit, where a zero has no sign; from there on plain. -/
def inToken (n : Number) : String :=
  if n.isZero then "0.0"
  else if n.isWhole && n.whole < tokenLimit then n.signed n.wholeWithFraction
  else n.plain

/-- A member of a listing: positional with a fraction from `10 ^ -5` and below `10 ^ 16`, else with an
exponent; what is not finite has no numeral. -/
def inListing (n : Number) : String :=
  if !n.isFinite then "null"
  else if n.isZero then n.signed "0.0".toList
  else
    let d := shortest .toEven n.magnitude
    if -5 ≤ d.leading ∧ d.leading < 16 then
      n.signed (if 0 ≤ d.exponent then d.positional ++ ['.', '0'] else d.positional)
    else n.signed d.scientific

end Number

end LoxLang
