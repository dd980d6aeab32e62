import LoxLang.Text.Ranges

/-! Text in double quotes, on one line. A character stands for itself if it is seen as itself and on its own;
every other one is written by a letter or by its number. -/

namespace LoxLang.Text

/-- Is the character of this code point seen as itself, apart from the one before it? -/
def isPlain (n : Nat) : Bool :=
  !(Ranges.unseen.has n || Ranges.fillers.has n || Ranges.joining.has n || Ranges.unassigned.has n)

theorem isPlain_of_ascii {n : Nat} (hf : 0x20 ≤ n) (hl : n ≤ 0x7e) : isPlain n = true := by
  have hu : Ranges.unseen.has n = false := Ranges.has_eq_false (by decide +kernel) hf hl
  have hi : Ranges.fillers.has n = false := Ranges.has_eq_false (by decide +kernel) hf hl
  have hj : Ranges.joining.has n = false := Ranges.has_eq_false (by decide +kernel) hf hl
  have ha : Ranges.unassigned.has n = false := Ranges.has_eq_false (by decide +kernel) hf hl
  simp [isPlain, hu, hi, hj, ha]

/-- The letter that stands for a character behind a backslash. -/
def letter? : Char → Option Char
  | '"' => some '"'
  | '\\' => some '\\'
  | '\x00' => some '0'
  | '\t' => some 't'
  | '\n' => some 'n'
  | '\r' => some 'r'
  | _ => none

def quotedChar (c : Char) : List Char :=
  match letter? c with
  | some l => ['\\', l]
  | none =>
    if isPlain c.toNat then [c]
    else ['\\', 'u', '\x7b'] ++ Nat.toDigits 16 c.toNat ++ ['\x7d']

def quoted (text : String) : String := String.ofList ('"' :: text.toList.flatMap quotedChar ++ ['"'])

end LoxLang.Text
