import LoxLang.Token.Basic

/-! Source text cut into pieces: tokens, single blanks, comments, and what is none of these. No character is
lost, and no piece is empty. -/

namespace LoxLang

inductive LexicalFault
  | unexpected (c : Char)
  | unterminatedString
deriving DecidableEq, Repr

/-- What a piece of source is. -/
inductive Shape
  | token (kind : Kind)
  | blank
  | comment
  | fault (cause : LexicalFault)
deriving DecidableEq, Repr

structure Piece where
  shape : Shape
  text : List Char
deriving DecidableEq, Repr

namespace Piece

def isBlank (c : Char) : Bool := c == ' ' || c == '\t' || c == '\r' || c == '\n'

/-- ASCII letters and the underscore. -/
def startsWord (c : Char) : Bool := c.isAlpha || c == '_'

/-- ASCII letters, digits and the underscore. -/
def continuesWord (c : Char) : Bool := c.isAlphanum || c == '_'

/-- How many characters `rest` begins with that pass. -/
def run (passes : Char → Bool) (rest : List Char) : Nat := (rest.takeWhile passes).length

/-- How many characters of `rest` are a point and at least one digit, as many as there are. -/
def fraction : List Char → Nat
  | '.' :: d :: rest => if d.isDigit then 2 + run Char.isDigit rest else 0
  | _ => 0

/-- A number whose first digit is `c`: the digits up to the point and those behind it are read as one decimal. -/
def number (c : Char) (rest : List Char) : Shape × Nat :=
  let n := run Char.isDigit rest
  let f := fraction (rest.drop n)
  (.token (.number (.ofDigits (c :: rest.take n) ((rest.drop (n + 1)).take (f - 1)))), n + f)

/-- A string runs to the next quote; without one it runs to the end and is a fault. -/
def string (rest : List Char) : Shape × Nat :=
  let n := run (· != '"') rest
  if n < rest.length then (.token (.string (String.ofList (rest.take n))), n + 1)
  else (.fault .unterminatedString, n)

def word (c : Char) (rest : List Char) : Shape × Nat :=
  let n := run continuesWord rest
  (.token (.ofWord (String.ofList (c :: rest.take n))), n)

/-- The longer of two operators if `second` follows, otherwise the shorter. -/
def operator (second : Char) (long short : Kind) (rest : List Char) : Shape × Nat :=
  if rest.head? = some second then (.token long, 1) else (.token short, 0)

/-- An operator that exists only doubled. -/
def doubled (c : Char) (kind : Kind) (rest : List Char) : Shape × Nat :=
  if rest.head? = some c then (.token kind, 1) else (.fault (.unexpected c), 0)

/-- What begins at `c`, and how many characters of `rest` belong to it. -/
def classify (c : Char) (rest : List Char) : Shape × Nat :=
  match c with
  | '(' => (.token .leftParen, 0)
  | ')' => (.token .rightParen, 0)
  | '{' => (.token .leftBrace, 0)
  | '}' => (.token .rightBrace, 0)
  | ',' => (.token .comma, 0)
  | '.' => (.token .dot, 0)
  | '-' => (.token .minus, 0)
  | '+' => (.token .plus, 0)
  | ';' => (.token .semicolon, 0)
  | '*' => (.token .star, 0)
  | '!' => operator '=' .bangEqual .bang rest
  | '=' => operator '=' .equalEqual .equal rest
  | '<' => operator '=' .lessEqual .less rest
  | '>' => operator '=' .greaterEqual .greater rest
  | '|' => doubled '|' .kwOr rest
  | '&' => doubled '&' .kwAnd rest
  | '/' => if rest.head? = some '/' then (.comment, run (· != '\n') rest) else (.token .slash, 0)
  | '"' => string rest
  | _ =>
    if isBlank c then (.blank, 0)
    else if c.isDigit then number c rest
    else if startsWord c then word c rest
    else (.fault (.unexpected c), 0)

/-- The pieces of a text no longer than the first argument. -/
def cut : Nat → List Char → List Piece
  | 0, _ => []
  | _, [] => []
  | n + 1, c :: rest =>
    let (shape, size) := classify c rest
    ⟨shape, c :: rest.take size⟩ :: cut n (rest.drop size)

end Piece

/-- The pieces of a source text, in order. -/
def pieces (source : List Char) : List Piece := Piece.cut source.length source

namespace Piece

theorem flatten_cut (n : Nat) (source : List Char) (h : source.length ≤ n) :
    ((cut n source).map (·.text)).flatten = source := by
  induction n generalizing source with
  | zero => simp_all [cut]
  | succ n ih =>
    cases source with
    | nil => simp [cut]
    | cons c rest =>
      have := ih (rest.drop (classify c rest).2) (by simp_all; omega)
      simp [cut, this]

end Piece

/-- Put together again, the pieces are the source. -/
theorem flatten_pieces (source : List Char) : ((pieces source).map (·.text)).flatten = source :=
  Piece.flatten_cut _ source (Nat.le_refl _)

end LoxLang
