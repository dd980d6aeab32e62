import LoxLang.Token.Item

/-! A scanner that reads its text byte by byte, at an offset, and yields one item at a time. It takes slices of the text
between offsets, and has no result where one of them is inside a character. -/

namespace LoxLang

/-- The offsets are that at which the current piece begins and that of the next byte. -/
structure Scanner where
  source : String
  start : Nat
  curr : Nat
  line : Nat

/-- What there is between two offsets. -/
inductive Scan
  | found (kind : Kind)
  | skipped
  | fault (cause : LexicalFault)

/-- The number written in digits, with or without a point between them. -/
def Number.ofLexeme (text : List Char) : Number :=
  .ofDigits (text.takeWhile Char.isDigit) ((text.dropWhile Char.isDigit).drop 1)

/-- Digits with a point behind them, or without. -/
theorem Number.ofLexeme_append {digits more : List Char} (h : ∀ d ∈ digits, d.isDigit = true)
    (hmore : ∀ d ∈ more.head?, d.isDigit = false) : ofLexeme (digits ++ more) = ofDigits digits (more.drop 1) := by
  rw [ofLexeme, List.takeWhile_append_of_pos h, List.dropWhile_append_of_pos h]
  cases more with
  | nil => rw [List.takeWhile_nil, List.append_nil, List.dropWhile_nil]
  | cons d more =>
    have hd := hmore d rfl
    rw [List.takeWhile_cons_of_neg (by rw [hd]; decide), List.dropWhile_cons_of_neg (by rw [hd]; decide),
      List.append_nil]

namespace Scanner

def ofSource (source : String) : Scanner := ⟨source, 0, 0, 1⟩

section Reading

variable (s : Scanner)

/-- The bytes of the text, each as the character with its number. -/
def bytes : List Char := s.source.toByteArray.data.toList.map Char.ofUInt8

/-- The text between two offsets, if both are between characters. -/
def slice? (first last : Nat) : Option String :=
  if first ≤ last ∧ String.Pos.Raw.IsValid s.source ⟨first⟩ ∧ String.Pos.Raw.IsValid s.source ⟨last⟩ then
    some (String.Pos.Raw.extract s.source ⟨first⟩ ⟨last⟩)
  else none

/-- Whether the next byte is there and passes. -/
def sees (passes : Char → Bool) : Bool := s.bytes[s.curr]?.any passes

def advance : Scanner := { s with curr := s.curr + 1 }

/-- Past the bytes that pass. -/
def skip (passes : Char → Bool) : Scanner := { s with curr := s.curr + Piece.run passes (s.bytes.drop s.curr) }

def either (second : Char) (two one : Kind) : Scan × Scanner :=
  if s.sees (· == second) then (.found two, s.advance) else (.found one, s)

/-- The whole of the character that begins at the start, however many bytes it has. -/
def unexpected : Option (Scan × Scanner) :=
  (s.slice? s.start s.source.utf8ByteSize).map fun text =>
    let c := text.toList.headD '\uFFFD'
    (.fault (.unexpected c), { s with curr := s.start + c.utf8Size })

/-- Past the bytes that pass, with the line they end on. -/
def skipLines (passes : Char → Bool) : Scanner :=
  { s.skip passes with line := s.line + ((s.bytes.drop s.curr).takeWhile passes).count '\n' }

/-- A string, if the scanner is at its second quote and not at the end. -/
def closeString : Option (Scan × Scanner) :=
  if s.curr < s.source.utf8ByteSize then
    (s.slice? (s.start + 1) s.curr).map fun text => (.found (.string text), s.advance)
  else some (.fault .unterminatedString, s)

def string : Option (Scan × Scanner) := (s.skipLines (· != '"')).closeString

/-- Past a point and the digits behind it, if there are any. -/
def skipFraction : Scanner :=
  if s.sees (· == '.') && s.advance.sees Char.isDigit then s.advance.skip Char.isDigit else s

def closeNumber : Option (Scan × Scanner) :=
  (s.slice? s.start s.curr).map fun text => (.found (.number (.ofLexeme text.toList)), s)

def number : Option (Scan × Scanner) := (s.skip Char.isDigit).skipFraction.closeNumber

def closeWord : Scan × Scanner :=
  (.found (.ofWord (String.ofList ((s.bytes.drop s.start).take (s.curr - s.start)))), s)

def word : Scan × Scanner := (s.skip Piece.continuesWord).closeWord

/-- What begins with a byte that the scanner is already past. -/
def scanByte (b : Char) : Option (Scan × Scanner) :=
  match b with
  | '(' => some (.found .leftParen, s)
  | ')' => some (.found .rightParen, s)
  | '{' => some (.found .leftBrace, s)
  | '}' => some (.found .rightBrace, s)
  | ',' => some (.found .comma, s)
  | '.' => some (.found .dot, s)
  | '-' => some (.found .minus, s)
  | '+' => some (.found .plus, s)
  | ';' => some (.found .semicolon, s)
  | '*' => some (.found .star, s)
  | '!' => some (s.either '=' .bangEqual .bang)
  | '=' => some (s.either '=' .equalEqual .equal)
  | '<' => some (s.either '=' .lessEqual .less)
  | '>' => some (s.either '=' .greaterEqual .greater)
  | '|' => if s.sees (· == '|') then some (.found .kwOr, s.advance) else s.unexpected
  | '&' => if s.sees (· == '&') then some (.found .kwAnd, s.advance) else s.unexpected
  | ' ' | '\r' | '\t' => some (.skipped, s)
  | '\n' => some (.skipped, { s with line := s.line + 1 })
  | '/' => if s.sees (· == '/') then some (.skipped, s.advance.skip (· != '\n')) else some (.found .slash, s)
  | '"' => s.string
  | _ => if b.isDigit then s.number else if Piece.startsWord b then some s.word else s.unexpected

/-- At the beginning of a piece. -/
def begin : Scanner := { s with start := s.curr }

/-- What there is between the next byte and the end of its piece. -/
def scan : Option (Scan × Scanner) :=
  match s.bytes[s.curr]? with
  | some b => s.begin.advance.scanByte b
  | none => none

end Reading

section Progress

variable {s t : Scanner} {b : Char}

theorem either_ne_skipped (second : Char) (two one : Kind) : s.either second two one ≠ (.skipped, t) := by
  unfold either
  split <;> simp

theorem unexpected_ne_skipped : s.unexpected ≠ some (.skipped, t) := by simp [unexpected]

theorem string_ne_skipped : s.string ≠ some (.skipped, t) := by
  unfold string closeString
  split <;> simp

theorem number_ne_skipped : s.number ≠ some (.skipped, t) := by simp [number, closeNumber]

/-- What is passed over is passed over in the same text. -/
theorem scanByte_skipped (h : s.scanByte b = some (.skipped, t)) : t.source = s.source ∧ s.curr ≤ t.curr := by
  unfold scanByte at h
  split at h
  iterate 10 cases h
  iterate 4 exact absurd (Option.some.inj h) (either_ne_skipped _ _ _)
  iterate 2
    split at h
    · cases h
    · exact absurd h unexpected_ne_skipped
  iterate 4
    cases h
    exact ⟨rfl, Nat.le_refl _⟩
  · split at h
    · cases h
      exact ⟨rfl, Nat.le_trans (Nat.le_succ _) (Nat.le_add_right _ _)⟩
    · cases h
  · exact absurd h string_ne_skipped
  · split at h
    · exact absurd h number_ne_skipped
    · split at h
      · cases h
      · exact absurd h unexpected_ne_skipped

theorem scan_skipped (h : s.scan = some (.skipped, t)) : t.source = s.source ∧ s.curr < t.curr := by
  unfold scan at h
  split at h
  · exact scanByte_skipped h
  · cases h

end Progress

/-- The next item, or none behind the last one. -/
def next (s : Scanner) : Option (Option Item × Scanner) :=
  if s.curr < s.source.utf8ByteSize then
    match _ : s.scan with
    | none => none
    | some (.found kind, t) =>
      (t.slice? t.start t.curr).map fun lexeme => (some (.token ⟨kind, lexeme, t.line⟩), t)
    | some (.fault cause, t) => some (some (.fault cause t.line), t)
    | some (.skipped, t) => t.next
  else if s.curr = s.source.utf8ByteSize then some (some (.token ⟨.eof, "", s.line⟩), s.advance)
  else some (none, s)
termination_by s.source.utf8ByteSize - s.curr
decreasing_by
  obtain ⟨hsource, hcurr⟩ := scan_skipped ‹_›
  rw [hsource]
  omega

section Next

variable {s t : Scanner} (hinside : s.curr < s.source.utf8ByteSize)

include hinside

theorem next_found {kind : Kind} (h : s.scan = some (.found kind, t)) :
    s.next = (t.slice? t.start t.curr).map fun lexeme => (some (.token ⟨kind, lexeme, t.line⟩), t) := by
  rw [next, if_pos hinside]
  split <;> simp_all

theorem next_fault {cause : LexicalFault} (h : s.scan = some (.fault cause, t)) :
    s.next = some (some (.fault cause t.line), t) := by
  rw [next, if_pos hinside]
  split <;> simp_all

theorem next_skipped (h : s.scan = some (.skipped, t)) : s.next = t.next := by
  rw [next, if_pos hinside]
  split <;> simp_all

end Next

/-- Behind the mark of the end there is nothing. -/
theorem next_ended {s : Scanner} (h : s.source.utf8ByteSize < s.curr) : s.next = some (none, s) := by
  rw [next, if_neg (by omega), if_neg (by omega)]

/-- What a number of calls yields, and the scanner behind them. -/
def calls : Nat → Scanner → Option (List (Option Item) × Scanner)
  | 0, s => some ([], s)
  | n + 1, s =>
    s.next.bind fun (item, t) => (t.calls n).map fun (items, u) => (item :: items, u)

end Scanner

end LoxLang
