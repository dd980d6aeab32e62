import LoxLang.Proofs.Joining.Pieces
import Mathlib.Data.List.TakeWhile

/-! What the pieces of a source text are: each is the text of a token, a blank, a comment, a character that begins
nothing, or a string without an end. -/

namespace LoxLang

/-- The tokens that are written in one way, with their texts. -/
def Kind.symbols : List (List Char × Kind) :=
  [(['('], leftParen), ([')'], rightParen), (['{'], leftBrace), (['}'], rightBrace), ([','], comma), (['.'], dot),
   (['-'], minus), (['+'], plus), ([';'], semicolon), (['*'], star), (['/'], slash), (['!'], bang),
   (['!', '='], bangEqual), (['='], equal), (['=', '='], equalEqual), (['<'], less), (['<', '='], lessEqual),
   (['>'], greater), (['>', '='], greaterEqual), (['|', '|'], kwOr), (['&', '&'], kwAnd)]

/-- A text that a token of the kind can have. -/
inductive Lexeme : Kind → List Char → Prop
  | symbol {text : List Char} {kind : Kind} : (text, kind) ∈ Kind.symbols → Lexeme kind text
  | word {c : Char} {rest : List Char} : Piece.startsWord c = true → (∀ d ∈ rest, Piece.continuesWord d = true) →
    Lexeme (.ofWord (String.ofList (c :: rest))) (c :: rest)
  | integer {c : Char} {digits : List Char} : (∀ d ∈ c :: digits, d.isDigit = true) →
    Lexeme (.number (.ofDigits (c :: digits) [])) (c :: digits)
  | decimal {c d : Char} {digits more : List Char} : (∀ e ∈ c :: digits, e.isDigit = true) →
    (∀ e ∈ d :: more, e.isDigit = true) →
      Lexeme (.number (.ofDigits (c :: digits) (d :: more))) (c :: digits ++ '.' :: d :: more)
  | string {text : List Char} : '"' ∉ text → Lexeme (.string (String.ofList text)) ('"' :: text ++ ['"'])

namespace Piece

/-- A character that begins no token, blank or comment, with the text behind it. -/
structure Stray (c : Char) (behind : List Char) : Prop where
  blank : isBlank c = false
  word : startsWord c = false
  digit : c.isDigit = false
  quote : c ≠ '"'
  symbol : ∀ text kind, (text, kind) ∈ Kind.symbols → ¬ text <+: c :: behind

/-- What a piece is, with the text behind it. -/
inductive Tile : Piece → List Char → Prop
  | token {kind : Kind} {text behind : List Char} : Lexeme kind text → Tile ⟨.token kind, text⟩ behind
  | blank {c : Char} {behind : List Char} : c ∈ [' ', '\t', '\r', '\n'] → Tile ⟨.blank, [c]⟩ behind
  | comment {text behind : List Char} : '\n' ∉ text → (∀ c ∈ behind.head?, c = '\n') →
    Tile ⟨.comment, '/' :: '/' :: text⟩ behind
  | unexpected {c : Char} {behind : List Char} : Stray c behind → Tile ⟨.fault (.unexpected c), [c]⟩ behind
  | unterminated {text : List Char} : '"' ∉ text → Tile ⟨.fault .unterminatedString, '"' :: text⟩ []

section Runs

variable (passes : Char → Bool) (rest : List Char)

theorem take_run : rest.take (run passes rest) = rest.takeWhile passes :=
  (List.prefix_iff_eq_take.mp (List.takeWhile_prefix _)).symm

theorem drop_run : rest.drop (run passes rest) = rest.dropWhile passes := by
  have hsplit : rest.take (run passes rest) ++ rest.dropWhile passes = rest := by
    rw [take_run, List.takeWhile_append_dropWhile]
  exact List.append_cancel_left ((List.take_append_drop _ _).trans hsplit.symm)

theorem passes_of_mem_run : ∀ c ∈ rest.take (run passes rest), passes c = true := by
  rw [take_run]
  exact fun c hc => List.mem_takeWhile_imp hc

/-- What passes ends in front of a character that does not. -/
theorem head_drop_run : ∀ c ∈ (rest.drop (run passes rest)).head?, passes c = false := by
  rw [drop_run]
  intro c hc
  have hhead := List.head?_dropWhile_not passes rest
  rw [Option.mem_def.mp hc] at hhead
  exact hhead

/-- What passes is in front of what does not begin with what passes. -/
theorem run_split : ∃ before behind, rest = before ++ behind ∧ rest.takeWhile passes = before ∧
    run passes rest = before.length ∧ ∀ d ∈ behind.head?, passes d = false :=
  ⟨_, _, List.takeWhile_append_dropWhile.symm, rfl, rfl, fun d hd =>
    head_drop_run passes rest d (by rwa [drop_run])⟩

end Runs

section Classification

variable (c : Char) (rest : List Char)

/-- The piece that a classification cuts off, with the text behind it. -/
def Cuts (c : Char) (rest : List Char) (cut : Shape × Nat) : Prop := Tile ⟨cut.1, c :: rest.take cut.2⟩ (rest.drop cut.2)

variable {c rest}

theorem cuts_symbol {kind : Kind} (h : ([c], kind) ∈ Kind.symbols) : Cuts c rest (.token kind, 0) := .token (.symbol h)

theorem cuts_operator {second : Char} {long short : Kind} (hlong : ([c, second], long) ∈ Kind.symbols)
    (hshort : ([c], short) ∈ Kind.symbols) : Cuts c rest (operator second long short rest) := by
  unfold operator
  split
  · rename_i hhead
    obtain ⟨more, rfl⟩ := List.head?_eq_some_iff.mp hhead
    exact .token (.symbol hlong)
  · exact cuts_symbol hshort

theorem head_begins {text : List Char} (h : text <+: c :: rest) (hne : text ≠ []) : text.head? = some c := by
  obtain ⟨d, text, rfl⟩ := List.exists_cons_of_ne_nil hne
  rw [(List.cons_prefix_cons.mp h).1, List.head?_cons]

theorem symbols_ne_nil : ∀ symbol ∈ Kind.symbols, symbol.1 ≠ [] := by decide

theorem cuts_doubled {kind : Kind} (hkind : ([c, c], kind) ∈ Kind.symbols)
    (honly : ∀ symbol ∈ Kind.symbols, symbol.1.head? = some c → symbol.1 = [c, c])
    (hblank : isBlank c = false) (hword : startsWord c = false) (hdigit : c.isDigit = false) (hquote : c ≠ '"') :
    Cuts c rest (doubled c kind rest) := by
  unfold doubled
  split
  · rename_i hhead
    obtain ⟨more, rfl⟩ := List.head?_eq_some_iff.mp hhead
    exact .token (.symbol hkind)
  · rename_i hhead
    refine .unexpected ⟨hblank, hword, hdigit, hquote, fun text kind hmem hprefix => hhead ?_⟩
    obtain rfl := honly _ hmem (head_begins hprefix (symbols_ne_nil _ hmem))
    obtain ⟨more, hmore⟩ := (List.cons_prefix_cons.mp hprefix).2
    exact List.head?_eq_some_iff.mpr ⟨more, hmore.symm⟩

theorem cuts_comment (h : rest.head? = some '/') : Cuts '/' rest (.comment, run (· != '\n') rest) := by
  obtain ⟨more, rfl⟩ := List.head?_eq_some_iff.mp h
  have hrun : run (· != '\n') ('/' :: more) = run (· != '\n') more + 1 := rfl
  have hline : '\n' ∉ more.take (run (· != '\n') more) := fun hmem =>
    absurd (passes_of_mem_run _ _ _ hmem) (by decide)
  rw [hrun]
  exact .comment hline fun d hd => by simpa using head_drop_run _ _ d hd

theorem cuts_string : Cuts '"' rest (string rest) := by
  have hfree : '"' ∉ rest.take (run (· != '"') rest) := fun hmem => absurd (passes_of_mem_run _ _ _ hmem) (by decide)
  unfold string
  dsimp only
  split
  · rename_i hends
    have hquote : rest[run (· != '"') rest] = '"' := by
      have hhead := head_drop_run (· != '"') rest
      rw [List.drop_eq_getElem_cons hends] at hhead
      simpa using hhead _ rfl
    unfold Cuts
    rw [List.take_succ_eq_append_getElem hends, hquote]
    exact .token (.string hfree)
  · rename_i hends
    unfold Cuts
    rw [List.drop_eq_nil_of_le (Nat.le_of_not_lt hends)]
    exact .unterminated hfree

/-- A fraction is a point and digits behind it. -/
theorem fraction_cases : ∀ rest : List Char, fraction rest = 0 ∨ ∃ d more, rest = '.' :: d :: more ∧
    d.isDigit = true ∧ fraction rest = 2 + run Char.isDigit more
  | [] | [_] => .inl (by simp [fraction])
  | c :: d :: more => by
    rw [fraction_cons]
    split
    · rename_i hpoint
      exact .inr ⟨d, more, by rw [hpoint.1], hpoint.2, rfl⟩
    · exact .inl rfl

theorem fraction_head (rest : List Char) : ∀ d ∈ (rest.take (fraction rest)).head?, d.isDigit = false := by
  rcases fraction_cases rest with hnone | ⟨d, more, rfl, -, hsome⟩
  · simp [hnone]
  · rw [hsome, Nat.add_comm]
    rintro d ⟨⟩
    rfl

theorem cuts_number (hdigit : c.isDigit = true) : Cuts c rest (number c rest) := by
  have hwhole : ∀ d ∈ c :: rest.take (run Char.isDigit rest), d.isDigit = true :=
    List.forall_mem_cons.mpr ⟨hdigit, passes_of_mem_run _ _⟩
  unfold number Cuts
  dsimp only
  rw [List.take_add, ← List.drop_drop (i := 1)]
  rcases fraction_cases (rest.drop (run Char.isDigit rest)) with hnone | ⟨d, more, hrest, hd, hsome⟩
  · rw [hnone, Nat.zero_sub, List.take_zero, List.take_zero, List.append_nil]
    exact .token (.integer hwhole)
  · rw [hsome, hrest, show 2 + run Char.isDigit more - 1 = run Char.isDigit more + 1 by omega,
      show 2 + run Char.isDigit more = run Char.isDigit more + 1 + 1 by omega]
    exact .token (.decimal hwhole (List.forall_mem_cons.mpr ⟨hd, passes_of_mem_run _ more⟩))

theorem cuts_word (hstarts : startsWord c = true) : Cuts c rest (word c rest) :=
  .token (.word hstarts (passes_of_mem_run _ _))

theorem mem_of_isBlank {c : Char} (h : isBlank c = true) : c ∈ [' ', '\t', '\r', '\n'] := by
  simpa [isBlank, or_assoc] using h

/-- What a classification cuts off is a piece of its kind. -/
theorem cuts_classify (c : Char) (rest : List Char) : Cuts c rest (classify c rest) := by
  unfold classify
  split
  iterate 10 exact cuts_symbol (by decide)
  iterate 4 exact cuts_operator (by decide) (by decide)
  iterate 2 exact cuts_doubled (by decide) (by decide) (by decide) (by decide) (by decide) (by decide)
  · split
    · rename_i hhead
      exact cuts_comment hhead
    · exact cuts_symbol (by decide)
  · exact cuts_string
  · split
    · rename_i hblank
      exact .blank (mem_of_isBlank hblank)
    · split
      · rename_i hdigit
        exact cuts_number hdigit
      · split
        · rename_i hstarts
          exact cuts_word hstarts
        · rename_i hblank hdigit hstarts
          refine .unexpected ⟨by simpa using hblank, by simpa using hstarts, by simpa using hdigit, ‹c = '"' → False›, ?_⟩
          intro text kind hmem hprefix
          have hother : ∀ symbol ∈ Kind.symbols, symbol.1.head? ≠ some c := by
            simp_all [Kind.symbols, eq_comm (b := c)]
          exact hother _ hmem (head_begins hprefix (symbols_ne_nil _ hmem))

end Classification

/-- The text of pieces in a row. -/
def joined (ps : List Piece) : List Char := (ps.map (·.text)).flatten

@[simp] theorem joined_nil : joined [] = [] := rfl

theorem joined_cons (p : Piece) (ps : List Piece) : joined (p :: ps) = p.text ++ joined ps := by
  rw [joined, List.map_cons, List.flatten_cons]
  rfl

theorem joined_append (front back : List Piece) : joined (front ++ back) = joined front ++ joined back := by
  rw [joined, List.map_append, List.flatten_append]
  rfl

end Piece

open Piece (joined joined_append joined_cons)

/-- What is left behind some pieces is cut in the same way when it stands alone. -/
theorem pieces_joined {source : List Char} {front back : List Piece} (h : pieces source = front ++ back) :
    pieces (joined back) = back := by
  induction front generalizing source with
  | nil =>
    rw [List.nil_append] at h
    have hsource : joined back = source := by
      rw [← h]
      exact flatten_pieces source
    rw [hsource, h]
  | cons p front ih =>
    cases source with
    | nil => cases h
    | cons c rest =>
      rw [pieces_cons] at h
      exact ih (List.cons.inj h).2

/-- Every piece of a text is what its own text and the text behind it make it. -/
theorem pieces_tile {source : List Char} {front back : List Piece} {p : Piece} (h : pieces source = front ++ p :: back) :
    p.Tile (joined back) := by
  have hpieces := pieces_joined h
  cases htext : joined (p :: back) with
  | nil =>
    rw [htext] at hpieces
    cases hpieces
  | cons c rest =>
    rw [htext, pieces_cons] at hpieces
    obtain ⟨rfl, hback⟩ := List.cons.inj hpieces
    have hbehind : joined back = rest.drop (Piece.classify c rest).2 := by
      rw [← hback]
      exact flatten_pieces _
    rw [hbehind]
    exact Piece.cuts_classify c rest

end LoxLang
