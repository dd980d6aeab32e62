import LoxLang.Proofs.Tiling.Calls

/-! Tokens are as long as they can be: what a scanner yields is the longest lexeme that the text ahead begins with. It
reports a character just where the text ahead begins with nothing that can be read. -/

namespace LoxLang

open Piece (joined joined_append joined_cons)

/-- What a text can begin with: a blank, a comment, a lexeme, or a quote without a second one behind it. -/
inductive Opening : List Char → Prop
  | blank {c : Char} {rest : List Char} : c ∈ [' ', '\t', '\r', '\n'] → Opening (c :: rest)
  | comment {rest : List Char} : Opening ('/' :: '/' :: rest)
  | lexeme {kind : Kind} {text rest : List Char} : Lexeme kind text → Opening (text ++ rest)
  | quote {rest : List Char} : '"' ∉ rest → Opening ('"' :: rest)

/-- Of the lexemes that a text begins with, this one is the longest. -/
structure LongestLexeme (lexeme text : List Char) : Prop where
  isLexeme : ∃ kind, Lexeme kind lexeme
  isPrefix : lexeme <+: text
  longest : ∀ kind other, Lexeme kind other → other <+: text → other.length ≤ lexeme.length

namespace Piece

variable {c : Char} {rest : List Char}

section Classes

theorem startsWord_of_isDigit (h : c.isDigit = true) : startsWord c = false := by
  rw [Bool.eq_false_iff]
  intro hword
  simp only [startsWord, Char.isDigit, Char.isAlpha, Char.isUpper, Char.isLower, Bool.or_eq_true, Bool.and_eq_true,
    decide_eq_true_eq, beq_iff_eq, ge_iff_le, UInt32.le_iff_toNat_le] at h hword
  change 48 ≤ c.toNat ∧ c.toNat ≤ 57 at h
  change ((65 ≤ c.toNat ∧ c.toNat ≤ 90) ∨ (97 ≤ c.toNat ∧ c.toNat ≤ 122)) ∨ c = '_' at hword
  rcases hword with hletter | rfl
  · omega
  · exact absurd h (by decide)

theorem isBlank_eq_false (h : c ∉ [' ', '\t', '\r', '\n']) : isBlank c = false :=
  Bool.eq_false_iff.mpr fun hblank => h (mem_of_isBlank hblank)

theorem classify_word (h : startsWord c = true) : classify c rest = word c rest := by
  have hblank : c ∉ [' ', '\t', '\r', '\n'] := fun hmem => by
    fin_cases hmem
    all_goals exact absurd h (by decide)
  have hdigit : c.isDigit = false := Bool.eq_false_iff.mpr fun hdigit => by
    rw [startsWord_of_isDigit hdigit] at h
    cases h
  unfold classify
  split
  iterate 18 exact absurd h (by decide)
  rw [isBlank_eq_false hblank, hdigit, if_neg Bool.false_ne_true, if_neg Bool.false_ne_true, if_pos h]

theorem classify_digit (h : c.isDigit = true) : classify c rest = number c rest := by
  have hblank : c ∉ [' ', '\t', '\r', '\n'] := fun hmem => by
    fin_cases hmem
    all_goals exact absurd h (by decide)
  unfold classify
  split
  iterate 18 exact absurd h (by decide)
  rw [isBlank_eq_false hblank, if_neg Bool.false_ne_true, if_pos h]

end Classes

section Lengths

/-- What passes is no longer than the run of what passes. -/
theorem length_le_run {passes : Char → Bool} {text : List Char} (hpasses : ∀ d ∈ text, passes d = true)
    (h : text <+: rest) : text.length ≤ run passes rest := by
  obtain ⟨behind, rfl⟩ := h
  rw [run, List.takeWhile_append_of_pos hpasses, List.length_append]
  exact Nat.le_add_right _ _

theorem run_append {passes : Char → Bool} {text behind : List Char} (hpasses : ∀ d ∈ text, passes d = true)
    (hbehind : ∀ d ∈ behind.head?, passes d = false) : run passes (text ++ behind) = text.length := by
  have hstop : behind.takeWhile passes = [] := by
    cases behind with
    | nil => rfl
    | cons d behind => rw [List.takeWhile_cons, hbehind d rfl, if_neg Bool.false_ne_true]
  rw [run, List.takeWhile_append_of_pos hpasses, hstop, List.append_nil]

/-- Behind digits a point belongs to the number, if a digit is behind it. -/
theorem classify_decimal {d : Char} {digits : List Char} (hdigits : ∀ e ∈ c :: digits, e.isDigit = true)
    (hd : d.isDigit = true) : classify c (digits ++ '.' :: d :: rest) =
      (.token (.number (.ofDigits (c :: digits) (d :: rest.take (run Char.isDigit rest)))),
        digits.length + (2 + run Char.isDigit rest)) := by
  rw [List.forall_mem_cons] at hdigits
  have hpoint : run Char.isDigit (digits ++ '.' :: d :: rest) = digits.length := run_append hdigits.2 (by simp)
  have hfraction : fraction ('.' :: d :: rest) = 2 + run Char.isDigit rest := by rw [fraction_cons, if_pos ⟨rfl, hd⟩]
  have hdrop : (digits ++ '.' :: d :: rest).drop (digits.length + 1) = d :: rest := List.drop_length_add_append ..
  have htake : 2 + run Char.isDigit rest - 1 = run Char.isDigit rest + 1 := by omega
  rw [classify_digit hdigits.1, number, hpoint, List.drop_left, hfraction, List.take_left, hdrop, htake,
    List.take_succ_cons]

/-- A string goes on to the next quote. -/
theorem classify_string {text : List Char} (hquote : '"' ∉ text) :
    classify '"' (text ++ '"' :: rest) = (.token (.string (String.ofList text)), text.length + 1) := by
  have hpasses : ∀ d ∈ text, (d != '"') = true := fun d hd => bne_iff_ne.mpr fun heq => hquote (heq ▸ hd)
  have hrun : run (· != '"') (text ++ '"' :: rest) = text.length := run_append hpasses (by simp)
  change string (text ++ '"' :: rest) = _
  rw [string, hrun, if_pos (by simp), List.take_left]

/-- Where a symbol stands, a piece of at least its length is cut off. -/
theorem symbols_length_le : ∀ symbol ∈ Kind.symbols, ∃ c text, symbol.1 = c :: text ∧
    ∀ behind, text.length ≤ (classify c (text ++ behind)).2 := by
  intro symbol hmem
  fin_cases hmem
  all_goals first
    | exact ⟨_, [], rfl, fun _ => Nat.zero_le _⟩
    | exact ⟨_, [_], rfl, fun _ => Nat.le_refl 1⟩

/-- No lexeme ahead is longer than the piece that is cut off. -/
theorem length_le_classify {kind : Kind} {text : List Char} (h : Lexeme kind text) (hahead : text <+: c :: rest) :
    text.length ≤ (classify c rest).2 + 1 := by
  cases h with
  | symbol hmem =>
    obtain ⟨d, text, rfl, hlength⟩ : ∃ d more, text = d :: more ∧ _ := symbols_length_le _ hmem
    obtain ⟨rfl, behind, rfl⟩ := List.cons_prefix_cons.mp hahead
    exact Nat.succ_le_succ (hlength behind)
  | word hstarts hcontinues =>
    obtain ⟨rfl, hrest⟩ := List.cons_prefix_cons.mp hahead
    rw [classify_word hstarts]
    exact Nat.succ_le_succ (length_le_run hcontinues hrest)
  | integer hdigits =>
    obtain ⟨rfl, hrest⟩ := List.cons_prefix_cons.mp hahead
    rw [List.forall_mem_cons] at hdigits
    rw [classify_digit hdigits.1]
    exact Nat.succ_le_succ ((length_le_run hdigits.2 hrest).trans (Nat.le_add_right _ _))
  | @decimal _ d digits more hdigits hmore =>
    rw [List.cons_append] at hahead
    obtain ⟨rfl, behind, rfl⟩ := List.cons_prefix_cons.mp hahead
    rw [List.forall_mem_cons] at hmore
    have hrun := length_le_run hmore.2 (List.prefix_append more behind)
    rw [List.append_assoc, List.cons_append, List.cons_append, List.cons_append, classify_decimal hdigits hmore.1]
    simp only [List.length_cons, List.length_append]
    omega
  | @string text hquote =>
    rw [List.cons_append] at hahead
    obtain ⟨rfl, behind, rfl⟩ := List.cons_prefix_cons.mp hahead
    rw [List.append_assoc, List.singleton_append, classify_string hquote, List.length_append]
    exact le_rfl

end Lengths

section Openings

theorem not_opening (h : Stray c rest) : ¬ Opening (c :: rest) := by
  intro hopening
  generalize htext : c :: rest = text at hopening
  cases hopening with
  | blank hmem =>
    obtain ⟨rfl, rfl⟩ := List.cons.inj htext
    have hblank := h.blank
    fin_cases hmem
    all_goals cases hblank
  | comment =>
    obtain ⟨rfl, rfl⟩ := List.cons.inj htext
    exact h.symbol ['/'] .slash (by decide) (List.prefix_append _ _)
  | @lexeme kind text behind hlexeme =>
    cases hlexeme with
    | symbol hmem => exact h.symbol text kind hmem (htext ▸ List.prefix_append _ _)
    | word hstarts =>
      obtain ⟨rfl, -⟩ := List.cons.inj htext
      exact absurd hstarts (by rw [h.word]; decide)
    | integer hdigits | decimal hdigits =>
      obtain ⟨rfl, -⟩ := List.cons.inj htext
      exact absurd (hdigits _ List.mem_cons_self) (by rw [h.digit]; decide)
    | string => exact h.quote (List.cons.inj htext).1
  | quote => exact h.quote (List.cons.inj htext).1

variable {p : Piece} {behind : List Char} (h : p.Tile behind)

include h

theorem Tile.not_opening (hshape : p.shape = .fault (.unexpected c)) : ¬ Opening (p.text ++ behind) := by
  cases h with
  | unexpected hstray => exact Piece.not_opening hstray
  | _ => cases hshape

/-- Where nothing can be read, the piece is a character that was not expected. -/
theorem Tile.of_not_opening (hnone : ¬ Opening (p.text ++ behind)) : ∃ c, p = ⟨.fault (.unexpected c), [c]⟩ := by
  cases h with
  | token hlexeme => exact absurd (.lexeme hlexeme) hnone
  | blank hmem => exact absurd (.blank hmem) hnone
  | comment => exact absurd .comment hnone
  | unexpected => exact ⟨_, rfl⟩
  | unterminated hquote =>
    rw [List.append_nil] at hnone
    exact absurd (.quote hquote) hnone

end Openings

end Piece

section Pieces

variable {source : List Char} {front back : List Piece} {p : Piece}

/-- A piece is cut off the text that begins with it. -/
theorem exists_classify (h : pieces source = front ++ p :: back) : ∃ c rest, p.text ++ joined back = c :: rest ∧
    p = ⟨(Piece.classify c rest).1, c :: rest.take (Piece.classify c rest).2⟩ := by
  have hpieces := pieces_joined h
  rw [joined_cons] at hpieces
  cases htext : p.text ++ joined back with
  | nil =>
    rw [htext] at hpieces
    cases hpieces
  | cons c rest =>
    rw [htext, pieces_cons] at hpieces
    exact ⟨c, rest, rfl, (List.cons.inj hpieces).1.symm⟩

/-- A token is the longest lexeme ahead. -/
theorem longest_of_pieces {kind : Kind} (h : pieces source = front ++ p :: back) (hshape : p.shape = .token kind) :
    Lexeme kind p.text ∧ LongestLexeme p.text (p.text ++ joined back) := by
  have hlexeme : Lexeme kind p.text := by
    have htile := pieces_tile h
    obtain ⟨shape, text⟩ := p
    obtain rfl : shape = .token kind := hshape
    cases htile with
    | token hlexeme => exact hlexeme
  obtain ⟨c, rest, htext, hp⟩ := exists_classify h
  refine ⟨hlexeme, ⟨kind, hlexeme⟩, List.prefix_append _ _, fun kind' other hother hahead => ?_⟩
  rw [htext] at hahead
  rw [hp, List.length_cons, List.length_take, Nat.min_eq_left (Piece.classify_le c rest)]
  exact Piece.length_le_classify hother hahead

/-- Two places between pieces are the same if the texts in front of them are of one size. -/
theorem eq_of_utf8Len {p' : Piece} {front' back' : List Piece} (h : pieces source = front ++ p :: back)
    (h' : pieces source = front' ++ p' :: back') (hsize : String.utf8Len (joined front) = String.utf8Len (joined front')) :
    front = front' := by
  have hless : ∀ {ps behind : List Piece} {q : Piece}, pieces source = ps ++ q :: behind → ∀ more,
      String.utf8Len (joined ps) < String.utf8Len (joined (ps ++ q :: more)) := fun {ps _ q} hps more => by
    obtain ⟨c, rest, -, hq⟩ := exists_classify hps
    have hpos := Char.utf8Size_pos c
    rw [joined_append, joined_cons, String.utf8Len_append, String.utf8Len_append, hq, String.utf8Len_cons]
    omega
  exact Piece.eq_of_size (fun ps => String.utf8Len (joined ps)) (h.symm.trans h') (hless h) (hless h') hsize

end Pieces

namespace Kind

/-- The texts of the tokens that have the kind of a keyword: the keywords, and the symbols for `or` and `and`. -/
def spellings : List (String × Kind) := keywords ++ [("||", kwOr), ("&&", kwAnd)]

theorem spellings_of_keywords : ∀ spelling ∈ keywords, ofWord spelling.1 = spelling.2 := by decide

theorem lexeme_of_reserved {kind : Kind} {text : List Char} (h : Lexeme kind text) (hkind : kind ∈ keywords.map Prod.snd) :
    (String.ofList text, kind) ∈ spellings := by
  cases h with
  | symbol hmem =>
    have hsymbols : ∀ symbol ∈ symbols, symbol.2 ∈ keywords.map Prod.snd → (String.ofList symbol.1, symbol.2) ∈ spellings := by
      decide +kernel
    exact hsymbols _ hmem hkind
  | word =>
    refine List.mem_append_left _ (ofWord_eq rfl fun hidentifier => ?_)
    rw [hidentifier] at hkind
    exact absurd hkind (by decide)
  | integer | decimal | string => simp [keywords] at hkind

theorem kind_of_spelling {kind kind' : Kind} {text : List Char} (h : Lexeme kind text)
    (hspelling : (String.ofList text, kind') ∈ spellings) : kind = kind' := by
  have hheads : ∀ spelling ∈ spellings, ∀ c ∈ spelling.1.toList.head?, c.isDigit = false ∧ c ≠ '"' := by
    simp [spellings, keywords]
  have hhead := hheads _ hspelling
  rw [String.toList_ofList] at hhead
  cases h with
  | symbol hmem =>
    have hsymbols : ∀ symbol ∈ symbols, ∀ spelling ∈ spellings, spelling.1 = String.ofList symbol.1 →
        symbol.2 = spelling.2 := by decide +kernel
    exact hsymbols _ hmem _ hspelling rfl
  | word hstarts =>
    rcases List.mem_append.mp hspelling with hword | hsymbol
    · exact spellings_of_keywords _ hword
    · have hother : ∀ spelling ∈ [("||", kwOr), ("&&", kwAnd)], ∀ c ∈ spelling.1.toList.head?,
          Piece.startsWord c = false := by simp [Piece.startsWord]
      have hfalse := hother _ hsymbol
      rw [String.toList_ofList] at hfalse
      rw [hfalse _ rfl] at hstarts
      cases hstarts
  | integer hdigits | decimal hdigits =>
    have hdigit := hdigits _ List.mem_cons_self
    rw [(hhead _ rfl).1] at hdigit
    cases hdigit
  | string => exact absurd rfl (hhead _ rfl).2

theorem reserved_iff {kind : Kind} {text : List Char} (h : Lexeme kind text) :
    kind ∈ keywords.map Prod.snd ↔ String.ofList text ∈ spellings.map Prod.fst := by
  refine ⟨fun hkind => List.mem_map.mpr ⟨_, lexeme_of_reserved h hkind, rfl⟩, fun hspelled => ?_⟩
  obtain ⟨⟨word, kind'⟩, hspelling, rfl⟩ := List.mem_map.mp hspelled
  have hkinds : ∀ spelling ∈ spellings, spelling.2 ∈ keywords.map Prod.snd := by decide
  rw [kind_of_spelling h hspelling]
  exact hkinds _ hspelling

theorem lexeme_of_string {literal : String} {text : List Char} (h : Lexeme (.string literal) text) :
    text = '"' :: literal.toList ++ ['"'] := by
  generalize hkind : Kind.string literal = kind at h
  cases h with
  | symbol hmem =>
    rw [← hkind] at hmem
    simp [symbols] at hmem
  | word =>
    have hmem := ofWord_eq hkind.symm (by simp)
    simp [keywords] at hmem
  | integer | decimal => cases hkind
  | string =>
    cases hkind
    rw [String.toList_ofList]

end Kind

open Scanner

/-- A token is the longest lexeme that the text ahead begins with, and has the kind of that lexeme. It has the kind of a
keyword just if it is spelled as one or as the symbol for `or` or `and`, and the literal of a string is what stands
between its quotes. A character is reported just where the text ahead begins with nothing that can be read. -/
theorem longest_lexeme (source : String) :
    (∀ n token t, Yields source n (.token token) t → token.kind ≠ .eof →
      ∃ before behind, source.toList = before ++ (token.lexeme.toList ++ behind) ∧
        t.start = String.utf8Len before ∧ t.slice? t.start t.curr = some token.lexeme ∧
        LongestLexeme token.lexeme.toList (token.lexeme.toList ++ behind) ∧ Lexeme token.kind token.lexeme.toList ∧
        (token.kind ∈ Kind.keywords.map Prod.snd ↔ token.lexeme ∈ Kind.spellings.map Prod.fst) ∧
        (∀ kind, (token.lexeme, kind) ∈ Kind.spellings → token.kind = kind) ∧
        ∀ text, token.kind = .string text → token.lexeme = "\"" ++ text ++ "\"") ∧
    ∀ front p back, pieces source.toList = front ++ p :: back →
      ((∃ n c line t, Yields source n (.fault (.unexpected c) line) t ∧ t.start = String.utf8Len (joined front) ∧
          (p.text ++ joined back).head? = some c) ↔ ¬ Opening (p.text ++ joined back)) := by
  refine ⟨fun n token t h hkind => ?_, fun front p back h => ⟨?_, fun hnone => ?_⟩⟩
  · rcases h.cases.2 with ⟨front, p, back, hfinds⟩ | hended
    · have hp := Piece.eq_of_token hfinds.item
      have htext := hfinds.toList_eq
      have hslice := hfinds.slice_eq
      obtain ⟨hlexeme, hlongest⟩ := longest_of_pieces hfinds.pieces_eq (by rw [hp])
      rw [hp] at hlexeme hlongest htext hslice
      rw [String.ofList_toList] at hslice
      have hreserved := Kind.reserved_iff hlexeme
      rw [String.ofList_toList] at hreserved
      refine ⟨joined front, joined back, htext, hfinds.start, hslice, hlongest, hlexeme, hreserved,
        fun kind hspelling => Kind.kind_of_spelling hlexeme (by rwa [String.ofList_toList]), fun literal hliteral => ?_⟩
      have hstring : token.lexeme.toList = '"' :: literal.toList ++ ['"'] := Kind.lexeme_of_string (hliteral ▸ hlexeme)
      rw [← String.toList_inj, hstring]
      simp
    · exact absurd (congrArg Token.kind (Item.token.inj hended.item)) hkind
  · rintro ⟨n, c, line, t, hyields, hstart, -⟩
    rcases hyields.cases.2 with ⟨front', p', back', hfinds⟩ | hended
    · obtain rfl := eq_of_utf8Len h hfinds.pieces_eq (hstart.symm.trans hfinds.start)
      obtain ⟨rfl, rfl⟩ := List.cons.inj (List.append_cancel_left (h.symm.trans hfinds.pieces_eq))
      exact (pieces_tile h).not_opening (Piece.shape_of_fault hfinds.item)
    · cases hended.item
  · obtain ⟨c, rfl⟩ := (pieces_tile h).of_not_opening hnone
    obtain ⟨n, item, t, hyields, hfinds⟩ := exists_finds (i := 0) h rfl
    obtain rfl := Option.some.inj hfinds.item
    exact ⟨n, c, t.line, t, hyields, hfinds.start, rfl⟩

/-- In `8.5.orbit|é` a second point ends the number, the word goes on behind `or`, and a single bar is reported. -/
theorem longest_lexeme_behind_point :
    let source := "8.5.orbit|é"
    let token : Token := ⟨.identifier, "orbit", 1⟩
    (∃ t, Yields source 2 (.token token) t ∧ token.kind ≠ .eof ∧
      ∃ before behind, source.toList = before ++ (token.lexeme.toList ++ behind) ∧
        t.start = String.utf8Len before ∧ t.slice? t.start t.curr = some token.lexeme ∧
        LongestLexeme token.lexeme.toList (token.lexeme.toList ++ behind) ∧ Lexeme token.kind token.lexeme.toList ∧
        (token.kind ∈ Kind.keywords.map Prod.snd ↔ token.lexeme ∈ Kind.spellings.map Prod.fst) ∧
        (∀ kind, (token.lexeme, kind) ∈ Kind.spellings → token.kind = kind) ∧
        ∀ text, token.kind = .string text → token.lexeme = "\"" ++ text ++ "\"") ∧
    ∃ front back, pieces source.toList = front ++ ⟨.fault (.unexpected '|'), ['|']⟩ :: back ∧
      ((∃ n c line t, Yields source n (.fault (.unexpected c) line) t ∧ t.start = String.utf8Len (joined front) ∧
          ('|' :: joined back).head? = some c) ↔ ¬ Opening ('|' :: joined back)) := by
  intro source token
  have htoken : (items source)[2]? = some (.token token) := by decide +kernel
  have hkind : token.kind ≠ .eof := by decide
  have hpieces : pieces source.toList = (pieces source.toList).take 3 ++
      ⟨.fault (.unexpected '|'), ['|']⟩ :: (pieces source.toList).drop 4 := by decide +kernel
  obtain ⟨htokens, hfaults⟩ := longest_lexeme source
  obtain ⟨t, ht⟩ := exists_yields htoken
  exact ⟨⟨t, ht, hkind, htokens 2 token t ht hkind⟩, _, _, hpieces, hfaults _ _ _ hpieces⟩

/-- The symbol for `or` has the kind of a keyword and is none. -/
theorem doubled_bar_reserved : ∃ t, Yields "||" 0 (.token ⟨.kwOr, "||", 1⟩) t ∧ Kind.kwOr ≠ .eof ∧
    ¬ (Kind.kwOr ∈ Kind.keywords.map Prod.snd ↔ "||" ∈ Kind.keywords.map Prod.fst) := by
  have hitem : (items "||")[0]? = some (.token ⟨.kwOr, "||", 1⟩) := by decide +kernel
  obtain ⟨t, ht⟩ := exists_yields hitem
  exact ⟨t, ht, by decide, by decide⟩

end LoxLang
