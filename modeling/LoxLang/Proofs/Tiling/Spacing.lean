import LoxLang.Proofs.Tiling.Longest

/-! Tokens are read again from their lexemes: with single spaces between them, or with any blanks, comments and characters
that begin nothing. So what stands between the tokens of a text does not matter to them. -/

namespace LoxLang

open Piece (Stray)

/-- The lexemes of tokens with single spaces between them. -/
def spaced (ts : List Token) : String := String.intercalate " " (ts.map Token.lexeme)

/-- What a token is but for its line. The kind holds the literal. -/
def Token.spelled (t : Token) : Kind × String := (t.kind, t.lexeme)

/-- A gap of blanks, comments, and the characters listed, which begin nothing. -/
inductive Spacing : List Char → List Char → Prop
  | nil : Spacing [] []
  | blank {c : Char} {strays gap : List Char} : c ∈ [' ', '\t', '\r', '\n'] → Spacing strays gap → Spacing strays (c :: gap)
  | comment {line strays gap : List Char} : '\n' ∉ line → Spacing strays gap →
    Spacing strays ('/' :: '/' :: line ++ '\n' :: gap)
  | stray {c : Char} {strays gap : List Char} : (∀ behind, Stray c (gap ++ behind)) → Spacing strays gap →
    Spacing (c :: strays) (c :: gap)

/-- The character does not go on with the lexeme. -/
structure Parts (lexeme : List Char) (c : Char) : Prop where
  word : Piece.continuesWord c = false
  point : c ≠ '.'
  equal : c ≠ '='
  slash : lexeme = ['/'] → c ≠ '/'

instance (lexeme : List Char) (c : Char) : Decidable (Parts lexeme c) :=
  decidable_of_iff (Piece.continuesWord c = false ∧ c ≠ '.' ∧ c ≠ '=' ∧ (lexeme = ['/'] → c ≠ '/'))
    ⟨fun ⟨hword, hpoint, hequal, hslash⟩ => ⟨hword, hpoint, hequal, hslash⟩,
      fun h => ⟨h.word, h.point, h.equal, h.slash⟩⟩

/-- Tokens as they can be written: their lexemes with gaps around them, no two of which run into each other. -/
inductive Spread : List Char → List Token → List Char → Prop
  | done {strays gap : List Char} : Spacing strays gap → Spread strays [] gap
  | comment {strays gap line : List Char} : Spacing strays gap → '\n' ∉ line →
    Spread strays [] (gap ++ '/' :: '/' :: line)
  | token {strays gap more behind : List Char} {t : Token} {ts : List Token} : Spacing strays gap → Spread more ts behind →
    (∀ c ∈ behind.head?, Parts t.lexeme.toList c) → Spread (strays ++ more) (t :: ts) (gap ++ (t.lexeme.toList ++ behind))

namespace Piece

/-- The kind and the text of a token. -/
def spelled? (p : Piece) : Option (Kind × String) :=
  match p.shape with
  | .token kind => some (kind, String.ofList p.text)
  | _ => none

/-- What is wrong with a piece. -/
def cause? (p : Piece) : Option LexicalFault :=
  match p.shape with
  | .fault cause => some cause
  | _ => none

theorem spelled_yields : ∀ (ps : List Piece) (line : Nat),
    ((yields line ps).filterMap Item.token?).map Token.spelled = ps.filterMap spelled?
  | [], _ => rfl
  | p :: ps, line => by
    rw [yields, List.filterMap_append, List.map_append, spelled_yields ps, item?, List.filterMap_cons, spelled?]
    cases p.shape <;> rfl

theorem causes_yields : ∀ (ps : List Piece) (line : Nat),
    ((yields line ps).filterMap Item.fault?).map Prod.fst = ps.filterMap cause?
  | [], _ => rfl
  | p :: ps, line => by
    rw [yields, List.filterMap_append, List.map_append, causes_yields ps, item?, List.filterMap_cons, cause?]
    cases p.shape <;> rfl

section Lexemes

theorem isDigit_of_continuesWord {c : Char} (h : continuesWord c = false) : c.isDigit = false := by
  simp only [continuesWord, Char.isAlphanum, Bool.or_eq_false_iff] at h
  exact h.1.2

theorem fraction_of_ne {c : Char} {rest : List Char} (h : c ≠ '.') : fraction (c :: rest) = 0 := by
  cases rest with
  | nil => simp [fraction]
  | cons d rest => rw [fraction_cons, if_neg fun hpoint => h hpoint.1]

/-- Behind a lexeme the piece ends, if what is there does not go on with it. -/
theorem classify_lexeme {kind : Kind} {c : Char} {text behind : List Char} (h : Lexeme kind (c :: text))
    (hparts : ∀ d ∈ behind.head?, Parts (c :: text) d) : classify c (text ++ behind) = (.token kind, text.length) := by
  have hword : ∀ d ∈ behind.head?, continuesWord d = false := fun d hd => (hparts d hd).word
  have hdigit : ∀ d ∈ behind.head?, d.isDigit = false := fun d hd => isDigit_of_continuesWord (hword d hd)
  generalize hlexeme : c :: text = lexeme at h
  cases h with
  | symbol hmem =>
    subst hlexeme
    rcases behind with _ | ⟨d, behind⟩
    · fin_cases hmem <;> rfl
    · have hd := hparts d rfl
      -- Only an equals sign or a second slash would make another token of a symbol.
      have hequal : ¬ some d = some '=' := mt Option.some.inj hd.equal
      have hslash : c :: text = ['/'] → ¬ some d = some '/' := fun hlexeme => mt Option.some.inj (hd.slash hlexeme)
      fin_cases hmem
      all_goals first
        | rfl
        | exact if_neg hequal
        | exact if_neg (hslash rfl)
  | word hstarts hcontinues =>
    obtain ⟨rfl, rfl⟩ := List.cons.inj hlexeme
    rw [classify_word hstarts, word, run_append hcontinues hword, List.take_left]
  | integer hdigits =>
    obtain ⟨rfl, rfl⟩ := List.cons.inj hlexeme
    rw [List.forall_mem_cons] at hdigits
    have hfraction : fraction behind = 0 := by
      cases behind with
      | nil => rfl
      | cons d behind => exact fraction_of_ne (hparts d rfl).point
    rw [classify_digit hdigits.1, number, run_append hdigits.2 hdigit, List.drop_left, List.take_left,
      hfraction, Nat.zero_sub, List.take_zero, Nat.add_zero]
  | @decimal _ d digits more hdigits hmore =>
    rw [List.cons_append] at hlexeme
    obtain ⟨rfl, rfl⟩ := List.cons.inj hlexeme
    rw [List.forall_mem_cons] at hmore
    have hrun : run Char.isDigit (more ++ behind) = more.length := run_append hmore.2 hdigit
    rw [List.append_assoc, List.cons_append, List.cons_append, classify_decimal hdigits hmore.1, hrun, List.take_left,
      List.length_append, List.length_cons, List.length_cons, Nat.add_comm 2]
  | @string text hquote =>
    rw [List.cons_append] at hlexeme
    obtain ⟨rfl, rfl⟩ := List.cons.inj hlexeme
    rw [List.append_assoc, List.singleton_append, classify_string hquote, List.length_append, List.length_singleton]

theorem continuesWord_of_stray {c : Char} {rest : List Char} (h : Stray c rest) : continuesWord c = false := by
  obtain ⟨halpha, hunderscore⟩ := Bool.or_eq_false_iff.mp h.word
  rw [continuesWord, Char.isAlphanum, halpha, h.digit, hunderscore]
  rfl

/-- A comment goes on to the end of its line. -/
theorem classify_comment {line behind : List Char} (h : '\n' ∉ line) (hends : ∀ d ∈ behind.head?, d = '\n') :
    classify '/' ('/' :: line ++ behind) = (.comment, ('/' :: line).length) := by
  have hpasses : ∀ d ∈ '/' :: line, (d != '\n') = true := by
    rw [List.forall_mem_cons]
    exact ⟨rfl, fun d hd => bne_iff_ne.mpr fun heq => h (heq ▸ hd)⟩
  have hstops : ∀ d ∈ behind.head?, (d != '\n') = false := fun d hd => by rw [hends d hd]; rfl
  exact congrArg (Prod.mk _) (run_append hpasses hstops)

/-- A character that begins nothing is a piece. -/
theorem classify_stray {c : Char} {rest : List Char} (h : Stray c rest) :
    classify c rest = (.fault (.unexpected c), 0) := by
  have htile : Tile ⟨(classify c rest).1, c :: rest.take (classify c rest).2⟩ (rest.drop (classify c rest).2) :=
    cuts_classify c rest
  have hnone := not_opening h
  rw [← List.take_append_drop (classify c rest).2 rest, ← List.cons_append] at hnone
  obtain ⟨d, hd⟩ := htile.of_not_opening hnone
  obtain ⟨hshape, htext⟩ := Piece.mk.inj hd
  obtain ⟨rfl, htake⟩ := List.cons.inj htext
  have hsize := congrArg List.length htake
  rw [List.length_take, Nat.min_eq_left (classify_le c rest)] at hsize
  exact Prod.ext hshape hsize

end Lexemes

end Piece

section Texts

/-- A lexeme that does not run into what is behind it is a piece. -/
theorem pieces_lexeme {kind : Kind} {text behind : List Char} (h : Lexeme kind text)
    (hparts : ∀ d ∈ behind.head?, Parts text d) : pieces (text ++ behind) = ⟨.token kind, text⟩ :: pieces behind := by
  cases text with
  | nil =>
    generalize htext : [] = text at h
    cases h with
    | symbol hmem => exact absurd htext.symm (Piece.symbols_ne_nil _ hmem)
    | _ => cases htext
  | cons c text =>
    rw [List.cons_append, pieces_cons, Piece.classify_lexeme h hparts, List.take_left, List.drop_left]

/-- A gap yields no token, and its characters are reported that begin nothing. -/
theorem Spacing.pieces_eq {strays gap : List Char} (h : Spacing strays gap) (behind : List Char) :
    (pieces (gap ++ behind)).filterMap Piece.spelled? = (pieces behind).filterMap Piece.spelled? ∧
    (pieces (gap ++ behind)).filterMap Piece.cause? =
      strays.map LexicalFault.unexpected ++ (pieces behind).filterMap Piece.cause? := by
  induction h with
  | nil => exact ⟨rfl, rfl⟩
  | @blank c strays gap hblank hgap ih =>
    have hclassify : Piece.classify c (gap ++ behind) = (.blank, 0) := by fin_cases hblank <;> rfl
    rw [List.cons_append, pieces_cons, hclassify]
    exact ih
  | @comment line strays gap hline hgap ih =>
    have hclassify : Piece.classify '/' ('/' :: line ++ '\n' :: (gap ++ behind)) = _ :=
      Piece.classify_comment hline (by simp)
    rw [List.append_assoc, List.cons_append, List.cons_append, List.cons_append, pieces_cons, ← List.cons_append,
      hclassify, List.drop_left, pieces_line]
    exact ih
  | @stray c strays gap hstray hgap ih =>
    rw [List.cons_append, pieces_cons, Piece.classify_stray (hstray behind)]
    exact ⟨ih.1, congrArg (List.cons _) ih.2⟩

/-- Spread tokens are read as they were, and nothing is reported but the characters in the gaps that begin nothing. -/
theorem Spread.pieces_eq {strays text : List Char} {ts : List Token} (h : Spread strays ts text)
    (hlexemes : ∀ t ∈ ts, Lexeme t.kind t.lexeme.toList) :
    (pieces text).filterMap Piece.spelled? = ts.map Token.spelled ∧
    (pieces text).filterMap Piece.cause? = strays.map LexicalFault.unexpected := by
  induction h with
  | done hgap =>
    have hpieces := hgap.pieces_eq []
    have hnone : pieces [] = [] := rfl
    rwa [hnone, List.append_nil, List.filterMap_nil, List.filterMap_nil, List.append_nil] at hpieces
  | @comment strays gap line hgap hline =>
    have hpieces := hgap.pieces_eq ('/' :: '/' :: line)
    have hcomment : pieces ('/' :: '/' :: line) = [⟨.comment, '/' :: '/' :: line⟩] := by
      have hclassify : Piece.classify '/' ('/' :: line ++ []) = _ := Piece.classify_comment hline nofun
      rw [List.append_nil] at hclassify
      rw [pieces_cons, hclassify, List.take_length, List.drop_length]
      rfl
    rw [hcomment, List.filterMap_cons, List.filterMap_cons] at hpieces
    exact ⟨hpieces.1, hpieces.2.trans (List.append_nil _)⟩
  | @token strays gap more behind t ts hgap hspread hparts ih =>
    rw [List.forall_mem_cons] at hlexemes
    obtain ⟨hspelled, hcauses⟩ := ih hlexemes.2
    obtain ⟨hgap, hgapCauses⟩ := hgap.pieces_eq (t.lexeme.toList ++ behind)
    have hpieces := pieces_lexeme hlexemes.1 hparts
    rw [hgap, hgapCauses, hpieces]
    constructor
    · rw [List.filterMap_cons, hspelled, List.map_cons, Piece.spelled?, String.ofList_toList]
      rfl
    · rw [List.filterMap_cons, hcauses, List.map_append]
      rfl

end Texts

section Sources

variable (source : String)

theorem tokens_spelled :
    (tokens source).map Token.spelled = (pieces source.toList).filterMap Piece.spelled? ++ [(.eof, "")] := by
  rw [tokens, items_eq, List.filterMap_append, List.map_append, Piece.spelled_yields]
  rfl

theorem lexicalFaults_causes :
    (lexicalFaults source).map Prod.fst = (pieces source.toList).filterMap Piece.cause? := by
  rw [lexicalFaults, items_eq, List.filterMap_append, List.map_append, Piece.causes_yields]
  exact List.append_nil _

variable {source}

/-- All tokens in front of the end have lexemes of their kinds. -/
theorem lexeme_of_tokens {t : Token} (h : t ∈ (tokens source).dropLast) : Lexeme t.kind t.lexeme.toList := by
  have hspelled : t.spelled ∈ (pieces source.toList).filterMap Piece.spelled? := by
    have hmem := List.mem_map_of_mem (f := Token.spelled) h
    rwa [List.map_dropLast, tokens_spelled, List.dropLast_concat] at hmem
  obtain ⟨p, hp, hspelled⟩ := List.mem_filterMap.mp hspelled
  obtain ⟨front, back, hpieces⟩ := List.append_of_mem hp
  rw [Piece.spelled?] at hspelled
  split at hspelled
  · rename_i kind hshape
    obtain ⟨hkind, hlexeme⟩ := Prod.mk.inj (Option.some.inj hspelled)
    obtain rfl : kind = t.kind := hkind
    have hlexeme : String.ofList p.text = t.lexeme := hlexeme
    rw [← hlexeme, String.toList_ofList]
    exact (longest_of_pieces hpieces hshape).1
  · cases hspelled

theorem Spread.tokens_eq {strays : List Char} {text : String} (h : Spread strays (tokens source).dropLast text.toList) :
    (tokens text).map Token.spelled = (tokens source).map Token.spelled ∧
    (lexicalFaults text).map Prod.fst = strays.map LexicalFault.unexpected := by
  obtain ⟨hspelled, hcauses⟩ := h.pieces_eq fun t ht => lexeme_of_tokens ht
  refine ⟨?_, by rw [lexicalFaults_causes, hcauses]⟩
  rw [tokens_spelled, hspelled, List.map_dropLast, tokens_spelled, List.dropLast_concat]

end Sources

section Spaces

/-- A gap keeps lexemes apart, but a comment does not directly behind a slash. -/
theorem Spacing.parts {lexeme strays gap : List Char} {c : Char} (h : Spacing strays (c :: gap))
    (hslash : lexeme = ['/'] → c ≠ '/') : Parts lexeme c := by
  generalize htext : c :: gap = text at h
  cases h with
  | nil => cases htext
  | blank hblank =>
    obtain ⟨rfl, rfl⟩ := List.cons.inj htext
    fin_cases hblank <;> exact ⟨by decide, by decide, by decide, hslash⟩
  | comment =>
    obtain ⟨rfl, -⟩ := List.cons.inj htext
    exact ⟨by decide, by decide, by decide, hslash⟩
  | stray hstray =>
    obtain ⟨rfl, rfl⟩ := List.cons.inj htext
    refine ⟨Piece.continuesWord_of_stray (hstray []), ?_, ?_, hslash⟩
    · rintro rfl
      exact (hstray []).symbol ['.'] .dot (by decide) (List.prefix_append _ _)
    · rintro rfl
      exact (hstray []).symbol ['='] .equal (by decide) (List.prefix_append _ _)

theorem Spread.blank {c : Char} {strays text : List Char} {ts : List Token} (hblank : c ∈ [' ', '\t', '\r', '\n'])
    (h : Spread strays ts text) : Spread strays ts (c :: text) := by
  cases h with
  | done hgap => exact .done (.blank hblank hgap)
  | comment hgap hline => exact .comment (.blank hblank hgap) hline
  | token hgap hspread hparts => exact .token (.blank hblank hgap) hspread hparts

theorem spread_spaced (last : List Token) (h : Spread [] [] (spaced last).toList) :
    ∀ ts : List Token, Spread [] ts (spaced (ts ++ last)).toList
  | [] => h
  | t :: ts => by
    have hts := spread_spaced last h ts
    cases hmore : ts ++ last with
    | nil =>
      obtain ⟨rfl, rfl⟩ := List.append_eq_nil_iff.mp hmore
      have hspread : Spread [] [t] ([] ++ (t.lexeme.toList ++ [])) := .token .nil (.done .nil) nofun
      rwa [List.nil_append, List.append_nil] at hspread
    | cons u more =>
      rw [hmore] at hts
      have htext : (spaced (t :: u :: more)).toList = t.lexeme.toList ++ ' ' :: (spaced (u :: more)).toList := by
        simp [spaced, String.toList_intercalate]
      have hparts : ∀ c ∈ (' ' :: (spaced (u :: more)).toList).head?, Parts t.lexeme.toList c := by
        rintro c ⟨⟩
        exact Spacing.parts (.blank (by decide) .nil) fun _ => by decide
      rw [List.cons_append, hmore, htext]
      exact .token .nil (hts.blank (by decide)) hparts

end Spaces

/-- The lexemes of a text's tokens with single spaces between them, with or without the end, are read as those tokens, and
nothing is reported. The same tokens are read wherever their lexemes stand in this order with gaps of any kind that keep
them apart. -/
theorem respaced (source : String) :
    (∀ text ∈ [spaced (tokens source), spaced (tokens source).dropLast],
      lexicalFaults text = [] ∧ (tokens text).map Token.spelled = (tokens source).map Token.spelled) ∧
    ∀ strays text, Spread strays (tokens source).dropLast text.toList →
      (lexicalFaults text).map Prod.fst = strays.map LexicalFault.unexpected ∧
      (tokens text).map Token.spelled = (tokens source).map Token.spelled := by
  have htokens : ∃ ts, tokens source = ts ++ [⟨.eof, "", 1 + source.toList.count '\n'⟩] := by
    rw [tokens, items_eq, List.filterMap_append]
    exact ⟨_, rfl⟩
  obtain ⟨ts, htokens⟩ := htokens
  refine ⟨fun text htext => ?_, fun strays text h => h.tokens_eq.symm⟩
  have hspread : Spread [] (tokens source).dropLast text.toList := by
    rw [htokens, List.dropLast_concat] at htext ⊢
    rcases List.mem_cons.mp htext with rfl | htext
    · refine spread_spaced _ ?_ ts
      rw [spaced, List.map_singleton, String.intercalate_singleton]
      exact .done .nil
    · obtain rfl := List.mem_singleton.mp htext
      have hspread := spread_spaced [] (.done .nil) ts
      rwa [List.append_nil] at hspread
  obtain ⟨hspelled, hcauses⟩ := hspread.tokens_eq
  exact ⟨List.map_eq_nil_iff.mp hcauses, hspelled⟩

/-- `n=1.5/m` with blanks, a comment and a stray character put in. -/
theorem respaced_around_comment :
    let source := "n=1.5/m"
    let text := " n\t=@1.5//!\n/ m"
    Spread ['@'] (tokens source).dropLast text.toList ∧
      (lexicalFaults text).map Prod.fst = ['@'].map LexicalFault.unexpected ∧
      (tokens text).map Token.spelled = (tokens source).map Token.spelled := by
  intro source text
  have hstray : ∀ behind, Stray '@' behind := by
    have hother : ∀ symbol ∈ Kind.symbols, symbol.1.head? ≠ some '@' := by decide
    exact fun behind => ⟨rfl, rfl, rfl, by decide, fun lexeme kind hmem hahead =>
      hother _ hmem (Piece.head_begins hahead (Piece.symbols_ne_nil _ hmem))⟩
  have htokens : (tokens source).dropLast = [⟨.identifier, "n", 1⟩, ⟨.equal, "=", 1⟩,
      ⟨.number (.ofDigits ['1'] ['5']), "1.5", 1⟩, ⟨.slash, "/", 1⟩, ⟨.identifier, "m", 1⟩] := by
    decide +kernel
  have hspread : Spread ['@'] (tokens source).dropLast text.toList := by
    have hm : Spread [] [⟨.identifier, "m", 1⟩] ([' '] ++ ("m".toList ++ [])) :=
      .token (.blank (by decide) .nil) (.done .nil) nofun
    have hslash : Spread [] _ (['/', '/', '!', '\n'] ++ ("/".toList ++ _)) :=
      .token (t := ⟨.slash, "/", 1⟩) (@Spacing.comment ['!'] [] [] (by decide) .nil) hm (by rintro _ ⟨⟩; decide)
    have hnumber : Spread ['@'] _ (['@'] ++ ("1.5".toList ++ _)) :=
      .token (t := ⟨.number (.ofDigits ['1'] ['5']), "1.5", 1⟩) (.stray hstray .nil) hslash (by rintro _ ⟨⟩; decide)
    have hequal : Spread ['@'] _ (['\t'] ++ ("=".toList ++ _)) :=
      .token (t := ⟨.equal, "=", 1⟩) (.blank (by decide) .nil) hnumber (by rintro _ ⟨⟩; decide)
    have hn : Spread ['@'] _ ([' '] ++ ("n".toList ++ _)) :=
      .token (t := ⟨.identifier, "n", 1⟩) (.blank (by decide) .nil) hequal (by rintro _ ⟨⟩; decide)
    have htext : text.toList = [' '] ++ ("n".toList ++ (['\t'] ++ ("=".toList ++ (['@'] ++ ("1.5".toList ++
        (['/', '/', '!', '\n'] ++ ("/".toList ++ ([' '] ++ ("m".toList ++ []))))))))) := by decide +kernel
    rw [htokens, htext]
    exact hn
  exact ⟨hspread, (respaced source).2 _ _ hspread⟩

end LoxLang
