import LoxLang.Proofs.Tiling.Bytes
import LoxLang.Proofs.Tiling.Scanner

/-! Byte by byte or character by character, the same pieces are read. A scanner between two characters reads the piece
that begins with the second, and is then between two characters again. -/

namespace LoxLang

open Piece (run run_split fraction_head)

/-- What a shape is to a scanner. -/
def Shape.scan : Shape → Scan
  | .token kind => .found kind
  | .blank | .comment => .skipped
  | .fault cause => .fault cause

namespace Scanner

/-- The scanner is between two parts of its text. -/
structure Between (s : Scanner) (front back : List Char) : Prop where
  source : s.source = String.ofList (front ++ back)
  curr : s.curr = String.utf8Len front

/-- Behind a text that is next. -/
def past (s : Scanner) (text : List Char) : Scanner :=
  { s with curr := s.curr + String.utf8Len text, line := s.line + text.count '\n' }

section Past

variable (s : Scanner) (text more : List Char)

@[simp] theorem past_nil : s.past [] = s := rfl

@[simp] theorem past_start : (s.past text).start = s.start := rfl

theorem past_past : (s.past text).past more = s.past (text ++ more) := by
  simp only [past, String.utf8Len_append, List.count_append, Nat.add_assoc]

theorem advance_eq {c : Char} (hlow : c.toNat < 128) (hline : c ≠ '\n') : s.advance = s.past [c] := by
  have hsize : String.utf8Len [c] = 1 := by
    rw [← length_utf8, utf8_cons, utf8Char_low hlow]
    rfl
  rw [advance, past, hsize, List.count_eq_zero_of_not_mem fun h => hline (List.mem_singleton.mp h).symm]
  rfl

end Past

namespace Between

variable {s : Scanner} {front text back : List Char}

theorem past (h : s.Between front (text ++ back)) : (s.past text).Between (front ++ text) back :=
  ⟨by rw [List.append_assoc]; exact h.source,
   by rw [String.utf8Len_append, ← h.curr]; rfl⟩

section Reading

variable (h : s.Between front back)

include h

theorem size_eq : s.source.utf8ByteSize = s.curr + String.utf8Len back := by
  rw [h.source, String.utf8ByteSize_ofList, String.utf8Len_append, h.curr]

theorem rest_eq : s.bytes.drop s.curr = utf8 back := by
  rw [bytes, h.source, bytes_ofList, utf8_append, h.curr, ← length_utf8, List.drop_left]

theorem next_byte : s.bytes[s.curr]? = (utf8 back).head? := by
  rw [← h.rest_eq, List.head?_drop]

theorem sees_eq {passes : Char → Bool} (hcoarse : Coarse passes) : s.sees passes = back.head?.any passes := by
  rw [sees, h.next_byte]
  cases back with
  | nil => rfl
  | cons c rest =>
    obtain ⟨b, bs, hbs⟩ := List.exists_cons_of_ne_nil (utf8Char_ne_nil (c := c))
    rw [utf8_cons, hbs]
    exact hcoarse.utf8Char_eq c b (by rw [hbs]; exact List.mem_cons_self)

theorem skipped_bytes {passes : Char → Bool} (hcoarse : Coarse passes) :
    (s.bytes.drop s.curr).takeWhile passes = utf8 (back.takeWhile passes) := by
  rw [h.rest_eq, hcoarse.takeWhile_utf8]

theorem skip_eq {passes : Char → Bool} (hcoarse : Coarse passes) (hline : passes '\n' = false) :
    s.skip passes = s.past (back.takeWhile passes) := by
  have hnone : '\n' ∉ back.takeWhile passes := fun hmem =>
    absurd (List.mem_takeWhile_imp hmem) (by rw [hline]; decide)
  rw [skip, run, h.skipped_bytes hcoarse, length_utf8, Scanner.past, List.count_eq_zero_of_not_mem hnone, Nat.add_zero]

end Reading

/-- The bytes between two places of a text. -/
theorem bytes_eq (hsource : s.source = String.ofList (front ++ text ++ back)) :
    (s.bytes.drop (String.utf8Len front)).take (String.utf8Len text) = utf8 text := by
  rw [bytes, hsource, bytes_ofList, List.append_assoc, utf8_append, utf8_append, ← length_utf8, ← length_utf8,
    List.drop_left, List.take_left]

/-- A point is passed with the digits behind it, or not at all. -/
theorem skipFraction_eq (h : s.Between front back) : s.skipFraction = s.past (back.take (Piece.fraction back)) := by
  rw [skipFraction, h.sees_eq (.eq (d := '.') (by decide))]
  match back with
  | [] => rfl
  | [c] =>
    by_cases hc : c = '.'
    · subst hc
      have hbetween : (s.past ['.']).Between (front ++ ['.']) [] := h.past
      rw [advance_eq s (c := '.') (by decide) (by decide), hbetween.sees_eq .isDigit]
      rfl
    · simp [Piece.fraction, hc]
  | c :: d :: more =>
    rw [Piece.fraction_cons]
    by_cases hc : c = '.'
    · subst hc
      have hbetween : (s.past ['.']).Between (front ++ ['.']) (d :: more) := h.past
      rw [advance_eq s (c := '.') (by decide) (by decide), hbetween.sees_eq .isDigit,
        hbetween.skip_eq .isDigit (by decide), past_past]
      cases hd : d.isDigit with
      | true => simp [hd, Piece.take_run, Nat.add_comm 2]
      | false => simp [hd]
    · simp [hc]

/-- A slice between two places of a text. -/
theorem slice_eq (hsource : s.source = String.ofList (front ++ text ++ back)) :
    s.slice? (String.utf8Len front) (String.utf8Len front + String.utf8Len text) = some (String.ofList text) := by
  have hfirst := isValid_utf8Len front (text ++ back)
  have hlast := isValid_utf8Len (front ++ text) back
  rw [← List.append_assoc, ← hsource] at hfirst
  rw [← hsource, String.utf8Len_append] at hlast
  rw [slice?, if_pos ⟨Nat.le_add_right _ _, hfirst, hlast⟩, hsource, String.extract_of_valid]

end Between

/-- The scanner is past the first character of a piece. -/
structure Begun (s : Scanner) (front : List Char) (c : Char) (rest : List Char) : Prop where
  between : s.Between (front ++ [c]) rest
  start : s.start = String.utf8Len front

/-- What a scanner finds, and the scanner behind it, when the text that is next is cut in this way. -/
def read (s : Scanner) (rest : List Char) (cut : Shape × Nat) : Scan × Scanner :=
  (cut.1.scan, s.past (rest.take cut.2))

theorem unexpected_eq {s : Scanner} {front : List Char} {c : Char} {rest : List Char}
    (hsource : s.source = String.ofList (front ++ c :: rest)) (hstart : s.start = String.utf8Len front) :
    s.unexpected = some (.fault (.unexpected c), { s with curr := String.utf8Len front + c.utf8Size }) := by
  have hslice : s.slice? s.start s.source.utf8ByteSize = some (String.ofList (c :: rest)) := by
    have hbehind : s.source = String.ofList (front ++ (c :: rest) ++ []) := by rw [hsource, List.append_nil]
    rw [hstart, ← Between.slice_eq hbehind, hsource, String.utf8ByteSize_ofList, String.utf8Len_append]
  rw [unexpected, hslice, hstart]
  simp

namespace Begun

variable {s : Scanner} {front rest : List Char} {c : Char} (h : s.Begun front c rest)

include h

theorem source : s.source = String.ofList (front ++ c :: rest) := by
  rw [h.between.source, List.append_assoc, List.singleton_append]

theorem curr : s.curr = String.utf8Len front + c.utf8Size := by
  rw [h.between.curr, String.utf8Len_append, utf8Len_singleton]

theorem either_eq {second : Char} (hlow : second.toNat < 128) (hline : second ≠ '\n') (long short : Kind) :
    s.either second long short = s.read rest (Piece.operator second long short rest) := by
  rw [either, h.between.sees_eq (.eq hlow), Piece.operator]
  cases rest with
  | nil => rfl
  | cons d rest =>
    by_cases hd : d = second
    · subst hd
      simp [read, Shape.scan, advance_eq s hlow hline]
    · simp [read, Shape.scan, hd]

theorem unexpected_eq : s.unexpected = some (.fault (.unexpected c), s) := by
  rw [Scanner.unexpected_eq h.source h.start, ← h.curr]

theorem doubled_eq (hlow : c.toNat < 128) (hline : c ≠ '\n') (kind : Kind) :
    (if s.sees (· == c) then some (.found kind, s.advance) else s.unexpected) =
      some (s.read rest (Piece.doubled c kind rest)) := by
  rw [h.between.sees_eq (.eq hlow), Piece.doubled, h.unexpected_eq]
  cases rest with
  | nil => rfl
  | cons d rest =>
    by_cases hd : d = c
    · subst hd
      simp [read, Shape.scan, advance_eq s hlow hline]
    · simp [read, Shape.scan, hd]

theorem comment_eq (hslash : rest.head? = some '/') :
    (Scan.skipped, s.advance.skip (· != '\n')) = s.read rest (.comment, run (· != '\n') rest) := by
  obtain ⟨more, rfl⟩ := List.head?_eq_some_iff.mp hslash
  have hbetween : (s.past ['/']).Between (front ++ [c] ++ ['/']) more := Between.past h.between
  rw [advance_eq s (c := '/') (by decide) (by decide), hbetween.skip_eq (.ne (by decide)) (by decide),
    past_past, read, Piece.take_run]
  rfl

theorem string_eq (hquote : c = '"') : s.string = some (s.read rest (Piece.string rest)) := by
  have hcoarse : Coarse (· != '"') := .ne (by decide)
  have hskip : s.skipLines (· != '"') = s.past (rest.takeWhile (· != '"')) := by
    rw [skipLines, h.between.skipped_bytes hcoarse, count_utf8, skip, run, h.between.skipped_bytes hcoarse, length_utf8]
    rfl
  obtain ⟨before, behind, rfl, hbefore, hrun, hhead⟩ := run_split (· != '"') rest
  have hbetween : (s.past before).Between (front ++ [c] ++ before) behind := h.between.past
  rw [string, hskip, hbefore, closeString, hbetween.size_eq, Piece.string, hrun, List.length_append, read]
  cases behind with
  | nil => simp [Shape.scan]
  | cons d more =>
    obtain rfl : d = '"' := by simpa using hhead d rfl
    have hstart : (s.past before).start + 1 = String.utf8Len (front ++ [c]) := by
      rw [past_start, h.start, String.utf8Len_append, hquote]
      rfl
    have hslice : (s.past before).slice? ((s.past before).start + 1) (s.past before).curr =
        some (String.ofList before) := by
      rw [hstart, hbetween.curr, String.utf8Len_append (front ++ [c]), Between.slice_eq hbetween.source]
    have hpos := Char.utf8Size_pos '"'
    rw [if_pos (by rw [String.utf8Len_cons]; omega), if_pos (by rw [List.length_cons]; omega), hslice]
    rw [advance_eq _ (c := '"') (by decide) (by decide), past_past, Option.map_some, List.take_length_add_append]
    simp [Shape.scan]

/-- The scanner's text with what passes behind the first character. -/
theorem source_past {before behind : List Char} (hrest : rest = before ++ behind) :
    s.source = String.ofList (front ++ (c :: before) ++ behind) := by
  rw [h.source, hrest, List.append_assoc, List.cons_append]

theorem word_eq (hlow : c.toNat < 128) : s.word = s.read rest (Piece.word c rest) := by
  have hskip := h.between.skip_eq .continuesWord (by decide)
  have htext : ∀ d ∈ c :: rest.takeWhile Piece.continuesWord, d.toNat < 128 :=
    List.forall_mem_cons.mpr ⟨hlow, fun d hd => low_of_continuesWord (List.mem_takeWhile_imp hd)⟩
  obtain ⟨before, behind, rfl, hbefore, hrun, -⟩ := run_split Piece.continuesWord rest
  rw [hbefore] at htext hskip
  have hsize : (s.past before).curr - (s.past before).start = String.utf8Len (c :: before) := by
    rw [past_start, h.start, h.between.past.curr, ← List.append_cons, String.utf8Len_append, Nat.add_sub_cancel_left]
  have hbytes := Between.bytes_eq (s := s.past before) (h.source_past rfl)
  rw [utf8_low htext, ← h.start] at hbytes
  rw [word, hskip, read, Piece.word, hrun, closeWord, List.take_left, hsize, past_start, hbytes]
  rfl

theorem number_eq (hdigit : c.isDigit = true) : s.number = some (s.read rest (Piece.number c rest)) := by
  have hskip := h.between.skip_eq .isDigit (by decide)
  have hwhole : ∀ d ∈ c :: rest.takeWhile Char.isDigit, d.isDigit = true :=
    List.forall_mem_cons.mpr ⟨hdigit, fun d hd => List.mem_takeWhile_imp hd⟩
  obtain ⟨before, behind, rfl, hbefore, hrun, -⟩ := run_split Char.isDigit rest
  rw [hbefore] at hwhole hskip
  have hbetween : (s.past before).Between (front ++ [c] ++ before) behind := h.between.past
  have hnumber := Number.ofLexeme_append hwhole (fraction_head behind)
  have htext : (before ++ behind).take (before.length + Piece.fraction behind) =
      before ++ behind.take (Piece.fraction behind) := List.take_length_add_append _
  have hafter : ((before ++ behind).drop (before.length + 1)).take (Piece.fraction behind - 1) =
      (behind.take (Piece.fraction behind)).drop 1 := by
    rw [List.drop_length_add_append, List.drop_take]
  have hsplit := List.take_append_drop (Piece.fraction behind) behind
  have hfraction := hbetween.skipFraction_eq
  generalize behind.take (Piece.fraction behind) = text at *
  have hcurr : (s.past (before ++ text)).curr = String.utf8Len front + String.utf8Len (c :: (before ++ text)) := by
    rw [past, h.between.curr, ← String.utf8Len_append, ← String.utf8Len_append, List.append_assoc]
    rfl
  have hbehind : before ++ behind = (before ++ text) ++ behind.drop (Piece.fraction behind) := by
    rw [List.append_assoc, hsplit]
  have hslice := Between.slice_eq (s := s.past (before ++ text)) (h.source_past hbehind)
  rw [number, hskip, hfraction, past_past, closeNumber, past_start, h.start, hcurr, hslice, Option.map_some,
    String.toList_ofList, ← List.cons_append, hnumber, read, Piece.number, hrun]
  dsimp only
  rw [List.drop_left, htext, hafter, List.take_left]
  rfl

theorem other_eq (hlow : c.toNat < 128) :
    (if c.isDigit then s.number else if Piece.startsWord c then some s.word else s.unexpected) =
      some (s.read rest (if c.isDigit then Piece.number c rest
        else if Piece.startsWord c then Piece.word c rest else (.fault (.unexpected c), 0))) := by
  by_cases hdigit : c.isDigit = true
  · rw [if_pos hdigit, if_pos hdigit, h.number_eq hdigit]
  · rw [if_neg hdigit, if_neg hdigit]
    by_cases hstarts : Piece.startsWord c = true
    · rw [if_pos hstarts, if_pos hstarts, h.word_eq hlow]
    · rw [if_neg hstarts, if_neg hstarts, h.unexpected_eq]
      rfl

/-- An ASCII character other than a line break begins the same piece as a byte and as a character. -/
theorem scanByte_eq (hlow : c.toNat < 128) (hline : c ≠ '\n') :
    s.scanByte c = some (s.read rest (Piece.classify c rest)) := by
  unfold Piece.classify
  split
  iterate 10 rfl
  iterate 4 exact congrArg some (h.either_eq (by decide) (by decide) _ _)
  iterate 2 exact h.doubled_eq (by decide) (by decide) _
  · rw [scanByte, h.between.sees_eq (.eq hlow)]
    by_cases hhead : rest.head? = some '/'
    · rw [hhead, if_pos rfl]
      exact congrArg some (h.comment_eq hhead)
    · have hother : rest.head?.any (· == '/') = false := by
        cases rest with
        | nil => rfl
        | cons d rest => simpa using hhead
      rw [hother, if_neg hhead]
      rfl
  · exact h.string_eq rfl
  · split
    · rename_i hblank
      have hmem := Piece.mem_of_isBlank hblank
      fin_cases hmem
      · rfl
      · rfl
      · rfl
      · exact absurd rfl hline
    · unfold scanByte
      split
      case h_23 => exact h.other_eq hlow
      all_goals contradiction

end Begun

section High

variable {c : Char} (h : 128 ≤ c.toNat)

include h

theorem scanByte_high (s : Scanner) : s.scanByte c = s.unexpected := by
  unfold scanByte
  split
  case h_23 => rw [isDigit_high h, startsWord_high h, if_neg Bool.false_ne_true, if_neg Bool.false_ne_true]
  all_goals exact absurd h (by decide)

theorem classify_high (rest : List Char) : Piece.classify c rest = (.fault (.unexpected c), 0) := by
  unfold Piece.classify
  split
  case h_19 =>
    rw [isBlank_high h, isDigit_high h, startsWord_high h, if_neg Bool.false_ne_true, if_neg Bool.false_ne_true,
      if_neg Bool.false_ne_true]
  all_goals exact absurd h (by decide)

end High

/-- A scanner between two characters reads the piece that begins with the second. -/
theorem Between.scan_eq {s : Scanner} {front rest : List Char} {c : Char} (h : s.Between front (c :: rest)) :
    s.scan = some ((Piece.classify c rest).1.scan, s.begin.past (c :: rest.take (Piece.classify c rest).2)) := by
  have hbegin : s.begin.Between front ([c] ++ rest) := ⟨h.source, h.curr⟩
  rcases Nat.lt_or_ge c.toNat 128 with hlow | hhigh
  · have hbyte : s.bytes[s.curr]? = some c := by
      rw [h.next_byte, utf8_cons, utf8Char_low hlow]
      rfl
    by_cases hline : c = '\n'
    · subst hline
      rw [scan, hbyte]
      rfl
    · have hbegun : (s.begin.past [c]).Begun front c rest := ⟨hbegin.past, h.curr⟩
      rw [scan, hbyte]
      dsimp only
      rw [advance_eq _ hlow hline, hbegun.scanByte_eq hlow hline, read, past_past]
      rfl
  · obtain ⟨b, bs, hbs⟩ := List.exists_cons_of_ne_nil (utf8Char_ne_nil (c := c))
    have hbyte : s.bytes[s.curr]? = some b := by
      rw [h.next_byte, utf8_cons, hbs]
      rfl
    have hb : 128 ≤ b.toNat := utf8Char_high hhigh b (by rw [hbs]; exact List.mem_cons_self)
    have hline : '\n' ∉ [c] := by
      rw [List.mem_singleton]
      rintro rfl
      exact absurd hhigh (by decide)
    rw [scan, hbyte, classify_high hhigh]
    dsimp only
    rw [scanByte_high hb, unexpected_eq (s := s.begin.advance) h.source h.curr, List.take_zero, Scanner.past,
      utf8Len_singleton, List.count_eq_zero_of_not_mem hline, ← h.curr]
    rfl

end Scanner

end LoxLang
