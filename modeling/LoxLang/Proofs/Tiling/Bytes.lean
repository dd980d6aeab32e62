import LoxLang.Proofs.Tiling.Pieces
import Mathlib

/-! A text byte by byte. A byte stands as the character with its number, so an ASCII character is its own byte, and all
bytes of another one are beyond the ASCII ones. -/

namespace LoxLang

/-- The UTF-8 bytes of a character. -/
def utf8Char (c : Char) : List Char := (String.utf8EncodeChar c).map Char.ofUInt8

/-- The UTF-8 bytes of a text. -/
def utf8 (text : List Char) : List Char := text.flatMap utf8Char

section Encoding

theorem toNat_ofUInt8 (b : UInt8) : (Char.ofUInt8 b).toNat = b.toNat := by
  simp [Char.ofUInt8, Char.toNat]

variable {c : Char}

theorem utf8Char_low (h : c.toNat < 128) : utf8Char c = [c] := by
  have hval : c.val.toNat < 128 := h
  rw [utf8Char, String.utf8EncodeChar.eq_1, if_pos (Nat.le_of_lt_succ hval), List.map_singleton, List.singleton_inj]
  apply Char.ext
  apply UInt32.toNat_inj.mp
  change (Char.ofUInt8 _).toNat = _
  rw [toNat_ofUInt8, UInt8.toNat_ofNat', Nat.mod_eq_of_lt (by omega)]

theorem utf8Char_high (h : 128 ≤ c.toNat) : ∀ b ∈ utf8Char c, 128 ≤ b.toNat := by
  have hval : 128 ≤ c.val.toNat := h
  rw [utf8Char, List.forall_mem_map]
  simp only [toNat_ofUInt8]
  rw [String.utf8EncodeChar.eq_1, if_neg (by omega)]
  generalize c.val.toNat = v
  -- the encodings of two, three and four bytes
  split
  · simp only [List.forall_mem_cons, UInt8.toNat_ofNat']
    refine ⟨by omega, by omega, by simp⟩
  · split
    · simp only [List.forall_mem_cons, UInt8.toNat_ofNat']
      refine ⟨by omega, by omega, by omega, by simp⟩
    · simp only [List.forall_mem_cons, UInt8.toNat_ofNat']
      refine ⟨by omega, by omega, by omega, by omega, by simp⟩

theorem length_utf8Char (c : Char) : (utf8Char c).length = c.utf8Size := by
  rw [utf8Char, List.length_map, String.length_utf8EncodeChar]

theorem utf8Char_ne_nil : utf8Char c ≠ [] := by
  rw [utf8Char, ne_eq, List.map_eq_nil_iff]
  exact String.utf8EncodeChar_ne_nil

end Encoding

section Texts

variable (c : Char) (text more : List Char)

theorem utf8_cons : utf8 (c :: text) = utf8Char c ++ utf8 text := List.flatMap_cons

theorem utf8_append : utf8 (text ++ more) = utf8 text ++ utf8 more := List.flatMap_append

theorem utf8Len_singleton : String.utf8Len [c] = c.utf8Size := by
  rw [String.utf8Len_cons, String.utf8Len_nil, Nat.zero_add]

theorem length_utf8 : (utf8 text).length = String.utf8Len text := by
  induction text with
  | nil => rfl
  | cons c text ih => rw [utf8_cons, List.length_append, ih, length_utf8Char, String.utf8Len_cons, Nat.add_comm]

theorem utf8_low {text : List Char} (h : ∀ c ∈ text, c.toNat < 128) : utf8 text = text := by
  induction text with
  | nil => rfl
  | cons c text ih =>
    rw [List.forall_mem_cons] at h
    rw [utf8_cons, utf8Char_low h.1, ih h.2, List.singleton_append]

/-- All bytes of a line break are line breaks, and no others. -/
theorem count_utf8 : (utf8 text).count '\n' = text.count '\n' := by
  have hother : ∀ d : Char, 128 ≤ d.toNat → d ≠ '\n' := by
    rintro d hd rfl
    exact absurd hd (by decide)
  induction text with
  | nil => rfl
  | cons c text ih =>
    rw [utf8_cons, List.count_append, ih, List.count_cons, Nat.add_comm]
    rcases Nat.lt_or_ge c.toNat 128 with hlow | hhigh
    · rw [utf8Char_low hlow, List.count_singleton]
    · rw [List.count_eq_zero_of_not_mem fun h => hother _ (utf8Char_high hhigh _ h) rfl, if_neg]
      simpa using hother c hhigh

/-- The bytes of a string are those of its characters. -/
theorem bytes_ofList : (String.ofList text).toByteArray.data.toList.map Char.ofUInt8 = utf8 text := by
  rw [← String.utf8Encode_toList, String.toList_ofList, List.utf8Encode.eq_1, List.data_toByteArray, List.map_flatMap]
  rfl

/-- The end of a part of a text is between characters. -/
theorem isValid_utf8Len : String.Pos.Raw.IsValid (String.ofList (text ++ more)) ⟨String.utf8Len text⟩ := by
  rw [String.ofList_append]
  refine String.Pos.Raw.isValid_iff_exists_append.mpr ⟨_, _, rfl, ?_⟩
  rw [← String.utf8ByteSize_ofList]
  rfl

end Texts

/-- A test that tells no two characters beyond the ASCII ones apart. -/
def Coarse (passes : Char → Bool) : Prop := ∀ c d : Char, 128 ≤ c.toNat → 128 ≤ d.toNat → passes c = passes d

namespace Coarse

section Runs

variable {passes : Char → Bool} (h : Coarse passes)

include h

theorem utf8Char_eq (c : Char) : ∀ b ∈ utf8Char c, passes b = passes c := by
  intro b hb
  rcases Nat.lt_or_ge c.toNat 128 with hlow | hhigh
  · rw [utf8Char_low hlow, List.mem_singleton] at hb
    rw [hb]
  · exact h b c (utf8Char_high hhigh b hb) hhigh

/-- The bytes that pass are those of the characters that do: none is left of a character. -/
theorem takeWhile_utf8 (text : List Char) : (utf8 text).takeWhile passes = utf8 (text.takeWhile passes) := by
  induction text with
  | nil => rfl
  | cons c text ih =>
    have hchar := h.utf8Char_eq c
    rw [utf8_cons, List.takeWhile_cons]
    cases hc : passes c with
    | true => rw [List.takeWhile_append_of_pos fun b hb => (hchar b hb).trans hc, ih, if_pos rfl, utf8_cons]
    | false =>
      obtain ⟨b, bs, hbs⟩ := List.exists_cons_of_ne_nil (utf8Char_ne_nil (c := c))
      have hb : passes b = false := (hchar b (by rw [hbs]; exact List.mem_cons_self)).trans hc
      rw [hbs, List.cons_append, List.takeWhile_cons, hb]
      rfl

end Runs

theorem ne {d : Char} (hd : d.toNat < 128) : Coarse (· != d) := by
  have hne : ∀ c : Char, 128 ≤ c.toNat → (c != d) = true := by
    intro c hc
    rw [bne_iff_ne]
    rintro rfl
    omega
  exact fun a b ha hb => (hne a ha).trans (hne b hb).symm

/-- A test that only ASCII characters pass. -/
theorem of_low {passes : Char → Bool} (h : ∀ c, passes c = true → c.toNat < 128) : Coarse passes := by
  have hnone : ∀ c : Char, 128 ≤ c.toNat → passes c = false := fun c hc =>
    Bool.eq_false_iff.mpr fun hpasses => absurd (h c hpasses) (Nat.not_lt.mpr hc)
  exact fun a b ha hb => (hnone a ha).trans (hnone b hb).symm

theorem eq {d : Char} (hd : d.toNat < 128) : Coarse (· == d) := of_low fun c hc => by rwa [eq_of_beq hc]

end Coarse

theorem low_of_isAlphanum {c : Char} (h : c.isAlphanum = true) : c.toNat < 128 := by
  simp only [Char.isAlphanum, Char.isAlpha, Char.isUpper, Char.isLower, Char.isDigit, Bool.or_eq_true, Bool.and_eq_true,
    decide_eq_true_eq, ge_iff_le, UInt32.le_iff_toNat_le] at h
  change ((65 ≤ c.toNat ∧ c.toNat ≤ 90) ∨ (97 ≤ c.toNat ∧ c.toNat ≤ 122)) ∨ (48 ≤ c.toNat ∧ c.toNat ≤ 57) at h
  omega

theorem low_of_isDigit {c : Char} (h : c.isDigit = true) : c.toNat < 128 :=
  low_of_isAlphanum (Bool.or_eq_true_iff.mpr (.inr h))

theorem low_of_continuesWord {c : Char} (h : Piece.continuesWord c = true) : c.toNat < 128 := by
  rcases Bool.or_eq_true_iff.mp h with hletter | hunderscore
  · exact low_of_isAlphanum hletter
  · rw [eq_of_beq hunderscore]
    decide

namespace Coarse

theorem isDigit : Coarse Char.isDigit := of_low fun _ => low_of_isDigit

theorem continuesWord : Coarse Piece.continuesWord := of_low fun _ => low_of_continuesWord

end Coarse

section High

variable {c : Char} (h : 128 ≤ c.toNat)

include h

theorem isDigit_high : c.isDigit = false :=
  Bool.eq_false_iff.mpr fun hdigit => absurd (low_of_isDigit hdigit) (Nat.not_lt.mpr h)

theorem startsWord_high : Piece.startsWord c = false :=
  Bool.eq_false_iff.mpr fun hstarts =>
    absurd (low_of_continuesWord (Piece.continuesWord_of_starts hstarts)) (Nat.not_lt.mpr h)

theorem isBlank_high : Piece.isBlank c = false := by
  refine Bool.eq_false_iff.mpr fun hblank => ?_
  have hmem := Piece.mem_of_isBlank hblank
  fin_cases hmem
  all_goals exact absurd h (by decide)

end High

end LoxLang
