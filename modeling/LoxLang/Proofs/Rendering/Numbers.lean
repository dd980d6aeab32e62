import LoxLang.Proofs.Rendering.Decimals
import LoxLang.Proofs.Tiling.Pieces

/-! A number that is finite and not negative, as it is written in a tree, is a literal of that same number. -/

namespace LoxLang

open Decimal

section Digits

/-- All are digits, and there is one. -/
structure Digits (text : List Char) : Prop where
  ne_nil : text ≠ []
  isDigit : ∀ c ∈ text, c.isDigit = true

theorem digits_toDigits (n : Nat) : Digits (Nat.toDigits 10 n) :=
  ⟨Nat.toDigits_ne_nil, fun _ => Nat.isDigit_of_mem_toDigits (by decide) (by decide)⟩

theorem isDigit_zeros {n : Nat} : ∀ c ∈ zeros n, c.isDigit = true := fun c hc => by
  obtain rfl := List.eq_of_mem_replicate hc
  rfl

theorem lexeme_integer {text : List Char} (h : Digits text) : Lexeme (.number (.ofDigits text [])) text := by
  cases text with
  | nil => exact absurd rfl h.ne_nil
  | cons c digits => exact .integer h.isDigit

theorem lexeme_decimal {before after : List Char} (hbefore : Digits before) (hafter : Digits after) :
    Lexeme (.number (.ofDigits before after)) (before ++ '.' :: after) := by
  cases before with
  | nil => exact absurd rfl hbefore.ne_nil
  | cons c digits =>
    cases after with
    | nil => exact absurd rfl hafter.ne_nil
    | cons d more => exact .decimal hbefore.isDigit hafter.isDigit

/-- A number is written as digits, with a point or without. -/
theorem Lexeme.number_cases {n : Number} {text : List Char} (h : Lexeme (.number n) text) :
    (Digits text ∧ n = .ofDigits text []) ∨
      ∃ before after, Digits before ∧ Digits after ∧ text = before ++ '.' :: after ∧ n = .ofDigits before after := by
  generalize hkind : Kind.number n = kind at h
  cases h with
  | symbol hmem =>
    rw [← hkind] at hmem
    simp [Kind.symbols] at hmem
  | word =>
    have hmem := Kind.ofWord_eq hkind.symm (by simp)
    simp [Kind.keywords] at hmem
  | integer hdigits => exact .inl ⟨⟨List.cons_ne_nil _ _, hdigits⟩, Kind.number.inj hkind⟩
  | decimal hbefore hafter =>
    exact .inr ⟨_, _, ⟨List.cons_ne_nil _ _, hbefore⟩, ⟨List.cons_ne_nil _ _, hafter⟩, rfl, Kind.number.inj hkind⟩
  | string => cases hkind

theorem Lexeme.number_chars {n : Number} {text : List Char} (h : Lexeme (.number n) text) :
    ∀ c ∈ text, c.isDigit = true ∨ c = '.' := by
  rcases h.number_cases with ⟨hdigits, -⟩ | ⟨before, after, hbefore, hafter, rfl, -⟩
  · exact fun c hc => .inl (hdigits.isDigit c hc)
  · exact List.forall_mem_append.mpr ⟨fun c hc => .inl (hbefore.isDigit c hc),
      List.forall_mem_cons.mpr ⟨.inr rfl, fun c hc => .inl (hafter.isDigit c hc)⟩⟩

theorem Lexeme.number_oneLine {n : Number} {text : List Char} (h : Lexeme (.number n) text) : '\n' ∉ text := fun hmem =>
  absurd (h.number_chars _ hmem) (by decide)

/-- A fraction of zero changes nothing. -/
theorem lexeme_zeroFraction {text : List Char} (h : Digits text) : Lexeme (.number (.ofDigits text [])) (text ++ ['.', '0']) := by
  have hread : Number.ofDigits text ['0'] = .ofDigits text [] := by
    rw [Number.ofDigits, Number.ofDigits, Nat.ofDigitChars_append, List.append_nil]
    exact congrArg Number.ofMagnitude (nearest_mul_left _ 1 (by decide))
  have hzero : Digits ['0'] := ⟨nofun, List.forall_mem_singleton.mpr (by decide)⟩
  exact hread ▸ lexeme_decimal h hzero

/-- The point stands in front of the last places, and zeros that are put in front change nothing. -/
theorem withPoint_split {digits : List Char} (hdigits : ∀ c ∈ digits, c.isDigit = true) {places : Nat} (hplaces : 0 < places) :
    ∃ before after, withPoint digits places = before ++ '.' :: after ∧ Digits before ∧ Digits after ∧
      after.length = places ∧ Nat.ofDigitChars 10 (before ++ after) 0 = Nat.ofDigitChars 10 digits 0 := by
  let padded := zeros (places + 1 - digits.length) ++ digits
  have hlength : places < padded.length := by
    simp only [padded, zeros, List.length_append, List.length_replicate]
    omega
  have hpadded : ∀ c ∈ padded, c.isDigit = true := List.forall_mem_append.mpr ⟨isDigit_zeros, hdigits⟩
  refine ⟨padded.take (padded.length - places), padded.drop (padded.length - places), rfl, ⟨?_, fun c hc =>
    hpadded c (List.mem_of_mem_take hc)⟩, ⟨?_, fun c hc => hpadded c (List.mem_of_mem_drop hc)⟩, ?_, ?_⟩
  · rw [List.ne_nil_iff_length_pos, List.length_take]
    omega
  · rw [List.ne_nil_iff_length_pos, List.length_drop]
    omega
  · rw [List.length_drop]
    omega
  · rw [List.take_append_drop, Nat.ofDigitChars_append, zeros, Nat.ofDigitChars_replicate_zero, Nat.mul_zero]

end Digits

/-- A decimal that is written in positions is read as the double that it is meant for. -/
theorem Decimal.Scaled.lexeme_positional (d : Scaled) : Lexeme (.number (.ofMagnitude d.read)) d.positional := by
  have hdigits := digits_toDigits d.digits
  unfold Scaled.positional
  dsimp only
  split
  · rename_i hexponent
    have htext : Digits (Nat.toDigits 10 d.digits ++ zeros d.exponent.toNat) :=
      ⟨List.append_ne_nil_of_left_ne_nil hdigits.ne_nil _, List.forall_mem_append.mpr ⟨hdigits.isDigit, isDigit_zeros⟩⟩
    have hread : Number.ofDigits (Nat.toDigits 10 d.digits ++ zeros d.exponent.toNat) [] = .ofMagnitude d.read := by
      rw [Number.ofDigits, List.append_nil, Nat.ofDigitChars_append, Nat.ofDigitChars_ten_toDigits, zeros,
        Nat.ofDigitChars_replicate_zero, Scaled.read_of_nonneg hexponent, Nat.mul_comm]
      rfl
    exact hread ▸ lexeme_integer htext
  · rename_i hexponent
    have hplaces : 0 < (-d.exponent).toNat := by omega
    obtain ⟨before, after, htext, hbefore, hafter, hlength, hvalue⟩ := withPoint_split hdigits.isDigit hplaces
    have hread : Number.ofDigits before after = .ofMagnitude d.read := by
      rw [Number.ofDigits, hvalue, hlength, Nat.ofDigitChars_ten_toDigits, Scaled.read_of_neg (by omega)]
      rfl
    rw [htext, ← hread]
    exact lexeme_decimal hbefore hafter

/-- Without places behind the point there is no point. -/
theorem Decimal.Scaled.point_notMem {d : Scaled} (h : 0 ≤ d.exponent) : '.' ∉ d.positional := by
  rw [positional, if_pos h]
  refine fun hmem => absurd (List.forall_mem_append.mpr ⟨(digits_toDigits d.digits).isDigit, isDigit_zeros⟩ _ hmem) ?_
  decide

theorem Decimal.Scaled.lexeme_zeroFraction {d : Scaled} (h : 0 ≤ d.exponent) :
    Lexeme (.number (.ofMagnitude d.read)) (d.positional ++ ['.', '0']) := by
  rcases d.lexeme_positional.number_cases with ⟨hdigits, hread⟩ | ⟨before, after, -, -, htext, -⟩
  · exact hread ▸ LoxLang.lexeme_zeroFraction hdigits
  · exact absurd (htext ▸ List.mem_append_right _ List.mem_cons_self) (point_notMem h)

namespace Number

variable {n : Number}

theorem signed_of_positive (h : n.isNegative = false) (size : List Char) : (n.signed size).toList = size := by
  rw [signed, h]
  exact String.toList_ofList

/-- Nothing but the sign is left out. -/
theorem ofMagnitude_magnitude (h : n.isNegative = false) : ofMagnitude n.magnitude = n := by
  have hlt : n.bits.toNat < signBit := Nat.lt_of_not_le (of_decide_eq_false h)
  rw [ofMagnitude, magnitude, Nat.mod_eq_of_lt hlt, UInt64.ofNat_toNat]

theorem toNat_ofMagnitude {m : Nat} (h : m ≤ infinity) : (ofMagnitude m).bits.toNat = m := by
  rw [ofMagnitude, UInt64.toNat_ofNat']
  exact Nat.mod_eq_of_lt (h.trans_lt (by decide))

theorem isNegative_ofMagnitude {m : Nat} (h : m ≤ infinity) : (ofMagnitude m).isNegative = false := by
  rw [isNegative, toNat_ofMagnitude h]
  exact decide_eq_false (h.trans_lt (by decide)).not_ge

theorem magnitude_ofMagnitude {m : Nat} (h : m ≤ infinity) : (ofMagnitude m).magnitude = m := by
  rw [magnitude, toNat_ofMagnitude h]
  exact Nat.mod_eq_of_lt (h.trans_lt (by decide))

/-- A literal has no sign, and is a number or infinite. -/
theorem exists_magnitude_of_lexeme {text : List Char} (h : Lexeme (.number n) text) :
    ∃ m ≤ infinity, n = ofMagnitude m := by
  rcases h.number_cases with ⟨-, rfl⟩ | ⟨before, after, -, -, -, rfl⟩ <;> exact ⟨_, min_le_left _ _, rfl⟩

theorem isNegative_of_lexeme {text : List Char} (h : Lexeme (.number n) text) : n.isNegative = false := by
  obtain ⟨m, hm, rfl⟩ := exists_magnitude_of_lexeme h
  exact isNegative_ofMagnitude hm

theorem magnitude_lt (h : n.isFinite = true) : n.magnitude < infinity := of_decide_eq_true h

theorem nearest_whole (h : n.isWhole = true) : nearest n.whole 1 = n.magnitude := by
  obtain ⟨hfinite, hsteps⟩ := Bool.and_eq_true_iff.mp h
  have hcount : unit * n.whole = steps n.magnitude := Nat.mul_div_cancel' (Nat.dvd_of_mod_eq_zero (eq_of_beq hsteps))
  calc nearest n.whole 1 = nearest (unit * n.whole) (unit * 1) := (nearest_mul_left n.whole 1 unit_pos).symm
    _ = n.magnitude := by rw [hcount, Nat.mul_one, nearest_steps (magnitude_lt hfinite)]

theorem ofDigits_whole (h : n.isWhole = true) (hpositive : n.isNegative = false) :
    ofDigits (Nat.toDigits 10 n.whole) [] = n := by
  rw [ofDigits, List.append_nil, Nat.ofDigitChars_ten_toDigits]
  exact (congrArg ofMagnitude (nearest_whole h)).trans (ofMagnitude_magnitude hpositive)

/-- A whole number reads back from its digits, with or without a fraction of zero. -/
theorem lexeme_whole (h : n.isWhole = true) (hpositive : n.isNegative = false) :
    Lexeme (.number n) (Nat.toDigits 10 n.whole) ∧ Lexeme (.number n) n.wholeWithFraction := by
  have hwhole := lexeme_integer (digits_toDigits n.whole)
  have hfraction := lexeme_zeroFraction (digits_toDigits n.whole)
  rw [ofDigits_whole h hpositive] at hwhole hfraction
  exact ⟨hwhole, hfraction⟩

theorem isWhole_of_isZero (hfinite : n.isFinite = true) (hzero : n.isZero = true) : n.isWhole = true := by
  refine Bool.and_eq_true_iff.mpr ⟨hfinite, beq_iff_eq.mpr ?_⟩
  rw [eq_of_beq hzero, steps_of_lt (by decide), Nat.zero_mod]

theorem whole_of_isZero (hzero : n.isZero = true) : n.whole = 0 := by
  rw [whole, eq_of_beq hzero, steps_of_lt (by decide), Nat.zero_div]

theorem plain_of_finite (hfinite : n.isFinite = true) (hzero : n.isZero = false) :
    n.plain = n.signed (shortest .up n.magnitude).positional := by
  have hnan : n.isNaN = false := decide_eq_false (Nat.not_lt.mpr (magnitude_lt hfinite).le)
  rw [plain, hnan, hfinite, hzero]
  rfl

/-- The shortest digits are read as the number that they were chosen for. -/
theorem lexeme_plain (hfinite : n.isFinite = true) (hpositive : n.isNegative = false) (hzero : n.isZero = false) :
    Lexeme (.number n) n.plain.toList := by
  have h := (shortest .up n.magnitude).lexeme_positional
  rw [read_shortest .up (magnitude_lt hfinite), ofMagnitude_magnitude hpositive] at h
  rwa [plain_of_finite hfinite hzero, signed_of_positive hpositive]

/-- What is written in a tree is read as the number that it is. -/
theorem lexeme_inTree (hfinite : n.isFinite = true) (hpositive : n.isNegative = false) :
    Lexeme (.number n) n.inTree.toList := by
  unfold inTree
  split
  · rename_i hwhole
    rw [signed_of_positive hpositive]
    exact (lexeme_whole hwhole hpositive).2
  · rename_i hfraction
    exact lexeme_plain hfinite hpositive (Bool.eq_false_iff.mpr fun hzero => hfraction (isWhole_of_isZero hfinite hzero))

end Number

end LoxLang
