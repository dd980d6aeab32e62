import LoxLang.CommandLine.Reply
import LoxLang.Proofs.Rendering.Trees

/-! A listing determines its tokens. Quoted texts show their own end, numbers end with their line, and each kind is told
by how it begins. -/

namespace LoxLang

open Decimal

/-- A text is told from what stands behind the first of a character that is not in it. -/
theorem until_injective {c : Char} {a b r s : List Char} (ha : c ∉ a) (hb : c ∉ b) (h : a ++ c :: r = b ++ c :: s) :
    a = b ∧ r = s := by
  have htake : ∀ {a r : List Char}, c ∉ a → (a ++ c :: r).takeWhile (· != c) = a := fun {a r} ha => by
    rw [List.takeWhile_append_of_pos fun d hd => bne_iff_ne.mpr (ne_of_mem_of_not_mem hd ha),
      List.takeWhile_cons_of_neg (by simp), List.append_nil]
  have hab : a = b := by rw [← htake ha (r := r), h, htake hb]
  subst hab
  exact ⟨rfl, (List.cons.inj (List.append_cancel_left h)).2⟩

namespace Listing

section Quotes

def hexValue (c : Char) : Nat := if c.isDigit then c.toNat - 48 else c.toNat - 87

/-- The character that is written at the beginning of a text in quotes, and the text behind it. -/
def unescape : List Char → Option (Char × List Char)
  | '\\' :: 'b' :: rest => some ('\x08', rest)
  | '\\' :: 'f' :: rest => some ('\x0c', rest)
  | '\\' :: 'n' :: rest => some ('\n', rest)
  | '\\' :: 'r' :: rest => some ('\r', rest)
  | '\\' :: 't' :: rest => some ('\t', rest)
  | '\\' :: 'u' :: '0' :: '0' :: high :: low :: rest => some (.ofNat (16 * hexValue high + hexValue low), rest)
  | '\\' :: c :: rest => some (c, rest)
  | c :: rest => some (c, rest)
  | [] => none

theorem hexValue_hexDigit : ∀ n < 16, hexValue (hexDigit n) = n := by decide

theorem unescape_escape (c : Char) (rest : List Char) : unescape (escape c ++ rest) = some (c, rest) := by
  unfold escape
  split
  iterate 7 rfl
  split
  · rename_i hcontrol
    have hvalue : 16 * hexValue (hexDigit (c.toNat / 16)) + hexValue (hexDigit (c.toNat % 16)) = c.toNat := by
      rw [hexValue_hexDigit _ (by omega), hexValue_hexDigit _ (by omega), Nat.div_add_mod]
    have hread : unescape (['\\', 'u', '0', '0', hexDigit (c.toNat / 16), hexDigit (c.toNat % 16)] ++ rest) =
      some (.ofNat (16 * hexValue (hexDigit (c.toNat / 16)) + hexValue (hexDigit (c.toNat % 16))), rest) := rfl
    rw [hread, hvalue, Char.ofNat_toNat]
  · rename_i hbackslash _ _ _ _ _ _
    rw [List.singleton_append, unescape]
    all_goals simp_all

/-- No character is written with a quote in front. -/
theorem escape_append_ne (c : Char) (r s : List Char) : escape c ++ r ≠ '"' :: s := fun h => by
  have hread := congrArg unescape h
  rw [unescape_escape] at hread
  obtain ⟨rfl, rfl⟩ := Prod.mk.inj (Option.some.inj hread)
  cases h

theorem escapes_injective : ∀ {a b r s : List Char}, a.flatMap escape ++ '"' :: r = b.flatMap escape ++ '"' :: s →
    a = b ∧ r = s
  | [], [], _, _, h => ⟨rfl, (List.cons.inj h).2⟩
  | [], d :: b, r, s, h => by
    rw [List.flatMap_cons, List.append_assoc] at h
    exact absurd h.symm (escape_append_ne d _ r)
  | c :: a, [], r, s, h => by
    rw [List.flatMap_cons, List.append_assoc] at h
    exact absurd h (escape_append_ne c _ s)
  | c :: a, d :: b, r, s, h => by
    rw [List.flatMap_cons, List.flatMap_cons, List.append_assoc, List.append_assoc] at h
    have hread := congrArg unescape h
    rw [unescape_escape, unescape_escape] at hread
    obtain ⟨rfl, hrest⟩ := Prod.mk.inj (Option.some.inj hread)
    obtain ⟨rfl, rfl⟩ := escapes_injective hrest
    exact ⟨rfl, rfl⟩

/-- A quoted text shows its own end. -/
theorem quoted_injective {a b : String} {r s : List Char} (h : (quoted a).toList ++ r = (quoted b).toList ++ s) :
    a = b ∧ r = s := by
  rw [quoted, quoted, String.toList_ofList, String.toList_ofList, List.cons_append, List.cons_append, List.cons_append,
    List.cons_append, List.append_assoc, List.append_assoc] at h
  obtain ⟨htext, hrest⟩ := escapes_injective (List.cons.inj h).2
  exact ⟨String.toList_inj.mp htext, hrest⟩

end Quotes

section Numerals

variable {n n' : Number} {d d' : Scaled}

/-- A number that a literal can have. -/
def IsNumeral (n : Number) : Prop := ∃ m ≤ infinity, n = .ofMagnitude m

/-- The first of the digits, and the others behind a point. -/
def mantissa (digits : List Char) : List Char :=
  digits.take 1 ++ if (digits.drop 1).isEmpty then [] else '.' :: digits.drop 1

theorem mantissa_chars {digits : List Char} (h : ∀ c ∈ digits, c.isDigit = true) :
    ∀ c ∈ mantissa digits, c.isDigit = true ∨ c = '.' := by
  refine List.forall_mem_append.mpr ⟨fun c hc => .inl (h c (List.mem_of_mem_take hc)), ?_⟩
  split
  · nofun
  · exact List.forall_mem_cons.mpr ⟨.inr rfl, fun c hc => .inl (h c (List.mem_of_mem_drop hc))⟩

theorem mantissa_injective : ∀ {a b : List Char}, a ≠ [] → b ≠ [] → mantissa a = mantissa b → a = b
  | [], _, ha, _, _ => absurd rfl ha
  | _, [], _, hb, _ => absurd rfl hb
  | [c], [d], _, _, h => h
  | [_], _ :: _ :: _, _, _, h | _ :: _ :: _, [_], _, _, h => by simp [mantissa] at h
  | c :: c' :: a, d :: d' :: b, _, _, h => by simpa [mantissa] using h

theorem toDigits_injective {a b : Nat} (h : Nat.toDigits 10 a = Nat.toDigits 10 b) : a = b := by
  rw [← Nat.ofDigitChars_ten_toDigits (n := a), h, Nat.ofDigitChars_ten_toDigits]

theorem scientific_injective (h : d.scientific = d'.scientific) : d = d' := by
  have hnone : ∀ d : Scaled, 'e' ∉ mantissa (Nat.toDigits 10 d.digits) := fun d hmem =>
    absurd (mantissa_chars (digits_toDigits _).isDigit _ hmem) (by decide)
  obtain ⟨hmantissa, hexponent⟩ := until_injective (hnone d) (hnone d') h
  have hdigits := toDigits_injective
    (mantissa_injective (digits_toDigits _).ne_nil (digits_toDigits _).ne_nil hmantissa)
  obtain ⟨hsign, hexponent⟩ := List.cons.inj hexponent
  have habs := toDigits_injective hexponent
  have hleading : d.leading = d'.leading := by
    split at hsign <;> split at hsign
    · omega
    · cases hsign
    · cases hsign
    · omega
  obtain ⟨digits, e⟩ := d
  obtain ⟨digits', e'⟩ := d'
  obtain rfl : digits = digits' := hdigits
  unfold Scaled.leading at hleading
  obtain rfl : e = e' := by simpa using hleading
  rfl

/-- What a numeral in a listing is: no number, a literal, or a number with an exponent. -/
theorem inListing_cases (h : IsNumeral n) :
    (n = .ofMagnitude infinity ∧ n.inListing = "null") ∨ Lexeme (.number n) n.inListing.toList ∨
      ∃ d : Scaled, n = .ofMagnitude d.read ∧ n.inListing.toList = d.scientific := by
  obtain ⟨m, hm, rfl⟩ := h
  have hpositive := Number.isNegative_ofMagnitude hm
  have hmagnitude := Number.magnitude_ofMagnitude hm
  unfold Number.inListing
  split
  · rename_i hfinite
    have hle : infinity ≤ m := by simpa [Number.isFinite, hmagnitude] using hfinite
    exact .inl ⟨by rw [Nat.le_antisymm hm hle], rfl⟩
  · rename_i hfinite
    have hfinite : (Number.ofMagnitude m).isFinite = true := by simpa using hfinite
    split
    · rename_i hzero
      have hlexeme := (Number.lexeme_whole (Number.isWhole_of_isZero hfinite hzero) hpositive).2
      rw [Number.wholeWithFraction, Number.whole_of_isZero hzero] at hlexeme
      rw [Number.signed_of_positive hpositive]
      exact .inr (.inl hlexeme)
    · have hlt := Number.magnitude_lt hfinite
      rw [hmagnitude] at hlt ⊢
      have hread := read_shortest .toEven hlt
      generalize shortest .toEven m = d at hread ⊢
      subst hread
      dsimp only
      split
      · rw [Number.signed_of_positive hpositive]
        refine .inr (.inl ?_)
        split
        · rename_i hexponent
          exact d.lexeme_zeroFraction hexponent
        · exact d.lexeme_positional
      · rw [Number.signed_of_positive hpositive]
        exact .inr (.inr ⟨d, rfl, rfl⟩)

theorem exponent_mem_scientific (d : Scaled) : 'e' ∈ d.scientific := List.mem_append_right _ List.mem_cons_self

theorem inListing_injective (hn : IsNumeral n) (hn' : IsNumeral n') (h : n.inListing = n'.inListing) : n = n' := by
  have hnull : ∀ {n : Number}, ¬ Lexeme (.number n) "null".toList := fun hlexeme =>
    absurd (hlexeme.number_chars 'n' (by decide)) (by decide)
  have hexponent : ∀ {n : Number} {d : Scaled}, ¬ Lexeme (.number n) d.scientific := fun hlexeme =>
    absurd (hlexeme.number_chars 'e' (exponent_mem_scientific _)) (by decide)
  have hneither : ∀ {d : Scaled}, "null".toList ≠ d.scientific := fun heq =>
    absurd (heq ▸ exponent_mem_scientific _) (by decide)
  rcases inListing_cases hn with ⟨rfl, hn⟩ | hn | ⟨d, rfl, hn⟩ <;>
    rcases inListing_cases hn' with ⟨rfl, hn'⟩ | hn' | ⟨d', rfl, hn'⟩
  · rfl
  · rw [← h, hn] at hn'
    exact absurd hn' hnull
  · rw [← h, hn] at hn'
    exact absurd hn' hneither
  · rw [h, hn'] at hn
    exact absurd hn hnull
  · rw [← h] at hn'
    exact Kind.number.inj ((Kind.ofText_of_lexeme hn).symm.trans (Kind.ofText_of_lexeme hn'))
  · rw [h, hn'] at hn
    exact absurd hn hexponent
  · rw [h, hn'] at hn
    exact absurd hn hneither
  · rw [← h, hn] at hn'
    exact absurd hn' hexponent
  · rw [h, hn'] at hn
    rw [scientific_injective hn]

theorem scientific_oneLine (d : Scaled) : '\n' ∉ d.scientific := by
  refine List.not_mem_append (fun hmem => ?_) (List.not_mem_cons_of_ne_of_not_mem (by decide) ?_)
  · exact absurd (mantissa_chars (digits_toDigits _).isDigit _ hmem) (by decide)
  · refine List.not_mem_cons_of_ne_of_not_mem (by split <;> decide) fun hmem => ?_
    exact absurd ((digits_toDigits _).isDigit _ hmem) (by decide)

/-- A numeral ends with its line. -/
theorem inListing_oneLine (h : IsNumeral n) : '\n' ∉ n.inListing.toList := by
  rcases inListing_cases h with ⟨-, hn⟩ | hn | ⟨d, -, hn⟩
  · rw [hn]
    decide
  · exact hn.number_oneLine
  · rw [hn]
    exact scientific_oneLine d

end Numerals

section Tokens

variable {k k' : Kind} {t t' : Token} {r s : List Char}

theorem kind_cases (k : Kind) : k ∈ Kind.plain ∨ (∃ text, k = .string text) ∨ ∃ n, k = .number n := by
  cases k with
  | string text => exact .inr (.inl ⟨text, rfl⟩)
  | number n => exact .inr (.inr ⟨n, rfl⟩)
  | _ => exact .inl (by decide)

theorem kind_of_plain (h : k ∈ Kind.plain) : kind k = quoted k.name := by
  cases k with
  | string | number => simp [Kind.plain] at h
  | _ => rfl

theorem name_injective : ∀ k ∈ Kind.plain, ∀ k' ∈ Kind.plain, k.name = k'.name → k = k' := by decide +kernel

theorem object_single (key value : String) : (object "    " [member "      " key value]).toList =
    "\x7b\n      ".toList ++ ((quoted key).toList ++ (": ".toList ++ (value.toList ++ '\n' :: "    \x7d".toList))) := by
  simp only [object, member, String.intercalate_singleton, String.toList_append, List.append_assoc]
  rfl

theorem object_injective {key key' value value' : String}
    (h : (object "    " [member "      " key value]).toList ++ r = (object "    " [member "      " key' value']).toList ++ s) :
    key = key' ∧ value.toList ++ '\n' :: ("    \x7d".toList ++ r) = value'.toList ++ '\n' :: ("    \x7d".toList ++ s) := by
  rw [object_single, object_single] at h
  simp only [List.append_assoc, List.append_cancel_left_eq, List.cons_append] at h
  obtain ⟨rfl, hrest⟩ := quoted_injective h
  exact ⟨rfl, List.append_cancel_left hrest⟩

theorem quoted_ne_object (key value text : String) :
    (quoted text).toList ++ r ≠ (object "    " [member "      " key value]).toList ++ s := by
  rw [quoted, String.toList_ofList, object_single]
  exact fun h => absurd (List.cons.inj h).1 (by decide)

theorem token_eq (t : Token) : (token t).toList =
    "  \x7b\n    \"token_type\": ".toList ++ ((kind t.kind).toList ++ (",\n    \"lexeme\": ".toList ++
      ((quoted t.lexeme).toList ++ (",\n    \"line\": ".toList ++ (Nat.toDigits 10 t.line ++ "\n  \x7d".toList))))) := by
  have hline : (toString t.line).toList = Nat.toDigits 10 t.line := String.toList_ofList
  simp only [token, object, member, String.toList_append, String.toList_intercalate, List.map_cons, List.map_nil,
    List.intercalate_cons_cons, List.intercalate_singleton, List.append_assoc, hline]
  rfl

/-- A kind shows its own end. -/
theorem kind_injective (hk : ∀ n, k = .number n → IsNumeral n) (hk' : ∀ n, k' = .number n → IsNumeral n)
    (h : (kind k).toList ++ r = (kind k').toList ++ s) : k = k' ∧ r = s := by
  have hnames : "STRING" ≠ "NUMBER" := by decide
  rcases kind_cases k with hplain | ⟨text, rfl⟩ | ⟨n, rfl⟩ <;>
    rcases kind_cases k' with hplain' | ⟨text', rfl⟩ | ⟨n', rfl⟩
  · rw [kind_of_plain hplain, kind_of_plain hplain'] at h
    obtain ⟨hname, hrest⟩ := quoted_injective h
    exact ⟨name_injective k hplain k' hplain' hname, hrest⟩
  · rw [kind_of_plain hplain] at h
    exact absurd h (quoted_ne_object _ _ _)
  · rw [kind_of_plain hplain] at h
    exact absurd h (quoted_ne_object _ _ _)
  · rw [kind_of_plain hplain'] at h
    exact absurd h.symm (quoted_ne_object _ _ _)
  · obtain ⟨-, hvalue⟩ := object_injective h
    obtain ⟨rfl, hrest⟩ := quoted_injective hvalue
    exact ⟨rfl, List.append_cancel_left (List.cons.inj hrest).2⟩
  · exact absurd (object_injective h).1 hnames
  · rw [kind_of_plain hplain'] at h
    exact absurd h.symm (quoted_ne_object _ _ _)
  · exact absurd (object_injective h).1.symm hnames
  · obtain ⟨-, hvalue⟩ := object_injective h
    obtain ⟨htext, hrest⟩ := until_injective (inListing_oneLine (hk n rfl)) (inListing_oneLine (hk' n' rfl)) hvalue
    rw [inListing_injective (hk n rfl) (hk' n' rfl) (String.toList_inj.mp htext)]
    exact ⟨rfl, List.append_cancel_left hrest⟩

/-- A token shows its own end. -/
theorem token_injective (ht : ∀ n, t.kind = .number n → IsNumeral n) (ht' : ∀ n, t'.kind = .number n → IsNumeral n)
    (h : (token t).toList ++ r = (token t').toList ++ s) : t = t' ∧ r = s := by
  have hdigits : ∀ n, '\n' ∉ Nat.toDigits 10 n := fun n hmem => absurd ((digits_toDigits n).isDigit _ hmem) (by decide)
  rw [token_eq, token_eq] at h
  simp only [List.append_assoc, List.append_cancel_left_eq] at h
  obtain ⟨hkind, hbehind⟩ := kind_injective ht ht' h
  rw [List.append_cancel_left_eq] at hbehind
  obtain ⟨hlexeme, hlines⟩ := quoted_injective hbehind
  rw [List.append_cancel_left_eq] at hlines
  obtain ⟨hline, hrest⟩ := until_injective (hdigits t.line) (hdigits t'.line) hlines
  have htoken : (⟨t.kind, t.lexeme, t.line⟩ : Token) = ⟨t'.kind, t'.lexeme, t'.line⟩ := by
    rw [hkind, hlexeme, toDigits_injective hline]
  exact ⟨htoken, List.append_cancel_left hrest⟩

/-- What stands behind the first of the tokens of a listing. -/
def behind : List Token → List Char
  | [] => "\n]".toList
  | t :: rest => ",\n".toList ++ ((token t).toList ++ behind rest)

theorem intercalate_behind : ∀ (ts : List Token) (t : Token),
    (String.intercalate ",\n" ((t :: ts).map token)).toList ++ "\n]".toList = (token t).toList ++ behind ts
  | [], t => by rw [List.map_singleton, String.intercalate_singleton]; rfl
  | u :: ts, t => by
    have ih := intercalate_behind ts u
    rw [String.toList_intercalate] at ih ⊢
    rw [List.map_cons, List.map_cons, List.map_cons, List.map_cons, List.intercalate_cons_cons, ← List.map_cons,
      ← List.map_cons, List.append_assoc, List.append_assoc, ih]
    rfl

theorem behind_injective : ∀ {ts ts' : List Token}, (∀ t ∈ ts, ∀ n, t.kind = .number n → IsNumeral n) →
    (∀ t ∈ ts', ∀ n, t.kind = .number n → IsNumeral n) → behind ts = behind ts' → ts = ts'
  | [], [], _, _, _ => rfl
  | [], t :: ts, _, _, h => absurd (congrArg List.head? h) (by simp [behind])
  | t :: ts, [], _, _, h => absurd (congrArg List.head? h) (by simp [behind])
  | t :: ts, t' :: ts', hts, hts', h => by
    rw [List.forall_mem_cons] at hts hts'
    rw [behind, behind, List.append_cancel_left_eq] at h
    obtain ⟨rfl, hrest⟩ := token_injective hts.1 hts'.1 h
    rw [behind_injective hts.2 hts'.2 hrest]

theorem listing_cons (t : Token) (ts : List Token) :
    (listing (t :: ts)).toList = "[\n".toList ++ ((token t).toList ++ behind ts) := by
  rw [listing, String.toList_append, String.toList_append, List.append_assoc, intercalate_behind]

theorem listing_nil_ne (t : Token) (ts : List Token) : listing [] ≠ listing (t :: ts) := fun h => by
  have hchars := congrArg String.toList h
  rw [listing_cons, token_eq] at hchars
  exact absurd (List.cons.inj (List.cons.inj hchars).2).2 nofun

/-- A listing determines its tokens if their numbers are such as literals can have. -/
theorem listing_injective : ∀ {ts ts' : List Token}, (∀ t ∈ ts, ∀ n, t.kind = .number n → IsNumeral n) →
    (∀ t ∈ ts', ∀ n, t.kind = .number n → IsNumeral n) → listing ts = listing ts' → ts = ts'
  | [], [], _, _, _ => rfl
  | [], t :: ts, _, _, h => absurd h (listing_nil_ne t ts)
  | t :: ts, [], _, _, h => absurd h.symm (listing_nil_ne t ts)
  | t :: ts, t' :: ts', hts, hts', h => by
    rw [List.forall_mem_cons] at hts hts'
    have hchars := congrArg String.toList h
    rw [listing_cons, listing_cons, List.append_cancel_left_eq] at hchars
    obtain ⟨rfl, hrest⟩ := token_injective hts.1 hts'.1 hchars
    rw [behind_injective hts.2 hts'.2 hrest]

end Tokens

end Listing

/-- The numbers among the tokens of a source are those of literals. -/
theorem isNumeral_of_tokens {source : String} : ∀ t ∈ tokens source, ∀ n, t.kind = .number n → Listing.IsNumeral n := by
  intro t ht n hn
  obtain ⟨ts, stop, htokens, -, hstop⟩ := tokens_eq source
  rw [htokens] at ht
  rcases List.mem_append.mp ht with hmem | hmem
  · have hlexeme : Lexeme t.kind t.lexeme.toList := lexeme_of_tokens (by rwa [htokens, List.dropLast_concat])
    exact Number.exists_magnitude_of_lexeme (hn ▸ hlexeme)
  · obtain rfl := List.mem_singleton.mp hmem
    cases hstop.symm.trans hn

/-- What is printed for the tokens of a source as a listing determines the tokens, with all characters of their strings and
with numbers of all sizes, infinite ones too. -/
theorem listing_determines (source source' : String) :
    (Reply.tokenize true source).output = (Reply.tokenize true source').output ↔ tokens source = tokens source' := by
  have houtput : ∀ source, (Reply.tokenize true source).output = listing (tokens source) ++ "\n" := fun _ => rfl
  rw [houtput, houtput]
  constructor
  · intro h
    have hchars := congrArg String.toList h
    rw [String.toList_append, String.toList_append, List.append_cancel_right_eq, String.toList_inj] at hchars
    exact Listing.listing_injective isNumeral_of_tokens isNumeral_of_tokens hchars
  · intro h
    rw [h]

end LoxLang
