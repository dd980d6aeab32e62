import LoxLang.Proofs.Tiling.Calls

/-! The lines of items. A scanner counts line breaks where it passes blanks and strings, and none in comments. The line of
what it yields is nevertheless given by all breaks up to the end of the item's text. -/

namespace LoxLang

open Piece (joined joined_append)

def Item.line : Item → Nat
  | token t => t.line
  | fault _ line => line

theorem Piece.line_of_item? {p : Piece} {line : Nat} {item : Item} (h : p.item? line = some item) : item.line = line := by
  unfold item? at h
  split at h
  · cases h
    rfl
  · cases h
    rfl
  · cases h
  · cases h

namespace Scanner

/-- Where the text ends of the item that was yielded last. The mark of the end leaves the scanner one byte behind it. -/
def ends (s : Scanner) : Nat := min s.curr s.source.utf8ByteSize

variable {source : String} {n m : Nat} {item earlier : Item} {t t' : Scanner} {ps qs rest : List Piece}

/-- The text of the item with this number ends with these pieces, and its line counts the breaks in them. -/
structure Counts (source : String) (n : Nat) (item : Item) (t : Scanner) (ps rest : List Piece) : Prop where
  pieces : pieces source.toList = ps ++ rest
  source : t.source = source
  ends : t.ends = String.utf8Len (joined ps)
  line : item.line = 1 + (joined ps).count '\n'
  lexeme : ∀ token, item = .token token → token.lexeme.toList <:+ joined ps
  count : (Piece.yields 1 ps).length = n + 1 ∨ (Piece.yields 1 ps).length = n ∧ rest = []

theorem Yields.exists_counts (h : Yields source n item t) : ∃ ps rest, Counts source n item t ps rest := by
  rcases h.cases.2 with ⟨front, p, back, hfinds⟩ | hended
  · have hjoined : joined (front ++ [p]) = joined front ++ p.text := by
      rw [joined_append, Piece.joined_cons, Piece.joined_nil, List.append_nil]
    refine ⟨front ++ [p], back, hfinds.reading.pieces, hfinds.reading.source_eq, ?_, ?_, fun token htoken => ?_, .inl ?_⟩
    · rw [Scanner.ends, hfinds.reading.between.size_eq, Nat.min_eq_left (Nat.le_add_right _ _), hfinds.reading.between.curr]
    · rw [Piece.line_of_item? hfinds.item, hfinds.reading.line]
    · have hitem := hfinds.item
      rw [htoken] at hitem
      rw [hjoined, Piece.eq_of_token hitem]
      exact List.suffix_append _ _
    · rw [Piece.length_yields_snoc hfinds.isSome, hfinds.count]
  · have hall : joined (LoxLang.pieces source.toList) = source.toList := flatten_pieces _
    refine ⟨_, [], (List.append_nil _).symm, hended.text, ?_, ?_, fun token htoken => ?_, .inr ⟨hended.count, rfl⟩⟩
    · rw [Scanner.ends, hended.curr, hended.text, Nat.min_eq_right (Nat.le_succ _), hall, ← String.utf8ByteSize_ofList,
        String.ofList_toList]
    · rw [hended.item, hall, ← hended.line]
      rfl
    · obtain rfl := Item.token.inj (htoken.symm.trans hended.item)
      exact List.nil_suffix

theorem Counts.slice_eq {more : List Piece} (h : Counts source n item t (qs ++ more) rest) :
    t.slice? (String.utf8Len (joined qs)) t.ends = some (String.ofList (joined more)) := by
  have htext : t.source = String.ofList (joined qs ++ joined more ++ joined rest) := by
    rw [← joined_append, ← joined_append, ← h.pieces, h.source, joined, flatten_pieces, String.ofList_toList]
  rw [h.ends, joined_append, String.utf8Len_append, Between.slice_eq htext]

/-- The text of a later item ends further behind. -/
theorem Counts.isPrefix (h : Counts source n item t ps rest) {rest' : List Piece}
    (h' : Counts source m earlier t' qs rest') (hlt : m < n) : qs <+: ps := by
  have hps : ps <+: LoxLang.pieces source.toList := ⟨rest, h.pieces.symm⟩
  have hqs : qs <+: LoxLang.pieces source.toList := ⟨rest', h'.pieces.symm⟩
  rcases List.prefix_or_prefix_of_prefix hps hqs with hle | hle
  · have hlength := Piece.length_yields_le hle
    obtain ⟨-, rfl⟩ : (Piece.yields 1 ps).length = n ∧ rest = [] := by
      refine h.count.resolve_left fun hcount => ?_
      have hcount' := h'.count
      omega
    rwa [h.pieces, List.append_nil] at hqs
  · exact hle

end Scanner

open Scanner

/-- Every item is yielded by a call of the scanner, and every call yields the next item or none. The line of an item is
one more than the number of breaks in the text up to the end of the item, which is that of its lexeme if it is a token. So
from an earlier item on the line grows by the breaks between their ends. -/
theorem line_counts_breaks (source : String) :
    (∀ n item, (items source)[n]? = some item → ∃ t, Yields source n item t) ∧
    ∀ n item t, Yields source n item t → (items source)[n]? = some item ∧
      (∃ text, t.slice? 0 t.ends = some text ∧ item.line = 1 + text.toList.count '\n' ∧
        ∀ token, item = .token token → token.lexeme.toList <:+ text.toList) ∧
      ∀ m earlier t', m ≤ n → Yields source m earlier t' → ∃ text, t.slice? t'.ends t.ends = some text ∧
        item.line = earlier.line + text.toList.count '\n' := by
  refine ⟨fun n item h => exists_yields h, fun n item t h => ⟨h.cases.1, ?_, fun m earlier t' hle h' => ?_⟩⟩
  · obtain ⟨ps, rest, hcounts⟩ := h.exists_counts
    have hslice : t.slice? 0 t.ends = some (String.ofList (joined ps)) :=
      (show Counts source n item t ([] ++ ps) rest from hcounts).slice_eq
    refine ⟨_, hslice, ?_⟩
    rw [hcounts.line, String.toList_ofList]
    exact ⟨rfl, hcounts.lexeme⟩
  · obtain ⟨ps, rest, hcounts⟩ := h.exists_counts
    obtain ⟨qs, rest', hcounts', hprefix⟩ : ∃ qs rest', Counts source m earlier t' qs rest' ∧ qs <+: ps := by
      rcases hle.lt_or_eq with hlt | rfl
      · obtain ⟨qs, rest', hcounts'⟩ := h'.exists_counts
        exact ⟨qs, rest', hcounts', hcounts.isPrefix hcounts' hlt⟩
      · obtain ⟨rfl, rfl⟩ := h.unique h'
        exact ⟨ps, rest, hcounts, List.prefix_rfl⟩
    obtain ⟨more, rfl⟩ := hprefix
    refine ⟨_, hcounts'.ends ▸ hcounts.slice_eq, ?_⟩
    rw [hcounts.line, hcounts'.line, String.toList_ofList, joined_append, List.count_append, Nat.add_assoc]

/-- A comment with its break and a string over two lines are in front of a string without an end. -/
theorem line_counts_breaks_in_strings :
    let source := "//\n\"a\nb\"\"c\n"
    let item : Item := .fault .unterminatedString 4
    let earlier : Item := .token ⟨.string "a\nb", "\"a\nb\"", 3⟩
    (items source)[1]? = some item ∧ (items source)[0]? = some earlier ∧ 0 ≤ 1 ∧
      ∃ t t', Yields source 1 item t ∧ Yields source 0 earlier t' ∧
        (∃ text, t.slice? 0 t.ends = some text ∧ item.line = 1 + text.toList.count '\n' ∧
          ∀ token, item = .token token → token.lexeme.toList <:+ text.toList) ∧
        ∃ text, t.slice? t'.ends t.ends = some text ∧ item.line = earlier.line + text.toList.count '\n' := by
  intro source item earlier
  have hitem : (items source)[1]? = some item := by decide +kernel
  have hearlier : (items source)[0]? = some earlier := by decide +kernel
  obtain ⟨hyields, hlines⟩ := line_counts_breaks source
  obtain ⟨t, ht⟩ := hyields 1 item hitem
  obtain ⟨t', ht'⟩ := hyields 0 earlier hearlier
  obtain ⟨-, htext, hbetween⟩ := hlines 1 item t ht
  exact ⟨hitem, hearlier, Nat.zero_le 1, t, t', ht, ht', htext, hbetween 0 earlier t' (Nat.zero_le 1) ht'⟩

end LoxLang
