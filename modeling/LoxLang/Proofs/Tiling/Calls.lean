import LoxLang.Proofs.Tiling.Stream

/-! The calls of a scanner one by one: each yields the item of the next piece that has one, and leaves the scanner at the
end of that piece, or it yields the mark of the end. -/

namespace LoxLang

open Piece (joined joined_append joined_cons)

namespace Piece

theorem isSome_item? (p : Piece) (i j : Nat) : (p.item? i).isSome = (p.item? j).isSome := by
  unfold item?
  split <;> rfl

/-- The text of a piece of a token. -/
theorem eq_of_token {p : Piece} {line : Nat} {token : Token} (h : p.item? line = some (.token token)) :
    p = ⟨.token token.kind, token.lexeme.toList⟩ := by
  obtain ⟨shape, text⟩ := p
  unfold item? at h
  cases shape with
  | token kind =>
    cases h
    rw [String.toList_ofList]
  | fault | blank | comment => cases h

theorem shape_of_fault {p : Piece} {line line' : Nat} {cause : LexicalFault}
    (h : p.item? line = some (.fault cause line')) : p.shape = .fault cause := by
  unfold item? at h
  split at h
  · cases h
  · rename_i hshape
    cases h
    exact hshape
  · cases h
  · cases h

/-- A piece with an item adds one to those in front. -/
theorem length_yields_snoc {front : List Piece} {p : Piece} {line : Nat} (h : (p.item? line).isSome) :
    (yields 1 (front ++ [p])).length = (yields 1 front).length + 1 := by
  rw [p.isSome_item? _ (1 + (joined front).count '\n' + p.text.count '\n')] at h
  rw [yields_append, List.length_append, yields, yields, List.append_nil, Option.length_toList, h]
  rfl

theorem length_yields_le {ps qs : List Piece} (h : ps <+: qs) : (yields 1 ps).length ≤ (yields 1 qs).length := by
  obtain ⟨more, rfl⟩ := h
  rw [yields_append, List.length_append]
  exact Nat.le_add_right _ _

theorem length_yields_lt {ps more : List Piece} {p : Piece} {line : Nat} (h : (p.item? line).isSome) :
    (yields 1 ps).length < (yields 1 (ps ++ p :: more)).length := by
  have hle : ps ++ [p] <+: ps ++ p :: more := ⟨more, by rw [List.append_assoc, List.singleton_append]⟩
  have hlength := length_yields_le hle
  rwa [length_yields_snoc h] at hlength

/-- Two splits in front of a piece are the same if they are of one size, where each piece adds to the size. -/
theorem eq_of_size (size : List Piece → Nat) {front front' back back' : List Piece} {p p' : Piece}
    (h : front ++ p :: back = front' ++ p' :: back') (hp : ∀ more, size front < size (front ++ p :: more))
    (hp' : ∀ more, size front' < size (front' ++ p' :: more)) (hsize : size front = size front') : front = front' := by
  rcases List.append_eq_append_iff.mp h with ⟨_ | ⟨q, more⟩, rfl, hrest⟩ | ⟨_ | ⟨q, more⟩, rfl, hrest⟩
  · exact (List.append_nil _).symm
  · obtain ⟨rfl, -⟩ := List.cons.inj hrest
    exact absurd hsize (hp more).ne
  · exact List.append_nil _
  · obtain ⟨rfl, -⟩ := List.cons.inj hrest
    exact absurd hsize (hp' more).ne'

end Piece

namespace Scanner

/-- The call with this number, counted from zero, yields the item and leaves the scanner so. -/
def Yields (source : String) (n : Nat) (item : Item) (t : Scanner) : Prop :=
  ∃ yielded s, (ofSource source).calls n = some (yielded, s) ∧ s.next = some (some item, t)

/-- The item is that of a piece behind so many others with one, and the scanner is at the end of that piece. -/
structure Finds (source : String) (n : Nat) (item : Item) (t : Scanner) (front : List Piece) (p : Piece)
    (back : List Piece) : Prop where
  reading : Reading source t (front ++ [p]) back
  start : t.start = String.utf8Len (joined front)
  item : p.item? t.line = some item
  count : (Piece.yields 1 front).length = n

/-- The item is the mark of the end behind so many others, and the scanner is behind it. -/
structure Ended (source : String) (n : Nat) (item : Item) (t : Scanner) : Prop where
  item : item = .token ⟨.eof, "", t.line⟩
  text : t.source = source
  curr : t.curr = source.utf8ByteSize + 1
  line : t.line = 1 + source.toList.count '\n'
  count : (Piece.yields 1 (pieces source.toList)).length = n

variable {source : String} {n : Nat} {item : Item} {s t : Scanner} {front back : List Piece} {p : Piece}

theorem Finds.isSome (h : Finds source n item t front p back) : (p.item? t.line).isSome := by
  rw [h.item]
  rfl

theorem Finds.pieces_eq (h : Finds source n item t front p back) : pieces source.toList = front ++ p :: back := by
  rw [h.reading.pieces, List.append_assoc, List.singleton_append]

theorem Finds.toList_eq (h : Finds source n item t front p back) :
    source.toList = joined front ++ (p.text ++ joined back) := by
  rw [← joined_cons, ← joined_append, ← h.pieces_eq]
  exact (flatten_pieces _).symm

theorem Finds.slice_eq (h : Finds source n item t front p back) :
    t.slice? t.start t.curr = some (String.ofList p.text) := by
  have hjoined : joined (front ++ [p]) = joined front ++ p.text := by
    rw [joined_append, joined_cons, Piece.joined_nil, List.append_nil]
  have hbetween := h.reading.between
  rw [hjoined] at hbetween
  rw [h.start, hbetween.curr, String.utf8Len_append, Between.slice_eq hbetween.source]

/-- From between two pieces the item of the first piece behind that has one is yielded, or the mark of the end. -/
theorem Reading.next_item (h : Reading source s front back) : ∃ item t, s.next = some (some item, t) ∧
    ((∃ more p behind, Finds source (Piece.yields 1 front).length item t more p behind) ∨
      Ended source (Piece.yields 1 front).length item t) := by
  induction back generalizing s front with
  | nil =>
    have hsize := h.between.size_eq
    have hpieces : LoxLang.pieces source.toList = front := by rw [h.pieces, List.append_nil]
    have hall : joined front = source.toList := by
      rw [← hpieces]
      exact flatten_pieces _
    rw [Piece.joined_nil, String.utf8Len_nil, Nat.add_zero, h.source_eq] at hsize
    refine ⟨_, _, h.next_end, .inr ⟨rfl, h.source_eq, ?_, ?_, by rw [hpieces]⟩⟩
    · rw [hsize]
      rfl
    · rw [← hall]
      exact h.line
  | cons p back ih =>
    have hpast := h.past
    rw [h.next_piece]
    cases hitem : p.item? (s.begin.past p.text).line with
    | none =>
      have hyields : Piece.yields 1 (front ++ [p]) = Piece.yields 1 front := by
        rw [Piece.yields_append, ← h.line, Piece.yields, Piece.yields, List.append_nil]
        change _ ++ (p.item? (s.begin.past p.text).line).toList = _
        rw [hitem, Option.toList_none, List.append_nil]
      have hnext := ih hpast
      rwa [hyields] at hnext
    | some item => exact ⟨item, _, rfl, .inl ⟨front, p, back, hpast, h.between.curr, hitem, rfl⟩⟩

/-- What is yielded is the item of a piece or the mark of the end, and it is the item with the number of the call. -/
theorem Yields.cases (h : Yields source n item t) : (items source)[n]? = some item ∧
    ((∃ front p back, Finds source n item t front p back) ∨ Ended source n item t) := by
  obtain ⟨yielded, s, hcalls, hnext⟩ := h
  obtain ⟨s', hcalls', hstands⟩ := (Reading.ofSource source).stands.calls n
  rw [hcalls] at hcalls'
  obtain rfl : s = s' := congrArg Prod.snd (Option.some.inj hcalls')
  rw [Piece.yields, List.length_nil, Nat.zero_add] at hstands
  obtain ⟨u, hitem, -⟩ := hstands.next
  rw [hnext] at hitem
  obtain ⟨hitem, -⟩ := Prod.mk.inj (Option.some.inj hitem)
  refine ⟨hitem.symm, ?_⟩
  rcases hstands with ⟨front, back, hreading, hyields, hless⟩ | ⟨hsource, hcurr, hle⟩
  · have hlength : (Piece.yields 1 front).length = n := by
      rw [hyields, List.length_take, Nat.min_eq_left (Nat.le_of_lt hless)]
    obtain ⟨item', t', hnext', hcases⟩ := hreading.next_item
    rw [hnext] at hnext'
    obtain ⟨hitem', rfl⟩ := Prod.mk.inj (Option.some.inj hnext')
    obtain rfl := Option.some.inj hitem'
    rwa [hlength] at hcases
  · rw [List.getElem?_eq_none hle] at hitem
    cases hitem

/-- Every item is yielded. -/
theorem exists_yields (h : (items source)[n]? = some item) : ∃ t, Yields source n item t := by
  obtain ⟨s, hcalls, hstands⟩ := (Reading.ofSource source).stands.calls n
  rw [Piece.yields, List.length_nil, Nat.zero_add] at hstands
  obtain ⟨t, hnext, -⟩ := hstands.next
  rw [h] at hnext
  exact ⟨t, _, s, hcalls, hnext⟩

/-- A call has one outcome. -/
theorem Yields.unique {item' : Item} {t' : Scanner} (h : Yields source n item t) (h' : Yields source n item' t') :
    item = item' ∧ t = t' := by
  obtain ⟨yielded, s, hcalls, hnext⟩ := h
  obtain ⟨yielded', s', hcalls', hnext'⟩ := h'
  rw [hcalls] at hcalls'
  obtain rfl : s = s' := congrArg Prod.snd (Option.some.inj hcalls')
  rw [hnext] at hnext'
  obtain ⟨hitem, ht⟩ := Prod.mk.inj (Option.some.inj hnext')
  exact ⟨Option.some.inj hitem, ht⟩

/-- Every piece with an item is found. -/
theorem exists_finds {i : Nat} (h : pieces source.toList = front ++ p :: back) (hp : (p.item? i).isSome) :
    ∃ n item t, Yields source n item t ∧ Finds source n item t front p back := by
  have hall : ∀ line, (p.item? line).isSome := fun line => by rwa [p.isSome_item? line i]
  have hlength : (Piece.yields 1 front).length < (Piece.yields 1 (pieces source.toList)).length :=
    h ▸ Piece.length_yields_lt hp
  have hitems : (Piece.yields 1 front).length < (items source).length := by
    rw [items_eq, List.length_append]
    omega
  obtain ⟨t, ht⟩ := exists_yields (List.getElem?_eq_getElem hitems)
  rcases ht.cases.2 with ⟨front', p', back', hfinds⟩ | hended
  · have hsplit := hfinds.reading.pieces
    rw [List.append_assoc, List.singleton_append, h] at hsplit
    obtain rfl := Piece.eq_of_size (fun ps => (Piece.yields 1 ps).length) hsplit (fun _ => Piece.length_yields_lt hp)
      (fun _ => Piece.length_yields_lt hfinds.isSome) hfinds.count.symm
    obtain ⟨rfl, rfl⟩ := List.cons.inj (List.append_cancel_left hsplit)
    exact ⟨_, _, t, ht, hfinds⟩
  · exact absurd hended.count.symm hlength.ne

end Scanner

end LoxLang
