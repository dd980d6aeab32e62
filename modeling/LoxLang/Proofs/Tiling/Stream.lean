import LoxLang.Proofs.Grammar.Sources
import LoxLang.Proofs.Tiling.Agreement

/-! What a scanner yields call by call: the items of the pieces of its text in their order, the one mark of the end,
and then nothing. -/

namespace LoxLang

open Piece (joined joined_append joined_cons)

namespace Piece

/-- The item of a piece that ends on a line. Blanks and comments have none. -/
def item? (p : Piece) (line : Nat) : Option Item :=
  match p.shape with
  | .token kind => some (.token ⟨kind, String.ofList p.text, line⟩)
  | .fault cause => some (.fault cause line)
  | .blank | .comment => none

/-- The items of pieces that begin on a line. -/
def yields (line : Nat) : List Piece → List Item
  | [] => []
  | p :: rest => (p.item? (line + p.text.count '\n')).toList ++ yields (line + p.text.count '\n') rest

theorem yields_append : ∀ (front : List Piece) (line : Nat) (back : List Piece),
    yields line (front ++ back) = yields line front ++ yields (line + (joined front).count '\n') back
  | [], _, _ => rfl
  | p :: front, line, back => by
    rw [List.cons_append, yields, yields, yields_append front, joined_cons, List.count_append, List.append_assoc,
      Nat.add_assoc]

end Piece

/-- The items of pieces are those of each, and the end. -/
theorem Item.ofPieces_eq : ∀ (ps : List Piece) (line : Nat),
    ofPieces line ps = Piece.yields line ps ++ [.token ⟨.eof, "", line + (joined ps).count '\n'⟩]
  | [], _ => rfl
  | p :: rest, line => by
    rw [joined_cons, List.count_append, ← Nat.add_assoc, Piece.yields, List.append_assoc, ← ofPieces_eq rest, ofPieces,
      Piece.item?]
    cases p.shape <;> rfl

theorem items_eq (source : String) : items source =
    Piece.yields 1 (pieces source.toList) ++ [.token ⟨.eof, "", 1 + source.toList.count '\n'⟩] := by
  have htext : joined (pieces source.toList) = source.toList := flatten_pieces _
  rw [items, Item.ofPieces_eq, htext]

/-- No piece is a mark of the end. -/
theorem yields_ne_eof (ps : List Piece) (h : ∀ p ∈ ps, p.shape ≠ .token .eof) (line : Nat) (t : Token)
    (ht : .token t ∈ Piece.yields line ps) : t.kind ≠ .eof := by
  induction ps generalizing line with
  | nil => cases ht
  | cons p rest ih =>
    rw [Piece.yields] at ht
    rw [List.forall_mem_cons] at h
    rcases List.mem_append.mp ht with hhere | hrest
    · rw [Piece.item?] at hhere
      cases hshape : p.shape with
      | token kind =>
        rw [hshape] at hhere
        obtain rfl := Item.token.inj (List.mem_singleton.mp hhere)
        exact fun heof => h.1 (hshape.trans (congrArg Shape.token heof))
      | fault | blank | comment =>
        rw [hshape] at hhere
        simp at hhere
    · exact ih h.2 _ hrest

namespace Scanner

variable {source : String}

/-- The scanner is between two pieces of its text. -/
structure Reading (source : String) (s : Scanner) (front back : List Piece) : Prop where
  pieces : pieces source.toList = front ++ back
  between : s.Between (joined front) (joined back)
  line : s.line = 1 + (joined front).count '\n'

namespace Reading

variable {s : Scanner} {front back : List Piece} {p : Piece}

theorem ofSource (source : String) : Reading source (ofSource source) [] (LoxLang.pieces source.toList) := by
  refine ⟨rfl, ⟨?_, rfl⟩, rfl⟩
  rw [Piece.joined_nil, List.nil_append, joined, flatten_pieces]
  exact String.ofList_toList.symm

theorem source_eq (h : Reading source s front back) : s.source = source := by
  rw [h.between.source, ← joined_append, ← h.pieces, joined, flatten_pieces]
  exact String.ofList_toList

theorem joined_ne_nil (h : Reading source s front (p :: back)) : joined (p :: back) ≠ [] := by
  intro hnil
  have hpieces := pieces_joined h.pieces
  rw [hnil] at hpieces
  cases hpieces

theorem inside (h : Reading source s front (p :: back)) : s.curr < s.source.utf8ByteSize := by
  have hsize := h.between.size_eq
  have hsome : String.utf8Len (joined (p :: back)) ≠ 0 := mt String.utf8Len_eq_zero.mp h.joined_ne_nil
  omega

/-- The next piece is read to its end. -/
theorem scan_eq (h : Reading source s front (p :: back)) : s.scan = some (p.shape.scan, s.begin.past p.text) := by
  have hpieces := pieces_joined h.pieces
  have hbetween := h.between
  obtain ⟨c, rest, htext⟩ := List.exists_cons_of_ne_nil h.joined_ne_nil
  rw [htext] at hpieces hbetween
  rw [pieces_cons] at hpieces
  rw [hbetween.scan_eq, ← (List.cons.inj hpieces).1]

theorem past (h : Reading source s front (p :: back)) : Reading source (s.begin.past p.text) (front ++ [p]) back := by
  have hbetween : s.begin.Between (joined front) (p.text ++ joined back) :=
    ⟨by rw [← joined_cons]; exact h.between.source, h.between.curr⟩
  have hjoined : joined (front ++ [p]) = joined front ++ p.text := by
    rw [joined_append, joined_cons, Piece.joined_nil, List.append_nil]
  refine ⟨?_, ?_, ?_⟩
  · rw [h.pieces, List.append_assoc, List.singleton_append]
  · rw [hjoined]
    exact hbetween.past
  · rw [hjoined, List.count_append, ← Nat.add_assoc, ← h.line]
    rfl

/-- The lexeme of a piece is its text. -/
theorem slice_eq (h : Reading source s front (p :: back)) :
    (s.begin.past p.text).slice? (s.begin.past p.text).start (s.begin.past p.text).curr =
      some (String.ofList p.text) := by
  have hsource : (s.begin.past p.text).source = String.ofList (joined front ++ p.text ++ joined back) := by
    rw [List.append_assoc, ← joined_cons]
    exact h.between.source
  have hslice := Between.slice_eq hsource
  rw [← h.between.curr] at hslice
  exact hslice

/-- A piece with an item is the next thing the scanner yields; it goes on behind one without. -/
theorem next_piece (h : Reading source s front (p :: back)) : s.next =
    match p.item? (s.begin.past p.text).line with
    | some item => some (some item, s.begin.past p.text)
    | none => (s.begin.past p.text).next := by
  have hscan := h.scan_eq
  rw [Piece.item?]
  cases hshape : p.shape with
  | token kind =>
    rw [hshape] at hscan
    rw [next_found h.inside hscan, h.slice_eq]
    rfl
  | fault cause =>
    rw [hshape] at hscan
    exact next_fault h.inside hscan
  | blank | comment =>
    rw [hshape] at hscan
    exact next_skipped h.inside hscan

theorem next_end (h : Reading source s front []) : s.next = some (some (.token ⟨.eof, "", s.line⟩), s.advance) := by
  have hsize := h.between.size_eq
  rw [Piece.joined_nil, String.utf8Len_nil, Nat.add_zero] at hsize
  rw [next, if_neg (by omega), if_pos hsize.symm]

theorem items_eq (h : Reading source s front back) :
    items source = Piece.yields 1 front ++ Item.ofPieces s.line back := by
  have htext : joined front ++ joined back = source.toList := by
    rw [← joined_append, ← h.pieces]
    exact flatten_pieces _
  rw [LoxLang.items_eq, h.pieces, Piece.yields_append, Item.ofPieces_eq, ← h.line, ← htext, List.count_append,
    ← Nat.add_assoc, ← h.line, List.append_assoc]

end Reading

/-- Where the scanner of a text is after some calls: between two pieces, with the items of those in front yielded, or
behind the end. -/
def Stands (source : String) (n : Nat) (s : Scanner) : Prop :=
  (∃ front back, Reading source s front back ∧ Piece.yields 1 front = (items source).take n ∧
    n < (items source).length) ∨
  (s.source = source ∧ s.curr = source.utf8ByteSize + 1 ∧ (items source).length ≤ n)

section Calls

variable {s : Scanner} {front back : List Piece}

theorem Reading.stands (h : Reading source s front back) : Stands source (Piece.yields 1 front).length s := by
  refine .inl ⟨front, back, h, ?_, ?_⟩
  · rw [h.items_eq, List.take_left]
  · rw [h.items_eq, Item.ofPieces_eq, List.length_append, List.length_append, List.length_singleton]
    omega

/-- From between two pieces the next item is yielded, on the way to between two pieces or to the end. -/
theorem Reading.next (h : Reading source s front back) :
    ∃ t, s.next = some ((items source)[(Piece.yields 1 front).length]?, t) ∧
      Stands source ((Piece.yields 1 front).length + 1) t := by
  induction back generalizing s front with
  | nil =>
    have hitems := h.items_eq
    have hsize := h.between.size_eq
    rw [Piece.joined_nil, String.utf8Len_nil, Nat.add_zero, h.source_eq] at hsize
    refine ⟨s.advance, ?_, .inr ⟨h.source_eq, ?_, ?_⟩⟩
    · rw [h.next_end, hitems, Item.ofPieces, List.getElem?_concat_length]
    · rw [hsize]
      rfl
    · rw [hitems, Item.ofPieces, List.length_append, List.length_singleton]
  | cons p back ih =>
    have hpast := h.past
    have hyields : Piece.yields 1 (front ++ [p]) =
        Piece.yields 1 front ++ (p.item? (s.begin.past p.text).line).toList := by
      rw [Piece.yields_append, ← h.line, Piece.yields, Piece.yields, List.append_nil]
      rfl
    rw [h.next_piece]
    cases hitem : p.item? (s.begin.past p.text).line with
    | none =>
      rw [hitem, Option.toList_none, List.append_nil] at hyields
      have hnext := ih hpast
      rw [hyields] at hnext
      exact hnext
    | some item =>
      rw [hitem, Option.toList_some] at hyields
      have hitems := hpast.items_eq
      have hstands := hpast.stands
      rw [hyields] at hitems hstands
      rw [List.length_append, List.length_singleton] at hstands
      refine ⟨_, ?_, hstands⟩
      rw [hitems, List.append_assoc, List.getElem?_append_right (Nat.le_refl _), Nat.sub_self]
      rfl

theorem Stands.next {n : Nat} (h : Stands source n s) :
    ∃ t, s.next = some ((items source)[n]?, t) ∧ Stands source (n + 1) t := by
  rcases h with ⟨front, back, hreading, hyields, hless⟩ | ⟨hsource, hcurr, hle⟩
  · have hlength : (Piece.yields 1 front).length = n := by
      rw [hyields, List.length_take, Nat.min_eq_left (Nat.le_of_lt hless)]
    rw [← hlength]
    exact hreading.next
  · refine ⟨s, ?_, .inr ⟨hsource, hcurr, Nat.le_succ_of_le hle⟩⟩
    rw [next_ended (by rw [hsource]; omega), List.getElem?_eq_none hle]

theorem Stands.calls {n : Nat} (h : Stands source n s) (k : Nat) :
    ∃ t, s.calls k = some ((List.range k).map fun i => (items source)[n + i]?, t) ∧ Stands source (n + k) t := by
  induction k generalizing n s with
  | zero => exact ⟨s, rfl, h⟩
  | succ k ih =>
    obtain ⟨t, hnext, ht⟩ := h.next
    obtain ⟨u, hcalls, hu⟩ := ih ht
    refine ⟨u, ?_, by rwa [Nat.add_right_comm, Nat.add_assoc] at hu⟩
    rw [Scanner.calls, hnext, Option.bind_some]
    dsimp only
    rw [hcalls, Option.map_some, List.range_succ_eq_map, List.map_cons, List.map_map]
    simp only [Function.comp_def, Nat.succ_eq_add_one, Nat.add_zero, Nat.add_assoc, Nat.add_comm 1]

end Calls

end Scanner

/-- The pieces of a text are the whole of it, each is what its text says, and all of them end between characters. The
items are those of the pieces in their order, and one mark of the end. That is what a scanner of the text yields call by
call, always between two pieces, before it yields nothing any more. -/
theorem source_tiled (source : String) :
    joined (pieces source.toList) = source.toList ∧
    (∀ front p back, pieces source.toList = front ++ p :: back → p.Tile (joined back)) ∧
    (∀ front back, pieces source.toList = front ++ back →
      String.Pos.Raw.IsValid source ⟨String.utf8Len (joined front)⟩) ∧
    items source = Piece.yields 1 (pieces source.toList) ++ [.token ⟨.eof, "", 1 + source.toList.count '\n'⟩] ∧
    (∀ t, .token t ∈ Piece.yields 1 (pieces source.toList) → t.kind ≠ .eof) ∧
    ∀ n, ∃ s, (Scanner.ofSource source).calls n = some ((List.range n).map fun i => (items source)[i]?, s) ∧
      Scanner.Stands source n s := by
  refine ⟨flatten_pieces _, fun front p back h => pieces_tile h, fun front back h => ?_, items_eq source,
    yields_ne_eof _ (Piece.cut_ne_eof _ _) 1, fun n => ?_⟩
  · have hvalid := isValid_utf8Len (joined front) (joined back)
    rwa [← joined_append, ← h, joined, flatten_pieces, String.ofList_toList] at hvalid
  · have hcalls := (Scanner.Reading.ofSource source).stands.calls n
    simpa only [Piece.yields, List.length_nil, Nat.zero_add] using hcalls

example : (pieces "é//x\n|\"y".toList).map (·.text) = [['é'], ['/', '/', 'x'], ['\n'], ['|'], ['"', 'y']] := by decide

end LoxLang
