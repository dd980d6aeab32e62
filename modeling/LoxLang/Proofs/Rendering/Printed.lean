import LoxLang.Machine
import LoxLang.Proofs.Rendering.Numbers
import LoxLang.Proofs.Tiling.Spacing

/-! What is printed for a number is read as that number, and as nothing else. -/

namespace LoxLang

section Lines

variable {kind : Kind} {text behind : String}

/-- A lone lexeme is read as its token. -/
theorem items_lexeme (h : Lexeme kind text.toList) (hline : '\n' ∉ text.toList)
    (hparts : ∀ d ∈ behind.toList.head?, Parts text.toList d) (hblank : Piece.yields 1 (pieces behind.toList) = []) :
    items (text ++ behind) = [.token ⟨kind, text, 1⟩, .token ⟨.eof, "", 1 + behind.toList.count '\n'⟩] := by
  have hcount : text.toList.count '\n' = 0 := List.count_eq_zero.mpr hline
  rw [items_eq, String.toList_append, pieces_lexeme h hparts, Piece.yields, List.count_append, hcount, Nat.zero_add,
    Nat.add_zero, hblank, Piece.item?, String.ofList_toList]
  rfl

end Lines

namespace Number

variable {n : Number}

theorem display_of_isZero (h : n.isZero = true) : n.display = "0" := if_pos h

/-- What is printed is read as the number that it is. -/
theorem lexeme_display (hfinite : n.isFinite = true) (hpositive : n.isNegative = false) :
    Lexeme (.number n) n.display.toList := by
  cases hzero : n.isZero with
  | true =>
    have h := (lexeme_whole (isWhole_of_isZero hfinite hzero) hpositive).1
    rw [whole_of_isZero hzero] at h
    exact display_of_isZero hzero ▸ h
  | false =>
    rw [display, hzero]
    cases hwhole : n.isWhole with
    | true =>
      have h := (lexeme_whole hwhole hpositive).1
      rwa [← signed_of_positive hpositive (Nat.toDigits 10 n.whole)] at h
    | false => exact lexeme_plain hfinite hpositive hzero

end Number

theorem Run.text_of_print {v : Value} {m m' : Machine} (h : Run.print v m = .ok () m') :
    m'.output.text = m.output.text ++ (m.store.display v ++ "\n") := by
  rw [Run.print, Sink.writeLine] at h
  cases hcapacity : m.output.capacity with
  | none =>
    rw [hcapacity] at h
    cases h
    rfl
  | some room =>
    rw [hcapacity] at h
    dsimp only at h
    split at h
    · cases h
      rfl
    · cases h

/-- A number that is finite and not negative is printed, on a line of its own, as a text that is read without fault as the
number token of the very same bits and the end; so it is with and without the line break. For negative zero the same is
printed as for zero. -/
theorem print_reads_back :
    (∀ n : Number, n.isFinite = true → n.isNegative = false →
      (∀ m m' : Machine, Run.print (.number n) m = .ok () m' →
        m'.output.text = m.output.text ++ (n.display ++ "\n")) ∧
      (∀ m : Machine, m.output.capacity = none → ∃ m', Run.print (.number n) m = .ok () m') ∧
      items (n.display ++ "\n") = [.token ⟨.number n, n.display, 1⟩, .token ⟨.eof, "", 2⟩] ∧
      items n.display = [.token ⟨.number n, n.display, 1⟩, .token ⟨.eof, "", 1⟩]) ∧
    ∀ m : Machine, Run.print (.number ⟨0x8000000000000000⟩) m = Run.print (.number ⟨0⟩) m := by
  refine ⟨fun n hfinite hpositive => ⟨fun m m' h => ?_, fun m hcapacity => ?_, ?_, ?_⟩, fun m => ?_⟩
  · exact Run.text_of_print h
  · rw [Run.print, Sink.writeLine, hcapacity]
    exact ⟨_, rfl⟩
  · have h := Number.lexeme_display hfinite hpositive
    exact items_lexeme h h.number_oneLine (by rintro d ⟨⟩; exact ⟨rfl, by decide, by decide, fun _ => by decide⟩) rfl
  · have h := Number.lexeme_display hfinite hpositive
    have hitems := @items_lexeme _ _ "" h h.number_oneLine nofun rfl
    rwa [String.append_empty] at hitems
  · have hdisplay : ∀ n : Number, n.isZero = true → m.store.display (.number n) = "0" := fun n h =>
      Number.display_of_isZero h
    rw [Run.print, hdisplay _ (by decide), Run.print, hdisplay _ (by decide)]

/-- The double nearest to `10 ^ 23` is below it and is printed in full. -/
theorem print_reads_back_large :
    let n : Number := ⟨0x44B52D02C7E14AF6⟩
    n.isFinite = true ∧ n.isNegative = false ∧ n.display = "99999999999999991611392" ∧
      items "99999999999999991611392\n" =
        [.token ⟨.number n, "99999999999999991611392", 1⟩, .token ⟨.eof, "", 2⟩] := by
  intro n
  have hfinite : n.isFinite = true := by decide
  have hpositive : n.isNegative = false := by decide
  have hdisplay : n.display = "99999999999999991611392" := by decide +kernel
  obtain ⟨-, -, hitems, -⟩ := print_reads_back.1 n hfinite hpositive
  rw [hdisplay] at hitems
  exact ⟨hfinite, hpositive, hdisplay, hitems⟩

end LoxLang
