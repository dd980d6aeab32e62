import LoxLang.Proofs.Grammar.Words

/-! The pieces of a text that goes on behind a line break: those of the text in front of it, the break and those behind
it. Only a string without an end would reach across. -/

namespace LoxLang

namespace Piece

section Sizes

variable (c : Char) (rest : List Char)

theorem run_le (passes : Char → Bool) : run passes rest ≤ rest.length := (List.takeWhile_prefix passes).length_le

theorem fraction_cons (c d : Char) : fraction (c :: d :: rest) =
    if c = '.' ∧ d.isDigit = true then 2 + run Char.isDigit rest else 0 := by
  by_cases hc : c = '.'
  · subst hc
    simp [fraction]
  · simp [fraction, hc]

theorem fraction_le : ∀ rest : List Char, fraction rest ≤ rest.length
  | [] | [_] => by simp [fraction]
  | c :: d :: rest => by
    have hdigits := run_le rest Char.isDigit
    rw [fraction_cons, List.length_cons, List.length_cons]
    split <;> omega

theorem operator_le (second : Char) (long short : Kind) : (operator second long short rest).2 ≤ rest.length := by
  unfold operator
  split
  · rename_i hhead
    obtain ⟨more, rfl⟩ := List.head?_eq_some_iff.mp hhead
    exact Nat.succ_le_succ (Nat.zero_le _)
  · exact Nat.zero_le _

theorem doubled_le (kind : Kind) : (doubled c kind rest).2 ≤ rest.length := by
  unfold doubled
  split
  · rename_i hhead
    obtain ⟨more, rfl⟩ := List.head?_eq_some_iff.mp hhead
    exact Nat.succ_le_succ (Nat.zero_le _)
  · exact Nat.zero_le _

theorem string_le : (string rest).2 ≤ rest.length := by
  unfold string
  dsimp only
  split
  · rename_i hends
    exact hends
  · exact run_le rest _

theorem number_le : (number c rest).2 ≤ rest.length := by
  have hwhole := run_le rest Char.isDigit
  have hfraction := fraction_le (rest.drop (run Char.isDigit rest))
  rw [List.length_drop] at hfraction
  change run Char.isDigit rest + fraction (rest.drop (run Char.isDigit rest)) ≤ rest.length
  omega

/-- A piece takes no more than there is. -/
theorem classify_le : (classify c rest).2 ≤ rest.length := by
  unfold classify
  split
  iterate 10 exact Nat.zero_le _
  iterate 4 exact operator_le rest _ _ _
  iterate 2 exact doubled_le _ rest _
  · split
    · exact run_le rest _
    · exact Nat.zero_le _
  · exact string_le rest
  · split
    · exact Nat.zero_le _
    · split
      · exact number_le c rest
      · split
        · exact run_le rest _
        · exact Nat.zero_le _

end Sizes

section Lines

variable (c : Char) (rest tail : List Char)

/-- What stops in front of a line break does not look behind it. -/
theorem run_line {passes : Char → Bool} (h : passes '\n' = false) :
    run passes (rest ++ '\n' :: tail) = run passes rest := by
  unfold run
  rw [List.takeWhile_append]
  split
  · rename_i hall
    simp [h, hall]
  · rfl

theorem head_line {d : Char} (hd : d ≠ '\n') : (rest ++ '\n' :: tail).head? = some d ↔ rest.head? = some d := by
  cases rest with
  | nil => simp [hd.symm]
  | cons => rfl

theorem fraction_line : ∀ rest : List Char, fraction (rest ++ '\n' :: tail) = fraction rest
  | [] => rfl
  | [c] => by
    have hbreak : ¬ (c = '.' ∧ '\n'.isDigit = true) := fun h => absurd h.2 (by decide)
    rw [List.cons_append, List.nil_append, fraction_cons, if_neg hbreak]
    simp [fraction]
  | c :: d :: rest => by
    rw [List.cons_append, List.cons_append, fraction_cons, fraction_cons, run_line rest tail (by decide)]

theorem operator_line {second : Char} (h : second ≠ '\n') (long short : Kind) :
    operator second long short (rest ++ '\n' :: tail) = operator second long short rest := by
  simp only [operator, head_line rest tail h]

theorem doubled_line {c : Char} (h : c ≠ '\n') (kind : Kind) :
    doubled c kind (rest ++ '\n' :: tail) = doubled c kind rest := by
  simp only [doubled, head_line rest tail h]

theorem word_line : word c (rest ++ '\n' :: tail) = word c rest := by
  unfold word
  dsimp only
  rw [run_line rest tail (by decide), List.take_append_of_le_length (run_le rest _)]

/-- The digits behind the point are all in front of the line break. -/
theorem number_line : number c (rest ++ '\n' :: tail) = number c rest := by
  have hwhole := run_le rest Char.isDigit
  have hfraction := fraction_le (rest.drop (run Char.isDigit rest))
  rw [List.length_drop] at hfraction
  have hdigits : ((rest ++ '\n' :: tail).drop (run Char.isDigit rest + 1)).take
        (fraction (rest.drop (run Char.isDigit rest)) - 1) =
      (rest.drop (run Char.isDigit rest + 1)).take (fraction (rest.drop (run Char.isDigit rest)) - 1) := by
    rcases Nat.eq_zero_or_pos (fraction (rest.drop (run Char.isDigit rest))) with hnone | hsome
    · rw [hnone, List.take_zero, List.take_zero]
    · rw [List.drop_append_of_le_length (by omega), List.take_append_of_le_length]
      rw [List.length_drop]
      omega
  unfold number
  dsimp only
  rw [run_line rest tail (by decide), List.drop_append_of_le_length hwhole, fraction_line, hdigits,
    List.take_append_of_le_length hwhole]

/-- A string that ends does so in front of the line break, or has it inside. -/
theorem string_line (h : (string rest).1 ≠ .fault .unterminatedString) :
    string (rest ++ '\n' :: tail) = string rest := by
  unfold string at h ⊢
  dsimp only at h ⊢
  split at h
  · rename_i hends
    have hrun : run (· != '"') (rest ++ '\n' :: tail) = run (· != '"') rest := by
      unfold run at hends ⊢
      rw [List.takeWhile_append, if_neg hends.ne]
    rw [hrun, if_pos hends, if_pos (by rw [List.length_append]; omega), List.take_append_of_le_length hends.le]
  · exact absurd rfl h

theorem classify_line (h : (classify c rest).1 ≠ .fault .unterminatedString) :
    classify c (rest ++ '\n' :: tail) = classify c rest := by
  revert h
  unfold classify
  split
  iterate 10 exact fun _ => rfl
  iterate 4 exact fun _ => operator_line rest tail (by decide) _ _
  iterate 2 exact fun _ => doubled_line rest tail (by decide) _
  · intro _
    have hcomment : run (· != '\n') (rest ++ '\n' :: tail) = run (· != '\n') rest := run_line rest tail rfl
    simp only [head_line rest tail (show '/' ≠ '\n' by decide), hcomment]
  · exact string_line rest tail
  · intro _
    simp only [number_line, word_line]

end Lines

theorem remaining_le (n : Nat) (rest : List Char) : (rest.drop n).length ≤ rest.length := by
  rw [List.length_drop]
  exact Nat.sub_le _ _

/-- All bounds that are long enough yield the same pieces. -/
theorem cut_of_le (n : Nat) : ∀ {k : Nat} {source : List Char}, source.length ≤ n → source.length ≤ k →
    cut n source = cut k source := by
  induction n with
  | zero =>
    rintro k source h -
    obtain rfl : source = [] := List.length_eq_zero_iff.mp (Nat.le_zero.mp h)
    cases k <;> rfl
  | succ n ih =>
    intro k source h hk
    cases source with
    | nil => cases k <;> rfl
    | cons c rest =>
      cases k with
      | zero => exact absurd hk (Nat.not_succ_le_zero _)
      | succ k =>
        have hle := remaining_le (classify c rest).2 rest
        rw [cut_cons, cut_cons, ih (hle.trans (Nat.le_of_succ_le_succ h)) (hle.trans (Nat.le_of_succ_le_succ hk))]

end Piece

open Piece

theorem pieces_cons (c : Char) (rest : List Char) : pieces (c :: rest) =
    ⟨(classify c rest).1, c :: rest.take (classify c rest).2⟩ :: pieces (rest.drop (classify c rest).2) := by
  unfold pieces
  rw [List.length_cons, cut_cons, cut_of_le _ (remaining_le _ rest) le_rfl]

theorem pieces_line (tail : List Char) : pieces ('\n' :: tail) = ⟨.blank, ['\n']⟩ :: pieces tail := pieces_cons '\n' tail

/-- A text with a line break behind it, and another text behind that. -/
theorem pieces_append (source tail : List Char) (h : ∀ p ∈ pieces source, p.shape ≠ .fault .unterminatedString) :
    pieces (source ++ '\n' :: tail) = pieces source ++ ⟨.blank, ['\n']⟩ :: pieces tail := by
  induction hn : source.length using Nat.strong_induction_on generalizing source with
  | _ n ih =>
    cases source with
    | nil => exact pieces_line tail
    | cons c rest =>
      rw [pieces_cons, List.forall_mem_cons] at h
      have hsize := classify_le c rest
      have hdrop : (rest.drop (classify c rest).2).length < n := by
        rw [List.length_drop, ← hn, List.length_cons]
        omega
      rw [List.cons_append, pieces_cons, pieces_cons, classify_line c rest tail h.1, List.take_append_of_le_length hsize,
        List.drop_append_of_le_length hsize, ih _ hdrop _ h.2 rfl]
      rfl

end LoxLang
