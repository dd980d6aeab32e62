import LoxLang.Proofs.Grammar.Words

/-! The tokens of a source text end with the one mark of the end. -/

namespace LoxLang

namespace Piece

theorem ofWord_ne_eof (word : String) : Kind.ofWord word ≠ .eof := by
  intro h
  have hmem := Kind.ofWord_eq h (by decide)
  simp [Kind.keywords] at hmem

theorem operator_ne_eof {long short : Kind} (hl : long ≠ .eof) (hs : short ≠ .eof) (second : Char) (rest : List Char) :
    (operator second long short rest).1 ≠ .token .eof := by
  unfold operator
  split
  · exact fun h => hl (Shape.token.inj h)
  · exact fun h => hs (Shape.token.inj h)

theorem doubled_ne_eof {k : Kind} (h : k ≠ .eof) (c : Char) (rest : List Char) :
    (doubled c k rest).1 ≠ .token .eof := by
  unfold doubled
  split
  · exact fun e => h (Shape.token.inj e)
  · exact Shape.noConfusion

theorem string_ne_eof (rest : List Char) : (string rest).1 ≠ .token .eof := by
  unfold string
  dsimp only
  split <;> simp

/-- No text is a mark of the end. -/
theorem classify_ne_eof (c : Char) (rest : List Char) : (classify c rest).1 ≠ .token .eof := by
  unfold classify
  split
  iterate 10 exact fun h => by cases h
  iterate 4 exact operator_ne_eof (by decide) (by decide) _ _
  iterate 2 exact doubled_ne_eof (by decide) _ _
  · split <;> exact fun h => by cases h
  · exact string_ne_eof rest
  · split
    · exact Shape.noConfusion
    · split
      · exact fun h => by cases h
      · split
        · exact fun h => ofWord_ne_eof _ (Shape.token.inj h)
        · exact Shape.noConfusion

theorem cut_ne_eof (n : Nat) (source : List Char) : ∀ p ∈ cut n source, p.shape ≠ .token .eof := by
  induction n generalizing source with
  | zero => simp [cut]
  | succ n ih =>
    cases source with
    | nil => simp [cut]
    | cons c rest =>
      intro p hp
      rw [cut_cons] at hp
      rcases List.mem_cons.mp hp with rfl | hp
      · exact classify_ne_eof c rest
      · exact ih _ p hp

end Piece

theorem tokens_ofPieces (ps : List Piece) (h : ∀ p ∈ ps, p.shape ≠ .token .eof) (line : Nat) :
    ∃ ts stop, (Item.ofPieces line ps).filterMap Item.token? = ts ++ [stop] ∧ (∀ t ∈ ts, t.kind ≠ .eof) ∧
      stop.kind = .eof := by
  induction ps generalizing line with
  | nil => exact ⟨[], ⟨.eof, "", line⟩, rfl, by simp, rfl⟩
  | cons p rest ih =>
    obtain ⟨ts, stop, hts, hkinds, hstop⟩ :=
      ih (fun q hq => h q (List.mem_cons_of_mem _ hq)) (line + p.text.count '\n')
    rw [Item.ofPieces]
    split
    · rename_i kind hshape
      refine ⟨⟨kind, String.ofList p.text, line + p.text.count '\n'⟩ :: ts, stop, ?_, ?_, hstop⟩
      · rw [List.filterMap_cons_some (by rfl), hts, List.cons_append]
      · rw [List.forall_mem_cons]
        exact ⟨fun e => h p List.mem_cons_self (hshape.trans (congrArg Shape.token e)), hkinds⟩
    · exact ⟨ts, stop, hts, hkinds, hstop⟩
    · exact ⟨ts, stop, hts, hkinds, hstop⟩
    · exact ⟨ts, stop, hts, hkinds, hstop⟩

theorem tokens_eq (source : String) :
    ∃ ts stop, tokens source = ts ++ [stop] ∧ (∀ t ∈ ts, t.kind ≠ .eof) ∧ stop.kind = .eof :=
  tokens_ofPieces _ (Piece.cut_ne_eof _ _) 1

end LoxLang
