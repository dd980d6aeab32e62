import LoxLang.Proofs.Binding.Layout
import LoxLang.Token.Item

/-! Which texts the scanner lets a name have. The kind of a name is that of its text, so an identifier is never
reserved, and `this` and `super` stand for themselves. -/

namespace LoxLang

/-- The kinds of token that can stand for a binding. -/
def Kind.naming : List Kind := [.identifier, .kwThis, .kwSuper]

/-- A token that can stand for a binding has the kind of its text. -/
def Token.Proper (t : Token) : Prop := t.kind ∈ Kind.naming → t.kind = .ofWord t.lexeme

theorem Kind.ofWord_eq {word : String} {k : Kind} (h : ofWord word = k) (hk : k ≠ .identifier) :
    (word, k) ∈ keywords := by
  unfold ofWord at h
  cases e : keywords.lookup word with
  | none => rw [e] at h; exact absurd h.symm hk
  | some k' =>
    rw [e, Option.getD_some] at h
    obtain ⟨l₁, l₂, hl, -⟩ := List.lookup_eq_some_iff.mp e
    rw [hl, ← h]
    simp

namespace Token.Proper

variable {t : Token} (h : t.Proper)

include h

theorem not_reserved (hk : t.kind = .identifier) : t.lexeme ∉ reserved := by
  have ht := h (by rw [hk]; decide)
  rw [hk] at ht
  intro hr
  rcases List.mem_cons.mp hr with hx | hx
  · rw [hx] at ht
    exact absurd ht (by decide)
  · rw [List.mem_singleton.mp hx] at ht
    exact absurd ht (by decide)

theorem lexeme_this (hk : t.kind = .kwThis) : t.lexeme = "this" := by
  have ht := Kind.ofWord_eq (h (by rw [hk]; decide)).symm (by rw [hk]; decide)
  rw [hk] at ht
  simpa [Kind.keywords] using ht

theorem lexeme_super (hk : t.kind = .kwSuper) : t.lexeme = "super" := by
  have ht := Kind.ofWord_eq (h (by rw [hk]; decide)).symm (by rw [hk]; decide)
  rw [hk] at ht
  simpa [Kind.keywords] using ht

end Token.Proper

theorem Token.proper_of_not_naming {t : Token} (h : t.kind ∉ Kind.naming) : t.Proper := fun hk => absurd hk h

namespace Piece

/-- A shape that is no name. -/
def Nameless (s : Shape) : Prop := ∀ k ∈ Kind.naming, s ≠ .token k

theorem nameless_token {k : Kind} (h : k ∉ Kind.naming) : Nameless (.token k) := by
  intro k' hk' e
  rw [Shape.token.inj e] at h
  exact h hk'

theorem nameless_blank : Nameless .blank := fun _ _ => Shape.noConfusion

theorem nameless_comment : Nameless .comment := fun _ _ => Shape.noConfusion

theorem nameless_fault (cause : LexicalFault) : Nameless (.fault cause) := fun _ _ => Shape.noConfusion

theorem nameless_operator {long short : Kind} (hl : long ∉ Kind.naming) (hs : short ∉ Kind.naming)
    (second : Char) (rest : List Char) : Nameless (operator second long short rest).1 := by
  unfold operator
  split
  · exact nameless_token hl
  · exact nameless_token hs

theorem nameless_doubled {k : Kind} (h : k ∉ Kind.naming) (c : Char) (rest : List Char) :
    Nameless (doubled c k rest).1 := by
  unfold doubled
  split
  · exact nameless_token h
  · exact nameless_fault _

theorem nameless_string (rest : List Char) : Nameless (string rest).1 := by
  unfold string
  dsimp only
  split
  · exact nameless_token (by simp [Kind.naming])
  · exact nameless_fault _

theorem nameless_number (c : Char) (rest : List Char) : Nameless (number c rest).1 :=
  nameless_token (by simp [Kind.naming])

/-- Only words yield tokens that can stand for a binding. -/
theorem classify_naming (c : Char) (rest : List Char) :
    Nameless (classify c rest).1 ∨ startsWord c = true ∧ classify c rest = word c rest := by
  unfold classify
  split
  iterate 10 exact .inl (nameless_token (by decide))
  iterate 4 exact .inl (nameless_operator (by decide) (by decide) _ _)
  iterate 2 exact .inl (nameless_doubled (by decide) _ _)
  · split
    · exact .inl nameless_comment
    · exact .inl (nameless_token (by decide))
  · exact .inl (nameless_string _)
  · split
    · exact .inl nameless_blank
    · split
      · exact .inl (nameless_number _ _)
      · split
        · rename_i hstarts
          exact .inr ⟨hstarts, rfl⟩
        · exact .inl (nameless_fault _)

theorem cut_cons (n : Nat) (c : Char) (rest : List Char) :
    cut (n + 1) (c :: rest) =
      ⟨(classify c rest).1, c :: rest.take (classify c rest).2⟩ :: cut n (rest.drop (classify c rest).2) := rfl

theorem continuesWord_of_starts {c : Char} (h : startsWord c = true) : continuesWord c = true := by
  unfold startsWord at h
  unfold continuesWord Char.isAlphanum
  rw [Bool.or_eq_true] at h ⊢
  exact h.imp_left fun h => by rw [h, Bool.true_or]

/-- The kind of a name is that of its text, and the text is a word. -/
theorem cut_naming (n : Nat) (source : List Char) :
    ∀ p ∈ cut n source, ∀ k ∈ Kind.naming, p.shape = .token k →
      k = .ofWord (String.ofList p.text) ∧ ∀ c ∈ p.text, continuesWord c = true := by
  induction n generalizing source with
  | zero => simp [cut]
  | succ n ih =>
    cases source with
    | nil => simp [cut]
    | cons c rest =>
      intro p hp k hk hshape
      rw [cut_cons] at hp
      rcases List.mem_cons.mp hp with rfl | hp
      · rcases classify_naming c rest with hnone | ⟨hstarts, hword⟩
        · exact absurd hshape (hnone k hk)
        · rw [hword] at hshape ⊢
          refine ⟨(Shape.token.inj hshape).symm, fun d hd => ?_⟩
          rcases List.mem_cons.mp hd with rfl | hd
          · exact continuesWord_of_starts hstarts
          · change d ∈ rest.take (run continuesWord rest) at hd
            rw [run, ← List.prefix_iff_eq_take.mp (List.takeWhile_prefix _)] at hd
            exact List.all_eq_true.mp List.all_takeWhile d hd
      · exact ih _ p hp k hk hshape

end Piece

/-- The tokens of pieces are the end and those of some pieces. -/
theorem Item.mem_ofPieces (ps : List Piece) (line : Nat) : ∀ t ∈ (ofPieces line ps).filterMap token?,
    t.kind = .eof ∨ ∃ p ∈ ps, p.shape = .token t.kind ∧ t.lexeme = String.ofList p.text := by
  induction ps generalizing line with
  | nil =>
    intro t ht
    obtain rfl : t = ⟨.eof, "", line⟩ := by simpa [ofPieces, token?] using ht
    exact .inl rfl
  | cons p rest ih =>
    have hrest : ∀ t ∈ (ofPieces (line + p.text.count '\n') rest).filterMap token?, t.kind = .eof ∨
        ∃ q ∈ p :: rest, q.shape = .token t.kind ∧ t.lexeme = String.ofList q.text := fun t ht =>
      (ih _ t ht).imp_right fun ⟨q, hq, h⟩ => ⟨q, List.mem_cons_of_mem _ hq, h⟩
    intro t ht
    rw [ofPieces] at ht
    split at ht
    · rename_i kind hshape
      rw [List.filterMap_cons_some (by rfl)] at ht
      rcases List.mem_cons.mp ht with rfl | ht
      · exact .inr ⟨p, List.mem_cons_self, hshape, rfl⟩
      · exact hrest t ht
    · exact hrest t ht
    · exact hrest t ht
    · exact hrest t ht

theorem tokens_naming (source : String) : ∀ t ∈ tokens source, t.kind ∈ Kind.naming →
    t.kind = .ofWord t.lexeme ∧ ∀ c ∈ t.lexeme.toList, Piece.continuesWord c = true := by
  intro t ht hk
  rcases Item.mem_ofPieces _ _ t ht with heof | ⟨p, hp, hshape, hlexeme⟩
  · exact absurd hk (by rw [heof]; decide)
  · have hp := Piece.cut_naming _ _ p hp t.kind hk hshape
    rw [hlexeme, String.toList_ofList]
    exact hp

theorem tokens_proper (source : String) : ∀ t ∈ tokens source, t.Proper := fun t ht hk =>
  (tokens_naming source t ht hk).1

end LoxLang
