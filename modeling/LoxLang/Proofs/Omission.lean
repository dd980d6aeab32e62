import LoxLang.Proofs.Derivation.BareReturns
import LoxLang.Proofs.Leniency

/-! Which semicolons can be left out where they are optional: each in front of a right brace or at the end, but for those
of a `return` without a value in front of a brace. -/

namespace LoxLang

section Omission

variable {front back : List Token} {semicolon : Token} {i : NodeId} {statements : List Stmt}

/-- A `return` in front of a right brace, and no end mark before. -/
def BareReturn (front back : List Token) : Prop :=
  (∀ t ∈ front, t.kind ≠ .eof) ∧ (∃ t ∈ front.getLast?, t.kind = .kwReturn) ∧ ∃ t ∈ back.head?, t.kind = .rightBrace

/-- Behind an end mark nothing is missed. -/
theorem ReadsAs.without_behind {ts behind behind' : List Token} (hts : ∀ t ∈ ts, t.kind ≠ .eof)
    (hbehind : ∀ t ∈ behind.head?, t.kind = .eof) (hbehind' : ∀ t ∈ behind'.head?, t.kind = .eof)
    (h : (Parsed.program false (ts ++ behind) i).result = .ok statements) (j : NodeId) :
    ReadsAs true (ts ++ behind') j statements := by
  obtain ⟨d, rfl, htrees⟩ := Parsed.derivation_of_program_ends hts hbehind h
  refine .of_clear (d.map .optional) ?_ (fun _ => ?_) ?_ hts hbehind'
  · exact (d.tokens_map .eq Terminator.tokens_optional).symm
  · exact d.clear_map Terminator.tokens_optional_ne_nil
  · rw [d.trees_map, htrees]

/-- In front of the end mark a semicolon can be left out if a brace or the end is behind it. -/
theorem ReadsAs.without (hk : semicolon.kind = .semicolon) (hfront : ∀ t ∈ front, t.kind ≠ .eof)
    (hnext : ∀ t ∈ back.head?, t.kind ∈ [Kind.rightBrace, .eof]) (hbare : ¬ BareReturn front back)
    (h : (Parsed.program false (front ++ semicolon :: back) i).result = .ok statements) (j : NodeId) :
    ReadsAs true (front ++ back) j statements := by
  obtain ⟨back, behind, rfl, hback, hbehind⟩ := exists_end back
  have hall : ∀ t ∈ front ++ semicolon :: back, t.kind ≠ .eof :=
    List.forall_mem_append.mpr ⟨hfront, List.forall_mem_cons.mpr ⟨by simp [hk], hback⟩⟩
  have hbrace : ∀ t ∈ back.head?, t.kind = .rightBrace := fun t ht => by
    have hnext := hnext t (List.mem_head?_append_of_mem_head? ht)
    simpa [hback t (List.mem_of_mem_head? ht)] using hnext
  have homissible : Omissible front (back ++ []) := by
    rw [List.append_nil]
    refine ⟨hbrace, fun t ht hkind => ?_⟩
    cases back with
    | nil => rfl
    | cons u back => exact absurd ⟨hfront, ⟨t, ht, hkind⟩, u, rfl, hbrace u rfl⟩ hbare
  rw [← List.cons_append, ← List.append_assoc] at h
  obtain ⟨d, hd, htrees⟩ := Parsed.derivation_of_program_ends hall hbehind h
  obtain ⟨d', hd', htrees', hclear⟩ := d.without hk hd homissible
  rw [← List.append_assoc]
  exact .of_clear d' hd' (fun _ => hclear) (htrees'.trans htrees.symm) (List.forall_mem_append.mpr ⟨hfront, hback⟩) hbehind

/-- A value is read behind a `return` without a semicolon, and a brace begins none. -/
theorem refused_of_bareReturn (hbare : BareReturn front back) (j : NodeId) :
    ∃ faults, (Parsed.program true (front ++ back) j).result = .error faults := by
  obtain ⟨hfront, ⟨t, ht, hreturn⟩, u, hu, hbrace⟩ := hbare
  obtain ⟨front, rfl⟩ := List.getLast?_eq_some_iff.mp ht
  cases back with
  | nil => cases hu
  | cons v back =>
    cases hu
    obtain ⟨back, behind, rfl, hback, hbehind⟩ := exists_end back
    have hall : ∀ v ∈ front ++ [t] ++ u :: back, v.kind ≠ .eof :=
      List.forall_mem_append.mpr ⟨hfront, List.forall_mem_cons.mpr ⟨by simp [hbrace], hback⟩⟩
    obtain ⟨stop, hstop, hsame⟩ := Parsed.exists_program_eq hall hbehind
    rw [← List.cons_append, ← List.append_assoc, hsame]
    cases hread : (Parsed.program true (front ++ [t] ++ u :: back ++ [stop]) j).result with
    | error faults => exact ⟨faults, rfl⟩
    | ok statements =>
      have hvalued := Parsed.valued_of_program hall hstop hread
      rw [List.append_assoc, Valued.append] at hvalued
      exact absurd hbrace (hvalued.2.1 hreturn u rfl)

/-- Where semicolons are optional, each of them in front of a right brace or of the end can be left out, unless it ends a
`return` without a value in front of a brace: that is refused then. -/
theorem semicolon_omissible (hk : semicolon.kind = .semicolon)
    (hnext : ∀ t ∈ back.head?, t.kind ∈ [Kind.rightBrace, .eof])
    (h : (Parsed.program false (front ++ semicolon :: back) i).result = .ok statements) (j : NodeId) :
    (¬ BareReturn front back → ReadsAs true (front ++ back) j statements) ∧
      (BareReturn front back → ∃ faults, (Parsed.program true (front ++ back) j).result = .error faults) := by
  refine ⟨fun hbare => ?_, fun hbare => refused_of_bareReturn hbare j⟩
  by_cases hfront : ∀ t ∈ front, t.kind ≠ .eof
  · exact .without hk hfront hnext hbare h j
  · obtain ⟨ts, behind, rfl, hts, hbehind⟩ := exists_end front
    have hend : ∀ more : List Token, ∀ t ∈ (behind ++ more).head?, t.kind = .eof := by
      cases behind with
      | nil => exact absurd (by simpa using hts) hfront
      | cons t behind => exact fun _ => hbehind
    rw [List.append_assoc] at h ⊢
    exact .without_behind hts (hend _) (hend _) h j

/-- Of `{ print x; }` the semicolon can be left out, of `function f() { return; }` it cannot. -/
theorem semicolon_omissible_after_print :
    let name : Token := ⟨.identifier, "x", 1⟩
    let semicolon : Token := ⟨.semicolon, ";", 1⟩
    let behind : List Token := [⟨.rightBrace, "\x7d", 1⟩, ⟨.eof, "", 1⟩]
    let block : List Token := [⟨.leftBrace, "\x7b", 1⟩, ⟨.kwPrint, "print", 1⟩, name]
    let function : List Token := [⟨.kwFunction, "function", 1⟩, name, ⟨.leftParen, "(", 1⟩, ⟨.rightParen, ")", 1⟩,
      ⟨.leftBrace, "\x7b", 1⟩, ⟨.kwReturn, "return", 1⟩]
    semicolon.kind = .semicolon ∧ (∀ t ∈ behind.head?, t.kind ∈ [Kind.rightBrace, .eof]) ∧
      ReadsAs true (block ++ behind) 0 [.block [.print (.read 0 name)]] ∧
      ∃ faults, (Parsed.program true (function ++ behind) 0).result = .error faults := by
  intro name semicolon behind block function
  have hnext : ∀ t ∈ behind.head?, t.kind ∈ [Kind.rightBrace, .eof] := by simp [behind]
  have hblock : (Parsed.program false (block ++ semicolon :: behind) 0).result = .ok [.block [.print (.read 0 name)]] := by
    cbv
  have hfunction : (Parsed.program false (function ++ semicolon :: behind) 0).result =
      .ok [.function (.mk name [] [.ret ⟨.kwReturn, "return", 1⟩ none])] := by cbv
  refine ⟨rfl, hnext, (semicolon_omissible rfl hnext hblock 0).1 ?_, (semicolon_omissible rfl hnext hfunction 0).2 ?_⟩
  · rintro ⟨-, ⟨t, ht, hreturn⟩, -⟩
    cases ht
    cases hreturn
  · exact ⟨by decide, ⟨_, rfl, rfl⟩, _, rfl, rfl⟩

/-- In `function f() { return; }` a brace is behind the semicolon, and without it the function is refused. -/
theorem return_needs_semicolon :
    let name : Token := ⟨.identifier, "f", 1⟩
    let keyword : Token := ⟨.kwReturn, "return", 1⟩
    let brace : Token := ⟨.rightBrace, "\x7d", 1⟩
    let stop : Token := ⟨.eof, "", 1⟩
    let front : List Token := [⟨.kwFunction, "function", 1⟩, name, ⟨.leftParen, "(", 1⟩, ⟨.rightParen, ")", 1⟩,
      ⟨.leftBrace, "\x7b", 1⟩, keyword]
    let statements : List Stmt := [.function (.mk name [] [.ret keyword none])]
    (Parsed.program false (front ++ ⟨.semicolon, ";", 1⟩ :: [brace, stop]) 0).result = .ok statements ∧
      ¬ ReadsAs true (front ++ [brace, stop]) 0 statements := by
  intro name keyword brace stop front statements
  refine ⟨by cbv, ?_⟩
  rintro ⟨read, hread, -⟩
  have hrefused : (Parsed.program true (front ++ [brace, stop]) 0).result =
      .error [.syntactic ⟨1, some "\x7d"⟩ (.expected "expression"),
        .syntactic ⟨1, none⟩ (.expected "'\x7d' after block")] := by cbv
  rw [hrefused] at hread
  cases hread

end Omission

end LoxLang
