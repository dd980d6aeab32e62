import LoxLang.Proofs.Derivation.StatementComplete

/-! A semicolon in front of a right brace, or at the very end, can be left out where semicolons are optional. Only behind a
`return` without a value it is missed in front of a brace, which is taken for the beginning of the value. -/

namespace LoxLang

section Lists

variable {us vs front back : List Token} {t : Token}

/-- A token of two lists in a row is one of the first or of the second. -/
theorem split_append (h : us ++ vs = front ++ t :: back) :
    (∃ back', us = front ++ t :: back' ∧ back = back' ++ vs) ∨ ∃ front', front = us ++ front' ∧ vs = front' ++ t :: back := by
  obtain ⟨front', hfront, hvs⟩ | ⟨us', hus, hback⟩ := List.append_eq_append_iff.mp h
  · exact .inr ⟨front', hfront, hvs⟩
  · cases us' with
    | nil => exact .inr ⟨[], by simpa using hus.symm, hback.symm⟩
    | cons u back' =>
      rw [List.cons_append, List.cons.injEq] at hback
      obtain ⟨rfl, hback⟩ := hback
      exact .inl ⟨back', hus, hback⟩

/-- A token that is not in the first list is in the second. -/
theorem split_of_notMem (h : us ++ vs = front ++ t :: back) (ht : t ∉ us) :
    ∃ front', front = us ++ front' ∧ vs = front' ++ t :: back := by
  obtain ⟨back', rfl, -⟩ | hsecond := split_append h
  · simp at ht
  · exact hsecond

theorem split_cons {u : Token} (h : u :: vs = front ++ t :: back) (ht : t ≠ u) :
    ∃ front', front = u :: front' ∧ vs = front' ++ t :: back := by
  have h' : [u] ++ vs = front ++ t :: back := h
  exact split_of_notMem h' (by simpa using ht)

end Lists

/-- The kinds that stand in no expression. -/
def Kind.outside : List Kind := [.semicolon, .rightBrace, .kwReturn]

theorem Terminal.kind_notMem {kinds : List Kind} (h : ∀ k ∈ kinds, k ∉ Kind.outside) (t : Terminal kinds) :
    t.1.kind ∉ Kind.outside := h _ t.2

theorem Level.operators_inside (l : Level) : ∀ k ∈ l.operators, k ∉ Kind.outside := by
  cases l <;> decide

theorem Kind.notMem_of_constant {k : Kind} {value : Literal} (h : k.constant? = some value) : k ∉ Kind.outside := by
  rintro hk
  simp only [outside, List.mem_cons, List.not_mem_nil, or_false] at hk
  rcases hk with rfl | rfl | rfl <;> cases h

mutual

theorem Derivation.kind_notMem : ∀ {s : Symbol} (d : Derivation s), ∀ t ∈ d.tokens, t.kind ∉ Kind.outside
  | _, .assign name equals value => by
    simp only [Derivation.tokens, List.forall_mem_cons]
    exact ⟨name.kind_notMem (by decide), equals.kind_notMem (by decide), value.kind_notMem⟩
  | _, .set object dot name equals value => by
    simp only [Derivation.tokens, List.forall_mem_append, List.forall_mem_cons]
    exact ⟨object.kind_notMem, dot.kind_notMem (by decide), name.kind_notMem (by decide), equals.kind_notMem (by decide),
      value.kind_notMem⟩
  | _, .plain value | _, .sum value | _, .unsigned value => value.kind_notMem
  | _, .operands first more => List.forall_mem_append.mpr ⟨first.kind_notMem, more.kind_notMem⟩
  | _, .increment name first second => by
    simp only [Derivation.tokens, List.forall_mem_cons]
    exact ⟨name.kind_notMem (by decide), first.kind_notMem (by decide), second.kind_notMem (by decide), nofun⟩
  | _, .decrement name first second => by
    simp only [Derivation.tokens, List.forall_mem_cons]
    exact ⟨name.kind_notMem (by decide), first.kind_notMem (by decide), second.kind_notMem (by decide), nofun⟩
  | _, .signed operator operand =>
    List.forall_mem_cons.mpr ⟨operator.kind_notMem (by decide), operand.kind_notMem⟩
  | _, .suffixed first more => List.forall_mem_append.mpr ⟨first.kind_notMem, more.kind_notMem⟩
  | _, .literal _ _ h => List.forall_mem_singleton.mpr (Kind.notMem_of_constant h)
  | _, .self keyword => List.forall_mem_singleton.mpr (keyword.kind_notMem (by decide))
  | _, .name t => List.forall_mem_singleton.mpr (t.kind_notMem (by decide))
  | _, .grouping opening inner closing => by
    simp only [Derivation.tokens, List.forall_mem_append, List.forall_mem_cons]
    exact ⟨opening.kind_notMem (by decide), inner.kind_notMem, closing.kind_notMem (by decide), nofun⟩
  | _, .inherited keyword dot method => by
    simp only [Derivation.tokens, List.forall_mem_cons]
    exact ⟨keyword.kind_notMem (by decide), dot.kind_notMem (by decide), method.kind_notMem (by decide), nofun⟩

theorem Operands.kind_notMem : ∀ {l : Level} (d : Operands l), ∀ t ∈ d.tokens, t.kind ∉ Kind.outside
  | _, .nil => nofun
  | l, .cons operator right more => by
    simp only [Operands.tokens, List.forall_mem_append, List.forall_mem_cons]
    exact ⟨operator.kind_notMem l.operators_inside, right.kind_notMem, more.kind_notMem⟩

theorem Suffixes.kind_notMem : ∀ d : Suffixes, ∀ t ∈ d.tokens, t.kind ∉ Kind.outside
  | .nil => nofun
  | .call opening closing more => by
    simp only [Suffixes.tokens, List.forall_mem_cons]
    exact ⟨opening.kind_notMem (by decide), closing.kind_notMem (by decide), more.kind_notMem⟩
  | .callWith opening arguments _ closing more => by
    simp only [Suffixes.tokens, List.forall_mem_append, List.forall_mem_cons]
    exact ⟨opening.kind_notMem (by decide), arguments.kind_notMem, closing.kind_notMem (by decide), more.kind_notMem⟩
  | .get dot name more => by
    simp only [Suffixes.tokens, List.forall_mem_cons]
    exact ⟨dot.kind_notMem (by decide), name.kind_notMem (by decide), more.kind_notMem⟩

theorem Arguments.kind_notMem : ∀ {n : Nat} (d : Arguments n), ∀ t ∈ d.tokens, t.kind ∉ Kind.outside
  | _, .one e => e.kind_notMem
  | _, .cons e comma more => by
    simp only [Arguments.tokens, List.forall_mem_append, List.forall_mem_cons]
    exact ⟨e.kind_notMem, comma.kind_notMem (by decide), more.kind_notMem⟩

end

theorem NameList.kind_notMem : ∀ {n : Nat} (names : NameList n), ∀ t ∈ names.tokens, t.kind ∉ Kind.outside
  | _, .one t => List.forall_mem_singleton.mpr (t.kind_notMem (by decide))
  | _, .cons t comma more => by
    simp only [tokens, List.forall_mem_cons]
    exact ⟨t.kind_notMem (by decide), comma.kind_notMem (by decide), more.kind_notMem⟩

theorem Parameters.kind_notMem : ∀ p : Parameters, ∀ t ∈ p.tokens, t.kind ∉ Kind.outside
  | none => nofun
  | some names _ => names.kind_notMem

/-- Between these tokens a semicolon can be left out: a right brace is behind it or the end, and the end if a `return` is
in front. -/
structure Omissible (front behind : List Token) : Prop where
  closes : ∀ t ∈ behind.head?, t.kind = .rightBrace
  valued : ∀ t ∈ front.getLast?, t.kind = .kwReturn → behind = []

theorem Omissible.drop {front behind : List Token} (us : List Token) (h : Omissible (us ++ front) behind) :
    Omissible front behind :=
  ⟨h.closes, fun t ht => h.valued t (List.mem_getLast?_append_of_mem_getLast? ht)⟩

section Without

variable {semicolon : Token} {front back tail us : List Token}

theorem Terminal.notMem {k : Kind} (hk : semicolon.kind = .semicolon) (t : Terminal [k]) (h : k ≠ .semicolon) :
    semicolon ≠ t.1 := by
  rintro rfl
  exact h ((List.mem_singleton.mp t.2).symm.trans hk)

theorem Derivation.notMem {s : Symbol} (hk : semicolon.kind = .semicolon) (d : Derivation s) : semicolon ∉ d.tokens :=
  fun h => d.kind_notMem _ h (by simp [hk, Kind.outside])

theorem Derivation.notMem_option (hk : semicolon.kind = .semicolon) :
    ∀ d : Option (Derivation .expression), semicolon ∉ tokensOption d
  | none => List.not_mem_nil
  | some d => d.notMem hk

/-- No brace begins what is in front of a token that is none. -/
theorem Derivation.head_option {t : Token} (ht : t.kind ≠ .rightBrace) (more : List Token) :
    ∀ d : Option (Derivation .expression), ∃ u ∈ (tokensOption d ++ t :: more).head?, u.kind ≠ .rightBrace
  | none => ⟨t, rfl, ht⟩
  | some d => by
    obtain ⟨u, rest, hd, -⟩ := d.head
    refine ⟨u, by rw [tokensOption, hd]; rfl, fun hu => ?_⟩
    exact d.kind_notMem u (hd ▸ List.mem_cons_self) (by simp [hu, Kind.outside])

namespace Terminator

/-- The same end, where it could be missing. -/
def optional : Terminator false → Terminator true
  | written t => .written t

theorem tokens_optional (d : Terminator false) : d.tokens = d.optional.tokens := by
  cases d with
  | written t => rfl
  | missing h => cases h

theorem tokens_optional_ne_nil (d : Terminator false) : d.optional.tokens ≠ [] := by
  cases d with
  | written t => exact List.cons_ne_nil _ _
  | missing h => cases h

/-- The semicolon at the end of a statement is its last token. -/
theorem front_of_split (d : Terminator false) (hus : semicolon ∉ us)
    (h : us ++ d.tokens = front ++ semicolon :: back) : front = us ∧ back = [] := by
  cases d with
  | missing hstrict => cases hstrict
  | written t =>
    obtain ⟨front', rfl, hend⟩ := split_of_notMem h hus
    obtain ⟨rfl, rfl⟩ : front' = [] ∧ back = [] := by
      cases front' with
      | nil => exact ⟨rfl, (List.cons.inj hend).2.symm⟩
      | cons u front' => simp [tokens] at hend
    exact ⟨List.append_nil us, rfl⟩

theorem clear_missing {l : Bool} (hl : l = true) (h : ∀ t ∈ tail.head?, t.kind = .rightBrace) :
    (missing hl).Clear tail := by
  refine ⟨fun t ht => ?_, fun t ht => by simp [h t ht]⟩
  rw [h t ht]
  decide

end Terminator

theorem InitialValue.notMem (hk : semicolon.kind = .semicolon) : ∀ i : InitialValue, semicolon ∉ i.tokens
  | none => List.not_mem_nil
  | some equals value => by simp [tokens, equals.notMem hk, value.notMem hk]

theorem Parameters.notMem (hk : semicolon.kind = .semicolon) (p : Parameters) : semicolon ∉ p.tokens :=
  fun h => p.kind_notMem _ h (by simp [hk, Kind.outside])

theorem SuperclassClause.notMem (hk : semicolon.kind = .semicolon) : ∀ c : SuperclassClause, semicolon ∉ c.tokens
  | none => List.not_mem_nil
  | some less name => by simp [tokens, less.notMem hk, name.notMem hk]

theorem VariableDerivation.notMem (hk : semicolon.kind = .semicolon) (v : VariableDerivation false) :
    semicolon ∉ v.keyword.1 :: v.name.1 :: v.initial.tokens := by
  simp [v.keyword.notMem hk, v.name.notMem hk, v.initial.notMem hk]

/-- In what a counting loop begins with, no semicolon can be left out. -/
theorem FirstClause.back_of_split (hk : semicolon.kind = .semicolon) (d : FirstClause false)
    (h : d.tokens = front ++ semicolon :: back) : back = [] := by
  cases d with
  | none t =>
    cases front with
    | nil => exact (List.cons.inj h).2.symm
    | cons u front => simp [tokens] at h
  | var v => exact (v.ending.front_of_split (v.notMem hk) h).2
  | expression e ending => exact (ending.front_of_split (e.notMem hk) h).2

/-- What stands in braces has the closing one behind it, which is no semicolon. -/
theorem split_braced (hk : semicolon.kind = .semicolon) (closing : Terminal [.rightBrace])
    (h : us ++ [closing.1] = front ++ semicolon :: back) :
    ∃ back', us = front ++ semicolon :: back' ∧ back = back' ++ [closing.1] := by
  obtain hfirst | ⟨front', -, hlast⟩ := split_append h
  · exact hfirst
  · have hmem : semicolon ∈ [closing.1] := by simp [hlast]
    exact absurd (List.mem_singleton.mp hmem) (closing.notMem hk (by decide))

/-- What comes first in a branch or a loop has no semicolon. -/
theorem split_condition (hk : semicolon.kind = .semicolon) {k : Kind} (hne : k ≠ .semicolon) (keyword : Terminal [k])
    (opening : Terminal [.leftParen]) (condition : Derivation .expression) (closing : Terminal [.rightParen])
    {ts : List Token}
    (h : keyword.1 :: opening.1 :: (condition.tokens ++ closing.1 :: ts) = front ++ semicolon :: back) :
    ∃ front', front = keyword.1 :: opening.1 :: (condition.tokens ++ [closing.1]) ++ front' ∧
      ts = front' ++ semicolon :: back := by
  refine split_of_notMem (by rw [← h]; simp) ?_
  simp [keyword.notMem hk hne, opening.notMem hk, condition.notMem hk, closing.notMem hk]

/-- The semicolons between the clauses of a counting loop cannot be left out: no brace is behind them. -/
theorem split_clauses (hk : semicolon.kind = .semicolon) (keyword : Terminal [.kwFor]) (opening : Terminal [.leftParen])
    (first : FirstClause false) (condition : Option (Derivation .expression)) (middle : Terminal [.semicolon])
    (increment : Option (Derivation .expression)) (closing : Terminal [.rightParen]) {ts : List Token}
    (h : keyword.1 :: opening.1 :: (first.tokens ++ (Derivation.tokensOption condition ++ middle.1 ::
      (Derivation.tokensOption increment ++ closing.1 :: ts))) = front ++ semicolon :: back)
    (hback : ∀ t ∈ (back ++ tail).head?, t.kind = .rightBrace) :
    ∃ front', front = keyword.1 :: opening.1 :: (first.tokens ++ (Derivation.tokensOption condition ++ middle.1 ::
      (Derivation.tokensOption increment ++ [closing.1]))) ++ front' ∧ ts = front' ++ semicolon :: back := by
  have hnot : ∀ (d : Option (Derivation .expression)) {t : Token} (more : List Token), t.kind ≠ .rightBrace →
      back ≠ Derivation.tokensOption d ++ t :: more := by
    rintro d t more ht rfl
    obtain ⟨u, hu, hkind⟩ := Derivation.head_option ht more d
    exact hkind (hback u (List.mem_head?_append_of_mem_head? hu))
  obtain ⟨front₀, rfl, h₀⟩ := split_cons h (keyword.notMem hk (by decide))
  obtain ⟨front₁, rfl, h₁⟩ := split_cons h₀ (opening.notMem hk (by decide))
  obtain ⟨back', hfirst, rfl⟩ | ⟨front₂, rfl, h₂⟩ := split_append h₁
  · obtain rfl := first.back_of_split hk hfirst
    exact absurd rfl (hnot condition _ (by simp [List.mem_singleton.mp middle.2]))
  obtain ⟨front₃, rfl, h₃⟩ := split_of_notMem h₂ (Derivation.notMem_option hk condition)
  cases front₃ with
  | nil => exact absurd (List.cons.inj h₃).2.symm (hnot increment _ (by simp [List.mem_singleton.mp closing.2]))
  | cons t front₄ =>
    obtain ⟨rfl, h₄⟩ := List.cons.inj h₃
    rw [List.append_cons] at h₄
    obtain ⟨front₅, rfl, h₅⟩ := split_of_notMem h₄ (by simp [Derivation.notMem_option hk, closing.notMem hk])
    exact ⟨front₅, by simp, h₅⟩

mutual

/-- Where a semicolon can be left out, there is a derivation without it, of the same tree. -/
theorem StatementDerivation.without (hk : semicolon.kind = .semicolon) :
    ∀ {hangs : Bool} (d : StatementDerivation false hangs) {front back tail : List Token},
      d.tokens = front ++ semicolon :: back → Omissible front (back ++ tail) →
        ∃ d' : StatementDerivation true hangs, d'.tokens = front ++ back ∧ d'.tree = d.tree ∧ d'.Clear tail
  | _, .expression e ending, front, back, tail, h, ho => by
    obtain ⟨rfl, rfl⟩ := ending.front_of_split (e.notMem hk) h
    exact ⟨.expression e (.missing rfl), rfl, rfl, Terminator.clear_missing rfl ho.closes⟩
  | _, .print keyword e ending, front, back, tail, h, ho => by
    have hfront : semicolon ∉ keyword.1 :: e.tokens := by simp [keyword.notMem hk, e.notMem hk]
    obtain ⟨rfl, rfl⟩ := ending.front_of_split hfront h
    exact ⟨.print keyword e (.missing rfl), rfl, rfl, Terminator.clear_missing rfl ho.closes⟩
  | _, .ret keyword value ending, front, back, tail, h, ho => by
    have hfront : semicolon ∉ keyword.1 :: Derivation.tokensOption value := by
      simp [keyword.notMem hk, Derivation.notMem_option hk]
    obtain ⟨rfl, rfl⟩ := ending.front_of_split hfront h
    refine ⟨.ret keyword value (.missing rfl), rfl, rfl, Terminator.clear_missing rfl ho.closes, fun hvalue _ => ?_⟩
    subst hvalue
    exact ho.valued keyword.1 rfl (List.mem_singleton.mp keyword.2)
  | _, .block opening body closing, front, back, tail, h, ho => by
    obtain ⟨front, rfl, hbraced⟩ := split_cons h (opening.notMem hk (by decide))
    obtain ⟨back, hbody, rfl⟩ := split_braced hk closing hbraced
    rw [List.append_assoc] at ho
    obtain ⟨body', hbody', htrees, hclear⟩ := body.without hk hbody (ho.drop [opening.1])
    refine ⟨.block opening body' closing, ?_, congrArg Stmt.block htrees, hclear⟩
    simp [StatementDerivation.tokens, hbody']
  | _, .branch keyword opening condition closing yes, front, back, tail, h, ho => by
    obtain ⟨front, rfl, hyes⟩ := split_condition hk (by decide) keyword opening condition closing h
    obtain ⟨yes', hyes', htree, hclear⟩ := yes.without hk hyes (ho.drop _)
    refine ⟨.branch keyword opening condition closing yes', ?_, ?_, hclear⟩
    · simp [StatementDerivation.tokens, hyes']
    · rw [StatementDerivation.tree, StatementDerivation.tree, htree]
  | _, .branchElse keyword opening condition closing yes otherwise no, front, back, tail, h, ho => by
    obtain ⟨front, rfl, hboth⟩ := split_condition hk (by decide) keyword opening condition closing h
    have htokens := no.tokens_map .eq Terminator.tokens_optional
    obtain ⟨back, hyes, rfl⟩ | ⟨front, rfl, helse⟩ := split_append hboth
    · rw [List.append_assoc] at ho
      obtain ⟨yes', hyes', htree, hclear⟩ := yes.without hk hyes (ho.drop _)
      refine ⟨.branchElse keyword opening condition closing yes' otherwise (no.map .optional), ?_, ?_, ?_,
        no.clear_map Terminator.tokens_optional_ne_nil⟩
      · simp [StatementDerivation.tokens, hyes', ← htokens]
      · rw [StatementDerivation.tree, StatementDerivation.tree, htree, no.tree_map]
      · rwa [← htokens]
    · obtain ⟨front, rfl, hno⟩ := split_cons helse (otherwise.notMem hk (by decide))
      obtain ⟨no', hno', htree, hclear⟩ := no.without hk hno (((ho.drop _).drop _).drop [otherwise.1])
      refine ⟨.branchElse keyword opening condition closing (yes.map .optional) otherwise no', ?_, ?_, ?_, hclear⟩
      · simp [StatementDerivation.tokens, hno', ← yes.tokens_map .eq Terminator.tokens_optional]
      · rw [StatementDerivation.tree, StatementDerivation.tree, htree, yes.tree_map]
      · exact yes.clear_map Terminator.tokens_optional_ne_nil
  | _, .loop keyword opening condition closing body, front, back, tail, h, ho => by
    obtain ⟨front, rfl, hbody⟩ := split_condition hk (by decide) keyword opening condition closing h
    obtain ⟨body', hbody', htree, hclear⟩ := body.without hk hbody (ho.drop _)
    refine ⟨.loop keyword opening condition closing body', ?_, ?_, hclear⟩
    · simp [StatementDerivation.tokens, hbody']
    · rw [StatementDerivation.tree, StatementDerivation.tree, htree]
  | _, .counting keyword opening first condition middle increment closing body, front, back, tail, h, ho => by
    obtain ⟨front, rfl, hbody⟩ := split_clauses hk keyword opening first condition middle increment closing h ho.closes
    obtain ⟨body', hbody', htree, hclear⟩ := body.without hk hbody (ho.drop _)
    refine ⟨.counting keyword opening (first.map .optional) condition middle increment closing body', ?_, ?_, ?_, hclear⟩
    · simp [StatementDerivation.tokens, hbody', ← first.tokens_map .eq Terminator.tokens_optional]
    · rw [StatementDerivation.tree, StatementDerivation.tree, htree, first.tree_map]
    · exact first.clear_map Terminator.tokens_optional_ne_nil

theorem DeclarationDerivation.without (hk : semicolon.kind = .semicolon) :
    ∀ (d : DeclarationDerivation false) {front back tail : List Token},
      d.tokens = front ++ semicolon :: back → Omissible front (back ++ tail) →
        ∃ d' : DeclarationDerivation true, d'.tokens = front ++ back ∧ d'.tree = d.tree ∧ d'.Clear tail
  | .classDecl keyword name superclass opening methods closing, front, back, tail, h, ho => by
    have hfront : semicolon ∉ keyword.1 :: name.1 :: (superclass.tokens ++ [opening.1]) := by
      simp [keyword.notMem hk, name.notMem hk, superclass.notMem hk, opening.notMem hk]
    have h' : keyword.1 :: name.1 :: (superclass.tokens ++ [opening.1]) ++ (methods.tokens ++ [closing.1]) =
        front ++ semicolon :: back := by
      rw [← h]
      simp [DeclarationDerivation.tokens]
    obtain ⟨front, rfl, hbraced⟩ := split_of_notMem h' hfront
    obtain ⟨back, hmethods, rfl⟩ := split_braced hk closing hbraced
    rw [List.append_assoc] at ho
    obtain ⟨methods', hmethods', htrees, hclear⟩ := methods.without hk hmethods (ho.drop _)
    refine ⟨.classDecl keyword name superclass opening methods' closing, ?_, ?_, hclear⟩
    · simp [DeclarationDerivation.tokens, hmethods']
    · rw [DeclarationDerivation.tree, DeclarationDerivation.tree, htrees]
  | .function keyword f, front, back, tail, h, ho => by
    obtain ⟨front, rfl, hf⟩ := split_cons h (keyword.notMem hk (by decide))
    obtain ⟨f', hf', htree, hclear⟩ := f.without hk hf (ho.drop [keyword.1])
    refine ⟨.function keyword f', ?_, congrArg Stmt.function htree, hclear⟩
    simp [DeclarationDerivation.tokens, hf']
  | .var v, front, back, tail, h, ho => by
    obtain ⟨rfl, rfl⟩ := v.ending.front_of_split (v.notMem hk) h
    refine ⟨.var ⟨v.keyword, v.name, v.initial, .missing rfl⟩, ?_, rfl, Terminator.clear_missing rfl ho.closes⟩
    simp [DeclarationDerivation.tokens, VariableDerivation.tokens, Terminator.tokens]
  | .statement s, front, back, tail, h, ho => by
    obtain ⟨s', hs', htree, hclear⟩ := s.without hk h ho
    exact ⟨.statement s', hs', htree, hclear⟩

theorem DeclarationsDerivation.without (hk : semicolon.kind = .semicolon) :
    ∀ (d : DeclarationsDerivation false) {front back tail : List Token},
      d.tokens = front ++ semicolon :: back → Omissible front (back ++ tail) →
        ∃ d' : DeclarationsDerivation true, d'.tokens = front ++ back ∧ d'.trees = d.trees ∧ d'.Clear tail
  | .nil, front, back, tail, h, ho => by simp [DeclarationsDerivation.tokens] at h
  | .cons first more, front, back, tail, h, ho => by
    have htokens := more.tokens_map .eq Terminator.tokens_optional
    obtain ⟨back, hfirst, rfl⟩ | ⟨front, rfl, hmore⟩ := split_append h
    · rw [List.append_assoc] at ho
      obtain ⟨first', hfirst', htree, hclear⟩ := first.without hk hfirst ho
      refine ⟨.cons first' (more.map .optional), ?_, ?_, ?_, more.clear_map Terminator.tokens_optional_ne_nil⟩
      · simp [DeclarationsDerivation.tokens, hfirst', ← htokens]
      · rw [DeclarationsDerivation.trees, DeclarationsDerivation.trees, htree, more.trees_map]
      · rwa [← htokens]
    · obtain ⟨more', hmore', htrees, hclear⟩ := more.without hk hmore (ho.drop _)
      refine ⟨.cons (first.map .optional) more', ?_, ?_, first.clear_map Terminator.tokens_optional_ne_nil, hclear⟩
      · simp [DeclarationsDerivation.tokens, hmore', ← first.tokens_map .eq Terminator.tokens_optional]
      · rw [DeclarationsDerivation.trees, DeclarationsDerivation.trees, htrees, first.tree_map]

theorem FunctionDerivation.without (hk : semicolon.kind = .semicolon) :
    ∀ (d : FunctionDerivation false) {front back tail : List Token},
      d.tokens = front ++ semicolon :: back → Omissible front (back ++ tail) →
        ∃ d' : FunctionDerivation true, d'.tokens = front ++ back ∧ d'.tree = d.tree ∧ d'.Clear tail
  | .mk name opening parameters closing openingBrace body closingBrace, front, back, tail, h, ho => by
    have hfront : semicolon ∉ name.1 :: opening.1 :: (parameters.tokens ++ [closing.1, openingBrace.1]) := by
      simp [name.notMem hk, opening.notMem hk, parameters.notMem hk, closing.notMem hk, openingBrace.notMem hk]
    have h' : name.1 :: opening.1 :: (parameters.tokens ++ [closing.1, openingBrace.1]) ++
        (body.tokens ++ [closingBrace.1]) = front ++ semicolon :: back := by
      rw [← h]
      simp [FunctionDerivation.tokens]
    obtain ⟨front, rfl, hbraced⟩ := split_of_notMem h' hfront
    obtain ⟨back, hbody, rfl⟩ := split_braced hk closingBrace hbraced
    rw [List.append_assoc] at ho
    obtain ⟨body', hbody', htrees, hclear⟩ := body.without hk hbody (ho.drop _)
    refine ⟨.mk name opening parameters closing openingBrace body' closingBrace, ?_, ?_, hclear⟩
    · simp [FunctionDerivation.tokens, hbody']
    · rw [FunctionDerivation.tree, FunctionDerivation.tree, htrees]

theorem MethodsDerivation.without (hk : semicolon.kind = .semicolon) :
    ∀ (d : MethodsDerivation false) {front back tail : List Token},
      d.tokens = front ++ semicolon :: back → Omissible front (back ++ tail) →
        ∃ d' : MethodsDerivation true, d'.tokens = front ++ back ∧ d'.trees = d.trees ∧ d'.Clear tail
  | .nil, front, back, tail, h, ho => by simp [MethodsDerivation.tokens] at h
  | .cons first more, front, back, tail, h, ho => by
    have htokens := more.tokens_map .eq Terminator.tokens_optional
    obtain ⟨back, hfirst, rfl⟩ | ⟨front, rfl, hmore⟩ := split_append h
    · rw [List.append_assoc] at ho
      obtain ⟨first', hfirst', htree, hclear⟩ := first.without hk hfirst ho
      refine ⟨.cons first' (more.map .optional), ?_, ?_, ?_, more.clear_map Terminator.tokens_optional_ne_nil⟩
      · simp [MethodsDerivation.tokens, hfirst', ← htokens]
      · rw [MethodsDerivation.trees, MethodsDerivation.trees, htree, more.trees_map]
      · rwa [← htokens]
    · obtain ⟨more', hmore', htrees, hclear⟩ := more.without hk hmore (ho.drop _)
      refine ⟨.cons (first.map .optional) more', ?_, ?_, first.clear_map Terminator.tokens_optional_ne_nil, hclear⟩
      · simp [MethodsDerivation.tokens, hmore', ← first.tokens_map .eq Terminator.tokens_optional]
      · rw [MethodsDerivation.trees, MethodsDerivation.trees, htrees, first.tree_map]

end

end Without

end LoxLang
