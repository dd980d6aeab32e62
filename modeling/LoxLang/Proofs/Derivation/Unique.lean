import LoxLang.Proofs.Derivation.Complete

/-! Tokens have one derivation at most. A reader gives one result, so of two derivations that agree on the tokens
ahead, each cut off where it cannot be carried on, both end at one place; this places every part of one derivation
opposite to the same part of the other. -/

namespace LoxLang

theorem Takes.agree {α : Type} {reader : Reader α} {c : Cursor} {tail tail' : List Token} {P P' : α → Prop}
    (h : Takes reader c tail P) (h' : Takes reader c tail' P') : tail = tail' ∧ ∃ a, P a ∧ P' a := by
  obtain ⟨a, i, e, hP⟩ := h
  obtain ⟨a', i', e', hP'⟩ := h'
  rw [e] at e'
  injection e' with ha hc
  injection hc with ht
  subst ha
  exact ⟨ht, a, hP, hP'⟩

/-- Each symbol has a reader that takes all that is derived from it. -/
theorem Symbol.takesAll (s : Symbol) (n : Nat) : ∃ reader, TakesAll s reader (n + 1) := by
  have h := Grammar.takes_expression n
  match s with
  | .expression => exact ⟨_, Grammar.takes_expression (n + 1)⟩
  | .level .disjunction => exact ⟨_, Grammar.takes_disjunction h le_rfl⟩
  | .level .conjunction => exact ⟨_, Grammar.takes_conjunction h le_rfl⟩
  | .level .equality => exact ⟨_, Grammar.takes_equality h le_rfl⟩
  | .level .comparison => exact ⟨_, Grammar.takes_comparison h le_rfl⟩
  | .level .sum => exact ⟨_, fun d => Grammar.takes_term h le_rfl (.sum d)⟩
  | .term => exact ⟨_, Grammar.takes_term h le_rfl⟩
  | .level .product => exact ⟨_, Grammar.takes_factor h le_rfl⟩
  | .unary => exact ⟨_, Grammar.takes_unary h le_rfl⟩
  | .call => exact ⟨_, Grammar.takes_call h le_rfl⟩
  | .primary => exact ⟨_, Grammar.takes_primary h⟩

theorem Terminal.ne_of_kinds {k k' : Kind} (t : Terminal [k]) (t' : Terminal [k']) (h : k ≠ k') : t.1 ≠ t'.1 :=
  fun ht => h ((List.mem_singleton.mp t.2).symm.trans (ht ▸ List.mem_singleton.mp t'.2))

/-- Arguments do not begin with the parenthesis that closes them. -/
theorem Arguments.tokens_ne_closed {n : Nat} (as : Arguments n) (closing : Terminal [.rightParen])
    (tail rest : List Token) : as.tokens ++ tail ≠ closing.1 :: rest := by
  intro h
  obtain ⟨t, rest', ht, hstart⟩ := as.head
  rw [ht] at h
  rw [(List.cons.inj h).1, List.mem_singleton.mp closing.2] at hstart
  cases hstart

namespace Derivation

variable {s : Symbol} {tail tail' : List Token}

/-- Two derivations in front of the same tokens end at one place, with the same tree. -/
theorem agree (d d' : Derivation s) (h : d.tokens ++ tail = d'.tokens ++ tail') (hd : s.EndsBefore tail)
    (hd' : s.EndsBefore tail') : d.tokens = d'.tokens ∧ tail = tail' ∧ d.tree = d'.tree := by
  obtain ⟨reader, htakes⟩ := s.takesAll (d.tokens ++ tail).length
  let c : Cursor := ⟨d.tokens ++ tail, default, [], 0⟩
  have hreads := htakes d c tail rfl (Nat.lt_succ_self _) hd
  have hreads' := htakes d' c tail' h (h ▸ Nat.lt_succ_self _) hd'
  obtain ⟨rfl, e, he, he'⟩ := hreads.agree hreads'
  exact ⟨List.append_cancel_right h, rfl, he ▸ he'⟩

theorem ends_nil : s.EndsBefore [] := nofun

/-- In front of an equals sign, what may be the target of an assignment ends. -/
theorem ends_equal (equals : Terminal [.equal]) : (Symbol.level .disjunction).EndsBefore (equals.1 :: tail) :=
  .cons (by rw [List.mem_singleton.mp equals.2]; decide)

/-- A doubled sign behind a name is no sum. -/
theorem tokens_ne_doubled (value : Derivation (.level .sum)) {name : Terminal [.identifier]} {first second : Token}
    {k : Kind} (hk : k ∈ Level.sum.operators) (hfirst : first.kind ∈ [k]) (hsecond : second.kind ∈ [k]) :
    value.tokens ≠ [name.1, first, second] := by
  intro h
  have hkind : first.kind ∈ Level.sum.operators := List.mem_singleton.mp hfirst ▸ hk
  have hsame : second.kind = first.kind := (List.mem_singleton.mp hsecond).trans (List.mem_singleton.mp hfirst).symm
  cases value with
  | operands factor more =>
    have hsign : (Symbol.level .product).EndsBefore [first, second] :=
      .cons (by rw [Level.reach_of_mem hkind]; decide)
    have hends : (Symbol.level .product).EndsBefore (more.tokens ++ []) := ends_nil.operands more
    rw [List.append_nil] at hends
    obtain ⟨-, hmore, -⟩ := agree factor (lone name).factor h hends hsign
    cases more with
    | nil => cases hmore
    | cons sign right more =>
      obtain ⟨rfl, hright⟩ := List.cons.inj hmore
      have hdoubles := right.not_doubles sign.2 more.tokens
      rw [hright, Grammar.doubles, hsame] at hdoubles
      simp at hdoubles

/-- A call is no unary with an operator. -/
theorem tokens_ne_signed (value : Derivation .call) (operator : Terminal [.bang, .minus]) (rest : List Token) :
    value.tokens ≠ operator.1 :: rest := by
  intro h
  obtain ⟨t, rest', ht, hk⟩ := value.head_of_call
  obtain ⟨rfl, -⟩ := List.cons.inj (ht.symm.trans h)
  exact absurd operator.2 (by simpa [Grammar.isUnary] using hk)

end Derivation

theorem Operands.ends {l : Level} (more : Operands l) : l.operand.EndsBefore more.tokens := by
  have h := Derivation.ends_nil.operands more
  rwa [List.append_nil] at h

namespace Derivation

variable {tail tail' : List Token}

theorem tree_eq_of_tokens {s : Symbol} (d d' : Derivation s) (h : d.tokens = d'.tokens) : d.tree = d'.tree :=
  (agree d d' (congrArg (· ++ []) h) ends_nil ends_nil).2.2

/-- Two left sides in front of an equals sign agree, and so do the values behind. -/
theorem agree_at_equal (d d' : Derivation .call) {equals equals' : Terminal [.equal]}
    (h : d.tokens ++ equals.1 :: tail = d'.tokens ++ equals'.1 :: tail') :
    d.tokens = d'.tokens ∧ equals = equals' ∧ tail = tail' ∧ d.tree = d'.tree := by
  rw [← d.climb_tokens, ← d'.climb_tokens] at h
  obtain ⟨htokens, htail, htree⟩ := agree d.climb d'.climb h (ends_equal equals) (ends_equal equals')
  obtain ⟨hequals, htail⟩ := List.cons.inj htail
  exact ⟨by simpa using htokens, Subtype.ext hequals, htail, htree⟩

/-- What may be a left side has no equals sign behind one. -/
theorem tokens_ne_assigned (value : Derivation (.level .disjunction)) (d : Derivation .call)
    (equals : Terminal [.equal]) (rest : List Token) : value.tokens ≠ d.tokens ++ equals.1 :: rest := by
  intro h
  rw [← d.climb_tokens, ← List.append_nil value.tokens] at h
  cases (agree value d.climb h ends_nil (ends_equal equals)).2.1

end Derivation

mutual

theorem Derivation.unique {s : Symbol} (d : Derivation s) : ∀ d' : Derivation s, d.tokens = d'.tokens → d = d' := by
  cases d with
  | assign name equals value =>
    intro d' h
    match d', h with
    | .assign name' equals' value', h =>
      obtain ⟨hname, h⟩ := List.cons.inj h
      obtain ⟨hequals, h⟩ := List.cons.inj h
      rw [Subtype.ext hname, Subtype.ext hequals, value.unique value' h]
    | .set object' dot' name' equals' value', h =>
      obtain ⟨-, -, -, htree⟩ :=
        Derivation.agree_at_equal (.lone name) (object'.property dot' name') (by simpa [Derivation.tokens] using h)
      rw [Derivation.property_tree] at htree
      cases htree
    | .plain value', h => exact absurd h.symm (value'.tokens_ne_assigned (.lone name) equals value.tokens)
  | set object dot name equals value =>
    intro d' h
    match d', h with
    | .assign name' equals' value', h =>
      obtain ⟨-, -, -, htree⟩ :=
        Derivation.agree_at_equal (object.property dot name) (.lone name') (by simpa [Derivation.tokens] using h)
      rw [Derivation.property_tree] at htree
      cases htree
    | .set object' dot' name' equals' value', h =>
      obtain ⟨htarget, rfl, hvalue, -⟩ :=
        Derivation.agree_at_equal (object.property dot name) (object'.property dot' name')
          (by simpa [Derivation.tokens] using h)
      rw [Derivation.property_tokens, Derivation.property_tokens] at htarget
      obtain ⟨hobject, hend⟩ := List.append_inj' htarget rfl
      obtain ⟨hdot, hend⟩ := List.cons.inj hend
      rw [object.unique object' hobject, Subtype.ext hdot, Subtype.ext (List.cons.inj hend).1,
        value.unique value' hvalue]
    | .plain value', h =>
      have h' := value'.tokens_ne_assigned (object.property dot name) equals value.tokens
      exact absurd h.symm (by simpa [Derivation.tokens] using h')
  | plain value =>
    intro d' h
    match d', h with
    | .assign name' equals' value', h => exact absurd h (value.tokens_ne_assigned (.lone name') equals' value'.tokens)
    | .set object' dot' name' equals' value', h =>
      have h' := value.tokens_ne_assigned (object'.property dot' name') equals' value'.tokens
      exact absurd h (by simpa [Derivation.tokens] using h')
    | .plain value', h => rw [value.unique value' h]
  -- In both derivations the first operand ends in front of an operator or of the end, so at one place.
  | operands first more =>
    intro d' h
    match d', h with
    | .operands first' more', h =>
      obtain ⟨hfirst, hmore, -⟩ := first.agree first' h more.ends more'.ends
      rw [first.unique first' hfirst, more.unique more' hmore]
  | sum value =>
    intro d' h
    match d', h with
    | .sum value', h => rw [value.unique value' h]
    | .increment name first second, h => exact absurd h (value.tokens_ne_doubled (by decide) first.2 second.2)
    | .decrement name first second, h => exact absurd h (value.tokens_ne_doubled (by decide) first.2 second.2)
  | increment name first second =>
    intro d' h
    match d', h with
    | .sum value, h => exact absurd h.symm (value.tokens_ne_doubled (by decide) first.2 second.2)
    | .increment name' first' second', h =>
      injection h with hname h
      injection h with hfirst h
      injection h with hsecond h
      rw [Subtype.ext hname, Subtype.ext hfirst, Subtype.ext hsecond]
    | .decrement name' first' second', h =>
      exact absurd (List.cons.inj (List.cons.inj h).2).1 (first.ne_of_kinds first' (by decide))
  | decrement name first second =>
    intro d' h
    match d', h with
    | .sum value, h => exact absurd h.symm (value.tokens_ne_doubled (by decide) first.2 second.2)
    | .increment name' first' second', h =>
      exact absurd (List.cons.inj (List.cons.inj h).2).1 (first.ne_of_kinds first' (by decide))
    | .decrement name' first' second', h =>
      injection h with hname h
      injection h with hfirst h
      injection h with hsecond h
      rw [Subtype.ext hname, Subtype.ext hfirst, Subtype.ext hsecond]
  | signed operator operand =>
    intro d' h
    match d', h with
    | .signed operator' operand', h =>
      obtain ⟨hoperator, h⟩ := List.cons.inj h
      rw [Subtype.ext hoperator, operand.unique operand' h]
    | .unsigned value', h => exact absurd h.symm (value'.tokens_ne_signed operator _)
  | unsigned value =>
    intro d' h
    match d', h with
    | .signed operator' operand', h => exact absurd h (value.tokens_ne_signed operator' _)
    | .unsigned value', h => rw [value.unique value' h]
  | suffixed first more =>
    intro d' h
    match d', h with
    | .suffixed first' more', h =>
      obtain ⟨hfirst, hmore, -⟩ := first.agree first' h .primary .primary
      rw [first.unique first' hfirst, more.unique more' hmore]
  -- The trees of primaries show which production they come from.
  | literal t value hv =>
    intro d' h
    have htree := Derivation.tree_eq_of_tokens _ d' h
    match d', h with
    | .literal t' value' hv', h =>
      cases htree
      cases h
      rfl
    | .self _, _ | .name _, _ | .grouping .., _ | .inherited .., _ => cases htree
  | self keyword =>
    intro d' h
    have htree := Derivation.tree_eq_of_tokens _ d' h
    match d', h with
    | .self keyword', h => rw [Subtype.ext (List.cons.inj h).1]
    | .literal .., _ | .name _, _ | .grouping .., _ | .inherited .., _ => cases htree
  | name t =>
    intro d' h
    have htree := Derivation.tree_eq_of_tokens _ d' h
    match d', h with
    | .name t', h => rw [Subtype.ext (List.cons.inj h).1]
    | .literal .., _ | .self _, _ | .grouping .., _ | .inherited .., _ => cases htree
  | grouping opening inner closing =>
    intro d' h
    have htree := Derivation.tree_eq_of_tokens _ d' h
    match d', h with
    | .grouping opening' inner' closing', h =>
      obtain ⟨hopening, h⟩ := List.cons.inj h
      obtain ⟨hinner, hclosing⟩ := List.append_inj' h rfl
      rw [Subtype.ext hopening, inner.unique inner' hinner, Subtype.ext (List.cons.inj hclosing).1]
    | .literal .., _ | .self _, _ | .name _, _ | .inherited .., _ => cases htree
  | inherited keyword dot method =>
    intro d' h
    have htree := Derivation.tree_eq_of_tokens _ d' h
    match d', h with
    | .inherited keyword' dot' method', h =>
      injection h with hkeyword h
      injection h with hdot h
      injection h with hmethod h
      rw [Subtype.ext hkeyword, Subtype.ext hdot, Subtype.ext hmethod]
    | .literal .., _ | .self _, _ | .name _, _ | .grouping .., _ => cases htree

theorem Operands.unique {l : Level} : ∀ more more' : Operands l, more.tokens = more'.tokens → more = more'
  | .nil, .nil, _ => rfl
  | .cons operator right more, .cons operator' right' more', h => by
    obtain ⟨hoperator, h⟩ := List.cons.inj h
    obtain ⟨hright, hmore, -⟩ := right.agree right' h more.ends more'.ends
    rw [Subtype.ext hoperator, right.unique right' hright, more.unique more' hmore]

theorem Suffixes.unique : ∀ more more' : Suffixes, more.tokens = more'.tokens → more = more'
  | .nil, .nil, _ => rfl
  | .nil, .call .., h | .nil, .callWith .., h | .nil, .get .., h => nomatch h
  | .call .., .nil, h | .callWith .., .nil, h | .get .., .nil, h => nomatch h
  | .call opening closing more, .call opening' closing' more', h => by
    obtain ⟨hopening, h⟩ := List.cons.inj h
    obtain ⟨hclosing, h⟩ := List.cons.inj h
    rw [Subtype.ext hopening, Subtype.ext hclosing, more.unique more' h]
  | .call opening closing more, .callWith opening' arguments' few' closing' more', h => by
    obtain ⟨-, h⟩ := List.cons.inj h
    exact absurd h.symm (arguments'.tokens_ne_closed closing _ _)
  | .call opening closing more, .get dot' name' more', h =>
    absurd (List.cons.inj h).1 (opening.ne_of_kinds dot' (by decide))
  | .callWith opening arguments few closing more, .call opening' closing' more', h => by
    obtain ⟨-, h⟩ := List.cons.inj h
    exact absurd h (arguments.tokens_ne_closed closing' _ _)
  | .callWith opening arguments few closing more, .callWith opening' arguments' few' closing' more', h => by
    obtain ⟨hopening, h⟩ := List.cons.inj h
    obtain ⟨harguments, hclosing⟩ := arguments.unique arguments' closing closing' _ _ h
    cases harguments
    obtain ⟨hclosing, h⟩ := List.cons.inj hclosing
    rw [Subtype.ext hopening, Subtype.ext hclosing, more.unique more' h]
  | .callWith opening arguments few closing more, .get dot' name' more', h =>
    absurd (List.cons.inj h).1 (opening.ne_of_kinds dot' (by decide))
  | .get dot name more, .call opening' closing' more', h =>
    absurd (List.cons.inj h).1 (dot.ne_of_kinds opening' (by decide))
  | .get dot name more, .callWith opening' arguments' few' closing' more', h =>
    absurd (List.cons.inj h).1 (dot.ne_of_kinds opening' (by decide))
  | .get dot name more, .get dot' name' more', h => by
    obtain ⟨hdot, h⟩ := List.cons.inj h
    obtain ⟨hname, h⟩ := List.cons.inj h
    rw [Subtype.ext hdot, Subtype.ext hname, more.unique more' h]

/-- Behind arguments stands a parenthesis, so no argument follows. -/
theorem Arguments.unique : ∀ {n n' : Nat} (as : Arguments n) (as' : Arguments n')
    (closing closing' : Terminal [.rightParen]) (tail tail' : List Token), as.tokens ++ closing.1 :: tail = as'.tokens ++ closing'.1 :: tail' →
      (⟨n, as⟩ : Σ n, Arguments n) = ⟨n', as'⟩ ∧ closing.1 :: tail = closing'.1 :: tail'
  | _, _, .one e, .one e', closing, closing', tail, tail', h => by
    obtain ⟨he, htail, -⟩ := e.agree e' h (.delimiter (by decide) closing) (.delimiter (by decide) closing')
    rw [e.unique e' he]
    exact ⟨rfl, htail⟩
  | _, _, .one e, .cons e' comma' more', closing, closing', tail, tail', h => by
    rw [Arguments.tokens, Arguments.tokens, List.append_assoc, List.cons_append] at h
    obtain ⟨-, htail, -⟩ := e.agree e' h (.delimiter (by decide) closing) (.delimiter (by decide) comma')
    exact absurd (List.cons.inj htail).1 (closing.ne_of_kinds comma' (by decide))
  | _, _, .cons e comma more, .one e', closing, closing', tail, tail', h => by
    rw [Arguments.tokens, Arguments.tokens, List.append_assoc, List.cons_append] at h
    obtain ⟨-, htail, -⟩ := e.agree e' h (.delimiter (by decide) comma) (.delimiter (by decide) closing')
    exact absurd (List.cons.inj htail).1 (comma.ne_of_kinds closing' (by decide))
  | _, _, .cons e comma more, .cons e' comma' more', closing, closing', tail, tail', h => by
    rw [Arguments.tokens, Arguments.tokens, List.append_assoc, List.append_assoc, List.cons_append, List.cons_append] at h
    obtain ⟨he, htail, -⟩ := e.agree e' h (.delimiter (by decide) comma) (.delimiter (by decide) comma')
    obtain ⟨hcomma, htail⟩ := List.cons.inj htail
    obtain ⟨hmore, hclosing⟩ := more.unique more' closing closing' tail tail' htail
    cases hmore
    rw [e.unique e' he, Subtype.ext hcomma]
    exact ⟨rfl, hclosing⟩

end

end LoxLang
