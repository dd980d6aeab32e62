import LoxLang.Proofs.Derivation.Expression
import LoxLang.Proofs.Derivation.Readings
import LoxLang.Proofs.Derivation.Unnumbered

/-! Whatever has a derivation is read as its tree, if what stands behind it cannot carry it on. -/

namespace LoxLang

/-- How loose a symbol binds. -/
def Symbol.rank : Symbol → Nat
  | primary => 0
  | call | unary => 1
  | level .product => 2
  | level .sum | term => 3
  | level .comparison => 4
  | level .equality => 5
  | level .conjunction => 6
  | level .disjunction => 7
  | expression => 8

/-- The rank of the loosest symbol that a token of this kind can carry on. Two signs in a row are told apart by the
beginning of an operand behind them, so that carries on a sum. -/
def Kind.reach : Kind → Nat
  | leftParen | dot => 1
  | star | slash => 2
  | plus | minus | number _ | string _ | identifier | kwTrue | kwFalse | kwNil | kwThis | kwSuper | bang => 3
  | greater | greaterEqual | less | lessEqual => 4
  | bangEqual | equalEqual => 5
  | kwAnd => 6
  | kwOr => 7
  | equal => 8
  | _ => 9

theorem Kind.reach_of_startsOperand {k : Kind} (h : Grammar.startsOperand k = true) : k.reach ≤ 3 := by
  cases k <;> simp_all [Grammar.startsOperand, reach]

theorem Level.reach_of_mem {l : Level} {k : Kind} (h : k ∈ l.operators) : k.reach = (Symbol.level l).rank := by
  cases l <;> simp only [operators, List.mem_cons, List.not_mem_nil, or_false] at h <;>
    rcases h with rfl | rfl | rfl | rfl <;> rfl

theorem Level.rank_operand (l : Level) : l.operand.rank < (Symbol.level l).rank := by
  cases l <;> decide

/-- The first token of the tail cannot carry the symbol on. -/
def Symbol.EndsBefore (s : Symbol) (tail : List Token) : Prop := ∀ t ∈ tail.head?, s.rank < t.kind.reach

namespace Symbol.EndsBefore

variable {s s' : Symbol} {t : Token} {tail : List Token}

theorem of_le (h : s.EndsBefore tail) (hs : s'.rank ≤ s.rank) : s'.EndsBefore tail :=
  fun t ht => hs.trans_lt (h t ht)

theorem primary : Symbol.primary.EndsBefore tail := by
  intro t _
  cases t.kind <;> simp [rank, Kind.reach]

theorem cons (h : s.rank < t.kind.reach) : s.EndsBefore (t :: tail) := by
  intro u hu
  cases hu
  exact h

/-- In front of a token that carries nothing on, everything ends. -/
theorem delimiter {k : Kind} (hk : 8 < k.reach) (t : Terminal [k]) : s.EndsBefore (t.1 :: tail) := by
  have hs : s.rank ≤ 8 := by
    cases s with
    | level l => cases l <;> decide
    | _ => decide
  exact cons (by rw [List.mem_singleton.mp t.2]; omega)

theorem kind_ne (h : s.EndsBefore tail) {k : Kind} (hk : k.reach ≤ s.rank) : ∀ t ∈ tail.head?, t.kind ≠ k := by
  rintro t ht rfl
  exact absurd (h t ht) (by omega)

theorem operands {l : Level} (more : Operands l) (h : (Symbol.level l).EndsBefore tail) :
    l.operand.EndsBefore (more.tokens ++ tail) := by
  cases more with
  | nil => exact h.of_le l.rank_operand.le
  | cons operator right more =>
    refine cons ?_
    rw [Level.reach_of_mem operator.2]
    exact l.rank_operand

end Symbol.EndsBefore

/-- A derivation begins with the beginning of an operand, and so does what stands behind a minus sign in front. -/
theorem Derivation.head {s : Symbol} (d : Derivation s) : ∃ t rest, d.tokens = t :: rest ∧
    Grammar.startsOperand t.kind = true ∧
      (t.kind = .minus → ∃ u rest', rest = u :: rest' ∧ Grammar.startsOperand u.kind = true) := by
  cases d with
  | assign name equals value =>
    have hname := List.mem_singleton.mp name.2
    exact ⟨_, _, rfl, by rw [hname]; rfl, by simp [hname]⟩
  | set object dot name equals value =>
    obtain ⟨t, rest, ht, hstart, hminus⟩ := object.head
    refine ⟨t, _, by rw [tokens, ht, List.cons_append], hstart, fun h => ?_⟩
    obtain ⟨u, rest', rfl, hu⟩ := hminus h
    exact ⟨u, _, rfl, hu⟩
  | plain value => exact value.head
  | operands first more =>
    obtain ⟨t, rest, ht, hstart, hminus⟩ := first.head
    refine ⟨t, _, by rw [tokens, ht, List.cons_append], hstart, fun h => ?_⟩
    obtain ⟨u, rest', rfl, hu⟩ := hminus h
    exact ⟨u, _, rfl, hu⟩
  | sum value => exact value.head
  | increment name first second | decrement name first second =>
    have hname := List.mem_singleton.mp name.2
    exact ⟨_, _, rfl, by rw [hname]; rfl, by simp [hname]⟩
  | signed operator operand =>
    obtain ⟨u, rest, hu, hstart, -⟩ := operand.head
    refine ⟨_, _, rfl, ?_, fun _ => ⟨u, rest, hu, hstart⟩⟩
    rcases List.mem_cons.mp operator.2 with h | h
    · rw [h]
      rfl
    · rw [List.mem_singleton.mp h]
      rfl
  | unsigned value => exact value.head
  | suffixed first more =>
    obtain ⟨t, rest, ht, hstart, hminus⟩ := first.head
    refine ⟨t, _, by rw [tokens, ht, List.cons_append], hstart, fun h => ?_⟩
    obtain ⟨u, rest', rfl, hu⟩ := hminus h
    exact ⟨u, _, rfl, hu⟩
  | literal t value h =>
    refine ⟨t, [], rfl, ?_, fun hk => ?_⟩
    · cases hk : t.kind <;> simp_all [Kind.constant?, Grammar.startsOperand]
    · rw [hk] at h
      cases h
  | self keyword =>
    have hk := List.mem_singleton.mp keyword.2
    exact ⟨_, _, rfl, by rw [hk]; rfl, by simp [hk]⟩
  | name t =>
    have hk := List.mem_singleton.mp t.2
    exact ⟨_, _, rfl, by rw [hk]; rfl, by simp [hk]⟩
  | grouping opening inner closing =>
    have hk := List.mem_singleton.mp opening.2
    exact ⟨_, _, rfl, by rw [hk]; rfl, by simp [hk]⟩
  | inherited keyword dot method =>
    have hk := List.mem_singleton.mp keyword.2
    exact ⟨_, _, rfl, by rw [hk]; rfl, by simp [hk]⟩

/-- A call does not begin with the operator of a unary. -/
theorem Derivation.head_of_call (d : Derivation .call) :
    ∃ t rest, d.tokens = t :: rest ∧ Grammar.isUnary t.kind = false := by
  cases d with
  | suffixed first more =>
    cases first with
    | literal t value h =>
      refine ⟨t, _, rfl, ?_⟩
      cases hk : t.kind <;> simp_all [Kind.constant?, Grammar.isUnary]
    | self keyword => exact ⟨_, _, rfl, by rw [List.mem_singleton.mp keyword.2]; rfl⟩
    | name t => exact ⟨_, _, rfl, by rw [List.mem_singleton.mp t.2]; rfl⟩
    | grouping opening inner closing => exact ⟨_, _, rfl, by rw [List.mem_singleton.mp opening.2]; rfl⟩
    | inherited keyword dot method => exact ⟨_, _, rfl, by rw [List.mem_singleton.mp keyword.2]; rfl⟩

theorem Arguments.head {n : Nat} (as : Arguments n) : ∃ t rest, as.tokens = t :: rest ∧
    Grammar.startsOperand t.kind = true := by
  cases as with
  | one e =>
    obtain ⟨t, rest, ht, hstart, -⟩ := e.head
    exact ⟨t, rest, ht, hstart⟩
  | cons e comma more =>
    obtain ⟨t, rest, ht, hstart, -⟩ := e.head
    exact ⟨t, _, by rw [tokens, ht, List.cons_append], hstart⟩

/-- Two signs in a row with an operand behind them are not a step. -/
theorem Derivation.not_doubles {s : Symbol} (d : Derivation s) {sign : Token} (hsign : sign.kind ∈ Level.sum.operators)
    (tail : List Token) : Grammar.doubles sign (d.tokens ++ tail) = false := by
  obtain ⟨t, rest, ht, hstart, hminus⟩ := d.head
  rw [ht, List.cons_append, Grammar.doubles, Bool.and_eq_false_imp]
  intro hkind
  have hkind := eq_of_beq hkind
  rcases List.mem_cons.mp hsign with h | h
  · obtain ⟨u, rest', rfl, hu⟩ := hminus (hkind.trans h)
    simp [hu]
  · rw [hkind, List.mem_singleton.mp h] at hstart
    cases hstart

/-- From each cursor with fewer tokens ahead than the bound, every derivation that ends there is read as its tree. -/
def TakesAll (s : Symbol) (reader : Reader Expr) (bound : Nat) : Prop :=
  ∀ (d : Derivation s) (c : Cursor) (tail : List Token), c.rest = d.tokens ++ tail →
    (d.tokens ++ tail).length < bound → s.EndsBefore tail → Takes reader c tail fun e => e.unnumbered = d.tree

namespace Grammar

open Reader Takes

variable {nested operand : Reader Expr} {n b : Nat} {c : Cursor} {tail : List Token}

theorem peek_of_rest {t : Token} {rest : List Token} (h : c.rest = t :: rest) : c.peek = t := by
  rw [Cursor.peek, h]
  rfl

theorem takes_primary (h : TakesAll .expression nested n) : TakesAll .primary (primary nested) (n + 1) := by
  intro d c tail hrest hlen hend
  refine after_get ?_
  dsimp only
  cases d with
  | literal t value hv =>
    rw [peek_of_rest hrest]
    obtain ⟨kind, lexeme, line⟩ := t
    cases kind <;> cases hv <;> exact after_advance hrest (done rfl rfl)
  | self keyword =>
    rw [peek_of_rest hrest, List.mem_singleton.mp keyword.2]
    exact after_advance hrest (after_fresh (done rfl rfl))
  | name t =>
    rw [peek_of_rest hrest, List.mem_singleton.mp t.2]
    exact after_advance hrest (after_fresh (done rfl rfl))
  | grouping opening inner closing =>
    have hclosing := List.mem_singleton.mp closing.2
    rw [Derivation.tokens, List.cons_append, List.append_assoc, List.singleton_append] at hrest hlen
    rw [peek_of_rest hrest, List.mem_singleton.mp opening.2]
    have hend : Symbol.expression.EndsBefore (closing.1 :: tail) := .delimiter (by decide) closing
    refine after_advance hrest ((h inner _ _ rfl (Nat.lt_of_succ_lt_succ hlen) hend).bind fun e i he => ?_)
    refine after_expect rfl hclosing (done rfl ?_)
    rw [Expr.unnumbered, he]
    rfl
  | inherited keyword dot method =>
    rw [peek_of_rest hrest, List.mem_singleton.mp keyword.2]
    refine after_advance hrest (after_expect rfl (List.mem_singleton.mp dot.2) ?_)
    exact after_expect rfl (List.mem_singleton.mp method.2) (after_fresh (done rfl rfl))

/-- Arguments in front of the parenthesis that closes them, so few that none is reported. -/
theorem takes_separated (h : TakesAll .expression nested n) (what : String) {count : Nat} (as : Arguments count) :
    ∀ {m read : Nat} {c : Cursor} {closing : Token}, c.rest = as.tokens ++ closing :: tail →
      (as.tokens ++ closing :: tail).length < m → (as.tokens ++ closing :: tail).length < n →
        read + count ≤ maxArity → closing.kind = .rightParen →
          Takes (separated what nested m read) c (closing :: tail) fun es => Expr.unnumberedEach es = as.trees := by
  intro m read c closing hrest hm hn hcount hclosing
  obtain _ | m := m
  · omega
  rw [separated]
  cases as with
  | one e =>
    rw [if_neg (by omega)]
    have hend : Symbol.expression.EndsBefore (closing :: tail) := .cons (by rw [hclosing]; decide)
    refine (h e c _ hrest hn hend).bind fun e' i he => ?_
    refine after_missing (by simp [hclosing]) (done rfl ?_)
    rw [Expr.unnumberedEach, he]
    rfl
  | @cons count e comma more =>
    rw [if_neg (by omega)]
    have hcomma := List.mem_singleton.mp comma.2
    have hend : Symbol.expression.EndsBefore (comma.1 :: (more.tokens ++ closing :: tail)) :=
      .delimiter (by decide) comma
    rw [Arguments.tokens, List.append_assoc, List.cons_append] at hrest hm hn
    refine (h e c _ hrest hn hend).bind fun e' i he => after_accepting rfl hcomma ?_
    rw [List.length_append, List.length_cons] at hm hn
    refine (takes_separated h what more rfl (by omega) (by omega) (by omega) hclosing).bind fun es j hes => ?_
    refine done rfl ?_
    rw [Expr.unnumberedEach, he, hes]
    rfl

theorem takes_suffixes (h : TakesAll .expression nested n) (more : Suffixes) :
    ∀ {m : Nat} {c : Cursor} {e : Expr}, c.rest = more.tokens ++ tail → (more.tokens ++ tail).length < m →
      (more.tokens ++ tail).length ≤ n → Symbol.call.EndsBefore tail →
        Takes (suffixes nested m e) c tail fun e' => e'.unnumbered = more.tree e.unnumbered := by
  intro m c e hrest hm hn hend
  obtain _ | m := m
  · omega
  cases more with
  | nil =>
    rw [Suffixes.tokens, List.nil_append] at hrest
    refine after_missing (hrest ▸ hend.kind_ne (by decide)) ?_
    refine after_missing (hrest ▸ hend.kind_ne (by decide)) (done hrest rfl)
  | call opening closing more =>
    have hclosing := List.mem_singleton.mp closing.2
    rw [Suffixes.tokens, List.cons_append, List.cons_append] at hrest hm hn
    rw [List.length_cons, List.length_cons] at hm hn
    have hlisted : Takes (listed "arguments" nested (m + 1)) { c with rest := closing.1 :: (more.tokens ++ tail) }
        (closing.1 :: (more.tokens ++ tail)) (· = []) := after_found rfl hclosing (done rfl rfl)
    refine after_accepting hrest (List.mem_singleton.mp opening.2) ?_
    refine hlisted.bind fun es i hes => after_expect rfl hclosing ?_
    refine (takes_suffixes h more rfl (by omega) (by omega) hend).weaken fun e' he => ?_
    rw [he, Expr.unnumbered, hes]
    rfl
  | callWith opening arguments few closing more =>
    have hclosing := List.mem_singleton.mp closing.2
    rw [Suffixes.tokens, List.cons_append, List.append_assoc, List.cons_append] at hrest hm hn
    rw [List.length_cons] at hm hn
    have hlisted : Takes (listed "arguments" nested (m + 1))
        { c with rest := arguments.tokens ++ closing.1 :: (more.tokens ++ tail) } (closing.1 :: (more.tokens ++ tail))
        fun es => Expr.unnumberedEach es = arguments.trees := by
      obtain ⟨t, rest, ht, hstart⟩ := arguments.head
      have hfirst : arguments.tokens ++ closing.1 :: (more.tokens ++ tail) =
          t :: (rest ++ closing.1 :: (more.tokens ++ tail)) := by rw [ht, List.cons_append]
      have hkind : t.kind ≠ .rightParen := fun hk => by
        rw [hk] at hstart
        cases hstart
      refine after_other hfirst hkind ?_
      exact takes_separated h _ arguments rfl (by omega) (by omega) (by simpa [maxArity] using few) hclosing
    refine after_accepting hrest (List.mem_singleton.mp opening.2) ?_
    refine hlisted.bind fun es i hes => after_expect rfl hclosing ?_
    rw [List.length_append, List.length_cons] at hm hn
    refine (takes_suffixes h more rfl (by omega) (by omega) hend).weaken fun e' he => ?_
    rw [he, Expr.unnumbered, hes]
    rfl
  | get dot name more =>
    have hdot := List.mem_singleton.mp dot.2
    rw [Suffixes.tokens, List.cons_append, List.cons_append] at hrest hm hn
    rw [List.length_cons, List.length_cons] at hm hn
    refine after_missing (by simp [hrest, hdot]) (after_accepting hrest hdot ?_)
    refine after_expect rfl (List.mem_singleton.mp name.2) ?_
    exact takes_suffixes h more rfl (by omega) (by omega) hend

theorem takes_call (h : TakesAll .expression nested n) (hb : b ≤ n + 1) : TakesAll .call (call nested b) b := by
  intro d c tail hrest hlen hend
  cases d with
  | suffixed first more =>
    rw [Derivation.tokens, List.append_assoc] at hrest hlen
    refine (takes_primary h first c _ hrest (by omega) .primary).bind fun e i he => ?_
    obtain ⟨t, rest, ht, -⟩ := first.head
    rw [List.length_append, ht, List.length_cons] at hlen
    refine (takes_suffixes h more rfl (by omega) (by omega) hend).weaken fun e' he' => ?_
    rw [he', he]
    rfl

theorem takes_unary (h : TakesAll .expression nested n) (hb : b ≤ n + 1) : TakesAll .unary (unary nested b) b := by
  induction b with
  | zero =>
    intro d c tail _ hlen
    omega
  | succ b ih =>
    intro d c tail hrest hlen hend
    cases d with
    | signed operator operand =>
      refine after_passing hrest (by simpa [isUnary] using operator.2) ?_
      refine (ih (by omega) operand _ tail rfl (Nat.lt_of_succ_lt_succ hlen) hend).bind fun e i he => done rfl ?_
      rw [Expr.unnumbered, he]
      rfl
    | unsigned value =>
      refine after_refusing ?_ (takes_call h hb value c tail hrest hlen hend)
      obtain ⟨t, rest, ht, hk⟩ := value.head_of_call
      rw [hrest, Derivation.tokens, ht]
      rintro _ ⟨⟩
      exact hk

section Levels

variable {l : Level} {isOperator : Kind → Bool} {node : Expr → Token → Expr → Expr}

theorem takes_chain (hkind : ∀ k, isOperator k = true ↔ k ∈ l.operators)
    (hnode : ∀ a t b, (node a t b).unnumbered = l.node a.unnumbered t b.unnumbered) (h : TakesAll l.operand operand b)
    (more : Operands l) :
    ∀ {m : Nat} {c : Cursor} {left : Expr}, c.rest = more.tokens ++ tail → (more.tokens ++ tail).length < m →
      (more.tokens ++ tail).length < b → (Symbol.level l).EndsBefore tail →
        Takes (chain isOperator node operand m left) c tail fun e => e.unnumbered = more.tree left.unnumbered := by
  intro m c left hrest hm hb hend
  obtain _ | m := m
  · omega
  cases more with
  | nil =>
    refine after_refusing (fun t ht => Bool.eq_false_iff.mpr fun hk => ?_) (done hrest rfl)
    rw [hrest] at ht
    exact absurd (hend t ht) (Level.reach_of_mem ((hkind _).mp hk)).le.not_gt
  | cons operator right more =>
    rw [Operands.tokens, List.cons_append, List.append_assoc] at hrest hm hb
    rw [List.length_cons] at hm hb
    refine after_passing hrest ((hkind _).mpr operator.2) ?_
    refine (h right _ _ rfl (by omega) (hend.operands more)).bind fun e i he => ?_
    rw [List.length_append] at hm hb
    refine (takes_chain hkind hnode h more rfl (by omega) (by omega) hend).weaken fun e' he' => ?_
    rw [he', hnode, he]
    rfl

theorem takes_level (hkind : ∀ k, isOperator k = true ↔ k ∈ l.operators)
    (hnode : ∀ a t b, (node a t b).unnumbered = l.node a.unnumbered t b.unnumbered) (h : TakesAll l.operand operand b) :
    TakesAll (.level l) (level isOperator node operand b) b := by
  intro d c tail hrest hlen hend
  cases d with
  | operands first more =>
    rw [Derivation.tokens, List.append_assoc] at hrest hlen
    refine (h first c _ hrest hlen (hend.operands more)).bind fun e i he => ?_
    rw [List.length_append] at hlen
    refine (takes_chain hkind hnode h more rfl (by omega) (by omega) hend).weaken fun e' he' => ?_
    rw [he', he]
    rfl

end Levels

theorem takes_factor (h : TakesAll .expression nested n) (hb : b ≤ n + 1) :
    TakesAll (.level .product) (factor nested b) b :=
  takes_level (l := .product) (fun k => by simp [isFactor, Level.operators, or_comm])
    (fun a t b => by rw [Expr.unnumbered]; rfl) (takes_unary h hb)

theorem takes_sums (h : TakesAll (.level .product) operand b) (more : Operands .sum) :
    ∀ {m : Nat} {c : Cursor} {left : Expr}, c.rest = more.tokens ++ tail → (more.tokens ++ tail).length < m →
      (more.tokens ++ tail).length < b → (Symbol.level .sum).EndsBefore tail →
        Takes (sums operand m left) c tail fun e => e.unnumbered = more.tree left.unnumbered := by
  intro m c left hrest hm hb hend
  obtain _ | m := m
  · omega
  have hkind : ∀ k, isTerm k = true ↔ k ∈ Level.sum.operators := fun k => by simp [isTerm, Level.operators]
  cases more with
  | nil =>
    refine after_refusing (fun t ht => Bool.eq_false_iff.mpr fun hk => ?_) (done hrest rfl)
    rw [hrest] at ht
    exact absurd (hend t ht) (Level.reach_of_mem ((hkind _).mp hk)).le.not_gt
  | cons operator right more =>
    rw [Operands.tokens, List.cons_append, List.append_assoc] at hrest hm hb
    rw [List.length_cons] at hm hb
    refine after_passing hrest ((hkind _).mpr operator.2) (after_get ?_)
    rw [if_neg (by simp [right.not_doubles operator.2])]
    refine (h right _ _ rfl (Nat.lt_of_succ_lt hb) (hend.operands more)).bind fun e i he => ?_
    rw [List.length_append] at hm hb
    refine (takes_sums h more rfl (by omega) (by omega) hend).weaken fun e' he' => ?_
    rw [he', Expr.unnumbered, he]
    rfl

/-- A sign written twice behind a name, with no operand after it. -/
theorem takes_step {m : Nat} {left : Expr} {name first second : Token} (hleft : left.unnumbered = .read 0 name)
    (hkind : first.kind ∈ Level.sum.operators) (hsame : second.kind = first.kind) (hrest : c.rest = first :: second :: tail)
    (hend : Symbol.term.EndsBefore tail) :
    Takes (sums operand (m + 1) left) c tail fun e => e.unnumbered = .stepped name first := by
  refine after_passing hrest (by simpa [isTerm, Level.operators] using hkind) (after_get ?_)
  have hdoubles : doubles first (second :: tail) = true := by
    rw [doubles, hsame, BEq.rfl, Bool.true_and, Bool.not_eq_true']
    cases tail with
    | nil => rfl
    | cons t tail =>
      refine Bool.eq_false_iff.mpr fun hk => ?_
      exact absurd (hend t rfl) (Kind.reach_of_startsOperand hk).not_gt
  rw [if_pos hdoubles]
  refine after_advance rfl ?_
  cases left <;> cases hleft
  exact after_fresh (done rfl rfl)

/-- A name with a doubled sign behind it: the name is read as a whole factor first. -/
theorem takes_doubled (h : TakesAll .expression nested n) (hb : b ≤ n + 1) {name : Terminal [.identifier]}
    {first second : Token} (hkind : first.kind ∈ Level.sum.operators) (hsame : second.kind = first.kind)
    (hrest : c.rest = name.1 :: first :: second :: tail) (hlen : (name.1 :: first :: second :: tail).length < b)
    (hend : Symbol.term.EndsBefore tail) :
    Takes (term nested b) c tail fun e => e.unnumbered = .stepped name.1 first := by
  obtain _ | b := b
  · omega
  have hsign : (Symbol.level .product).EndsBefore (first :: second :: tail) :=
    .cons (by rw [Level.reach_of_mem hkind]; decide)
  refine (takes_factor h hb (Derivation.lone name).factor c _ hrest hlen hsign).bind fun e i he => ?_
  exact takes_step he hkind hsame rfl hend

theorem takes_term (h : TakesAll .expression nested n) (hb : b ≤ n + 1) : TakesAll .term (term nested b) b := by
  intro d c tail hrest hlen hend
  cases d with
  | sum value =>
    cases value with
    | operands first more =>
      rw [Derivation.tokens, Derivation.tokens, List.append_assoc] at hrest hlen
      refine (takes_factor h hb first c _ hrest hlen (hend.operands more)).bind fun e i he => ?_
      rw [List.length_append] at hlen
      refine (takes_sums (takes_factor h hb) more rfl (by omega) (by omega) hend).weaken fun e' he' => ?_
      rw [he', he]
      rfl
  | increment name first second =>
    have hfirst := List.mem_singleton.mp first.2
    have hsecond := List.mem_singleton.mp second.2
    exact takes_doubled h hb (by simp [hfirst, Level.operators]) (hsecond.trans hfirst.symm) hrest hlen hend
  | decrement name first second =>
    have hfirst := List.mem_singleton.mp first.2
    have hsecond := List.mem_singleton.mp second.2
    exact takes_doubled h hb (by simp [hfirst, Level.operators]) (hsecond.trans hfirst.symm) hrest hlen hend

theorem takes_comparison (h : TakesAll .expression nested n) (hb : b ≤ n + 1) :
    TakesAll (.level .comparison) (comparison nested b) b :=
  takes_level (l := .comparison) (fun k => by simp [isComparison, Level.operators, or_assoc])
    (fun a t b => by rw [Expr.unnumbered]; rfl) (takes_term h hb)

theorem takes_equality (h : TakesAll .expression nested n) (hb : b ≤ n + 1) :
    TakesAll (.level .equality) (equality nested b) b :=
  takes_level (l := .equality) (fun k => by simp [isEquality, Level.operators])
    (fun a t b => by rw [Expr.unnumbered]; rfl) (takes_comparison h hb)

theorem takes_conjunction (h : TakesAll .expression nested n) (hb : b ≤ n + 1) :
    TakesAll (.level .conjunction) (conjunction nested b) b :=
  takes_level (l := .conjunction) (fun k => by simp [Level.operators]) (fun a t b => by rw [Expr.unnumbered]; rfl)
    (takes_equality h hb)

theorem takes_disjunction (h : TakesAll .expression nested n) (hb : b ≤ n + 1) :
    TakesAll (.level .disjunction) (disjunction nested b) b :=
  takes_level (l := .disjunction) (fun k => by simp [Level.operators]) (fun a t b => by rw [Expr.unnumbered]; rfl)
    (takes_conjunction h hb)

theorem takes_assignment (h : TakesAll .expression nested n) :
    TakesAll .expression (assignment nested (n + 1)) (n + 1) := by
  intro d c tail hrest hlen hend
  have hleft := takes_disjunction h le_rfl
  have hequal (equals : Terminal [.equal]) (rest : List Token) :
      (Symbol.level .disjunction).EndsBefore (equals.1 :: rest) :=
    .cons (by rw [List.mem_singleton.mp equals.2]; decide)
  cases d with
  | assign name equals value =>
    rw [Derivation.tokens, List.cons_append, List.cons_append] at hrest hlen
    refine (hleft (Derivation.lone name).climb c _ hrest hlen (hequal equals _)).bind fun target i htarget => ?_
    refine after_accepting rfl (List.mem_singleton.mp equals.2) ?_
    rw [List.length_cons, List.length_cons] at hlen
    refine (h value _ tail rfl (by omega) hend).bind fun e j he => ?_
    cases target <;> cases htarget
    refine after_fresh (done rfl ?_)
    rw [Expr.unnumbered, he]
    rfl
  | set object dot name equals value =>
    have htokens : c.rest = (object.property dot name).climb.tokens ++ (equals.1 :: (value.tokens ++ tail)) := by
      simpa [Derivation.tokens] using hrest
    rw [hrest.symm.trans htokens] at hlen
    refine (hleft _ c _ htokens hlen (hequal equals _)).bind fun target i htarget => ?_
    refine after_accepting rfl (List.mem_singleton.mp equals.2) ?_
    rw [List.length_append, List.length_cons] at hlen
    obtain ⟨t, rest, ht, -⟩ := (object.property dot name).climb.head
    rw [ht, List.length_cons] at hlen
    refine (h value _ tail rfl (by omega) hend).bind fun e j he => ?_
    rw [Derivation.climb_tree, Derivation.property_tree] at htarget
    cases target <;> simp only [Expr.unnumbered, reduceCtorEq, Expr.get.injEq] at htarget
    obtain ⟨ho, rfl⟩ := htarget
    refine done rfl ?_
    rw [Expr.unnumbered, he, ho]
    rfl
  | plain value =>
    refine (hleft value c tail hrest hlen (hend.of_le (by decide))).bind fun e i he => ?_
    exact after_missing (hend.kind_ne (by decide)) (done rfl he)

theorem takes_expression (n : Nat) : TakesAll .expression (expression n) n := by
  induction n with
  | zero =>
    intro d c tail _ hlen
    omega
  | succ n ih => exact takes_assignment ih

end Grammar

end LoxLang
