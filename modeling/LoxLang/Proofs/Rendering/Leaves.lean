import LoxLang.Proofs.Derivation.Expression
import LoxLang.Proofs.Derivation.Unnumbered

/-! What a tree that was read is made of: its tokens are tokens of the source, and its literals are the values of such
tokens. -/

namespace LoxLang

mutual

/-- The tokens in a tree. -/
def Expr.tokens : Expr → List Token
  | .literal _ => []
  | .grouping inner => inner.tokens
  | .unary operator operand => operator :: operand.tokens
  | .binary left operator right | .logical left operator right => operator :: (left.tokens ++ right.tokens)
  | .read _ name => [name]
  | .assign _ name value => name :: value.tokens
  | .call callee paren arguments => paren :: (callee.tokens ++ Expr.tokensEach arguments)
  | .get object name => name :: object.tokens
  | .set object name value => name :: (object.tokens ++ value.tokens)
  | .self _ keyword => [keyword]
  | .inherited _ keyword method => [keyword, method]

def Expr.tokensEach : List Expr → List Token
  | [] => []
  | e :: rest => e.tokens ++ Expr.tokensEach rest

end

mutual

/-- The literals in a tree. -/
def Expr.literals : Expr → List Literal
  | .literal value => [value]
  | .grouping e | .unary _ e | .assign _ _ e | .get e _ => e.literals
  | .binary left _ right | .logical left _ right => left.literals ++ right.literals
  | .read _ _ | .self _ _ | .inherited _ _ _ => []
  | .call callee _ arguments => callee.literals ++ Expr.literalsEach arguments
  | .set object _ value => object.literals ++ value.literals

def Expr.literalsEach : List Expr → List Literal
  | [] => []
  | e :: rest => e.literals ++ Expr.literalsEach rest

end

/-- The tokens of the tree are among the given ones, and each literal is the value of one of them, or the one that is added
to a variable. -/
structure Expr.MadeOf (ts : List Token) (e : Expr) : Prop where
  tokens : e.tokens ⊆ ts
  literals : ∀ v ∈ e.literals, v = .number .one ∨ ∃ t ∈ ts, t.kind.constant? = some v

variable {ts : List Token}

theorem Level.madeOf_node {l : Level} {left right : Expr} {operator : Token} (hoperator : operator ∈ ts)
    (hleft : left.MadeOf ts) (hright : right.MadeOf ts) : (l.node left operator right).MadeOf ts := by
  have htokens : operator :: (left.tokens ++ right.tokens) ⊆ ts :=
    List.cons_subset.mpr ⟨hoperator, List.append_subset.mpr ⟨hleft.tokens, hright.tokens⟩⟩
  have hliterals := List.forall_mem_append.mpr ⟨hleft.literals, hright.literals⟩
  cases l <;> exact ⟨htokens, hliterals⟩

theorem Expr.madeOf_stepped {name sign : Token} (hname : name ∈ ts) (hsign : sign ∈ ts) :
    (Expr.stepped name sign).MadeOf ts where
  tokens := by simp [stepped, Expr.tokens, hname, hsign]
  literals v hv := .inl (by simpa [stepped, Expr.literals] using hv)

mutual

theorem Derivation.madeOf : ∀ {s : Symbol} (d : Derivation s), d.tokens ⊆ ts → d.tree.MadeOf ts
  | _, .assign name equals value, h => by
    simp only [Derivation.tokens, List.cons_subset] at h
    have hvalue := value.madeOf h.2.2
    exact ⟨List.cons_subset.mpr ⟨h.1, hvalue.tokens⟩, hvalue.literals⟩
  | _, .set object dot name equals value, h => by
    simp only [Derivation.tokens, List.append_subset, List.cons_subset] at h
    have hobject := object.madeOf h.1
    have hvalue := value.madeOf h.2.2.2.2
    exact ⟨List.cons_subset.mpr ⟨h.2.2.1, List.append_subset.mpr ⟨hobject.tokens, hvalue.tokens⟩⟩,
      List.forall_mem_append.mpr ⟨hobject.literals, hvalue.literals⟩⟩
  | _, .plain value, h | _, .sum value, h | _, .unsigned value, h => value.madeOf h
  | _, .operands first more, h => by
    obtain ⟨hfirst, hmore⟩ := List.append_subset.mp h
    exact more.madeOf hmore (first.madeOf hfirst)
  | _, .increment name first second, h | _, .decrement name first second, h => by
    simp only [Derivation.tokens, List.cons_subset] at h
    exact Expr.madeOf_stepped h.1 h.2.1
  | _, .signed operator operand, h => by
    obtain ⟨hoperator, hoperand⟩ := List.cons_subset.mp h
    have hoperand := operand.madeOf hoperand
    exact ⟨List.cons_subset.mpr ⟨hoperator, hoperand.tokens⟩, hoperand.literals⟩
  | _, .suffixed first more, h => by
    obtain ⟨hfirst, hmore⟩ := List.append_subset.mp h
    exact more.madeOf hmore (first.madeOf hfirst)
  | _, .literal t value hvalue, h =>
    ⟨List.nil_subset _, fun v hv => .inr ⟨t, h List.mem_cons_self, List.mem_singleton.mp hv ▸ hvalue⟩⟩
  | _, .self keyword, h => ⟨h, nofun⟩
  | _, .name t, h => ⟨h, nofun⟩
  | _, .grouping opening inner closing, h => by
    simp only [Derivation.tokens, List.cons_subset, List.append_subset] at h
    have hinner := inner.madeOf h.2.1
    exact ⟨hinner.tokens, hinner.literals⟩
  | _, .inherited keyword dot method, h => by
    simp only [Derivation.tokens, List.cons_subset] at h
    exact ⟨List.cons_subset.mpr ⟨h.1, List.cons_subset.mpr ⟨h.2.2.1, List.nil_subset _⟩⟩, nofun⟩

theorem Operands.madeOf : ∀ {l : Level} (more : Operands l), more.tokens ⊆ ts → ∀ {left : Expr}, left.MadeOf ts →
    (more.tree left).MadeOf ts
  | _, .nil, _, _, hleft => hleft
  | _, .cons operator right more, h, _, hleft => by
    simp only [Operands.tokens, List.cons_subset, List.append_subset] at h
    exact more.madeOf h.2.2 (Level.madeOf_node h.1 hleft (right.madeOf h.2.1))

theorem Suffixes.madeOf : ∀ (more : Suffixes), more.tokens ⊆ ts → ∀ {e : Expr}, e.MadeOf ts → (more.tree e).MadeOf ts
  | .nil, _, _, he => he
  | .call opening closing more, h, _, he => by
    simp only [Suffixes.tokens, List.cons_subset] at h
    refine more.madeOf h.2.2 ⟨List.cons_subset.mpr ⟨h.2.1, List.append_subset.mpr ⟨he.tokens, List.nil_subset _⟩⟩, ?_⟩
    exact List.forall_mem_append.mpr ⟨he.literals, nofun⟩
  | .callWith opening arguments few closing more, h, _, he => by
    simp only [Suffixes.tokens, List.cons_subset, List.append_subset] at h
    obtain ⟨htokens, hliterals⟩ := arguments.madeOf h.2.1
    exact more.madeOf h.2.2.2 ⟨List.cons_subset.mpr ⟨h.2.2.1, List.append_subset.mpr ⟨he.tokens, htokens⟩⟩,
      List.forall_mem_append.mpr ⟨he.literals, hliterals⟩⟩
  | .get dot name more, h, _, he => by
    simp only [Suffixes.tokens, List.cons_subset] at h
    exact more.madeOf h.2.2 ⟨List.cons_subset.mpr ⟨h.2.1, he.tokens⟩, he.literals⟩

theorem Arguments.madeOf : ∀ {n : Nat} (es : Arguments n), es.tokens ⊆ ts → Expr.tokensEach es.trees ⊆ ts ∧
    ∀ v ∈ Expr.literalsEach es.trees, v = .number .one ∨ ∃ t ∈ ts, t.kind.constant? = some v
  | _, .one e, h => by
    have he := e.madeOf h
    exact ⟨List.append_subset.mpr ⟨he.tokens, List.nil_subset _⟩, List.forall_mem_append.mpr ⟨he.literals, nofun⟩⟩
  | _, .cons e comma more, h => by
    simp only [Arguments.tokens, List.append_subset, List.cons_subset] at h
    have he := e.madeOf h.1
    obtain ⟨htokens, hliterals⟩ := more.madeOf h.2.2
    exact ⟨List.append_subset.mpr ⟨he.tokens, htokens⟩, List.forall_mem_append.mpr ⟨he.literals, hliterals⟩⟩

end

section Unnumbered

mutual

theorem Expr.leaves_unnumbered : ∀ e : Expr, e.unnumbered.tokens = e.tokens ∧ e.unnumbered.literals = e.literals
  | .literal _ | .read _ _ | .self _ _ | .inherited _ _ _ => ⟨rfl, rfl⟩
  | .grouping inner => inner.leaves_unnumbered
  | .unary _ e | .assign _ _ e | .get e _ => by
    obtain ⟨htokens, hliterals⟩ := e.leaves_unnumbered
    exact ⟨congrArg (List.cons _) htokens, hliterals⟩
  | .binary left _ right | .logical left _ right | .set left _ right => by
    obtain ⟨htokens, hliterals⟩ := left.leaves_unnumbered
    obtain ⟨htokens', hliterals'⟩ := right.leaves_unnumbered
    simp only [unnumbered, tokens, literals, htokens, hliterals, htokens', hliterals', and_self]
  | .call callee _ arguments => by
    obtain ⟨htokens, hliterals⟩ := callee.leaves_unnumbered
    obtain ⟨htokens', hliterals'⟩ := Expr.leaves_unnumberedEach arguments
    simp only [unnumbered, tokens, literals, htokens, hliterals, htokens', hliterals', and_self]

theorem Expr.leaves_unnumberedEach : ∀ es : List Expr,
    Expr.tokensEach (Expr.unnumberedEach es) = Expr.tokensEach es ∧
    Expr.literalsEach (Expr.unnumberedEach es) = Expr.literalsEach es
  | [] => ⟨rfl, rfl⟩
  | e :: rest => by
    obtain ⟨htokens, hliterals⟩ := e.leaves_unnumbered
    obtain ⟨htokens', hliterals'⟩ := Expr.leaves_unnumberedEach rest
    simp only [unnumberedEach, tokensEach, literalsEach, htokens, hliterals, htokens', hliterals', and_self]

end

theorem Expr.madeOf_of_derivation {e : Expr} {s : Symbol} {d : Derivation s} (h : e.unnumbered = d.tree) :
    e.MadeOf d.tokens := by
  obtain ⟨htokens, hliterals⟩ := e.leaves_unnumbered
  obtain ⟨htokens', hliterals'⟩ := d.madeOf (List.Subset.refl _)
  rw [← h] at htokens' hliterals'
  exact ⟨htokens ▸ htokens', hliterals ▸ hliterals'⟩

end Unnumbered

end LoxLang
