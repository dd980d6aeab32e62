import LoxLang.Proofs.Binding.Layout
import LoxLang.Proofs.Derivation.Statement
import LoxLang.Proofs.Grammar.Words
import LoxLang.Tree.Uses

/-! The names in the tree of a derivation: those that an expression uses are spelled in its tokens, and only declarations
declare any. -/

namespace LoxLang

/-- The token that stands for the name of a use. -/
def Spells (ts : List Token) (t : Token) : Prop := t ∈ ts ∧ t.kind ∈ Kind.naming

variable {ts us : List Token} {t : Token}

theorem Spells.mono (h : Spells ts t) (hs : ts ⊆ us) : Spells us t := ⟨hs h.1, h.2⟩

theorem spells_identifier {t : Terminal [.identifier]} (h : t.1 ∈ ts) : Spells ts t.1 :=
  ⟨h, by rw [List.mem_singleton.mp t.2]; decide⟩

theorem spells_this {t : Terminal [.kwThis]} (h : t.1 ∈ ts) : Spells ts t.1 :=
  ⟨h, by rw [List.mem_singleton.mp t.2]; decide⟩

theorem spells_super {t : Terminal [.kwSuper]} (h : t.1 ∈ ts) : Spells ts t.1 :=
  ⟨h, by rw [List.mem_singleton.mp t.2]; decide⟩

def Use.unnumbered (u : Use) : Use := { u with id := 0 }

mutual

theorem Expr.uses_unnumbered : ∀ e : Expr, e.unnumbered.uses = e.uses.map Use.unnumbered
  | .literal _ => rfl
  | .grouping inner => inner.uses_unnumbered
  | .unary _ operand => operand.uses_unnumbered
  | .binary left _ right | .logical left _ right => by
    rw [unnumbered, uses, uses, List.map_append, left.uses_unnumbered, right.uses_unnumbered]
  | .read _ _ | .self _ _ | .inherited _ _ _ => rfl
  | .assign _ _ value => by
    rw [unnumbered, uses, uses, List.map_cons, value.uses_unnumbered]
    rfl
  | .call callee _ arguments => by
    rw [unnumbered, uses, uses, List.map_append, callee.uses_unnumbered, Expr.usesEach_unnumberedEach arguments]
  | .get object _ => object.uses_unnumbered
  | .set object _ value => by
    rw [unnumbered, uses, uses, List.map_append, object.uses_unnumbered, value.uses_unnumbered]

theorem Expr.usesEach_unnumberedEach : ∀ es : List Expr,
    Expr.usesEach (Expr.unnumberedEach es) = (Expr.usesEach es).map Use.unnumbered
  | [] => rfl
  | e :: rest => by
    rw [unnumberedEach, usesEach, usesEach, List.map_append, e.uses_unnumbered, usesEach_unnumberedEach rest]

end

theorem Expr.usesOption_unnumbered (e : Option Expr) :
    Expr.usesOption (Expr.unnumberedOption e) = (Expr.usesOption e).map Use.unnumbered := by
  cases e with
  | none => rfl
  | some e => exact e.uses_unnumbered

mutual

theorem Stmt.uses_unnumbered : ∀ s : Stmt, s.unnumbered.uses = s.uses.map Use.unnumbered
  | .expression e | .print e => e.uses_unnumbered
  | .var _ e | .ret _ e => Expr.usesOption_unnumbered e
  | .block body => Stmt.usesEach_unnumbered body
  | .branch condition yes no => by
    rw [Stmt.unnumbered, Stmt.uses, Stmt.uses, List.map_append, List.map_append, condition.uses_unnumbered, yes.uses_unnumbered,
      Stmt.usesOption_unnumbered no]
  | .loop condition body => by
    rw [Stmt.unnumbered, Stmt.uses, Stmt.uses, List.map_append, condition.uses_unnumbered, body.uses_unnumbered]
  | .function f => f.uses_unnumbered
  | .classDecl _ superclass methods => by
    rw [Stmt.unnumbered, Stmt.uses, Stmt.uses, List.map_append, Function.usesEach_unnumbered methods]
    cases superclass <;> rfl

theorem Stmt.usesEach_unnumbered : ∀ body : List Stmt,
    Stmt.usesEach (Stmt.unnumberedEach body) = (Stmt.usesEach body).map Use.unnumbered
  | [] => rfl
  | s :: rest => by
    rw [Stmt.unnumberedEach, Stmt.usesEach, Stmt.usesEach, List.map_append, s.uses_unnumbered, Stmt.usesEach_unnumbered rest]

theorem Stmt.usesOption_unnumbered : ∀ s : Option Stmt,
    Stmt.usesOption (Stmt.unnumberedOption s) = (Stmt.usesOption s).map Use.unnumbered
  | none => rfl
  | some s => s.uses_unnumbered

theorem Function.uses_unnumbered : ∀ f : Function, f.unnumbered.uses = f.uses.map Use.unnumbered
  | .mk _ _ body => Stmt.usesEach_unnumbered body

theorem Function.usesEach_unnumbered : ∀ fs : List Function,
    Function.usesEach (Function.unnumberedEach fs) = (Function.usesEach fs).map Use.unnumbered
  | [] => rfl
  | f :: rest => by
    rw [Function.unnumberedEach, Function.usesEach, Function.usesEach, List.map_append, f.uses_unnumbered, Function.usesEach_unnumbered rest]

end

theorem Level.uses_node (l : Level) (a : Expr) (t : Token) (b : Expr) : (l.node a t b).uses = a.uses ++ b.uses := by
  cases l <;> rfl

mutual

/-- Each name that an expression uses is a token of it. -/
theorem Derivation.spells : ∀ {s : Symbol} (d : Derivation s), ∀ u ∈ d.tree.uses, Spells d.tokens u.token
  | _, .assign name equals value => by
    intro u hu
    rw [Derivation.tree, Expr.uses] at hu
    rcases List.mem_cons.mp hu with rfl | hu
    · exact spells_identifier List.mem_cons_self
    · exact (value.spells u hu).mono (by simp [Derivation.tokens])
  | _, .set object dot name equals value => by
    intro u hu
    rw [Derivation.tree, Expr.uses] at hu
    rcases List.mem_append.mp hu with hu | hu
    · exact (object.spells u hu).mono (by simp [Derivation.tokens])
    · exact (value.spells u hu).mono fun t ht => by simp [Derivation.tokens, ht]
  | _, .plain value => value.spells
  | _, .operands first more => by
    intro u hu
    rcases more.spells first.tree u hu with hu | hu
    · exact (first.spells u hu).mono (by simp [Derivation.tokens])
    · exact hu.mono (by simp [Derivation.tokens])
  | _, .sum value => value.spells
  | _, .increment name first second | _, .decrement name first second => by
    intro u hu
    have hname : u.token = name.1 := by
      simp only [Derivation.tree, Expr.stepped, Expr.uses, List.append_nil, List.mem_cons, List.not_mem_nil, or_false] at hu
      rcases hu with rfl | rfl <;> rfl
    rw [hname]
    exact spells_identifier List.mem_cons_self
  | _, .signed operator operand => by
    intro u hu
    exact (operand.spells u hu).mono (by simp [Derivation.tokens])
  | _, .unsigned value => value.spells
  | _, .suffixed first more => by
    intro u hu
    rcases more.spells first.tree u hu with hu | hu
    · exact (first.spells u hu).mono (by simp [Derivation.tokens])
    · exact hu.mono (by simp [Derivation.tokens])
  | _, .literal _ _ _ => by
    intro u hu
    cases hu
  | _, .self keyword => by
    intro u hu
    obtain rfl := List.mem_singleton.mp hu
    exact spells_this List.mem_cons_self
  | _, .name t => by
    intro u hu
    obtain rfl := List.mem_singleton.mp hu
    exact spells_identifier List.mem_cons_self
  | _, .grouping opening inner closing => by
    intro u hu
    exact (inner.spells u hu).mono (by simp [Derivation.tokens])
  | _, .inherited keyword dot method => by
    intro u hu
    obtain rfl := List.mem_singleton.mp hu
    exact spells_super List.mem_cons_self

theorem Operands.spells : ∀ {l : Level} (d : Operands l) (left : Expr), ∀ u ∈ (d.tree left).uses,
    u ∈ left.uses ∨ Spells d.tokens u.token
  | _, .nil, left => fun u hu => .inl hu
  | l, .cons operator right more, left => by
    intro u hu
    rcases more.spells _ u hu with hu | hu
    · rw [l.uses_node] at hu
      rcases List.mem_append.mp hu with hu | hu
      · exact .inl hu
      · exact .inr ((right.spells u hu).mono (by simp [Operands.tokens]))
    · exact .inr (hu.mono (by simp [Operands.tokens]))

theorem Suffixes.spells : ∀ (d : Suffixes) (e : Expr), ∀ u ∈ (d.tree e).uses, u ∈ e.uses ∨ Spells d.tokens u.token
  | .nil, e => fun u hu => .inl hu
  | .call opening closing more, e => by
    intro u hu
    rcases more.spells _ u hu with hu | hu
    · rw [Expr.uses, Expr.usesEach, List.append_nil] at hu
      exact .inl hu
    · exact .inr (hu.mono (by simp [Suffixes.tokens]))
  | .callWith opening arguments few closing more, e => by
    intro u hu
    rcases more.spells _ u hu with hu | hu
    · rw [Expr.uses] at hu
      rcases List.mem_append.mp hu with hu | hu
      · exact .inl hu
      · exact .inr ((arguments.spells u hu).mono (by simp [Suffixes.tokens]))
    · exact .inr (hu.mono fun t ht => by simp [Suffixes.tokens, ht])
  | .get dot name more, e => by
    intro u hu
    rcases more.spells _ u hu with hu | hu
    · exact .inl hu
    · exact .inr (hu.mono (by simp [Suffixes.tokens]))

theorem Arguments.spells : ∀ {n : Nat} (d : Arguments n), ∀ u ∈ Expr.usesEach d.trees, Spells d.tokens u.token
  | _, .one e => by
    intro u hu
    rw [Arguments.trees, Expr.usesEach, Expr.usesEach, List.append_nil] at hu
    exact e.spells u hu
  | _, .cons e comma more => by
    intro u hu
    rw [Arguments.trees, Expr.usesEach] at hu
    rcases List.mem_append.mp hu with hu | hu
    · exact (e.spells u hu).mono (by simp [Arguments.tokens])
    · exact (more.spells u hu).mono (by simp [Arguments.tokens])

end

/-- The names of an expression that was read are tokens of its derivation. -/
theorem Expr.spells_of_derivation {e : Expr} {s : Symbol} {d : Derivation s} (h : e.unnumbered = d.tree) :
    ∀ u ∈ e.uses, Spells d.tokens u.token := by
  intro u hu
  have hmem : u.unnumbered ∈ d.tree.uses := by
    rw [← h, e.uses_unnumbered]
    exact List.mem_map_of_mem hu
  exact d.spells u.unnumbered hmem

theorem Expr.spells_of_option {e : Option Expr} {d : Option (Derivation .expression)}
    (h : Expr.unnumberedOption e = Derivation.treeOption d) :
    ∀ e' ∈ e, ∀ u ∈ e'.uses, Spells (Derivation.tokensOption d) u.token := by
  rintro e' he u hu
  obtain rfl := Option.mem_def.mp he
  cases d with
  | none => cases h
  | some d => exact Expr.spells_of_derivation (Option.some.inj h) u hu

theorem Stmt.declares_unnumbered (s : Stmt) : s.unnumbered.declares = s.declares := by
  cases s with
  | function f => cases f; rfl
  | _ => rfl

/-- Only declarations declare. -/
theorem StatementDerivation.declares_tree {lenient hangs : Bool} (d : StatementDerivation lenient hangs) : d.tree.declares = [] := by
  cases d with
  | counting keyword opening first condition semicolon increment closing body =>
    rw [StatementDerivation.tree]
    cases increment <;> cases first <;> rfl
  | branchElse => rw [StatementDerivation.tree]; rfl
  | _ => rw [StatementDerivation.tree]; rfl

end LoxLang
