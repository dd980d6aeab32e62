import LoxLang.Proofs.Derivation.Expression
import LoxLang.Proofs.Derivation.Readings
import LoxLang.Proofs.Derivation.Unnumbered

/-! What is read as an expression has a derivation: the tokens taken are its tokens, and up to node ids the tree is
its tree. -/

namespace LoxLang

def Symbol.Derives (s : Symbol) (taken : List Token) (e : Expr) : Prop :=
  ∃ d : Derivation s, taken = d.tokens ∧ e.unnumbered = d.tree

/-- Whatever the reader reads without a fault has a derivation. -/
def ParsesAs (s : Symbol) (reader : Reader Expr) : Prop := Parses reader fun taken _ e => s.Derives taken e

section Targets

theorem Level.node_ne_read (l : Level) (a : Expr) (t : Token) (b : Expr) (id : NodeId) (x : Token) :
    l.node a t b ≠ .read id x := by cases l <;> simp [node]

theorem Level.node_ne_get (l : Level) (a : Expr) (t : Token) (b : Expr) (o : Expr) (x : Token) :
    l.node a t b ≠ .get o x := by cases l <;> simp [node]

/-- Operands that stand behind another one make a node of their level. -/
theorem Operands.tree_eq : ∀ {l : Level} (more : Operands l) (left : Expr),
    (more = .nil ∧ more.tree left = left) ∨ ∃ a t b, more.tree left = l.node a t b
  | _, .nil, _ => .inl ⟨rfl, rfl⟩
  | l, .cons operator right more, left => by
    right
    rw [Operands.tree]
    rcases more.tree_eq (l.node left operator.1 right.tree) with ⟨-, h⟩ | h
    · exact ⟨_, _, _, h⟩
    · exact h

theorem Operands.tree_eq_read {l : Level} {more : Operands l} {left : Expr} {id : NodeId} {x : Token}
    (h : more.tree left = .read id x) : more = .nil ∧ left = .read id x := by
  rcases more.tree_eq left with ⟨hnil, he⟩ | ⟨a, t, b, he⟩
  · exact ⟨hnil, he ▸ h⟩
  · exact absurd (he ▸ h) (l.node_ne_read a t b id x)

theorem Operands.tree_eq_get {l : Level} {more : Operands l} {left o : Expr} {x : Token}
    (h : more.tree left = .get o x) : more = .nil ∧ left = .get o x := by
  rcases more.tree_eq left with ⟨hnil, he⟩ | ⟨a, t, b, he⟩
  · exact ⟨hnil, he ▸ h⟩
  · exact absurd (he ▸ h) (l.node_ne_get a t b o x)

/-- The tree of a property has its name as the last suffix. -/
theorem Suffixes.tree_eq_get : ∀ (more : Suffixes) {e o : Expr} {x : Token}, more.tree e = .get o x →
    (more = .nil ∧ e = .get o x) ∨ ∃ (front : Suffixes) (dot : Terminal [.dot]) (name : Terminal [.identifier]),
      more = front.property dot name ∧ name.1 = x ∧ front.tree e = o
  | .nil, _, _, _, h => .inl ⟨rfl, h⟩
  | .call opening closing more, e, o, x, h => by
    rcases more.tree_eq_get h with ⟨-, he⟩ | ⟨front, dot, name, rfl, hx, ho⟩
    · cases he
    · exact .inr ⟨.call opening closing front, dot, name, rfl, hx, ho⟩
  | .callWith opening arguments few closing more, e, o, x, h => by
    rcases more.tree_eq_get h with ⟨-, he⟩ | ⟨front, dot, name, rfl, hx, ho⟩
    · cases he
    · exact .inr ⟨.callWith opening arguments few closing front, dot, name, rfl, hx, ho⟩
  | .get dot name more, e, o, x, h => by
    rcases more.tree_eq_get h with ⟨rfl, he⟩ | ⟨front, dot', name', rfl, hx, ho⟩
    · cases he
      exact .inr ⟨.nil, dot, name, rfl, rfl, rfl⟩
    · exact .inr ⟨.get dot name front, dot', name', rfl, hx, ho⟩

theorem Suffixes.tree_eq_read : ∀ (more : Suffixes) {e : Expr} {id : NodeId} {x : Token}, more.tree e = .read id x →
    more = .nil ∧ e = .read id x
  | .nil, _, _, _, h => ⟨rfl, h⟩
  | .call _ _ more, _, _, _, h => by cases (more.tree_eq_read h).2
  | .callWith _ _ _ _ more, _, _, _, h => by cases (more.tree_eq_read h).2
  | .get _ _ more, _, _, _, h => by cases (more.tree_eq_read h).2

/-- Only a lone name has the tree of a name. -/
theorem Derivation.tokens_of_read {s : Symbol} (d : Derivation s) {id : NodeId} {x : Token} (h : d.tree = .read id x) :
    x.kind = .identifier ∧ d.tokens = [x] := by
  cases d with
  | plain value => exact value.tokens_of_read h
  | sum value => exact value.tokens_of_read h
  | unsigned value => exact value.tokens_of_read h
  | operands first more =>
    obtain ⟨rfl, hfirst⟩ := Operands.tree_eq_read h
    simpa [Derivation.tokens, Operands.tokens] using first.tokens_of_read hfirst
  | suffixed first more =>
    obtain ⟨rfl, hfirst⟩ := more.tree_eq_read h
    simpa [Derivation.tokens, Suffixes.tokens] using first.tokens_of_read hfirst
  | name t =>
    cases h
    exact ⟨List.mem_singleton.mp t.2, rfl⟩
  | _ => cases h

/-- A property that is assigned to ends in its name, and what stands before the dot is a call. -/
theorem Derivation.tokens_of_get {s : Symbol} (d : Derivation s) {o : Expr} {x : Token} (hs : s ≠ .expression)
    (h : d.tree = .get o x) :
    ∃ (object : Derivation .call) (dot : Terminal [.dot]) (name : Terminal [.identifier]),
      d.tokens = object.tokens ++ [dot.1, name.1] ∧ name.1 = x ∧ object.tree = o := by
  cases d with
  | plain value => exact absurd rfl hs
  | sum value => exact value.tokens_of_get (by simp) h
  | unsigned value => exact value.tokens_of_get (by simp) h
  | @operands l first more =>
    obtain ⟨rfl, hfirst⟩ := Operands.tree_eq_get h
    simpa [Derivation.tokens, Operands.tokens] using first.tokens_of_get (by cases l <;> simp [Level.operand]) hfirst
  | suffixed first more =>
    rcases more.tree_eq_get h with ⟨-, he⟩ | ⟨front, dot, name, rfl, hx, ho⟩
    · cases first <;> cases he
    · exact ⟨.suffixed first front, dot, name, (Derivation.suffixed first front).property_tokens dot name, hx, ho⟩
  | _ => cases h

end Targets

namespace Grammar

open Reader Parses

variable {nested operand : Reader Expr}

theorem parses_primary (h : ParsesAs .expression nested) : ParsesAs .primary (primary nested) := by
  refine after_get fun c => ?_
  have hliteral : ∀ {value : Literal}, c.peek.kind.constant? = some value → c.peek.kind ≠ .eof →
      ParsesAt c (do advance; return Expr.literal value) fun taken _ e => Symbol.primary.Derives taken e :=
    fun hv hk => after_advance hk (done fun _ => ⟨.literal c.peek _ hv, rfl, rfl⟩)
  dsimp only
  split
  · rename_i hk
    exact hliteral (by rw [hk]; rfl) (by simp [hk])
  · rename_i hk
    exact hliteral (by rw [hk]; rfl) (by simp [hk])
  · rename_i hk
    exact hliteral (by rw [hk]; rfl) (by simp [hk])
  · rename_i hk
    exact hliteral (by rw [hk]; rfl) (by simp [hk])
  · rename_i hk
    exact hliteral (by rw [hk]; rfl) (by simp [hk])
  · rename_i hk
    refine after_advance (by simp [hk]) (after_fresh fun id => done fun _ => ?_)
    exact ⟨.self ⟨c.peek, by simp [hk]⟩, rfl, rfl⟩
  · rename_i hk
    refine after_advance (by simp [hk]) (after_fresh fun id => done fun _ => ?_)
    exact ⟨.name ⟨c.peek, by simp [hk]⟩, rfl, rfl⟩
  · rename_i hk
    refine after_advance (by simp [hk]) (after_expect fun dot hdot => after_expect fun method hmethod => ?_)
    refine after_fresh fun id => done fun _ => ?_
    exact ⟨.inherited ⟨c.peek, by simp [hk]⟩ ⟨dot, by simp [hdot]⟩ ⟨method, by simp [hmethod]⟩, rfl, rfl⟩
  · rename_i hk
    refine after_advance (by simp [hk]) (h.bind fun taken inner => after_expect fun closing hclosing => ?_)
    refine done fun _ => ?_
    rintro ⟨d, rfl, hd⟩
    exact ⟨.grouping ⟨c.peek, by simp [hk]⟩ d ⟨closing, by simp [hclosing]⟩, rfl, by
      rw [Expr.unnumbered, hd]; rfl⟩
  · exact stops_expected _ c

end Grammar

/-- Items with commas between them. -/
inductive Separated {α : Type} (P : List Token → α → Prop) : List Token → List α → Prop
  | one {taken : List Token} {a : α} : P taken a → Separated P taken [a]
  | cons {taken more : List Token} {a : α} {as : List α} {comma : Token} :
    P taken a → comma.kind = .comma → Separated P more as → Separated P (taken ++ comma :: more) (a :: as)

/-- Arguments that each have a derivation have one together. -/
theorem Separated.arguments {taken : List Token} {es : List Expr} (h : Separated Symbol.expression.Derives taken es) :
    ∃ arguments : Arguments es.length, taken = arguments.tokens ∧ Expr.unnumberedEach es = arguments.trees := by
  induction h with
  | one h =>
    obtain ⟨d, rfl, hd⟩ := h
    exact ⟨.one d, rfl, by rw [Expr.unnumberedEach, hd]; rfl⟩
  | @cons _ _ _ _ comma h hcomma _ ih =>
    obtain ⟨d, rfl, hd⟩ := h
    obtain ⟨arguments, rfl, hes⟩ := ih
    exact ⟨.cons d ⟨comma, by simp [hcomma]⟩ arguments, rfl, by rw [Expr.unnumberedEach, hd, hes]; rfl⟩

namespace Grammar

open Reader Parses

variable {nested operand : Reader Expr}

/-- With an item too many there is a fault. -/
theorem parses_separated {α : Type} {P : List Token → α → Prop} {item : Reader α} (what : String)
    (h : Parses item fun taken _ a => P taken a) (n count : Nat) :
    Parses (separated what item n count) fun taken _ as => Separated P taken as ∧ count + as.length ≤ maxArity := by
  induction n generalizing count with
  | zero => exact stops _
  | succ n ih =>
    have hitem : Parses (itemAndOthers what item n count) fun taken _ as =>
        Separated P taken as ∧ (as.length ≤ 1 ∨ count + as.length ≤ maxArity) := by
      refine h.bind fun taken a => after_accept (fun comma hcomma => ?_) ?_
      · refine (ih (count + 1)).bind fun more as => done fun _ hmore ha => ?_
        refine ⟨by simpa using Separated.cons ha hcomma hmore.1, .inr ?_⟩
        have hcount := hmore.2
        simp only [List.length_cons]
        omega
      · exact done fun _ _ ha => ⟨by simpa using Separated.one ha, .inl le_rfl⟩
    rw [separated_succ]
    split
    · exact after_get fun c => after_report (hitem.weaken fun _ _ _ _ => trivial) c
    · rename_i hcount
      refine hitem.weaken fun taken _ as has => ⟨has.1, ?_⟩
      rcases has.2 with hone | hmany <;> omega

theorem parses_listed {α : Type} {P : List Token → α → Prop} {item : Reader α} (what : String)
    (h : Parses item fun taken _ a => P taken a) (n : Nat) :
    Parses (listed what item n) fun taken _ as =>
      (taken = [] ∧ as = []) ∨ (Separated P taken as ∧ as.length ≤ maxArity) := by
  refine after_check fun b => ?_
  split
  · exact done fun _ => .inl ⟨rfl, rfl⟩
  · exact (parses_separated what h n 0).weaken fun taken _ as has => .inr ⟨has.1, by simpa using has.2⟩

theorem parses_suffixes (h : ParsesAs .expression nested) (n : Nat) (e : Expr) :
    Parses (suffixes nested n e) fun taken _ e' =>
      ∃ more : Suffixes, taken = more.tokens ∧ e'.unnumbered = more.tree e.unnumbered := by
  induction n generalizing e with
  | zero => exact stops _
  | succ n ih =>
    refine after_accept (fun opening hopening => ?_) ?_
    · refine (parses_listed "arguments" h (n + 1)).bind fun taken arguments => after_expect fun closing hclosing => ?_
      refine (ih (.call e closing arguments)).weaken fun rest _ e' hmore harguments => ?_
      obtain ⟨more, rfl, he⟩ := hmore
      rw [Expr.unnumbered] at he
      rcases harguments with ⟨rfl, rfl⟩ | ⟨harguments, hfew⟩
      · exact ⟨.call ⟨opening, by simp [hopening]⟩ ⟨closing, by simp [hclosing]⟩ more, rfl, he⟩
      · obtain ⟨as, rfl, htrees⟩ := harguments.arguments
        rw [htrees] at he
        exact ⟨.callWith ⟨opening, by simp [hopening]⟩ as hfew ⟨closing, by simp [hclosing]⟩ more, rfl, he⟩
    · refine after_accept (fun dot hdot => ?_) ?_
      · refine after_expect fun name hname => (ih (.get e name)).weaken fun rest _ e' hmore _ => ?_
        obtain ⟨more, rfl, he⟩ := hmore
        exact ⟨.get ⟨dot, by simp [hdot]⟩ ⟨name, by simp [hname]⟩ more, rfl, he⟩
      · exact done fun _ _ _ => ⟨.nil, rfl, rfl⟩

theorem parses_call (h : ParsesAs .expression nested) (n : Nat) : ParsesAs .call (call nested n) := by
  refine (parses_primary h).bind fun taken e => (parses_suffixes h n e).weaken ?_
  rintro _ _ e' ⟨more, rfl, he'⟩ ⟨first, rfl, he⟩
  exact ⟨.suffixed first more, rfl, by rw [he', he]; rfl⟩

theorem parses_unary (h : ParsesAs .expression nested) (n : Nat) : ParsesAs .unary (unary nested n) := by
  induction n with
  | zero => exact stops _
  | succ n ih =>
    refine after_acceptIf (fun operator hoperator => ?_) ?_
    · refine ih.bind fun taken e => done fun _ => ?_
      rintro ⟨d, rfl, he⟩
      have hkind : operator.kind ∈ [Kind.bang, Kind.minus] := by
        simpa [isUnary] using hoperator
      exact ⟨.signed ⟨operator, hkind⟩ d, by simp [Derivation.tokens], by rw [Expr.unnumbered, he]; rfl⟩
    · refine (parses_call h (n + 1)).weaken fun taken _ e he _ => ?_
      obtain ⟨d, rfl, he⟩ := he
      exact ⟨.unsigned d, rfl, he⟩

section Levels

variable {l : Level} {isOperator : Kind → Bool} {node : Expr → Token → Expr → Expr}

theorem parses_chain (hkind : ∀ k, isOperator k = true → k ∈ l.operators)
    (hnode : ∀ a t b, (node a t b).unnumbered = l.node a.unnumbered t b.unnumbered) (h : ParsesAs l.operand operand)
    (n : Nat) (left : Expr) :
    Parses (chain isOperator node operand n left) fun taken _ e =>
      ∃ more : Operands l, taken = more.tokens ∧ e.unnumbered = more.tree left.unnumbered := by
  induction n generalizing left with
  | zero => exact stops _
  | succ n ih =>
    refine after_acceptIf (fun operator hoperator => ?_) (done fun _ _ => ⟨.nil, rfl, rfl⟩)
    refine h.bind fun taken right => (ih (node left operator right)).weaken ?_
    rintro _ _ e ⟨more, rfl, he⟩ ⟨d, rfl, hright⟩
    exact ⟨.cons ⟨operator, hkind _ hoperator⟩ d more, rfl, by rw [he, hnode, hright]; rfl⟩

theorem parses_level (hkind : ∀ k, isOperator k = true → k ∈ l.operators)
    (hnode : ∀ a t b, (node a t b).unnumbered = l.node a.unnumbered t b.unnumbered) (h : ParsesAs l.operand operand)
    (n : Nat) : ParsesAs (.level l) (level isOperator node operand n) := by
  refine h.bind fun taken left => (parses_chain hkind hnode h n left).weaken ?_
  rintro _ _ e ⟨more, rfl, he⟩ ⟨first, rfl, hfirst⟩
  exact ⟨.operands first more, rfl, by rw [he, hfirst]; rfl⟩

end Levels

theorem parses_factor (h : ParsesAs .expression nested) (n : Nat) : ParsesAs (.level .product) (factor nested n) :=
  parses_level (l := .product) (fun k hk => by simpa [isFactor, Level.operators, or_comm] using hk)
    (fun a t b => by rw [Expr.unnumbered]; rfl) (parses_unary h n) n

/-- What follows the first operand of a sum: more operands, or a sign written twice if the operand is a name. -/
theorem parses_sums (h : ParsesAs (.level .product) operand) (n : Nat) (left : Expr) :
    Parses (sums operand n left) fun taken _ e =>
      (∃ more : Operands .sum, taken = more.tokens ∧ e.unnumbered = more.tree left.unnumbered) ∨
      ∃ id name first second, left = .read id name ∧ taken = [first, second] ∧ second.kind = first.kind ∧
        first.kind ∈ Level.sum.operators ∧ e.unnumbered = .stepped name first := by
  induction n generalizing left with
  | zero => exact stops _
  | succ n ih =>
    refine after_acceptIf (fun sign hsign => ?_) (done fun _ _ => .inl ⟨.nil, rfl, rfl⟩)
    have hkind : sign.kind ∈ Level.sum.operators := by simpa [isTerm, Level.operators] using hsign
    refine after_get fun c => ?_
    split
    · rename_i hdoubles
      unfold doubles at hdoubles
      split at hdoubles
      · rename_i again rest hrest
        obtain ⟨hagain, -⟩ := Bool.and_eq_true_iff.mp hdoubles
        have hpeek : c.peek = again := by rw [Cursor.peek, hrest]; rfl
        have hkind' := eq_of_beq hagain
        have hne : c.peek.kind ≠ .eof := by
          rw [hpeek, hkind']
          intro he
          simp [he, Level.operators] at hkind
        refine after_advance hne ?_
        unfold step
        split
        · rename_i id name
          refine after_fresh fun id' => done fun _ => .inr ⟨id, name, sign, again, rfl, by rw [hpeek], hkind', hkind, ?_⟩
          simp [Expr.unnumbered, Expr.stepped]
        · exact stops _
      · cases hdoubles
    · refine Parses.bind h (fun taken right => (ih (.binary left sign right)).weaken ?_) c
      rintro rest _ e hmore ⟨d, rfl, hright⟩
      rcases hmore with ⟨more, rfl, he⟩ | ⟨_, _, _, _, hread, -⟩
      · left
        exact ⟨.cons ⟨sign, hkind⟩ d more, rfl, by rw [he, Expr.unnumbered, hright]; rfl⟩
      · cases hread

theorem parses_term (h : ParsesAs .expression nested) (n : Nat) : ParsesAs .term (term nested n) := by
  refine (parses_factor h n).bind fun taken left => (parses_sums (parses_factor h n) n left).weaken ?_
  rintro _ _ e hmore ⟨first, rfl, hfirst⟩
  rcases hmore with ⟨more, rfl, he⟩ | ⟨id, name, sign, again, rfl, rfl, hagain, hkind, he⟩
  · exact ⟨.sum (.operands first more), rfl, by rw [he, hfirst]; rfl⟩
  · obtain ⟨hname, htokens⟩ := first.tokens_of_read hfirst.symm
    rw [htokens]
    have hname : name.kind ∈ [Kind.identifier] := by simp [hname]
    rcases List.mem_cons.mp hkind with hkind | hkind
    · have hfirst : sign.kind ∈ [Kind.minus] := by simp [hkind]
      have hsecond : again.kind ∈ [Kind.minus] := by simp [hagain, hkind]
      exact ⟨.decrement ⟨name, hname⟩ ⟨sign, hfirst⟩ ⟨again, hsecond⟩, rfl, he⟩
    · have hsecond : again.kind ∈ [Kind.plus] := hagain ▸ hkind
      exact ⟨.increment ⟨name, hname⟩ ⟨sign, hkind⟩ ⟨again, hsecond⟩, rfl, he⟩

theorem parses_disjunction (h : ParsesAs .expression nested) (n : Nat) :
    ParsesAs (.level .disjunction) (disjunction nested n) := by
  have hcomparison : ParsesAs (.level .comparison) (comparison nested n) :=
    parses_level (l := .comparison) (fun k hk => by simpa [isComparison, Level.operators, or_assoc] using hk)
      (fun a t b => by rw [Expr.unnumbered]; rfl) (parses_term h n) n
  have hequality : ParsesAs (.level .equality) (equality nested n) :=
    parses_level (l := .equality) (fun k hk => by simpa [isEquality, Level.operators] using hk)
      (fun a t b => by rw [Expr.unnumbered]; rfl) hcomparison n
  have hconjunction : ParsesAs (.level .conjunction) (conjunction nested n) :=
    parses_level (l := .conjunction) (fun k hk => by simpa [Level.operators] using hk)
      (fun a t b => by rw [Expr.unnumbered]; rfl) hequality n
  exact parses_level (l := .disjunction) (fun k hk => by simpa [Level.operators] using hk)
    (fun a t b => by rw [Expr.unnumbered]; rfl) hconjunction n

/-- The left side that was read is a target, or there is a fault. -/
theorem parses_assignTo (target : Expr) (equals : Terminal [.equal]) (value : Expr) :
    Parses (assignTo target equals.1 value) fun taken _ e =>
      ∀ (left : Derivation (.level .disjunction)) (right : Derivation .expression),
        target.unnumbered = left.tree → value.unnumbered = right.tree →
          Symbol.expression.Derives (left.tokens ++ equals.1 :: (right.tokens ++ taken)) e := by
  unfold assignTo
  split
  · rename_i id name
    refine after_fresh fun id' => done fun _ left right htarget hvalue => ?_
    obtain ⟨hname, htokens⟩ := left.tokens_of_read htarget.symm
    refine ⟨.assign ⟨name, by simp [hname]⟩ equals right, ?_, ?_⟩
    · rw [htokens, List.append_nil]
      rfl
    · rw [Expr.unnumbered, hvalue]
      rfl
  · rename_i o x
    refine done fun _ left right htarget hvalue => ?_
    rw [Expr.unnumbered] at htarget
    obtain ⟨object, dot, name, htokens, rfl, ho⟩ := left.tokens_of_get (by simp) htarget.symm
    refine ⟨.set object dot name equals right, ?_, ?_⟩
    · simp [htokens, Derivation.tokens]
    · rw [Expr.unnumbered, hvalue, ← ho]
      rfl
  · exact after_report (done fun _ => trivial)

theorem parses_assignment (h : ParsesAs .expression nested) (n : Nat) : ParsesAs .expression (assignment nested n) := by
  refine (parses_disjunction h n).bind fun taken target => after_accept (fun equals hequals => ?_) ?_
  · refine h.bind fun taken' value => (parses_assignTo target ⟨equals, by simp [hequals]⟩ value).weaken ?_
    rintro more _ e he ⟨right, rfl, hvalue⟩ ⟨left, rfl, htarget⟩
    exact he left right htarget hvalue
  · refine done fun _ _ htarget => ?_
    obtain ⟨d, rfl, hd⟩ := htarget
    exact ⟨.plain d, by simp [Derivation.tokens], hd⟩

theorem parses_expression (n : Nat) : ParsesAs .expression (expression n) := by
  induction n with
  | zero => exact stops _
  | succ n ih => exact parses_assignment ih (n + 1)

end Grammar

end LoxLang
