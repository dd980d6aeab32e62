import LoxLang.Proofs.Derivation.Terminators

/-! Whatever has a derivation as a program is read as the tree of the derivation, if all its semicolons are there or each
terminator is clear of what stands behind it. -/

namespace LoxLang

/-- A statement that hangs does not stand in front of an `else`. -/
def NoElse (hangs : Bool) (tail : List Token) : Prop := hangs = true → ∀ t ∈ tail.head?, t.kind ≠ .kwElse

/-- From each cursor with fewer tokens ahead than the bound, every statement that ends there is read as its tree. -/
def TakesStatements (lenient : Bool) (inner : Reader Stmt) (bound : Nat) : Prop :=
  ∀ {hangs : Bool} (d : StatementDerivation lenient hangs) (c : Cursor) (tail : List Token), c.rest = d.tokens ++ tail →
    (d.tokens ++ tail).length < bound → NoElse hangs tail → (lenient = true → d.Clear tail) →
      Takes inner c tail fun s => s.unnumbered = d.tree

def TakesDeclarations (lenient : Bool) (nested : Reader (Option Stmt)) (bound : Nat) : Prop :=
  ∀ (d : DeclarationDerivation lenient) (c : Cursor) (tail : List Token), c.rest = d.tokens ++ tail →
    (d.tokens ++ tail).length < bound → (∀ t ∈ tail.head?, t.kind ≠ .kwElse) → (lenient = true → d.Clear tail) →
      Takes nested c tail fun o => ∃ s, o = some s ∧ s.unnumbered = d.tree

section Heads

/-- The kinds that can begin a statement. -/
def Kind.opensStatement (k : Kind) : Bool :=
  Grammar.startsOperand k || k ∈ [.kwFor, .kwIf, .kwWhile, .kwReturn, .leftBrace, .kwPrint]

def Kind.opensDeclaration (k : Kind) : Bool := k.opensStatement || k ∈ [.kwClass, .kwFunction, .kwVar]

theorem StatementDerivation.head {lenient hangs : Bool} (d : StatementDerivation lenient hangs) :
    ∃ t rest, d.tokens = t :: rest ∧ t.kind.opensStatement = true := by
  cases d with
  | expression e ending =>
    obtain ⟨t, rest, ht, hstart, -⟩ := e.head
    exact ⟨t, _, by rw [tokens, ht, List.cons_append], by simp [Kind.opensStatement, hstart]⟩
  | print keyword | ret keyword | block keyword | branch keyword | branchElse keyword | loop keyword
  | counting keyword =>
    exact ⟨keyword.1, _, rfl, by rw [List.mem_singleton.mp keyword.2]; rfl⟩

theorem DeclarationDerivation.head {lenient : Bool} (d : DeclarationDerivation lenient) :
    ∃ t rest, d.tokens = t :: rest ∧ t.kind.opensDeclaration = true := by
  cases d with
  | classDecl keyword | function keyword =>
    exact ⟨keyword.1, _, rfl, by rw [List.mem_singleton.mp keyword.2]; rfl⟩
  | var v => exact ⟨v.keyword.1, _, rfl, by rw [List.mem_singleton.mp v.keyword.2]; rfl⟩
  | statement s =>
    obtain ⟨t, rest, ht, hopens⟩ := s.head
    exact ⟨t, rest, ht, by rw [Kind.opensDeclaration, hopens, Bool.true_or]⟩

/-- No declaration begins with an `else`. -/
theorem DeclarationsDerivation.head_ne_else {lenient : Bool} (d : DeclarationsDerivation lenient) {tail : List Token}
    (htail : ∀ t ∈ tail.head?, t.kind ≠ .kwElse) : ∀ t ∈ (d.tokens ++ tail).head?, t.kind ≠ .kwElse := by
  cases d with
  | nil => exact htail
  | cons first more =>
    obtain ⟨t, rest, ht, hopens⟩ := first.head
    rw [tokens, ht]
    rintro u ⟨⟩ hk
    rw [hk] at hopens
    cases hopens

end Heads

namespace Takes

variable {α : Type} {Q : α → Prop} {c : Cursor} {between ahead : List Token}

theorem after_terminator {lenient : Bool} {what : String} {next : Unit → Reader α} (d : Terminator lenient)
    (hclear : lenient = true → d.Clear between) (hr : c.rest = d.tokens ++ between)
    (h : Takes (next ()) { c with rest := between } ahead Q) :
    Takes (Grammar.terminator lenient what >>= next) c ahead Q := by
  unfold Grammar.terminator
  rw [bind_assoc]
  cases d with
  | written t =>
    refine after_accepting hr (List.mem_singleton.mp t.2) ?_
    rw [pure_bind]
    exact h
  | missing hlenient =>
    obtain rfl : c.rest = between := hr
    refine after_missing (hclear hlenient).2 ?_
    rw [if_pos hlenient, pure_bind]
    exact h

/-- At the end nothing is found. -/
theorem after_check_nil {kind : Kind} {next : Bool → Reader α} (hr : c.rest = []) (h : Takes (next false) c ahead Q) :
    Takes (Reader.check kind >>= next) c ahead Q := by
  have hcheck : (c.rest.head?.any fun t => t.kind == kind) = false := by rw [hr]; rfl
  rw [← hcheck] at h
  exact h

theorem after_expression {n : Nat} {next : Expr → Reader α} (d : Derivation .expression)
    (hr : c.rest = d.tokens ++ between) (hlen : c.rest.length < n) (hend : Symbol.expression.EndsBefore between)
    (h : ∀ e i, e.unnumbered = d.tree → Takes (next e) { c with rest := between, nextId := i } ahead Q) :
    Takes (Grammar.expression n >>= next) c ahead Q :=
  (Grammar.takes_expression n d c between hr (hr ▸ hlen) hend).bind h

/-- Without a fault the declaration is there. -/
theorem after_recovering {reader : Reader Stmt} {P : Stmt → Prop} (h : Takes reader c ahead P) :
    Takes (Grammar.recovering reader) c ahead fun o => ∃ s, o = some s ∧ P s := by
  obtain ⟨s, i, e, hP⟩ := h
  refine ⟨some s, i, ?_, s, rfl, hP⟩
  unfold Grammar.recovering
  simp only [e]

/-- An expression in parentheses. -/
theorem after_condition {n : Nat} {what what' : String} {next : Expr → Reader α} {opening : Terminal [.leftParen]}
    (d : Derivation .expression) {closing : Terminal [.rightParen]}
    (hr : c.rest = opening.1 :: (d.tokens ++ closing.1 :: between)) (hlen : c.rest.length ≤ n)
    (h : ∀ e i, e.unnumbered = d.tree → Takes (next e) { c with rest := between, nextId := i } ahead Q) :
    Takes (do
      let _ ← Reader.expect .leftParen what
      let e ← Grammar.expression n
      let _ ← Reader.expect .rightParen what'
      next e) c ahead Q := by
  rw [hr, List.length_cons] at hlen
  refine after_expect hr (List.mem_singleton.mp opening.2) ?_
  refine after_expression d rfl (Nat.lt_of_succ_le hlen) (.delimiter (by decide) closing) fun e i he => ?_
  exact after_expect rfl (List.mem_singleton.mp closing.2) (h e i he)

end Takes

theorem Terminator.ends {lenient : Bool} (d : Terminator lenient) {tail : List Token}
    (hclear : lenient = true → d.Clear tail) : Symbol.expression.EndsBefore (d.tokens ++ tail) := by
  cases d with
  | written t => exact .delimiter (by decide) t
  | missing hlenient => exact (hclear hlenient).1

theorem NameList.head {n : Nat} (names : NameList n) : ∃ t rest, names.tokens = t :: rest ∧ t.kind = .identifier := by
  cases names with
  | one t | cons t => exact ⟨t.1, _, rfl, List.mem_singleton.mp t.2⟩

namespace Grammar

open Reader Takes

variable {lenient : Bool} {n b : Nat} {c : Cursor} {tail : List Token}

section Simple

theorem takes_varDeclaration (v : VariableDerivation lenient)
    (hrest : c.rest = v.name.1 :: (v.initial.tokens ++ (v.ending.tokens ++ tail))) (hlen : c.rest.length < n)
    (hclear : lenient = true → v.ending.Clear tail) :
    Takes (varDeclaration lenient n) c tail fun s => s.unnumbered = v.tree ∧ ∃ e, s = .var v.name.1 e := by
  obtain ⟨keyword, name, initial, ending⟩ := v
  dsimp only at hrest hclear
  have hlen := hrest ▸ hlen
  have hends := ending.ends hclear
  cases initial with
  | none =>
    refine after_expect hrest (List.mem_singleton.mp name.2) ?_
    refine after_missing (hends.kind_ne (by decide)) ?_
    exact after_terminator ending hclear rfl (done rfl ⟨rfl, none, rfl⟩)
  | some equals value =>
    rw [InitialValue.tokens, List.cons_append] at hrest hlen
    rw [List.length_cons, List.length_cons] at hlen
    refine after_expect hrest (List.mem_singleton.mp name.2) (after_accepting rfl (List.mem_singleton.mp equals.2) ?_)
    refine after_expression value rfl (by dsimp only; omega) hends fun e i he => ?_
    refine after_terminator ending hclear rfl (done rfl ⟨?_, e, rfl⟩)
    rw [Stmt.unnumbered, Expr.unnumberedOption, he]
    rfl

theorem takes_expressionStatement (e : Derivation .expression) (ending : Terminator lenient)
    (hrest : c.rest = e.tokens ++ (ending.tokens ++ tail)) (hlen : c.rest.length < n)
    (hclear : lenient = true → ending.Clear tail) :
    Takes (expressionStatement lenient n) c tail fun s =>
      s.unnumbered = .expression e.tree ∧ ∃ e', s = .expression e' := by
  refine after_expression e hrest hlen (ending.ends hclear) fun e' i he => ?_
  refine after_terminator ending hclear rfl (done rfl ⟨?_, e', rfl⟩)
  rw [Stmt.unnumbered, he]

theorem takes_printStatement (e : Derivation .expression) (ending : Terminator lenient)
    (hrest : c.rest = e.tokens ++ (ending.tokens ++ tail)) (hlen : c.rest.length < n)
    (hclear : lenient = true → ending.Clear tail) :
    Takes (printStatement lenient n) c tail fun s => s.unnumbered = .print e.tree := by
  refine after_expression e hrest hlen (ending.ends hclear) fun e' i he => ?_
  refine after_terminator ending hclear rfl (done rfl ?_)
  rw [Stmt.unnumbered, he]

theorem takes_returnStatement (keyword : Token) (value : Option (Derivation .expression)) (ending : Terminator lenient)
    (hrest : c.rest = Derivation.tokensOption value ++ (ending.tokens ++ tail)) (hlen : c.rest.length < n)
    (hclear : lenient = true → ending.Clear tail ∧ (value = none → ending.tokens = [] → tail = [])) :
    Takes (returnStatement lenient keyword n) c tail fun s =>
      s.unnumbered = .ret keyword (Derivation.treeOption value) := by
  have hclear' := fun hlenient => (hclear hlenient).1
  cases value with
  | none =>
    cases ending with
    | written t =>
      refine after_found hrest (List.mem_singleton.mp t.2) (after_atEnd ?_)
      exact after_terminator (.written t) hclear' hrest (done rfl rfl)
    | missing hlenient =>
      obtain rfl : tail = [] := (hclear hlenient).2 rfl rfl
      have hrest : c.rest = [] := hrest
      have hbare : (false || (lenient && c.rest.isEmpty)) = true := by rw [hrest, hlenient]; rfl
      refine after_check_nil hrest (after_atEnd ?_)
      rw [hbare]
      exact after_terminator (.missing hlenient) hclear' hrest (done rfl rfl)
  | some e =>
    obtain ⟨t, rest, ht, hstart, -⟩ := e.head
    have hfirst : c.rest = t :: (rest ++ (ending.tokens ++ tail)) := by
      rw [hrest, Derivation.tokensOption, ht, List.cons_append]
    have hkind : t.kind ≠ .semicolon := fun hk => by
      rw [hk] at hstart
      cases hstart
    have hmore : c.rest.isEmpty = false := by rw [hfirst]; rfl
    refine after_other hfirst hkind (after_atEnd ?_)
    rw [hmore, Bool.and_false]
    refine after_expression e hrest hlen (ending.ends hclear') fun e' i he => ?_
    refine after_terminator ending hclear' rfl (done rfl ?_)
    rw [Stmt.unnumbered, Expr.unnumberedOption, he]
    rfl

/-- A clause in front of the token that closes it. -/
theorem takes_clause {k : Kind} (hk : 8 < k.reach) (d : Option (Derivation .expression)) (closing : Terminal [k])
    (hrest : c.rest = Derivation.tokensOption d ++ closing.1 :: tail) (hlen : c.rest.length < n) :
    Takes (clause k n) c (closing.1 :: tail) fun e => Expr.unnumberedOption e = Derivation.treeOption d := by
  cases d with
  | none => exact after_found hrest (List.mem_singleton.mp closing.2) (done hrest rfl)
  | some e =>
    obtain ⟨t, rest, ht, hstart, -⟩ := e.head
    have hfirst : c.rest = t :: (rest ++ closing.1 :: tail) := by
      rw [hrest, Derivation.tokensOption, ht, List.cons_append]
    have hkind : t.kind ≠ k := fun hk' => absurd (Kind.reach_of_startsOperand hstart) (by rw [hk']; omega)
    refine after_other hfirst hkind ?_
    refine after_expression e hrest hlen (.delimiter hk closing) fun e' i he => done rfl ?_
    rw [Expr.unnumberedOption, he]
    rfl

theorem takes_firstClause (d : FirstClause lenient) (hrest : c.rest = d.tokens ++ tail) (hlen : c.rest.length < n)
    (hclear : lenient = true → d.Clear tail) :
    Takes (firstClause lenient n) c tail fun initial => ∀ condition increment body id,
      (counting initial condition increment (bodyFor initial id body)).unnumbered =
        d.tree (Expr.unnumberedOption condition) (Expr.unnumberedOption increment) body.unnumbered := by
  cases d with
  | none semicolon =>
    refine after_accepting hrest (List.mem_singleton.mp semicolon.2) (done rfl fun condition increment body id => ?_)
    exact unnumbered_counting none condition increment body
  | var v =>
    have hk := List.mem_singleton.mp v.keyword.2
    have hlen := hrest ▸ hlen
    rw [FirstClause.tokens, VariableDerivation.tokens, List.cons_append, List.cons_append, List.append_assoc] at hrest hlen
    rw [List.length_cons] at hlen
    refine after_missing (by simp [hrest, hk]) (after_accepting hrest hk ?_)
    refine (takes_varDeclaration v rfl (by dsimp only; omega) hclear).bind fun s i hs => done rfl ?_
    obtain ⟨htree, e, rfl⟩ := hs
    intro condition increment body id
    rw [unnumbered_counting, Stmt.unnumberedOption, htree]
    rfl
  | expression e ending =>
    rw [FirstClause.tokens, List.append_assoc] at hrest
    obtain ⟨t, rest, ht, hstart, -⟩ := e.head
    have hfirst : ∀ u ∈ c.rest.head?, startsOperand u.kind = true := by
      rw [hrest, ht]
      rintro u ⟨⟩
      exact hstart
    have hother : ∀ {k : Kind}, startsOperand k = false → ∀ u ∈ c.rest.head?, u.kind ≠ k := by
      rintro _ hk u hu rfl
      rw [hfirst u hu] at hk
      cases hk
    refine after_missing (hother rfl) (after_missing (hother rfl) ?_)
    refine (takes_expressionStatement e ending hrest hlen hclear).bind fun s i hs => done rfl ?_
    obtain ⟨htree, e', rfl⟩ := hs
    intro condition increment body id
    rw [unnumbered_counting, Stmt.unnumberedOption, htree]
    rfl

end Simple

section Nested

variable {inner : Reader Stmt} {nested : Reader (Option Stmt)} {hangs : Bool}

theorem takes_branchStatement (h : TakesStatements lenient inner n) {keyword : Terminal [.kwIf]}
    {opening : Terminal [.leftParen]} {condition : Derivation .expression} {closing : Terminal [.rightParen]}
    (yes : StatementDerivation lenient hangs)
    (hrest : c.rest = opening.1 :: (condition.tokens ++ closing.1 :: (yes.tokens ++ tail))) (hbound : c.rest.length ≤ n)
    (htail : ∀ t ∈ tail.head?, t.kind ≠ .kwElse) (hclear : lenient = true → yes.Clear tail) :
    Takes (branchStatement inner (n + 1)) c tail fun s =>
      s.unnumbered = (StatementDerivation.branch keyword opening condition closing yes).tree := by
  have hlen := hrest ▸ hbound
  rw [List.length_cons, List.length_append, List.length_cons] at hlen
  refine after_condition condition hrest (Nat.le_succ_of_le hbound) fun e i he => ?_
  refine (h yes _ tail rfl (by omega) (fun _ => htail) hclear).bind fun s j hs => after_missing htail (done rfl ?_)
  rw [Stmt.unnumbered, Stmt.unnumberedOption, he, hs]
  rfl

theorem takes_branchElse (h : TakesStatements lenient inner n) {keyword : Terminal [.kwIf]}
    {opening : Terminal [.leftParen]} {condition : Derivation .expression} {closing : Terminal [.rightParen]}
    (yes : StatementDerivation lenient false) {otherwise : Terminal [.kwElse]}
    (no : StatementDerivation lenient hangs)
    (hrest : c.rest =
      opening.1 :: (condition.tokens ++ closing.1 :: (yes.tokens ++ otherwise.1 :: (no.tokens ++ tail))))
    (hbound : c.rest.length ≤ n) (htail : NoElse hangs tail)
    (hclear : lenient = true → yes.Clear (otherwise.1 :: (no.tokens ++ tail)) ∧ no.Clear tail) :
    Takes (branchStatement inner (n + 1)) c tail fun s =>
      s.unnumbered = (StatementDerivation.branchElse keyword opening condition closing yes otherwise no).tree := by
  have hlen := hrest ▸ hbound
  rw [List.length_cons, List.length_append, List.length_cons] at hlen
  refine after_condition condition hrest (Nat.le_succ_of_le hbound) fun e i he => ?_
  refine (h yes _ _ rfl (by omega) nofun fun hl => (hclear hl).1).bind fun s j hs => ?_
  refine after_accepting rfl (List.mem_singleton.mp otherwise.2) ?_
  rw [List.length_append, List.length_cons] at hlen
  refine (h no _ tail rfl (by omega) htail fun hl => (hclear hl).2).bind fun s' j' hs' => done rfl ?_
  rw [Stmt.unnumbered, Stmt.unnumberedOption, he, hs, hs']
  rfl

theorem takes_loopStatement (h : TakesStatements lenient inner n) {keyword : Terminal [.kwWhile]}
    {opening : Terminal [.leftParen]} {condition : Derivation .expression} {closing : Terminal [.rightParen]}
    (body : StatementDerivation lenient hangs)
    (hrest : c.rest = opening.1 :: (condition.tokens ++ closing.1 :: (body.tokens ++ tail))) (hbound : c.rest.length ≤ n)
    (htail : NoElse hangs tail) (hclear : lenient = true → body.Clear tail) :
    Takes (loopStatement inner (n + 1)) c tail fun s =>
      s.unnumbered = (StatementDerivation.loop keyword opening condition closing body).tree := by
  have hlen := hrest ▸ hbound
  rw [List.length_cons, List.length_append, List.length_cons] at hlen
  refine after_condition condition hrest (Nat.le_succ_of_le hbound) fun e i he => ?_
  refine (h body _ tail rfl (by omega) htail hclear).bind fun s j hs => done rfl ?_
  rw [Stmt.unnumbered, he, hs]
  rfl

theorem takes_countingStatement (h : TakesStatements lenient inner n) {keyword : Terminal [.kwFor]}
    {opening : Terminal [.leftParen]} {first : FirstClause lenient} {condition : Option (Derivation .expression)}
    {semicolon : Terminal [.semicolon]} {increment : Option (Derivation .expression)} {closing : Terminal [.rightParen]}
    (body : StatementDerivation lenient hangs)
    (hrest : c.rest = opening.1 :: (first.tokens ++ (Derivation.tokensOption condition ++
      semicolon.1 :: (Derivation.tokensOption increment ++ closing.1 :: (body.tokens ++ tail)))))
    (hlen : c.rest.length ≤ n) (htail : NoElse hangs tail) (hclear : lenient = true →
      (StatementDerivation.counting keyword opening first condition semicolon increment closing body).Clear tail) :
    Takes (countingStatement lenient inner (n + 1)) c tail fun s => s.unnumbered =
      (StatementDerivation.counting keyword opening first condition semicolon increment closing body).tree := by
  have hlen := hrest ▸ hlen
  rw [List.length_cons] at hlen
  refine after_expect hrest (List.mem_singleton.mp opening.2) ?_
  refine (takes_firstClause first rfl (by dsimp only; omega) fun hl => (hclear hl).1).bind fun initial i₁ hinitial => ?_
  rw [List.length_append] at hlen
  refine (takes_clause (by decide) condition semicolon rfl (by dsimp only; omega)).bind fun condition' i₂ hcondition => ?_
  refine after_expect rfl (List.mem_singleton.mp semicolon.2) ?_
  rw [List.length_append, List.length_cons] at hlen
  refine (takes_clause (by decide) increment closing rfl (by dsimp only; omega)).bind fun increment' i₃ hincrement => ?_
  refine after_expect rfl (List.mem_singleton.mp closing.2) ?_
  rw [List.length_append, List.length_cons] at hlen
  refine (h body _ tail rfl (by omega) htail fun hl => (hclear hl).2).bind fun s i₄ hs => ?_
  have htree : ∀ id, (counting initial condition' increment' (bodyFor initial id s)).unnumbered =
      (StatementDerivation.counting keyword opening first condition semicolon increment closing body).tree := by
    intro id
    rw [hinitial, hcondition, hincrement, hs]
    rfl
  cases initial with
  | none => exact done rfl (htree 0)
  | some s =>
    cases s with
    | var name e => exact ⟨_, _, rfl, htree _⟩
    | _ => exact done rfl (htree 0)

theorem takes_declarations {closes : Kind → Bool} (h : TakesDeclarations lenient nested b)
    (hcloses : ∀ k : Kind, k.opensDeclaration = true → closes k = false) (d : DeclarationsDerivation lenient) :
    ∀ {m : Nat} {c : Cursor}, c.rest = d.tokens ++ tail → (d.tokens ++ tail).length < m → (d.tokens ++ tail).length < b →
      (∀ t ∈ tail.head?, closes t.kind = true ∧ t.kind ≠ .kwElse) → (lenient = true → d.Clear tail) →
        Takes (declarations closes nested m) c tail fun ss => Stmt.unnumberedEach ss = d.trees := by
  intro m c hrest hm hb htail hclear
  obtain _ | m := m
  · omega
  refine after_get ?_
  cases d with
  | nil =>
    rw [DeclarationsDerivation.tokens, List.nil_append] at hrest
    rw [hrest]
    cases tail with
    | nil => exact done hrest rfl
    | cons t tail =>
      dsimp only
      rw [if_pos (htail t rfl).1]
      exact done hrest rfl
  | cons first more =>
    rw [DeclarationsDerivation.tokens, List.append_assoc] at hrest hm hb
    obtain ⟨t, rest, ht, hopens⟩ := first.head
    have hfirst : c.rest = t :: (rest ++ (more.tokens ++ tail)) := by rw [hrest, ht, List.cons_append]
    have hfollow := more.head_ne_else fun u hu => (htail u hu).2
    rw [hfirst]
    dsimp only
    rw [if_neg (by simp [hcloses _ hopens])]
    refine (h first c _ hrest hb hfollow fun hl => (hclear hl).1).bind fun o i ho => ?_
    obtain ⟨s, rfl, hs⟩ := ho
    rw [ht, List.cons_append, List.length_cons, List.length_append] at hm hb
    have hmore := fun hl => (hclear hl).2
    refine (takes_declarations h hcloses more rfl (by omega) (by omega) htail hmore).bind fun ss j hss => done rfl ?_
    rw [Option.toList_some, List.singleton_append, Stmt.unnumberedEach, hs, hss]
    rfl

theorem takes_block (h : TakesDeclarations lenient nested b) (d : DeclarationsDerivation lenient)
    (closing : Terminal [.rightBrace]) (hrest : c.rest = d.tokens ++ closing.1 :: tail) (hn : c.rest.length < n)
    (hb : c.rest.length < b) (hclear : lenient = true → d.Clear (closing.1 :: tail)) :
    Takes (block nested n) c tail fun ss => Stmt.unnumberedEach ss = d.trees := by
  have hclosing := List.mem_singleton.mp closing.2
  refine (takes_declarations h ?_ d hrest (hrest ▸ hn) (hrest ▸ hb) ?_ hclear).bind fun ss i hss => ?_
  · intro k hk
    refine beq_eq_false_iff_ne.mpr fun he => ?_
    rw [he] at hk
    cases hk
  · rintro t ⟨⟩
    exact ⟨by rw [hclosing]; rfl, by simp [hclosing]⟩
  · exact after_expect rfl hclosing (done rfl hss)

theorem takes_names {what : String} {count : Nat} (names : NameList count) :
    ∀ {m read : Nat} {c : Cursor} {closing : Token}, c.rest = names.tokens ++ closing :: tail →
      (names.tokens ++ closing :: tail).length < m → read + count ≤ maxArity → closing.kind = .rightParen →
        Takes (separated what (expect .identifier "parameter name") m read) c (closing :: tail) (· = names.names) := by
  intro m read c closing hrest hm hcount hclosing
  obtain _ | m := m
  · omega
  rw [separated]
  cases names with
  | one t =>
    rw [if_neg (by omega)]
    refine after_expect hrest (List.mem_singleton.mp t.2) (after_missing (by simp [hclosing]) (done rfl rfl))
  | cons t comma more =>
    rw [if_neg (by omega)]
    rw [NameList.tokens, List.cons_append, List.cons_append] at hrest hm
    rw [List.length_cons, List.length_cons] at hm
    refine after_expect hrest (List.mem_singleton.mp t.2) (after_accepting rfl (List.mem_singleton.mp comma.2) ?_)
    refine (takes_names more rfl (by omega) (by omega) hclosing).bind fun names i hnames => done rfl ?_
    rw [hnames]
    rfl

theorem takes_parameters (p : Parameters) (closing : Terminal [.rightParen])
    (hrest : c.rest = p.tokens ++ closing.1 :: tail) (hlen : c.rest.length < n) :
    Takes (listed "parameters" (expect .identifier "parameter name") n) c (closing.1 :: tail) (· = p.names) := by
  have hclosing := List.mem_singleton.mp closing.2
  cases p with
  | none => exact after_found hrest hclosing (done hrest rfl)
  | some names few =>
    obtain ⟨t, rest, ht, hk⟩ := names.head
    rw [Parameters.tokens] at hrest
    have hfirst : c.rest = t :: (rest ++ closing.1 :: tail) := by rw [hrest, ht, List.cons_append]
    refine after_other hfirst (by simp [hk]) ?_
    exact takes_names names hrest (hrest ▸ hlen) (by simpa [maxArity] using few) hclosing

theorem takes_function (what : String) (h : TakesDeclarations lenient nested b) (d : FunctionDerivation lenient)
    (hrest : c.rest = d.tokens ++ tail) (hn : c.rest.length < n) (hb : c.rest.length < b)
    (hclear : lenient = true → d.Clear tail) :
    Takes (function what nested n) c tail fun f => f.unnumbered = d.tree := by
  cases d with
  | mk name opening parameters closing openingBrace body closingBrace =>
    rw [FunctionDerivation.tokens] at hrest
    simp only [List.cons_append, List.append_assoc, List.nil_append] at hrest
    have hn := hrest ▸ hn
    have hb := hrest ▸ hb
    rw [List.length_cons, List.length_cons] at hn hb
    refine after_expect hrest (List.mem_singleton.mp name.2) ?_
    refine after_expect rfl (List.mem_singleton.mp opening.2) ?_
    refine (takes_parameters parameters closing rfl (by dsimp only; omega)).bind fun names i hnames => ?_
    rw [List.length_append, List.length_cons, List.length_cons] at hn hb
    refine after_expect rfl (List.mem_singleton.mp closing.2) ?_
    refine after_expect rfl (List.mem_singleton.mp openingBrace.2) ?_
    refine (takes_block h body closingBrace rfl (by dsimp only; omega) (by dsimp only; omega) hclear).bind
      fun ss j hss => done rfl ?_
    rw [Function.unnumbered, hss, hnames]
    rfl

theorem takes_methods (h : TakesDeclarations lenient nested b) (d : MethodsDerivation lenient) {closing : Token}
    (hclosing : closing.kind = .rightBrace) :
    ∀ {m : Nat} {c : Cursor}, c.rest = d.tokens ++ closing :: tail → c.rest.length < m → c.rest.length < b →
      (lenient = true → d.Clear (closing :: tail)) →
        Takes (methods nested m) c (closing :: tail) fun fs => Function.unnumberedEach fs = d.trees := by
  intro m c hrest hm hb hclear
  obtain _ | m := m
  · omega
  refine after_get ?_
  cases d with
  | nil =>
    rw [MethodsDerivation.tokens, List.nil_append] at hrest
    rw [hrest]
    dsimp only
    rw [if_pos (by rw [hclosing]; rfl)]
    exact done hrest rfl
  | cons first more =>
    rw [MethodsDerivation.tokens, List.append_assoc] at hrest
    obtain ⟨t, rest, ht, hk⟩ : ∃ t rest, first.tokens = t :: rest ∧ t.kind = .identifier := by
      cases first with
      | mk name => exact ⟨name.1, _, rfl, List.mem_singleton.mp name.2⟩
    have hfirst : c.rest = t :: (rest ++ (more.tokens ++ closing :: tail)) := by rw [hrest, ht, List.cons_append]
    have hlen := congrArg List.length hfirst
    rw [List.length_cons, List.length_append] at hlen
    rw [hfirst]
    dsimp only
    rw [if_neg (by simp [hk])]
    refine (takes_function "method" h first hrest hm hb fun hl => (hclear hl).1).bind fun f i hf => ?_
    have hmore := fun hl => (hclear hl).2
    refine (takes_methods h more hclosing rfl (by dsimp only; omega) (by dsimp only; omega) hmore).bind fun fs j hfs => ?_
    refine done rfl ?_
    rw [Function.unnumberedEach, hf, hfs]
    rfl

theorem takes_classDeclaration (h : TakesDeclarations lenient nested b) {keyword : Terminal [.kwClass]}
    {name : Terminal [.identifier]} (superclass : SuperclassClause) {opening : Terminal [.leftBrace]}
    (methods : MethodsDerivation lenient) {closing : Terminal [.rightBrace]}
    (hrest : c.rest = name.1 :: (superclass.tokens ++ opening.1 :: (methods.tokens ++ closing.1 :: tail)))
    (hn : c.rest.length < n) (hb : c.rest.length < b) (hclear : lenient = true → methods.Clear (closing.1 :: tail)) :
    Takes (classDeclaration nested n) c tail fun s =>
      s.unnumbered = (DeclarationDerivation.classDecl keyword name superclass opening methods closing).tree := by
  have hn := hrest ▸ hn
  have hb := hrest ▸ hb
  rw [List.length_cons, List.length_append, List.length_cons] at hn hb
  have hbody : ∀ (u : Option NameUse) (i : NodeId), u.map NameUse.unnumbered = superclass.tree → Takes (do
      let _ ← expect .leftBrace "'\x7b' before class body"
      let declared ← Grammar.methods nested n
      let _ ← expect .rightBrace "'\x7d' after class body"
      return Stmt.classDecl name.1 u declared)
      { c with rest := opening.1 :: (methods.tokens ++ closing.1 :: tail), nextId := i } tail fun s =>
        s.unnumbered = (DeclarationDerivation.classDecl keyword name superclass opening methods closing).tree := by
    intro u i hu
    have hclosing := List.mem_singleton.mp closing.2
    refine after_expect rfl (List.mem_singleton.mp opening.2) ?_
    refine (takes_methods h methods hclosing rfl (by dsimp only; omega) (by dsimp only; omega) hclear).bind
      fun fs j hfs => after_expect rfl hclosing (done rfl ?_)
    rw [Stmt.unnumbered, hu, hfs]
    rfl
  refine after_expect hrest (List.mem_singleton.mp name.2) ?_
  cases superclass with
  | none =>
    refine after_missing ?_ (hbody none _ rfl)
    rintro t ⟨⟩
    simp [List.mem_singleton.mp opening.2]
  | some less superclass =>
    refine after_accepting rfl (List.mem_singleton.mp less.2) ?_
    exact after_expect rfl (List.mem_singleton.mp superclass.2) (after_fresh (hbody _ _ rfl))

end Nested

section Statements

variable {inner : Reader Stmt} {nested : Reader (Option Stmt)}

theorem takes_statementWith (hinner : TakesStatements lenient inner n) (hnested : TakesDeclarations lenient nested n) :
    TakesStatements lenient (statementWith lenient inner nested (n + 1)) (n + 1) := by
  intro hangs d c tail hrest hlen htail hclear
  refine after_get ?_
  dsimp only
  cases d with
  | expression e ending =>
    rw [StatementDerivation.tokens, List.append_assoc] at hrest hlen
    obtain ⟨t, rest, ht, hstart, -⟩ := e.head
    have hpeek : c.peek = t := peek_of_rest (hrest.trans (by rw [ht, List.cons_append]))
    rw [hpeek]
    split
    case h_7 =>
      exact (takes_expressionStatement e ending hrest (hrest ▸ hlen) hclear).weaken fun s hs => hs.1
    -- No operand begins with the keyword of a statement.
    all_goals
      rename_i hk
      rw [hk] at hstart
      cases hstart
  | print keyword e ending =>
    rw [StatementDerivation.tokens, List.cons_append, List.append_assoc] at hrest hlen
    rw [peek_of_rest hrest, List.mem_singleton.mp keyword.2]
    exact after_advance hrest (takes_printStatement e ending rfl (Nat.lt_of_succ_lt hlen) hclear)
  | ret keyword value ending =>
    rw [StatementDerivation.tokens, List.cons_append, List.append_assoc] at hrest hlen
    rw [peek_of_rest hrest, List.mem_singleton.mp keyword.2]
    exact after_advance hrest (takes_returnStatement keyword.1 value ending rfl (Nat.lt_of_succ_lt hlen) hclear)
  | block opening body closing =>
    rw [StatementDerivation.tokens, List.cons_append, List.append_assoc, List.singleton_append] at hrest hlen
    rw [peek_of_rest hrest, List.mem_singleton.mp opening.2]
    refine after_advance hrest ((takes_block hnested body closing rfl ?_ ?_ hclear).bind fun ss i hss => done rfl ?_)
    · exact Nat.lt_of_succ_lt hlen
    · exact Nat.lt_of_succ_lt_succ hlen
    · rw [Stmt.unnumbered, hss]
      rfl
  | branch keyword opening condition closing yes =>
    simp only [StatementDerivation.tokens, List.cons_append, List.append_assoc] at hrest hlen
    rw [peek_of_rest hrest, List.mem_singleton.mp keyword.2]
    have hbound := Nat.le_of_succ_le (Nat.le_of_lt_succ hlen)
    exact after_advance hrest (takes_branchStatement hinner yes rfl hbound (htail rfl) hclear)
  | branchElse keyword opening condition closing yes otherwise no =>
    simp only [StatementDerivation.tokens, List.cons_append, List.append_assoc] at hrest hlen
    rw [peek_of_rest hrest, List.mem_singleton.mp keyword.2]
    have hbound := Nat.le_of_succ_le (Nat.le_of_lt_succ hlen)
    exact after_advance hrest (takes_branchElse hinner yes no rfl hbound htail hclear)
  | loop keyword opening condition closing body =>
    simp only [StatementDerivation.tokens, List.cons_append, List.append_assoc] at hrest hlen
    rw [peek_of_rest hrest, List.mem_singleton.mp keyword.2]
    have hbound := Nat.le_of_succ_le (Nat.le_of_lt_succ hlen)
    exact after_advance hrest (takes_loopStatement hinner body rfl hbound htail hclear)
  | counting keyword opening first condition semicolon increment closing body =>
    simp only [StatementDerivation.tokens, List.cons_append, List.append_assoc] at hrest hlen
    rw [peek_of_rest hrest, List.mem_singleton.mp keyword.2]
    have hbound := Nat.le_of_succ_le (Nat.le_of_lt_succ hlen)
    exact after_advance hrest (takes_countingStatement hinner body rfl hbound htail hclear)

theorem takes_declarationWith (hinner : TakesStatements lenient inner n) (hnested : TakesDeclarations lenient nested n) :
    TakesDeclarations lenient (declarationWith lenient inner nested (n + 1)) (n + 1) := by
  intro d c tail hrest hlen htail hclear
  refine after_recovering (after_get ?_)
  cases d with
  | classDecl keyword name superclass opening methods closing =>
    simp only [DeclarationDerivation.tokens, List.cons_append, List.append_assoc, List.nil_append] at hrest hlen
    rw [peek_of_rest hrest, List.mem_singleton.mp keyword.2]
    refine after_advance hrest (takes_classDeclaration hnested superclass methods rfl ?_ ?_ hclear)
    · exact Nat.lt_of_succ_lt hlen
    · exact Nat.lt_of_succ_lt_succ hlen
  | function keyword f =>
    rw [DeclarationDerivation.tokens, List.cons_append] at hrest hlen
    rw [peek_of_rest hrest, List.mem_singleton.mp keyword.2]
    refine after_advance hrest ((takes_function _ hnested f rfl ?_ ?_ hclear).bind fun g i hg => done rfl ?_)
    · exact Nat.lt_of_succ_lt hlen
    · exact Nat.lt_of_succ_lt_succ hlen
    · rw [Stmt.unnumbered, hg]
      rfl
  | var v =>
    simp only [DeclarationDerivation.tokens, VariableDerivation.tokens, List.cons_append, List.append_assoc] at hrest hlen
    rw [peek_of_rest hrest, List.mem_singleton.mp v.keyword.2]
    refine after_advance hrest ((takes_varDeclaration v rfl (Nat.lt_of_succ_lt hlen) hclear).weaken fun s hs => hs.1)
  | statement s =>
    rw [DeclarationDerivation.tokens] at hrest hlen
    obtain ⟨t, rest, ht, hopens⟩ := s.head
    have hpeek : c.peek = t := peek_of_rest (hrest.trans (by rw [ht, List.cons_append]))
    rw [hpeek]
    split
    case h_4 => exact takes_statementWith hinner hnested s c tail hrest hlen (fun _ => htail) hclear
    -- No statement begins with the keyword of a declaration.
    all_goals
      rename_i hk
      rw [hk] at hopens
      cases hopens

theorem takes_statement (n : Nat) :
    TakesStatements lenient (statement lenient n) n ∧ TakesDeclarations lenient (declaration lenient n) n := by
  induction n with
  | zero =>
    refine ⟨?_, ?_⟩
    · intro hangs d c tail _ hlen
      omega
    · intro d c tail _ hlen
      omega
  | succ n ih => exact ⟨takes_statementWith ih.1 ih.2, takes_declarationWith ih.1 ih.2⟩

theorem takes_program_of_clear (d : DeclarationsDerivation lenient) (hrest : c.rest = d.tokens)
    (hlen : d.tokens.length < n) (hclear : lenient = true → d.Clear []) :
    Takes (program lenient n) c [] fun ss => Stmt.unnumberedEach ss = d.trees := by
  rw [← List.append_nil d.tokens] at hrest hlen
  exact takes_declarations (takes_statement n).2 (fun _ _ => rfl) d hrest hlen hlen nofun hclear

/-- With all its semicolons. -/
theorem takes_program (d : DeclarationsDerivation false) (hrest : c.rest = d.tokens) (hlen : d.tokens.length < n) :
    Takes (program false n) c [] fun ss => Stmt.unnumberedEach ss = d.trees :=
  takes_program_of_clear d hrest hlen nofun

end Statements

end Grammar

end LoxLang
