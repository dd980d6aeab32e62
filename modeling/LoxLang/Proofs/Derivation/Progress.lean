import LoxLang.Proofs.Derivation.LoneExpression
import LoxLang.Proofs.Grammar.Sources

/-! No reader exhausts a bound above the number of tokens ahead, for what is read again is read behind a token that was
taken. So a program that is not read has a fault. -/

namespace LoxLang

/-- In front of the same end mark, with at least so many tokens less ahead than at the first cursor, unless at a fault. -/
def Spent {α : Type} (c : Cursor) (k : Nat) : EStateM.Result Stop Cursor α → Prop
  | .ok _ c' => c'.stop = c.stop ∧ c'.rest.length + k ≤ c.rest.length
  | .error (.fault _) c' => c'.stop = c.stop ∧ c'.rest.length ≤ c.rest.length
  | .error .exhausted _ => False

def SpendsAt {α : Type} (c : Cursor) (k : Nat) (reader : Reader α) : Prop := Spent c k (reader c)

/-- Wherever there are less than `n` tokens ahead, the reader takes at least `k` of them, if it stops at no fault, and it
exhausts no bound. -/
def Spends {α : Type} (n k : Nat) (reader : Reader α) : Prop :=
  ∀ c : Cursor, c.stop.kind = .eof → c.rest.length < n → SpendsAt c k reader

theorem Spent.weaken {α : Type} {c : Cursor} {k j : Nat} {r : EStateM.Result Stop Cursor α} (h : Spent c k r)
    (hle : j ≤ k) : Spent c j r := by
  cases r with
  | ok a c' => exact ⟨h.1, (Nat.add_le_add_left hle _).trans h.2⟩
  | error stop c' => cases stop <;> exact h

/-- Tokens taken before count, too. -/
theorem Spent.behind {α : Type} {c c' : Cursor} {k j : Nat} {r : EStateM.Result Stop Cursor α} (h : Spent c' j r)
    (hs : c'.stop = c.stop) (hle : c'.rest.length + k ≤ c.rest.length) : Spent c (k + j) r := by
  cases r with
  | ok a c'' => exact ⟨h.1.trans hs, by have := h.2; omega⟩
  | error stop c'' =>
    cases stop with
    | fault d => exact ⟨h.1.trans hs, by have := h.2; omega⟩
    | exhausted => exact h

namespace Spends

open Reader

variable {α β : Type} {n m k j : Nat} {c : Cursor} {reader : Reader α} {next : α → Reader β}

theorem bind_at (h : SpendsAt c k reader) (hc : c.stop.kind = .eof) (hlt : c.rest.length < n)
    (hn : ∀ a, Spends (n - k) j (next a)) : SpendsAt c (k + j) (reader >>= next) := by
  unfold SpendsAt at h ⊢
  simp only [Bind.bind, EStateM.bind]
  cases e : reader c with
  | ok a c' =>
    rw [e] at h
    exact (hn a c' (h.1 ▸ hc) (by have := h.2; omega)).behind h.1 h.2
  | error stop c' =>
    rw [e] at h
    cases stop <;> exact h

theorem bind (h : Spends n k reader) (hn : ∀ a, Spends (n - k) j (next a)) : Spends n (k + j) (reader >>= next) :=
  fun c hc hlt => bind_at (h c hc hlt) hc hlt hn

theorem weaken (h : Spends n k reader) (hn : m ≤ n) (hk : j ≤ k) : Spends m j reader := fun c hc hlt =>
  Spent.weaken (h c hc (hlt.trans_le hn)) hk

theorem fewer (h : Spends n k reader) (hn : m ≤ n) : Spends m k reader := h.weaken hn le_rfl

theorem none_ahead : Spends 0 k reader := fun _ _ h => absurd h (Nat.not_lt_zero _)

theorem done (a : α) : Spends n 0 (pure a) := fun _ _ _ => ⟨rfl, le_rfl⟩

theorem stops_failAt (t : Token) (cause : SyntaxFault) : Spends n k (failAt t cause : Reader α) :=
  fun _ _ _ => ⟨rfl, le_rfl⟩

theorem stops_expected (what : String) : Spends n k (expected what : Reader α) := fun _ _ _ => ⟨rfl, le_rfl⟩

/-- The token at hand is looked at. -/
theorem after_get {next : Cursor → Reader β}
    (h : ∀ c : Cursor, c.stop.kind = .eof → c.rest.length < n → SpendsAt c k (next c)) :
    Spends n k (get >>= next) := h

/-- Behind a step of which it does not matter how many tokens it takes. -/
theorem after (h : Spends n j reader) (hn : ∀ a, Spends n k (next a)) : Spends n k (reader >>= next) :=
  ((h.weaken le_rfl (Nat.zero_le j)).bind hn).weaken le_rfl (Nat.zero_add k).ge

theorem spends_advance : Spends n 0 advance := fun c _ _ => ⟨rfl, by simp⟩

theorem spends_check (kind : Kind) : Spends n 0 (check kind) := fun _ _ _ => ⟨rfl, le_rfl⟩

theorem spends_atEnd : Spends n 0 atEnd := fun _ _ _ => ⟨rfl, le_rfl⟩

theorem spends_fresh : Spends n 0 fresh := fun _ _ _ => ⟨rfl, le_rfl⟩

theorem spends_report (t : Token) (cause : SyntaxFault) : Spends n 0 (report t cause) := fun _ _ _ => ⟨rfl, le_rfl⟩

/-- If the token is taken, there are fewer ahead of what follows. -/
theorem after_acceptIf {passes : Kind → Bool} {next : Option Token → Reader β}
    (hsome : ∀ t, Spends (n - 1) (k - 1) (next (some t))) (hnone : Spends n k (next none)) :
    Spends n k (acceptIf passes >>= next) := by
  intro c hc hlt
  unfold SpendsAt
  simp only [Bind.bind, EStateM.bind]
  by_cases h : ∀ t ∈ c.rest.head?, passes t.kind = false
  · rw [Parses.acceptIf_of_refuses h]
    exact hnone c hc hlt
  · obtain ⟨t, ht, hp⟩ : ∃ t ∈ c.rest.head?, passes t.kind ≠ false := by simpa using h
    obtain ⟨rest, hrest⟩ := List.head?_eq_some_iff.mp ht
    rw [Parses.acceptIf_of_passes hrest (by simpa using hp)]
    have hlength : rest.length + 1 = c.rest.length := by rw [hrest, List.length_cons]
    have hnext := hsome t { c with rest := rest } hc (by dsimp only; omega)
    have hspent : Spent c (1 + (k - 1)) (next (some t) { c with rest := rest }) := hnext.behind rfl (by dsimp only; omega)
    exact hspent.weaken (by omega)

theorem after_accept {kind : Kind} {next : Option Token → Reader β} (hsome : ∀ t, Spends (n - 1) (k - 1) (next (some t)))
    (hnone : Spends n k (next none)) : Spends n k (accept kind >>= next) := after_acceptIf hsome hnone

theorem spends_expect (kind : Kind) (what : String) : Spends n 1 (expect kind what) :=
  after_accept (fun t => done t) (stops_expected what)

theorem after_expect {kind : Kind} {what : String} {next : Token → Reader β} (h : ∀ t, Spends (n - 1) (k - 1) (next t)) :
    Spends n k (expect kind what >>= next) := ((spends_expect kind what).bind h).weaken le_rfl (by omega)

/-- The token at hand is taken, which is not the end. -/
theorem after_advance {next : Unit → Reader β} (hk : c.peek.kind ≠ .eof) (hc : c.stop.kind = .eof) (hlt : c.rest.length < n)
    (h : Spends (n - 1) (k - 1) (next ())) : SpendsAt c k (advance >>= next) := by
  unfold Cursor.peek at hk
  cases hr : c.rest with
  | nil =>
    rw [hr] at hk
    exact absurd hc hk
  | cons t rest =>
    rw [hr, List.length_cons] at hlt
    have hnext := h { c with rest := c.rest.drop 1 } hc (by simp only [hr, List.drop_succ_cons, List.drop_zero]; omega)
    have hspent : Spent c (1 + (k - 1)) (next () { c with rest := c.rest.drop 1 }) :=
      hnext.behind rfl (by simp only [hr, List.drop_succ_cons, List.drop_zero, List.length_cons]; omega)
    exact hspent.weaken (by omega)

end Spends

open Reader Spends

namespace Grammar

variable {n b : Nat} {nested operand : Reader Expr}

theorem spends_primary (h : Spends n 1 nested) : Spends (n + 1) 1 (primary nested) := by
  refine after_get fun c hc hlt => ?_
  dsimp only
  split
  all_goals rename_i hk
  iterate 5 exact after_advance (by simp [hk]) hc hlt (done _)
  iterate 2 exact after_advance (by simp [hk]) hc hlt (after spends_fresh fun _ => done _)
  · exact after_advance (by simp [hk]) hc hlt (after_expect fun _ => after_expect fun _ => after spends_fresh fun _ => done _)
  · refine after_advance (by simp [hk]) hc hlt (after h fun _ => ?_)
    exact after_expect fun _ => done _
  · exact stops_expected _ c hc hlt

section Lists

variable {α : Type} {item : Reader α} (h : Spends n 1 item) (what : String)

include h

theorem spends_separated (m count : Nat) (hb : b ≤ n) (hm : b ≤ m) : Spends b 1 (separated what item m count) := by
  induction m generalizing b count with
  | zero => exact none_ahead.fewer hm
  | succ m ih =>
    have hitem : Spends b 1 (itemAndOthers what item m count) := by
      refine (h.fewer hb).bind (j := 0) fun a => after_accept (fun t => ?_) ?_
      · exact after (ih (count + 1) (by omega) (by omega)) fun _ => done _
      · exact done _
    rw [separated_succ]
    split
    · exact after_get fun c hc hlt => after (spends_report _ _) (fun _ => hitem) c hc hlt
    · exact hitem

theorem spends_listed {m : Nat} (hb : b ≤ n) (hm : b ≤ m) : Spends b 0 (listed what item m) := by
  refine after (spends_check _) fun stop => ?_
  split
  · exact done _
  · exact (spends_separated h what m 0 hb hm).weaken le_rfl (Nat.zero_le 1)

end Lists

section Operands

variable (h : Spends n 1 nested)

include h

theorem spends_suffixes (m : Nat) (e : Expr) (hb : b ≤ n + 1) (hm : b ≤ m) : Spends b 0 (suffixes nested m e) := by
  induction m generalizing b e with
  | zero => exact none_ahead.fewer hm
  | succ m ih =>
    refine after_accept (fun t => ?_) (after_accept (fun t => ?_) (done _))
    · refine after (spends_listed h "arguments" (by omega) (by omega)) fun arguments => ?_
      exact after_expect fun paren => ih _ (by omega) (by omega)
    · exact after_expect fun name => ih _ (by omega) (by omega)

theorem spends_call {m : Nat} (hb : b ≤ n + 1) (hm : b ≤ m) : Spends b 1 (call nested m) :=
  ((spends_primary h).fewer hb).bind fun e => spends_suffixes h m e (by omega) (by omega)

theorem spends_unary (m : Nat) (hb : b ≤ n + 1) (hm : b ≤ m) : Spends b 1 (unary nested m) := by
  induction m generalizing b with
  | zero => exact none_ahead.fewer hm
  | succ m ih =>
    refine after_acceptIf (fun operator => ?_) (spends_call h hb hm)
    exact after (ih (by omega) (by omega)) fun _ => done _

end Operands

section Levels

variable (h : Spends n 1 operand)

include h

theorem spends_chain (isOperator : Kind → Bool) (node : Expr → Token → Expr → Expr) (m : Nat) (left : Expr) (hb : b ≤ n)
    (hm : b ≤ m) : Spends b 0 (chain isOperator node operand m left) := by
  induction m generalizing b left with
  | zero => exact none_ahead.fewer hm
  | succ m ih =>
    refine after_acceptIf (fun operator => ?_) (done _)
    exact after (h.fewer (by omega)) fun right => ih _ (by omega) (by omega)

theorem spends_level (isOperator : Kind → Bool) (node : Expr → Token → Expr → Expr) {m : Nat} (hm : n ≤ m) :
    Spends n 1 (level isOperator node operand m) :=
  h.bind fun left => spends_chain h isOperator node m left (Nat.sub_le n 1) ((Nat.sub_le n 1).trans hm)

theorem spends_sums (m : Nat) (left : Expr) (hb : b ≤ n) (hm : b ≤ m) : Spends b 0 (sums operand m left) := by
  induction m generalizing b left with
  | zero => exact none_ahead.fewer hm
  | succ m ih =>
    refine after_acceptIf (fun sign => after_get fun c => ?_) (done _)
    have hstep : Spends (b - 1) 0 (step left sign) := by
      unfold step
      split
      · exact after spends_fresh fun _ => done _
      · exact stops_failAt _ _
    split
    · exact after spends_advance (fun _ => hstep) c
    · exact after (h.fewer (by omega)) (fun right => ih _ (by omega) (by omega)) c

end Levels

theorem spends_disjunction (h : Spends n 1 nested) : Spends (n + 1) 1 (disjunction nested (n + 1)) := by
  have hfactor : Spends (n + 1) 1 (factor nested (n + 1)) :=
    spends_level (spends_unary h (n + 1) le_rfl le_rfl) _ _ le_rfl
  have hterm : Spends (n + 1) 1 (term nested (n + 1)) :=
    hfactor.bind fun left => spends_sums hfactor (n + 1) left (Nat.sub_le _ 1) (Nat.sub_le _ 1)
  have hequality := spends_level (spends_level hterm isComparison .binary le_rfl) isEquality .binary le_rfl
  exact spends_level (spends_level hequality (· == .kwAnd) .logical le_rfl) _ _ le_rfl

theorem spends_assignTo (target : Expr) (equals : Token) (value : Expr) : Spends n 0 (assignTo target equals value) := by
  unfold assignTo
  split
  · exact after spends_fresh fun _ => done _
  · exact done _
  · exact after (spends_report _ _) fun _ => done _

theorem spends_expression (n : Nat) : Spends n 1 (expression n) := by
  induction n with
  | zero => exact none_ahead
  | succ n ih =>
    refine (spends_disjunction ih).bind (j := 0) fun target => after_accept (fun equals => ?_) ?_
    · exact after (ih.fewer (by omega)) fun value => spends_assignTo target equals value
    · exact done _

end Grammar

/-- Where there is a token ahead, the reader takes one, and it exhausts no bound. -/
def Advances {α : Type} (n : Nat) (reader : Reader α) : Prop :=
  ∀ c : Cursor, c.stop.kind = .eof → c.rest ≠ [] → c.rest.length < n → SpendsAt c 1 reader

namespace Grammar

variable {n b : Nat} {inner : Reader Stmt} {nested : Reader (Option Stmt)}

theorem length_resume : ∀ rest : List Token, (resume rest).length ≤ rest.length - 1
  | [] => le_rfl
  | t :: rest => by
    have hrest := length_resume rest
    rw [resume, List.length_cons]
    split
    · exact le_rfl
    · split
      · exact le_rfl
      · omega

theorem advances_recovering {reader : Reader Stmt} (h : Spends n 1 reader) : Advances n (recovering reader) := by
  intro c hc hne hlt
  have hr := h c hc hlt
  have hpos : 0 < c.rest.length := List.length_pos_iff.mpr hne
  unfold SpendsAt recovering at *
  cases e : reader c with
  | ok s c' =>
    rw [e] at hr
    exact hr
  | error stop c' =>
    rw [e] at hr
    cases stop with
    | exhausted => exact hr
    | fault d =>
      have hresume := length_resume c'.rest
      exact ⟨hr.1, by have := hr.2; dsimp only; omega⟩

theorem spends_terminator (lenient : Bool) (what : String) : Spends n 0 (terminator lenient what) := by
  refine after_accept (fun _ => done _) ?_
  dsimp only
  split
  · exact done _
  · exact stops_expected _

section Bodies

variable (h : Advances n nested)

include h

theorem spends_declarations (closes : Kind → Bool) (m : Nat) (hb : b ≤ n) (hm : b ≤ m) :
    Spends b 0 (declarations closes nested m) := by
  induction m generalizing b with
  | zero => exact none_ahead.fewer hm
  | succ m ih =>
    refine after_get fun c hc hlt => ?_
    split
    · exact done _ c hc hlt
    · rename_i t rest hrest
      split
      · exact done _ c hc hlt
      · have hfirst := h c hc (by simp [hrest]) (hlt.trans_le hb)
        refine Spent.weaken (bind_at (j := 0) hfirst hc hlt fun first => ?_) (Nat.zero_le _)
        exact after (ih (by omega) (by omega)) fun more => done _

theorem spends_block {m : Nat} (hb : b ≤ n) (hm : b ≤ m) : Spends b 0 (block nested m) :=
  after (spends_declarations h _ m hb hm) fun _ => after_expect fun _ => done _

theorem spends_function (what : String) {m : Nat} (hb : b ≤ n) (hm : b ≤ m) : Spends b 1 (function what nested m) := by
  refine after_expect fun name => after_expect fun _ => ?_
  refine after (spends_listed (spends_expect .identifier "parameter name") "parameters" le_rfl (by omega)) fun ps => ?_
  refine after_expect fun _ => after_expect fun _ => ?_
  exact after (spends_block h (by omega) (by omega)) fun _ => done _

theorem spends_methods (m : Nat) (hb : b ≤ n) (hm : b ≤ m) : Spends b 0 (methods nested m) := by
  induction m generalizing b with
  | zero => exact none_ahead.fewer hm
  | succ m ih =>
    refine after_get fun c hc hlt => ?_
    split
    · exact done _ c hc hlt
    · split
      · exact done _ c hc hlt
      · refine Spent.weaken (bind_at (j := 0) (spends_function h "method" hb hm c hc hlt) hc hlt fun f => ?_) (Nat.zero_le _)
        exact after (ih (by omega) (by omega)) fun fs => done _

theorem spends_classDeclaration {m : Nat} (hb : b ≤ n) (hm : b ≤ m) : Spends b 0 (classDeclaration nested m) := by
  have hbody : ∀ (name : Token) (superclass : Option NameUse) {b : Nat}, b ≤ n → b ≤ m → Spends b 0 (do
      let _ ← expect .leftBrace "'\x7b' before class body"
      let declared ← methods nested m
      let _ ← expect .rightBrace "'\x7d' after class body"
      return Stmt.classDecl name superclass declared) := fun name superclass b hb hm =>
    after_expect fun _ => after (spends_methods h m (by omega) (by omega)) fun _ => after_expect fun _ => done _
  refine after_expect fun name => after_accept (fun _ => ?_) (hbody name none (by omega) (by omega))
  exact after_expect fun superclass => after spends_fresh fun id => hbody name (some ⟨id, superclass⟩) (by omega) (by omega)

end Bodies

theorem spends_varDeclaration (lenient : Bool) {m : Nat} (hm : b ≤ m) : Spends b 0 (varDeclaration lenient m) := by
  have hend : ∀ (name : Token) (initial : Option Expr) {b : Nat}, Spends b 0 (do
      terminator lenient "';' after variable declaration"
      return Stmt.var name initial) := fun _ _ _ => after (spends_terminator _ _) fun _ => done _
  refine after_expect fun name => after_accept (fun _ => ?_) (hend name none)
  exact after ((spends_expression m).fewer (by omega)) fun e => hend name (some e)

theorem spends_expressionStatement (lenient : Bool) {m : Nat} (hm : b ≤ m) :
    Spends b 1 (expressionStatement lenient m) :=
  ((spends_expression m).fewer hm).bind fun _ => after (spends_terminator _ _) fun _ => done _

theorem spends_printStatement (lenient : Bool) {m : Nat} (hm : b ≤ m) : Spends b 0 (printStatement lenient m) :=
  after ((spends_expression m).fewer hm) fun _ => after (spends_terminator _ _) fun _ => done _

theorem spends_returnStatement (lenient : Bool) (keyword : Token) {m : Nat} (hm : b ≤ m) :
    Spends b 0 (returnStatement lenient keyword m) := by
  refine after (spends_check _) fun stop => after spends_atEnd fun last => ?_
  dsimp only
  split
  · exact after (done none) fun _ => after (spends_terminator _ _) fun _ => done _
  · refine after ((spends_expression m).fewer hm) fun e => after (done (some e)) fun _ => ?_
    exact after (spends_terminator _ _) fun _ => done _

section Statements

variable (h : Spends n 1 inner)

include h

theorem spends_branchStatement {m : Nat} (hb : b ≤ n) (hm : b ≤ m) : Spends b 0 (branchStatement inner m) := by
  refine after_expect fun _ => after ((spends_expression m).fewer (by omega)) fun condition => ?_
  refine after_expect fun _ => after (h.fewer (by omega)) fun yes => after_accept (fun _ => ?_) (done _)
  exact after (h.fewer (by omega)) fun no => done _

theorem spends_loopStatement {m : Nat} (hb : b ≤ n) (hm : b ≤ m) : Spends b 0 (loopStatement inner m) := by
  refine after_expect fun _ => after ((spends_expression m).fewer (by omega)) fun condition => ?_
  exact after_expect fun _ => after (h.fewer (by omega)) fun body => done _

theorem spends_countingStatement (lenient : Bool) {m : Nat} (hb : b ≤ n) (hm : b ≤ m) :
    Spends b 0 (countingStatement lenient inner m) := by
  have hfirst : ∀ {b : Nat}, b ≤ m → Spends b 0 (firstClause lenient m) := by
    intro b hm
    refine after_accept (fun _ => done _) (after_accept (fun _ => ?_) ?_)
    · exact after (spends_varDeclaration lenient (by omega)) fun _ => done _
    · exact after (spends_expressionStatement lenient hm) fun _ => done _
  have hclause : ∀ (closes : Kind) {b : Nat}, b ≤ m → Spends b 0 (clause closes m) := by
    intro closes b hm
    refine after (spends_check _) fun stop => ?_
    split
    · exact done _
    · exact after ((spends_expression m).fewer hm) fun _ => done _
  refine after_expect fun _ => after (hfirst (by omega)) fun initial => ?_
  refine after (hclause _ (by omega)) fun condition => after_expect fun _ => ?_
  refine after (hclause _ (by omega)) fun increment => after_expect fun _ => after (h.fewer (by omega)) fun body => ?_
  have hfive : ∀ {b : Nat}, Spends b 0 countingStatement.freshFive := fun _ _ _ => ⟨rfl, le_rfl⟩
  split
  · exact after hfive fun _ => done _
  · exact done _

end Statements

theorem spends_statementWith (lenient : Bool) (hs : Spends n 1 inner) (hd : Advances n nested) :
    Spends (n + 1) 1 (statementWith lenient inner nested (n + 1)) := by
  refine after_get fun c hc hlt => ?_
  have hn : n ≤ n + 1 := Nat.le_succ n
  dsimp only
  split
  all_goals rename_i hk
  · exact after_advance (by simp [hk]) hc hlt (spends_countingStatement hs lenient le_rfl hn)
  · exact after_advance (by simp [hk]) hc hlt (spends_branchStatement hs le_rfl hn)
  · exact after_advance (by simp [hk]) hc hlt (spends_loopStatement hs le_rfl hn)
  · exact after_advance (by simp [hk]) hc hlt (spends_returnStatement lenient _ hn)
  · exact after_advance (by simp [hk]) hc hlt (after (spends_block hd le_rfl hn) fun _ => done _)
  · exact after_advance (by simp [hk]) hc hlt (spends_printStatement lenient hn)
  · exact spends_expressionStatement lenient le_rfl c hc hlt

theorem advances_declarationWith (lenient : Bool) (hs : Spends n 1 inner) (hd : Advances n nested) :
    Advances (n + 1) (declarationWith lenient inner nested (n + 1)) := by
  refine advances_recovering (after_get fun c hc hlt => ?_)
  have hn : n ≤ n + 1 := Nat.le_succ n
  split
  all_goals rename_i hk
  · exact after_advance (by simp [hk]) hc hlt (spends_classDeclaration hd le_rfl hn)
  · exact after_advance (by simp [hk]) hc hlt (after (spends_function hd "function" le_rfl hn) fun _ => done _)
  · exact after_advance (by simp [hk]) hc hlt (spends_varDeclaration lenient hn)
  · exact spends_statementWith lenient hs hd c hc hlt

theorem spends_grammar (lenient : Bool) (n : Nat) :
    Spends n 1 (statement lenient n) ∧ Advances n (declaration lenient n) := by
  induction n with
  | zero => exact ⟨none_ahead, fun _ _ _ hlt => absurd hlt (Nat.not_lt_zero _)⟩
  | succ n ih => exact ⟨spends_statementWith lenient ih.1 ih.2, advances_declarationWith lenient ih.1 ih.2⟩

theorem spends_program (lenient : Bool) (n : Nat) : Spends n 0 (program lenient n) :=
  spends_declarations (spends_grammar lenient n).2 _ n le_rfl le_rfl

end Grammar

namespace Parsed

/-- A program that is not read has a fault. -/
theorem faults_ne_nil_of_ends {lenient : Bool} {ts : List Token} {stop : Token} {nextId : NodeId}
    {faults : List Diagnostic} (hts : ∀ t ∈ ts, t.kind ≠ .eof) (hstop : stop.kind = .eof)
    (h : (program lenient (ts ++ [stop]) nextId).result = .error faults) : faults ≠ [] := by
  have hspends := Grammar.spends_program lenient (ts.length + 1) ⟨ts, stop, [], nextId⟩ hstop (Nat.lt_succ_self _)
  unfold program run at h
  unfold SpendsAt at hspends
  rw [Cursor.ofTokens_append hts hstop] at h
  cases e : Grammar.program lenient (ts.length + 1) ⟨ts, stop, [], nextId⟩ with
  | ok statements c =>
    simp only [e] at h
    split at h
    · cases h
    · rename_i hne
      rw [← Except.error.inj h]
      simpa using hne
  | error stop c =>
    rw [e] at hspends
    simp only [e] at h
    cases stop with
    | exhausted => exact hspends.elim
    | fault d =>
      rw [← Except.error.inj h]
      simp

theorem faults_ne_nil {lenient : Bool} {source : String} {nextId : NodeId} {faults : List Diagnostic}
    (h : (program lenient (tokens source) nextId).result = .error faults) : faults ≠ [] := by
  obtain ⟨ts, stop, htokens, hkinds, hstop⟩ := tokens_eq source
  rw [htokens] at h
  exact faults_ne_nil_of_ends hkinds hstop h

end Parsed

end LoxLang
