import LoxLang.Proofs.Derivation.Readings
import LoxLang.Proofs.Relabeling.Trees

/-! Reading from tokens at other lines, with other node ids to hand out, yields the same tree or the same faults, with
those lines and ids. -/

namespace LoxLang

def Cursor.relabel (ρ : Relabeling) (c : Cursor) : Cursor :=
  ⟨c.rest.map (Token.relabel ρ), c.stop.relabel ρ, c.faults.map (Diagnostic.relabel ρ), ρ.id c.nextId⟩

def Stop.relabel (ρ : Relabeling) : Stop → Stop
  | .fault d => .fault (d.relabel ρ)
  | .exhausted => .exhausted

/-- Node ids are handed out in the same order. -/
def Relabeling.InOrder (ρ : Relabeling) : Prop := ∀ i, ρ.id (i + 1) = ρ.id i + 1

theorem Relabeling.inOrder_shift (k : Nat) : (shift k).InOrder := fun i => Nat.succ_add i k

theorem Relabeling.InOrder.add {ρ : Relabeling} (h : ρ.InOrder) (i k : Nat) : ρ.id (i + k) = ρ.id i + k := by
  induction k with
  | zero => rfl
  | succ k ih => rw [← Nat.add_assoc, h, ih, Nat.add_assoc]

namespace Reader

variable {α β γ δ : Type} {ρ : Relabeling}

def relabelResult (ρ : Relabeling) (f : α → β) : EStateM.Result Stop Cursor α → EStateM.Result Stop Cursor β
  | .ok a c => .ok (f a) (c.relabel ρ)
  | .error stop c => .error (stop.relabel ρ) (c.relabel ρ)

/-- The second reader reads from relabeled tokens what the first reads, relabeled. -/
def Follows (ρ : Relabeling) (f : α → β) (reader : Reader α) (reader' : Reader β) : Prop :=
  ∀ c, reader' (c.relabel ρ) = relabelResult ρ f (reader c)

namespace Follows

theorem pure {f : α → β} (a : α) : Follows ρ f (pure a) (pure (f a)) := fun _ => rfl

theorem done {f : α → β} {a : α} {b : β} (h : b = f a) : Follows ρ f (Pure.pure a) (Pure.pure b) := h ▸ .pure a

theorem bind {f : α → β} {g : γ → δ} {reader : Reader α} {reader' : Reader β} {next : α → Reader γ}
    {next' : β → Reader δ} (h : Follows ρ f reader reader') (hn : ∀ a, Follows ρ g (next a) (next' (f a))) :
    Follows ρ g (reader >>= next) (reader' >>= next') := by
  intro c
  simp only [Bind.bind, EStateM.bind, h c]
  cases reader c with
  | ok a c' => exact hn a c'
  | error stop c' => rfl

theorem exhausted {f : α → β} : Follows ρ f Reader.exhausted Reader.exhausted := fun _ => rfl

theorem failAt {f : α → β} (t : Token) (cause : SyntaxFault) :
    Follows ρ f (Reader.failAt t cause) (Reader.failAt (t.relabel ρ) cause) := fun _ => rfl

theorem after_get {g : γ → δ} {next : Cursor → Reader γ} {next' : Cursor → Reader δ}
    (h : ∀ c, Follows ρ g (next c) (next' (c.relabel ρ))) : Follows ρ g (get >>= next) (get >>= next') := fun c => h c c

theorem peek (c : Cursor) : (c.relabel ρ).peek = c.peek.relabel ρ := by
  unfold Cursor.peek
  cases h : c.rest <;> simp [Cursor.relabel, h]

theorem expected {f : α → β} (what : String) : Follows ρ f (Reader.expected what) (Reader.expected what) :=
  after_get fun c => peek (ρ := ρ) c ▸ failAt c.peek _

theorem modify {f f' : Cursor → Cursor} (h : ∀ c, f' (c.relabel ρ) = (f c).relabel ρ) :
    Follows ρ id (modify f) (modify f') := fun c => congrArg (EStateM.Result.ok ()) (h c)

theorem advance : Follows ρ id advance advance :=
  modify fun c => by simp [Cursor.relabel]

theorem report (t : Token) (cause : SyntaxFault) : Follows ρ id (report t cause) (report (t.relabel ρ) cause) :=
  modify fun c => by simp [Cursor.relabel, Cursor.report, Diagnostic.relabel, Token.mark_relabel]

theorem head_relabel (c : Cursor) (passes : Kind → Bool) :
    ((c.relabel ρ).rest.head?.any fun t => passes t.kind) = c.rest.head?.any fun t => passes t.kind := by
  cases h : c.rest <;> simp [Cursor.relabel, h]

theorem atEnd : Follows ρ id atEnd atEnd := by
  refine after_get fun c => done ?_
  cases h : c.rest <;> simp [Cursor.relabel, h]

theorem check (kind : Kind) : Follows ρ id (check kind) (check kind) :=
  after_get fun c => done (head_relabel c (· == kind))

theorem acceptIf (passes : Kind → Bool) : Follows ρ (Option.map (Token.relabel ρ)) (acceptIf passes) (acceptIf passes) := by
  intro c
  obtain ⟨rest, stop, faults, nextId⟩ := c
  cases rest with
  | nil => rfl
  | cons t rest =>
    unfold Reader.acceptIf
    simp only [Bind.bind, EStateM.bind, MonadState.get, getThe, MonadStateOf.get, EStateM.get, Cursor.relabel, List.map_cons]
    by_cases hp : passes t.kind = true
    · have hp' : passes (t.relabel ρ).kind = true := hp
      rw [if_pos hp', if_pos hp]
      rfl
    · have hp' : ¬ passes (t.relabel ρ).kind = true := hp
      rw [if_neg hp', if_neg hp]
      rfl

theorem accept (kind : Kind) : Follows ρ (Option.map (Token.relabel ρ)) (accept kind) (accept kind) := acceptIf _

theorem expect (kind : Kind) (what : String) : Follows ρ (Token.relabel ρ) (expect kind what) (expect kind what) := by
  refine (accept kind).bind fun o => ?_
  cases o with
  | none => exact expected what
  | some t => exact .pure t

theorem fresh (hρ : ρ.InOrder) : Follows ρ ρ.id fresh fresh := fun c =>
  congrArg (EStateM.Result.ok (ρ.id c.nextId)) (by simp [Cursor.relabel, hρ c.nextId])

end Follows

section Lists

variable {f : α → α} {item : Reader α}

theorem follows_separated (h : Follows ρ f item item) (what : String) (n count : Nat) :
    Follows ρ (List.map f) (separated what item n count) (separated what item n count) := by
  induction n generalizing count with
  | zero => exact .exhausted
  | succ n ih =>
    have hitem : Follows ρ (List.map f) (itemAndOthers what item n count) (itemAndOthers what item n count) := by
      refine h.bind fun a => (Follows.accept .comma).bind fun o => ?_
      cases o with
      | none => exact .pure [a]
      | some t => exact (ih (count + 1)).bind fun as => .pure (a :: as)
    rw [separated_succ]
    split
    · refine Follows.after_get fun c => ?_
      rw [Follows.peek]
      exact (Follows.report c.peek _).bind fun _ => hitem
    · exact hitem

theorem follows_listed (h : Follows ρ f item item) (what : String) (n : Nat) :
    Follows ρ (List.map f) (listed what item n) (listed what item n) := by
  refine (Follows.check .rightParen).bind fun b => ?_
  dsimp only [id]
  split
  · exact .pure []
  · exact follows_separated h what n 0

end Lists

end Reader

namespace Grammar

open Reader

variable {ρ : Relabeling} {nested operand : Reader Expr}

/-- Wherever it starts, the reader follows itself. -/
abbrev FollowsExpr (ρ : Relabeling) (reader : Reader Expr) : Prop := Follows ρ (Expr.relabel ρ) reader reader

theorem follows_primary (hρ : ρ.InOrder) (h : FollowsExpr ρ nested) : FollowsExpr ρ (primary nested) := by
  refine Follows.after_get fun c => ?_
  rw [Follows.peek]
  dsimp only
  rw [Token.kind_relabel]
  split
  iterate 5 exact Follows.advance.bind fun _ => .done rfl
  · exact Follows.advance.bind fun _ => (Follows.fresh hρ).bind fun _ => .done rfl
  · exact Follows.advance.bind fun _ => (Follows.fresh hρ).bind fun _ => .done rfl
  · exact Follows.advance.bind fun _ => (Follows.expect _ _).bind fun _ => (Follows.expect _ _).bind fun _ =>
      (Follows.fresh hρ).bind fun _ => .done rfl
  · exact Follows.advance.bind fun _ => h.bind fun _ => (Follows.expect _ _).bind fun _ => .done rfl
  · exact .expected _

theorem follows_suffixes (h : FollowsExpr ρ nested) (n : Nat) (e : Expr) :
    Follows ρ (Expr.relabel ρ) (suffixes nested n e) (suffixes nested n (e.relabel ρ)) := by
  induction n generalizing e with
  | zero => exact .exhausted
  | succ n ih =>
    refine (Follows.accept .leftParen).bind fun o => ?_
    rw [Option.isSome_map]
    split
    · refine (follows_listed h "arguments" (n + 1)).bind fun arguments => (Follows.expect _ _).bind fun paren => ?_
      rw [← Expr.relabelEach_eq]
      exact ih (.call e paren arguments)
    · refine (Follows.accept .dot).bind fun o => ?_
      rw [Option.isSome_map]
      split
      · exact (Follows.expect _ _).bind fun name => ih (.get e name)
      · exact .pure e

theorem follows_call (hρ : ρ.InOrder) (h : FollowsExpr ρ nested) (n : Nat) : FollowsExpr ρ (call nested n) :=
  (follows_primary hρ h).bind fun e => follows_suffixes h n e

theorem follows_unary (hρ : ρ.InOrder) (h : FollowsExpr ρ nested) (n : Nat) : FollowsExpr ρ (unary nested n) := by
  induction n with
  | zero => exact .exhausted
  | succ n ih =>
    refine (Follows.acceptIf isUnary).bind fun o => ?_
    cases o with
    | none => exact follows_call hρ h (n + 1)
    | some operator => exact ih.bind fun e => .pure (Expr.unary operator e)

section Levels

variable {isOperator : Kind → Bool} {node : Expr → Token → Expr → Expr}

theorem follows_chain (hnode : ∀ l t r, (node l t r).relabel ρ = node (l.relabel ρ) (t.relabel ρ) (r.relabel ρ))
    (h : FollowsExpr ρ operand) (n : Nat) (left : Expr) :
    Follows ρ (Expr.relabel ρ) (chain isOperator node operand n left) (chain isOperator node operand n (left.relabel ρ)) := by
  induction n generalizing left with
  | zero => exact .exhausted
  | succ n ih =>
    refine (Follows.acceptIf isOperator).bind fun o => ?_
    cases o with
    | none => exact .pure left
    | some operator => exact h.bind fun right => hnode left operator right ▸ ih (node left operator right)

theorem follows_level (hnode : ∀ l t r, (node l t r).relabel ρ = node (l.relabel ρ) (t.relabel ρ) (r.relabel ρ))
    (h : FollowsExpr ρ operand) (n : Nat) : FollowsExpr ρ (level isOperator node operand n) :=
  h.bind fun e => follows_chain hnode h n e

end Levels

theorem relabel_binary (l : Expr) (t : Token) (r : Expr) :
    (Expr.binary l t r).relabel ρ = .binary (l.relabel ρ) (t.relabel ρ) (r.relabel ρ) := rfl

theorem relabel_logical (l : Expr) (t : Token) (r : Expr) :
    (Expr.logical l t r).relabel ρ = .logical (l.relabel ρ) (t.relabel ρ) (r.relabel ρ) := rfl

theorem follows_factor (hρ : ρ.InOrder) (h : FollowsExpr ρ nested) (n : Nat) : FollowsExpr ρ (factor nested n) :=
  follows_level relabel_binary (follows_unary hρ h n) n

theorem follows_step (hρ : ρ.InOrder) (target : Expr) (sign : Token) :
    Follows ρ (Expr.relabel ρ) (step target sign) (step (target.relabel ρ) (sign.relabel ρ)) := by
  cases target with
  | read id name => exact (Follows.fresh hρ).bind fun _ => .done rfl
  | _ => exact .failAt sign _

theorem doubles_relabel (sign : Token) (rest : List Token) :
    doubles (sign.relabel ρ) (rest.map (Token.relabel ρ)) = doubles sign rest := by
  cases rest with
  | nil => rfl
  | cons t rest => cases rest <;> simp [doubles]

theorem follows_sums (hρ : ρ.InOrder) (h : FollowsExpr ρ operand) (n : Nat) (left : Expr) :
    Follows ρ (Expr.relabel ρ) (sums operand n left) (sums operand n (left.relabel ρ)) := by
  induction n generalizing left with
  | zero => exact .exhausted
  | succ n ih =>
    refine (Follows.acceptIf isTerm).bind fun o => ?_
    cases o with
    | none => exact .pure left
    | some sign =>
      refine Follows.after_get fun c => ?_
      have hdoubles : doubles (sign.relabel ρ) (c.relabel ρ).rest = doubles sign c.rest := doubles_relabel sign c.rest
      rw [hdoubles]
      split
      · exact Follows.advance.bind fun _ => follows_step hρ left sign
      · exact h.bind fun right => ih (.binary left sign right)

theorem follows_term (hρ : ρ.InOrder) (h : FollowsExpr ρ nested) (n : Nat) : FollowsExpr ρ (term nested n) :=
  (follows_factor hρ h n).bind fun e => follows_sums hρ (follows_factor hρ h n) n e

theorem follows_disjunction (hρ : ρ.InOrder) (h : FollowsExpr ρ nested) (n : Nat) :
    FollowsExpr ρ (disjunction nested n) :=
  have hequality := follows_level relabel_binary (follows_level relabel_binary (follows_term hρ h n) n) n
  follows_level relabel_logical (follows_level relabel_logical hequality n) n

theorem follows_assignTo (hρ : ρ.InOrder) (target : Expr) (equals : Token) (value : Expr) :
    Follows ρ (Expr.relabel ρ) (assignTo target equals value)
      (assignTo (target.relabel ρ) (equals.relabel ρ) (value.relabel ρ)) := by
  cases target with
  | read id name => exact (Follows.fresh hρ).bind fun _ => .done rfl
  | get object name => exact .done rfl
  | _ => exact (Follows.report equals _).bind fun _ => .done rfl

theorem follows_assignment (hρ : ρ.InOrder) (h : FollowsExpr ρ nested) (n : Nat) : FollowsExpr ρ (assignment nested n) := by
  refine (follows_disjunction hρ h n).bind fun target => (Follows.accept .equal).bind fun o => ?_
  cases o with
  | none => exact .pure target
  | some equals => exact h.bind fun value => follows_assignTo hρ target equals value

theorem follows_expression (hρ : ρ.InOrder) (n : Nat) : FollowsExpr ρ (expression n) := by
  induction n with
  | zero => exact .exhausted
  | succ n ih => exact follows_assignment hρ ih (n + 1)

end Grammar

end LoxLang
