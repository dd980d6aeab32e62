import LoxLang.Proofs.Counting.Shift
import LoxLang.Proofs.Grammar.Statements

/-! Counting loops that declare a variable, unrolled with a copy of the variable for each run of the body and without
one, and the bodies for which the two can be compared: those that declare no function and no class, and that leave the
name of the carrier alone. -/

namespace LoxLang

/-- A counting loop that declares a variable. -/
structure VarLoop where
  name : Token
  initial : Option Expr
  condition : Option Expr
  increment : Option Expr
  body : Stmt

namespace VarLoop

variable (ℓ : VarLoop)

/-- The loop as it is read: each run of the body has its own copy of the variable. -/
def copying (id : NodeId) : Stmt :=
  Grammar.counting (some (.var ℓ.name ℓ.initial)) ℓ.condition ℓ.increment (Grammar.iteration id ℓ.name ℓ.body)

/-- The loop with one variable for all runs of the body. -/
def plain : Stmt := Grammar.counting (some (.var ℓ.name ℓ.initial)) ℓ.condition ℓ.increment ℓ.body

/-- What is evaluated in front of each round. -/
def test : Expr := ℓ.condition.getD (.literal (.bool true))

/-- One round: what runs the body, and the increment behind it. -/
def round (inner : Stmt) : Stmt :=
  match ℓ.increment with
  | some e => .block [inner, .expression e]
  | none => inner

theorem copying_eq (id : NodeId) :
    ℓ.copying id =
      .block [.var ℓ.name ℓ.initial, .loop ℓ.test (ℓ.round (Grammar.iteration id ℓ.name ℓ.body))] := rfl

theorem plain_eq : ℓ.plain = .block [.var ℓ.name ℓ.initial, .loop ℓ.test (ℓ.round ℓ.body)] := rfl

/-- What is asked of a statement in a loop. -/
theorem declares_round {inner : Stmt} (h : inner.declares = []) : (ℓ.round inner).declares = [] := by
  unfold round
  split
  · rfl
  · exact h

theorem tidy_plain {id : NodeId} (h : (ℓ.copying id).Tidy) (hbody : ℓ.body.declares = []) : ℓ.plain.Tidy := by
  obtain ⟨hname, ⟨hround, -⟩, -⟩ := h
  have hinner : (Grammar.iteration id ℓ.name ℓ.body).Tidy ∧ ((ℓ.round ℓ.body).Tidy ↔ ℓ.body.Tidy) := by
    change (ℓ.round (Grammar.iteration id ℓ.name ℓ.body)).Tidy at hround
    unfold round at hround ⊢
    cases h : ℓ.increment with
    | none => exact ⟨by rwa [h] at hround, Iff.rfl⟩
    | some e =>
      rw [h] at hround
      exact ⟨hround.1, fun h => h.1, fun h => ⟨h, trivial, trivial⟩⟩
  obtain ⟨⟨-, ⟨-, htidy, -⟩, -⟩, hiff⟩ := hinner
  exact ⟨hname, ⟨hiff.mpr htidy, ℓ.declares_round hbody⟩, trivial⟩

end VarLoop

mutual

/-- No function and no class is declared in the statement. -/
def Stmt.Closureless : Stmt → Prop
  | .function _ | .classDecl _ _ _ => False
  | .block body => Stmt.ClosurelessEach body
  | .branch _ yes no => yes.Closureless ∧ Stmt.ClosurelessOption no
  | .loop _ body => body.Closureless
  | .expression _ | .print _ | .var _ _ | .ret _ _ => True

def Stmt.ClosurelessEach : List Stmt → Prop
  | [] => True
  | s :: rest => s.Closureless ∧ Stmt.ClosurelessEach rest

def Stmt.ClosurelessOption : Option Stmt → Prop
  | none => True
  | some s => s.Closureless

end

/-- The name is bound around the expression, or it does not occur. -/
def Expr.Spares (e : Expr) (y : String) (bound : Prop) : Prop := bound ∨ ∀ u ∈ e.uses, u.token.lexeme ≠ y

mutual

/-- No function and no class is declared in the statement, and its every use of the name refers to a declaration inside
it, one without an initial value, if none is bound around it already. -/
def Stmt.Clear (y : String) (bound : Prop) : Stmt → Prop
  | .expression e | .print e => e.Spares y bound
  | .var name initial => (name.lexeme = y → initial = none) ∧ ∀ e ∈ initial, e.Spares y bound
  | .block body => Stmt.ClearEach y bound body
  | .branch condition yes no =>
    condition.Spares y bound ∧ yes.Clear y bound ∧ yes.declares = [] ∧ Stmt.ClearOption y bound no
  | .loop condition body => condition.Spares y bound ∧ body.Clear y bound ∧ body.declares = []
  | .ret _ value => ∀ e ∈ value, e.Spares y bound
  | .function _ | .classDecl _ _ _ => False

def Stmt.ClearEach (y : String) (bound : Prop) : List Stmt → Prop
  | [] => True
  | s :: rest => s.Clear y bound ∧ Stmt.ClearEach y (bound ∨ y ∈ s.declares) rest

def Stmt.ClearOption (y : String) (bound : Prop) : Option Stmt → Prop
  | none => True
  | some s => s.Clear y bound ∧ s.declares = []

end

variable {y : String} {bound bound' : Prop}

theorem Expr.Spares.mono {e : Expr} (h : e.Spares y bound) (hb : bound → bound') : e.Spares y bound' := h.imp_left hb

mutual

/-- It does no harm that the name is bound around the statement. -/
theorem Stmt.Clear.mono : ∀ {s : Stmt} {bound bound' : Prop}, s.Clear y bound → (bound → bound') → s.Clear y bound'
  | .expression _, _, _, h, hb | .print _, _, _, h, hb => Expr.Spares.mono h hb
  | .var _ _, _, _, h, hb => ⟨h.1, fun e he => (h.2 e he).mono hb⟩
  | .block _, _, _, h, hb => Stmt.ClearEach.mono h hb
  | .branch _ _ _, _, _, h, hb => ⟨h.1.mono hb, h.2.1.mono hb, h.2.2.1, Stmt.ClearOption.mono h.2.2.2 hb⟩
  | .loop _ _, _, _, h, hb => ⟨h.1.mono hb, h.2.1.mono hb, h.2.2⟩
  | .ret _ _, _, _, h, hb => fun e he => Expr.Spares.mono (h e he) hb
  | .function _, _, _, h, _ | .classDecl _ _ _, _, _, h, _ => h.elim

theorem Stmt.ClearEach.mono : ∀ {body : List Stmt} {bound bound' : Prop}, Stmt.ClearEach y bound body →
    (bound → bound') → Stmt.ClearEach y bound' body
  | [], _, _, _, _ => trivial
  | _ :: _, _, _, h, hb => ⟨h.1.mono hb, Stmt.ClearEach.mono h.2 (Or.imp_left hb)⟩

theorem Stmt.ClearOption.mono : ∀ {s : Option Stmt} {bound bound' : Prop}, Stmt.ClearOption y bound s →
    (bound → bound') → Stmt.ClearOption y bound' s
  | none, _, _, _, _ => trivial
  | some _, _, _, h, hb => ⟨h.1.mono hb, h.2⟩

end

end LoxLang
