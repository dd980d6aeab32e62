import LoxLang.Diagnostic
import LoxLang.Proofs.Binding.Layout

/-! Code with other node ids and at other lines. Which names it uses and declares, and where, stays the same. -/

namespace LoxLang

structure Relabeling where
  id : NodeId → NodeId
  line : Nat → Nat

namespace Relabeling

/-- Everything as it is. -/
def still : Relabeling := ⟨fun i => i, fun n => n⟩

/-- Node ids moved up, lines as they are. -/
def shift (k : Nat) : Relabeling := ⟨(· + k), fun n => n⟩

end Relabeling

variable (ρ : Relabeling)

def Token.relabel (t : Token) : Token := { t with line := ρ.line t.line }

mutual

def Expr.relabel : Expr → Expr
  | .literal value => .literal value
  | .grouping inner => .grouping inner.relabel
  | .unary operator operand => .unary (operator.relabel ρ) operand.relabel
  | .binary left operator right => .binary left.relabel (operator.relabel ρ) right.relabel
  | .logical left operator right => .logical left.relabel (operator.relabel ρ) right.relabel
  | .read id name => .read (ρ.id id) (name.relabel ρ)
  | .assign id name value => .assign (ρ.id id) (name.relabel ρ) value.relabel
  | .call callee paren arguments => .call callee.relabel (paren.relabel ρ) (Expr.relabelEach arguments)
  | .get object name => .get object.relabel (name.relabel ρ)
  | .set object name value => .set object.relabel (name.relabel ρ) value.relabel
  | .self id keyword => .self (ρ.id id) (keyword.relabel ρ)
  | .inherited id keyword method => .inherited (ρ.id id) (keyword.relabel ρ) (method.relabel ρ)

def Expr.relabelEach : List Expr → List Expr
  | [] => []
  | e :: rest => e.relabel :: Expr.relabelEach rest

end

def NameUse.relabel (u : NameUse) : NameUse := ⟨ρ.id u.id, u.name.relabel ρ⟩

mutual

def Stmt.relabel : Stmt → Stmt
  | .expression e => .expression (e.relabel ρ)
  | .print e => .print (e.relabel ρ)
  | .var name initial => .var (name.relabel ρ) (initial.map (Expr.relabel ρ))
  | .block body => .block (Stmt.relabelEach body)
  | .branch condition yes no => .branch (condition.relabel ρ) yes.relabel (Stmt.relabelOption no)
  | .loop condition body => .loop (condition.relabel ρ) body.relabel
  | .function f => .function f.relabel
  | .ret keyword value => .ret (keyword.relabel ρ) (value.map (Expr.relabel ρ))
  | .classDecl name superclass methods =>
    .classDecl (name.relabel ρ) (superclass.map (NameUse.relabel ρ)) (Function.relabelEach methods)

def Stmt.relabelEach : List Stmt → List Stmt
  | [] => []
  | s :: rest => s.relabel :: Stmt.relabelEach rest

def Stmt.relabelOption : Option Stmt → Option Stmt
  | none => none
  | some s => some s.relabel

def Function.relabel : Function → Function
  | .mk name parameters body => .mk (name.relabel ρ) (parameters.map (Token.relabel ρ)) (Stmt.relabelEach body)

def Function.relabelEach : List Function → List Function
  | [] => []
  | f :: rest => f.relabel :: Function.relabelEach rest

end

def Use.relabel (u : Use) : Use := ⟨u.kind, ρ.id u.id, u.token.relabel ρ⟩

def Mark.relabel (m : Mark) : Mark := { m with line := ρ.line m.line }

def Diagnostic.relabel : Diagnostic → Diagnostic
  | .lexical line cause => .lexical (ρ.line line) cause
  | .syntactic mark cause => .syntactic (mark.relabel ρ) cause
  | .binding mark cause => .binding (mark.relabel ρ) cause

@[simp] theorem Token.kind_relabel (t : Token) : (t.relabel ρ).kind = t.kind := rfl

@[simp] theorem Token.lexeme_relabel (t : Token) : (t.relabel ρ).lexeme = t.lexeme := rfl

theorem Token.mark_relabel (t : Token) : (t.relabel ρ).mark = t.mark.relabel ρ := rfl

section Functions

@[simp] theorem Function.name_relabel (f : Function) : (f.relabel ρ).name = f.name.relabel ρ := by
  cases f
  rfl

@[simp] theorem Function.parameters_relabel (f : Function) :
    (f.relabel ρ).parameters = f.parameters.map (Token.relabel ρ) := by
  cases f
  rfl

end Functions

theorem Expr.relabelEach_eq (es : List Expr) : Expr.relabelEach ρ es = es.map (Expr.relabel ρ) := by
  induction es with
  | nil => rfl
  | cons e rest ih => rw [Expr.relabelEach, ih, List.map_cons]

theorem Function.relabelEach_eq (fs : List Function) : Function.relabelEach ρ fs = fs.map (Function.relabel ρ) := by
  induction fs with
  | nil => rfl
  | cons f rest ih => rw [Function.relabelEach, ih, List.map_cons]

section Still

theorem Token.relabel_of_line (hρ : ∀ n, ρ.line n = n) (t : Token) : t.relabel ρ = t := by rw [relabel, hρ]

theorem Token.map_relabel_of_line (hρ : ∀ n, ρ.line n = n) (ts : List Token) : ts.map (Token.relabel ρ) = ts :=
  (List.map_congr_left fun t _ => t.relabel_of_line ρ hρ).trans (List.map_id ts)

theorem Mark.relabel_of_line (hρ : ∀ n, ρ.line n = n) (m : Mark) : m.relabel ρ = m := by rw [relabel, hρ]

theorem Diagnostic.map_relabel_of_line (hρ : ∀ n, ρ.line n = n) (ds : List Diagnostic) :
    ds.map (Diagnostic.relabel ρ) = ds := by
  refine (List.map_congr_left fun d _ => ?_).trans (List.map_id ds)
  cases d with
  | lexical line cause => rw [relabel, hρ, id]
  | syntactic mark cause | binding mark cause => rw [relabel, mark.relabel_of_line ρ hρ, id]

open Relabeling

mutual

theorem Expr.relabel_still : ∀ e : Expr, e.relabel still = e
  | .literal _ | .read .. | .self .. | .inherited .. => rfl
  | .grouping e => by rw [Expr.relabel, e.relabel_still]
  | .unary _ e | .assign _ _ e | .get e _ => by
    rw [Expr.relabel, e.relabel_still]
    rfl
  | .binary left _ right | .logical left _ right | .set left _ right => by
    rw [Expr.relabel, left.relabel_still, right.relabel_still]
    rfl
  | .call callee _ arguments => by
    rw [Expr.relabel, callee.relabel_still, Expr.relabelEach_still arguments]
    rfl

theorem Expr.relabelEach_still : ∀ es : List Expr, Expr.relabelEach still es = es
  | [] => rfl
  | e :: rest => by rw [Expr.relabelEach, e.relabel_still, Expr.relabelEach_still rest]

end

theorem Expr.map_relabel_still (e : Option Expr) : e.map (Expr.relabel still) = e := by
  cases e with
  | none => rfl
  | some e => exact congrArg some e.relabel_still

mutual

theorem Stmt.relabel_still : ∀ s : Stmt, s.relabel still = s
  | .expression e | .print e => by rw [Stmt.relabel, e.relabel_still]
  | .var _ e | .ret _ e => by
    rw [Stmt.relabel, Expr.map_relabel_still]
    rfl
  | .block body => by rw [Stmt.relabel, Stmt.relabelEach_still body]
  | .branch condition yes no => by
    rw [Stmt.relabel, condition.relabel_still, yes.relabel_still, Stmt.relabelOption_still no]
  | .loop condition body => by rw [Stmt.relabel, condition.relabel_still, body.relabel_still]
  | .function f => by rw [Stmt.relabel, f.relabel_still]
  | .classDecl name superclass methods => by
    rw [Stmt.relabel, Function.relabelEach_still methods]
    cases superclass <;> rfl

theorem Stmt.relabelEach_still : ∀ body : List Stmt, Stmt.relabelEach still body = body
  | [] => rfl
  | s :: rest => by rw [Stmt.relabelEach, s.relabel_still, Stmt.relabelEach_still rest]

theorem Stmt.relabelOption_still : ∀ s : Option Stmt, Stmt.relabelOption still s = s
  | none => rfl
  | some s => by rw [Stmt.relabelOption, s.relabel_still]

theorem Function.relabel_still : ∀ f : Function, f.relabel still = f
  | .mk _ _ body => by
    rw [Function.relabel, Token.map_relabel_of_line _ fun _ => rfl, Stmt.relabelEach_still body]
    rfl

theorem Function.relabelEach_still : ∀ fs : List Function, Function.relabelEach still fs = fs
  | [] => rfl
  | f :: rest => by rw [Function.relabelEach, f.relabel_still, Function.relabelEach_still rest]

end

end Still

section Uses

mutual

theorem Expr.uses_relabel : ∀ e : Expr, (e.relabel ρ).uses = e.uses.map (Use.relabel ρ)
  | .literal _ | .read .. | .self .. | .inherited .. => rfl
  | .grouping e | .unary _ e | .get e _ => e.uses_relabel
  | .assign _ _ e => congrArg (List.cons _) e.uses_relabel
  | .binary left _ right | .logical left _ right | .set left _ right => by
    rw [relabel, uses, uses, List.map_append, left.uses_relabel, right.uses_relabel]
  | .call callee _ arguments => by
    rw [relabel, uses, uses, List.map_append, callee.uses_relabel, Expr.usesEach_relabel arguments]

theorem Expr.usesEach_relabel : ∀ es : List Expr,
    Expr.usesEach (Expr.relabelEach ρ es) = (Expr.usesEach es).map (Use.relabel ρ)
  | [] => rfl
  | e :: rest => by
    rw [relabelEach, usesEach, usesEach, List.map_append, e.uses_relabel, Expr.usesEach_relabel rest]

end

theorem Expr.usesOption_relabel (e : Option Expr) :
    Expr.usesOption (e.map (Expr.relabel ρ)) = (Expr.usesOption e).map (Use.relabel ρ) := by
  cases e with
  | none => rfl
  | some e => exact e.uses_relabel ρ

mutual

theorem Stmt.uses_relabel : ∀ s : Stmt, (s.relabel ρ).uses = s.uses.map (Use.relabel ρ)
  | .expression e | .print e => e.uses_relabel ρ
  | .var _ e | .ret _ e => Expr.usesOption_relabel ρ e
  | .block body => Stmt.usesEach_relabel body
  | .branch condition yes no => by
    rw [Stmt.relabel, Stmt.uses, Stmt.uses, List.map_append, List.map_append, condition.uses_relabel, yes.uses_relabel,
      Stmt.usesOption_relabel no]
  | .loop condition body => by
    rw [Stmt.relabel, Stmt.uses, Stmt.uses, List.map_append, condition.uses_relabel, body.uses_relabel]
  | .function f => f.uses_relabel
  | .classDecl _ superclass methods => by
    rw [Stmt.relabel, Stmt.uses, Stmt.uses, List.map_append, Function.usesEach_relabel methods]
    cases superclass <;> rfl

theorem Stmt.usesEach_relabel : ∀ body : List Stmt,
    Stmt.usesEach (Stmt.relabelEach ρ body) = (Stmt.usesEach body).map (Use.relabel ρ)
  | [] => rfl
  | s :: rest => by
    rw [Stmt.relabelEach, Stmt.usesEach, Stmt.usesEach, List.map_append, s.uses_relabel, Stmt.usesEach_relabel rest]

theorem Stmt.usesOption_relabel : ∀ s : Option Stmt,
    Stmt.usesOption (Stmt.relabelOption ρ s) = (Stmt.usesOption s).map (Use.relabel ρ)
  | none => rfl
  | some s => s.uses_relabel

theorem Function.uses_relabel : ∀ f : Function, (f.relabel ρ).uses = f.uses.map (Use.relabel ρ)
  | .mk _ _ body => Stmt.usesEach_relabel body

theorem Function.usesEach_relabel : ∀ fs : List Function,
    Function.usesEach (Function.relabelEach ρ fs) = (Function.usesEach fs).map (Use.relabel ρ)
  | [] => rfl
  | f :: rest => by
    rw [Function.relabelEach, Function.usesEach, Function.usesEach, List.map_append, f.uses_relabel, Function.usesEach_relabel rest]

end

end Uses

end LoxLang
