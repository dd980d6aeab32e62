import LoxLang.Tree.Basic

/-! The uses of names in a tree that may be local, in reading order. An assignment comes before its value. -/

namespace LoxLang

inductive UseKind
  | read
  | assign
  | self
  | inherited
deriving DecidableEq, Repr

structure Use where
  kind : UseKind
  id : NodeId
  token : Token
deriving DecidableEq, Repr

mutual

def Expr.uses : Expr → List Use
  | .literal _ => []
  | .grouping inner => inner.uses
  | .unary _ operand => operand.uses
  | .binary left _ right | .logical left _ right => left.uses ++ right.uses
  | .read id name => [⟨.read, id, name⟩]
  | .assign id name value => ⟨.assign, id, name⟩ :: value.uses
  | .call callee _ arguments => callee.uses ++ Expr.usesEach arguments
  | .get object _ => object.uses
  | .set object _ value => object.uses ++ value.uses
  | .self id keyword => [⟨.self, id, keyword⟩]
  | .inherited id keyword _ => [⟨.inherited, id, keyword⟩]

def Expr.usesEach : List Expr → List Use
  | [] => []
  | e :: rest => e.uses ++ Expr.usesEach rest

end

theorem Expr.uses_subset_usesEach {e : Expr} : ∀ {es : List Expr}, e ∈ es → e.uses ⊆ Expr.usesEach es
  | _ :: _, h => by
    rw [Expr.usesEach]
    cases h with
    | head => exact List.subset_append_left _ _
    | tail _ h => exact List.Subset.trans (uses_subset_usesEach h) (List.subset_append_right _ _)

def Expr.usesOption : Option Expr → List Use
  | none => []
  | some e => e.uses

mutual

def Stmt.uses : Stmt → List Use
  | .expression e | .print e => e.uses
  | .var _ initial => Expr.usesOption initial
  | .block body => Stmt.usesEach body
  | .branch condition yes no => condition.uses ++ yes.uses ++ Stmt.usesOption no
  | .loop condition body => condition.uses ++ body.uses
  | .function f => f.uses
  | .ret _ value => Expr.usesOption value
  | .classDecl _ superclass methods =>
    (superclass.map fun u => ⟨.read, u.id, u.name⟩).toList ++ Function.usesEach methods

def Stmt.usesEach : List Stmt → List Use
  | [] => []
  | s :: rest => s.uses ++ Stmt.usesEach rest

def Stmt.usesOption : Option Stmt → List Use
  | none => []
  | some s => s.uses

def Function.uses : Function → List Use
  | .mk _ _ body => Stmt.usesEach body

def Function.usesEach : List Function → List Use
  | [] => []
  | f :: rest => f.uses ++ Function.usesEach rest

end

theorem Stmt.uses_subset_usesEach {s : Stmt} : ∀ {body : List Stmt}, s ∈ body → s.uses ⊆ Stmt.usesEach body
  | _ :: _, h => by
    rw [Stmt.usesEach]
    cases h with
    | head => exact List.subset_append_left _ _
    | tail _ h => exact List.Subset.trans (uses_subset_usesEach h) (List.subset_append_right _ _)

theorem Function.uses_subset_usesEach {f : Function} : ∀ {fs : List Function}, f ∈ fs → f.uses ⊆ Function.usesEach fs
  | _ :: _, h => by
    rw [Function.usesEach]
    cases h with
    | head => exact List.subset_append_left _ _
    | tail _ h => exact List.Subset.trans (uses_subset_usesEach h) (List.subset_append_right _ _)

end LoxLang
