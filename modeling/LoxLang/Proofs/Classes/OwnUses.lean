import LoxLang.Proofs.Binding.Walks

/-! Which class a use of `this` or `super` belongs to. The uses of a function are its own but for those in the methods
of classes declared inside it. A program in which the walk finds no fault has no such use outside all classes. -/

namespace LoxLang

mutual

/-- The uses in a statement, without those in the methods of classes declared there. -/
def Stmt.ownUses : Stmt → List Use
  | .expression e | .print e => e.uses
  | .var _ initial => Expr.usesOption initial
  | .block body => Stmt.ownUsesEach body
  | .branch condition yes no => condition.uses ++ yes.ownUses ++ Stmt.ownUsesOption no
  | .loop condition body => condition.uses ++ body.ownUses
  | .function f => f.ownUses
  | .ret _ value => Expr.usesOption value
  | .classDecl _ superclass _ => (superclass.map NameUse.use).toList

def Stmt.ownUsesEach : List Stmt → List Use
  | [] => []
  | s :: rest => s.ownUses ++ Stmt.ownUsesEach rest

def Stmt.ownUsesOption : Option Stmt → List Use
  | none => []
  | some s => s.ownUses

def Function.ownUses : Function → List Use
  | .mk _ _ body => Stmt.ownUsesEach body

end

/-- A use of `this` or `super`. -/
def Use.OfClass (u : Use) : Prop := u.kind = .self ∨ u.kind = .inherited

theorem NameUse.use_not_ofClass (u : NameUse) : ¬ u.use.OfClass := by simp [Use.OfClass, NameUse.use]

open Walk

section Outside

variable {around : Surroundings}

mutual

theorem Expr.outside_of_clean (hcls : around.cls = .none) : ∀ (e : Expr) (w : Walk),
    (e.resolve around w).faults = [] → ∀ u ∈ e.uses, ¬ u.OfClass
  | .literal _, _, _ => nofun
  | .grouping inner, w, h => inner.outside_of_clean hcls w h
  | .unary _ operand, w, h => operand.outside_of_clean hcls w h
  | .binary left _ right, w, h | .logical left _ right, w, h => by
    have hleft := (right.adds_resolve around (left.resolve around w)).clean h
    exact List.forall_mem_append.mpr ⟨left.outside_of_clean hcls w hleft, right.outside_of_clean hcls _ h⟩
  | .read _ _, _, _ => List.forall_mem_singleton.mpr (by simp [Use.OfClass])
  | .assign id name value, w, h => by
    have hvalue := (adds_use .assign name id name.lexeme (value.resolve around w)).clean h
    exact List.forall_mem_cons.mpr ⟨by simp [Use.OfClass], value.outside_of_clean hcls w hvalue⟩
  | .call callee _ arguments, w, h => by
    have hcallee := (Expr.adds_resolveEach around arguments (callee.resolve around w)).clean h
    exact List.forall_mem_append.mpr ⟨callee.outside_of_clean hcls w hcallee, Expr.outside_of_cleanEach hcls arguments _ h⟩
  | .get object _, w, h => object.outside_of_clean hcls w h
  | .set object _ value, w, h => by
    have hvalue := (object.adds_resolve around (value.resolve around w)).clean h
    exact List.forall_mem_append.mpr ⟨object.outside_of_clean hcls _ h, value.outside_of_clean hcls w hvalue⟩
  | .self id keyword, w, h => by simp [Expr.resolve, Walk.self, hcls, fault] at h
  | .inherited id keyword _, w, h => by simp [Expr.resolve, Walk.inherited, hcls, fault] at h

theorem Expr.outside_of_cleanEach (hcls : around.cls = .none) : ∀ (es : List Expr) (w : Walk),
    (Expr.resolveEach around es w).faults = [] → ∀ u ∈ Expr.usesEach es, ¬ u.OfClass
  | [], _, _ => nofun
  | e :: rest, w, h => by
    have he := (Expr.adds_resolveEach around rest (e.resolve around w)).clean h
    exact List.forall_mem_append.mpr ⟨e.outside_of_clean hcls w he, Expr.outside_of_cleanEach hcls rest _ h⟩

end

theorem Expr.outside_of_cleanOption (hcls : around.cls = .none) (e : Option Expr) (w : Walk)
    (h : (Expr.resolveOption around e w).faults = []) :
    ∀ u ∈ Expr.usesOption e, ¬ u.OfClass := by
  cases e with
  | none => nofun
  | some e => exact e.outside_of_clean hcls w h

end Outside

mutual

theorem Stmt.outside_of_clean : ∀ (s : Stmt) {around : Surroundings} (w : Walk), around.cls = .none →
    (s.resolve around w).faults = [] → ∀ u ∈ s.ownUses, ¬ u.OfClass
  | .expression e, _, w, hcls, h | .print e, _, w, hcls, h => e.outside_of_clean hcls w h
  | .var name initial, around, w, hcls, h => by
    have hinitial := (adds_define name (Expr.resolveOption around initial (w.declare name))).clean h
    exact Expr.outside_of_cleanOption hcls initial _ hinitial
  | .block body, _, _, hcls, h => Stmt.outside_of_cleanEach body _ hcls h
  | .branch condition yes no, around, w, hcls, h => by
    have hyes := (Stmt.adds_resolveOption around no (yes.resolve around (condition.resolve around w))).clean h
    have hcondition := (yes.adds_resolve around (condition.resolve around w)).clean hyes
    refine List.forall_mem_append.mpr ⟨List.forall_mem_append.mpr ⟨?_, ?_⟩, ?_⟩
    · exact condition.outside_of_clean hcls w hcondition
    · exact yes.outside_of_clean _ hcls hyes
    · exact Stmt.outside_of_cleanOption no _ hcls h
  | .loop condition body, around, w, hcls, h => by
    have hcondition := (body.adds_resolve around (condition.resolve around w)).clean h
    exact List.forall_mem_append.mpr ⟨condition.outside_of_clean hcls w hcondition, body.outside_of_clean _ hcls h⟩
  | .function f, _, _, hcls, h => f.outside_of_clean .function _ hcls h
  | .ret _ value, _, _, hcls, h => Expr.outside_of_cleanOption hcls value _ h
  | .classDecl _ superclass _, _, _, _, _ => by
    intro u hu
    obtain ⟨clause, -, rfl⟩ := Option.map_eq_some_iff.mp (Option.mem_toList.mp hu)
    exact clause.use_not_ofClass

theorem Stmt.outside_of_cleanEach : ∀ (body : List Stmt) {around : Surroundings} (w : Walk), around.cls = .none →
    (Stmt.resolveEach around body w).faults = [] → ∀ u ∈ Stmt.ownUsesEach body, ¬ u.OfClass
  | [], _, _, _, _ => nofun
  | s :: rest, around, w, hcls, h => by
    have hs := (Stmt.adds_resolveEach around rest (s.resolve around w)).clean h
    exact List.forall_mem_append.mpr ⟨s.outside_of_clean w hcls hs, Stmt.outside_of_cleanEach rest _ hcls h⟩

theorem Stmt.outside_of_cleanOption : ∀ (s : Option Stmt) {around : Surroundings} (w : Walk), around.cls = .none →
    (Stmt.resolveOption around s w).faults = [] → ∀ u ∈ Stmt.ownUsesOption s, ¬ u.OfClass
  | none, _, _, _, _ => nofun
  | some s, _, w, hcls, h => s.outside_of_clean w hcls h

theorem Function.outside_of_clean : ∀ (f : Function) (kind : FunctionKind) {around : Surroundings} (w : Walk),
    around.cls = .none → (f.resolve kind around w).faults = [] → ∀ u ∈ f.ownUses, ¬ u.OfClass
  | .mk _ _ body, kind, around, _, hcls, h =>
    @Stmt.outside_of_cleanEach body ⟨kind, around.cls⟩ _ hcls h

end

end LoxLang
