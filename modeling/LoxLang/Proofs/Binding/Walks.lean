import LoxLang.Binding.Resolve
import LoxLang.Proofs.Binding.Layout

/-! What a walk over a part of a program leaves alone. It only adds faults, and it records distances only for the
uses it passes. -/

namespace LoxLang

theorem Stmt.resolveEach_append (around : Surroundings) (a b : List Stmt) (w : Walk) :
    Stmt.resolveEach around (a ++ b) w = Stmt.resolveEach around b (Stmt.resolveEach around a w) := by
  induction a generalizing w with
  | nil => rfl
  | cons s rest ih => rw [List.cons_append, resolveEach, resolveEach, ih]

theorem Function.resolveMethods_append (around : Surroundings) (a b : List Function) (w : Walk) :
    Function.resolveMethods around (a ++ b) w =
      Function.resolveMethods around b (Function.resolveMethods around a w) := by
  induction a generalizing w with
  | nil => rfl
  | cons f rest ih => rw [List.cons_append, resolveMethods, resolveMethods, ih]

namespace Walk

/-- A walk over some uses: faults are added at the end, and other nodes keep what is recorded for them. -/
structure Adds (us : List Use) (w w' : Walk) : Prop where
  faults : w.faults <+: w'.faults
  elsewhere : ∀ id, id ∉ us.map Use.id → w'.bindings[id]? = w.bindings[id]?

namespace Adds

variable {us vs : List Use} {w w' w'' : Walk}

theorem refl (us : List Use) (w : Walk) : Adds us w w := ⟨List.prefix_refl _, fun _ _ => rfl⟩

theorem clean (h : Adds us w w') (hclean : w'.faults = []) : w.faults = [] := List.prefix_nil.mp (hclean ▸ h.faults)

theorem trans (h : Adds us w w') (h' : Adds vs w' w'') : Adds (us ++ vs) w w'' := by
  refine ⟨h.faults.trans h'.faults, fun id hid => ?_⟩
  rw [List.map_append, List.mem_append, not_or] at hid
  rw [h'.elsewhere id hid.2, h.elsewhere id hid.1]

theorem mono (h : Adds us w w') (hs : us ⊆ vs) : Adds vs w w' :=
  ⟨h.faults, fun id hid => h.elsewhere id fun hm => hid (List.map_subset _ hs hm)⟩

theorem of_same (hf : w'.faults = w.faults) (hb : w'.bindings = w.bindings) : Adds us w w' :=
  ⟨by rw [hf], fun _ _ => by rw [hb]⟩

end Adds

theorem adds_fault (us : List Use) (t : Token) (cause : BindingFault) (w : Walk) : Adds us w (w.fault t cause) :=
  ⟨List.prefix_append _ _, fun _ _ => rfl⟩

theorem adds_declare (t : Token) (w : Walk) : Adds [] w (w.declare t) := by
  unfold declare
  split
  · exact .of_same rfl rfl
  · split
    · exact adds_fault _ _ _ _
    · exact .of_same rfl rfl

theorem adds_define (t : Token) (w : Walk) : Adds [] w (w.define t) := by
  unfold define
  split <;> exact .of_same rfl rfl

theorem adds_record (k : UseKind) (t : Token) (id : NodeId) (d : Nat) (w : Walk) :
    Adds [⟨k, id, t⟩] w (w.record id d) := by
  refine ⟨List.prefix_refl _, fun i hi => ?_⟩
  have hne : id ≠ i := fun e => hi (by simp [e])
  simp only [record, Std.ExtTreeMap.getElem?_insert, Std.compare_eq_iff_eq, if_neg hne]

theorem adds_use (k : UseKind) (t : Token) (id : NodeId) (name : String) (w : Walk) :
    Adds [⟨k, id, t⟩] w (w.use id name) := by
  unfold use
  split
  · exact adds_record _ _ _ _ _
  · exact .refl _ _

theorem adds_read (k : UseKind) (id : NodeId) (t : Token) (w : Walk) : Adds [⟨k, id, t⟩] w (w.read id t) := by
  unfold read
  split
  · split
    · exact adds_record _ _ _ _ _
    · split
      · exact .refl _ _
      · exact adds_fault _ _ _ _
  · exact adds_use _ _ _ _ _

theorem adds_self (around : Surroundings) (id : NodeId) (t : Token) (w : Walk) :
    Adds [⟨.self, id, t⟩] w (w.self around id t) := by
  unfold self
  split
  · exact adds_fault _ _ _ _
  · exact adds_use _ _ _ _ _

theorem adds_inherited (around : Surroundings) (id : NodeId) (t : Token) (w : Walk) :
    Adds [⟨.inherited, id, t⟩] w (w.inherited around id t) := by
  unfold inherited
  split
  · exact adds_fault _ _ _ _
  · exact adds_fault _ _ _ _
  · exact adds_use _ _ _ _ _

theorem adds_ret (around : Surroundings) (t : Token) (valued : Bool) (w : Walk) :
    Adds [] w (w.ret around t valued) := by
  have first : Adds [] w (if around.function = .none then w.fault t .returnAtTopLevel else w) := by
    split
    · exact adds_fault _ _ _ _
    · exact .refl _ _
  unfold ret
  dsimp only
  split
  · exact first.trans (adds_fault [] _ _ _)
  · exact first

theorem adds_inScope {us : List Use} (names : List String) {walk : Walk → Walk}
    (h : ∀ w, Adds us w (walk w)) (w : Walk) : Adds us w (w.inScope names walk) := by
  unfold inScope
  have hw := h { w with scopes := names.foldl (fun (s : Scope) name => s.insert name .defined) ∅ :: w.scopes }
  exact ⟨hw.faults, hw.elsewhere⟩

theorem adds_parameters (parameters : List Token) (w : Walk) :
    Adds [] w (parameters.foldl (fun w t => (w.declare t).define t) w) := by
  induction parameters generalizing w with
  | nil => exact .refl _ _
  | cons t rest ih => exact ((adds_declare t w).trans (adds_define t _)).trans (ih _)

end Walk

open Walk

theorem NameUse.adds_resolveSuperclass (u : NameUse) (cls : Token) (w : Walk) :
    Adds [u.use] w (u.resolveSuperclass cls w) := by
  have first : Adds [] w (if u.name.lexeme = cls.lexeme then w.fault u.name .inheritsFromItself else w) := by
    split
    · exact adds_fault _ _ _ _
    · exact .refl _ _
  exact first.trans (adds_read .read u.id u.name _)

mutual

theorem Expr.adds_resolve (around : Surroundings) : ∀ (e : Expr) (w : Walk), Adds e.uses w (e.resolve around w)
  | .literal _, _ => .refl _ _
  | .grouping inner, w => inner.adds_resolve around w
  | .unary _ operand, w => operand.adds_resolve around w
  | .binary left _ right, w | .logical left _ right, w =>
    (left.adds_resolve around w).trans (right.adds_resolve around _)
  | .read id name, w => adds_read .read id name w
  | .assign id name value, w =>
    ((value.adds_resolve around w).trans (adds_use .assign name id name.lexeme _)).mono (by simp [Expr.uses])
  | .call callee _ arguments, w => (callee.adds_resolve around w).trans (Expr.adds_resolveEach around arguments _)
  | .get object _, w => object.adds_resolve around w
  | .set object _ value, w =>
    ((value.adds_resolve around w).trans (object.adds_resolve around _)).mono (by simp [Expr.uses])
  | .self id keyword, w => adds_self around id keyword w
  | .inherited id keyword _, w => adds_inherited around id keyword w

theorem Expr.adds_resolveEach (around : Surroundings) :
    ∀ (es : List Expr) (w : Walk), Adds (Expr.usesEach es) w (Expr.resolveEach around es w)
  | [], _ => .refl _ _
  | e :: rest, w => (e.adds_resolve around w).trans (Expr.adds_resolveEach around rest _)

end

theorem Expr.adds_resolveOption (around : Surroundings) (e : Option Expr) (w : Walk) :
    Adds (Expr.usesOption e) w (Expr.resolveOption around e w) := by
  cases e with
  | none => exact .refl _ _
  | some e => exact e.adds_resolve around w

mutual

theorem Stmt.adds_resolve (around : Surroundings) : ∀ (s : Stmt) (w : Walk), Adds s.uses w (s.resolve around w)
  | .expression e, w | .print e, w => e.adds_resolve around w
  | .var name initial, w =>
    (((adds_declare name w).trans (Expr.adds_resolveOption around initial _)).trans (adds_define name _)).mono
      (by simp [Stmt.uses])
  | .block body, w => adds_inScope [] (Stmt.adds_resolveEach around body) w
  | .branch condition yes no, w =>
    ((condition.adds_resolve around w).trans (yes.adds_resolve around _)).trans (Stmt.adds_resolveOption around no _)
  | .loop condition body, w => (condition.adds_resolve around w).trans (body.adds_resolve around _)
  | .function f, w =>
    ((adds_declare f.name w).trans (adds_define f.name _)).trans (f.adds_resolve .function around _)
  | .ret keyword value, w => (adds_ret around keyword value.isSome w).trans (Expr.adds_resolveOption around value _)
  | .classDecl name none methods, w =>
    ((adds_declare name w).trans (adds_define name _)).trans
      (adds_inScope ["this"] (Function.adds_resolveMethods ⟨around.function, .base⟩ methods) _)
  | .classDecl name (some u) methods, w =>
    (((adds_declare name w).trans (adds_define name _)).trans (u.adds_resolveSuperclass name _)).trans
      (adds_inScope ["super"]
        (fun w => adds_inScope ["this"] (Function.adds_resolveMethods ⟨around.function, .derived⟩ methods) w) _)

theorem Stmt.adds_resolveEach (around : Surroundings) :
    ∀ (body : List Stmt) (w : Walk), Adds (Stmt.usesEach body) w (Stmt.resolveEach around body w)
  | [], _ => .refl _ _
  | s :: rest, w => (s.adds_resolve around w).trans (Stmt.adds_resolveEach around rest _)

theorem Stmt.adds_resolveOption (around : Surroundings) :
    ∀ (s : Option Stmt) (w : Walk), Adds (Stmt.usesOption s) w (Stmt.resolveOption around s w)
  | none, _ => .refl _ _
  | some s, w => s.adds_resolve around w

theorem Function.adds_resolve (kind : FunctionKind) (around : Surroundings) :
    ∀ (f : Function) (w : Walk), Adds f.uses w (f.resolve kind around w)
  | .mk _ parameters body, w =>
    adds_inScope []
      (fun w => (adds_parameters parameters w).trans (Stmt.adds_resolveEach ⟨kind, around.cls⟩ body _)) w

theorem Function.adds_resolveMethods (around : Surroundings) :
    ∀ (fs : List Function) (w : Walk), Adds (Function.usesEach fs) w (Function.resolveMethods around fs w)
  | [], _ => .refl _ _
  | f :: rest, w => (f.adds_resolve _ around w).trans (Function.adds_resolveMethods around rest _)

end

end LoxLang
