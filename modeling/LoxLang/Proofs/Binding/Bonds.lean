import LoxLang.Binding.Resolve
import LoxLang.Proofs.Relabeling.Trees

/-! Two walks, one over code and one over the same code relabeled. What holds between them, and is kept by each single thing
that they do together, is kept over all of the code. -/

namespace LoxLang

theorem FunctionKind.ofMethod_relabel {ρ : Relabeling} (f : Function) :
    FunctionKind.ofMethod (f.relabel ρ) = .ofMethod f := by
  cases f
  rfl

namespace Walk

/-- What may hold between two walks, and is kept as long as both do the same. They have the same scopes open; their faults and
distances may differ, and so may the names that they know to be global. Of the uses they pass, just those that fit count. -/
structure Bond (ρ : Relabeling) (fits : Use → Prop) (R : Walk → Walk → Prop) : Prop where
  scopes {w v : Walk} : R w v → v.scopes = w.scopes
  rescope {w v : Walk} : R w v → ∀ ss, R { w with scopes := ss } { v with scopes := ss }
  global {w v : Walk} : R w v → ∀ x, R { w with globals := w.globals.insert x } { v with globals := v.globals.insert x }
  fault {w v : Walk} : R w v → ∀ t cause, cause ≠ .ownInitializer → R (w.fault t cause) (v.fault (t.relabel ρ) cause)
  record {w v : Walk} : R w v → ∀ u, fits u → ∀ d, R (w.record u.id d) (v.record (ρ.id u.id) d)
  /-- A name that is read in its own initial value and that no scope around has. -/
  missing {w v : Walk} : R w v → ∀ u, fits u →
    R (if w.globals.contains u.token.lexeme then w else w.fault u.token .ownInitializer)
      (if v.globals.contains u.token.lexeme then v else v.fault (u.token.relabel ρ) .ownInitializer)

namespace Bond

section Operations

variable {ρ : Relabeling} {fits : Use → Prop} {R : Walk → Walk → Prop} {w v : Walk} (hR : Bond ρ fits R)

include hR

theorem declare (h : R w v) (t : Token) : R (w.declare t) (v.declare (t.relabel ρ)) := by
  obtain ⟨ss, globals, bindings, faults⟩ := w
  obtain ⟨ss', globals', bindings', faults'⟩ := v
  obtain rfl : ss' = ss := hR.scopes h
  cases ss' with
  | nil => exact hR.global h t.lexeme
  | cons scope outer =>
    unfold Walk.declare
    rw [Token.lexeme_relabel]
    dsimp only
    split
    · exact hR.fault h t _ (by decide)
    · exact hR.rescope h _

theorem define (h : R w v) (t : Token) : R (w.define t) (v.define (t.relabel ρ)) := by
  unfold Walk.define
  rw [hR.scopes h, Token.lexeme_relabel]
  cases w.scopes with
  | nil => exact h
  | cons scope outer => exact hR.rescope h _

theorem parameters (h : R w v) (parameters : List Token) :
    R (parameters.foldl (fun w t => (w.declare t).define t) w)
      ((parameters.map (Token.relabel ρ)).foldl (fun w t => (w.declare t).define t) v) := by
  induction parameters generalizing w v with
  | nil => exact h
  | cons t rest ih => exact ih (hR.define (hR.declare h t) t)

theorem ret (h : R w v) (around : Surroundings) (t : Token) (valued : Bool) :
    R (w.ret around t valued) (v.ret around (t.relabel ρ) valued) := by
  have first : R (if around.function = .none then w.fault t .returnAtTopLevel else w)
      (if around.function = .none then v.fault (t.relabel ρ) .returnAtTopLevel else v) := by
    split
    · exact hR.fault h t _ (by decide)
    · exact h
  unfold Walk.ret
  dsimp only
  split
  · exact hR.fault first t _ (by decide)
  · exact first

theorem inScope (h : R w v) (names : List String) {walk walk' : Walk → Walk}
    (hwalk : ∀ {w v : Walk}, R w v → R (walk w) (walk' v)) : R (w.inScope names walk) (v.inScope names walk') := by
  have hinside := hwalk (hR.rescope h (names.foldl (fun (s : Scope) name => s.insert name .defined) ∅ :: w.scopes))
  unfold Walk.inScope
  dsimp only
  rw [hR.scopes h, hR.scopes hinside]
  exact hR.rescope hinside _

section Uses

variable {k : UseKind} {id : NodeId} {t : Token} (h : R w v) (hu : fits ⟨k, id, t⟩)

include h hu

theorem use (name : String) : R (w.use id name) (v.use (ρ.id id) name) := by
  unfold Walk.use
  rw [hR.scopes h]
  cases distance? name w.scopes with
  | none => exact h
  | some d => exact hR.record h _ hu d

theorem read : R (w.read id t) (v.read (ρ.id id) (t.relabel ρ)) := by
  have hinitializing : v.isInitializing t.lexeme = w.isInitializing t.lexeme := by
    unfold isInitializing
    rw [hR.scopes h]
  unfold Walk.read
  rw [Token.lexeme_relabel, hinitializing, hR.scopes h]
  split
  · cases distance? t.lexeme w.scopes.tail with
    | some d => exact hR.record h _ hu _
    | none => exact hR.missing h _ hu
  · exact hR.use h hu t.lexeme

theorem self (around : Surroundings) : R (w.self around id t) (v.self around (ρ.id id) (t.relabel ρ)) := by
  unfold Walk.self
  split
  · exact hR.fault h t _ (by decide)
  · exact hR.use h hu t.lexeme

theorem inherited (around : Surroundings) :
    R (w.inherited around id t) (v.inherited around (ρ.id id) (t.relabel ρ)) := by
  unfold Walk.inherited
  split
  · exact hR.fault h t _ (by decide)
  · exact hR.fault h t _ (by decide)
  · exact hR.use h hu _

end Uses

theorem superclass (h : R w v) (u : NameUse) (hu : fits ⟨.read, u.id, u.name⟩) (cls : Token) :
    R (u.resolveSuperclass cls w) ((u.relabel ρ).resolveSuperclass (cls.relabel ρ) v) := by
  have first : R (if u.name.lexeme = cls.lexeme then w.fault u.name .inheritsFromItself else w)
      (if u.name.lexeme = cls.lexeme then v.fault (u.name.relabel ρ) .inheritsFromItself else v) := by
    split
    · exact hR.fault h u.name _ (by decide)
    · exact h
  exact hR.read first hu

end Operations

section Code

variable {ρ : Relabeling} {fits : Use → Prop} {R : Walk → Walk → Prop}

mutual

theorem expr (hR : Bond ρ fits R) (around : Surroundings) : ∀ (e : Expr) {w v : Walk}, (∀ u ∈ e.uses, fits u) → R w v →
    R (e.resolve around w) ((e.relabel ρ).resolve around v)
  | .literal _, _, _, _, h => h
  | .grouping e, _, _, hu, h | .unary _ e, _, _, hu, h | .get e _, _, _, hu, h => hR.expr around e hu h
  | .binary left _ right, _, _, hu, h | .logical left _ right, _, _, hu, h =>
    have hu := List.forall_mem_append.mp hu
    hR.expr around right hu.2 (hR.expr around left hu.1 h)
  | .read _ _, _, _, hu, h => hR.read h (hu _ List.mem_cons_self)
  | .assign _ name value, _, _, hu, h =>
    have hu := List.forall_mem_cons.mp hu
    hR.use (hR.expr around value hu.2 h) hu.1 name.lexeme
  | .call callee _ arguments, _, _, hu, h =>
    have hu := List.forall_mem_append.mp hu
    hR.exprs around arguments hu.2 (hR.expr around callee hu.1 h)
  | .set object _ value, _, _, hu, h =>
    have hu := List.forall_mem_append.mp hu
    hR.expr around object hu.1 (hR.expr around value hu.2 h)
  | .self _ _, _, _, hu, h => hR.self h (hu _ List.mem_cons_self) around
  | .inherited _ _ _, _, _, hu, h => hR.inherited h (hu _ List.mem_cons_self) around

theorem exprs (hR : Bond ρ fits R) (around : Surroundings) : ∀ (es : List Expr) {w v : Walk},
    (∀ u ∈ Expr.usesEach es, fits u) → R w v →
      R (Expr.resolveEach around es w) (Expr.resolveEach around (Expr.relabelEach ρ es) v)
  | [], _, _, _, h => h
  | e :: rest, _, _, hu, h =>
    have hu := List.forall_mem_append.mp hu
    hR.exprs around rest hu.2 (hR.expr around e hu.1 h)

end

theorem exprOption (hR : Bond ρ fits R) (around : Surroundings) (e : Option Expr) {w v : Walk}
    (hu : ∀ u ∈ Expr.usesOption e, fits u) (h : R w v) :
    R (Expr.resolveOption around e w) (Expr.resolveOption around (e.map (Expr.relabel ρ)) v) := by
  cases e with
  | none => exact h
  | some e => exact hR.expr around e hu h

mutual

theorem stmt (hR : Bond ρ fits R) (around : Surroundings) : ∀ (s : Stmt) {w v : Walk}, (∀ u ∈ s.uses, fits u) → R w v →
    R (s.resolve around w) ((s.relabel ρ).resolve around v)
  | .expression e, _, _, hu, h | .print e, _, _, hu, h => hR.expr around e hu h
  | .var name initial, _, _, hu, h => hR.define (hR.exprOption around initial hu (hR.declare h name)) name
  | .block body, _, _, hu, h => hR.inScope h [] (hR.stmts around body hu)
  | .branch condition yes no, _, _, hu, h =>
    have hu := List.forall_mem_append.mp hu
    have hu' := List.forall_mem_append.mp hu.1
    hR.stmtOption around no hu.2 (hR.stmt around yes hu'.2 (hR.expr around condition hu'.1 h))
  | .loop condition body, _, _, hu, h =>
    have hu := List.forall_mem_append.mp hu
    hR.stmt around body hu.2 (hR.expr around condition hu.1 h)
  | .function (.mk name parameters body), _, _, hu, h =>
    hR.function .function around (.mk name parameters body) hu (hR.define (hR.declare h name) name)
  | .ret keyword none, _, _, _, h => hR.ret h around keyword false
  | .ret keyword (some e), _, _, hu, h => hR.expr around e hu (hR.ret h around keyword true)
  | .classDecl name none methods, _, _, hu, h =>
    hR.inScope (hR.define (hR.declare h name) name) ["this"] (hR.functions _ methods hu)
  | .classDecl name (some u) methods, _, _, hu, h =>
    have hu := List.forall_mem_append.mp hu
    have hclass := hR.superclass (hR.define (hR.declare h name) name) u (hu.1 _ List.mem_cons_self) name
    hR.inScope hclass ["super"] fun h => hR.inScope h ["this"] (hR.functions _ methods hu.2)

theorem stmts (hR : Bond ρ fits R) (around : Surroundings) : ∀ (body : List Stmt) {w v : Walk},
    (∀ u ∈ Stmt.usesEach body, fits u) → R w v →
      R (Stmt.resolveEach around body w) (Stmt.resolveEach around (Stmt.relabelEach ρ body) v)
  | [], _, _, _, h => h
  | s :: rest, _, _, hu, h =>
    have hu := List.forall_mem_append.mp hu
    hR.stmts around rest hu.2 (hR.stmt around s hu.1 h)

theorem stmtOption (hR : Bond ρ fits R) (around : Surroundings) : ∀ (s : Option Stmt) {w v : Walk},
    (∀ u ∈ Stmt.usesOption s, fits u) → R w v →
      R (Stmt.resolveOption around s w) (Stmt.resolveOption around (Stmt.relabelOption ρ s) v)
  | none, _, _, _, h => h
  | some s, _, _, hu, h => hR.stmt around s hu h

theorem function (hR : Bond ρ fits R) (kind : FunctionKind) (around : Surroundings) : ∀ (f : Function) {w v : Walk},
    (∀ u ∈ f.uses, fits u) → R w v → R (f.resolve kind around w) ((f.relabel ρ).resolve kind around v)
  | .mk _ parameters body, _, _, hu, h =>
    hR.inScope h [] fun h => hR.stmts ⟨kind, around.cls⟩ body hu (hR.parameters h parameters)

theorem functions (hR : Bond ρ fits R) (around : Surroundings) : ∀ (fs : List Function) {w v : Walk},
    (∀ u ∈ Function.usesEach fs, fits u) → R w v →
      R (Function.resolveMethods around fs w) (Function.resolveMethods around (Function.relabelEach ρ fs) v)
  | [], _, _, _, h => h
  | f :: rest, _, _, hu, h => by
    have hu := List.forall_mem_append.mp hu
    rw [Function.relabelEach, Function.resolveMethods, Function.resolveMethods, FunctionKind.ofMethod_relabel]
    exact hR.functions around rest hu.2 (hR.function (.ofMethod f) around f hu.1 h)

end

end Code

end Bond

end Walk

end LoxLang
