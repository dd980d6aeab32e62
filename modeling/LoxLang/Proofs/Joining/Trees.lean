import LoxLang.Proofs.Derivation.Spelling
import LoxLang.Proofs.Grammar.Statements
import LoxLang.Proofs.Relabeling.Trees

/-! A tree is made of what it is up to node ids and of its node ids. So two trees that are the same up to node ids are
one tree and the same tree relabeled. -/

namespace LoxLang

/-- The lines alone. -/
def Relabeling.lines (ρ : Relabeling) : Relabeling := ⟨fun i => i, ρ.line⟩

theorem Token.relabel_lines (ρ : Relabeling) (t : Token) : t.relabel ρ.lines = t.relabel ρ := rfl

namespace Use

variable {us vs us' vs' : List Use} {ρ : Relabeling}

/-- The ids of a part of a tree and those of the rest. -/
theorem ids_append {f : Use → NodeId} (hlength : us'.length = us.length) (h : (us' ++ vs').map id = (us ++ vs).map f) :
    us'.map id = us.map f ∧ vs'.map id = vs.map f := by
  rw [List.map_append, List.map_append] at h
  exact List.append_inj h (by rw [List.length_map, List.length_map, hlength])

theorem length_of_unnumbered (h : us'.map unnumbered = (us.map (relabel ρ)).map unnumbered) :
    us'.length = us.length := by simpa using congrArg List.length h

end Use

variable (ρ : Relabeling)

/-- The ids that the uses of a relabeled tree have. -/
def Use.idIn (u : Use) : NodeId := ρ.id u.id

section Expressions

theorem Expr.length_uses {e e' : Expr} (h : e'.unnumbered = (e.relabel ρ).unnumbered) :
    e'.uses.length = e.uses.length := by
  refine Use.length_of_unnumbered (ρ := ρ) ?_
  rw [← e'.uses_unnumbered, ← e.uses_relabel, ← Expr.uses_unnumbered, h]

mutual

theorem Expr.eq_relabel : ∀ (e : Expr) {e' : Expr}, e'.unnumbered = (e.relabel ρ.lines).unnumbered →
    e'.uses.map Use.id = e.uses.map (Use.idIn ρ) → e' = e.relabel ρ
  | .literal _, e', h, _ => by
    cases e' with
    | literal => exact h
    | _ => cases h
  | .grouping e, e', h, hids => by
    cases e' with
    | grouping e' => rw [Expr.relabel, e.eq_relabel (Expr.grouping.inj h) hids]
    | _ => cases h
  | .unary _ e, e', h, hids => by
    cases e' with
    | unary _ e' =>
      obtain ⟨rfl, he⟩ := Expr.unary.inj h
      rw [Expr.relabel, e.eq_relabel he hids, Token.relabel_lines]
    | _ => cases h
  | .binary left _ right, e', h, hids => by
    cases e' with
    | binary left' _ right' =>
      obtain ⟨hleft, rfl, hright⟩ := Expr.binary.inj h
      have hids := Use.ids_append (Expr.length_uses _ hleft) hids
      rw [Expr.relabel, left.eq_relabel hleft hids.1, right.eq_relabel hright hids.2, Token.relabel_lines]
    | _ => cases h
  | .logical left _ right, e', h, hids => by
    cases e' with
    | logical left' _ right' =>
      obtain ⟨hleft, rfl, hright⟩ := Expr.logical.inj h
      have hids := Use.ids_append (Expr.length_uses _ hleft) hids
      rw [Expr.relabel, left.eq_relabel hleft hids.1, right.eq_relabel hright hids.2, Token.relabel_lines]
    | _ => cases h
  | .read id _, e', h, hids => by
    cases e' with
    | read id' _ =>
      obtain ⟨-, rfl⟩ := Expr.read.inj h
      obtain rfl : id' = ρ.id id := (List.cons.inj hids).1
      rfl
    | _ => cases h
  | .assign id _ e, e', h, hids => by
    cases e' with
    | assign id' _ e' =>
      obtain ⟨-, rfl, he⟩ := Expr.assign.inj h
      obtain rfl : id' = ρ.id id := (List.cons.inj hids).1
      rw [Expr.relabel, e.eq_relabel he (List.cons.inj hids).2, Token.relabel_lines]
    | _ => cases h
  | .call callee _ arguments, e', h, hids => by
    cases e' with
    | call callee' _ arguments' =>
      obtain ⟨hcallee, rfl, harguments⟩ := Expr.call.inj h
      have hids := Use.ids_append (Expr.length_uses _ hcallee) hids
      rw [Expr.relabel, callee.eq_relabel hcallee hids.1, Expr.eq_relabel_each arguments harguments hids.2,
        Token.relabel_lines]
    | _ => cases h
  | .get e _, e', h, hids => by
    cases e' with
    | get e' =>
      obtain ⟨he, rfl⟩ := Expr.get.inj h
      rw [Expr.relabel, e.eq_relabel he hids, Token.relabel_lines]
    | _ => cases h
  | .set object _ value, e', h, hids => by
    cases e' with
    | set object' _ value' =>
      obtain ⟨hobject, rfl, hvalue⟩ := Expr.set.inj h
      have hids := Use.ids_append (Expr.length_uses _ hobject) hids
      rw [Expr.relabel, object.eq_relabel hobject hids.1, value.eq_relabel hvalue hids.2, Token.relabel_lines]
    | _ => cases h
  | .self id _, e', h, hids => by
    cases e' with
    | self id' _ =>
      obtain ⟨-, rfl⟩ := Expr.self.inj h
      obtain rfl : id' = ρ.id id := (List.cons.inj hids).1
      rfl
    | _ => cases h
  | .inherited id _ _, e', h, hids => by
    cases e' with
    | inherited id' _ _ =>
      obtain ⟨-, rfl, rfl⟩ := Expr.inherited.inj h
      obtain rfl : id' = ρ.id id := (List.cons.inj hids).1
      rfl
    | _ => cases h

theorem Expr.eq_relabel_each : ∀ (es : List Expr) {es' : List Expr},
    Expr.unnumberedEach es' = Expr.unnumberedEach (Expr.relabelEach ρ.lines es) →
    (Expr.usesEach es').map Use.id = (Expr.usesEach es).map (Use.idIn ρ) → es' = Expr.relabelEach ρ es
  | [], [], _, _ => rfl
  | [], _ :: _, h, _ | _ :: _, [], h, _ => by cases h
  | e :: rest, e' :: rest', h, hids => by
    obtain ⟨he, hrest⟩ := List.cons.inj h
    have hids := Use.ids_append (Expr.length_uses _ he) hids
    rw [Expr.relabelEach, e.eq_relabel he hids.1, Expr.eq_relabel_each rest hrest hids.2]

end

theorem Expr.eq_relabel_option {e e' : Option Expr}
    (h : Expr.unnumberedOption e' = Expr.unnumberedOption (e.map (Expr.relabel ρ.lines)))
    (hids : (Expr.usesOption e').map Use.id = (Expr.usesOption e).map (Use.idIn ρ)) : e' = e.map (Expr.relabel ρ) := by
  cases e <;> cases e'
  · rfl
  · cases h
  · cases h
  · exact congrArg some (Expr.eq_relabel ρ _ (Option.some.inj h) hids)

end Expressions

section Statements

theorem Stmt.length_uses {s s' : Stmt} (h : s'.unnumbered = (s.relabel ρ).unnumbered) :
    s'.uses.length = s.uses.length := by
  refine Use.length_of_unnumbered (ρ := ρ) ?_
  rw [← s'.uses_unnumbered, ← s.uses_relabel, ← Stmt.uses_unnumbered, h]

theorem Stmt.length_usesEach {body body' : List Stmt}
    (h : Stmt.unnumberedEach body' = Stmt.unnumberedEach (Stmt.relabelEach ρ body)) :
    (Stmt.usesEach body').length = (Stmt.usesEach body).length := by
  refine Use.length_of_unnumbered (ρ := ρ) ?_
  rw [← Stmt.usesEach_unnumbered body', ← Stmt.usesEach_relabel, ← Stmt.usesEach_unnumbered, h]

theorem Function.length_uses {f f' : Function} (h : f'.unnumbered = (f.relabel ρ).unnumbered) :
    f'.uses.length = f.uses.length := by
  refine Use.length_of_unnumbered (ρ := ρ) ?_
  rw [← f'.uses_unnumbered, ← f.uses_relabel, ← Function.uses_unnumbered, h]

theorem NameUse.eq_relabel {u u' : NameUse} (h : u'.name = (u.relabel ρ).name) (hid : u'.id = ρ.id u.id) :
    u' = u.relabel ρ := by
  cases u
  cases u'
  exact congrArg₂ NameUse.mk hid h

mutual

theorem Stmt.eq_relabel : ∀ (s : Stmt) {s' : Stmt}, s'.unnumbered = (s.relabel ρ.lines).unnumbered →
    s'.uses.map Use.id = s.uses.map (Use.idIn ρ) → s' = s.relabel ρ
  | .expression e, s', h, hids => by
    cases s' with
    | expression => rw [Stmt.relabel, e.eq_relabel ρ (Stmt.expression.inj h) hids]
    | _ => cases h
  | .print e, s', h, hids => by
    cases s' with
    | print => rw [Stmt.relabel, e.eq_relabel ρ (Stmt.print.inj h) hids]
    | _ => cases h
  | .var _ e, s', h, hids => by
    cases s' with
    | var =>
      obtain ⟨rfl, he⟩ := Stmt.var.inj h
      rw [Stmt.relabel, Expr.eq_relabel_option ρ he hids, Token.relabel_lines]
    | _ => cases h
  | .block body, s', h, hids => by
    cases s' with
    | block => rw [Stmt.relabel, Stmt.eq_relabel_each body (Stmt.block.inj h) hids]
    | _ => cases h
  | .branch condition yes no, s', h, hids => by
    cases s' with
    | branch condition' yes' no' =>
      obtain ⟨hcondition, hyes, hno⟩ := Stmt.branch.inj h
      have hlength : (condition'.uses ++ yes'.uses).length = (condition.uses ++ yes.uses).length := by
        rw [List.length_append, List.length_append, Expr.length_uses _ hcondition, Stmt.length_uses _ hyes]
      have hids := Use.ids_append hlength hids
      have hids' := Use.ids_append (Expr.length_uses _ hcondition) hids.1
      rw [Stmt.relabel, condition.eq_relabel ρ hcondition hids'.1, yes.eq_relabel hyes hids'.2,
        Stmt.eq_relabel_option no hno hids.2]
    | _ => cases h
  | .loop condition body, s', h, hids => by
    cases s' with
    | loop condition' body' =>
      obtain ⟨hcondition, hbody⟩ := Stmt.loop.inj h
      have hids := Use.ids_append (Expr.length_uses _ hcondition) hids
      rw [Stmt.relabel, condition.eq_relabel ρ hcondition hids.1, body.eq_relabel hbody hids.2]
    | _ => cases h
  | .function f, s', h, hids => by
    cases s' with
    | function => rw [Stmt.relabel, f.eq_relabel (Stmt.function.inj h) hids]
    | _ => cases h
  | .ret _ e, s', h, hids => by
    cases s' with
    | ret =>
      obtain ⟨rfl, he⟩ := Stmt.ret.inj h
      rw [Stmt.relabel, Expr.eq_relabel_option ρ he hids, Token.relabel_lines]
    | _ => cases h
  | .classDecl _ superclass methods, s', h, hids => by
    cases s' with
    | classDecl _ superclass' methods' =>
      obtain ⟨rfl, hsuperclass, hmethods⟩ := Stmt.classDecl.inj h
      rw [Stmt.relabel]
      cases superclass <;> cases superclass' <;> try cases hsuperclass
      · rw [Function.eq_relabel_each methods hmethods hids]
        rfl
      · obtain ⟨-, hname⟩ := NameUse.mk.inj (Option.some.inj hsuperclass)
        obtain ⟨hid, hids⟩ := List.cons.inj hids
        rw [NameUse.eq_relabel ρ hname hid, Function.eq_relabel_each methods hmethods hids]
        rfl
    | _ => cases h

theorem Stmt.eq_relabel_each : ∀ (body : List Stmt) {body' : List Stmt},
    Stmt.unnumberedEach body' = Stmt.unnumberedEach (Stmt.relabelEach ρ.lines body) →
    (Stmt.usesEach body').map Use.id = (Stmt.usesEach body).map (Use.idIn ρ) → body' = Stmt.relabelEach ρ body
  | [], [], _, _ => rfl
  | [], _ :: _, h, _ | _ :: _, [], h, _ => by cases h
  | s :: rest, s' :: rest', h, hids => by
    obtain ⟨hs, hrest⟩ := List.cons.inj h
    have hids := Use.ids_append (Stmt.length_uses _ hs) hids
    rw [Stmt.relabelEach, s.eq_relabel hs hids.1, Stmt.eq_relabel_each rest hrest hids.2]

theorem Stmt.eq_relabel_option : ∀ (s : Option Stmt) {s' : Option Stmt},
    Stmt.unnumberedOption s' = Stmt.unnumberedOption (Stmt.relabelOption ρ.lines s) →
    (Stmt.usesOption s').map Use.id = (Stmt.usesOption s).map (Use.idIn ρ) → s' = Stmt.relabelOption ρ s
  | none, none, _, _ => rfl
  | none, some _, h, _ | some _, none, h, _ => by cases h
  | some s, some s', h, hids => by rw [Stmt.relabelOption, s.eq_relabel (Option.some.inj h) hids]

theorem Function.eq_relabel : ∀ (f : Function) {f' : Function}, f'.unnumbered = (f.relabel ρ.lines).unnumbered →
    f'.uses.map Use.id = f.uses.map (Use.idIn ρ) → f' = f.relabel ρ
  | .mk _ _ body, .mk _ _ body', h, hids => by
    obtain ⟨rfl, rfl, hbody⟩ := Function.mk.inj h
    rw [Function.relabel, Stmt.eq_relabel_each body hbody hids]
    rfl

theorem Function.eq_relabel_each : ∀ (fs : List Function) {fs' : List Function},
    Function.unnumberedEach fs' = Function.unnumberedEach (Function.relabelEach ρ.lines fs) →
    (Function.usesEach fs').map Use.id = (Function.usesEach fs).map (Use.idIn ρ) → fs' = Function.relabelEach ρ fs
  | [], [], _, _ => rfl
  | [], _ :: _, h, _ | _ :: _, [], h, _ => by cases h
  | f :: rest, f' :: rest', h, hids => by
    obtain ⟨hf, hrest⟩ := List.cons.inj h
    have hids := Use.ids_append (Function.length_uses _ hf) hids
    rw [Function.relabelEach, f.eq_relabel hf hids.1, Function.eq_relabel_each rest hrest hids.2]

end

end Statements

/-- Different things can be given any other names. -/
theorem List.exists_map_eq {α β : Type} [DecidableEq α] [Inhabited β] : ∀ {xs : List α} {ys : List β}, xs.Nodup →
    ys.length = xs.length → ∃ f : α → β, xs.map f = ys
  | [], [], _, _ => ⟨fun _ => default, rfl⟩
  | [], _ :: _, _, h | _ :: _, [], _, h => by cases h
  | x :: xs, y :: ys, hnodup, h => by
    obtain ⟨hx, hnodup⟩ := List.nodup_cons.mp hnodup
    obtain ⟨f, rfl⟩ := List.exists_map_eq hnodup (Nat.succ.inj h)
    refine ⟨Function.update f x y, ?_⟩
    rw [List.map_cons, Function.update_self]
    exact congrArg (List.cons y) (List.map_congr_left fun z hz => Function.update_of_ne (ne_of_mem_of_not_mem hz hx) y f)

theorem Stmt.unnumberedEach_eq (body : List Stmt) : unnumberedEach body = body.map unnumbered := by
  induction body with
  | nil => rfl
  | cons s rest ih => rw [unnumberedEach, ih, List.map_cons]

/-- What is the same, up to node ids, as two programs in a row, the second on lines further down, is these programs with
other node ids, which still tell all uses apart. -/
theorem Stmt.exists_relabel {a b body : List Stmt} (line : Nat → Nat)
    (h : unnumberedEach body = unnumberedEach a ++ unnumberedEach (relabelEach ⟨fun i => i, line⟩ b))
    (hnodup : ((usesEach a ++ usesEach b).map Use.id).Nodup) (hnodup' : ((usesEach body).map Use.id).Nodup) :
    ∃ f, body = relabelEach ⟨f, fun n => n⟩ a ++ relabelEach ⟨f, line⟩ b ∧
      ∀ i ∈ (usesEach a ++ usesEach b).map Use.id, ∀ j ∈ (usesEach a ++ usesEach b).map Use.id, f i = f j → i = j := by
  rw [unnumberedEach_eq body, List.map_eq_append_iff] at h
  obtain ⟨a', b', rfl, ha, hb⟩ := h
  rw [← unnumberedEach_eq] at ha hb
  have ha : unnumberedEach a' = unnumberedEach (relabelEach .still a) := by rw [ha, relabelEach_still]
  have hlength : (usesEach (a' ++ b')).length = (usesEach a ++ usesEach b).length := by
    rw [usesEach_append, List.length_append, List.length_append, length_usesEach _ ha, length_usesEach _ hb]
  have hids : ((usesEach (a' ++ b')).map Use.id).length = ((usesEach a ++ usesEach b).map Use.id).length := by
    simpa using hlength
  obtain ⟨f, hf⟩ := List.exists_map_eq hnodup hids
  refine ⟨f, ?_, fun i hi j hj => List.inj_on_of_nodup_map (hf ▸ hnodup') hi hj⟩
  rw [List.map_map, usesEach_append] at hf
  obtain ⟨hida, hidb⟩ := Use.ids_append (length_usesEach _ ha) hf.symm
  rw [eq_relabel_each ⟨f, fun n => n⟩ a ha hida, eq_relabel_each ⟨f, line⟩ b hb hidb]

end LoxLang
