import LoxLang.Proofs.Binding.Fits
import LoxLang.Proofs.Counting.Lowering

/-! A counting loop is walked with the same faults whether or not each run of its body has a copy of the loop variable.
In the body the copy and the carrier are two scopes more, one of which declares again a name that is there anyway, and
the other a name that the body leaves alone. -/

namespace LoxLang

namespace Walk

/-- The innermost scope is still walking the initial value of the name. -/
def awaits (z : String) : List Scope → Bool
  | [] => false
  | scope :: _ => scope[z]? == some .declared

/-- Scopes in which the same names are awaited, and those have outer bindings in both or in neither. -/
structure Parallel (ss ss' : List Scope) : Prop where
  awaits : ∀ z, awaits z ss' = awaits z ss
  found : ∀ z, Walk.awaits z ss = true → (distance? z ss'.tail).isSome = (distance? z ss.tail).isSome

/-- Two walks that have come to the given scopes with the same faults. -/
structure Abreast (ss ss' : List Scope) (w w' : Walk) : Prop where
  scopes : w.scopes = ss
  scopes' : w'.scopes = ss'
  globals : w'.globals = w.globals
  faults : w'.faults = w.faults

theorem Parallel.refl (ss : List Scope) : Parallel ss ss := ⟨fun _ => rfl, fun _ _ => rfl⟩

theorem isSome_distance (z : String) (ss : List Scope) : (distance? z ss).isSome = ss.any (·.contains z) :=
  List.findIdx?_isSome

variable {ss ss' : List Scope} {w w' : Walk}

theorem Abreast.rescope (h : Abreast ss ss' w w') (rs rs' : List Scope) :
    Abreast rs rs' { w with scopes := rs } { w' with scopes := rs' } := ⟨rfl, rfl, h.globals, h.faults⟩

theorem Abreast.fault (h : Abreast ss ss' w w') (t : Token) (cause : BindingFault) :
    Abreast ss ss' (w.fault t cause) (w'.fault t cause) := { h with faults := congrArg (· ++ _) h.faults }

theorem Abreast.use (h : Abreast ss ss' w w') (id id' : NodeId) (name name' : String) :
    Abreast ss ss' (w.use id name) (w'.use id' name') := by
  have same : ∀ (w : Walk) (id : NodeId) (name : String),
      (w.use id name).globals = w.globals ∧ (w.use id name).faults = w.faults := fun w id name => by
    unfold Walk.use
    split <;> exact ⟨rfl, rfl⟩
  obtain ⟨hg, hf⟩ := same w id name
  obtain ⟨hg', hf'⟩ := same w' id' name'
  exact ⟨(scopes_use ..).trans h.scopes, (scopes_use ..).trans h.scopes', by rw [hg, hg', h.globals],
    by rw [hf, hf', h.faults]⟩

theorem Abreast.read (h : Abreast ss ss' w w') (hs : Parallel ss ss') (id id' : NodeId) (t : Token) :
    Abreast ss ss' (w.read id t) (w'.read id' t) := by
  have hawaits : w.isInitializing t.lexeme = Walk.awaits t.lexeme ss := by rw [← h.scopes]; rfl
  have hawaits' : w'.isInitializing t.lexeme = Walk.awaits t.lexeme ss := by rw [← hs.awaits, ← h.scopes']; rfl
  unfold Walk.read
  rw [hawaits, hawaits', h.scopes, h.scopes', h.globals]
  split
  · rename_i hinitializing
    have hfound := hs.found _ hinitializing
    cases hd : distance? t.lexeme ss.tail <;> cases hd' : distance? t.lexeme ss'.tail <;>
      simp only [hd, hd', Option.isSome_none, Option.isSome_some, reduceCtorEq] at hfound
    · dsimp only
      split
      · exact h
      · exact h.fault _ _
    · exact ⟨h.scopes, h.scopes', h.globals, h.faults⟩
  · exact h.use _ _ _ _

theorem Abreast.self (h : Abreast ss ss' w w') (around : Surroundings) (id id' : NodeId) (t : Token) :
    Abreast ss ss' (w.self around id t) (w'.self around id' t) := by
  unfold Walk.self
  split
  · exact h.fault _ _
  · exact h.use _ _ _ _

theorem Abreast.inherited (h : Abreast ss ss' w w') (around : Surroundings) (id id' : NodeId) (t : Token) :
    Abreast ss ss' (w.inherited around id t) (w'.inherited around id' t) := by
  unfold Walk.inherited
  split
  · exact h.fault _ _
  · exact h.fault _ _
  · exact h.use _ _ _ _

theorem Abreast.ret (h : Abreast ss ss' w w') (around : Surroundings) (t : Token) (valued : Bool) :
    Abreast ss ss' (w.ret around t valued) (w'.ret around t valued) := by
  have first : Abreast ss ss' (if around.function = .none then w.fault t .returnAtTopLevel else w)
      (if around.function = .none then w'.fault t .returnAtTopLevel else w') := by
    split
    · exact h.fault _ _
    · exact h
  unfold Walk.ret
  dsimp only
  split
  · exact first.fault _ _
  · exact first

end Walk

open Walk

section Expressions

variable (around : Surroundings) (n : Nat) {ss ss' : List Scope}

mutual

/-- Over an expression both walks find the same faults. -/
theorem Expr.abreast_resolve (hs : Parallel ss ss') : ∀ (e : Expr) {w w' : Walk}, Abreast ss ss' w w' →
    Abreast ss ss' (e.resolve around w) ((e.shift n).resolve around w')
  | .literal _, _, _, h => h
  | .grouping e, _, _, h | .unary _ e, _, _, h | .get e _, _, _, h => e.abreast_resolve hs h
  | .binary left _ right, _, _, h | .logical left _ right, _, _, h =>
    right.abreast_resolve hs (left.abreast_resolve hs h)
  | .read id name, _, _, h => h.read hs id (id + n) name
  | .assign id name value, _, _, h => (value.abreast_resolve hs h).use id (id + n) name.lexeme name.lexeme
  | .call callee _ arguments, _, _, h => Expr.abreast_resolveEach hs arguments (callee.abreast_resolve hs h)
  | .set object _ value, _, _, h => object.abreast_resolve hs (value.abreast_resolve hs h)
  | .self id keyword, _, _, h => h.self around id (id + n) keyword
  | .inherited id keyword _, _, _, h => h.inherited around id (id + n) keyword

theorem Expr.abreast_resolveEach (hs : Parallel ss ss') : ∀ (es : List Expr) {w w' : Walk}, Abreast ss ss' w w' →
    Abreast ss ss' (Expr.resolveEach around es w) (Expr.resolveEach around (Expr.shiftEach n es) w')
  | [], _, _, h => h
  | e :: rest, _, _, h => Expr.abreast_resolveEach hs rest (e.abreast_resolve hs h)

end

theorem Expr.abreast_resolveOption (hs : Parallel ss ss') (e : Option Expr) {w w' : Walk}
    (h : Abreast ss ss' w w') :
    Abreast ss ss' (Expr.resolveOption around e w) (Expr.resolveOption around (e.map (Expr.shift n)) w') := by
  cases e with
  | none => exact h
  | some e => exact e.abreast_resolve around n hs h

end Expressions

/-- No scope is walking an initial value. -/
def Still (ss : List Scope) : Prop := ∀ scope ∈ ss, ∀ z : String, scope[z]? ≠ some .declared

theorem awaits_of_still {ss : List Scope} (h : Still ss) (z : String) : awaits z ss = false := by
  cases ss with
  | nil => rfl
  | cons scope rest =>
    rw [awaits, beq_eq_false_iff_ne]
    exact h scope List.mem_cons_self z

theorem still_define {scope : Scope} {rest : List Scope} (h : Still (scope :: rest)) (x : String) :
    Still (scope.insert x .defined :: rest) := by
  intro s hs z
  rcases List.mem_cons.mp hs with rfl | hs
  · rw [Std.ExtTreeMap.getElem?_insert]
    split
    · simp
    · exact h scope List.mem_cons_self z
  · exact h s (List.mem_cons_of_mem _ hs) z

/-- Outer scopes of two walks in which all names but one are bound in both or in neither. -/
structure Flanks (y : String) (left right : List Scope) : Prop where
  quiet : ∀ z, awaits z left = false
  quiet' : ∀ z, awaits z right = false
  found : ∀ z, z ≠ y → left.any (·.contains z) = right.any (·.contains z)

theorem Flanks.parallel {y : String} {left right : List Scope} (h : Flanks y left right) {inner : List Scope}
    (hi : Still inner) : Parallel (inner ++ left) (inner ++ right) := by
  have hquiet : ∀ z, awaits z (inner ++ left) = false ∧ awaits z (inner ++ right) = false := by
    intro z
    cases inner with
    | nil => exact ⟨h.quiet z, h.quiet' z⟩
    | cons scope rest => exact ⟨awaits_of_still hi z, awaits_of_still hi z⟩
  exact ⟨fun z => (hquiet z).2.trans (hquiet z).1.symm, fun z hz => by rw [(hquiet z).1] at hz; cases hz⟩

theorem Flanks.distance {y : String} {left right : List Scope} (h : Flanks y left right) (inner : List Scope)
    {z : String} (hz : z ≠ y) : (distance? z (inner ++ right)).isSome = (distance? z (inner ++ left)).isSome := by
  rw [isSome_distance, isSome_distance, List.any_append, List.any_append, h.found z hz]

section Statements

variable (around : Surroundings) (n : Nat)

/-- A local variable whose name is not bound around one walk but is around the other has no initial value. -/
theorem abreast_var {scope : Scope} {rest rest' : List Scope} {w w' : Walk} {name : Token} {initial : Option Expr}
    (h : Abreast (scope :: rest) (scope :: rest') w w') (hscope : Still [scope])
    (hfound : initial ≠ none → (distance? name.lexeme rest').isSome = (distance? name.lexeme rest).isSome) :
    Abreast (scope.insert name.lexeme .defined :: rest) (scope.insert name.lexeme .defined :: rest')
      ((Stmt.var name initial).resolve around w) (((Stmt.var name initial).shift n).resolve around w') := by
  have hdeclared : ∃ s : Scope, Abreast (s :: rest) (s :: rest') (w.declare name) (w'.declare name) ∧
      s.insert name.lexeme .defined = scope.insert name.lexeme .defined ∧
        ∀ z, awaits z (s :: rest) = true → z = name.lexeme := by
    unfold Walk.declare
    rw [h.scopes, h.scopes']
    dsimp only
    split
    · refine ⟨scope, h.fault _ _, rfl, fun z hz => ?_⟩
      have hquiet : awaits z [scope] = false := awaits_of_still hscope z
      exact absurd (hquiet.symm.trans hz) (by simp)
    · refine ⟨scope.insert name.lexeme .declared, h.rescope _ _, ?_, fun z hz => ?_⟩
      · refine Std.ExtTreeMap.ext_getElem? fun z => ?_
        simp only [Std.ExtTreeMap.getElem?_insert]
        split <;> rfl
      · by_contra hne
        rw [awaits, Std.ExtTreeMap.getElem?_insert, if_neg (by simpa using Ne.symm hne)] at hz
        exact hscope scope (by simp) z (eq_of_beq hz)
  obtain ⟨s, hdeclare, hinsert, hawaits⟩ := hdeclared
  have hvalue : Abreast (s :: rest) (s :: rest') (Expr.resolveOption around initial (w.declare name))
      (Expr.resolveOption around (initial.map (Expr.shift n)) (w'.declare name)) := by
    cases initial with
    | none => exact hdeclare
    | some e =>
      have hparallel : Parallel (s :: rest) (s :: rest') := ⟨fun _ => rfl, fun z hz => by
        rw [hawaits z hz]
        exact hfound (by simp)⟩
      exact e.abreast_resolve around n hparallel hdeclare
  rw [← hinsert]
  change Abreast _ _ (Walk.define name _) (Walk.define name _)
  unfold Walk.define
  rw [hvalue.scopes, hvalue.scopes']
  exact hvalue.rescope _ _

variable {y : String} {left right : List Scope}

theorem Still.push {inner : List Scope} (h : Still inner) : Still (∅ :: inner) := by
  intro s hs z
  rcases List.mem_cons.mp hs with rfl | hs
  · simp
  · exact h s hs z

/-- In blocks the scopes beside the outer ones are the same in both walks. -/
theorem abreast_block {inner : List Scope} {w w' : Walk} (h : Abreast (inner ++ left) (inner ++ right) w w')
    {walk walk' : Walk → Walk} (hwalk : ∀ w w', Abreast (∅ :: inner ++ left) (∅ :: inner ++ right) w w' →
      ∃ scope, Abreast (scope :: inner ++ left) (scope :: inner ++ right) (walk w) (walk' w')) :
    Abreast (inner ++ left) (inner ++ right) (w.inScope [] walk) (w'.inScope [] walk') := by
  unfold Walk.inScope
  rw [h.scopes, h.scopes']
  obtain ⟨scope, hin⟩ := hwalk _ _ (h.rescope (∅ :: inner ++ left) (∅ :: inner ++ right))
  refine ⟨?_, ?_, hin.globals, hin.faults⟩
  · exact congrArg List.tail hin.scopes
  · exact congrArg List.tail hin.scopes'

mutual

/-- Over a statement that leaves the name alone both walks find the same faults. -/
theorem Stmt.abreast_resolve (hf : Flanks y left right) : ∀ (s : Stmt) {bound : Prop} {inner : List Scope}
    {w w' : Walk}, s.Clear y bound → s.declares = [] → Still inner → Abreast (inner ++ left) (inner ++ right) w w' →
      Abreast (inner ++ left) (inner ++ right) (s.resolve around w) ((s.shift n).resolve around w')
  | .expression e, _, _, _, _, _, _, hi, h | .print e, _, _, _, _, _, _, hi, h => e.abreast_resolve around n (hf.parallel hi) h
  | .block body, _, _, _, _, hc, _, hi, h =>
    abreast_block h fun _ _ h => Stmt.abreast_resolveEach hf body hc hi.push h
  | .branch condition yes no, _, _, _, _, hc, _, hi, h =>
    Stmt.abreast_resolveOption hf no hc.2.2.2 hi
      (yes.abreast_resolve hf hc.2.1 hc.2.2.1 hi (condition.abreast_resolve around n (hf.parallel hi) h))
  | .loop condition body, _, _, _, _, hc, _, hi, h =>
    body.abreast_resolve hf hc.2.1 hc.2.2 hi (condition.abreast_resolve around n (hf.parallel hi) h)
  | .ret keyword none, _, _, _, _, _, _, _, h => h.ret around keyword false
  | .ret keyword (some e), _, _, _, _, _, _, hi, h => e.abreast_resolve around n (hf.parallel hi) (h.ret around keyword true)
  | .var _ _, _, _, _, _, _, hd, _, _ => absurd hd (List.cons_ne_nil _ _)
  | .function _, _, _, _, _, hc, _, _, _ | .classDecl _ _ _, _, _, _, _, hc, _, _, _ => hc.elim

theorem Stmt.abreast_resolveEach (hf : Flanks y left right) : ∀ (body : List Stmt) {bound : Prop} {scope : Scope}
    {inner : List Scope} {w w' : Walk}, Stmt.ClearEach y bound body → Still (scope :: inner) →
      Abreast (scope :: inner ++ left) (scope :: inner ++ right) w w' →
        ∃ scope, Abreast (scope :: inner ++ left) (scope :: inner ++ right) (Stmt.resolveEach around body w)
          (Stmt.resolveEach around (Stmt.shiftEach n body) w')
  | [], _, scope, _, _, _, _, _, h => ⟨scope, h⟩
  | s :: rest, _, scope, inner, w, w', hc, hi, h => by
    have hfirst := fun hd => s.abreast_resolve hf hc.1 hd hi h
    have hrest {scope : Scope} (hi : Still (scope :: inner))
        (h : Abreast (scope :: inner ++ left) (scope :: inner ++ right) (s.resolve around w)
          ((s.shift n).resolve around w')) := Stmt.abreast_resolveEach hf rest hc.2 hi h
    cases s with
    | var name initial =>
      have hscope : Still [scope] := fun s hs => hi s (by simp_all)
      exact hrest (still_define hi name.lexeme)
        (abreast_var around n h hscope fun hinitial => hf.distance inner fun e => hinitial (hc.1.1 e))
    | function | classDecl => exact hc.1.elim
    | expression | print | block | branch | loop | ret => exact hrest hi (hfirst rfl)

theorem Stmt.abreast_resolveOption (hf : Flanks y left right) : ∀ (s : Option Stmt) {bound : Prop}
    {inner : List Scope} {w w' : Walk}, Stmt.ClearOption y bound s → Still inner →
      Abreast (inner ++ left) (inner ++ right) w w' →
        Abreast (inner ++ left) (inner ++ right) (Stmt.resolveOption around s w)
          (Stmt.resolveOption around (Stmt.shiftOption n s) w')
  | none, _, _, _, _, _, _, h => h
  | some s, _, _, _, _, hc, hi, h => s.abreast_resolve hf hc.1 hc.2 hi h

end

end Statements

section Copies

open Grammar

variable (around : Surroundings) {n : Nat} {rs ss ss' : List Scope} {w w' : Walk}

theorem abreast_use_alone (h : Abreast rs ss w w') (id : NodeId) (x : String) : Abreast rs ss (w.use id x) w' := by
  unfold Walk.use
  split
  · exact ⟨h.scopes, h.scopes', h.globals, h.faults⟩
  · exact h

theorem abreast_read_alone (h : Abreast rs ss w w') (id : NodeId) {t : Token}
    (hfound : awaits t.lexeme rs = true → (distance? t.lexeme rs.tail).isSome) : Abreast rs ss (w.read id t) w' := by
  have hawaits : w.isInitializing t.lexeme = awaits t.lexeme rs := by rw [← h.scopes]; rfl
  unfold Walk.read
  rw [hawaits, h.scopes]
  split
  · rename_i hinitializing
    obtain ⟨d, hd⟩ := Option.isSome_iff_exists.mp (hfound hinitializing)
    rw [hd]
    exact ⟨h.scopes, h.scopes', h.globals, h.faults⟩
  · exact abreast_use_alone h _ _

/-- A scope in which just one name is declared. -/
def single (x : String) : Scope := ((∅ : Scope).insert x .declared).insert x .defined

theorem single_contains (x z : String) : (single x).contains z = decide (z = x) := by
  rw [Bool.eq_iff_iff, decide_eq_true_iff, ← Std.ExtTreeMap.mem_iff_contains, single, Std.ExtTreeMap.mem_insert,
    Std.ExtTreeMap.mem_insert, Std.LawfulEqCmp.compare_eq_iff_eq, or_iff_left Std.ExtTreeMap.not_mem_empty, or_self,
    eq_comm]

theorem awaits_single (x z : String) : awaits z (single x :: rs) = false := by
  rw [awaits, beq_eq_false_iff_ne, single, Std.ExtTreeMap.getElem?_insert]
  split
  · simp
  · rename_i h
    simp [h]

/-- The first variable of a block, whose initial value is that of a variable of the same name around it. -/
theorem abreast_var_alone (h : Abreast (∅ :: rs) ss w w') (name : Token) (initial : Option Expr)
    (hinitial : ∀ e ∈ initial, ∃ id, e = .read id name ∧ (distance? name.lexeme rs).isSome) :
    Abreast (single name.lexeme :: rs) ss ((Stmt.var name initial).resolve around w) w' := by
  have hdeclare : Abreast ((∅ : Scope).insert name.lexeme .declared :: rs) ss (w.declare name) w' := by
    unfold Walk.declare
    rw [h.scopes]
    exact ⟨rfl, h.scopes', h.globals, h.faults⟩
  have hvalue : Abreast ((∅ : Scope).insert name.lexeme .declared :: rs) ss
      (Expr.resolveOption around initial (w.declare name)) w' := by
    cases initial with
    | none => exact hdeclare
    | some e =>
      obtain ⟨id, rfl, hfound⟩ := hinitial e rfl
      exact abreast_read_alone hdeclare id fun _ => hfound
  change Abreast _ _ (Walk.define name _) w'
  unfold Walk.define
  rw [hvalue.scopes]
  exact ⟨rfl, hvalue.scopes', hvalue.globals, hvalue.faults⟩

theorem abreast_copy_alone (h : Abreast rs ss w w') (id : NodeId) (target source : Token)
    (hquiet : ∀ z, awaits z rs = false) : Abreast rs ss ((copy id target source).resolve around w) w' :=
  abreast_use_alone (abreast_read_alone h (id + 1) fun hz => by rw [hquiet] at hz; cases hz) _ _

theorem abreast_inScope_alone (scope : Scope) {walk : Walk → Walk} (h : w.scopes = rs)
    (hwalk : Abreast (scope :: rs) ss (walk { w with scopes := ∅ :: rs }) w') : Abreast rs ss (w.inScope [] walk) w' := by
  subst h
  exact ⟨congrArg List.tail hwalk.scopes, hwalk.scopes', hwalk.globals, hwalk.faults⟩

/-- The copy and the carrier are walked without faults, and the body between them as by itself. -/
theorem abreast_iteration (h : Abreast ss ss w w') (id : NodeId) {name : Token} {body : Stmt}
    (hquiet : ∀ z, awaits z ss = false) (hname : ss.any (·.contains name.lexeme) = true)
    (hclear : body.Clear (carrier name).lexeme False) (hdeclares : body.declares = []) :
    Abreast ss ss ((iteration id name body).resolve around w) ((body.shift n).resolve around w') := by
  refine abreast_inScope_alone (single (carrier name).lexeme) h.scopes ?_
  refine abreast_copy_alone around ?_ (id + 3) name (carrier name) (awaits_single (carrier name).lexeme)
  have hopen : Abreast (∅ :: ss) ss { w with scopes := ∅ :: ss } w' := ⟨rfl, h.scopes', h.globals, h.faults⟩
  have hcarrier := abreast_var_alone around hopen (carrier name) none fun _ he => by cases he
  refine abreast_inScope_alone (single name.lexeme) hcarrier.scopes ?_
  refine abreast_copy_alone around ?_ (id + 1) (carrier name) name (awaits_single name.lexeme)
  have hinside : Abreast (∅ :: single (carrier name).lexeme :: ss) ss
      { (Stmt.var (carrier name) none).resolve around { w with scopes := ∅ :: ss } with
        scopes := ∅ :: single (carrier name).lexeme :: ss } w' :=
    ⟨rfl, hcarrier.scopes', hcarrier.globals, hcarrier.faults⟩
  have hcopy := abreast_var_alone around hinside name (some (.read id name)) fun e he => by
    refine ⟨id, (Option.some.inj he).symm, ?_⟩
    rw [isSome_distance, List.any_cons, hname, Bool.or_true]
  have hflanks : Flanks (carrier name).lexeme (single name.lexeme :: single (carrier name).lexeme :: ss) ss := by
    refine ⟨awaits_single _, hquiet, fun z hz => ?_⟩
    rw [List.any_cons, List.any_cons, single_contains, single_contains, decide_eq_false hz, Bool.false_or]
    by_cases hx : z = name.lexeme
    · rw [hx, hname, Bool.or_true]
    · rw [decide_eq_false hx, Bool.false_or]
  have hstill : Still [] := nofun
  exact body.abreast_resolve around n hflanks hclear hdeclares hstill hcopy

theorem VarLoop.abreast_round (ℓ : VarLoop) {scope : Scope} (h : Abreast (scope :: ss) (scope :: ss) w w')
    (hstill : Still [scope]) (hfound : scope.contains ℓ.name.lexeme = true)
    (hclear : ℓ.body.Clear (carrier ℓ.name).lexeme False) (hdeclares : ℓ.body.declares = []) (id : NodeId) :
    Abreast (scope :: ss) (scope :: ss) ((ℓ.round (iteration id ℓ.name ℓ.body)).resolve around w)
      (((ℓ.round ℓ.body).shift n).resolve around w') := by
  have hquiet : ∀ scope rest, Still (scope :: rest) → ∀ z, awaits z (scope :: rest ++ ss) = false :=
    fun _ _ hs z => awaits_of_still hs z
  unfold VarLoop.round
  cases ℓ.increment with
  | none =>
    refine abreast_iteration around h id (hquiet _ _ hstill) ?_ hclear hdeclares
    rw [List.any_cons, hfound, Bool.true_or]
  | some e =>
    refine abreast_block (show Abreast ([scope] ++ ss) ([scope] ++ ss) w w' from h) fun w w' h => ⟨∅, ?_⟩
    refine e.abreast_resolve around n (.refl _)
      (abreast_iteration around h id (hquiet _ _ hstill.push) ?_ hclear hdeclares)
    rw [List.cons_append, List.any_cons, List.cons_append, List.any_cons, hfound, Bool.true_or, Bool.or_true]

/-- Both lowerings of a loop are walked with the same faults. -/
theorem VarLoop.abreast_resolve (ℓ : VarLoop) (hclear : ℓ.body.Clear (carrier ℓ.name).lexeme False)
    (hdeclares : ℓ.body.declares = []) (id : NodeId) (h : Abreast ss ss w w') :
    Abreast ss ss ((ℓ.copying id).resolve around w) ((ℓ.plain.shift n).resolve around w') := by
  rw [ℓ.copying_eq, ℓ.plain_eq]
  refine abreast_block (show Abreast ([] ++ ss) ([] ++ ss) w w' from h) fun w w' h =>
    ⟨(∅ : Scope).insert ℓ.name.lexeme .defined, ?_⟩
  have hempty : Still [∅] := fun s hs z => by simp_all
  have hvar : Abreast ((∅ : Scope).insert ℓ.name.lexeme .defined :: ss) _
      ((Stmt.var ℓ.name ℓ.initial).resolve around w) _ := abreast_var around n h hempty fun _ => rfl
  have htest := ℓ.test.abreast_resolve around n (.refl _) hvar
  exact ℓ.abreast_round around htest (still_define hempty _) Std.ExtTreeMap.contains_insert_self hclear hdeclares id

end Copies

end LoxLang
