import LoxLang.Proofs.Counting.Gaps
import LoxLang.Proofs.Derivation.Program
import LoxLang.Proofs.Derivation.Spelling
import LoxLang.Proofs.Grammar.Sources

/-! No name that a source can spell is that of a carrier. In a program that was read, such a name stands only where a
loop was unrolled, and so it does not stand in the body of a loop but for the loops inside. -/

namespace LoxLang

open Grammar

/-- The name is not used in the expression. -/
def Expr.Lacks (y : String) (e : Expr) : Prop := ∀ u ∈ e.uses, u.token.lexeme ≠ y

/-- The name stands nowhere but where a loop body has a copy of the variable, and there it is that of the carrier. -/
inductive Stmt.Neat (y : String) : Stmt → Prop
  | expression {e : Expr} : e.Lacks y → Neat y (.expression e)
  | print {e : Expr} : e.Lacks y → Neat y (.print e)
  | var {name : Token} {initial : Option Expr} :
    name.lexeme ≠ y → (∀ e ∈ initial, e.Lacks y) → Neat y (.var name initial)
  | block {body : List Stmt} : (∀ s ∈ body, Neat y s) → Neat y (.block body)
  | branch {condition : Expr} {yes : Stmt} {no : Option Stmt} :
    condition.Lacks y → Neat y yes → (∀ s ∈ no, Neat y s) → Neat y (.branch condition yes no)
  | loop {condition : Expr} {body : Stmt} : condition.Lacks y → Neat y body → Neat y (.loop condition body)
  | function {f : Function} : (∀ s ∈ f.body, Neat y s) → Neat y (.function f)
  | ret {keyword : Token} {value : Option Expr} : (∀ e ∈ value, e.Lacks y) → Neat y (.ret keyword value)
  | classDecl {name : Token} {superclass : Option NameUse} {methods : List Function} :
    (∀ f ∈ methods, ∀ s ∈ f.body, Neat y s) → Neat y (.classDecl name superclass methods)
  | copying {quoted x : Token} {initial : Option Expr} {body : Stmt} {back out : Expr} :
    quoted.lexeme = y → x.lexeme ≠ y → Neat y body → body.declares = [] →
      Neat y (.block [.var quoted none, .block [.var x initial, body, .expression back], .expression out])

section Clearness

variable {y : String}

theorem Stmt.closurelessEach_iff {body : List Stmt} : Stmt.ClosurelessEach body ↔ ∀ s ∈ body, s.Closureless := by
  induction body with
  | nil => simp [Stmt.ClosurelessEach]
  | cons s rest ih => rw [Stmt.ClosurelessEach, ih, List.forall_mem_cons]

theorem Stmt.clearEach_of_forall {body : List Stmt} : (∀ s ∈ body, s.Clear y False) → ∀ bound, Stmt.ClearEach y bound body := by
  induction body with
  | nil => exact fun _ _ => trivial
  | cons s rest ih =>
    intro h bound
    rw [List.forall_mem_cons] at h
    exact ⟨h.1.mono False.elim, ih h.2 _⟩

/-- Where no function and no class is declared, all uses of the name are bound by the carriers inside. -/
theorem Stmt.Neat.clear {s : Stmt} (h : s.Neat y) : s.Tidy → s.Closureless → s.Clear y False := by
  induction h with
  | expression he | print he => exact fun _ _ => .inr he
  | var hname hinitial => exact fun _ _ => ⟨fun e => absurd e hname, fun e he => .inr (hinitial e he)⟩
  | block hbody ih =>
    intro htidy hfree
    have hfree := Stmt.closurelessEach_iff.mp hfree
    have htidy := Stmt.tidyEach_iff.mp htidy
    exact Stmt.clearEach_of_forall (fun s hs => ih s hs (htidy s hs) (hfree s hs)) False
  | @branch condition yes no hcondition hyes hno ihyes ihno =>
    rintro ⟨htidy, hdeclares, htidy'⟩ ⟨hfree, hfree'⟩
    refine ⟨.inr hcondition, ihyes htidy hfree, hdeclares, ?_⟩
    cases no with
    | none => trivial
    | some s => exact ⟨ihno s rfl htidy'.1 hfree', htidy'.2⟩
  | loop hcondition hbody ih => exact fun ⟨htidy, hdeclares⟩ hfree => ⟨.inr hcondition, ih htidy hfree, hdeclares⟩
  | function | classDecl => exact fun _ hfree => hfree.elim
  | ret hvalue => exact fun _ _ e he => .inr (hvalue e he)
  | @copying quoted x initial body back out hquoted hx hbody hdeclares ih =>
    rintro ⟨-, ⟨-, htidy, -⟩, -⟩ ⟨-, ⟨-, hfree, -⟩, -⟩
    have hbound : False ∨ y ∈ [quoted.lexeme] := .inr (List.mem_singleton.mpr hquoted.symm)
    have hinside : body.Clear y ((False ∨ y ∈ [quoted.lexeme]) ∨ y ∈ [x.lexeme]) := (ih htidy hfree).mono False.elim
    refine ⟨⟨fun _ => rfl, by simp⟩, ⟨⟨fun e => absurd e hx, fun e _ => .inl hbound⟩, hinside, .inl ?_, trivial⟩, .inl ?_,
      trivial⟩
    · exact .inl (.inl hbound)
    · exact .inl hbound

theorem Gap.fill_ne {ℓ : VarLoop} {id : NodeId} (g : Gap) :
    (∀ name initial, g.fill (ℓ.copying id) ≠ .var name initial) ∧ ∀ e, g.fill (ℓ.copying id) ≠ .expression e := by
  cases g <;> exact ⟨fun _ _ => Stmt.noConfusion, fun _ => Stmt.noConfusion⟩

theorem Stmt.Neat.of_block {body : List Stmt} (h : (Stmt.block body).Neat y) : (∀ s ∈ body, s.Neat y) ∨
    ∃ quoted x initial inner back out, inner.Neat y ∧ inner.declares = [] ∧
      body = [.var quoted none, .block [.var x initial, inner, .expression back], .expression out] := by
  cases h with
  | block h => exact .inl h
  | copying hquoted hx hbody hdeclares => exact .inr ⟨_, _, _, _, _, _, hbody, hdeclares, rfl⟩

/-- What holds of a program holds of a loop in it. -/
theorem Gap.neat_fill {ℓ : VarLoop} {id : NodeId} : ∀ g : Gap, (g.fill (ℓ.copying id)).Neat y → (ℓ.copying id).Neat y
  | .here, h => h
  | .block before inner after, h => by
    rcases h.of_block with h | ⟨quoted, x, initial, body, back, out, hbody, -, e⟩
    · exact inner.neat_fill (h _ (List.mem_append_right _ List.mem_cons_self))
    · have hmem : inner.fill (ℓ.copying id) ∈ before ++ inner.fill (ℓ.copying id) :: after :=
        List.mem_append_right _ List.mem_cons_self
      rw [e] at hmem
      -- only the body of the copy may hold the loop
      have hinner : inner.fill (ℓ.copying id) = .block [.var x initial, body, .expression back] := by
        simpa [inner.fill_ne.1, inner.fill_ne.2] using hmem
      cases inner with
      | here =>
        have h := Stmt.block.inj hinner
        cases h
      | block before' inner after' =>
        have hmem' : inner.fill (ℓ.copying id) ∈ before' ++ inner.fill (ℓ.copying id) :: after' :=
          List.mem_append_right _ List.mem_cons_self
        rw [Stmt.block.inj hinner] at hmem'
        have hbody' : inner.fill (ℓ.copying id) = body := by
          simpa [inner.fill_ne.1, inner.fill_ne.2] using hmem'
        exact inner.neat_fill (hbody' ▸ hbody)
      | _ => cases hinner
  | .branch condition inner no, h => by
    cases h with
    | branch _ hyes _ => exact inner.neat_fill hyes
  | .branchElse condition yes inner, h => by
    cases h with
    | branch _ _ hno => exact inner.neat_fill (hno _ rfl)
  | .loop condition inner, h => by
    cases h with
    | loop _ hbody => exact inner.neat_fill hbody
  | .function name parameters before inner after, h => by
    cases h with
    | function hbody => exact inner.neat_fill (hbody _ (List.mem_append_right _ List.mem_cons_self))
  | .method cls superclass earlier name parameters before inner after later, h => by
    cases h with
    | classDecl hmethods =>
      exact inner.neat_fill (hmethods _ (List.mem_append_right _ List.mem_cons_self) _
        (List.mem_append_right _ List.mem_cons_self))

theorem neat_iteration {id : NodeId} {x : Token} {body : Stmt} (h : (iteration id x body).Neat (carrier x).lexeme) :
    body.Neat (carrier x).lexeme ∧ body.declares = [] := by
  rcases h.of_block with h | ⟨quoted, x', initial, inner, back, out, hinner, hdeclares, e⟩
  · have hvar : (Stmt.var (carrier x) none).Neat (carrier x).lexeme := h _ List.mem_cons_self
    cases hvar with
    | var hname _ => exact absurd rfl hname
  · cases e
    exact ⟨hinner, hdeclares⟩

/-- What the user wrote in a loop. -/
theorem VarLoop.neat_parts {ℓ : VarLoop} {id : NodeId} (h : (ℓ.copying id).Neat (carrier ℓ.name).lexeme) :
    ℓ.test.Lacks (carrier ℓ.name).lexeme ∧ (∀ e ∈ ℓ.increment, e.Lacks (carrier ℓ.name).lexeme) ∧
      ℓ.body.Neat (carrier ℓ.name).lexeme ∧ ℓ.body.declares = [] := by
  rw [VarLoop.copying_eq] at h
  rcases h.of_block with h | ⟨_, _, _, _, _, _, -, -, e⟩
  · have hloop : (Stmt.loop ℓ.test (ℓ.round (iteration id ℓ.name ℓ.body))).Neat (carrier ℓ.name).lexeme := h _ (by simp)
    cases hloop with
    | loop htest hround =>
      unfold VarLoop.round at hround
      cases hincrement : ℓ.increment with
      | none =>
        rw [hincrement] at hround
        exact ⟨htest, nofun, neat_iteration hround⟩
      | some e =>
        rw [hincrement] at hround
        rcases hround.of_block with h | ⟨_, _, _, _, _, _, -, -, e⟩
        · have hexpression : (Stmt.expression e).Neat (carrier ℓ.name).lexeme := h _ (by simp)
          cases hexpression with
          | expression he =>
            refine ⟨htest, fun e' he' => ?_, neat_iteration (h _ List.mem_cons_self)⟩
            obtain rfl := Option.some.inj he'
            exact he
        · exact absurd (congrArg List.length e) (by simp)
  · exact absurd (congrArg List.length e) (by simp)

end Clearness

section Readings

variable {y : String} {ts us : List Token}

/-- No name in the tokens is this one. -/
def Unspelled (y : String) (ts : List Token) : Prop := ∀ t, Spells ts t → t.lexeme ≠ y

theorem Unspelled.mono (h : Unspelled y us) (hs : ts ⊆ us) : Unspelled y ts := fun t ht => h t (ht.mono hs)

theorem Expr.lacks_of_derivation {e : Expr} {s : Symbol} {d : Derivation s} (h : e.unnumbered = d.tree)
    (hy : Unspelled y d.tokens) : e.Lacks y := fun u hu => hy _ (Expr.spells_of_derivation h u hu)

theorem Expr.lacks_of_option {e : Option Expr} {d : Option (Derivation .expression)}
    (h : Expr.unnumberedOption e = Derivation.treeOption d) (hy : Unspelled y (Derivation.tokensOption d)) :
    ∀ e' ∈ e, e'.Lacks y := fun e' he u hu => hy _ (Expr.spells_of_option h e' he u hu)

theorem VariableDerivation.neat {lenient : Bool} (v : VariableDerivation lenient) {s : Stmt} (h : s.unnumbered = v.tree)
    (hy : Unspelled y v.tokens) : ∃ initial, s = .var v.name.1 initial ∧ v.name.1.lexeme ≠ y ∧ ∀ e ∈ initial, e.Lacks y := by
  obtain ⟨keyword, name, value, ending⟩ := v
  cases s with
  | var name' initial =>
    obtain ⟨rfl, hvalue⟩ := Stmt.var.inj h
    refine ⟨initial, rfl, hy _ (spells_identifier (by simp [VariableDerivation.tokens])), fun e he => ?_⟩
    obtain rfl := Option.mem_def.mp he
    cases value with
    | none => cases hvalue
    | some equals value =>
      refine Expr.lacks_of_derivation (d := value) (Option.some.inj hvalue) (hy.mono fun t ht => ?_)
      simp [VariableDerivation.tokens, InitialValue.tokens, ht]
  | _ => cases h

variable {lenient : Bool}

theorem Stmt.of_unnumbered_block {s : Stmt} {ts : List Stmt} (h : s.unnumbered = .block ts) :
    ∃ body, s = .block body ∧ Stmt.unnumberedEach body = ts := by
  cases s with
  | block body => exact ⟨body, rfl, Stmt.block.inj h⟩
  | _ => cases h

theorem Stmt.of_unnumbered_loop {s t : Stmt} {e : Expr} (h : s.unnumbered = .loop e t) :
    ∃ condition body, s = .loop condition body ∧ condition.unnumbered = e ∧ body.unnumbered = t := by
  cases s with
  | loop condition body => exact ⟨condition, body, rfl, Stmt.loop.inj h⟩
  | _ => cases h

theorem Stmt.of_unnumbered_expression {s : Stmt} {e : Expr} (h : s.unnumbered = .expression e) :
    ∃ e', s = .expression e' ∧ e'.unnumbered = e := by
  cases s with
  | expression e' => exact ⟨e', rfl, Stmt.expression.inj h⟩
  | _ => cases h

theorem Stmt.of_unnumbered_var {s : Stmt} {name : Token} {initial : Option Expr} (h : s.unnumbered = .var name initial) :
    ∃ initial', s = .var name initial' ∧ Expr.unnumberedOption initial' = initial := by
  cases s with
  | var name' initial' =>
    obtain ⟨rfl, hinitial⟩ := Stmt.var.inj h
    exact ⟨initial', rfl, hinitial⟩
  | _ => cases h

theorem Stmt.of_unnumbered_pair {body : List Stmt} {s t : Stmt} (h : Stmt.unnumberedEach body = [s, t]) :
    ∃ s' t', body = [s', t'] ∧ s'.unnumbered = s ∧ t'.unnumbered = t := by
  match body, h with
  | [s', t'], h =>
    simp only [unnumberedEach, List.cons.injEq, and_true] at h
    exact ⟨s', t', rfl, h⟩
  | s' :: t' :: u :: _, h => simp [unnumberedEach] at h

theorem Stmt.of_unnumbered_triple {body : List Stmt} {s t u : Stmt} (h : Stmt.unnumberedEach body = [s, t, u]) :
    ∃ s' t' u', body = [s', t', u'] ∧ s'.unnumbered = s ∧ t'.unnumbered = t ∧ u'.unnumbered = u := by
  match body, h with
  | [s', t', u'], h =>
    simp only [unnumberedEach, List.cons.injEq, and_true] at h
    exact ⟨s', t', u', rfl, h⟩
  | s' :: t' :: u' :: v :: _, h => simp [unnumberedEach] at h

/-- A loop body with a copy of the variable. -/
theorem neat_withOwn {x : Token} {body s : Stmt} (h : s.unnumbered = .withOwn x body) (hx : x.lexeme ≠ y)
    (hbody : ∀ b : Stmt, b.unnumbered = body → b.Neat y) (hdeclares : body.declares = []) : s.Neat y := by
  obtain ⟨outer, rfl, houter⟩ := Stmt.of_unnumbered_block h
  obtain ⟨quoted, inside, out, rfl, hquoted, hinside, hout⟩ := Stmt.of_unnumbered_triple houter
  obtain ⟨none', rfl, hnone⟩ := Stmt.of_unnumbered_var hquoted
  obtain ⟨inner, rfl, hinner⟩ := Stmt.of_unnumbered_block hinside
  obtain ⟨own, b, back, rfl, hown, hb, hback⟩ := Stmt.of_unnumbered_triple hinner
  obtain ⟨initial, rfl, hinitial⟩ := Stmt.of_unnumbered_var hown
  obtain ⟨out, rfl, hassign⟩ := Stmt.of_unnumbered_expression hout
  obtain ⟨back, rfl, hassign'⟩ := Stmt.of_unnumbered_expression hback
  obtain rfl : none' = none := by cases none' <;> first | rfl | cases hnone
  by_cases hq : x.lexeme ++ "'" = y
  · exact .copying hq hx (hbody b hb) (by rw [← b.declares_unnumbered, hb, hdeclares])
  -- the quoted name is another one, so it may stand anywhere
  have hlacks : ∀ (e : Expr) (source target : Token), e.unnumbered = .assign 0 target (.read 0 source) →
      source.lexeme ≠ y → target.lexeme ≠ y → e.Lacks y := by
    intro e source target he hsource htarget u hu
    have htoken : u.token ∈ e.unnumbered.uses.map Use.token := by
      rw [e.uses_unnumbered, List.map_map]
      exact List.mem_map_of_mem hu
    rw [he] at htoken
    simp only [Expr.uses, List.map_cons, List.map_nil, List.mem_cons, List.not_mem_nil, or_false] at htoken
    rcases htoken with h | h <;> rw [h] <;> assumption
  have hread : ∀ e ∈ initial, e.Lacks y := by
    intro e he u hu
    obtain rfl := Option.mem_def.mp he
    have htoken : u.token ∈ e.unnumbered.uses.map Use.token := by
      rw [e.uses_unnumbered, List.map_map]
      exact List.mem_map_of_mem hu
    rw [Option.some.inj hinitial] at htoken
    rw [List.mem_singleton.mp htoken]
    exact hx
  have hinside : (Stmt.block [.var x initial, b, .expression back]).Neat y := by
    refine .block ?_
    simp only [List.forall_mem_cons, List.not_mem_nil, false_imp_iff, implies_true, and_true]
    exact ⟨.var hx hread, hbody b hb, .expression (hlacks back _ _ hassign' hx hq)⟩
  refine .block ?_
  simp only [List.forall_mem_cons, List.not_mem_nil, false_imp_iff, implies_true, and_true]
  exact ⟨.var hq (fun _ he => by cases he), hinside, .expression (hlacks out _ _ hassign hq hx)⟩

theorem neat_round {increment : Option Expr} {body r : Stmt} (h : r.unnumbered = match increment with
      | some e => .block [body, .expression e]
      | none => body) (hincrement : ∀ t ∈ increment, ∀ e : Expr, e.unnumbered = t → e.Lacks y)
    (hbody : ∀ b : Stmt, b.unnumbered = body → b.Neat y) : r.Neat y := by
  cases increment with
  | none => exact hbody r h
  | some e =>
    obtain ⟨parts, rfl, hparts⟩ := Stmt.of_unnumbered_block h
    obtain ⟨b, last, rfl, hb, hlast⟩ := Stmt.of_unnumbered_pair hparts
    obtain ⟨e', rfl, he⟩ := Stmt.of_unnumbered_expression hlast
    refine .block ?_
    simp only [List.forall_mem_cons, List.not_mem_nil, false_imp_iff, implies_true, and_true]
    exact ⟨hbody b hb, .expression (hincrement e rfl e' he)⟩

/-- A counting loop, whatever comes first in it. -/
theorem neat_unrolled {first : Option Stmt} {condition increment : Option Expr} {body s : Stmt}
    (h : s.unnumbered = .unrolled first condition increment body)
    (hfirst : ∀ t ∈ first, ∀ s : Stmt, s.unnumbered = t → s.Neat y)
    (hcondition : ∀ e : Expr, e.unnumbered = condition.getD (.literal (.bool true)) → e.Lacks y)
    (hincrement : ∀ t ∈ increment, ∀ e : Expr, e.unnumbered = t → e.Lacks y)
    (hbody : ∀ b : Stmt, b.unnumbered = body → b.Neat y) : s.Neat y := by
  have hloop : ∀ {l : Stmt}, l.unnumbered = .unrolled none condition increment body → l.Neat y := by
    intro l hl
    obtain ⟨test, round, rfl, htest, hr⟩ := Stmt.of_unnumbered_loop hl
    exact .loop (hcondition test htest) (neat_round hr hincrement hbody)
  cases first with
  | none => exact hloop h
  | some t =>
    obtain ⟨parts, rfl, hparts⟩ := Stmt.of_unnumbered_block h
    obtain ⟨s', l, rfl, hs, hl⟩ := Stmt.of_unnumbered_pair hparts
    refine .block ?_
    simp only [List.forall_mem_cons, List.not_mem_nil, false_imp_iff, implies_true, and_true]
    exact ⟨hfirst t rfl s' hs, hloop hl⟩

theorem Expr.lacks_of_clause {d : Option (Derivation .expression)} (hy : Unspelled y (Derivation.tokensOption d)) :
    (∀ e : Expr, e.unnumbered = (Derivation.treeOption d).getD (.literal (.bool true)) → e.Lacks y) ∧
      ∀ t ∈ Derivation.treeOption d, ∀ e : Expr, e.unnumbered = t → e.Lacks y := by
  cases d with
  | none =>
    refine ⟨fun e he u hu => ?_, nofun⟩
    cases e with
    | literal => cases hu
    | _ => cases he
  | some d =>
    refine ⟨fun e he => Expr.lacks_of_derivation he hy, fun t ht e he => ?_⟩
    obtain rfl := Option.some.inj ht
    exact Expr.lacks_of_derivation he hy

mutual

/-- What was read has names of carriers only where loops were unrolled. -/
theorem StatementDerivation.neat : ∀ {hangs : Bool} (d : StatementDerivation lenient hangs) {s : Stmt},
    s.unnumbered = d.tree → Unspelled y d.tokens → s.Neat y
  | _, .expression e ending, s, h, hy => by
    cases s with
    | expression e' => exact .expression (Expr.lacks_of_derivation (Stmt.expression.inj h) (hy.mono (by simp [StatementDerivation.tokens])))
    | _ => cases h
  | _, .print keyword e ending, s, h, hy => by
    cases s with
    | print e' => exact .print (Expr.lacks_of_derivation (Stmt.print.inj h) (hy.mono fun t ht => by simp [StatementDerivation.tokens, ht]))
    | _ => cases h
  | _, .ret keyword value ending, s, h, hy => by
    cases s with
    | ret keyword' value' =>
      exact .ret (Expr.lacks_of_option (Stmt.ret.inj h).2 (hy.mono fun t ht => by simp [StatementDerivation.tokens, ht]))
    | _ => cases h
  | _, .block opening body closing, s, h, hy => by
    cases s with
    | block body' => exact .block (body.neat (Stmt.block.inj h) (hy.mono fun t ht => by simp [StatementDerivation.tokens, ht]))
    | _ => cases h
  | _, .branch keyword opening condition closing yes, s, h, hy => by
    cases s with
    | branch condition' yes' no' =>
      obtain ⟨hcondition, hyes, hno⟩ := Stmt.branch.inj h
      cases no' with
      | none =>
        refine .branch (Expr.lacks_of_derivation hcondition (hy.mono fun t ht => ?_))
          (yes.neat hyes (hy.mono fun t ht => ?_)) nofun <;> simp [StatementDerivation.tokens, ht]
      | some _ => cases hno
    | _ => cases h
  | _, .branchElse keyword opening condition closing yes otherwise no, s, h, hy => by
    cases s with
    | branch condition' yes' no' =>
      obtain ⟨hcondition, hyes, hno⟩ := Stmt.branch.inj h
      cases no' with
      | none => cases hno
      | some s' =>
        have hno := no.neat (Option.some.inj hno) (hy.mono fun t ht => by simp [StatementDerivation.tokens, ht])
        refine .branch (Expr.lacks_of_derivation hcondition (hy.mono fun t ht => ?_))
          (yes.neat hyes (hy.mono fun t ht => ?_)) fun s hs => ?_
        · simp [StatementDerivation.tokens, ht]
        · simp [StatementDerivation.tokens, ht]
        · obtain rfl := Option.some.inj hs
          exact hno
    | _ => cases h
  | _, .loop keyword opening condition closing body, s, h, hy => by
    cases s with
    | loop condition' body' =>
      obtain ⟨hcondition, hbody⟩ := Stmt.loop.inj h
      refine .loop (Expr.lacks_of_derivation hcondition (hy.mono fun t ht => ?_)) (body.neat hbody (hy.mono fun t ht => ?_)) <;>
        simp [StatementDerivation.tokens, ht]
    | _ => cases h
  | _, .counting keyword opening first condition semicolon increment closing body, s, h, hy => by
    have hbody : ∀ b : Stmt, b.unnumbered = body.tree → b.Neat y := fun b hb =>
      body.neat hb (hy.mono fun t ht => by simp [StatementDerivation.tokens, ht])
    obtain ⟨hcondition, -⟩ := Expr.lacks_of_clause (d := condition)
      (hy.mono fun t ht => by simp [StatementDerivation.tokens, ht])
    obtain ⟨-, hincrement⟩ := Expr.lacks_of_clause (d := increment)
      (hy.mono fun t ht => by simp [StatementDerivation.tokens, ht])
    rw [StatementDerivation.tree] at h
    cases first with
    | none =>
      rw [FirstClause.tree] at h
      exact neat_unrolled h nofun hcondition hincrement hbody
    | expression e ending =>
      rw [FirstClause.tree] at h
      refine neat_unrolled h (fun t ht s' hs => ?_) hcondition hincrement hbody
      obtain rfl := Option.some.inj ht
      obtain ⟨e', rfl, he⟩ := Stmt.of_unnumbered_expression hs
      exact .expression (Expr.lacks_of_derivation he
        (hy.mono fun t ht => by simp [StatementDerivation.tokens, FirstClause.tokens, ht]))
    | var v =>
      have hv : Unspelled y v.tokens := hy.mono fun t ht => by
        simp [StatementDerivation.tokens, FirstClause.tokens, ht]
      have hname : v.name.1.lexeme ≠ y := hv _ (spells_identifier (by simp [VariableDerivation.tokens]))
      rw [FirstClause.tree] at h
      refine neat_unrolled h (fun t ht s' hs => ?_) hcondition hincrement fun b hb => neat_withOwn hb hname hbody body.declares_tree
      obtain rfl := Option.some.inj ht
      obtain ⟨initial, rfl, hname, hinitial⟩ := v.neat hs hv
      exact .var hname hinitial

theorem DeclarationDerivation.neat : ∀ (d : DeclarationDerivation lenient) {s : Stmt}, s.unnumbered = d.tree →
    Unspelled y d.tokens → s.Neat y
  | .classDecl keyword name superclass opening methods closing, s, h, hy => by
    cases s with
    | classDecl name' superclass' methods' =>
      exact .classDecl (methods.neat (Stmt.classDecl.inj h).2.2 (hy.mono fun t ht => by simp [DeclarationDerivation.tokens, ht]))
    | _ => cases h
  | .function keyword f, s, h, hy => by
    cases s with
    | function f' => exact .function (f.neat (Stmt.function.inj h) (hy.mono fun t ht => by simp [DeclarationDerivation.tokens, ht]))
    | _ => cases h
  | .var v, s, h, hy => by
    obtain ⟨initial, rfl, hname, hinitial⟩ := v.neat h hy
    exact .var hname hinitial
  | .statement s', s, h, hy => s'.neat h hy

theorem DeclarationsDerivation.neat : ∀ (d : DeclarationsDerivation lenient) {body : List Stmt},
    Stmt.unnumberedEach body = d.trees → Unspelled y d.tokens → ∀ s ∈ body, s.Neat y
  | .nil, body, h, hy => by
    cases body with
    | nil => exact nofun
    | cons => cases h
  | .cons first more, body, h, hy => by
    cases body with
    | nil => cases h
    | cons s rest =>
      obtain ⟨hfirst, hmore⟩ := List.cons.inj h
      rw [List.forall_mem_cons]
      exact ⟨first.neat hfirst (hy.mono (by simp [DeclarationsDerivation.tokens])),
        more.neat hmore (hy.mono (by simp [DeclarationsDerivation.tokens]))⟩

theorem FunctionDerivation.neat : ∀ (d : FunctionDerivation lenient) {f : Function}, f.unnumbered = d.tree →
    Unspelled y d.tokens → ∀ s ∈ f.body, s.Neat y
  | .mk name opening parameters closing openingBrace body closingBrace, .mk name' parameters' body', h, hy =>
    body.neat (Function.mk.inj h).2.2 (hy.mono fun t ht => by simp [FunctionDerivation.tokens, ht])

theorem MethodsDerivation.neat : ∀ (d : MethodsDerivation lenient) {fs : List Function},
    Function.unnumberedEach fs = d.trees → Unspelled y d.tokens → ∀ f ∈ fs, ∀ s ∈ f.body, s.Neat y
  | .nil, fs, h, hy => by
    cases fs with
    | nil => exact nofun
    | cons => cases h
  | .cons first more, fs, h, hy => by
    cases fs with
    | nil => cases h
    | cons f rest =>
      obtain ⟨hfirst, hmore⟩ := List.cons.inj h
      rw [List.forall_mem_cons]
      exact ⟨first.neat hfirst (hy.mono (by simp [MethodsDerivation.tokens])),
        more.neat hmore (hy.mono (by simp [MethodsDerivation.tokens]))⟩

end

end Readings

/-- A name with a quote at its end is none that a source spells. -/
theorem unspelled_carrier (x : Token) {ts : List Token} (h : ∀ t ∈ ts, t.kind ∈ Kind.naming →
    ∀ c ∈ t.lexeme.toList, Piece.continuesWord c = true) : Unspelled (carrier x).lexeme ts := by
  rintro t ⟨ht, hk⟩ e
  have hquote : '\'' ∈ t.lexeme.toList := by
    rw [e]
    simp [carrier]
  exact absurd (h t ht hk _ hquote) (by decide)

/-- In a program that was read from a source, the name of a carrier stands only where a loop was unrolled. -/
theorem Parsed.neat_of_program {lenient : Bool} {source : String} {nextId : NodeId} {statements : List Stmt}
    (h : (ofSource (program lenient) source nextId).result = .ok statements) (x : Token) :
    ∀ s ∈ statements, s.Neat (carrier x).lexeme := by
  obtain ⟨ts, stop, htokens, hts, hstop⟩ := tokens_eq source
  have hread := (ofSource_eq (program lenient) source nextId).2 statements h
  rw [htokens] at hread
  obtain ⟨d, hd, htrees⟩ := derivation_of_program hts hstop hread
  refine d.neat htrees (unspelled_carrier x fun t ht hk => ?_)
  have hmem : t ∈ tokens source := by
    rw [htokens, ← hd]
    exact List.mem_append_left _ ht
  exact (tokens_naming source t hmem hk).2

theorem Sketch.neat_fill {p : Sketch} {ℓ : VarLoop} {id : NodeId} {y : String}
    (h : ∀ s ∈ p.fill (ℓ.copying id), s.Neat y) : (ℓ.copying id).Neat y :=
  p.gap.neat_fill (h _ (List.mem_append_right _ List.mem_cons_self))

end LoxLang
