import LoxLang.Proofs.Grammar.Sources
import LoxLang.Proofs.Grammar.Statements
import LoxLang.Proofs.WellFormed.Lowering

/-! The resolver accepts a program that was read if and only if it keeps to the rules of scoping, as a tree and as it is
written. -/

namespace LoxLang

theorem Expr.sites_unnumbered (p : Place) (own : Option String) (e : Expr) : e.unnumbered.sites p own = e.sites p own := by
  rw [sites, e.uses_unnumbered, List.filterMap_map]
  rfl

theorem Expr.sites_unnumberedOption (p : Place) (own : Option String) (e : Option Expr) :
    Expr.sitesOption p own (Expr.unnumberedOption e) = Expr.sitesOption p own e := by
  cases e with
  | none => rfl
  | some e => exact e.sites_unnumbered p own

theorem Stmt.declared_unnumbered (body : List Stmt) : Stmt.declared (Stmt.unnumberedEach body) = Stmt.declared body := by
  induction body with
  | nil => rfl
  | cons s rest ih => rw [unnumberedEach, declared_cons, declared_cons, s.declares_unnumbered, ih]

theorem FunctionKind.ofMethod_unnumbered (f : Function) : FunctionKind.ofMethod f.unnumbered = .ofMethod f := by
  cases f
  rfl

theorem Place.inClass_unnumbered (p : Place) (superclass : Option NameUse) :
    p.inClass (superclass.map NameUse.unnumbered) = p.inClass superclass := by cases superclass <;> rfl

mutual

/-- Node ids are no concern of the rules. -/
theorem Stmt.sites_unnumbered : ∀ (s : Stmt) (p : Place), s.unnumbered.sites p = s.sites p
  | .expression e, p | .print e, p => e.sites_unnumbered p none
  | .var name initial, p => Expr.sites_unnumberedOption p (p.locals.own name.lexeme) initial
  | .block body, p => by
    rw [Stmt.unnumbered, Stmt.sites, Stmt.sites, Stmt.declared_unnumbered, Stmt.sitesEach_unnumbered body]
  | .branch condition yes no, p => by
    rw [Stmt.unnumbered, Stmt.sites, Stmt.sites, condition.sites_unnumbered, yes.sites_unnumbered, Stmt.sitesOption_unnumbered no]
  | .loop condition body, p => by
    rw [Stmt.unnumbered, Stmt.sites, Stmt.sites, condition.sites_unnumbered, body.sites_unnumbered]
  | .function f, p => by
    obtain ⟨name, parameters, body⟩ := f
    exact Function.sites_unnumbered (.mk name parameters body) .function _
  | .ret keyword value, p => by
    rw [Stmt.unnumbered, Stmt.sites, Stmt.sites, Expr.sites_unnumberedOption]
    cases value <;> rfl
  | .classDecl name superclass methods, p => by
    rw [Stmt.unnumbered, Stmt.sites, Stmt.sites, Place.inClass_unnumbered, Function.sitesEach_unnumbered methods]
    cases superclass <;> rfl

theorem Stmt.sitesEach_unnumbered : ∀ (body : List Stmt) (p : Place),
    Stmt.sitesEach p (Stmt.unnumberedEach body) = Stmt.sitesEach p body
  | [], _ => rfl
  | s :: rest, p => by
    rw [Stmt.unnumberedEach, Stmt.sitesEach, Stmt.sitesEach, s.declares_unnumbered, s.sites_unnumbered, Stmt.sitesEach_unnumbered rest]

theorem Stmt.sitesOption_unnumbered : ∀ (s : Option Stmt) (p : Place),
    Stmt.sitesOption p (Stmt.unnumberedOption s) = Stmt.sitesOption p s
  | none, _ => rfl
  | some s, p => s.sites_unnumbered p

theorem Function.sites_unnumbered : ∀ (f : Function) (kind : FunctionKind) (p : Place),
    f.unnumbered.sites kind p = f.sites kind p
  | .mk _ _ body, kind, p => by
    rw [Function.unnumbered, Function.sites, Function.sites, Stmt.declared_unnumbered, Stmt.sitesEach_unnumbered body]

theorem Function.sitesEach_unnumbered : ∀ (fs : List Function) (p : Place),
    Function.sitesEach p (Function.unnumberedEach fs) = Function.sitesEach p fs
  | [], _ => rfl
  | f :: rest, p => by
    rw [Function.unnumberedEach, Function.sitesEach, Function.sitesEach, FunctionKind.ofMethod_unnumbered, f.sites_unnumbered,
      Function.sitesEach_unnumbered rest]

end

theorem spellable_tokens {source : String} {ts : List Token} (h : ts ⊆ tokens source) : Spellable ts := by
  rintro t ⟨ht, hk⟩ hquote
  exact absurd ((tokens_naming source t (h ht) hk).2 _ hquote) (by decide)

/-- Let a program be read from the tokens of a source, with any names global already. The resolver accepts it if and only
if no local scope declares a name twice, a local variable is read in its own initial value only where another variable
of that name is known, each `return` is in a function or a method and none in an initializer has a value, each `this` is
in a class, the innermost class around each `super` has a superclass, and no class names itself as its superclass. It
is enough that the source as it is written keeps to these rules, for what is generated for loops and increments breaks
none. -/
theorem resolves_iff_wellFormed {lenient : Bool} {source : String} {nextId : NodeId} {statements : List Stmt}
    (hread : (Parsed.program lenient (tokens source) nextId).result = .ok statements) (globals : Std.ExtTreeSet String) :
    ((resolve globals statements).isOk ↔ WellFormed globals (Stmt.sitesEach .topLevel statements)) ∧
    ∃ (d : DeclarationsDerivation lenient) (stop : Token), tokens source = d.tokens ++ [stop] ∧
      Stmt.unnumberedEach statements = d.trees ∧
        ((resolve globals statements).isOk ↔ WellFormed globals (d.sites .topLevel)) := by
  have htidy : Stmt.TidyEach statements :=
    ((Parsed.reads_run (tokens_proper source) fun n => Grammar.reads_program lenient n nextId).2 statements hread).tidy
  have hsites := resolve_iff_sites (G := globals) htidy
  refine ⟨hsites, ?_⟩
  obtain ⟨ts, stop, htokens, hts, hstop⟩ := tokens_eq source
  rw [htokens] at hread
  obtain ⟨d, rfl, htrees⟩ := Parsed.derivation_of_program hts hstop hread
  have hspellable : Spellable d.tokens := spellable_tokens (htokens ▸ List.subset_append_left _ _)
  refine ⟨d, stop, htokens, htrees, hsites.trans ?_⟩
  rw [wellFormed_iff, wellFormed_iff, ← Stmt.sitesEach_unnumbered, htrees]
  exact d.allowed hspellable ⟨.refl _, Iff.rfl, fun _ _ => Iff.rfl⟩

/-- A loop in a block that has a variable of the same name, whose own variable is read and stepped, and a method that
reads a local variable in its own initial value. The name is global where the program is accepted, and not where it is
rejected. -/
theorem resolves_iff_wellFormed_own_read :
    let source := "{ var i = 7; for (var i = 0; i < 3; i++) { var k = i; print k; } } class A { f() { var y = y; return y; } }"
    let known : Std.ExtTreeSet String := (∅ : Std.ExtTreeSet String).insert "y"
    ∃ statements, (Parsed.program false (tokens source) 0).result = .ok statements ∧
      WellFormed known (Stmt.sitesEach .topLevel statements) ∧ ¬ WellFormed ∅ (Stmt.sitesEach .topLevel statements) := by
  intro source known
  have hrun : (Parsed.program false (tokens source) 0).result.toOption.map
      (fun statements => ((resolve known statements).isOk, (resolve ∅ statements).isOk)) = some (true, false) := by
    decide +kernel
  clear_value source known
  cases hread : (Parsed.program false (tokens source) 0).result with
  | error => rw [hread] at hrun; cases hrun
  | ok statements =>
    rw [hread] at hrun
    obtain ⟨hknown, hunknown⟩ := Prod.mk.inj (Option.some.inj hrun)
    refine ⟨statements, rfl, (resolves_iff_wellFormed hread known).1.mp hknown, fun h => ?_⟩
    have haccepted := (resolves_iff_wellFormed hread ∅).1.mpr h
    rw [hunknown] at haccepted
    cases haccepted

end LoxLang
