import LoxLang.Proofs.Binding.Bonds
import LoxLang.Proofs.Domain.Trees

/-! Two walks over one program, of which the second knows more global names from the beginning. All along, they have the
same scopes and the same distances, and the second lacks just those faults of the first that are excused by a name it
knows. -/

namespace LoxLang

/-- The name of a local variable that is read in its own initial value, if that is the fault. -/
def Diagnostic.ownRead? : Diagnostic → Option String
  | .binding mark .ownInitializer => mark.lexeme
  | _ => none

/-- The faults of a program, given the names that are global already. -/
def resolutionFaults (globals : Std.ExtTreeSet String) (statements : List Stmt) : List Diagnostic :=
  match resolve globals statements with
  | .ok _ => []
  | .error faults => faults

theorem resolutionFaults_eq (globals : Std.ExtTreeSet String) (statements : List Stmt) :
    resolutionFaults globals statements = (Stmt.resolveEach .topLevel statements (.start globals)).faults := by
  unfold resolutionFaults resolve
  dsimp only
  cases hfaults : (Stmt.resolveEach .topLevel statements (.start globals)).faults <;> rfl

theorem resolve_eq_ok_iff {globals : Std.ExtTreeSet String} {statements : List Stmt} {known : Bindings} :
    resolve globals statements = .ok known ↔ resolutionFaults globals statements = [] ∧
      (Stmt.resolveEach .topLevel statements (.start globals)).bindings = known := by
  rw [resolutionFaults_eq]
  unfold resolve
  dsimp only
  cases (Stmt.resolveEach .topLevel statements (.start globals)).faults <;> simp

/-- Is the fault there also if the names are known to be global? -/
def Diagnostic.Stays (names : Std.ExtTreeSet String) (d : Diagnostic) : Prop := ∀ x ∈ d.ownRead?, x ∉ names

instance (names : Std.ExtTreeSet String) (d : Diagnostic) : Decidable (d.Stays names) :=
  inferInstanceAs (Decidable (∀ x ∈ d.ownRead?, x ∉ names))

namespace Walk

/-- The second walk knows some names beside those that the first knows, and lacks the faults that they excuse. -/
structure Relaxed (names : Std.ExtTreeSet String) (w v : Walk) : Prop where
  scopes : v.scopes = w.scopes
  bindings : v.bindings = w.bindings
  globals : ∀ x, x ∈ v.globals ↔ x ∈ w.globals ∨ x ∈ names
  faults : v.faults = w.faults.filter (·.Stays names)

namespace Relaxed

variable {names : Std.ExtTreeSet String} {w v : Walk} (h : Relaxed names w v)

theorem start {fewer : Std.ExtTreeSet String} (hle : ∀ x ∈ fewer, x ∈ names) :
    Relaxed names (.start fewer) (.start names) :=
  ⟨rfl, rfl, fun x => ⟨.inr, fun hx => hx.elim (hle x) id⟩, rfl⟩

include h

theorem fault {cause : BindingFault} (hcause : cause ≠ .ownInitializer) (t : Token) :
    Relaxed names (w.fault t cause) (v.fault t cause) := by
  have hstays : (Diagnostic.binding t.mark cause).Stays names := by
    cases cause with
    | ownInitializer => exact absurd rfl hcause
    | _ => exact nofun
  refine ⟨h.scopes, h.bindings, h.globals, ?_⟩
  simp [Walk.fault, h.faults, List.filter_append, hstays]

/-- The one place where global names matter: a read that the first walk refuses may be one of a known name. -/
theorem missing {t : Token} (ht : t.isEof = false) :
    Relaxed names (if w.globals.contains t.lexeme then w else w.fault t .ownInitializer)
      (if v.globals.contains t.lexeme then v else v.fault t .ownInitializer) := by
  have hown : (Diagnostic.binding t.mark .ownInitializer).Stays names ↔ t.lexeme ∉ names := by
    simp [Diagnostic.Stays, Diagnostic.ownRead?, Token.mark, ht]
  simp only [Std.ExtTreeSet.contains_iff_mem]
  by_cases hw : t.lexeme ∈ w.globals
  · rw [if_pos hw, if_pos ((h.globals _).mpr (.inl hw))]
    exact h
  · rw [if_neg hw]
    by_cases hx : t.lexeme ∈ names
    · rw [if_pos ((h.globals _).mpr (.inr hx))]
      refine ⟨h.scopes, h.bindings, h.globals, ?_⟩
      simp [Walk.fault, h.faults, List.filter_append, hown, hx]
    · rw [if_neg fun hv => ((h.globals _).mp hv).elim hw hx]
      refine ⟨h.scopes, h.bindings, h.globals, ?_⟩
      simp [Walk.fault, h.faults, List.filter_append, hown, hx]

end Relaxed

theorem bond_relaxed (names : Std.ExtTreeSet String) : Bond .still (fun u => u.token.isEof = false) (Relaxed names) where
  scopes h := h.scopes
  rescope h ss := ⟨rfl, h.bindings, h.globals, h.faults⟩
  global h x := by
    refine ⟨h.scopes, h.bindings, fun y => ?_, h.faults⟩
    simp only [Std.ExtTreeSet.mem_insert, h.globals, or_assoc]
  fault h t cause hcause := h.fault hcause t
  record h u _ d := ⟨h.scopes, congrArg (·.insert u.id d) h.bindings, h.globals, h.faults⟩
  missing h _ hu := h.missing hu

end Walk

open Walk

section Uses

theorem Token.isEof_of_kind {t : Token} {kind : Kind} (h : t.kind = kind) (hkind : kind ≠ .eof) : t.isEof = false := by
  rw [isEof, h]
  exact beq_eq_false_iff_ne.mpr hkind

mutual

/-- No name that is used is the end of the source. -/
theorem Expr.isEof_uses : ∀ (e : Expr), e.InDomain → ∀ u ∈ e.uses, u.token.isEof = false
  | .literal _, _ => nofun
  | .grouping e, he => e.isEof_uses he
  | .unary _ e, he | .get e _, he => e.isEof_uses he.2
  | .binary left _ right, he | .logical left _ right, he | .set left _ right, he =>
    List.forall_mem_append.mpr ⟨left.isEof_uses he.2.1, right.isEof_uses he.2.2⟩
  | .read _ _, he => List.forall_mem_singleton.mpr (Token.isEof_of_kind he nofun)
  | .assign _ _ value, he => List.forall_mem_cons.mpr ⟨Token.isEof_of_kind he.1 nofun, value.isEof_uses he.2⟩
  | .call callee _ arguments, he =>
    List.forall_mem_append.mpr ⟨callee.isEof_uses he.2.2.1, Expr.isEof_usesEach arguments he.2.2.2⟩
  | .self _ _, he => List.forall_mem_singleton.mpr (Token.isEof_of_kind he nofun)
  | .inherited _ _ _, he => List.forall_mem_singleton.mpr (Token.isEof_of_kind he.1 nofun)

theorem Expr.isEof_usesEach : ∀ (es : List Expr), Expr.InDomainEach es → ∀ u ∈ Expr.usesEach es, u.token.isEof = false
  | [], _ => nofun
  | e :: rest, hes => List.forall_mem_append.mpr ⟨e.isEof_uses hes.1, Expr.isEof_usesEach rest hes.2⟩

end

theorem Expr.isEof_usesOption {e : Option Expr} (he : Expr.InDomainOption e) :
    ∀ u ∈ Expr.usesOption e, u.token.isEof = false := by
  cases e with
  | none => exact nofun
  | some e => exact e.isEof_uses he

mutual

theorem Stmt.isEof_uses : ∀ (s : Stmt), s.InDomain → ∀ u ∈ s.uses, u.token.isEof = false
  | .expression e, hs | .print e, hs => e.isEof_uses hs
  | .var _ _, hs | .ret _ _, hs => Expr.isEof_usesOption hs.2
  | .block body, hs => Stmt.isEof_usesEach body hs
  | .branch condition yes no, hs =>
    List.forall_mem_append.mpr ⟨List.forall_mem_append.mpr ⟨condition.isEof_uses hs.1, yes.isEof_uses hs.2.1⟩,
      Stmt.isEof_usesOption no hs.2.2⟩
  | .loop condition body, hs => List.forall_mem_append.mpr ⟨condition.isEof_uses hs.1, body.isEof_uses hs.2⟩
  | .function f, hs => f.isEof_uses hs
  | .classDecl _ none methods, hs => Function.isEof_usesEach methods hs.2.2
  | .classDecl _ (some u) methods, hs => by
    have hu : u.name.kind = .identifier := hs.2.1 u rfl
    exact List.forall_mem_cons.mpr ⟨Token.isEof_of_kind hu nofun, Function.isEof_usesEach methods hs.2.2⟩

theorem Stmt.isEof_usesEach : ∀ (body : List Stmt), Stmt.InDomainEach body →
    ∀ u ∈ Stmt.usesEach body, u.token.isEof = false
  | [], _ => nofun
  | s :: rest, hs => List.forall_mem_append.mpr ⟨s.isEof_uses hs.1, Stmt.isEof_usesEach rest hs.2⟩

theorem Stmt.isEof_usesOption : ∀ (s : Option Stmt), Stmt.InDomainOption s →
    ∀ u ∈ Stmt.usesOption s, u.token.isEof = false
  | none, _ => nofun
  | some s, hs => s.isEof_uses hs

theorem Function.isEof_uses : ∀ (f : Function), f.InDomain → ∀ u ∈ f.uses, u.token.isEof = false
  | .mk _ _ body, hf => Stmt.isEof_usesEach body hf.2.2.2

theorem Function.isEof_usesEach : ∀ (fs : List Function), Function.InDomainEach fs →
    ∀ u ∈ Function.usesEach fs, u.token.isEof = false
  | [], _ => nofun
  | f :: rest, hs => List.forall_mem_append.mpr ⟨f.isEof_uses hs.1, Function.isEof_usesEach rest hs.2⟩

end

end Uses

section Programs

variable {fewer names : Std.ExtTreeSet String} {statements : List Stmt}

theorem relaxed_statements (h : Stmt.InDomainEach statements) (hle : ∀ x ∈ fewer, x ∈ names) :
    Relaxed names (Stmt.resolveEach .topLevel statements (.start fewer))
      (Stmt.resolveEach .topLevel statements (.start names)) := by
  have hbond := (bond_relaxed names).stmts .topLevel statements (Stmt.isEof_usesEach statements h) (.start hle)
  rwa [Stmt.relabelEach_still] at hbond

/-- What is left of the faults if more names are global. -/
theorem resolutionFaults_filter (h : Stmt.InDomainEach statements) (hle : ∀ x ∈ fewer, x ∈ names) :
    resolutionFaults names statements = (resolutionFaults fewer statements).filter (·.Stays names) := by
  rw [resolutionFaults_eq, resolutionFaults_eq]
  exact (relaxed_statements h hle).faults

/-- No fault is about a name that is known. -/
theorem stays_of_mem_resolutionFaults (h : Stmt.InDomainEach statements) {d : Diagnostic}
    (hd : d ∈ resolutionFaults names statements) : d.Stays names := by
  rw [resolutionFaults_filter h fun _ hx => hx] at hd
  exact of_decide_eq_true (List.mem_filter.mp hd).2

end Programs

/-- Let a program be read from the tokens of a source, and let there be names that are global already, and more such names.
If the resolver accepts the program with the first, then also with the second, and it finds the same distances. In any
case the faults with the second are among those with the first, in their order, and those missing are the reads of a local
variable in its own initial value whose name is one of the second, all of which are not one of the first. -/
theorem globals_monotone {lenient : Bool} {source : String} {nextId : NodeId} {statements : List Stmt}
    (hread : (Parsed.program lenient (tokens source) nextId).result = .ok statements)
    {fewer more : Std.ExtTreeSet String} (hle : ∀ x ∈ fewer, x ∈ more) :
    (∀ known, resolve fewer statements = .ok known → resolve more statements = .ok known) ∧
    (resolutionFaults more statements).Sublist (resolutionFaults fewer statements) ∧
    resolutionFaults more statements =
      (resolutionFaults fewer statements).filter fun d => ¬∃ x ∈ d.ownRead?, x ∈ more ∧ x ∉ fewer := by
  have hdomain := Parsed.inDomain_of_program hread
  have hfilter := resolutionFaults_filter hdomain hle
  refine ⟨fun known hknown => ?_, ?_, ?_⟩
  · obtain ⟨hclean, hbindings⟩ := resolve_eq_ok_iff.mp hknown
    refine resolve_eq_ok_iff.mpr ⟨?_, ?_⟩
    · rw [hfilter, hclean]
      rfl
    · rw [(relaxed_statements hdomain hle).bindings, hbindings]
  · rw [hfilter]
    exact List.filter_sublist
  · rw [hfilter]
    refine List.filter_congr fun d hd => ?_
    have hfewer := stays_of_mem_resolutionFaults hdomain hd
    -- What is reported is about a name that is not among the fewer.
    have hsame : d.Stays more ↔ ¬∃ x ∈ d.ownRead?, x ∈ more ∧ x ∉ fewer := by
      simp only [Diagnostic.Stays, not_exists, not_and, not_not]
      exact forall₂_congr fun x hx => ⟨fun h hmore => absurd hmore h, fun h hmore => hfewer x hx (h hmore)⟩
    exact decide_eq_decide.mpr hsame

/-- Two local variables read in their own initial values, of which one is excused from the beginning, the other by a second
name, and a `return` that nothing excuses. -/
theorem globals_monotone_own_reads :
    let source := "{ var x = x; var y = y; } return;"
    let fewer : Std.ExtTreeSet String := (∅ : Std.ExtTreeSet String).insert "x"
    let more := fewer.insert "y"
    ∃ statements, (Parsed.program false (tokens source) 0).result = .ok statements ∧ (∀ x ∈ fewer, x ∈ more) ∧
      (resolutionFaults fewer statements).map Diagnostic.message =
        ["Can't read local variable in its own initializer.", "Can't return from top-level code."] ∧
      (resolutionFaults more statements).map Diagnostic.message = ["Can't return from top-level code."] ∧
      resolutionFaults more statements =
        (resolutionFaults fewer statements).filter fun d => ¬∃ x ∈ d.ownRead?, x ∈ more ∧ x ∉ fewer := by
  intro source fewer more
  have hrun : (Parsed.program false (tokens source) 0).result.toOption.map (fun statements =>
      ((resolutionFaults fewer statements).map Diagnostic.message,
        (resolutionFaults more statements).map Diagnostic.message)) =
      some (["Can't read local variable in its own initializer.", "Can't return from top-level code."],
        ["Can't return from top-level code."]) := by
    decide +kernel
  have hle : ∀ x ∈ fewer, x ∈ more := fun x hx => Std.ExtTreeSet.mem_insert.mpr (.inr hx)
  clear_value source more fewer
  cases hread : (Parsed.program false (tokens source) 0).result with
  | error => rw [hread] at hrun; cases hrun
  | ok statements =>
    rw [hread] at hrun
    obtain ⟨hfewer, hmore⟩ := Prod.mk.inj (Option.some.inj hrun)
    exact ⟨statements, rfl, hle, hfewer, hmore, (globals_monotone hread hle).2.2⟩

end LoxLang
