import LoxLang.Proofs.WellFormed.Statements
import LoxLang.Proofs.WellFormed.Written

/-! What is generated for a counting loop breaks no rule, and it does not make anything else break one. -/

namespace LoxLang

variable {lenient : Bool} {G : Std.ExtTreeSet String} {p q : Place} {own : Option String} {names : List String}

/-- Sites that all keep to the rules. -/
def AllAllowed (G : Std.ExtTreeSet String) (sites : List Site) : Prop := ∀ site ∈ sites, site.Allowed G

theorem allowed_nil : AllAllowed G [] := nofun

theorem allowed_cons {site : Site} {sites : List Site} : AllAllowed G (site :: sites) ↔ site.Allowed G ∧ AllAllowed G sites :=
  List.forall_mem_cons

theorem allowed_append {sites more : List Site} : AllAllowed G (sites ++ more) ↔ AllAllowed G sites ∧ AllAllowed G more :=
  List.forall_mem_append

/-- The name is declared in a scope of the layout. -/
def Layout.Binds (l : Layout) (x : String) : Prop := ∃ scope ∈ l, x ∈ scope

theorem Layout.binds_cons {scope : List String} {l : Layout} {x : String} :
    Layout.Binds (scope :: l) x ↔ x ∈ scope ∨ l.Binds x := by simp [Binds]

/-- A name that a source can spell. -/
def Unquoted (x : String) : Prop := '\'' ∉ x.toList

theorem quoted_carrier (x : Token) : ¬ Unquoted (x.lexeme ++ "'") := by simp [Unquoted]

/-- A statement has the same around it at both places: names that can be spelled are bound at both or at neither. -/
structure Place.Like (p q : Place) : Prop where
  around : p.around = q.around
  globals : p.globals = q.globals
  binds : ∀ x, Unquoted x → (p.locals.Binds x ↔ q.locals.Binds x)

/-- A declaration has the same around it at both places: also around the innermost scope the same names are bound. -/
structure Place.Near (p q : Place) : Prop extends p.Like q where
  top : p.locals = [] ↔ q.locals = []
  outer : ∀ x, Unquoted x → (Layout.Binds p.locals.tail x ↔ Layout.Binds q.locals.tail x)

namespace Place

theorem Like.inside (h : p.Like q) (names : List String) : (p.inside names).Near (q.inside names) where
  around := h.around
  globals := h.globals
  binds x hx := by
    rw [show (p.inside names).locals = names :: p.locals from rfl, show (q.inside names).locals = names :: q.locals from rfl,
      Layout.binds_cons, Layout.binds_cons, h.binds x hx]
  top := iff_of_false nofun nofun
  outer := h.binds

theorem Near.declare (h : p.Near q) (names : List String) : (p.declare names).Near (q.declare names) := by
  obtain ⟨around, _ | ⟨scope, outer⟩, globals⟩ := p
  · obtain ⟨around', _ | ⟨scope', outer'⟩, globals'⟩ := q
    · obtain rfl : globals = globals' := h.globals
      exact ⟨⟨h.around, rfl, fun _ _ => Iff.rfl⟩, Iff.rfl, fun _ _ => Iff.rfl⟩
    · cases h.top.mp rfl
  · obtain ⟨around', _ | ⟨scope', outer'⟩, globals'⟩ := q
    · cases h.top.mpr rfl
    · refine ⟨⟨h.around, h.globals, fun x hx => ?_⟩, iff_of_false nofun nofun, h.outer⟩
      have hbinds := h.binds x hx
      simp only [Layout.binds_cons] at hbinds
      simp only [Place.declare, Layout.declare, Layout.binds_cons, List.mem_append, or_assoc, hbinds]

/-- A scope makes no difference whose names are bound around it or cannot be spelled. -/
theorem Like.skip (h : p.Like q) (hn : ∀ x ∈ names, Unquoted x → p.locals.Binds x) : (p.inside names).Like q where
  around := h.around
  globals := h.globals
  binds x hx := by
    refine Layout.binds_cons.trans ?_
    rw [← h.binds x hx]
    exact or_iff_right_of_imp fun hmem => hn x hmem hx

theorem Like.refl (p : Place) : p.Like p := ⟨rfl, rfl, fun _ _ => Iff.rfl⟩

theorem Near.inClass (h : p.Near q) (superclass : Option NameUse) : (p.inClass superclass).Like (q.inClass superclass) where
  around := by simp [Place.inClass, h.around]
  globals := h.globals
  binds x hx := by
    cases superclass <;> simp only [Place.inClass, Layout.ofClass, Layout.binds_cons, h.binds x hx]

theorem Like.inFunction (h : p.Like q) (kind : FunctionKind) (names : List String) :
    (p.inFunction kind names).Near (q.inFunction kind names) where
  toLike := ⟨by simp [Place.inFunction, Place.inside, h.around], h.globals, (h.inside names).binds⟩
  top := (h.inside names).top
  outer := (h.inside names).outer

end Place

/-- Without an initial value around it, what there is to a use depends on the class around it only. -/
theorem Use.site?_plain (h : p.around = q.around) (u : Use) : u.site? p none = u.site? q none := by
  unfold site?
  split <;> simp [h]

theorem Expr.sites_plain (h : p.around = q.around) (e : Expr) : e.sites p none = e.sites q none := by
  unfold sites
  rw [show Use.site? p none = Use.site? q none from funext (Use.site?_plain h)]

theorem Derivation.sites_plain (h : p.around = q.around) {s : Symbol} (d : Derivation s) : d.sites p none = d.sites q none := by
  rw [← d.sites_tree, ← d.sites_tree, Expr.sites_plain h]

theorem Derivation.sitesOption_plain (h : p.around = q.around) (d : Option (Derivation .expression)) :
    Derivation.sitesOption p none d = Derivation.sitesOption q none d := by
  cases d with
  | none => rfl
  | some d => exact d.sites_plain h

theorem Use.allowed_near (h : p.Near q) {u : Use} (hu : Unquoted u.token.lexeme) :
    u.Allowed G p own ↔ u.Allowed G q own := by
  unfold Allowed site?
  split
  · split
    · simp only [Option.mem_def, Option.some.injEq, forall_eq', Site.Allowed, h.globals]
      exact or_congr_left (h.outer _ hu)
    · rfl
  · rfl
  · rw [h.around]
  · rw [h.around]

/-- The names in the tokens can be spelled. -/
def Spellable (ts : List Token) : Prop := ∀ t, Spells ts t → Unquoted t.lexeme

theorem Spellable.mono {ts us : List Token} (h : Spellable us) (hs : ts ⊆ us) : Spellable ts := fun t ht => h t (ht.mono hs)

theorem Derivation.allowed_at (h : p.Near q) {s : Symbol} (d : Derivation s) (hd : Spellable d.tokens) :
    AllAllowed G (d.sites p own) ↔ AllAllowed G (d.sites q own) := by
  rw [← d.sites_tree, ← d.sites_tree, AllAllowed, AllAllowed, Expr.sites, Expr.sites, forall_mem_sites, forall_mem_sites]
  exact forall₂_congr fun u hu => Use.allowed_near h (hd _ (d.spells u hu))

theorem VariableDerivation.allowed (v : VariableDerivation lenient) (hv : Spellable v.tokens) (h : p.Near q) :
    AllAllowed G (v.tree.sites p) ↔ AllAllowed G (v.sites q) := by
  have hown : p.locals.own v.name.1.lexeme = q.locals.own v.name.1.lexeme := by
    have htop := h.top
    cases hp : p.locals <;> cases hq : q.locals <;> simp_all [Layout.own]
  rw [VariableDerivation.tree, VariableDerivation.sites, Stmt.sites, InitialValue.sites_tree, hown]
  cases hi : v.initial with
  | none => exact Iff.rfl
  | some equals value =>
    refine value.allowed_at h (hv.mono fun t ht => ?_)
    simp [VariableDerivation.tokens, hi, InitialValue.tokens, ht]

theorem allowed_block {body : List Stmt} : AllAllowed G ((Stmt.block body).sites p) ↔
    (Stmt.declared body).Nodup ∧ AllAllowed G (Stmt.sitesEach (p.inside []) body) := allowed_cons

theorem allowed_each_cons {s : Stmt} {rest : List Stmt} : AllAllowed G (Stmt.sitesEach p (s :: rest)) ↔
    AllAllowed G (s.sites p) ∧ AllAllowed G (Stmt.sitesEach (p.declare s.declares) rest) := allowed_append

theorem allowed_copy (p : Place) (target source : Token) :
    AllAllowed G (Stmt.sitesEach p [.expression (.assign 0 target (.read 0 source))]) := by
  simp [AllAllowed, Stmt.sitesEach, Stmt.sites, Expr.sites, Expr.uses, Use.site?]

/-- What is generated for the copies of a loop variable: its one use in an initial value is of the loop variable, which
is declared around it. -/
theorem allowed_withOwn {x : Token} {body : Stmt} (hx : p.locals.Binds x.lexeme) (hbody : body.declares = []) :
    AllAllowed G ((Stmt.withOwn x body).sites p) ↔
      AllAllowed G (body.sites ((p.inside [x.lexeme ++ "'"]).inside [x.lexeme])) := by
  let quoted : Token := ⟨.identifier, x.lexeme ++ "'", x.line⟩
  let own : List Stmt := [.var x (some (.read 0 x)), body, .expression (.assign 0 quoted (.read 0 x))]
  have hinner : (Stmt.declared own).Nodup := by
    rw [Stmt.declared_cons, Stmt.declared_cons, hbody]
    exact List.nodup_singleton _
  have houter : (Stmt.declared [.var quoted none, .block own, .expression (.assign 0 x (.read 0 quoted))]).Nodup :=
    List.nodup_singleton _
  have hread : AllAllowed G (Stmt.sites ((p.inside [x.lexeme ++ "'"]).inside []) (.var x (some (.read 0 x)))) := by
    have hsites : Stmt.sites ((p.inside [x.lexeme ++ "'"]).inside []) (.var x (some (.read 0 x))) =
        [.ownRead x.lexeme ([x.lexeme ++ "'"] :: p.locals) p.globals] := by
      simp [Stmt.sites, Expr.sitesOption, Expr.usesOption, Expr.uses, Use.site?, Place.inside, Layout.own]
    rw [hsites, allowed_cons]
    exact ⟨.inl (Layout.binds_cons.mpr (.inr hx)), allowed_nil⟩
  have hown : AllAllowed G (Stmt.sites (p.inside [x.lexeme ++ "'"]) (.block own)) ↔
      AllAllowed G (body.sites ((p.inside [x.lexeme ++ "'"]).inside [x.lexeme])) := by
    rw [allowed_block, and_iff_right hinner, allowed_each_cons, and_iff_right hread, allowed_each_cons,
      and_iff_left (allowed_copy _ _ _)]
    rfl
  have hquoted : AllAllowed G (Stmt.sites (p.inside []) (.var quoted none)) := allowed_nil
  refine (allowed_block.trans (and_iff_right houter)).trans ?_
  rw [allowed_each_cons, and_iff_right hquoted, allowed_each_cons, and_iff_left (allowed_copy _ _ _)]
  exact hown

/-- The rounds of a loop. -/
theorem allowed_rounds {P : Prop} {condition increment : Option Expr} {body : Stmt} (h : p.Like q) (hdeclares : body.declares = [])
    (hbody : ∀ {r : Place}, r.Like q → (AllAllowed G (body.sites r) ↔ P)) :
    AllAllowed G ((Stmt.unrolled none condition increment body).sites p) ↔
      AllAllowed G (Expr.sitesOption q none condition) ∧ AllAllowed G (Expr.sitesOption q none increment) ∧ P := by
  have hcondition : AllAllowed G ((condition.getD (.literal (.bool true))).sites p none) ↔
      AllAllowed G (Expr.sitesOption q none condition) := by
    cases condition with
    | none => exact Iff.rfl
    | some e => exact iff_of_eq (congrArg _ (Expr.sites_plain h.around e))
  cases increment with
  | none =>
    refine allowed_append.trans (and_congr hcondition ?_)
    exact (hbody h).trans (and_iff_right allowed_nil).symm
  | some e =>
    have hround : Stmt.declared [body, .expression e] = [] := by
      rw [Stmt.declared_cons, hdeclares]
      rfl
    refine allowed_append.trans (and_congr hcondition ?_)
    rw [allowed_block, hround, and_iff_right List.nodup_nil, allowed_each_cons, allowed_each_cons,
      hbody (h.skip (List.forall_mem_nil _)), and_comm, Stmt.sitesEach, and_iff_left allowed_nil]
    exact and_congr_left fun _ => iff_of_eq (congrArg _ (Expr.sites_plain (by simp [Place.inside, h.around]) e))

/-- What comes first in a loop is in a block around it. -/
theorem allowed_first {s : Stmt} {condition increment : Option Expr} {body : Stmt} (hs : (s.declares).Nodup) :
    AllAllowed G ((Stmt.unrolled (some s) condition increment body).sites p) ↔ AllAllowed G (s.sites (p.inside [])) ∧
      AllAllowed G ((Stmt.unrolled none condition increment body).sites (p.inside s.declares)) := by
  have hdeclares : (Stmt.unrolled none condition increment body).declares = [] := rfl
  have hblock : (Stmt.declared [s, .unrolled none condition increment body]).Nodup := by
    rw [Stmt.declared_cons, Stmt.declared_cons, hdeclares]
    simpa [Stmt.declared] using hs
  refine (allowed_block.trans (and_iff_right hblock)).trans ?_
  have hbehind : (p.inside []).declare s.declares = p.inside s.declares := by
    simp [Place.declare, Place.inside, Layout.declare]
  rw [allowed_each_cons, allowed_each_cons, Stmt.sitesEach, and_iff_left allowed_nil, hbehind]

mutual

theorem StatementDerivation.allowed : ∀ {hangs : Bool} (d : StatementDerivation lenient hangs) {p q : Place},
    Spellable d.tokens → p.Like q → (AllAllowed G (d.tree.sites p) ↔ AllAllowed G (d.sites q))
  | _, .expression e _, _, _, _, h | _, .print _ e _, _, _, _, h => by
    rw [StatementDerivation.tree, StatementDerivation.sites, Stmt.sites, e.sites_tree, e.sites_plain h.around]
  | _, .ret _ value _, _, _, _, h => by
    rw [StatementDerivation.tree, StatementDerivation.sites, Stmt.sites, Derivation.sites_treeOption,
      Derivation.sitesOption_plain h.around, h.around]
    cases value <;> rfl
  | _, .block _ body _, _, _, hd, h => by
    rw [StatementDerivation.tree, StatementDerivation.sites, Stmt.sites, allowed_cons, allowed_cons,
      body.allowed (hd.mono (by simp [StatementDerivation.tokens])) (h.inside [])]
  | _, .branch _ _ condition _ yes, p, _, hd, h => by
    rw [StatementDerivation.tree, StatementDerivation.sites, Stmt.sites, Stmt.sitesOption, List.append_nil, allowed_append,
      allowed_append, yes.allowed (hd.mono fun t ht => by simp [StatementDerivation.tokens, ht]) h, condition.sites_tree,
      condition.sites_plain h.around]
  | _, .branchElse _ _ condition _ yes _ no, _, _, hd, h => by
    rw [StatementDerivation.tree, StatementDerivation.sites, Stmt.sites, Stmt.sitesOption, allowed_append, allowed_append,
      allowed_append, allowed_append, yes.allowed (hd.mono fun t ht => by simp [StatementDerivation.tokens, ht]) h,
      no.allowed (hd.mono fun t ht => by simp [StatementDerivation.tokens, ht]) h, condition.sites_tree,
      condition.sites_plain h.around]
  | _, .loop _ _ condition _ body, _, _, hd, h => by
    rw [StatementDerivation.tree, StatementDerivation.sites, Stmt.sites, allowed_append, allowed_append,
      body.allowed (hd.mono fun t ht => by simp [StatementDerivation.tokens, ht]) h, condition.sites_tree,
      condition.sites_plain h.around]
  | _, .counting _ _ first condition _ increment _ body, p, q, hd, h => by
    have hbody : ∀ {r q : Place}, r.Like q → (AllAllowed G (body.tree.sites r) ↔ AllAllowed G (body.sites q)) := fun hr =>
      body.allowed (hd.mono fun t ht => by simp [StatementDerivation.tokens, ht]) hr
    rw [StatementDerivation.tree, StatementDerivation.sites, allowed_append, allowed_append, allowed_append, and_assoc,
      and_assoc, ← Derivation.sites_treeOption, ← Derivation.sites_treeOption]
    cases first with
    | none semicolon => exact (allowed_rounds h body.declares_tree hbody).trans (and_iff_right allowed_nil).symm
    | expression e ending =>
      have hfirst : (Stmt.expression e.tree).declares.Nodup := List.nodup_nil
      refine (allowed_first hfirst).trans (and_congr ?_ ?_)
      · exact iff_of_eq (congrArg _ ((Expr.sites_plain h.around _).trans e.sites_tree))
      · exact allowed_rounds (h.skip (List.forall_mem_nil _)) body.declares_tree hbody
    | var v =>
      have hv : Spellable v.tokens := hd.mono fun t ht => by simp [StatementDerivation.tokens, FirstClause.tokens, ht]
      have hname : Unquoted v.name.1.lexeme := hv _ (spells_identifier (by simp [VariableDerivation.tokens]))
      have hscope : Site.Allowed G (.scope [v.name.1.lexeme]) := List.nodup_singleton _
      have hfirst : v.tree.declares.Nodup := List.nodup_singleton _
      refine (allowed_first hfirst).trans (and_congr ?_ ?_)
      · rw [FirstClause.sites, allowed_cons, and_iff_right hscope]
        exact v.allowed hv (h.inside [])
      · refine allowed_rounds (h.inside [v.name.1.lexeme]).toLike rfl fun {r} hr => ?_
        have hbound : r.locals.Binds v.name.1.lexeme := (hr.binds _ hname).mpr (Layout.binds_cons.mpr (.inl List.mem_cons_self))
        refine (allowed_withOwn hbound body.declares_tree).trans (hbody ?_)
        refine (hr.skip ?_).skip ?_
        · rintro _ hx hx'
          obtain rfl := List.mem_singleton.mp hx
          exact absurd hx' (quoted_carrier _)
        · rintro _ hx -
          obtain rfl := List.mem_singleton.mp hx
          exact Layout.binds_cons.mpr (.inr hbound)

theorem DeclarationDerivation.allowed : ∀ (d : DeclarationDerivation lenient) {p q : Place},
    Spellable d.tokens → p.Near q → (AllAllowed G (d.tree.sites p) ↔ AllAllowed G (d.sites q))
  | .classDecl _ name superclass _ methods _, _, _, hd, h => by
    rw [DeclarationDerivation.tree, DeclarationDerivation.sites, Stmt.sites, allowed_cons, allowed_cons,
      methods.allowed (hd.mono fun t ht => by simp [DeclarationDerivation.tokens, ht])
        ((h.declare [name.1.lexeme]).inClass superclass.tree)]
  | .function _ f, _, _, hd, h => by
    rw [DeclarationDerivation.tree, DeclarationDerivation.sites, Stmt.sites]
    exact f.allowed (hd.mono (by simp [DeclarationDerivation.tokens])) (h.declare _).toLike
  | .var v, _, _, hd, h => v.allowed hd h
  | .statement s, _, _, hd, h => s.allowed hd h.toLike

theorem DeclarationsDerivation.allowed : ∀ (d : DeclarationsDerivation lenient) {p q : Place},
    Spellable d.tokens → p.Near q → (AllAllowed G (Stmt.sitesEach p d.trees) ↔ AllAllowed G (d.sites q))
  | .nil, _, _, _, _ => Iff.rfl
  | .cons first more, _, _, hd, h => by
    rw [DeclarationsDerivation.trees, DeclarationsDerivation.sites, Stmt.sitesEach, allowed_append, allowed_append,
      first.allowed (hd.mono (by simp [DeclarationsDerivation.tokens])) h,
      more.allowed (hd.mono (by simp [DeclarationsDerivation.tokens])) (h.declare _)]

theorem FunctionDerivation.allowed : ∀ (d : FunctionDerivation lenient) {kind : FunctionKind} {p q : Place},
    Spellable d.tokens → p.Like q → (AllAllowed G (d.tree.sites kind p) ↔ AllAllowed G (d.sites kind q))
  | .mk _ _ parameters _ _ body _, kind, _, _, hd, h => by
    rw [FunctionDerivation.tree, FunctionDerivation.sites, Function.sites, allowed_cons, allowed_cons,
      body.allowed (hd.mono fun t ht => by simp [FunctionDerivation.tokens, ht]) (h.inFunction kind _)]

theorem MethodsDerivation.allowed : ∀ (d : MethodsDerivation lenient) {p q : Place},
    Spellable d.tokens → p.Like q → (AllAllowed G (Function.sitesEach p d.trees) ↔ AllAllowed G (d.sites q))
  | .nil, _, _, _, _ => Iff.rfl
  | .cons first more, _, _, hd, h => by
    rw [MethodsDerivation.trees, MethodsDerivation.sites, Function.sitesEach, allowed_append, allowed_append,
      first.allowed (hd.mono (by simp [MethodsDerivation.tokens])) h,
      more.allowed (hd.mono (by simp [MethodsDerivation.tokens])) h]

end

end LoxLang
