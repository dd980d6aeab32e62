import LoxLang.Proofs.WellFormed.Walks

/-! From expressions to statements and whole programs: the resolver accepts exactly the programs that keep to the
rules. -/

namespace LoxLang

open Walk

variable {G : Std.ExtTreeSet String} {p q : Place} {names more : List String} {sites others : List Site} {w w' w'' : Walk}

namespace Place

@[simp] theorem declare_nil (p : Place) : p.declare [] = p := by
  obtain ⟨around, locals, globals⟩ := p
  cases locals <;> rfl

@[simp] theorem locals_declare (names : List String) (p : Place) :
    (p.declare names).locals = p.locals.declare names := by
  obtain ⟨around, locals, globals⟩ := p
  cases locals <;> rfl

@[simp] theorem around_declare (names : List String) (p : Place) : (p.declare names).around = p.around := by
  unfold declare
  split <;> rfl

theorem declare_declare (names more : List String) (p : Place) :
    (p.declare names).declare more = p.declare (more ++ names) := by
  obtain ⟨around, locals, globals⟩ := p
  cases locals <;> simp [declare, Layout.declare]

end Place

/-- Between statements a walk knows what stands around its place. -/
structure Settles (G : Std.ExtTreeSet String) (p : Place) (w : Walk) : Prop where
  scopes : Settled w.scopes p.locals
  globals : ∀ x, x ∈ w.globals ↔ x ∈ G ∨ x ∈ p.globals

namespace Settles

theorem reaches (h : Settles G p w) : Reaches G p none w := ⟨.settled h.scopes, fun hnone => absurd rfl hnone⟩

theorem known (h : Settles G p w) (hk : w'.known = w.known) : Settles G p w' where
  scopes := by
    rw [show w'.scopes = w.scopes from congrArg Prod.fst hk]
    exact h.scopes
  globals := by
    rw [show w'.globals = w.globals from congrArg Prod.snd hk]
    exact h.globals

theorem of_place (h : Settles G p w) (hl : q.locals = p.locals) (hg : q.globals = p.globals) : Settles G q w :=
  ⟨hl ▸ h.scopes, hg ▸ h.globals⟩

/-- The order of the declarations does not matter. -/
theorem congr (h : Settles G (p.declare names) w) (hn : ∀ x, x ∈ names ↔ x ∈ more) : Settles G (p.declare more) w := by
  obtain ⟨around, locals, globals⟩ := p
  cases locals with
  | nil =>
    refine ⟨h.scopes, fun x => ?_⟩
    simpa [Place.declare, hn x] using h.globals x
  | cons scope outer =>
    refine ⟨?_, h.globals⟩
    refine Settled.congr h.scopes fun x => ?_
    simp [hn x]

theorem enter (h : Settles G p w) (names : List String) :
    Settles G (p.inside names)
      { w with scopes := names.foldl (fun (s : Scope) name => s.insert name .defined) ∅ :: w.scopes } :=
  ⟨settled_open h.scopes names, h.globals⟩

theorem leave (h : Settles G ((p.inside names).declare more) w) : Settles G p { w with scopes := w.scopes.tail } :=
  ⟨settled_tail h.scopes, h.globals⟩

end Settles

/-- The walk over a part of a program finds no fault if and only if the scope around it takes the names and all the
sites are allowed. Then it ends behind a declaration of the names. -/
structure Judges (G : Std.ExtTreeSet String) (p : Place) (names : List String) (sites : List Site) (w w' : Walk) :
    Prop where
  verdict : Verdict (p.locals.Takes names ∧ ∀ site ∈ sites, site.Allowed G) w w'
  settles : w'.faults = [] → Settles G (p.declare names) w'

namespace Judges

theorem refl (h : Settles G p w) : Judges G p [] [] w w :=
  ⟨.of_same rfl ⟨Layout.takes_nil _, nofun⟩, fun _ => (Place.declare_nil p).symm ▸ h⟩

theorem of_place (h : Judges G p names sites w w') (hl : q.locals = p.locals) (hg : q.globals = p.globals) :
    Judges G q names sites w w' := by
  refine ⟨hl ▸ h.verdict, fun hclean => (h.settles hclean).of_place ?_ ?_⟩
  · rw [Place.locals_declare, Place.locals_declare, hl]
  · unfold Place.declare
    rw [hl]
    split <;> simp [hg]

theorem congr (h : Judges G p names sites w w') (hs : (∀ site ∈ sites, site.Allowed G) ↔ ∀ site ∈ others, site.Allowed G) :
    Judges G p names others w w' :=
  ⟨h.verdict.congr (and_congr_right fun _ => hs), h.settles⟩

/-- What comes behind a part of a program stands behind its declarations. -/
theorem append {us : List Use} (h : Judges G p names sites w w') (hadds : Adds us w' w'')
    (h' : Settles G (p.declare names) w' → Judges G (p.declare names) more others w' w'') :
    Judges G p (names ++ more) (sites ++ others) w w'' := by
  constructor
  · refine (h.verdict.andThen hadds fun hclean => (h' (h.settles hclean)).verdict).congr ?_
    rw [Place.locals_declare, Layout.takes_append, List.forall_mem_append]
    exact and_and_and_comm
  · intro hclean
    have hclean' : w'.faults = [] := List.prefix_nil.mp (hclean ▸ hadds.faults)
    have hsettles := (h' (h.settles hclean')).settles hclean
    rw [Place.declare_declare] at hsettles
    exact hsettles.congr fun x => by simp [or_comm]

/-- A scope has each of its names once. -/
theorem inScope {walk : Walk → Walk} (h : Settles G p w) (hn : names.Nodup)
    (hin : ∀ {w}, Settles G (p.inside names) w → Judges G (p.inside names) more sites w (walk w)) :
    Judges G p [] (.scope (names ++ more) :: sites) w (w.inScope names walk) := by
  have hbody := hin (h.enter names)
  refine ⟨hbody.verdict.congr ?_, fun hclean => ?_⟩
  · rw [List.forall_mem_cons, and_iff_right (Layout.takes_nil _)]
    refine and_congr_left fun _ => ?_
    exact (and_iff_left hn).symm.trans Layout.takes_inside
  · rw [Place.declare_nil]
    exact (hbody.settles hclean).leave

end Judges

theorem takes_singleton {l : Layout} {x : String} : l.Takes [x] ↔ l.Free x := by
  cases l <;> simp [Layout.Takes, Layout.Free]

theorem verdict_declare (h : Settles G p w) (t : Token) : Verdict (p.locals.Takes [t.lexeme]) w (w.declare t) := by
  obtain ⟨around, locals, globals⟩ := p
  have hscopes : Settled w.scopes locals := h.scopes
  change Verdict (locals.Takes _) _ _
  unfold Walk.declare
  generalize hs : w.scopes = ss at hscopes ⊢
  cases hscopes with
  | nil => exact .of_same rfl (Layout.takes_top _)
  | @cons scope names outer l hscope houter =>
    rw [takes_singleton]
    dsimp only
    rw [hscope.contains]
    by_cases hmem : t.lexeme ∈ names
    · rw [if_pos (decide_eq_true hmem)]
      exact .of_fault _ _ _ fun hfree => hfree names rfl hmem
    · rw [if_neg (by simpa using hmem)]
      refine .of_same rfl fun scope hscope => ?_
      obtain rfl := Option.some.inj hscope
      exact hmem

theorem globals_declare (h : Settles G p w) (t : Token) (x : String) :
    x ∈ (w.declare t).globals ↔ x ∈ G ∨ x ∈ (p.declare [t.lexeme]).globals := by
  obtain ⟨around, locals, globals⟩ := p
  have hscopes : Settled w.scopes locals := h.scopes
  have hglobals : x ∈ w.globals ↔ x ∈ G ∨ x ∈ globals := h.globals x
  unfold Walk.declare
  generalize hs : w.scopes = ss at hscopes ⊢
  cases hscopes with
  | nil =>
    rw [Std.ExtTreeSet.mem_insert, Std.compare_eq_iff_eq, hglobals, or_left_comm, eq_comm]
    simp [Place.declare]
  | cons hscope houter =>
    dsimp only
    split <;> exact hglobals

theorem faults_define (t : Token) (w : Walk) : (w.define t).faults = w.faults := by
  unfold define
  split <;> rfl

theorem globals_define (t : Token) (w : Walk) : (w.define t).globals = w.globals := by
  unfold define
  split <;> rfl

/-- Between the declaration of a variable and its definition its initial value is read. -/
theorem Judges.declare {us : List Use} (h : Settles G p w) (t : Token) (hadds : Adds us (w.declare t) w')
    (hknown : w'.known = (w.declare t).known)
    (hsites : Reaches G p (p.locals.own t.lexeme) (w.declare t) → Verdict (∀ site ∈ sites, site.Allowed G) (w.declare t) w') :
    Judges G p [t.lexeme] sites w (w'.define t) := by
  have hclean : (w'.define t).faults = [] → (w.declare t).faults = [] := fun hc => by
    rw [faults_define] at hc
    exact List.prefix_nil.mp (hc ▸ hadds.faults)
  have hreaches (hc : (w.declare t).faults = []) : Reaches G p (p.locals.own t.lexeme) (w.declare t) := by
    refine ⟨(declare_shows h.scopes hc).2, fun hown x => ?_⟩
    rw [globals_declare h t x]
    obtain ⟨around, locals, globals⟩ := p
    cases locals with
    | nil => exact absurd rfl hown
    | cons => rfl
  refine ⟨?_, fun hc => ⟨?_, fun x => ?_⟩⟩
  · refine Verdict.congr ?_ Iff.rfl
    have hverdict := (verdict_declare h t).andThen hadds fun hc => hsites (hreaches hc)
    rwa [Verdict, faults_define]
  · rw [Place.locals_declare]
    refine define_settled ?_
    rw [show w'.scopes = (w.declare t).scopes from congrArg Prod.fst hknown]
    exact (hreaches (hclean hc)).scopes
  · rw [globals_define, show w'.globals = (w.declare t).globals from congrArg Prod.snd hknown, globals_declare h t x]

theorem Judges.defined (h : Settles G p w) (t : Token) : Judges G p [t.lexeme] [] w ((w.declare t).define t) :=
  .declare h t (.refl [] _) rfl fun _ => .of_same rfl nofun

theorem judges_parameters (parameters : List Token) : ∀ {p : Place} {w : Walk}, Settles G p w →
    Judges G p (parameters.map Token.lexeme) [] w (parameters.foldl (fun w t => (w.declare t).define t) w) := by
  induction parameters with
  | nil => exact fun h => .refl h
  | cons t rest ih => exact fun h => (Judges.defined h t).append (adds_parameters rest _) ih

theorem judges_expression (e : Expr) (h : Settles G p w) : Judges G p [] (e.sites p none) w (e.resolve p.around w) where
  verdict := (e.verdict h.reaches).congr (and_iff_right (Layout.takes_nil _)).symm
  settles _ := (Place.declare_nil p).symm ▸ h.known (e.known_resolve _ _)

theorem judges_option (e : Option Expr) (h : Settles G p w) :
    Judges G p [] (Expr.sitesOption p none e) w (Expr.resolveOption p.around e w) := by
  cases e with
  | none => exact .refl h
  | some e => exact judges_expression e h

theorem judges_ret (h : Settles G p w) (keyword : Token) (valued : Bool) :
    Judges G p [] [.ret p.around.function valued] w (w.ret p.around keyword valued) := by
  have first : Verdict (p.around.function ≠ .none) w
      (if p.around.function = .none then w.fault keyword .returnAtTopLevel else w) := by
    split
    · rename_i hnone
      exact .of_fault _ _ _ fun hne => hne hnone
    · rename_i hne
      exact .of_same rfl hne
  have second (w : Walk) : Verdict (valued = true → p.around.function ≠ .initializer) w
        (if valued && p.around.function == .initializer then w.fault keyword .returnFromInitializer else w) ∧
      Adds [] w (if valued && p.around.function == .initializer then w.fault keyword .returnFromInitializer else w) := by
    split
    · rename_i hboth
      rw [Bool.and_eq_true, beq_iff_eq] at hboth
      exact ⟨.of_fault _ _ _ fun hne => hne hboth.1 hboth.2, adds_fault ..⟩
    · rename_i hboth
      rw [Bool.and_eq_true, beq_iff_eq] at hboth
      exact ⟨.of_same rfl fun hvalued hinit => hboth ⟨hvalued, hinit⟩, .refl _ _⟩
  refine ⟨(first.andThen (second _).2 fun _ => (second _).1).congr ?_, fun _ => ?_⟩
  · rw [and_iff_right (Layout.takes_nil _), List.forall_mem_singleton]
    rfl
  · exact (Place.declare_nil p).symm ▸ h.known (known_ret _ _ _ _)

theorem judges_superclass (h : Settles G p w) (u : NameUse) (cls : Token) :
    Judges G p [] [.classDecl cls.lexeme (some u.name.lexeme)] w (u.resolveSuperclass cls w) := by
  have first : Verdict (u.name.lexeme ≠ cls.lexeme) w
      (if u.name.lexeme = cls.lexeme then w.fault u.name .inheritsFromItself else w) := by
    split
    · rename_i heq
      exact .of_fault _ _ _ fun hne => hne heq
    · rename_i hne
      exact .of_same rfl hne
  have hknown : Walk.known (if u.name.lexeme = cls.lexeme then w.fault u.name .inheritsFromItself else w) = w.known := by
    split <;> rfl
  have hread := verdict_read (h.reaches.known hknown) u.id u.name
  refine ⟨(first.andThen (adds_read .read u.id u.name _) fun _ => hread).congr ?_, fun _ => ?_⟩
  · have hplain : Use.Allowed G p none ⟨.read, u.id, u.name⟩ := nofun
    rw [and_iff_left hplain, and_iff_right (Layout.takes_nil _), List.forall_mem_singleton]
    exact not_congr Option.some_inj.symm
  · exact (Place.declare_nil p).symm ▸ h.known (u.known_resolveSuperclass cls w)

theorem Stmt.declared_cons (s : Stmt) (rest : List Stmt) : declared (s :: rest) = s.declares ++ declared rest :=
  List.flatMap_cons

/-- The methods of a class stand in the scope of the instance. -/
theorem judges_class {methods : List Function} {k : FunctionKind} {c : ClassKind} (h : Settles G p w)
    (hin : ∀ {q : Place} {w : Walk}, Settles G q w →
      Judges G q [] (Function.sitesEach q methods) w (Function.resolveMethods q.around methods w))
    (hq : q.around = ⟨k, c⟩) (hl : q.locals = ["this"] :: p.locals) (hg : q.globals = p.globals) :
    Judges G p [] (Function.sitesEach q methods) w
      (w.inScope ["this"] (Function.resolveMethods ⟨k, c⟩ methods)) := by
  have hthis : Site.Allowed G (.scope (["this"] ++ [])) := by simp [Site.Allowed]
  refine (Judges.inScope h (List.nodup_singleton "this") fun hinside => ?_).congr
    (List.forall_mem_cons.trans (and_iff_right hthis))
  rw [← hq]
  exact (hin (hinside.of_place hl hg)).of_place hl.symm hg.symm

mutual

theorem Stmt.judges : ∀ (s : Stmt) {p : Place} {w : Walk}, s.Tidy → Settles G p w →
    Judges G p s.declares (s.sites p) w (s.resolve p.around w)
  | .expression e, _, _, _, h | .print e, _, _, _, h => judges_expression e h
  | .var name initial, p, w, _, h =>
    .declare h name (Expr.adds_resolveOption _ initial _) (Expr.known_resolveOption _ initial _)
      fun hreaches => Expr.verdict_option initial hreaches
  | .block body, _, _, ht, h => Judges.inScope h .nil fun hin => Stmt.judgesEach body ht hin
  | .branch condition yes no, p, w, ht, h => by
    have hyes : ∀ {w}, Settles G p w → Judges G p [] (yes.sites p) w (yes.resolve p.around w) := fun hw =>
      ht.2.1 ▸ yes.judges ht.1 hw
    have hboth : Judges G p [] (condition.sites p none ++ yes.sites p) w (yes.resolve p.around (condition.resolve p.around w)) := by
      refine (judges_expression condition h).append (yes.adds_resolve _ _) fun hw => ?_
      rw [Place.declare_nil] at hw ⊢
      exact hyes hw
    refine hboth.append (Stmt.adds_resolveOption _ no _) fun hw => ?_
    rw [Place.declare_nil] at hw ⊢
    exact Stmt.judgesOption no ht.2.2 hw
  | .loop condition body, p, w, ht, h => by
    refine (judges_expression condition h).append (body.adds_resolve _ _) fun hw => ?_
    rw [Place.declare_nil] at hw ⊢
    exact ht.2 ▸ body.judges ht.1 hw
  | .function f, p, w, ht, h => by
    refine (Judges.defined h f.name).append (f.adds_resolve .function p.around _) fun hw => ?_
    have hf := f.judges .function ht.2 hw
    rwa [Place.around_declare] at hf
  | .ret keyword value, p, w, _, h => by
    refine (judges_ret h keyword value.isSome).append (Expr.adds_resolveOption _ value _) fun hw => ?_
    rw [Place.declare_nil] at hw ⊢
    exact judges_option value hw
  | .classDecl name none methods, p, w, ht, h => by
    have hplain : Site.Allowed G (.classDecl name.lexeme none) := nofun
    refine ((Judges.defined h name).append (adds_inScope ["this"] (Function.adds_resolveMethods _ methods) _)
      fun hw => ?_).congr (List.forall_mem_cons.trans (and_iff_right hplain)).symm
    exact judges_class hw (fun hq => Function.judgesEach methods ht.2 hq) (by simp [Place.inClass]) rfl rfl
  | .classDecl name (some u) methods, p, w, ht, h => by
    refine (Judges.defined h name).append ((u.adds_resolveSuperclass name _).trans (adds_inScope ["super"]
      (fun w => adds_inScope ["this"] (Function.adds_resolveMethods _ methods) w) _)) fun hw => ?_
    refine (judges_superclass hw u name).append (adds_inScope ["super"]
      (fun w => adds_inScope ["this"] (Function.adds_resolveMethods _ methods) w) _) fun hw => ?_
    rw [Place.declare_nil] at hw ⊢
    have hsuper : Site.Allowed G (.scope (["super"] ++ [])) := by simp [Site.Allowed]
    refine (Judges.inScope hw (List.nodup_singleton "super") fun hinside => ?_).congr
      (List.forall_mem_cons.trans (and_iff_right hsuper))
    exact judges_class hinside (fun hq => Function.judgesEach methods ht.2 hq) (by simp [Place.inClass]) rfl rfl

theorem Stmt.judgesEach : ∀ (body : List Stmt) {p : Place} {w : Walk}, Stmt.TidyEach body → Settles G p w →
    Judges G p (Stmt.declared body) (Stmt.sitesEach p body) w (Stmt.resolveEach p.around body w)
  | [], _, _, _, h => .refl h
  | s :: rest, p, w, ht, h => by
    rw [Stmt.declared_cons]
    refine (s.judges ht.1 h).append (Stmt.adds_resolveEach _ rest _) fun hw => ?_
    have hrest := Stmt.judgesEach rest ht.2 hw
    rwa [Place.around_declare] at hrest

theorem Stmt.judgesOption : ∀ (s : Option Stmt) {p : Place} {w : Walk}, Stmt.TidyOption s → Settles G p w →
    Judges G p [] (Stmt.sitesOption p s) w (Stmt.resolveOption p.around s w)
  | none, _, _, _, h => .refl h
  | some s, _, _, ht, h => ht.2 ▸ s.judges ht.1 h

theorem Function.judges : ∀ (f : Function) (kind : FunctionKind) {p : Place} {w : Walk}, f.Tidy → Settles G p w →
    Judges G p [] (f.sites kind p) w (f.resolve kind p.around w)
  | .mk _ parameters body, kind, p, w, ht, h => by
    have hl : (p.inFunction kind (parameters.map Token.lexeme)).locals =
        ((p.inside []).declare (parameters.map Token.lexeme)).locals := by
      simp [Place.inFunction, Place.inside, Layout.declare]
    have hg : (p.inFunction kind (parameters.map Token.lexeme)).globals =
        ((p.inside []).declare (parameters.map Token.lexeme)).globals := rfl
    have hin : ∀ {w}, Settles G (p.inside []) w → Judges G (p.inside [])
        (parameters.map Token.lexeme ++ Stmt.declared body)
        (Stmt.sitesEach (p.inFunction kind (parameters.map Token.lexeme)) body) w
        (Stmt.resolveEach ⟨kind, p.around.cls⟩ body (parameters.foldl (fun w t => (w.declare t).define t) w)) := fun hin => by
      refine (judges_parameters parameters hin).append (Stmt.adds_resolveEach _ body _) fun hw => ?_
      exact (Stmt.judgesEach body ht.2 (hw.of_place hl hg)).of_place hl.symm hg.symm
    exact Judges.inScope h .nil hin

theorem Function.judgesEach : ∀ (fs : List Function) {p : Place} {w : Walk}, Function.TidyEach fs → Settles G p w →
    Judges G p [] (Function.sitesEach p fs) w (Function.resolveMethods p.around fs w)
  | [], _, _, _, h => .refl h
  | f :: rest, p, w, ht, h => by
    refine (f.judges _ ht.1 h).append (Function.adds_resolveMethods _ rest _) fun hw => ?_
    rw [Place.declare_nil] at hw ⊢
    exact Function.judgesEach rest ht.2 hw

end

theorem resolve_isOk {statements : List Stmt} :
    (resolve G statements).isOk ↔ (Stmt.resolveEach .topLevel statements (.start G)).faults = [] := by
  unfold resolve
  dsimp only
  split
  · rename_i hclean
    exact iff_of_true rfl (List.isEmpty_iff.mp hclean)
  · rename_i hfaults
    exact iff_of_false Bool.false_ne_true fun hclean => hfaults (List.isEmpty_iff.mpr hclean)

/-- The walk over a whole program. -/
theorem resolve_iff_sites {statements : List Stmt} (h : Stmt.TidyEach statements) :
    (resolve G statements).isOk ↔ WellFormed G (Stmt.sitesEach .topLevel statements) := by
  have hstart : Settles G .topLevel (.start G) := ⟨.nil, fun x => by simp [Walk.start, Place.topLevel]⟩
  rw [resolve_isOk, wellFormed_iff]
  refine (Stmt.judgesEach statements h hstart).verdict.trans ?_
  exact (and_iff_right rfl).trans (and_iff_right (Layout.takes_top _))

end LoxLang
