import LoxLang.Proofs.Binding.Charts

/-! The distances recorded by a walk without faults fit the layout of the program, use by use and then by induction
on the tree. -/

namespace LoxLang

open Walk

/-- Inside a class with a superclass, the frame of the superclass is the one just outside that of the instance. -/
def Surroundings.Fits (around : Surroundings) (l : Layout) : Prop :=
  around.cls = .derived → ∃ d, l.hops? "this" = some d ∧ l.hops? "super" = some (d + 1)

variable {c : Chart} {own : Option String} {l : Layout} {around : Surroundings}

theorem bindings_use {w : Walk} {id : NodeId} (h : w.bindings[id]? = none) (name : String) :
    (w.use id name).bindings[id]? = distance? name w.scopes := by
  unfold use
  cases distance? name w.scopes with
  | none => exact h
  | some d => exact Std.ExtTreeMap.getElem?_insert_self

theorem read_fits {w : Walk} {id : NodeId} {t : Token} (hw : Shows w.scopes own l)
    (h : Charted c own [⟨.read, id, t⟩] w (w.read id t)) : Use.Fits c own l ⟨.read, id, t⟩ := by
  have hfresh : w.bindings[id]? = none := h.fresh ⟨.read, id, t⟩ (by simp)
  have hclean := h.clean
  obtain ⟨hid, hb⟩ := h.known ⟨.read, id, t⟩ (by simp)
  refine ⟨hid, hb.trans ?_⟩
  by_cases hown : own = some t.lexeme
  · subst hown
    have hi := hw.isInitializing t.lexeme
    rw [hw.hops_of_own]
    unfold Walk.read at hclean ⊢
    simp only [decide_true] at hi
    rw [if_pos hi] at hclean ⊢
    cases hd : distance? t.lexeme w.scopes.tail with
    | some d => exact Std.ExtTreeMap.getElem?_insert_self
    | none =>
      -- No entry: the name is a known global, for otherwise there would be a fault.
      rw [hd] at hclean
      simp only at hclean ⊢
      split at hclean
      · rename_i hg
        rw [if_pos hg]
        exact hfresh
      · simp [fault] at hclean
  · have hi := hw.isInitializing t.lexeme
    rw [decide_eq_false hown] at hi
    unfold Walk.read
    rw [hi, if_neg (by simp), bindings_use hfresh, hw.distance, if_neg hown]

theorem assign_fits {w : Walk} {id : NodeId} {t : Token} (hw : Shows w.scopes own l)
    (h : Charted c own [⟨.assign, id, t⟩] w (w.use id t.lexeme)) : Use.Fits c own l ⟨.assign, id, t⟩ := by
  obtain ⟨hid, hb⟩ := h.known ⟨.assign, id, t⟩ (by simp)
  rw [bindings_use (h.fresh ⟨.assign, id, t⟩ (by simp)), hw.distance] at hb
  refine ⟨hid, ?_⟩
  dsimp only at hb ⊢
  split
  · rename_i hown
    rw [if_pos hown] at hb
    refine ⟨?_, hb⟩
    cases hp : c.plain with
    | false => rfl
    | true => exact absurd hown (h.plain hp ⟨.assign, id, t⟩ (by simp) rfl)
  · rename_i hown
    rw [hb, if_neg hown]

theorem self_fits {w : Walk} {id : NodeId} {t : Token} (hw : Shows w.scopes own l)
    (hreserved : ∀ x ∈ own, x ∉ reserved)
    (h : Charted c own [⟨.self, id, t⟩] w (w.self around id t)) : Use.Fits c own l ⟨.self, id, t⟩ := by
  have hclean := h.clean
  have ht : t.lexeme = "this" := h.proper ⟨.self, id, t⟩ (by simp)
  have hown : own ≠ some t.lexeme := fun e => hreserved _ e (by simp [ht, reserved])
  obtain ⟨hid, hb⟩ := h.known ⟨.self, id, t⟩ (by simp)
  refine ⟨hid, hb.trans ?_⟩
  unfold Walk.self at hclean ⊢
  split at hclean
  · simp [fault] at hclean
  · exact (bindings_use (h.fresh ⟨.self, id, t⟩ (by simp)) _).trans ((hw.distance _).trans (if_neg hown))

theorem inherited_fits {w : Walk} {id : NodeId} {t : Token} (hw : Shows w.scopes own l)
    (hreserved : ∀ x ∈ own, x ∉ reserved) (haround : around.Fits l)
    (h : Charted c own [⟨.inherited, id, t⟩] w (w.inherited around id t)) :
    Use.Fits c own l ⟨.inherited, id, t⟩ := by
  have hclean := h.clean
  have ht : t.lexeme = "super" := h.proper ⟨.inherited, id, t⟩ (by simp)
  have hown : own ≠ some t.lexeme := fun e => hreserved _ e (by simp [ht, reserved])
  obtain ⟨hid, hb⟩ := h.known ⟨.inherited, id, t⟩ (by simp)
  unfold Walk.inherited at hclean hb
  split at hclean
  · simp [fault] at hclean
  · simp [fault] at hclean
  · rename_i hcls
    obtain ⟨d, hthis, hsuper⟩ := haround hcls
    rw [hcls] at hb
    have := (bindings_use (h.fresh ⟨.inherited, id, t⟩ (by simp)) t.lexeme).trans ((hw.distance _).trans (if_neg hown))
    refine ⟨hid, ht, d, hthis, hsuper, ?_⟩
    rw [← hsuper, ← ht]
    exact hb.trans this

/-- What a walk knows besides what it has found. -/
def Walk.known (w : Walk) : List Scope × Std.ExtTreeSet String := (w.scopes, w.globals)

theorem known_use (id : NodeId) (name : String) (w : Walk) : (w.use id name).known = w.known := by
  unfold use
  split <;> rfl

theorem scopes_use (id : NodeId) (name : String) (w : Walk) : (w.use id name).scopes = w.scopes :=
  congrArg Prod.fst (known_use id name w)

theorem known_read (id : NodeId) (t : Token) (w : Walk) : (w.read id t).known = w.known := by
  unfold Walk.read
  split
  · split
    · rfl
    · split <;> rfl
  · exact known_use _ _ _

theorem known_self (around : Surroundings) (id : NodeId) (t : Token) (w : Walk) :
    (w.self around id t).known = w.known := by
  unfold Walk.self
  split
  · rfl
  · exact known_use _ _ _

theorem known_inherited (around : Surroundings) (id : NodeId) (t : Token) (w : Walk) :
    (w.inherited around id t).known = w.known := by
  unfold Walk.inherited
  split
  · rfl
  · rfl
  · exact known_use _ _ _

mutual

theorem Expr.known_resolve (around : Surroundings) :
    ∀ (e : Expr) (w : Walk), (e.resolve around w).known = w.known
  | .literal _, _ => rfl
  | .grouping inner, w => inner.known_resolve around w
  | .unary _ operand, w => operand.known_resolve around w
  | .binary left _ right, w | .logical left _ right, w =>
    (right.known_resolve around _).trans (left.known_resolve around w)
  | .read id name, w => known_read id name w
  | .assign id name value, w => (known_use id name.lexeme _).trans (value.known_resolve around w)
  | .call callee _ arguments, w =>
    (Expr.known_resolveEach around arguments _).trans (callee.known_resolve around w)
  | .get object _, w => object.known_resolve around w
  | .set object _ value, w => (object.known_resolve around _).trans (value.known_resolve around w)
  | .self id keyword, w => known_self around id keyword w
  | .inherited id keyword _, w => known_inherited around id keyword w

theorem Expr.known_resolveEach (around : Surroundings) :
    ∀ (es : List Expr) (w : Walk), (Expr.resolveEach around es w).known = w.known
  | [], _ => rfl
  | e :: rest, w => (Expr.known_resolveEach around rest _).trans (e.known_resolve around w)

end

theorem Expr.known_resolveOption (around : Surroundings) (e : Option Expr) (w : Walk) :
    (Expr.resolveOption around e w).known = w.known := by
  cases e with
  | none => rfl
  | some e => exact e.known_resolve around w

theorem known_ret (around : Surroundings) (t : Token) (valued : Bool) (w : Walk) :
    (w.ret around t valued).known = w.known := by
  unfold Walk.ret
  dsimp only
  split <;> split <;> rfl

theorem NameUse.known_resolveSuperclass (u : NameUse) (cls : Token) (w : Walk) :
    (u.resolveSuperclass cls w).known = w.known := by
  unfold resolveSuperclass
  refine (known_read _ _ _).trans ?_
  split <;> rfl

theorem Expr.scopes_resolve (around : Surroundings) (e : Expr) (w : Walk) : (e.resolve around w).scopes = w.scopes :=
  congrArg Prod.fst (e.known_resolve around w)

theorem Expr.scopes_resolveOption (around : Surroundings) (e : Option Expr) (w : Walk) :
    (Expr.resolveOption around e w).scopes = w.scopes := congrArg Prod.fst (Expr.known_resolveOption around e w)

theorem scopes_ret (around : Surroundings) (t : Token) (valued : Bool) (w : Walk) :
    (w.ret around t valued).scopes = w.scopes := congrArg Prod.fst (known_ret around t valued w)

mutual

theorem Expr.fits_resolve (hreserved : ∀ x ∈ own, x ∉ reserved) (haround : around.Fits l) :
    ∀ (e : Expr) (w : Walk), Shows w.scopes own l → Charted c own e.uses w (e.resolve around w) → e.Fits c own l
  | .literal _, _, _, _ => fun _ hu => nomatch hu
  | .grouping inner, w, hw, h => inner.fits_resolve hreserved haround w hw h
  | .unary _ operand, w, hw, h => operand.fits_resolve hreserved haround w hw h
  | .binary left _ right, w, hw, h | .logical left _ right, w, hw, h => by
    obtain ⟨hl, hr⟩ := h.split (left.adds_resolve around w) (right.adds_resolve around _)
    refine List.forall_mem_append.mpr ⟨?_, ?_⟩
    · exact left.fits_resolve hreserved haround w hw hl
    · exact right.fits_resolve hreserved haround _ ((left.scopes_resolve around w).symm ▸ hw) hr
  | .read id name, w, hw, h => List.forall_mem_singleton.mpr (read_fits hw h)
  | .assign id name value, w, hw, h => by
    obtain ⟨hv, ha⟩ := (h.perm (List.perm_append_singleton _ _).symm).split (value.adds_resolve around w)
      (adds_use .assign name id name.lexeme _)
    refine List.forall_mem_cons.mpr ⟨?_, ?_⟩
    · exact assign_fits ((value.scopes_resolve around w).symm ▸ hw) ha
    · exact value.fits_resolve hreserved haround w hw hv
  | .call callee _ arguments, w, hw, h => by
    obtain ⟨hf, ha⟩ := h.split (callee.adds_resolve around w) (Expr.adds_resolveEach around arguments _)
    refine List.forall_mem_append.mpr ⟨?_, ?_⟩
    · exact callee.fits_resolve hreserved haround w hw hf
    · exact Expr.fits_resolveEach hreserved haround arguments _ ((callee.scopes_resolve around w).symm ▸ hw) ha
  | .get object _, w, hw, h => object.fits_resolve hreserved haround w hw h
  | .set object _ value, w, hw, h => by
    obtain ⟨hv, ho⟩ := (h.perm List.perm_append_comm).split (value.adds_resolve around w)
      (object.adds_resolve around _)
    refine List.forall_mem_append.mpr ⟨?_, ?_⟩
    · exact object.fits_resolve hreserved haround _ ((value.scopes_resolve around w).symm ▸ hw) ho
    · exact value.fits_resolve hreserved haround w hw hv
  | .self id keyword, w, hw, h => List.forall_mem_singleton.mpr (self_fits hw hreserved h)
  | .inherited id keyword _, w, hw, h => List.forall_mem_singleton.mpr (inherited_fits hw hreserved haround h)

theorem Expr.fits_resolveEach (hreserved : ∀ x ∈ own, x ∉ reserved) (haround : around.Fits l) :
    ∀ (es : List Expr) (w : Walk), Shows w.scopes own l →
      Charted c own (Expr.usesEach es) w (Expr.resolveEach around es w) → ∀ u ∈ Expr.usesEach es, u.Fits c own l
  | [], _, _, _ => fun _ hu => nomatch hu
  | e :: rest, w, hw, h => by
    obtain ⟨he, hr⟩ := h.split (e.adds_resolve around w) (Expr.adds_resolveEach around rest _)
    refine List.forall_mem_append.mpr ⟨?_, ?_⟩
    · exact e.fits_resolve hreserved haround w hw he
    · exact Expr.fits_resolveEach hreserved haround rest _ ((e.scopes_resolve around w).symm ▸ hw) hr

end

theorem clean_declare {w : Walk} {t : Token} (h : ((w.declare t).define t).faults = []) : (w.declare t).faults = [] := by
  have hdefine := (adds_define t (w.declare t)).faults
  rw [h] at hdefine
  exact List.prefix_nil.mp hdefine

theorem declare_shows {w : Walk} {t : Token} (h : Settled w.scopes l) (hclean : (w.declare t).faults = []) :
    l.Free t.lexeme ∧ Shows (w.declare t).scopes (l.own t.lexeme) l := by
  unfold declare at hclean ⊢
  generalize hs : w.scopes = ss at h hclean ⊢
  cases h with
  | nil =>
    refine ⟨by simp [Layout.Free], ?_⟩
    exact .settled .nil
  | @cons scope names outer l hscope houter =>
    have hc := hscope.contains t.lexeme
    simp only [hc, decide_eq_true_eq] at hclean ⊢
    by_cases hm : t.lexeme ∈ names
    · rw [if_pos hm] at hclean
      simp [fault] at hclean
    · rw [if_neg hm]
      refine ⟨?_, .declaring (.cons hscope houter) hm⟩
      intro scope' hscope'
      cases hscope'
      exact hm

theorem define_settled {w : Walk} {t : Token} (h : Shows w.scopes (l.own t.lexeme) l) :
    Settled (w.define t).scopes (l.declare [t.lexeme]) := by
  unfold define
  generalize hs : w.scopes = ss at h ⊢
  generalize ho : l.own t.lexeme = own at h
  cases h with
  | settled h =>
    cases h with
    | nil =>
      rw [hs]
      exact .nil
    | cons hscope houter => cases ho
  | @declaring scope scopes names l x h hx =>
    cases ho
    cases h with
    | cons hscope houter =>
      refine .cons ?_ houter
      intro y
      by_cases hy : t.lexeme = y
      · simp [hy]
      · simp [Std.ExtTreeMap.getElem?_insert, hy, hscope y, Ne.symm hy]

theorem settled_tail {scopes : List Scope} {names : List String} (h : Settled scopes (names :: l)) :
    Settled scopes.tail l := by
  cases h with
  | cons _ h => exact h

theorem settled_open {w : Walk} (h : Settled w.scopes l) (names : List String) :
    Settled (names.foldl (fun (s : Scope) name => s.insert name .defined) ∅ :: w.scopes) (names :: l) := by
  refine .cons ?_ h
  have step : ∀ (more known : List String) (s : Scope), s.Shows known →
      Scope.Shows (more.foldl (fun (s : Scope) name => s.insert name .defined) s) (more.reverse ++ known) := by
    intro more
    induction more with
    | nil => intro known s hs; exact hs
    | cons x rest ih =>
      intro known s hs
      rw [List.foldl_cons, List.reverse_cons, List.append_assoc]
      exact ih _ _ (hs.insert fun y => by simp)
  intro y
  have := step names [] ∅ (fun x => by simp) y
  simpa using this

theorem Surroundings.Fits.push (h : around.Fits l) {names : List String} (hn : ∀ x ∈ names, x ∉ reserved) :
    around.Fits (names :: l) := by
  intro hd
  obtain ⟨d, hthis, hsuper⟩ := h hd
  have ht : "this" ∉ names := fun hm => hn _ hm (by simp [reserved])
  have hs : "super" ∉ names := fun hm => hn _ hm (by simp [reserved])
  exact ⟨d + 1, by rw [Layout.hops?_cons_of_not_mem ht, hthis]; rfl,
    by rw [Layout.hops?_cons_of_not_mem hs, hsuper]; rfl⟩

theorem Surroundings.Fits.declare (h : around.Fits l) {names : List String} (hn : ∀ x ∈ names, x ∉ reserved) :
    around.Fits (l.declare names) := by
  intro hd
  have ht : "this" ∉ names := fun hm => hn _ hm (by simp [reserved])
  have hs : "super" ∉ names := fun hm => hn _ hm (by simp [reserved])
  rw [Layout.hops?_declare_of_not_mem ht, Layout.hops?_declare_of_not_mem hs]
  exact h hd

/-- The scope of a function once its parameters are declared: none of them is declared twice. -/
theorem parameters_settled (parameters : List Token) : ∀ (w : Walk) (known : List String),
    Settled w.scopes (known :: l) → (parameters.foldl (fun w t => (w.declare t).define t) w).faults = [] →
      (parameters.map Token.lexeme).Nodup ∧ (∀ x ∈ parameters.map Token.lexeme, x ∉ known) ∧
        Settled (parameters.foldl (fun w t => (w.declare t).define t) w).scopes
          (((parameters.map Token.lexeme).reverse ++ known) :: l) := by
  induction parameters with
  | nil => intro w known h _; exact ⟨List.nodup_nil, by simp, h⟩
  | cons t rest ih =>
    intro w known h hclean
    rw [List.foldl_cons] at hclean ⊢
    have hdefine : ((w.declare t).define t).faults = [] := by
      have := (adds_parameters rest ((w.declare t).define t)).faults
      rw [hclean] at this
      exact List.prefix_nil.mp this
    have hdeclare : (w.declare t).faults = [] := by
      have := (adds_define t (w.declare t)).faults
      rw [hdefine] at this
      exact List.prefix_nil.mp this
    obtain ⟨hfree, hshows⟩ := declare_shows h hdeclare
    obtain ⟨hnodup, hnew, hsettled⟩ := ih _ (t.lexeme :: known) (define_settled hshows) hclean
    have ht : t.lexeme ∉ known := hfree known rfl
    refine ⟨?_, ?_, ?_⟩
    · rw [List.map_cons, List.nodup_cons]
      exact ⟨fun hm => hnew _ hm List.mem_cons_self, hnodup⟩
    · rw [List.map_cons, List.forall_mem_cons]
      exact ⟨ht, fun x hx hk => hnew x hx (List.mem_cons_of_mem _ hk)⟩
    · rw [List.map_cons, List.reverse_cons, List.append_assoc]
      exact hsettled

theorem Settled.congr {scopes : List Scope} {names names' : List String} (h : Settled scopes (names :: l))
    (hn : ∀ x, x ∈ names ↔ x ∈ names') : Settled scopes (names' :: l) := by
  cases h with
  | cons hscope houter => exact .cons (fun x => by rw [hscope x]; simp only [hn x]) houter

theorem settled_declare_nil {scopes scopes' : List Scope} (h : Settled scopes l) (hs : scopes' = scopes) :
    Settled scopes' (l.declare []) := by rwa [Layout.declare_nil, hs]

theorem NameUse.fits_use_declare {u : NameUse} {names : List String} (h : u.name.lexeme ∉ names) :
    u.use.Fits c none (l.declare names) ↔ u.use.Fits c none l := by
  simp only [Use.Fits, NameUse.use, Layout.hops?_declare_of_not_mem h]

/-- The superclass is another name than that of the class. -/
theorem NameUse.fits_resolveSuperclass {u : NameUse} {cls : Token} {w : Walk} (hw : Settled w.scopes l)
    (h : Charted c none [u.use] w (u.resolveSuperclass cls w)) :
    u.use.Fits c none l ∧ u.name.lexeme ≠ cls.lexeme ∧ (u.resolveSuperclass cls w).scopes = w.scopes := by
  unfold NameUse.resolveSuperclass at h ⊢
  dsimp only at h ⊢
  by_cases hne : u.name.lexeme = cls.lexeme
  · rw [if_pos hne] at h
    have := (adds_read .read u.id u.name (w.fault u.name .inheritsFromItself)).faults
    rw [h.clean] at this
    simp [fault] at this
  · rw [if_neg hne] at h ⊢
    exact ⟨read_fits (.settled hw) h, hne, congrArg Prod.fst (known_read _ _ _)⟩

theorem Expr.fits_resolveOption {name : Token} (hreserved : name.lexeme ∉ reserved) (haround : around.Fits l)
    {initial : Option Expr} {w : Walk} (hw : Shows w.scopes (l.own name.lexeme) l)
    (hplain : c.plain = true → Stmt.KeepsOwn (!l.isEmpty) (.var name initial))
    (h : Charted c none (Expr.usesOption initial) w (Expr.resolveOption around initial w)) :
    ∀ e ∈ initial, e.Fits c (l.own name.lexeme) l := by
  intro e he
  cases he
  have hown : ∀ x ∈ l.own name.lexeme, x ∉ reserved := by
    intro x hx
    cases l with
    | nil => cases hx
    | cons _ _ =>
      cases hx
      exact hreserved
  refine e.fits_resolve hown haround w hw (h.inside fun hc u hu ha hx => ?_)
  cases l with
  | nil => cases hx
  | cons _ _ => exact hplain hc rfl e rfl ⟨u, hu, ha, (Option.some.inj hx).symm⟩

mutual

/-- The induction is on the tree. A walk without faults over a statement makes its distances fit, and ends with
the scopes that show what the statement declares. -/
theorem Stmt.fits_resolve : ∀ (s : Stmt) {l : Layout} {around : Surroundings} (w : Walk),
    around.Fits l → s.Tidy → (c.plain = true → s.KeepsOwn (!l.isEmpty)) → Settled w.scopes l →
      Charted c none s.uses w (s.resolve around w) →
        s.Fits c l ∧ Settled (s.resolve around w).scopes (l.declare s.declares)
  | .expression e, l, around, w, ha, _, _, hw, h | .print e, l, around, w, ha, _, _, hw, h => by
    exact ⟨e.fits_resolve (by simp) ha w (.settled hw) h, settled_declare_nil hw (e.scopes_resolve around w)⟩
  | .var name initial, l, around, w, ha, ht, hp, hw, h => by
    have hinit : Charted c none (Expr.usesOption initial) (w.declare name)
        (Expr.resolveOption around initial (w.declare name)) :=
      (Charted.after h (adds_declare name w)).before (adds_define name _)
    obtain ⟨hfree, hshows⟩ := declare_shows hw
      (hinit.clean_before (Expr.adds_resolveOption around initial _))
    refine ⟨⟨hfree, Expr.fits_resolveOption ht ha hshows hp hinit⟩, define_settled ?_⟩
    rw [Expr.scopes_resolveOption]
    exact hshows
  | .block body, l, around, w, ha, ht, hp, hw, h => by
    have hopen : around.Fits ([] :: l) := ha.push (by simp)
    obtain ⟨hfits, names, hsettled⟩ := Stmt.fits_resolveEach body _ hopen ht hp (settled_open hw []) h.inScope
    refine ⟨hfits, ?_⟩
    rw [show l.declare (Stmt.declares (.block body)) = l from Layout.declare_nil l]
    exact settled_tail hsettled
  | .branch condition yes no, l, around, w, ha, ht, hp, hw, h => by
    obtain ⟨hcy, hno⟩ := Charted.split h
      ((condition.adds_resolve around w).trans (yes.adds_resolve around _)) (Stmt.adds_resolveOption around no _)
    obtain ⟨hcond, hyes⟩ := hcy.split (condition.adds_resolve around w) (yes.adds_resolve around _)
    obtain ⟨hyesFits, hyesSettled⟩ := yes.fits_resolve _ ha ht.1 (fun hc => (hp hc).1)
      ((condition.scopes_resolve around w).symm ▸ hw) hyes
    rw [ht.2.1, Layout.declare_nil] at hyesSettled
    obtain ⟨hnoFits, hnoSettled⟩ := Stmt.fits_resolveOption no _ ha ht.2.2 (fun hc => (hp hc).2) hyesSettled hno
    refine ⟨⟨condition.fits_resolve (by simp) ha w (.settled hw) hcond, hyesFits, ht.2.1, hnoFits⟩, ?_⟩
    rw [show l.declare (Stmt.declares (.branch condition yes no)) = l from Layout.declare_nil l]
    exact hnoSettled
  | .loop condition body, l, around, w, ha, ht, hp, hw, h => by
    obtain ⟨hcond, hbody⟩ := Charted.split h (condition.adds_resolve around w) (body.adds_resolve around _)
    obtain ⟨hbodyFits, hbodySettled⟩ := body.fits_resolve _ ha ht.1 hp
      ((condition.scopes_resolve around w).symm ▸ hw) hbody
    refine ⟨⟨condition.fits_resolve (by simp) ha w (.settled hw) hcond, hbodyFits, ht.2⟩, ?_⟩
    rw [ht.2] at hbodySettled
    exact hbodySettled
  | .function f, l, around, w, ha, ht, hp, hw, h => by
    have hbody : Charted c none f.uses ((w.declare f.name).define f.name) _ :=
      Charted.after (Charted.after h (adds_declare f.name w)) (adds_define f.name _)
    obtain ⟨hfree, hshows⟩ :=
      declare_shows hw (clean_declare (hbody.clean_before (f.adds_resolve .function around _)))
    have haround : around.Fits (l.declare [f.name.lexeme]) := ha.declare (List.forall_mem_singleton.mpr ht.1)
    obtain ⟨hfits, hsettled⟩ := f.fits_resolve .function _ haround ht.2 hp (define_settled hshows) hbody
    exact ⟨⟨hfree, hfits⟩, hsettled⟩
  | .ret keyword value, l, around, w, ha, _, _, hw, h => by
    have hvalue : Charted c none (Expr.usesOption value) (w.ret around keyword value.isSome)
        (Expr.resolveOption around value (w.ret around keyword value.isSome)) :=
      Charted.after h (adds_ret around keyword value.isSome w)
    have hscopes := scopes_ret around keyword value.isSome w
    refine ⟨?_, settled_declare_nil hw ((Expr.scopes_resolveOption around value _).trans hscopes)⟩
    intro e he
    cases he
    exact e.fits_resolve (by simp) ha _ (.settled (hscopes.symm ▸ hw)) hvalue
  | .classDecl name none methods, l, around, w, ha, ht, hp, hw, h => by
    have hbody : Charted c none (Function.usesEach methods) ((w.declare name).define name) _ :=
      Charted.after (Charted.after h (adds_declare name w)) (adds_define name _)
    obtain ⟨hfree, hshows⟩ := declare_shows hw (clean_declare (hbody.clean_before
      (adds_inScope ["this"] (Function.adds_resolveMethods ⟨around.function, .base⟩ methods) _)))
    have hthis : Surroundings.Fits ⟨around.function, .base⟩ (["this"] :: l.declare [name.lexeme]) := nofun
    obtain ⟨hfits, hsettled⟩ := Function.fits_resolveMethods methods _ hthis ht.2 hp
      (settled_open (define_settled hshows) ["this"]) hbody.inScope
    exact ⟨⟨hfree, by simp, hfits⟩, settled_tail hsettled⟩
  | .classDecl name (some u) methods, l, around, w, ha, ht, hp, hw, h => by
    have hdeclared : Charted c none ([u.use] ++ Function.usesEach methods) ((w.declare name).define name) _ :=
      Charted.after (Charted.after h (adds_declare name w)) (adds_define name _)
    obtain ⟨hu, hbody⟩ := hdeclared.split (u.adds_resolveSuperclass name _)
      (adds_inScope ["super"]
        (fun w => adds_inScope ["this"] (Function.adds_resolveMethods ⟨around.function, .derived⟩ methods) w) _)
    obtain ⟨hfree, hshows⟩ :=
      declare_shows hw (clean_declare (hu.clean_before (u.adds_resolveSuperclass name _)))
    have hdefined := define_settled hshows
    obtain ⟨huFits, hne, hscopes⟩ := u.fits_resolveSuperclass hdefined hu
    have hthis : Surroundings.Fits ⟨around.function, .derived⟩ (["this"] :: ["super"] :: l.declare [name.lexeme]) :=
      fun _ => ⟨0, rfl, by rw [Layout.hops?_cons_of_not_mem (by simp), Layout.hops?_cons_of_mem (by simp)]; rfl⟩
    obtain ⟨hfits, hsettled⟩ := Function.fits_resolveMethods methods _ hthis ht.2 hp
      (settled_open (settled_open (hscopes.symm ▸ hdefined) ["super"]) ["this"]) hbody.inScope.inScope
    refine ⟨⟨hfree, ?_, hfits⟩, settled_tail (settled_tail hsettled)⟩
    intro v hv
    cases hv
    rw [NameUse.fits_use_declare (by simpa using hne)] at huFits
    exact huFits

theorem Stmt.fits_resolveEach : ∀ (body : List Stmt) {l : Layout} {around : Surroundings} (w : Walk),
    around.Fits l → Stmt.TidyEach body → (c.plain = true → Stmt.KeepsOwnEach (!l.isEmpty) body) →
      Settled w.scopes l → Charted c none (Stmt.usesEach body) w (Stmt.resolveEach around body w) →
        Stmt.FitsEach c l body ∧ ∃ names, Settled (Stmt.resolveEach around body w).scopes (l.declare names)
  | [], _, _, _, _, _, _, hw, _ => ⟨trivial, [], settled_declare_nil hw rfl⟩
  | s :: rest, l, around, w, ha, ht, hp, hw, h => by
    obtain ⟨hs, hrest⟩ := h.split (s.adds_resolve around w) (Stmt.adds_resolveEach around rest _)
    obtain ⟨hsFits, hsSettled⟩ := s.fits_resolve w ha ht.1 (fun hc => (hp hc).1) hw hs
    obtain ⟨hrestFits, names, hrestSettled⟩ := Stmt.fits_resolveEach rest _ (ha.declare ht.1.declares_not_reserved)
      ht.2 (fun hc => by rw [Layout.isEmpty_declare]; exact (hp hc).2) hsSettled hrest
    rw [← Layout.declare_append] at hrestSettled
    exact ⟨⟨hsFits, hrestFits⟩, _, hrestSettled⟩

theorem Stmt.fits_resolveOption : ∀ (s : Option Stmt) {l : Layout} {around : Surroundings} (w : Walk),
    around.Fits l → Stmt.TidyOption s → (c.plain = true → Stmt.KeepsOwnOption (!l.isEmpty) s) →
      Settled w.scopes l → Charted c none (Stmt.usesOption s) w (Stmt.resolveOption around s w) →
        Stmt.FitsOption c l s ∧ Settled (Stmt.resolveOption around s w).scopes l
  | none, l, _, w, _, _, _, hw, _ => ⟨trivial, hw⟩
  | some s, l, around, w, ha, ht, hp, hw, h => by
    obtain ⟨hfits, hsettled⟩ := s.fits_resolve w ha ht.1 hp hw h
    rw [ht.2, Layout.declare_nil] at hsettled
    exact ⟨⟨hfits, ht.2⟩, hsettled⟩

theorem Function.fits_resolve : ∀ (f : Function) (kind : FunctionKind) {l : Layout} {around : Surroundings}
    (w : Walk), around.Fits l → f.Tidy → (c.plain = true → f.KeepsOwn) → Settled w.scopes l →
      Charted c none f.uses w (f.resolve kind around w) →
        f.Fits c l ∧ Settled (f.resolve kind around w).scopes l
  | .mk name parameters body, kind, l, around, w, ha, ht, hp, hw, h => by
    have hscope : Charted c none (Stmt.usesEach body) w (w.inScope [] fun w =>
      Stmt.resolveEach ⟨kind, around.cls⟩ body (parameters.foldl (fun w t => (w.declare t).define t) w)) := h
    have hbody := hscope.inScope.after (adds_parameters parameters _)
    obtain ⟨hnodup, -, hsettled⟩ := parameters_settled parameters _ [] (settled_open hw [])
      (hbody.clean_before (Stmt.adds_resolveEach ⟨kind, around.cls⟩ body _))
    have hopen : Settled _ (parameters.map Token.lexeme :: l) := hsettled.congr fun x => by simp
    have hinside : Surroundings.Fits ⟨kind, around.cls⟩ (parameters.map Token.lexeme :: l) := by
      refine Surroundings.Fits.push ha fun x hx => ?_
      obtain ⟨t, ht', rfl⟩ := List.mem_map.mp hx
      exact ht.1 t ht'
    obtain ⟨hfits, names, hend⟩ := Stmt.fits_resolveEach body _ hinside ht.2 hp hopen hbody
    exact ⟨⟨hnodup, hfits⟩, settled_tail hend⟩

theorem Function.fits_resolveMethods : ∀ (fs : List Function) {l : Layout} {around : Surroundings} (w : Walk),
    around.Fits l → Function.TidyEach fs → (c.plain = true → Function.KeepsOwnEach fs) → Settled w.scopes l →
      Charted c none (Function.usesEach fs) w (Function.resolveMethods around fs w) →
        Function.FitsEach c l fs ∧ Settled (Function.resolveMethods around fs w).scopes l
  | [], l, _, w, _, _, _, hw, _ => ⟨trivial, hw⟩
  | f :: rest, l, around, w, ha, ht, hp, hw, h => by
    obtain ⟨hf, hrest⟩ := h.split (f.adds_resolve _ around w) (Function.adds_resolveMethods around rest _)
    obtain ⟨hfFits, hfSettled⟩ := f.fits_resolve _ w ha ht.1 (fun hc => (hp hc).1) hw hf
    obtain ⟨hrestFits, hrestSettled⟩ := Function.fits_resolveMethods rest _ ha ht.2 (fun hc => (hp hc).2) hfSettled hrest
    exact ⟨⟨hfFits, hrestFits⟩, hrestSettled⟩

end

section Programs

variable {globals : Std.ExtTreeSet String} {statements : List Stmt} {bindings : Bindings}

theorem walk_of_resolve (h : resolve globals statements = .ok bindings) :
    (Stmt.resolveEach .topLevel statements (.start globals)).faults = [] ∧
      (Stmt.resolveEach .topLevel statements (.start globals)).bindings = bindings := by
  unfold resolve at h
  dsimp only at h
  split at h
  · rename_i hclean
    exact ⟨List.isEmpty_iff.mp hclean, Except.ok.inj h⟩
  · cases h

/-- Distances are recorded for the uses of the program only. -/
theorem resolve_elsewhere (h : resolve globals statements = .ok bindings) {id : NodeId}
    (hid : id ∉ (Stmt.usesEach statements).map Use.id) : bindings[id]? = none := by
  rw [← (walk_of_resolve h).2, (Stmt.adds_resolveEach .topLevel statements (.start globals)).elsewhere id hid]
  exact Std.ExtTreeMap.getElem?_empty

/-- The distances of an accepted program fit it, in every chart that has them. -/
theorem fits_of_resolve (h : resolve globals statements = .ok bindings)
    (hnodup : ((Stmt.usesEach statements).map Use.id).Nodup) (hproper : ∀ u ∈ Stmt.usesEach statements, u.Proper)
    (htidy : Stmt.TidyEach statements) (hplain : c.plain = true → Stmt.KeepsOwnEach false statements)
    (hknown : ∀ u ∈ Stmt.usesEach statements, u.id < c.limit ∧ c.bindings[u.id]? = bindings[u.id]?) :
    Stmt.FitsEach c [] statements := by
  obtain ⟨hclean, hb⟩ := walk_of_resolve h
  have hcharted : Charted c none (Stmt.usesEach statements) (.start globals)
      (Stmt.resolveEach .topLevel statements (.start globals)) :=
    ⟨hnodup, hproper, fun _ _ => Std.ExtTreeMap.getElem?_empty, hclean, hb ▸ hknown, fun _ _ _ _ hx => nomatch hx⟩
  exact (Stmt.fits_resolveEach statements _ (fun hd => by cases hd) htidy hplain List.Forall₂.nil hcharted).1

end Programs

end LoxLang
