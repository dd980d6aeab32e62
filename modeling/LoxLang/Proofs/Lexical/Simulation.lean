import LoxLang.Proofs.Lexical.Operations

/-! The evaluator with distances and the one without them, in pairs. On code that fits its layout, and in which no
initial value assigns the name it is for, both yield the same however the run ends. -/

namespace LoxLang.Lexical

open Frames LoxLang.Run

variable {c : Chart} {slots slots' : List Slot} {m : LoxLang.Machine} {r : Machine} {place : Place} {l : Layout}

/-- Both statements return the same, or both lead to the next one, which stands at the same place of the layout. -/
def Ends (l : Layout) : Post Completion Ending
  | .normal, .normal next, m, slots => Stands m slots next l
  | .returned v, .returned w, _, _ => w = v
  | _, _, _, _ => False

/-- Both bodies return the same, or neither returns. -/
def Closes : Post Completion Ending := fun completion ending _ _ =>
  match completion, ending with
  | .normal, .normal _ => True
  | .returned v, .returned w => w = v
  | _, _ => False

/-- A statement that declares nothing leads to the place it stands at. -/
theorem agree_stay (h : Mirror c slots m r) (hs : Stands m slots place l) :
    Agree c slots m r (pure .normal) (pure (.normal place)) [] (Ends (l.declare [])) := by
  refine agree_pure h ?_
  rw [Layout.declare_nil]
  exact hs

theorem Mirror.elsewhere (h : Mirror c slots m r) (f : FrameId) : Mirror c slots { m with current := f } r :=
  { h with sound := ⟨h.sound.bindings, h.sound.store⟩ }

theorem Mirror.deeper (h : Mirror c slots m r) (depth : Nat) : Mirror c slots { m with depth := depth } r :=
  { h with sound := h.sound.deeper depth }

/-- A call is counted in the machine on one side, and at the place on the other. -/
theorem agree_asCall {α : Type} {run : LoxLang.Run α} {ref : Run α}
    (h : Agree c slots { m with depth := m.depth + 1 } r run ref [] Same) :
    Agree c slots m r (asCall run) ref [] Same := by
  refine ⟨keeps_asCall h.keeps, ?_⟩
  have hp := h.pairs
  unfold Pairs at hp ⊢
  unfold asCall
  dsimp only
  revert hp
  cases run { m with depth := m.depth + 1 } <;> cases ref r <;> intro hp
  · obtain ⟨slots', hslots, hm', hsame⟩ := hp
    exact ⟨slots', hslots, hm'.deeper _, hsame⟩
  · exact hp
  · exact hp
  · obtain ⟨hsame, slots', hm'⟩ := hp
    exact ⟨hsame, slots', hm'.deeper _⟩

/-- The evaluation of each expression has a partner. -/
def EvalAgrees (c : Chart) (run : Expr → LoxLang.Run Value) (ref : Place → Expr → Run Value) : Prop :=
  ∀ {e own l m r slots place}, Mirror c slots m r → Stands m slots place l → e.Fits c own l →
    Agree c slots m r (run e) (ref place e) [] Same

/-- The run of each statement has a partner. -/
def ExecAgrees (c : Chart) (run : Stmt → LoxLang.Run Completion) (ref : Place → Stmt → Run Ending) : Prop :=
  ∀ {s l m r slots place}, Mirror c slots m r → Stands m slots place l → s.Fits c l →
    Agree c slots m r (run s) (ref place s) s.declares (Ends (l.declare s.declares))

theorem agree_each {run : Expr → LoxLang.Run Value} {ref : Place → Expr → Run Value} (hx : EvalAgrees c run ref)
    {own : Option String} : ∀ (es : List Expr) {m r slots}, Mirror c slots m r → Stands m slots place l →
      (∀ e ∈ es, e.Fits c own l) → Agree c slots m r (each run es) (each (ref place) es) [] Same
  | [], _, _, _, h, _, _ => agree_pure h rfl
  | e :: rest, m, r, slots, h, hs, hes => by
    refine (hx h hs (hes e List.mem_cons_self)).then fun v w m' r' slots' hl h' hv => ?_
    have hs' := hs.later h.sound hl.follows hl.slots
    refine (agree_each hx rest h' hs' fun e he => hes e (List.mem_cons_of_mem _ he)).then fun vs ws _ _ _ _ h'' hvs => ?_
    exact agree_pure h'' (by cases hv; cases hvs; rfl)

theorem enter_insert (m : LoxLang.Machine) (f : FrameId) (names : Names) (x : String) (v : Value) :
    m.enter f (names.insert x v) =
      (m.enter f names).withFrames ((m.enter f names).store.frames.define (m.enter f names).current x v) := by
  unfold LoxLang.Machine.enter Store.addFrame
  rw [add_insert]
  rfl

/-- Declaring the parameters one by one makes a frame that has them all. -/
theorem pairs_parameters {f : FrameId} : ∀ (parameters : List Token) {arguments : List Value} {names : Names}
    {scope : List String} {slots : List Slot} {r : Machine} {place : Place}, arguments.length = parameters.length →
      (parameters.map Token.lexeme).Nodup → (∀ t ∈ parameters, t.lexeme ∉ scope) → Mirror c slots (m.enter f names) r →
        Stands (m.enter f names) slots place (scope :: l) →
          ∃ slots' place' r', slots <+: slots' ∧ declareParameters place parameters arguments r = .ok place' r' ∧
            Mirror c slots' (m.enter f ((parameters.zip arguments).foldl
              (fun (names : Names) (t, v) => names.insert t.lexeme v) names)) r' ∧
            Stands (m.enter f ((parameters.zip arguments).foldl
              (fun (names : Names) (t, v) => names.insert t.lexeme v) names)) slots' place'
              (((parameters.map Token.lexeme).reverse ++ scope) :: l)
  | [], [], _, _, slots, r, place, _, _, _, h, hs => ⟨slots, place, r, List.prefix_refl _, rfl, h, hs⟩
  | t :: parameters, v :: arguments, names, scope, slots, r, place, hlength, hdistinct, hscope, h, hs => by
    obtain ⟨hnew, hdistinct⟩ := List.nodup_cons.mp hdistinct
    have hfree : Layout.Free t.lexeme (scope :: l) := fun scope' hmem => by
      cases hmem
      exact hscope t List.mem_cons_self
    obtain ⟨slots', hp, h', hs'⟩ := h.declare hs hfree v
    rw [← enter_insert] at h' hs'
    have hscope' : ∀ u ∈ parameters, u.lexeme ∉ t.lexeme :: scope := fun u hu hmem => by
      rcases List.mem_cons.mp hmem with he | hmem
      · exact hnew (he ▸ List.mem_map_of_mem hu)
      · exact hscope u (List.mem_cons_of_mem t hu) hmem
    obtain ⟨slots'', place', r', hp', hrun, h'', hs''⟩ :=
      pairs_parameters parameters (Nat.succ.inj hlength) hdistinct hscope' h' hs'
    refine ⟨slots'', place', r', hp.trans hp', ?_, h'', ?_⟩
    · exact (Halting.bind_of_ok (declare_apply place t.lexeme v r)).trans hrun
    · rw [List.map_cons, List.reverse_cons, List.append_assoc]
      exact hs''

section Bodies

variable {run : Stmt → LoxLang.Run Completion} {ref : Place → Stmt → Run Ending} (hx : ExecAgrees c run ref)

include hx

theorem pairs_sequence : ∀ (body : List Stmt) {l : Layout} {m r slots place}, Mirror c slots m r →
    Stands m slots place l → Stmt.FitsEach c l body →
      Pairs c slots m r (LoxLang.Run.sequence run body) (sequence ref place body) Closes
  | [], _, _, _, _, _, h, _, _ => (agree_pure h trivial).pairs
  | s :: rest, l, m, r, slots, place, h, hs, hbody => by
    refine (hx h hs hbody.1).bind_pairs fun completion ending m' r' slots' hl h' hends => ?_
    cases completion with
    | normal =>
      cases ending with
      | normal next => exact pairs_sequence rest h' hends hbody.2
      | returned w => exact hends.elim
    | returned v =>
      cases ending with
      | normal next => exact hends.elim
      | returned w => exact (agree_pure h' hends).pairs

/-- A body in a new frame, and the same body at a place where the names of that frame have cells. -/
theorem agree_inNewFrame {f : FrameId} {names : Names} {scope : List String} {body : List Stmt} {r₁ : Machine}
    {ref' : Run Ending} (h : Mirror c slots m r) (hl : Linked m.store.frames m.globals f l)
    (hnames : ∀ x, x ∈ names ↔ x ∈ scope) (hp : slots <+: slots') (h₁ : Mirror c slots' (m.enter f names) r₁)
    (hs₁ : Stands (m.enter f names) slots' place (scope :: l)) (hbody : Stmt.FitsEach c (scope :: l) body)
    (hrun : ExecKeeps c run) (e : ref' r = sequence ref place body r₁) :
    Agree c slots m r (inNewFrame run f names body) ref' [] Closes := by
  refine ⟨keeps_inNewFrame hrun h.sound hl hnames hbody, ?_⟩
  have hpairs := pairs_sequence hx body h₁ hs₁ hbody
  unfold Pairs at hpairs ⊢
  rw [inNewFrame_apply, e]
  revert hpairs
  cases LoxLang.Run.sequence run body (m.enter f names) <;> cases sequence ref place body r₁ <;> intro hpairs
  · obtain ⟨slots'', hp', hm', hQ⟩ := hpairs
    exact ⟨slots'', hp.trans hp', hm'.elsewhere _, hQ⟩
  · exact hpairs
  · exact hpairs
  · obtain ⟨hsame, slots'', hm'⟩ := hpairs
    exact ⟨hsame, slots'', hm'.elsewhere _⟩

theorem agree_callClosure (hrun : ExecKeeps c run) (h : Mirror c slots m r) {k : Closure FrameId} {k' : Closure Visible}
    (hk : k.Matches (Homed c m.store.frames m.globals slots []) k') {arguments : List Value}
    (hn : arguments.length = k.arity) {depth : Nat} (hd : depth = m.depth) :
    Agree c slots m r (LoxLang.Run.callClosure run k arguments) (callClosure ref depth k' arguments) [] Same := by
  obtain ⟨⟨name, parameters, body⟩, home, isInitializer⟩ := k
  obtain ⟨declared, visible, initializer⟩ := k'
  obtain ⟨hdeclared, hinitializer, l, hview, ⟨hdistinct, hbody⟩, hthis⟩ := hk
  dsimp only at hdeclared hinitializer hview hthis
  subst hdeclared hinitializer hd
  have hl := h.linked hview
  obtain ⟨slots', place', r', hp, hdeclare, h₁, hs₁⟩ := pairs_parameters parameters hn hdistinct (by simp)
    ((h.addFrame (hl.lt h.sound.store.within)).elsewhere _) (Stands.enter hl hview)
  have hs₁ : Stands _ slots' place' (parameters.map Token.lexeme :: l) := hs₁.congr (by simp)
  have e : (declareParameters ⟨true, visible, m.depth⟩ parameters arguments >>= fun place => sequence ref place body) r =
    sequence ref place' body r' := Halting.bind_of_ok hdeclare
  have hframe := agree_inNewFrame hx h hl (mem_parameterNames hn) hp h₁ hs₁ hbody hrun e
  unfold callClosure
  simp only [← bind_assoc]
  refine hframe.then fun completion ending m' r'' slots'' hlater h' hcloses => ?_
  dsimp only
  -- An initializer answers with its receiver, which is found in the frame around that of the parameters.
  cases initializer with
  | true =>
    refine agree_get (agree_pure h' ?_)
    cases l with
    | nil => cases hthis rfl
    | cons scope l =>
      cases Option.some.inj (hthis rfl)
      have hview' := hview.mono hlater.follows.grows hlater.slots
      rw [← hlater.follows.globals] at hview'
      obtain ⟨v, hv, hv'⟩ := h'.value_local hview' (Layout.hops?_cons_of_mem (List.mem_singleton.mpr rfl) l)
      have hhere : m'.store.frames.here? home "this" = some v := hv
      rw [hhere, hv']
      rfl
  | false =>
    cases completion <;> cases ending
    · exact agree_pure h' rfl
    · exact hcloses.elim
    · exact hcloses.elim
    · exact agree_pure h' hcloses

theorem agree_construct (hrun : ExecKeeps c run) (h : Mirror c slots m r) {k : ClassId} {arguments : List Value}
    (hn : ∀ method, m.store.initializer? k = some method → arguments.length = method.arity) {depth : Nat}
    (hd : depth = m.depth) :
    Agree c slots m r (LoxLang.Run.construct run k arguments) (construct ref depth k arguments) [] Same := by
  refine (agree_addObject h k).then fun o o' m' r' slots' hl h' ho => agree_get (agree_get ?_)
  obtain ⟨rfl, hclasses⟩ := ho
  have hfound := Heap.method?_congr m'.store.toHeap m.store.toHeap hclasses k initializerName
  have hmethod := h'.heap.method? k initializerName
  unfold Heap.initializer? at hn ⊢
  rw [← hfound] at hn
  generalize m'.store.method? k initializerName = method, r'.heap.method? k initializerName = method' at hmethod hn ⊢
  cases hmethod with
  | none => exact agree_pure h' rfl
  | some hk =>
    refine (agree_bind h' hk o').then fun b b' m'' r'' slots'' hl' h'' hb => ?_
    have hlength := (hn _ rfl).trans (congrArg (·.parameters.length) hb.2.symm)
    have hdepth := hd.trans (hl.depth.symm.trans hl'.depth.symm)
    exact (agree_callClosure hx hrun h'' hb.1 hlength hdepth).then fun _ _ _ _ _ _ h₃ _ => agree_pure h₃ rfl

theorem agree_call (hrun : ExecKeeps c run) (h : Mirror c slots m r) {callee : Value} {arguments : List Value}
    (hn : m.store.arity? callee = some arguments.length) {depth : Nat} (hd : depth = m.depth) :
    Agree c slots m r (LoxLang.Run.call run callee arguments) (call ref depth callee arguments) [] Same := by
  cases callee with
  | native id =>
    refine agree_get (agree_pure h ?_)
    unfold Same
    rw [h.heap.natives, funext h.heap.display]
  | function id =>
    refine agree_get ?_
    dsimp only
    have hk := h.heap.closures id
    rw [Heap.arity?] at hn
    generalize m.store.closures[id]? = k, r.heap.closures[id]? = k' at hk hn ⊢
    cases hk with
    | none => exact agree_pure h rfl
    | some hk => exact agree_callClosure hx hrun h hk (Option.some.inj hn).symm hd
  | cls id =>
    have hconstruct : Agree c slots m r (LoxLang.Run.construct run id arguments) (construct ref depth id arguments) []
        Same := agree_construct hx hrun h (fun method hmethod => by
      rw [Heap.arity?, hmethod] at hn
      exact (Option.some.inj hn).symm) hd
    exact ⟨hconstruct.keeps, hconstruct.pairs⟩
  | nil | bool | number | string | object => cases hn

end Bodies

/-- A block runs in a frame of its own, and leads back to the place at which it stands. -/
theorem agree_block {n : Nat} (hx : ExecAgrees c (LoxLang.exec n) (exec n)) (h : Mirror c slots m r)
    (hs : Stands m slots place l) {body : List Stmt} (hbody : (Stmt.block body).Fits c l) :
    Agree c slots m r (LoxLang.exec (n + 1) (.block body)) (exec (n + 1) place (.block body)) [] (Ends (l.declare [])) := by
  have hs₁ := Stands.enter hs.within.linked hs.view
  rw [← hs.depth] at hs₁
  have hframe := agree_inNewFrame hx h hs.within.linked (by simp) (List.prefix_refl _)
    ((h.addFrame (hs.within.linked.lt h.sound.store.within)).elsewhere _) hs₁ hbody (keeps_exec n) rfl
  have hblock : Agree c slots m r (inNewFrame (LoxLang.exec n) m.current ∅ body) (exec (n + 1) place (.block body)) []
      (Ends (l.declare [])) := by
    rw [← bind_pure (inNewFrame _ _ _ _)]
    refine hframe.then fun completion ending m' r' slots' hl h' hcloses => ?_
    cases completion <;> cases ending
    · exact agree_stay h' (hs.later h.sound hl.follows hl.slots)
    · exact hcloses.elim
    · exact hcloses.elim
    · exact agree_pure h' hcloses
  exact ⟨keeps_get hblock.keeps, hblock.pairs⟩

section Step

variable {n : Nat} (he : EvalAgrees c (LoxLang.eval n) (eval n)) (hx : ExecAgrees c (LoxLang.exec n) (exec n))

include he hx

theorem agree_eval_succ (hplain : c.plain = true) : EvalAgrees c (LoxLang.eval (n + 1)) (eval (n + 1)) := by
  intro e own l m r slots place h hs hfits
  have hpart : ∀ {e' : Expr}, e'.uses ⊆ e.uses → e'.Fits c own l := fun hsub u hu => hfits u (hsub hu)
  cases e with
  | literal value => exact agree_pure h rfl
  | grouping inner => exact he h hs (hpart (by simp [Expr.uses]))
  | unary operator operand =>
    refine (he h hs (hpart (by simp [Expr.uses]))).then fun a b m' r' slots' _ h' hab => ?_
    cases hab
    exact agree_of_uniform (uniform_unary operator a) h'
  | binary left operator right =>
    refine (he h hs (hpart (by simp [Expr.uses]))).then fun a a' m' r' slots' hl h' ha => ?_
    have hs' := hs.later h.sound hl.follows hl.slots
    refine (he h' hs' (hpart (by simp [Expr.uses]))).then fun b b' m'' r'' slots'' _ h'' hb => ?_
    cases ha
    cases hb
    exact agree_of_uniform (uniform_binary operator a b) h''
  | logical left operator right =>
    refine (he h hs (hpart (by simp [Expr.uses]))).then fun a a' m' r' slots' hl h' ha => ?_
    cases ha
    split
    · exact agree_pure h' rfl
    · exact he h' (hs.later h.sound hl.follows hl.slots) (hpart (by simp [Expr.uses]))
  | read id name =>
    obtain ⟨-, hb⟩ := hfits ⟨.read, id, name⟩ List.mem_cons_self
    exact agree_read h hs (h.sound.bindings ▸ hb)
  | assign id name value =>
    refine (he h hs (hpart (by simp [Expr.uses]))).then fun v v' m' r' slots' hl h' hv => ?_
    cases hv
    obtain ⟨-, hb⟩ := hfits ⟨.assign, id, name⟩ List.mem_cons_self
    dsimp only at hb
    split at hb
    · exact absurd (hplain.symm.trans hb.1) (by simp)
    · exact agree_assign h' (hs.later h.sound hl.follows hl.slots) (h'.sound.bindings ▸ hb) v
  | call callee paren arguments =>
    have harguments : ∀ e ∈ arguments, e.Fits c own l := fun e he' =>
      hpart (by simp [Expr.uses, Expr.uses_subset_usesEach he'])
    refine (he h hs (hpart (by simp [Expr.uses]))).then fun f f' m₁ r₁ slots₁ hl₁ h₁ hf => ?_
    have hs₁ := hs.later h.sound hl₁.follows hl₁.slots
    refine (agree_each he arguments h₁ hs₁ harguments).then fun values values' m₂ r₂ slots₂ hl₂ h₂ hvalues => ?_
    have hs₂ := hs₁.later h₁.sound hl₂.follows hl₂.slots
    cases hf
    cases hvalues
    refine (agree_admitCall h₂ hs₂ paren f values.length).then fun _ _ m₃ r₃ slots₃ hl₃ h₃ hadmitted => ?_
    obtain ⟨rfl, harity⟩ := hadmitted
    have hdepth : place.depth + 1 = m₃.depth + 1 := congrArg (· + 1) hs₂.depth
    exact agree_asCall (agree_call hx (keeps_exec n) (h₃.deeper (m₃.depth + 1)) harity hdepth)
  | get object name =>
    refine (he h hs (hpart (by simp [Expr.uses]))).then fun v v' m' r' slots' _ h' hv => ?_
    cases hv
    cases v with
    | object o => exact agree_property h' o name
    | nil | bool | number | string | native | function | cls => exact agree_fail h' name _
  | set object name value =>
    refine (he h hs (hpart (by simp [Expr.uses]))).then fun v v' m' r' slots' hl h' hv => ?_
    cases hv
    cases v with
    | object o =>
      have hs' := hs.later h.sound hl.follows hl.slots
      refine (he h' hs' (hpart (by simp [Expr.uses]))).then fun w w' m'' r'' slots'' _ h'' hw => ?_
      cases hw
      exact (agree_setField h'' o name.lexeme w).then fun _ _ _ _ _ _ h₃ _ => agree_pure h₃ rfl
    | nil | bool | number | string | native | function | cls => exact agree_fail h' name _
  | self id keyword =>
    obtain ⟨-, hb⟩ := hfits ⟨.self, id, keyword⟩ List.mem_cons_self
    exact agree_read h hs (h.sound.bindings ▸ hb)
  | inherited id keyword method =>
    obtain ⟨-, -, d, hthis, hsuper, hb⟩ := hfits ⟨.inherited, id, keyword⟩ List.mem_cons_self
    exact agree_inherited h hs hthis hsuper (h.sound.bindings ▸ hb) method

theorem agree_exec_succ : ExecAgrees c (LoxLang.exec (n + 1)) (exec (n + 1)) := by
  intro s l m r slots place h hs hfits
  cases s with
  | expression e =>
    exact (he h hs hfits).then fun _ _ _ _ _ hl h' _ => agree_stay h' (hs.later h.sound hl.follows hl.slots)
  | print e =>
    refine (he h hs hfits).then fun v v' m' r' slots' hl h' hv => ?_
    have hs' := hs.later h.sound hl.follows hl.slots
    cases hv
    refine (agree_print h' v).then fun _ _ m'' r'' slots'' hl' h'' _ => ?_
    exact agree_stay h'' (hs'.later h'.sound hl'.follows hl'.slots)
  | var name initial =>
    have hdefine : ∀ {v m' r' slots'}, Mirror c slots' m' r' → Stands m' slots' place l →
        Agree c slots' m' r' (define name.lexeme v >>= fun _ => pure Completion.normal)
          (declare place name.lexeme v >>= fun next => pure (Ending.normal next)) [name.lexeme]
          (Ends (l.declare [name.lexeme])) := fun h' hs' =>
      (agree_define h' hs' hfits.1 _).bind fun _ _ _ _ _ _ h'' hs'' => agree_pure h'' hs''
    cases initial with
    | none =>
      refine (agree_pure (Q := Same) h rfl).then fun v v' m' r' slots' hl h' hv => ?_
      cases hv
      exact hdefine h' (hs.later h.sound hl.follows hl.slots)
    | some e =>
      refine (he h hs (hfits.2 e rfl)).then fun v v' m' r' slots' hl h' hv => ?_
      cases hv
      exact hdefine h' (hs.later h.sound hl.follows hl.slots)
  | block body => exact agree_block hx h hs hfits
  | branch condition yes no =>
    obtain ⟨hcondition, hyes, hyesNone, hno⟩ := hfits
    refine (he h hs hcondition).then fun v v' m' r' slots' hl h' hv => ?_
    have hs' := hs.later h.sound hl.follows hl.slots
    cases hv
    split
    · have hbranch := hx h' hs' hyes
      rw [hyesNone] at hbranch
      exact hbranch
    · cases no with
      | none => exact agree_stay h' hs'
      | some s =>
        have hbranch := hx h' hs' hno.1
        rw [hno.2] at hbranch
        exact hbranch
  | loop condition body =>
    refine (he h hs hfits.1).then fun v v' m' r' slots' hl h' hv => ?_
    have hs' := hs.later h.sound hl.follows hl.slots
    cases hv
    split
    · have hbody := hx h' hs' hfits.2.1
      rw [hfits.2.2] at hbody
      refine hbody.then fun completion ending m'' r'' slots'' hl' h'' hends => ?_
      cases completion <;> cases ending
      · exact hx h'' (hs'.later h'.sound hl'.follows hl'.slots) hfits
      · exact hends.elim
      · exact hends.elim
      · exact agree_pure h'' hends
    · exact agree_stay h' hs'
  | function f =>
    exact (agree_declareFunction h hs hfits.1 hfits.2).bind fun _ _ _ _ _ _ h' hs' => agree_pure h' hs'
  | ret keyword value =>
    cases value with
    | none => exact agree_pure h rfl
    | some e => exact (he h hs (hfits e rfl)).then fun _ _ _ _ _ _ h' hv => agree_pure h' hv
  | classDecl name superclass methods =>
    obtain ⟨hfree, hsuper, hmethods⟩ := hfits
    have hdeclare : ∀ {k : Option ClassId} {m' r' slots'}, k.isSome = superclass.isSome → Mirror c slots' m' r' →
        Stands m' slots' place l →
        Agree c slots' m' r' (LoxLang.Run.declareClass name k methods >>= fun _ => pure Completion.normal)
          (declareClass place name k methods >>= fun next => pure (Ending.normal next)) [name.lexeme]
          (Ends (l.declare [name.lexeme])) := fun hk h' hs' =>
      (agree_declareClass h' hs' hk hfree hmethods).bind fun _ _ _ _ _ _ h'' hs'' => agree_pure h'' hs''
    cases superclass with
    | none =>
      refine (agree_pure (Q := fun a b _ _ => a = none ∧ b = none) h ⟨rfl, rfl⟩).then ?_
      rintro _ _ m' r' slots' hl h' ⟨rfl, rfl⟩
      exact hdeclare rfl h' (hs.later h.sound hl.follows hl.slots)
    | some u =>
      obtain ⟨-, hb⟩ := hsuper u rfl
      refine (agree_superclassOf h hs (h.sound.bindings ▸ hb)).then fun k k' m' r' slots' hl h' hk => ?_
      cases hk
      have hclass := hdeclare (k := some k) rfl h' (hs.later h.sound hl.follows hl.slots)
      exact ⟨hclass.keeps, hclass.pairs⟩

end Step

/-- One induction on the bound for both evaluators: calls run statements, and statements evaluate. -/
theorem agree_evaluators (hplain : c.plain = true) (n : Nat) :
    EvalAgrees c (LoxLang.eval n) (eval n) ∧ ExecAgrees c (LoxLang.exec n) (exec n) := by
  induction n with
  | zero => exact ⟨fun h _ _ => agree_throw h _, fun h _ _ => agree_throw h _⟩
  | succ n ih => exact ⟨agree_eval_succ ih.1 ih.2 hplain, agree_exec_succ ih.1 ih.2⟩

theorem agree_eval (hplain : c.plain = true) (n : Nat) : EvalAgrees c (LoxLang.eval n) (eval n) :=
  (agree_evaluators hplain n).1

theorem agree_exec (hplain : c.plain = true) (n : Nat) : ExecAgrees c (LoxLang.exec n) (exec n) :=
  (agree_evaluators hplain n).2

/-- A statement of a unit has a partner. -/
theorem agree_perform (hplain : c.plain = true) (n : Nat) {s : Stmt} (h : Mirror c slots m r)
    (hs : Stands m slots .top []) (hfits : s.Fits c []) :
    ∃ names, Agree c slots m r (LoxLang.perform n s) (perform n s) names Same := by
  unfold LoxLang.perform perform
  cases s with
  | expression e =>
    refine ⟨[], agree_get (agree_get ?_)⟩
    rw [h.prompt]
    cases m.prompt with
    | true =>
      refine (agree_eval hplain n h hs hfits).then fun v v' m' r' slots' _ h' hv => ?_
      cases hv
      exact agree_print h' v
    | false => exact (agree_exec hplain n h hs hfits).then fun _ _ _ _ _ _ h' _ => agree_pure h' rfl
  | print | var | block | branch | loop | function | ret | classDecl =>
    exact ⟨_, agree_get ((agree_exec hplain n h hs hfits).bind fun _ _ _ _ _ _ h' _ => agree_pure h' rfl)⟩

/-- Units that fit the top level end alike. -/
theorem pairs_interpret (hplain : c.plain = true) (n : Nat) : ∀ (statements : List Stmt) {m r slots},
    Mirror c slots m r → Stands m slots .top [] → Stmt.FitsEach c [] statements →
      Pairs c slots m r (LoxLang.interpret n statements) (interpret n statements) Same
  | [], _, _, _, h, _, _ => (agree_pure h rfl).pairs
  | s :: rest, m, r, slots, h, hs, hbody => by
    obtain ⟨names, hperform⟩ := agree_perform hplain n h hs hbody.1
    refine hperform.bind_pairs fun _ _ m' r' slots' hl h' _ => ?_
    exact pairs_interpret hplain n rest h' (hs.later_top h.sound hl.follows) (Layout.declare_nil [] ▸ hbody.2)

end LoxLang.Lexical
