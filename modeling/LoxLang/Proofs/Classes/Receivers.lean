import LoxLang.Proofs.Classes.Visits
import LoxLang.Proofs.Scoping.Agreement

/-! `this` and `super` in sessions: whenever they are evaluated, the class around them is one that some earlier moment
of the session declared, and the instance is one of it. -/

namespace LoxLang

open Frames Run

namespace Session

/-- A session together with all moments of the units that led to it. -/
inductive Recorded : Session → (Moment → Prop) → Prop
  | start (prompt : Bool) (now : Number) (output diagnostics : Sink) :
    Recorded (.start prompt now output diagnostics) fun _ => False
  | run {s : Session} {past : Moment → Prop} (n : Nat) (source : String) : Recorded s past →
    Recorded (s.run n source).2 fun k => past k ∨ s.Visits n source k
  | takeWritten {s : Session} {past : Moment → Prop} : Recorded s past → Recorded s.takeWritten.2 past

variable {s : Session} {past : Moment → Prop}

theorem Recorded.reachable (h : s.Recorded past) : s.Reachable := by
  induction h with
  | start => exact .start _ _ _ _
  | run n source _ ih => exact .run n source ih
  | takeWritten _ ih => exact .takeWritten ih

theorem Reachable.recorded (h : s.Reachable) : ∃ past, s.Recorded past := by
  induction h with
  | start => exact ⟨_, .start _ _ _ _⟩
  | run n source _ ih =>
    obtain ⟨past, h⟩ := ih
    exact ⟨_, h.run n source⟩
  | takeWritten _ ih =>
    obtain ⟨past, h⟩ := ih
    exact ⟨past, h.takeWritten⟩

/-- The moments of a session so far and those of one more unit. -/
def upTo (past : Moment → Prop) (s : Session) (n : Nat) (source : String) (k : Moment) : Prop :=
  past k ∨ s.Visits n source k

theorem timeline_upTo (h : Timeline past) (s : Session) (n : Nat) (source : String) :
    Timeline (upTo past s n source) := by
  intro k k' hk hstep
  rcases hk with hk | ⟨unit, ha, hvisits⟩
  · exact .inl (h k k' hk hstep)
  · exact .inr ⟨unit, ha, hvisits.tail hstep⟩

theorem Recorded.timeline (h : s.Recorded past) : Timeline past := by
  induction h with
  | start => exact fun _ _ hk _ => hk.elim
  | run n source _ ih => exact timeline_upTo ih _ n source
  | takeWritten _ ih => exact ih

section Units

variable {n : Nat} {source : String} {statements : List Stmt} {bindings : Bindings}

/-- An accepted unit begins at top level, outside all classes. -/
theorem lawful_unit (hs : s.Reachable) (hm : s.machine.Lawful past (s.chart false))
    (ha : s.accepted? source = some (statements, bindings)) :
    Moment.Lawful (upTo past s n source) (s.chartOf false source bindings) [] none
      ⟨n, .unit statements, s.ready bindings⟩ where
  reached := .inr ⟨_, ha, .refl⟩
  machine := ⟨rfl, hm.store.mono (chart_le ha) fun _ => .inl⟩
  stands := by
    have hrest : (s.ready bindings).current = (s.ready bindings).globals := hs.atRest.1
    rw [hrest]
    exact .top
  plain := nofun
  code := by
    have hmade := made_of_accepted ha
    have hclean := (walk_of_resolve (read_of_accepted ha).2).1
    refine ⟨⟨rfl, hs.sound.fits ha nofun⟩, hmade.tidy, hmade.uses.proper, fun u hu hclass => ?_⟩
    exact absurd hclass (Stmt.outside_of_cleanEach statements _ rfl hclean u hu)

theorem lawful_run (hs : s.Reachable) (hpast : Timeline past) (hm : s.machine.Lawful past (s.chart false)) (n : Nat)
    (source : String) :
    (s.run n source).2.machine.Lawful (upTo past s n source) ((s.run n source).2.chart false) := by
  cases ha : s.accepted? source with
  | none =>
    obtain ⟨sink, hrun⟩ := run_of_refused ha n
    rw [hrun]
    have hle : (s.chart false).Le ⟨s.machine.bindings, (s.read source).nextId, false⟩ :=
      ⟨fun _ _ => rfl, nextId_le_read s source, rfl⟩
    exact ⟨rfl, hm.store.mono hle fun _ => .inl⟩
  | some unit =>
    obtain ⟨statements, bindings⟩ := unit
    have hk := lawful_unit (n := n) hs hm ha
    have hleads := guards_interpret (timeline_upTo hpast s n source) n statements hk
    obtain ⟨sink, hrun⟩ := execute_session n statements
      { s with machine := s.ready bindings, nextId := (s.read source).nextId }
    rw [run_of_accepted ha, hrun]
    have hbindings : ((interpret n statements).after (s.ready bindings)).bindings = (s.ready bindings).bindings :=
      congrArg Context.bindings hleads.context
    have hlawful := hleads.lawful
    unfold chartOf at hlawful
    rw [← hbindings] at hlawful
    exact hlawful

theorem Recorded.lawful (h : s.Recorded past) : s.machine.Lawful past (s.chart false) := by
  induction h with
  | start => exact ⟨rfl, nofun, nofun⟩
  | run n source h ih => exact lawful_run h.reachable h.timeline ih n source
  | takeWritten _ ih => exact ⟨ih.bindings, ih.store⟩

/-- Every moment of a unit stands in a lawful place. -/
theorem Recorded.visits (h : s.Recorded past) {k : Moment} (hk : s.Visits n source k) :
    ∃ c l around, k.Lawful (upTo past s n source) c l around := by
  obtain ⟨⟨statements, bindings⟩, ha, hvisits⟩ := hk
  have hunit := lawful_unit (n := n) h.reachable h.lawful ha
  obtain ⟨l, around, hk⟩ := hunit.visits (timeline_upTo h.timeline s n source) hvisits
  exact ⟨_, l, around, hk⟩

end Units

end Session

theorem cause_of_boundMethod {c : ClassId} {o : ObjectId} {name : Token} {m m' : Machine} {e : RuntimeError}
    (h : boundMethod c o name m = .error (.error e) m') : e.cause = .undefinedProperty name.lexeme := by
  unfold boundMethod at h
  rw [Halting.bind_of_ok (Halting.get_apply m)] at h
  revert h
  cases m.store.method? c name.lexeme with
  | none =>
    intro h
    cases h
    rfl
  | some method =>
    intro h
    cases h

/-- Whenever a method of the superclass is evaluated, in whatever unit of a session and after whatever units before it,
its distance is at least one. The frame so far out is the one in which the methods of the class around were declared;
it names the superclass that the declaration of that class found. The frame one step less far out names the instance,
which is of that class or of one that inherits from it. So all that may be missing is the method. Whenever `this` is
evaluated, it is an instance of the class around, or of one that inherits from it. -/
theorem receiver_sound {s : Session} {past : Moment → Prop} (hs : s.Recorded past) {n : Nat} {source : String}
    {k : Moment} (hk : s.Visits n source k) :
    (∀ d id keyword method, k.code = .expr d (.inherited id keyword method) →
      ∃ h e cls o c, k.machine.bindings[id]? = some (h + 1) ∧
        k.Encloses (fun k₀ => past k₀ ∨ s.Visits n source k₀) ⟨.inherited, id, keyword⟩ h e cls o ∧
        cls.superclass = some c ∧ k.machine.store.frames.here? e.home "super" = some (.cls c) ∧
        ∀ b error m, eval b (.inherited id keyword method) k.machine = .error (.error error) m →
          error.cause = .undefinedProperty method.lexeme) ∧
    ∀ d id keyword, k.code = .expr d (.self id keyword) →
      ∃ h e cls o, k.machine.bindings[id]? = some h ∧
        k.Encloses (fun k₀ => past k₀ ∨ s.Visits n source k₀) ⟨.self, id, keyword⟩ h e cls o ∧
        ∀ b, eval (b + 1) (.self id keyword) k.machine = .ok (.object o) k.machine := by
  obtain ⟨c, l, around, hlawful⟩ := hs.visits hk
  constructor
  · intro d id keyword method hcode
    obtain ⟨h, e, cls, o, c, hentry, hencloses, hc, hsuper, heq⟩ := hlawful.inherited_eq hcode
    refine ⟨h, e, cls, o, c, hentry, hencloses, hc, hsuper, fun b error m hfails => ?_⟩
    cases b with
    | zero => cases hfails
    | succ b =>
      rw [eval, heq] at hfails
      exact cause_of_boundMethod hfails
  · intro d id keyword hcode
    obtain ⟨h, e, cls, o, hentry, hencloses, heq⟩ := hlawful.self_eq hcode
    refine ⟨h, e, cls, o, hentry, hencloses, fun b => ?_⟩
    rw [eval]
    exact heq

/-- Behind two statements the unit calls what begins with a method of a superclass. -/
def Session.constructsInheriting (s : Session) (source : String) : Bool :=
  match s.accepted? source with
  | some ([first, second, .expression (.call callee paren [])], bindings) =>
    match perform 9 first (s.ready bindings) with
    | .ok () m₁ =>
      match perform 9 second m₁ with
      | .ok () m₂ =>
        match eval 7 callee m₂ with
        | .ok f m₃ =>
          match admitCall paren f 0 m₃ with
          | .ok () m₄ =>
            match { m₄ with depth := m₄.depth + 1 }.called? [] f with
            | some ([.expression (.inherited _ _ _)], _) => !m₂.prompt
            | _ => false
          | _ => false
        | _ => false
      | _ => false
    | _ => false
  | _ => false

/-- An initializer reads a method of the superclass for the instance that is being made. -/
theorem receiver_sound_in_initializer :
    let s := Session.start false ⟨0⟩ .unlimited .unlimited
    let source := "class A { m() {} } class B < A { init() { super.m; } } B();"
    ∃ k id keyword method, s.Visits 9 source k ∧ k.code = .expr none (.inherited id keyword method) ∧
      ∃ h e cls o c, k.machine.bindings[id]? = some (h + 1) ∧
        k.Encloses (fun k₀ => False ∨ s.Visits 9 source k₀) ⟨.inherited, id, keyword⟩ h e cls o ∧
        cls.superclass = some c ∧ k.machine.store.frames.here? e.home "super" = some (.cls c) := by
  intro s source
  have hs : s.Recorded fun _ => False := .start false ⟨0⟩ .unlimited .unlimited
  have hrun : s.constructsInheriting source = true := by decide +kernel
  clear_value s source
  unfold Session.constructsInheriting at hrun
  split at hrun
  · rename_i first second callee paren bindings ha
    split at hrun
    · rename_i m₁ h₁
      split at hrun
      · rename_i m₂ h₂
        split at hrun
        · rename_i f m₃ h₃
          split at hrun
          · rename_i m₄ h₄
            split at hrun
            · rename_i id keyword method m hcalled
              have hprompt : m₂.prompt = false := by simpa using hrun
              have hstmt : Moment.Visits ⟨9, .unit [first, second, .expression (.call callee paren [])],
                  s.ready bindings⟩ ⟨9, .stmt (.expression (.call callee paren [])), m₂⟩ :=
                .head (.next h₁) (.head (.next h₂) (.single (.performed fun _ _ => hprompt)))
              have hbody := Moment.visits_called h₃ h₄ hcalled
              have hk : s.Visits 9 source ⟨6, .expr none (.inherited id keyword method), m⟩ :=
                ⟨_, ha, hstmt.trans (hbody.trans (.head .statement (.single (.value rfl))))⟩
              obtain ⟨h, e, cls, o, c, hentry, hencloses, hc, hsuper, -⟩ :=
                (receiver_sound hs hk).1 _ _ _ _ rfl
              exact ⟨_, id, keyword, method, hk, rfl, h, e, cls, o, c, hentry, hencloses, hc, hsuper⟩
            · cases hrun
          · cases hrun
        · cases hrun
      · cases hrun
    · cases hrun
  · cases hrun

end LoxLang
