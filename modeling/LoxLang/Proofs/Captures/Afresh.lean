import LoxLang.Proofs.Captures.Loops

/-! Each run of the body of a counting loop has a variable of its own, which functions that the body declares keep. -/

namespace LoxLang

open Frames Grammar Counting Moment Run

/-- What holds of an iteration of a counting loop and of the run of the body in it, where the loop variable is in the
given frame. -/
structure VarLoop.BindsAfresh (ℓ : VarLoop) (id : NodeId) (units : List Moment) (shared : FrameId) (h i b : Moment) :
    Prop where
  /-- The frame of the body was not there before. -/
  fresh : i.machine.store.frames.size ≤ b.machine.current
  /-- It has the variable and nothing else. -/
  sole : Sole b.machine.store.frames b.machine.current ℓ.name.lexeme
  /-- So has the frame of the loop variable. -/
  shares : Sole b.machine.store.frames shared ℓ.name.lexeme
  /-- It is around the frame of the body. -/
  around : b.machine.store.frames.ancestor? b.machine.current (ℓ.inset + 2) = some shared
  /-- When the body begins, both have the same value. -/
  begins : b.machine.store.frames.here? b.machine.current ℓ.name.lexeme =
    b.machine.store.frames.here? shared ℓ.name.lexeme
  /-- If the body ends normally, both have the same value once the iteration has ended. It ends, unless the bound is just
  enough for the body. -/
  ends : ∀ u, exec b.bound ℓ.body b.machine = .ok .normal u →
    (∃ t, exec i.bound (iteration id ℓ.name ℓ.body) i.machine = .ok .normal t ∧
      t.store.frames.here? shared ℓ.name.lexeme = t.store.frames.here? b.machine.current ℓ.name.lexeme) ∨
    b.bound = 2 ∧ ∃ t, exec i.bound (iteration id ℓ.name ℓ.body) i.machine = .error .exhausted t
  /-- The increment and the rounds thereafter come behind the iteration, and write to the frame of the body only by
  calling functions that captured it. -/
  follows : ∀ q, ℓ.Follows id h i q → Before units i q ∧
    ∀ w, q.Visits w → w.Writes b.machine.current ℓ.name.lexeme → q.ByCaptor b.machine.current w
  /-- Whatever looks the variable up in the frame of the body later finds the value that the body left, unless a function
  that captured the frame has written it in between. -/
  keeps : ∀ q, Before units i q → ∀ g d, q.machine.store.frames.ancestor? g d = some b.machine.current →
    q.machine.store.frames.getAt? g d ℓ.name.lexeme = b.after.store.frames.here? b.machine.current ℓ.name.lexeme ∨
      ∃ w, Before units i w ∧ Before units w q ∧ w.Writes b.machine.current ℓ.name.lexeme ∧
        ∃ unit ∈ units, unit.ByCaptor b.machine.current w

/-- A counting loop in a program that was read, run by a unit of a session. Each iteration comes to the body, if the bound
is not too small. The frame that the loop makes is that of its variable, and each run of the body has another one, with
a copy of the variable. -/
theorem iterations_bind_afresh {s s' t : Session} {units : List Moment} (hs : s.Reachable) (hunits : s.Runs units s')
    {source : String} {p : Sketch} {ℓ : VarLoop} {id : NodeId}
    (hread : (t.read source).result = .ok (p.fill (ℓ.copying id))) {unit k h i : Moment} (hunit : unit ∈ units)
    (hk : unit.Visits k) (hh : ℓ.Heads id k h) (hi : ℓ.Iterates id h i) :
    (4 ≤ i.bound → ∃ b, ℓ.Bodies id i b) ∧
      ∀ b, ℓ.Bodies id i b → ℓ.BindsAfresh id units k.machine.store.frames.size h i b := by
  obtain ⟨c, l, hfits⟩ := hunits.fits hs hunit hk
  obtain ⟨hhead, hcurrent⟩ := hh.stands hfits
  obtain ⟨-, -, -, hdeclares⟩ := VarLoop.neat_parts (Sketch.neat_fill (Parsed.neat_of_program hread ℓ.name))
  have hpoised := hi.poised hhead hdeclares
  rw [hcurrent] at hpoised
  refine ⟨hi.exists_body hpoised, fun b hb => ?_⟩
  obtain ⟨n, w, hiteration, hw, rfl⟩ := hb.opened hpoised
  have hbody := hb.stands (hi.stands hhead).1
  obtain ⟨hsole, hshares, haround, hbegins⟩ := hpoised.binds hw
  obtain ⟨hafter, hends⟩ := hpoised.ends hw n ℓ.body fun u e => by
    have hrun := (keeps_exec (n + 2) hbody.sound hbody.stands hbody.code).of_ok e
    rw [hdeclares] at hrun
    exact ⟨hrun.grows, hrun.context⟩
  rw [← opened_current i.machine ℓ.name w] at hsole haround hbegins hafter hends
  -- The body runs in the second of two new frames; the first has the name under which the value is carried over.
  have hfresh : i.machine.store.frames.size ≤ (opened i.machine ℓ.name w).current := by
    rw [opened_current]
    exact Nat.le_succ _
  have hwithin : (opened i.machine ℓ.name w).current < i.after.store.frames.size :=
    (lt_of_has ((hsole ℓ.name.lexeme).mpr rfl)).trans_le ((later_after _).trans (later_of_visits hb.visits).2).size
  have hleft : i.after.store.frames.here? (opened i.machine ℓ.name w).current ℓ.name.lexeme =
      (after ⟨n + 2, .stmt ℓ.body, opened i.machine ℓ.name w⟩).store.frames.here?
        (opened i.machine ℓ.name w).current ℓ.name.lexeme := by
    rw [hiteration]
    exact hafter
  exact
    { fresh := hfresh
      sole := hsole
      shares := hshares
      around := haround
      begins := hbegins
      ends u e := by
        rw [hiteration]
        exact (hends u e).imp_right fun ⟨hn, hexhausted⟩ => ⟨hn ▸ rfl, hexhausted⟩
      follows q hq :=
        ⟨(hq.before hi).of_visits hunit (hk.trans hh.visits), fun w => hq.byCaptor hi hhead hfresh hwithin⟩
      keeps q hq g d hg := by
        rw [getAt?, hg, ← hleft]
        exact hunits.keeps hs hq hfresh hwithin }

/-- The unit is a counting loop with a condition that holds at first, and an increment. -/
def Session.iterates (s : Session) (source : String) : Bool :=
  match s.accepted? source with
  | some ([.block [.var x initial, .loop test (.block [.block [.var c none, .block [.var x₁ (some (.read i₀ x₂)), _,
      .expression (.assign i₁ c₁ (.read i₂ x₃))], .expression (.assign i₃ x₄ (.read i₄ c₂))], .expression _])]],
      bindings) =>
    [c, c₁, c₂] == [carrier x, carrier x, carrier x] && [x₁, x₂, x₃, x₄] == [x, x, x, x] &&
      [i₁, i₂, i₃, i₄] == [i₀ + 1, i₀ + 1 + 1, i₀ + 3, i₀ + 3 + 1] &&
      match exec 24 (.var x initial) ((s.ready bindings).enter (s.ready bindings).current ∅) with
      | .ok .normal m =>
        match eval 23 test m with
        | .ok v _ => v.truthy
        | _ => false
      | _ => false
  | _ => false

/-- A loop whose body declares a function that assigns the variable. -/
theorem iterations_bind_afresh_captured :
    let s := Session.start false ⟨0⟩ .unlimited .unlimited
    let source := "for (var i = 0; i < 5; i = i + 1) { function f() { i = i + 1; } f(); print i; }"
    ∃ p ℓ id units s' unit k h i b, s.Runs units s' ∧
      (s.read source).result = .ok (Sketch.fill p (VarLoop.copying ℓ id)) ∧ unit ∈ units ∧ unit.Visits k ∧
        ℓ.Heads id k h ∧ ℓ.Iterates id h i ∧ 4 ≤ i.bound ∧ ℓ.Bodies id i b ∧
          ℓ.BindsAfresh id units k.machine.store.frames.size h i b := by
  intro s source
  have hs : s.Reachable := .start false ⟨0⟩ .unlimited .unlimited
  have hrun : s.iterates source = true := by decide +kernel
  clear_value s source
  unfold Session.iterates at hrun
  split at hrun
  · rename_i x initial test c x₁ i₀ x₂ body i₁ c₁ i₂ x₃ i₃ x₄ i₄ c₂ e B ha
    simp only [Bool.and_eq_true, beq_iff_eq, List.cons.injEq, and_true] at hrun
    obtain ⟨⟨⟨⟨rfl, rfl, rfl⟩, rfl, rfl, rfl, rfl⟩, rfl, rfl, rfl, rfl⟩, hruns⟩ := hrun
    split at hruns
    · rename_i m hvar
      split at hruns
      · rename_i v m' htest
        let ℓ : VarLoop := ⟨x₄, initial, some test, some e, body⟩
        have hread : (s.read source).result = .ok (Sketch.fill ⟨[], .here, []⟩ (ℓ.copying i₀)) :=
          (Session.read_of_accepted ha).1
        have hunits : s.Runs (s.begun 25 source) (s.run 25 source).2 := .run 25 source .refl
        have hunit : ⟨25, .unit [ℓ.copying i₀], s.ready B⟩ ∈ s.begun 25 source := Session.mem_begun.mpr ⟨_, ha, rfl⟩
        have hk : Moment.Visits ⟨25, .unit [ℓ.copying i₀], s.ready B⟩ ⟨25, .stmt (ℓ.copying i₀), s.ready B⟩ :=
          .single (.performed nofun)
        have hh : ℓ.Heads i₀ ⟨25, .stmt (ℓ.copying i₀), s.ready B⟩ ⟨24, .stmt (ℓ.cycle i₀), m⟩ := .first hvar
        have hi : ℓ.Iterates i₀ _ ⟨22, .stmt (iteration i₀ ℓ.name ℓ.body), m'.enter m'.current ∅⟩ :=
          .inside rfl htest hruns
        have hbound : 4 ≤ 22 := by decide
        obtain ⟨hbegins, hbinds⟩ := iterations_bind_afresh hs hunits hread hunit hk hh hi
        obtain ⟨b, hb⟩ := hbegins hbound
        exact ⟨_, ℓ, i₀, _, _, _, _, _, _, b, hunits, hread, hunit, hk, hh, hi, hbound, hb, hbinds b hb⟩
      · cases hruns
    · cases hruns
  · cases hrun

end LoxLang
