import LoxLang.Proofs.Scoping.Agreement

/-! What a recorded distance means when its node is evaluated: a read finds its name, and so does an assignment, but
for the one that stands in the initial value of the variable it assigns. -/

namespace LoxLang

open Frames Run

/-- The node and the name of an expression that only looks a name up. -/
def Expr.lookup? : Expr → Option (NodeId × Token)
  | .read id t | .self id t | .inherited id t _ => some (id, t)
  | _ => none

namespace Moment

variable {c : Chart} {k : Moment} {l : Layout} {d : Option Token} {id : NodeId} {t : Token} {h : Nat}

/-- A distance of a layout leads to a frame that is not the global one and has the name. -/
theorem ancestor_of_hops (hk : k.Fits c l) {x : String} (hops : l.hops? x = some h) :
    ∃ g, k.machine.store.frames.ancestor? k.machine.current h = some g ∧ g ≠ k.machine.globals ∧
      k.machine.store.frames.Has g x := hk.stands.linked.ancestor hk.sound.store.root hops

theorem ancestor_of_lookup (hk : k.Fits c l) {e : Expr} (hcode : k.code = .expr d e) (he : e.lookup? = some (id, t))
    (hentry : k.machine.bindings[id]? = some h) :
    ∃ g, k.machine.store.frames.ancestor? k.machine.current h = some g ∧ g ≠ k.machine.globals ∧
      k.machine.store.frames.Has g t.lexeme := by
  have hfits := hk.code
  rw [hcode] at hfits
  rw [← hk.sound.bindings] at hentry
  cases e with
  | read id t | self id t =>
    cases he
    exact ancestor_of_hops hk ((hfits.2 _ List.mem_cons_self).2.symm.trans hentry)
  | inherited id t method =>
    cases he
    obtain ⟨-, hsuper, d, -, hops, hd⟩ := hfits.2 _ List.mem_cons_self
    rw [hd] at hentry
    cases hentry
    exact ancestor_of_hops hk (hsuper ▸ hops)
  | literal | grouping | unary | binary | logical | assign | call | get | set => cases he

end Moment

section Evaluation

variable {m : Machine} {id : NodeId} {t : Token} {h : Nat} {g : FrameId}

theorem getAt?_of_has (hg : m.store.frames.ancestor? m.current h = some g) {x : String}
    (hx : m.store.frames.Has g x) : ∃ v, m.store.frames.getAt? m.current h x = some v := by
  unfold getAt?
  rw [hg]
  exact Option.isSome_iff_exists.mp hx

theorem read_of_has (hentry : m.bindings[id]? = some h) (hg : m.store.frames.ancestor? m.current h = some g)
    (hx : m.store.frames.Has g t.lexeme) : ∃ v, Run.read id t m = .ok v m := by
  obtain ⟨v, hv⟩ := getAt?_of_has hg hx
  refine ⟨v, read_of_found ?_⟩
  rw [Machine.found?, hentry]
  exact hv

theorem assign_of_has (hentry : m.bindings[id]? = some h) (hg : m.store.frames.ancestor? m.current h = some g)
    (hx : m.store.frames.Has g t.lexeme) (v : Value) :
    Run.assign id t v m = .ok v (m.withFrames (m.store.frames.define g t.lexeme v)) := by
  refine assign_of_assigned ?_
  rw [Machine.assigned, hentry]
  dsimp only
  rw [assignAt, hg]
  exact if_pos hx

theorem assign_of_not_has (hentry : m.bindings[id]? = some h) (hg : m.store.frames.ancestor? m.current h = some g)
    (hx : ¬ m.store.frames.Has g t.lexeme) (v : Value) :
    Run.assign id t v m = .error (.error ⟨.undefinedVariable t.lexeme, t.line⟩) m := by
  have hrefused : m.assigned id t.lexeme v = (false, m.store.frames) := by
    rw [Machine.assigned, hentry]
    dsimp only
    rw [assignAt, hg]
    exact if_neg hx
  exact assign_of_refused hrefused

/-- The run does not fail for want of a variable. -/
def Run.Finds {α : Type} (run : Run α) : Prop :=
  ∀ m x line m', run m ≠ .error (.error ⟨.undefinedVariable x, line⟩) m'

theorem finds_fail {α : Type} (t : Token) {cause : RuntimeFault} (h : ∀ x, cause ≠ .undefinedVariable x) :
    Finds (fail t cause : Run α) := by
  intro m x line m' e
  cases e
  exact h x rfl

theorem finds_boundMethod (c : ClassId) (o : ObjectId) (name : Token) : Finds (boundMethod c o name) := by
  intro m
  unfold boundMethod
  rw [Halting.bind_of_ok (Halting.get_apply m)]
  cases m.store.method? c name.lexeme with
  | none => exact finds_fail name (by simp) m
  | some method =>
    intro x line m' e
    cases e

/-- A method of the superclass that is sought at a distance may be missing, but not the variable. -/
theorem inherited_ne_undefined (hentry : m.bindings[id]? = some h) (method : Token) (x : String) (line : Nat)
    (m' : Machine) : inherited id t method m ≠ .error (.error ⟨.undefinedVariable x, line⟩) m' := by
  unfold inherited
  rw [Halting.bind_of_ok (Halting.get_apply m)]
  simp only [hentry]
  refine (show Finds _ from ?_) m x line m'
  split
  · split
    · exact finds_fail _ (by simp)
    · split
      · exact finds_boundMethod _ _ _
      · exact finds_fail _ (by simp)
  · exact finds_fail _ (by simp)

end Evaluation

/-- Whenever a variable, `this` or `super` with a recorded distance is evaluated, in whatever unit of a session and
after whatever units before it, there is a frame at that distance, not the global one, and it has the name already.
So the evaluation does not fail for want of the variable. -/
theorem lookup_defined {s : Session} (hs : s.Reachable) {n : Nat} {source : String} {k : Moment}
    (hk : s.Visits n source k) {d : Option Token} {e : Expr} {id : NodeId} {t : Token} {h : Nat}
    (hcode : k.code = .expr d e) (he : e.lookup? = some (id, t)) (hentry : k.machine.bindings[id]? = some h) :
    (∃ g, k.machine.store.frames.ancestor? k.machine.current h = some g ∧ g ≠ k.machine.globals ∧
      k.machine.store.frames.Has g t.lexeme) ∧
    ∀ b x line m, eval b e k.machine ≠ .error (.error ⟨.undefinedVariable x, line⟩) m := by
  obtain ⟨c, l, hfits⟩ := hs.fits hk
  obtain ⟨g, hg, hglobal, hhas⟩ := Moment.ancestor_of_lookup hfits hcode he hentry
  refine ⟨⟨g, hg, hglobal, hhas⟩, fun b x line m => ?_⟩
  cases b with
  | zero => exact nofun
  | succ b =>
    cases e with
    | read id t | self id t =>
      cases he
      obtain ⟨v, hv⟩ := read_of_has hentry hg hhas
      rw [eval, hv]
      exact nofun
    | inherited id t method =>
      cases he
      rw [eval]
      exact inherited_ne_undefined hentry method x line m
    | literal | grouping | unary | binary | logical | assign | call | get | set => cases he

/-- The unit is the call of a function that prints a name one frame outside its own. -/
def Session.callsReader (s : Session) (source : String) : Bool :=
  match s.accepted? source with
  | some ([.expression (.call callee paren [])], bindings) =>
    match eval 7 callee (s.ready bindings) with
    | .ok f m₁ =>
      match admitCall paren f 0 m₁ with
      | .ok () m₂ =>
        match { m₂ with depth := m₂.depth + 1 }.called? [] f with
        | some ([.print (.read id _)], m) => m.bindings[id]? == some 1
        | _ => false
      | _ => false
    | _ => false
  | _ => false

/-- A function that a failed unit left behind, called in the next one, reads a variable of a block long left. -/
theorem lookup_defined_after_failure :
    let first := (Session.start false ⟨0⟩ .unlimited .unlimited).run 30
      "var f; { var x = 1; function g() { print x; } f = g; nosuch; }"
    first.1 = .runtimeError ∧
      ∃ k id t, first.2.Visits 9 "f();" k ∧ k.code = .expr none (.read id t) ∧ k.machine.bindings[id]? = some 1 ∧
        ∃ g, k.machine.store.frames.ancestor? k.machine.current 1 = some g ∧ g ≠ k.machine.globals ∧
          k.machine.store.frames.Has g t.lexeme := by
  intro first
  have hs : first.2.Reachable := .run 30 _ (.start false ⟨0⟩ .unlimited .unlimited)
  have hrun : first.2.callsReader "f();" = true := by decide +kernel
  have hfailed : first.1 = .runtimeError := by decide +kernel
  have hprompt : first.2.machine.prompt = false := by decide +kernel
  clear_value first
  refine ⟨hfailed, ?_⟩
  unfold Session.callsReader at hrun
  split at hrun
  · rename_i callee paren bindings ha
    split at hrun
    · rename_i f m₁ hf
      split at hrun
      · rename_i m₂ hadmit
        split at hrun
        · rename_i id t m hcalled
          have hbody : Moment.Visits ⟨9, .unit [.expression (.call callee paren [])], first.2.ready bindings⟩
              ⟨7, .body [.print (.read id t)], m⟩ :=
            .head (.performed fun _ _ => hprompt) (Moment.visits_called hf hadmit hcalled)
          have hk : first.2.Visits 9 "f();" ⟨6, .expr none (.read id t), m⟩ :=
            ⟨_, ha, hbody.trans (.head .statement (.single (.value rfl)))⟩
          have hentry := eq_of_beq hrun
          exact ⟨_, id, t, hk, rfl, hentry, (lookup_defined hs hk rfl rfl hentry).1⟩
        · cases hrun
      · cases hrun
    · cases hrun
  · cases hrun

/-- Where an assignment with a recorded distance stands, once its value is there. Inside the initial value of the very
name it assigns, the distance is that of the new variable, which its frame does not have yet. -/
theorem Moment.ancestor_of_assign {c : Chart} {k : Moment} {l : Layout} (hk : k.Fits c l) {d : Option Token}
    {id : NodeId} {name : Token} {value : Expr} {h : Nat} (hcode : k.code = .expr d (.assign id name value))
    (hentry : k.machine.bindings[id]? = some h) {b : Nat} {v : Value} {m : Machine}
    (hvalue : eval b value k.machine = .ok v m) :
    ∃ g, m.store.frames.ancestor? m.current h = some g ∧ g ≠ m.globals ∧
      (m.store.frames.Has g name.lexeme ↔ ∀ t ∈ d, t.lexeme ≠ name.lexeme) := by
  obtain ⟨hm, ha, hfits⟩ := hk
  rw [hcode] at hfits
  obtain ⟨hfree, huses⟩ := hfits
  have hfollows := (keeps_eval b hm ha (fits_part ⟨hfree, huses⟩ (uses_first rfl)).2).of_ok hvalue
  have hm' := hfollows.sound
  have ha' := hfollows.at_same hm ha
  obtain ⟨-, huse⟩ := huses ⟨.assign, id, name⟩ List.mem_cons_self
  dsimp only at huse
  rw [hm.bindings, hentry] at huse
  split at huse
  · rename_i hown
    obtain ⟨t, rfl, hname⟩ := Option.bind_eq_some_iff.mp hown
    obtain ⟨-, h0⟩ := huse
    cases h0
    cases l with
    | nil => cases hname
    | cons scope outer =>
      refine ⟨m.current, rfl, ha'.linked.ne_globals hm'.store.root, fun hx => ?_, fun hother => ?_⟩
      · have hmem := ha'.exact scope rfl _ hx
        rw [← Option.some.inj hname] at hmem
        exact absurd hmem (hfree t rfl scope rfl)
      · exact absurd (Option.some.inj hname) (hother t rfl)
  · rename_i hown
    obtain ⟨g, hg, hglobal, hx⟩ := ha'.linked.ancestor hm'.store.root huse.symm
    refine ⟨g, hg, hglobal, fun _ t ht hname => hown ?_, fun _ => hx⟩
    cases ht
    cases l with
    | nil => cases huse
    | cons scope outer => exact congrArg some hname

/-- Whenever an assignment with a recorded distance stores its value, there is a frame at that distance, and not the
global one. The frame has the name, and the store succeeds, except in the initial value of a variable of that name:
there the frame is that of the new variable, which does not have it yet, and the assignment fails. -/
theorem assignment_defined {s : Session} (hs : s.Reachable) {n : Nat} {source : String} {k : Moment}
    (hk : s.Visits n source k) {d : Option Token} {id : NodeId} {name : Token} {value : Expr} {h : Nat}
    (hcode : k.code = .expr d (.assign id name value)) (hentry : k.machine.bindings[id]? = some h) {b : Nat}
    {v : Value} {m : Machine} (hvalue : eval b value k.machine = .ok v m) :
    ∃ g, m.store.frames.ancestor? m.current h = some g ∧ g ≠ m.globals ∧
      ((∀ t ∈ d, t.lexeme ≠ name.lexeme) → m.store.frames.Has g name.lexeme ∧
        Run.assign id name v m = .ok v (m.withFrames (m.store.frames.define g name.lexeme v))) ∧
      ((∃ t ∈ d, t.lexeme = name.lexeme) → ¬ m.store.frames.Has g name.lexeme ∧
        Run.assign id name v m = .error (.error ⟨.undefinedVariable name.lexeme, name.line⟩) m) := by
  obtain ⟨c, l, hfits⟩ := hs.fits hk
  obtain ⟨g, hg, hglobal, hhas⟩ := Moment.ancestor_of_assign hfits hcode hentry hvalue
  have hsteady := steady_eval b value k.machine
  rw [Halting.after_of_ok hvalue] at hsteady
  have hbindings : m.bindings[id]? = some h := (congrArg (·.bindings[id]?) hsteady).trans hentry
  refine ⟨g, hg, hglobal, fun hother => ?_, fun hown => ?_⟩
  · exact ⟨hhas.mpr hother, assign_of_has hbindings hg (hhas.mpr hother) v⟩
  · have hnot : ¬ m.store.frames.Has g name.lexeme := fun hx => by
      obtain ⟨t, ht, hname⟩ := hown
      exact hhas.mp hx t ht hname
    exact ⟨hnot, assign_of_not_has hbindings hg hnot v⟩

/-- The unit is a block with a statement and a block that declares a variable, whose initial value assigns to it. -/
def Session.assignsOwn (s : Session) (source : String) : Bool :=
  match s.accepted? source with
  | some ([.block [first, .block [.var d (some (.assign id name value))]]], bindings) =>
    match exec 8 first ((s.ready bindings).enter (s.ready bindings).current ∅) with
    | .ok .normal m₁ =>
      match eval 5 value (m₁.enter m₁.current ∅) with
      | .ok _ _ => m₁.bindings[id]? == some 0 && d.lexeme == name.lexeme
      | _ => false
    | _ => false
  | _ => false

/-- The initial value of the inner variable assigns it, one block inside a variable of the same name. -/
theorem assignment_defined_in_own_initial_value :
    let s := Session.start false ⟨0⟩ .unlimited .unlimited
    ∃ k d id name value v m, s.Visits 9 "{ var x = 1; { var x = x = 2; } }" k ∧
      k.code = .expr (some d) (.assign id name value) ∧ d.lexeme = name.lexeme ∧
        k.machine.bindings[id]? = some 0 ∧ eval 5 value k.machine = .ok v m ∧
          Run.assign id name v m = .error (.error ⟨.undefinedVariable name.lexeme, name.line⟩) m := by
  intro s
  have hs : s.Reachable := .start false ⟨0⟩ .unlimited .unlimited
  have hrun : s.assignsOwn "{ var x = 1; { var x = x = 2; } }" = true := by decide +kernel
  have hprompt : s.machine.prompt = false := rfl
  clear_value s
  unfold Session.assignsOwn at hrun
  split at hrun
  · rename_i first d id name value bindings ha
    split at hrun
    · rename_i m₁ hfirst
      split at hrun
      · rename_i v m hvalue
        obtain ⟨hentry, hname⟩ := Bool.and_eq_true_iff.mp hrun
        have houter : Moment.Visits ⟨9, .unit [.block [first, .block [.var d (some (.assign id name value))]]],
            s.ready bindings⟩ ⟨8, .body [.block [.var d (some (.assign id name value))]], m₁⟩ :=
          .head (.performed fun _ _ => hprompt) (.head .block (.single (.rest hfirst)))
        have hinner : Moment.Visits ⟨8, .body [.block [.var d (some (.assign id name value))]], m₁⟩
            ⟨6, .expr (some d) (.assign id name value), m₁.enter m₁.current ∅⟩ :=
          .head .statement (.head .block (.head .statement (.single (.value rfl))))
        have hk : s.Visits 9 "{ var x = 1; { var x = x = 2; } }" _ := ⟨_, ha, houter.trans hinner⟩
        obtain ⟨g, -, -, -, hown⟩ := assignment_defined hs hk rfl (eq_of_beq hentry) hvalue
        exact ⟨_, d, id, name, value, v, m, hk, rfl, eq_of_beq hname, eq_of_beq hentry, hvalue,
          (hown ⟨d, rfl, eq_of_beq hname⟩).2⟩
      · cases hrun
    · cases hrun
  · cases hrun

/-- An assignment in the initial value of a variable that shadows one of the same name does not reach the outer one,
though a read there does. -/
theorem assignment_misses_shadowed :
    let s := Session.start false ⟨0⟩ .unlimited .unlimited
    (s.run 30 "{ var x = 1; { var x = (x = 2); print x; } print x; }").1 = .runtimeError ∧
      (s.run 30 "{ var x = 1; { var x = (x); print x; } print x; }").1 = .ok := by
  decide +kernel

end LoxLang
