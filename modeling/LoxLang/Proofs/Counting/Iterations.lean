import LoxLang.Proofs.Counting.Simulation
import LoxLang.Proofs.Scoping.Growth

/-! One run of the body of a counting loop, with a copy of the variable and without one. The copy has the value of the
variable when the body begins, and gives its own back when the body ends normally; so while the body runs, the frame of
the copy stands for that of the variable. -/

namespace LoxLang

open Frames Run

namespace Machine

/-- With a name in the current frame. -/
def defining (m : Machine) (x : String) (v : Value) : Machine := m.withFrames (m.store.frames.define m.current x v)

end Machine

section Steps

variable {m t : Machine} {n : Nat}

theorem exec_var_none (x : Token) : exec (n + 1) (.var x none) m = .ok .normal (m.defining x.lexeme .nil) := rfl

theorem exec_var_read {id : NodeId} {x y : Token} {v : Value} (h : m.found? id y.lexeme = some v) :
    exec (n + 2) (.var x (some (.read id y))) m = .ok .normal (m.defining x.lexeme v) := by
  change (read id y >>= fun v => define x.lexeme v >>= fun _ => pure Completion.normal) m = _
  rw [Halting.bind_of_ok (read_of_found h)]
  rfl

/-- A copy reads one name and writes another. -/
theorem exec_copy {id : NodeId} {target source : Token} {v : Value} {fs : Frames}
    (hread : m.found? (id + 1) source.lexeme = some v) (hassign : m.assigned id target.lexeme v = (true, fs)) :
    exec (n + 3) (Grammar.copy id target source) m = .ok .normal (m.withFrames fs) := by
  change ((read (id + 1) source >>= fun v => assign id target v) >>= fun _ => pure Completion.normal) m = _
  have hboth : (read (id + 1) source >>= fun v => assign id target v) m = .ok v (m.withFrames fs) := by
    rw [Halting.bind_of_ok (read_of_found hread), assign_of_assigned hassign]
  rw [Halting.bind_of_ok hboth]
  rfl

variable {run : Stmt → Run Completion} {s : Stmt} {rest : List Stmt}

theorem sequence_of_normal (h : run s m = .ok .normal t) : sequence run (s :: rest) m = sequence run rest t := by
  change (run s >>= _) m = _
  rw [Halting.bind_of_ok h]

theorem sequence_of_returned {v : Value} (h : run s m = .ok (.returned v) t) :
    sequence run (s :: rest) m = .ok (.returned v) t := by
  change (run s >>= _) m = _
  rw [Halting.bind_of_ok h]
  rfl

theorem sequence_of_error {k : Halt} (h : run s m = .error k t) : sequence run (s :: rest) m = .error k t := by
  change (run s >>= _) m = _
  rw [Halting.bind_of_error h]

end Steps

namespace Counting

open Grammar Pairing

/-- The distances of the nodes that a loop body with a copy of the variable has of its own, where the frame of the
variable is as many hops out. -/
structure Wired (B : Bindings) (id : NodeId) (hops : Nat) : Prop where
  own : B[id]? = some (hops + 2)
  out : B[id + 1]? = some 1
  copy : B[id + 2]? = some 0
  back : B[id + 3]? = some (hops + 1)
  carried : B[id + 4]? = some 0

/-- The frame has this name and no other. -/
def Sole (fs : Frames) (f : FrameId) (x : String) : Prop := ∀ y, fs.Has f y ↔ y = x

section Frames

variable {fs gs : Frames} {f g : FrameId} {x : String}

theorem Sole.names_eq (h : Sole fs f x) (h' : Sole gs g x) (hx : fs.here? f x = gs.here? g x) :
    fs.names f = gs.names g := by
  apply Std.ExtTreeMap.ext_getElem?
  intro y
  rw [← here?_eq, ← here?_eq]
  by_cases hy : y = x
  · rw [hy, hx]
  · rw [Option.not_isSome_iff_eq_none.mp (mt (h y).mp hy), Option.not_isSome_iff_eq_none.mp (mt (h' y).mp hy)]

theorem sole_of_names {v : Value} (h : fs.names f = (∅ : Names).insert x v) : Sole fs f x := by
  intro y
  unfold Has
  rw [here?_eq, h, Std.ExtTreeMap.getElem?_insert]
  by_cases hy : y = x
  · simp [hy]
  · simp [hy, Ne.symm hy]

theorem Sole.overwrite (h : Sole fs f x) (v : Value) : Sole (fs.define f x v) f x := by
  intro y
  have hf : f < fs.size := lt_of_has ((h x).mpr rfl)
  rw [has_define hf, h y]
  simp

theorem Sole.grows (h : Sole fs f x) {g : FrameId} (hg : Grows fs gs g []) : Sole gs f x := by
  intro y
  rw [hg.has f (lt_of_has ((h x).mpr rfl)) y, h y]
  simp

end Frames

section Runs

variable {m u : Machine} {id : NodeId} {x : Token} {body : Stmt} {hops n : Nat} {v : FrameId} {w : Value}

/-- The machine on which the body begins: inside the frame of the carrier is that of the copy. -/
def opened (m : Machine) (x : Token) (w : Value) : Machine :=
  let outside := (m.enter m.current ∅).defining (carrier x).lexeme .nil
  (outside.enter outside.current ∅).defining x.lexeme w

theorem opened_current (m : Machine) (x : Token) (w : Value) : (opened m x w).current = m.store.frames.size + 1 := by
  change ((m.store.frames.add (some m.current) ∅).define _ _ _).size = _
  rw [size_define, size_add]

section Exits

variable (hfound : (((m.enter m.current ∅).defining (carrier x).lexeme .nil).enter
  m.store.frames.size ∅).found? id x.lexeme = some w)

theorem exec_outer (n : Nat) (body : Stmt) : exec (n + 2) (iteration id x body) m =
    returning m.current (sequence (exec (n + 1))
      [.block [.var x (some (.read id x)), body, copy (id + 1) (carrier x) x], copy (id + 3) x (carrier x)]
      ((m.enter m.current ∅).defining (carrier x).lexeme .nil)) := by
  change inNewFrame (exec (n + 1)) m.current ∅ _ m = _
  rw [inNewFrame_eq, sequence_of_normal (exec_var_none _)]

include hfound

theorem exec_inner (n : Nat) (body : Stmt) :
    exec (n + 3) (.block [.var x (some (.read id x)), body, copy (id + 1) (carrier x) x])
      ((m.enter m.current ∅).defining (carrier x).lexeme .nil) =
        returning m.store.frames.size (sequence (exec (n + 2)) [body, copy (id + 1) (carrier x) x] (opened m x w)) := by
  change inNewFrame (exec (n + 2)) m.store.frames.size ∅ _ _ = _
  rw [inNewFrame_eq, sequence_of_normal (exec_var_read hfound)]
  rfl

theorem exec_iteration_error {k : Halt} (h : exec (n + 2) body (opened m x w) = .error k u) :
    exec (n + 4) (iteration id x body) m = .error k { u with current := m.current } := by
  have hinner := exec_inner hfound n body
  rw [sequence_of_error h] at hinner
  rw [exec_outer, sequence_of_error hinner]
  rfl

theorem exec_iteration_returned {r : Value} (h : exec (n + 2) body (opened m x w) = .ok (.returned r) u) :
    exec (n + 4) (iteration id x body) m = .ok (.returned r) { u with current := m.current } := by
  have hinner := exec_inner hfound n body
  rw [sequence_of_returned h] at hinner
  rw [exec_outer, sequence_of_returned hinner]
  rfl

/-- Where the bound is just enough for the body, it is not enough for what is behind. -/
theorem exec_iteration_exhausted (h : exec 2 body (opened m x w) = .ok .normal u) :
    exec 4 (iteration id x body) m = .error .exhausted { u with current := m.current } := by
  have hinner := exec_inner hfound 0 body
  rw [sequence_of_normal h] at hinner
  rw [exec_outer, sequence_of_error hinner]
  rfl

/-- The value goes from the copy to the carrier and from there to the variable. -/
theorem exec_iteration_normal {w' : Value} {fs gs : Frames}
    (h : exec (n + 3) body (opened m x w) = .ok .normal u) (hread : u.found? (id + 2) x.lexeme = some w')
    (hassign : u.assigned (id + 1) (carrier x).lexeme w' = (true, fs))
    (hread' : Machine.found? { u.withFrames fs with current := m.store.frames.size } (id + 4) (carrier x).lexeme = some w')
    (hassign' : Machine.assigned { u.withFrames fs with current := m.store.frames.size } (id + 3) x.lexeme w' = (true, gs)) :
    exec (n + 5) (iteration id x body) m = .ok .normal { u.withFrames gs with current := m.current } := by
  have hinner := exec_inner hfound (n + 1) body
  rw [sequence_of_normal h, sequence_of_normal (exec_copy hread hassign)] at hinner
  rw [exec_outer, sequence_of_normal hinner, sequence_of_normal (exec_copy hread' hassign')]
  rfl

end Exits

section Opened

variable {fs : Frames} {f g : FrameId}

/-- Two new frames, the second inside the first. -/
def nested (fs : Frames) (f : FrameId) (names names' : Names) : Frames :=
  (fs.add (some f) names).add (some fs.size) names'

variable {names names' : Names}

theorem size_nested : (nested fs f names names').size = fs.size + 2 := by rw [nested, size_add, size_add]

theorem later_nested : Later fs (nested fs f names names') := (later_add ..).trans (later_add ..)

theorem names_nested (hg : g < fs.size) : (nested fs f names names').names g = fs.names g := by
  rw [nested, names_add_of_ne, names_add_of_ne _ _ hg.ne]
  rw [size_add]
  exact (Nat.lt_succ_of_lt hg).ne

theorem names_nested_inner : (nested fs f names names').names (fs.size + 1) = names' := by
  rw [nested, ← size_add, names_add_self]

theorem names_nested_outer : (nested fs f names names').names fs.size = names := by
  rw [nested, names_add_of_ne, names_add_self]
  rw [size_add]
  exact (Nat.lt_succ_self _).ne

section Places

variable (hc : Closed fs) (hf : f < fs.size)

include hc hf

theorem closed_nested : Closed (nested fs f names names') := by
  refine (hc.add hf _).add ?_ _
  rw [size_add]
  exact Nat.lt_succ_self _

theorem ancestor?_nested_outer (d : Nat) : (nested fs f names names').ancestor? fs.size (d + 1) = fs.ancestor? f d := by
  rw [nested, ancestor?_later (hc.add hf _) (later_add ..), ancestor?_add_succ hc hf]
  rw [size_add]
  exact Nat.lt_succ_self _

omit hc hf in
theorem ancestor?_nested_one : (nested fs f names names').ancestor? (fs.size + 1) 1 = some fs.size := by
  rw [ancestor?, nested, outer?_add, size_add, if_pos rfl]
  rfl

theorem ancestor?_nested (d : Nat) : (nested fs f names names').ancestor? (fs.size + 1) (d + 2) = fs.ancestor? f d := by
  have houter : (nested fs f names names').outer? (fs.size + 1) = some fs.size := by
    rw [nested, outer?_add, size_add, if_pos rfl]
  rw [ancestor?, houter]
  exact ancestor?_nested_outer hc hf d

end Places

theorem enter_defining (m : Machine) (f : FrameId) (names : Names) (x : String) (v : Value) :
    (m.enter f names).defining x v = m.enter f (names.insert x v) := by
  change ({ m with store := { m.store with frames := (m.store.frames.add (some f) names).define m.store.frames.size x v }
                   current := m.store.frames.size } : Machine) = _
  rw [← add_insert]
  rfl

/-- The frame of the copy is inside that of the carrier, and each has one name. -/
theorem opened_frames (m : Machine) (x : Token) (w : Value) : (opened m x w).store.frames =
    nested m.store.frames m.current ((∅ : Names).insert (carrier x).lexeme .nil) ((∅ : Names).insert x.lexeme w) := by
  unfold opened
  rw [enter_defining, enter_defining]
  rfl

theorem opened_eq (m : Machine) (x : Token) (w : Value) : opened m x w =
    { m.withFrames (opened m x w).store.frames with current := m.store.frames.size + 1 } := by
  rw [← opened_current m x w]
  rfl

theorem opened_later (m : Machine) (x : Token) (w : Value) : Later m.store.frames (opened m x w).store.frames := by
  rw [opened_frames]
  exact later_nested

end Opened

/-- A machine on which an iteration can begin, with the frame of the variable as many hops out. -/
structure Poised (m : Machine) (id : NodeId) (x : String) (hops : Nat) (v : FrameId) : Prop where
  wired : Wired m.bindings id hops
  closed : Closed m.store.frames
  within : m.current < m.store.frames.size
  holder : m.store.frames.ancestor? m.current hops = some v
  sole : Sole m.store.frames v x

namespace Poised

variable (h : Poised m id x.lexeme hops v)

include h

theorem bound : v < m.store.frames.size := lt_of_ancestor h.closed h.within h.holder

/-- The copy begins with the value of the variable. -/
theorem found (hw : m.store.frames.here? v x.lexeme = some w) :
    (((m.enter m.current ∅).defining (carrier x).lexeme .nil).enter m.store.frames.size ∅).found? id x.lexeme =
      some w := by
  refine (Machine.found?_of_distance (d := hops + 2) ?_ _).trans ?_
  · exact h.wired.own
  rw [enter_defining]
  change (nested m.store.frames m.current _ ∅).getAt? (m.store.frames.add (some m.current) _).size _ x.lexeme = _
  rw [size_add, getAt?, ancestor?_nested h.closed h.within, h.holder]
  dsimp only [Option.bind_some]
  rw [here?_eq, names_nested h.bound, ← here?_eq, hw]

end Poised

section Ends

variable (hgrows : Grows (opened m x w).store.frames u.store.frames (opened m x w).current [])

include hgrows

theorem has_carrier : u.store.frames.Has m.store.frames.size (carrier x).lexeme := by
  have hopened : (opened m x w).store.frames.Has m.store.frames.size (carrier x).lexeme := by
    unfold Has
    rw [here?_eq, opened_frames, names_nested_outer]
    simp
  exact hgrows.keeps (lt_of_has hopened) hopened

/-- The copy still has its value, perhaps another one. -/
theorem sole_copy : Sole u.store.frames (m.store.frames.size + 1) x.lexeme := by
  refine Sole.grows (sole_of_names (v := w) ?_) hgrows
  rw [opened_frames, names_nested_inner]

theorem later_opened : Later (opened m x w).store.frames u.store.frames := ⟨hgrows.size, hgrows.outer⟩

theorem Sole.behind {y : String} (h : Sole m.store.frames v y) : Sole u.store.frames v y := by
  have hv : v < m.store.frames.size := lt_of_has ((h y).mpr rfl)
  have hopened : Sole (opened m x w).store.frames v y := by
    intro z
    unfold Has
    rw [here?_eq, opened_frames, names_nested hv, ← here?_eq]
    exact h z
  exact hopened.grows hgrows

variable (h : Poised m id x.lexeme hops v)

include h

/-- What is read and written behind the body: the copy, the carrier, and the variable. -/
theorem Poised.exec_normal (hcontext : u.context = (opened m x w).context)
    (e : exec (n + 3) body (opened m x w) = .ok .normal u) (hw : m.store.frames.here? v x.lexeme = some w) {w' : Value}
    (hw' : u.store.frames.here? (m.store.frames.size + 1) x.lexeme = some w') :
    exec (n + 5) (iteration id x body) m = .ok .normal
      { u.withFrames ((u.store.frames.define m.store.frames.size (carrier x).lexeme w').define v x.lexeme w')
        with current := m.current } := by
  simp only [Machine.context, Context.mk.injEq, opened_current] at hcontext
  obtain ⟨-, hcurrent, -, hbindings, -⟩ := hcontext
  replace hbindings : u.bindings = m.bindings := hbindings
  have hlater := opened_frames m x w ▸ later_opened hgrows
  have hclosed : Closed (nested m.store.frames m.current ((∅ : Names).insert (carrier x).lexeme .nil)
    ((∅ : Names).insert x.lexeme w)) := closed_nested h.closed h.within
  have hout : u.store.frames.ancestor? (m.store.frames.size + 1) 1 = some m.store.frames.size := by
    rw [ancestor?_later hclosed hlater, ancestor?_nested_one]
    rw [size_nested]
    exact Nat.lt_succ_self _
  have hback : u.store.frames.ancestor? m.store.frames.size (hops + 1) = some v := by
    rw [ancestor?_later hclosed hlater, ancestor?_nested_outer h.closed h.within, h.holder]
    rw [size_nested]
    exact Nat.lt_add_of_pos_right Nat.two_pos
  have hcarrier := has_carrier hgrows
  have hvariable : (u.store.frames.define m.store.frames.size (carrier x).lexeme w').Has v x.lexeme := by
    rw [has_define (lt_of_has hcarrier)]
    exact .inl ((h.sole.behind hgrows x.lexeme).mpr rfl)
  have hread : u.found? (id + 2) x.lexeme = some w' := by
    unfold Machine.found?
    rw [hbindings, h.wired.copy, hcurrent]
    exact hw'
  have hassign : u.assigned (id + 1) (carrier x).lexeme w' =
      (true, u.store.frames.define m.store.frames.size (carrier x).lexeme w') := by
    unfold Machine.assigned
    rw [hbindings, h.wired.out, hcurrent]
    exact assignAt_of_has hout hcarrier w'
  refine exec_iteration_normal (h.found hw) e hread hassign ?_ ?_
  · rw [Machine.found?_of_distance (hbindings ▸ h.wired.carried)]
    exact here?_define_self (lt_of_has hcarrier) _ _
  · rw [Machine.assigned_of_distance (hbindings ▸ h.wired.back)]
    exact assignAt_of_has ((ancestor?_define ..).trans hback) hvariable w'

end Ends

/-- The frame of the copy is a new one, with the value that the variable has. -/
theorem Poised.binds (h : Poised m id x.lexeme hops v) (hw : m.store.frames.here? v x.lexeme = some w) :
    Sole (opened m x w).store.frames (m.store.frames.size + 1) x.lexeme ∧ Sole (opened m x w).store.frames v x.lexeme ∧
      (opened m x w).store.frames.ancestor? (m.store.frames.size + 1) (hops + 2) = some v ∧
        (opened m x w).store.frames.here? (m.store.frames.size + 1) x.lexeme =
          (opened m x w).store.frames.here? v x.lexeme := by
  have hself := Grows.refl (opened m x w).store.frames (opened m x w).current
  refine ⟨sole_copy hself, h.sole.behind hself, ?_, ?_⟩
  · rw [opened_frames, ancestor?_nested h.closed h.within, h.holder]
  · rw [here?_eq, here?_eq, opened_frames, names_nested_inner, names_nested h.bound, ← here?_eq, hw]
    simp

/-- However the body ends, the copy keeps its value, and if it ends normally, the variable has the same value then. -/
theorem Poised.ends (h : Poised m id x.lexeme hops v) (hw : m.store.frames.here? v x.lexeme = some w) (n : Nat)
    (body : Stmt) (hbody : ∀ u, exec (n + 2) body (opened m x w) = .ok .normal u →
      Grows (opened m x w).store.frames u.store.frames (opened m x w).current [] ∧ u.context = (opened m x w).context) :
    ((exec (n + 4) (iteration id x body)).after m).store.frames.here? (m.store.frames.size + 1) x.lexeme =
        ((exec (n + 2) body).after (opened m x w)).store.frames.here? (m.store.frames.size + 1) x.lexeme ∧
      ∀ u, exec (n + 2) body (opened m x w) = .ok .normal u →
        (∃ t, exec (n + 4) (iteration id x body) m = .ok .normal t ∧
          t.store.frames.here? v x.lexeme = t.store.frames.here? (m.store.frames.size + 1) x.lexeme) ∨
        n = 0 ∧ ∃ t, exec (n + 4) (iteration id x body) m = .error .exhausted t := by
  have hfound := h.found hw
  cases e : exec (n + 2) body (opened m x w) with
  | error k u =>
    rw [Halting.after_of_error e, Halting.after_of_error (exec_iteration_error hfound e)]
    exact ⟨rfl, nofun⟩
  | ok completion u =>
    cases completion with
    | returned r =>
      rw [Halting.after_of_ok e, Halting.after_of_ok (exec_iteration_returned hfound e)]
      exact ⟨rfl, nofun⟩
    | normal =>
      rw [Halting.after_of_ok e]
      obtain ⟨hgrows, hcontext⟩ := hbody u e
      obtain ⟨w', hw'⟩ := Option.isSome_iff_exists.mp ((sole_copy hgrows x.lexeme).mpr rfl)
      cases n with
      | zero =>
        have hexhausted : exec 4 (iteration id x body) m = _ := exec_iteration_exhausted hfound e
        rw [Halting.after_of_error hexhausted]
        exact ⟨rfl, fun _ _ => .inr ⟨rfl, _, hexhausted⟩⟩
      | succ n =>
        have hnormal := h.exec_normal hgrows hcontext e hw hw'
        have hv : v < u.store.frames.size := lt_of_has ((h.sole.behind hgrows x.lexeme).mpr rfl)
        have hcopy : ((u.store.frames.define m.store.frames.size (carrier x).lexeme w').define v x.lexeme w').here?
            (m.store.frames.size + 1) x.lexeme = some w' := by
          rw [here?_define_of_ne _ _ (.inl (Nat.lt_succ_of_lt h.bound).ne'),
            here?_define_of_ne _ _ (.inl (Nat.lt_succ_self _).ne'), hw']
        rw [Halting.after_of_ok hnormal]
        refine ⟨hcopy.trans hw'.symm, fun _ _ => .inl ⟨_, hnormal, ?_⟩⟩
        refine (here?_define_self ?_ _ _).trans hcopy.symm
        rw [size_define]
        exact hv

end Runs

end Counting

end LoxLang
