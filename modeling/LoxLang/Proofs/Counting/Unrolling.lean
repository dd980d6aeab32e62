import LoxLang.Proofs.Counting.Loops
import LoxLang.Proofs.Counting.Replacement
import LoxLang.Proofs.Scoping.Agreement

/-! The copy that each round of a counting loop makes of its variable cannot be seen where the body declares no function
and no class: with and without it the loop is accepted alike, and from whatever machine it begins on it ends alike. -/

namespace LoxLang

open Frames Grammar Counting Pairing

namespace Counting

section Itself

variable {fs : Frames} {f g : FrameId}

/-- The frames there are, each with itself. -/
def itself (fs : Frames) : Pairing := fun f f' => f' = f ∧ f < fs.size

theorem faces_itself (hc : Closed fs) (hf : f < fs.size) : Faces (itself fs) fs fs Eq f f where
  within := hf
  within' := hf
  ancestors := by
    rintro d _ rfl
    cases h : fs.ancestor? f d with
    | none => exact .none
    | some g => exact .some ⟨rfl, lt_of_ancestor hc hf h⟩

theorem paired_itself (hc : Closed fs) : Paired nobody (itself fs) fs fs := by
  have hlink : ∀ {f f'}, link nobody (itself fs) True f f' → f' = f ∧ f < fs.size := fun hf =>
    hf.resolve_right fun h => h.2
  refine ⟨hc, hc, fun f f' hf => ?_, fun f f' hf => ?_, fun f f' g g' hf hg => ?_, fun _ _ _ => id⟩
  · obtain ⟨rfl, hlt⟩ := hlink hf
    exact ⟨hlt, hlt⟩
  · rw [(hlink hf).1]
  · rw [(hlink hf).1, (hlink hg).1]

variable {S : Setting} {c : Chart} {m : Machine}

theorem homed_itself (hc : Closed fs) {globals : FrameId} (hglobals : globals < fs.size) (hlimit : c.limit ≤ S.limit)
    {around : Layout} {k : Closure FrameId} (hk : k.Placed c fs globals around) : Homed S (itself fs) fs fs k k.home := by
  obtain ⟨l, hl, hfits⟩ := hk
  exact ⟨faces_itself hc (hl.lt hglobals), fun u hu => (hfits.below u hu).trans_le hlimit⟩

theorem Closure.matches_self {ε : Type} {R : Closure ε → ε → Prop} {k : Closure ε} (h : R k k.home) : k.Matches R k :=
  ⟨rfl, rfl, h⟩

/-- A sound machine matches the one that knows more distances. -/
theorem mates_itself (hm : m.Sound c) (hl : S.left = m.bindings) (hlimit : c.limit ≤ S.limit) :
    Mates S nobody (itself m.store.frames) m { m with bindings := S.right } where
  left := hl.symm
  right := rfl
  output := rfl
  depth := rfl
  globals := ⟨rfl, hm.store.within⟩
  root := hm.store.root
  root' := hm.store.root
  frames := paired_itself hm.store.closed
  heap := by
    have hhomed : ∀ {around : Layout} {k : Closure FrameId}, k.Placed c m.store.frames m.globals around →
        k.Matches (Homed S (itself m.store.frames) m.store.frames m.store.frames) k := fun hk =>
      Closure.matches_self (homed_itself hm.store.closed hm.store.within hlimit hk)
    refine ⟨rfl, fun i => ?_, fun i => ?_, rfl⟩
    · change Option.Rel _ m.store.closures[i]? m.store.closures[i]?
      cases hk : m.store.closures[i]? with
      | none => exact .none
      | some k => exact .some (hhomed (hm.store.closures k (Array.mem_of_getElem? hk)))
    · change Option.Rel _ m.store.classes[i]? m.store.classes[i]?
      cases hd : m.store.classes[i]? with
      | none => exact .none
      | some d =>
        refine .some ⟨rfl, rfl, fun x => ?_⟩
        cases hk : d.methods[x]? with
        | none => exact .none
        | some k => exact .some (hhomed (hm.store.methods d (Array.mem_of_getElem? hd) x k hk))

end Itself

/-- Two runs from the same machine have led to these, with the same effects: they have written the same, they stand in
the same frame, and all frames and instances there were have the same contents. Instances, functions and classes have
the same numbers, and functions stand in frames with the same contents, those around them included. -/
structure SameEffects (m t t' : Machine) : Prop where
  output : t'.output = t.output
  depth : t'.depth = t.depth
  current : t'.current = t.current
  names : ∀ f < m.store.frames.size, t'.store.frames.names f = t.store.frames.names f
  outer : ∀ f < m.store.frames.size, t'.store.frames.outer? f = t.store.frames.outer? f
  objects : t'.store.objects = t.store.objects
  functions : ∃ K : Pairing, (∀ f < m.store.frames.size, K f f) ∧
    (∀ f f', K f f' → t'.store.frames.names f' = t.store.frames.names f) ∧
    t.store.toHeap.Matches (fun k home' => Faces K t.store.frames t'.store.frames Eq k.home home')
      (fun k home' => Faces K t.store.frames t'.store.frames Eq k.home home') t'.store.toHeap

theorem sameEffects_of_led {S : Setting} {m t t' : Machine} {known : Bindings}
    (h : Led S nobody (itself m.store.frames) m { m with bindings := known } t t') : SameEffects m t t' := by
  obtain ⟨K, hl⟩ := h
  have hold : ∀ f < m.store.frames.size, K f f := fun f hf => hl.grows f f ⟨rfl, hf⟩
  have hnames : ∀ f f', K f f' → t'.store.frames.names f' = t.store.frames.names f := fun f f' hf =>
    hl.mates.frames.names f f' (.inl hf)
  refine ⟨hl.mates.output, hl.mates.depth, ?_, fun f hf => hnames f f (hold f hf), fun f hf => ?_, hl.mates.heap.objects, K,
    hold, hnames, ?_⟩
  · exact (congrArg Context.current hl.context').trans (congrArg Context.current hl.context).symm
  · exact (hl.later'.outer f hf).trans (hl.later.outer f hf).symm
  · exact hl.mates.heap.mono (fun _ _ hk => hk.faces) fun _ _ hk => hk.faces

end Counting

/-- A counting loop in a program that was read, whose body declares no function and no class. Without the copies the
program is accepted just as it is with them, whatever names are global. The name of the carrier stands nowhere in the
clauses of the loop, and in its body only for the carriers of loops inside. And on whatever machine the loop begins while
its unit runs, or one after it, what the user wrote refers to the same declarations in both loops, and however one of
them ends, so does the other, with the same effects. The loop without copies has node ids of its own there. -/
theorem copies_invisible {s : Session} (hs : s.Reachable) {source : String} {p : Sketch} {ℓ : VarLoop} {id : NodeId}
    (hread : (s.read source).result = .ok (p.fill (ℓ.copying id))) (hfree : ℓ.body.Closureless) :
    (∀ globals n, (resolve globals (p.fill (ℓ.plain.shift n))).isOk = (resolve globals (p.fill (ℓ.copying id))).isOk) ∧
    (ℓ.test.Lacks (carrier ℓ.name).lexeme ∧ (∀ e ∈ ℓ.increment, e.Lacks (carrier ℓ.name).lexeme) ∧
      ℓ.body.Neat (carrier ℓ.name).lexeme) ∧
    ∀ B c n k, s.VisitsSince source B c k → c.limit ≤ n → ∃ B', resolve s.globals (p.fill (ℓ.plain.shift n)) = .ok B' ∧
      (∃ S : Setting, S.left = k.machine.bindings ∧ S.right = (k.machine.addBindings B').bindings ∧ ℓ.Aligned S n) ∧
        Coincide (fun _ => SameEffects k.machine) (SameEffects k.machine) (exec · (ℓ.copying id)) k.machine
          (exec · (ℓ.plain.shift n)) (k.machine.addBindings B') := by
  have hholds := p.holds_of_read rfl hread hfree
  obtain ⟨htest, hincrement, hneat, -⟩ := VarLoop.neat_parts (Sketch.neat_fill (Parsed.neat_of_program hread ℓ.name))
  refine ⟨fun globals n => hholds.accepted n globals, ⟨htest, hincrement, hneat⟩, fun B c n k hk hn => ?_⟩
  obtain ⟨hle, ⟨l, hfits⟩, hbeyond⟩ := hk.stands hs
  obtain ⟨statements, haccepted⟩ := hk.accepted
  obtain ⟨hstatements, hB⟩ := Session.read_of_accepted haccepted
  obtain rfl := Except.ok.inj (hstatements.symm.trans hread)
  obtain ⟨B', hB'⟩ : ∃ B', resolve s.globals (p.fill (ℓ.plain.shift n)) = .ok B' := by
    have hok := hholds.accepted n s.globals
    rw [hB] at hok
    cases h : resolve s.globals (p.fill (ℓ.plain.shift n)) with
    | ok B' => exact ⟨B', rfl⟩
    | error => rw [h] at hok; cases hok
  -- For the node ids of the unit the machine has the entries of this unit and no older ones.
  have hunit : ∀ i, s.nextId ≤ i → i < (s.read source).nextId → k.machine.bindings[i]? = B[i]? := by
    intro i hlo hhi
    rw [← hfits.sound.bindings, hle.bindings i hhi]
    refine (Session.bindings_ready s B i).trans ?_
    rw [hs.sound.ahead i hlo, Option.or_none]
  have htwins : p.Twins ℓ id s.globals s.nextId (s.read source).nextId n B B' k.machine.bindings := by
    refine ⟨hholds, hle.limit.trans hn, hB, hB', hunit, fun i hi => ?_⟩
    rw [← hfits.sound.bindings]
    exact hbeyond i (hn.trans hi)
  refine ⟨B', hB', ⟨htwins.setting, rfl, rfl, htwins.aligned⟩, ?_⟩
  -- At first each frame is its own partner.
  have hmates : Mates htwins.setting nobody (itself k.machine.store.frames) k.machine (k.machine.addBindings B') :=
    mates_itself hfits.sound rfl hn
  have hcurrent : k.machine.current < k.machine.store.frames.size := hfits.stands.linked.lt hfits.sound.store.within
  have hgives : ℓ.body.gives = [] := by
    have hplain : ℓ.plain.Tidy := ℓ.tidy_plain (p.tidy_fill hholds.made.tidy rfl).1 hholds.declares
    rw [(VarLoop.tidy_body hplain).gives, hholds.declares]
  have hboth := coincide_lowerings hmates (faces_itself hfits.sound.store.closed hcurrent) htwins.wired htwins.aligned hgives
  exact hboth.weaken (fun _ _ _ => sameEffects_of_led) fun _ _ => sameEffects_of_led

/-- The unit is a block in which a counting loop that copies its variable stands between two statements, the first of
which ends. -/
def Session.copiesBehindFirst (s : Session) (source : String) : Bool :=
  match s.accepted? source with
  | some ([.block [first, .block [.var x _, .loop _ (.block [.block [.var c none,
      .block [.var x₁ (some (.read i₀ x₂)), .block [.branch _ (.expression _) none, .print _],
        .expression (.assign i₁ c₁ (.read i₂ x₃))], .expression (.assign i₃ x₄ (.read i₄ c₂))],
      .expression _])], _]], bindings) =>
    [c, c₁, c₂] == [carrier x, carrier x, carrier x] && [x₁, x₂, x₃, x₄] == [x, x, x, x] &&
      [i₁, i₂, i₃, i₄] == [i₀ + 1, i₀ + 1 + 1, i₀ + 3, i₀ + 3 + 1] &&
      match exec 7 first ((s.ready bindings).enter (s.ready bindings).current ∅) with
      | .ok .normal _ => true
      | _ => false
  | _ => false

/-- A loop in a block with another variable of the same name, whose body assigns the variable. -/
theorem copies_invisible_shadowing :
    let s := Session.start false ⟨0⟩ .unlimited .unlimited
    let source := "{ var i = 7; for (var i = 0; i < 5; i = i + 1) { if (i == 3) i = 4; print i; } print i; }"
    ∃ p ℓ id B B' c n k, (s.read source).result = .ok (Sketch.fill p (VarLoop.copying ℓ id)) ∧ ℓ.body.Closureless ∧
      s.VisitsSince source B c k ∧ k.code = .stmt (ℓ.copying id) ∧ c.limit ≤ n ∧
        resolve s.globals (p.fill (ℓ.plain.shift n)) = .ok B' ∧
          Coincide (fun _ => SameEffects k.machine) (SameEffects k.machine) (exec · (ℓ.copying id)) k.machine
            (exec · (ℓ.plain.shift n)) (k.machine.addBindings B') := by
  intro s source
  have hs : s.Reachable := .start false ⟨0⟩ .unlimited .unlimited
  have hrun : s.copiesBehindFirst source = true := by decide +kernel
  have hprompt : s.machine.prompt = false := rfl
  clear_value s source
  unfold Session.copiesBehindFirst at hrun
  split at hrun
  · rename_i first x initial test c x₁ i₀ x₂ condition e e' i₁ c₁ i₂ x₃ i₃ x₄ i₄ c₂ increment last B ha
    simp only [Bool.and_eq_true, beq_iff_eq, List.cons.injEq, and_true] at hrun
    obtain ⟨⟨⟨⟨rfl, rfl, rfl⟩, rfl, rfl, rfl, rfl⟩, rfl, rfl, rfl, rfl⟩, hfirst⟩ := hrun
    split at hfirst
    · rename_i m hexec
      let ℓ : VarLoop := ⟨x₄, initial, some test, some increment, .block [.branch condition (.expression e) none, .print e']⟩
      have hread : (s.read source).result = .ok (Sketch.fill ⟨[], .block [first] .here [last], []⟩ (ℓ.copying i₀)) :=
        (Session.read_of_accepted ha).1
      have hk : s.VisitsSince source B (s.chartOf false source B) ⟨7, .stmt (ℓ.copying i₀), m⟩ :=
        .now ha (.head (.performed fun _ _ => hprompt) (.head .block (.head (.rest hexec) (.single .statement))))
      obtain ⟨B', hB', -, hboth⟩ := (copies_invisible hs hread ⟨⟨trivial, trivial⟩, trivial, trivial⟩).2.2 B _ _ _ hk le_rfl
      exact ⟨_, ℓ, i₀, B, B', _, _, _, hread, ⟨⟨trivial, trivial⟩, trivial, trivial⟩, hk, rfl, le_rfl, hB', hboth⟩
    · cases hfirst
  · cases hrun

end LoxLang
