import LoxLang.Proofs.Captures.Closures
import LoxLang.Proofs.Chains.Rooted
import LoxLang.Proofs.Domain.Sessions
import LoxLang.Proofs.Nodes.History
import LoxLang.Proofs.Values.Moments

/-! The links of frames and classes whenever code begins to run and whenever it leaves off, in every unit and every lone
expression of every session. Wherever a new frame is put, it is inside the current frame or inside one that a function
keeps, and both are there already. -/

namespace LoxLang

open Frames Run

namespace Store.Rooted

variable {globals f g : FrameId} {may : FrameId → String → Prop} {s t : Store}

/-- The frames inside which new ones are put are there. -/
theorem near (h : s.Rooted globals) (hf : f < s.frames.size) (hg : s.Near f g) : g < s.frames.size := by
  cases hg with
  | here => exact hf
  | function hk => exact h.closures _ hk
  | method hk => exact h.method hk
  | newest hg => exact Nat.lt_of_succ_le hg.le

theorem change (h : s.Rooted globals) (hf : f < s.frames.size) (hst : s.Change f may t) : t.Rooted globals := by
  cases hst with
  | adds hst =>
    cases hst with
    | frame names ho => exact h.addFrame (h.near hf ho) names
    | object => exact h.addObject _
  | write _ v => exact h.define _ _ v
  | function => exact h.addClosure hf
  | method o hk => exact (h.bind (h.method hk) o).addClosure (s.home_bind _ o)
  | cls hd => exact h.addClass fun x k hk => h.near hf (hd x k hk)
  | field => exact h.setField _ _ _

theorem changes (h : s.Rooted globals) (hf : f < s.frames.size) (hst : s.Changes f may t) : t.Rooted globals := by
  induction hst with
  | refl => exact h
  | tail hchanges hchange ih => exact ih.change (hf.trans_le (Store.Changes.later hchanges).size) hchange

theorem additions (h : s.Rooted globals) (hf : f < s.frames.size) (hst : s.Additions f t) : t.Rooted globals := by
  have hchanges : s.Changes f (fun _ _ => False) t := Store.Additions.changes hst
  exact h.changes hf hchanges

end Store.Rooted

/-- Frames and superclasses are older than what is linked to them. -/
structure Machine.Anchored (m : Machine) : Prop where
  rooted : m.Rooted
  whole : m.store.Whole

theorem Machine.Anchored.founded {m : Machine} (h : m.Anchored) : m.Founded := h.rooted.founded h.whole

namespace Moment

variable {k k' p : Moment} {ps : List Moment} {s : Store}

/-- Code begins in the frame of the code that it is part of, or in a new one. -/
theorem near_of_starts (h : k.Starts p) : p.machine.store.Near k.machine.current p.machine.current := by
  rcases current_of_starts h with ⟨_, _, _, _, _, -, hcalled, rfl⟩ | hcurrent | ⟨hp, -⟩
  · obtain ⟨κ, m, -, -, rfl⟩ := Machine.called?_eq_some.mp hcalled
    exact .newest (size_add ..).symm
  · exact hcurrent ▸ .here
  · rw [hp]
    exact .newest (size_add ..).symm

/-- The links are kept from part to part, if each part keeps them. -/
theorem Course.rooted (h : k.Course s ps) (hs : s.Rooted k.machine.globals) (hcurrent : k.machine.current < s.frames.size)
    (hps : ∀ p ∈ ps, k.Starts p ∧ (p.machine.Rooted → p.after.Rooted)) :
    (∀ p ∈ ps, p.machine.Rooted) ∧ k.after.Rooted := by
  induction h with
  | done hchanges _ =>
    have hstore := hs.changes hcurrent hchanges
    have hlt := hcurrent.trans_le (Store.Changes.later hchanges).size
    have hglobals : k.after.globals = k.machine.globals := congrArg Context.globals k.context_after
    have hstays : k.after.current = k.machine.current := congrArg Context.current k.context_after
    refine ⟨nofun, ?_, ?_⟩
    · rwa [hglobals]
    · rwa [hstays]
  | @part s p ps hadditions _ ih =>
    obtain ⟨⟨hstarts, hafter⟩, hrest⟩ := List.forall_mem_cons.mp hps
    have hglobals := (fixed_of_starts hstarts).1
    have hstore := hs.additions hcurrent hadditions
    have hlt := hcurrent.trans_le (Store.Additions.kept hadditions).size
    have hp : p.machine.Rooted := ⟨hglobals ▸ hstore, hstore.near hlt (near_of_starts hstarts)⟩
    have hbehind : p.after.globals = k.machine.globals := (congrArg Context.globals p.context_after).trans hglobals
    obtain ⟨hparts, hk⟩ := ih (hbehind ▸ (hafter hp).store) (hlt.trans_le p.later_after.size) hrest
    exact ⟨List.forall_mem_cons.mpr ⟨hp, hparts⟩, hk⟩

theorem rooted_parts (hk : k.machine.Rooted) (hps : ∀ p ∈ k.parts, p.machine.Rooted → p.after.Rooted) :
    (∀ p ∈ k.parts, p.machine.Rooted) ∧ k.after.Rooted :=
  k.course.rooted hk.store hk.current fun p hp => ⟨mem_parts_iff.mp hp, hps p hp⟩

theorem rooted_after (k : Moment) : k.machine.Rooted → k.after.Rooted := by
  induction k using parts_induction with
  | hparts k ih => exact fun hk => (rooted_parts hk ih).2

theorem rooted_of_visits (h : k.Visits k') (hk : k.machine.Rooted) : k'.machine.Rooted := by
  induction h with
  | refl => exact hk
  | tail _ hstep ih => exact (rooted_parts ih fun p _ => p.rooted_after).1 _ (mem_parts_iff.mpr hstep)

theorem anchored_of_visits (h : k.Visits k') (hk : k.machine.Anchored) : k'.machine.Anchored :=
  ⟨rooted_of_visits h hk.rooted, whole_of_visits h hk.whole⟩

theorem anchored_after (hk : k.machine.Anchored) : k.after.Anchored := ⟨k.rooted_after hk.rooted, whole_after hk.whole⟩

end Moment

namespace Session

variable {s : Session} {n : Nat} {source : String}

theorem anchored_start (prompt : Bool) (now : Number) (output diagnostics : Sink) :
    (start prompt now output diagnostics).machine.Anchored where
  rooted := by
    have hframes : (start prompt now output diagnostics).machine.store.frames =
      (Frames.empty.add none ∅).define 0 "clock" (.native 0) := rfl
    have hsize : (start prompt now output diagnostics).machine.store.frames.size = 1 := rfl
    refine ⟨⟨?_, hsize ▸ Nat.zero_lt_one, fun f hf hne => ?_, nofun, nofun⟩, hsize ▸ Nat.zero_lt_one⟩
    · rw [hframes, outer?_define]
      rfl
    · rw [hsize] at hf
      exact absurd (Nat.lt_one_iff.mp hf) hne
  whole := whole_start _ _ _ _

/-- What is known of distances is no affair of the store. -/
theorem anchored_ready (h : s.machine.Anchored) (known : Bindings) : (s.ready known).Anchored :=
  ⟨⟨h.rooted.store, h.rooted.current⟩, h.whole⟩

theorem anchored_run (h : s.machine.Anchored) (n : Nat) (source : String) : (s.run n source).2.machine.Anchored := by
  cases ha : s.accepted? source with
  | none =>
    obtain ⟨sink, hs⟩ := run_of_refused ha n
    rw [hs]
    exact h
  | some unit =>
    rw [(run_conclude ha n).2]
    exact Moment.anchored_after (k := ⟨n, .unit unit.1, s.ready unit.2⟩) (anchored_ready h unit.2)

theorem anchored_value (h : s.machine.Anchored) (n : Nat) (source : String) : (s.value n source).2.machine.Anchored := by
  cases hread : (Parsed.ofSource Parsed.expression source s.nextId).result with
  | error faults =>
    simp only [value, hread]
    exact h
  | ok e =>
    have hafter : (s.value n source).2.machine = (eval n e).after s.machine := by
      simp only [value, hread, Halting.after]
      cases eval n e s.machine <;> rfl
    rw [hafter]
    exact Moment.anchored_after (k := ⟨n, .expr none e, s.machine⟩) h

theorem Reads.anchored {s₀ : Session} {trees : List Tree} (h : s₀.Reads trees s) (h₀ : s₀.machine.Anchored) :
    s.machine.Anchored := by
  induction h with
  | refl => exact h₀
  | run n source _ ih => exact anchored_run ih n source
  | value n source _ ih => exact anchored_value ih n source
  | takeWritten _ ih => exact ⟨⟨ih.rooted.store, ih.rooted.current⟩, ih.whole⟩

theorem anchored_of_meets (h : s.machine.Anchored) {k : Moment} (hk : s.Meets n source k) : k.machine.Anchored := by
  cases hk with
  | unit hk =>
    obtain ⟨unit, -, hvisits⟩ := hk
    exact Moment.anchored_of_visits hvisits (anchored_ready h unit.2)
  | value _ hvisits => exact Moment.anchored_of_visits hvisits h

end Session

/-- At every moment of every session, with units and lone expressions in any order: the links of frames and those of classes
are well founded. The frames that the machine, the functions, the bound methods and the methods of classes keep are there,
and those in which callers wait are there until the calls end. From every frame that is there, the links lead to the
global frame, which alone has none; a frame some steps outward is there for as many steps as the chain has links, and no
more; and the search for a name ends, with the value that is read or the frame that is overwritten. The links of every
class end at a class, and the search for a method ends with the method that is found. -/
theorem chains_well_founded {prompt : Bool} {now : Number} {output diagnostics : Sink} {trees : List Tree} {s : Session}
    (h : (Session.start prompt now output diagnostics).Reads trees s) :
    s.machine.Founded ∧ ∀ n source k, s.Meets n source k → k.machine.Founded ∧ k.after.Founded ∧
      ∀ k', k.Visits k' → k.machine.current < k'.machine.store.frames.size := by
  have hs := h.anchored (Session.anchored_start _ _ _ _)
  refine ⟨hs.founded, fun n source k hk => ?_⟩
  have hmoment := Session.anchored_of_meets hs hk
  refine ⟨hmoment.founded, (Moment.anchored_after hmoment).founded, fun k' hvisits => ?_⟩
  exact hmoment.rooted.current.trans_le (Moment.later_of_visits hvisits).1.size

/-- An inner function that outlives the call it was declared in, and a method of a superclass, bound to an instance. -/
theorem chains_well_founded_bound :
    let source := "function f() { function g() {} return g; } f(); class A { m() {} } class B < A {} B().m;"
    let s₀ := Session.start false ⟨0⟩ .unlimited .unlimited
    ∃ trees, s₀.Reads trees (s₀.run 9 source).2 ∧ ∃ m, m = (s₀.run 9 source).2.machine ∧ m.Founded ∧
      m.store.closures.toList.map (fun k => m.store.frames.chain k.home) = [[0], [1, 0], [3, 0]] ∧
      [1, 0].map m.store.superclass? = [some 0, none] := by
  intro source s₀
  have hreads : s₀.Reads ([] ++ s₀.units source) (s₀.run 9 source).2 := .run 9 source .refl
  have hfounded := (chains_well_founded hreads).1
  have hchains : (fun m : Machine => (m.store.closures.toList.map (fun k => m.store.frames.chain k.home),
      [1, 0].map m.store.superclass?)) (s₀.run 9 source).2.machine = ([[0], [1, 0], [3, 0]], [some 0, none]) := by
    decide +kernel
  obtain ⟨hframes, hclasses⟩ := Prod.mk.inj hchains
  exact ⟨_, hreads, _, rfl, hfounded, hframes, hclasses⟩

end LoxLang
