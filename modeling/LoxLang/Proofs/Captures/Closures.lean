import LoxLang.Proofs.Captures.Order
import LoxLang.Proofs.Scoping.Agreement

/-! Who can write to a frame once the code that made it has ended. A name is looked up in the frames around the current
one, and these are around the frame in which a run began or around the one in which a function was declared that was
called. So only a closure that captured the frame can write there. -/

namespace LoxLang

open Frames Run

namespace Frames

/-- The frame is the other one or around it. -/
def Around (fs : Frames) (f g : FrameId) : Prop := ∃ d, fs.ancestor? g d = some f

variable {fs gs : Frames} {f g : FrameId}

theorem around_self (fs : Frames) (f : FrameId) : fs.Around f f := ⟨0, rfl⟩

theorem Around.lt (h : fs.Around f g) (hc : Closed fs) (hg : g < fs.size) : f < fs.size := by
  obtain ⟨d, hd⟩ := h
  exact lt_of_ancestor hc hg hd

theorem around_later (hc : Closed fs) (hl : Later fs gs) (hg : g < fs.size) : gs.Around f g ↔ fs.Around f g := by
  unfold Around
  simp only [ancestor?_later hc hl hg]

/-- Around a new frame are those around the one it is in. -/
theorem Around.of_add (hc : Closed fs) (hg : g < fs.size) {names : Names} (h : (fs.add (some g) names).Around f fs.size) :
    f = fs.size ∨ fs.Around f g := by
  obtain ⟨d, hd⟩ := h
  cases d with
  | zero => exact .inl (Option.some.inj hd).symm
  | succ d => exact .inr ⟨d, ancestor?_add_succ hc hg names d ▸ hd⟩

theorem Around.of_root (hroot : fs.outer? g = none) (h : fs.Around f g) : f = g := by
  obtain ⟨d, hd⟩ := h
  cases d with
  | zero => exact (Option.some.inj hd).symm
  | succ d =>
    rw [ancestor?, hroot] at hd
    cases hd

end Frames

theorem Frames.holder_of_root {fs : Frames} {f g : FrameId} {x : String} (hroot : fs.outer? g = none)
    (h : fs.holder? g x = some f) : f = g := by
  have hchain : fs.chain g = [g] := by rw [chain, chain.walk, hroot]
  unfold holder? at h
  rw [hchain] at h
  exact List.mem_singleton.mp (List.mem_of_find?_eq_some h)

theorem Linked.around {fs : Frames} {globals f : FrameId} {l : Layout} (h : Linked fs globals f l) :
    fs.Around globals f := by
  induction h with
  | top => exact around_self fs _
  | inner houter _ _ ih =>
    obtain ⟨d, hd⟩ := ih
    refine ⟨d + 1, ?_⟩
    rw [ancestor?, houter]
    exact hd

/-- The function whose body a call of the value runs. -/
def Store.invoked? (s : Store) : Value → Option (Closure FrameId)
  | .function id => s.closures[id]?
  | .cls id => s.initializer? id
  | _ => none

namespace Moment

/-- A call expression begins to run the body of a function whose declaration stood in the frame or inside it. -/
inductive CallsCaptor (f : FrameId) (k : Moment) : Moment → Prop
  | mk {callee : Value} {values : List Value} {m m' : Machine} {κ : Closure FrameId} {body : List Stmt} :
    k.Enters callee values m → m.store.invoked? callee = some κ → m.store.frames.Around f κ.home →
      m.called? values callee = some (body, m') → CallsCaptor f k ⟨k.bound - 1, .body body, m'⟩

/-- While the first code runs, a function that captured the frame is called, and runs the other code: it is in the body
of the function, and in no other that the function calls. -/
def ByCaptor (start : Moment) (f : FrameId) (k : Moment) : Prop :=
  ∃ call body, start.Visits call ∧ CallsCaptor f call body ∧ body.Active [] k

variable {c : Chart} {l : Layout} {start k p : Moment} {calls : List Moment} {f : FrameId} {x : String}

theorem Fits.closed (h : k.Fits c l) : Closed k.machine.store.frames := h.sound.store.closed

theorem Fits.within (h : k.Fits c l) : k.machine.current < k.machine.store.frames.size :=
  h.stands.linked.lt h.sound.store.within

/-- Code that is not called begins in the frame of the code around it, or in a new frame inside that one. -/
theorem current_of_starts (h : k.Starts p) : k.Calls p ∨ p.machine.current = k.machine.current ∨
    p.machine = k.machine.enter k.machine.current ∅ ∧ k.parts = [p] := by
  cases h with
  | first | argument | value | statement | shown | performed => exact .inr (.inl rfl)
  | second _ e | arguments e | others e | chosen _ e => exact .inr (.inl (current_of_ok (steady_eval _ _) e))
  | call e₁ e₂ e₃ hcalled =>
    obtain ⟨rfl, -⟩ := arity_of_admitCall e₃
    exact .inl ⟨_, _, _, _, _, ⟨_, _, .mk e₁ e₂, e₃, rfl⟩, hcalled, rfl⟩
  | again e _ e' =>
    exact .inr (.inl ((current_of_ok (steady_exec _ _) e').trans (current_of_ok (steady_eval _ _) e)))
  | block => exact .inr (.inr ⟨rfl, rfl⟩)
  | rest e => exact .inr (.inl (current_of_ok (steady_exec _ _) e))
  | next e => exact .inr (.inl (current_of_ok (steady_perform _ _) e))

/-- Older frames around code that is not called are around the code that leads to it. -/
theorem around_of_starts (hk : k.Fits c l) (h : k.Starts p) (hcalls : ¬ k.Calls p) (hf : f < k.machine.store.frames.size)
    (ha : p.machine.store.frames.Around f p.machine.current) : k.machine.store.frames.Around f k.machine.current := by
  rcases (current_of_starts h).resolve_left hcalls with hcurrent | ⟨hp, -⟩
  · rw [hcurrent, around_later hk.closed (later_of_starts h).1 hk.within] at ha
    exact ha
  · rw [hp] at ha
    exact (ha.of_add hk.closed hk.within).resolve_left hf.ne

/-- Inside one call, older frames around code are around the body of the call. -/
theorem around_of_active (hstart : start.Fits c l) (h : start.Active [] k) (hf : f < start.machine.store.frames.size)
    (ha : k.machine.store.frames.Around f k.machine.current) :
    start.machine.store.frames.Around f start.machine.current := by
  generalize hcalls : ([] : List Moment) = calls at h
  induction h with
  | start => exact ha
  | @part calls k p hactive hstep hcall ih =>
    obtain ⟨l', hk⟩ := fits_of_visits hactive.visits hstart
    have hfk := hf.trans_le (later_of_visits hactive.visits).1.size
    exact ih (around_of_starts hk hstep hcall hfk ha) hcalls
  | call => cases hcalls

/-- The innermost call around code. -/
theorem Active.innermost {call : Moment} (h : start.Active (call :: calls) k) :
    start.Visits call ∧ ∃ body, call.Calls body ∧ body.Active [] k := by
  generalize hcalls : call :: calls = calls' at h
  induction h generalizing calls with
  | start => cases hcalls
  | part _ hstep hcall ih =>
    obtain ⟨hvisits, body, hbody, hactive⟩ := ih hcalls
    exact ⟨hvisits, body, hbody, .part hactive hstep hcall⟩
  | call hactive hcall =>
    cases hcalls
    exact ⟨hactive.visits, _, hcall, .start⟩

section Entries

variable {paren : Token} {callee : Value} {values : List Value} {m m' : Machine} {body : List Stmt}

theorem Prepares.later (h : k.Prepares paren callee values m) : Later k.machine.store.frames m.store.frames := by
  obtain @⟨n, d, callee, paren, es, f, values, m, m₁, m₂, e₁, e₂⟩ := h
  have hcallee : Later m.store.frames ((eval n callee).after m).store.frames := later_after ⟨n, .expr d callee, m⟩
  have harguments : Later m₁.store.frames ((each (eval n) es).after m₁).store.frames :=
    later_after ⟨n, .arguments d es, m₁⟩
  rw [Halting.after_of_ok e₁] at hcallee
  rw [Halting.after_of_ok e₂] at harguments
  exact hcallee.trans harguments

theorem Prepares.sound (h : k.Prepares paren callee values m) (hk : k.Fits c l) : m.Sound c := by
  obtain ⟨hm, ha, hcode⟩ := hk
  obtain ⟨e₁, e₂⟩ := h
  have h₁ := (keeps_eval _ hm ha (fits_part hcode (uses_first rfl)).2).of_ok e₁
  exact ((keeps_each (keeps_eval _) _ h₁.sound (h₁.at_same hm ha) (fits_arguments hcode).2).of_ok e₂).sound

theorem Enters.later (h : k.Enters callee values m) : Later k.machine.store.frames m.store.frames := by
  obtain ⟨paren, m', hprepared, -, rfl⟩ := h
  exact hprepared.later

theorem Enters.sound (h : k.Enters callee values m) (hk : k.Fits c l) : m.Sound c := by
  obtain ⟨paren, m', hprepared, -, rfl⟩ := h
  exact (hprepared.sound hk).deeper _

/-- A call whose body stands inside an older frame is one of a function that captured it. -/
theorem callsCaptor_of_around (henters : k.Enters callee values m) (hm : m.Sound c)
    (hcalled : m.called? values callee = some (body, m')) (hf : f < m.store.frames.size)
    (ha : m'.store.frames.Around f m'.current) : CallsCaptor f k ⟨k.bound - 1, .body body, m'⟩ := by
  have hc := hm.store.closed
  cases callee with
  | function id =>
    obtain ⟨κ, hκ, h⟩ := Option.map_eq_some_iff.mp hcalled
    obtain ⟨l, hlinked, -⟩ := hm.store.closures κ (Array.mem_of_getElem? hκ)
    refine .mk henters hκ ?_ hcalled
    cases h
    exact (ha.of_add hc (hlinked.lt hm.store.within)).resolve_left hf.ne
  | cls id =>
    obtain ⟨κ, hκ, h⟩ := Option.map_eq_some_iff.mp hcalled
    have hinitializer : m.store.initializer? id = some κ := m.store.initializer?_addObject id id ▸ hκ
    obtain ⟨d, hd, hx⟩ := Heap.mem_of_method? hinitializer
    obtain ⟨l, hlinked, -⟩ := hm.store.methods d hd _ κ hx
    have hhome := hlinked.lt hm.store.within
    refine .mk henters hinitializer ?_ hcalled
    cases h
    have hsize := size_add m.store.frames (some κ.home) ((∅ : Names).insert "this" (.object m.store.objects.size))
    have hnew : m.store.frames.size < (m.store.frames.add (some κ.home)
      ((∅ : Names).insert "this" (.object m.store.objects.size))).size := hsize ▸ Nat.lt_succ_self _
    have houter := (ha.of_add (hc.add hhome _) hnew).resolve_left (hf.trans hnew).ne
    exact (houter.of_add hc hhome).resolve_left hf.ne
  | nil | bool | number | string | native | object => cases hcalled

end Entries

/-- What runs inside an older frame is run by a function that captured it, or in the activation in which the run began,
and then the frame is around that. -/
theorem byCaptor_or_around (hstart : start.Fits c l) (h : start.Visits k) (hf : f < start.machine.store.frames.size)
    (ha : k.machine.store.frames.Around f k.machine.current) :
    start.ByCaptor f k ∨ start.Active [] k ∧ start.machine.store.frames.Around f start.machine.current := by
  obtain ⟨calls, hactive⟩ := exists_active h
  cases calls with
  | nil => exact .inr ⟨hactive, around_of_active hstart hactive hf ha⟩
  | cons call calls =>
    obtain ⟨hvisits, entry, hcall, hinside⟩ := hactive.innermost
    obtain ⟨lc, hfits⟩ := fits_of_visits hvisits hstart
    obtain ⟨le, hentry⟩ := fits_of_starts hcall.starts hfits
    obtain ⟨callee, values, m, body, m', henters, hcalled, rfl⟩ := hcall
    have hfm := (hf.trans_le (later_of_visits hvisits).1.size).trans_le henters.later.size
    have hfe := hfm.trans_le (Store.Additions.kept (additions_called hcalled)).size
    have hbody := around_of_active hentry hinside hfe ha
    exact .inl ⟨call, _, hvisits, callsCaptor_of_around henters (henters.sound hfits) hcalled hfm hbody, hinside⟩

/-- What code writes is in a frame around it. -/
theorem around_of_writes (hk : k.Fits c l) (h : k.Writes f x) : k.machine.store.frames.Around f k.machine.current := by
  cases h with
  | @assigns n d id name e v m m' f heval htarget =>
    have hsteady := (steady_eval n e).of_ok heval
    have hlater : Later m.store.frames ((eval n e).after m).store.frames := later_after ⟨n, .expr d e, m⟩
    rw [Halting.after_of_ok heval] at hlater
    simp only [Machine.context, Context.mk.injEq] at hsteady
    obtain ⟨hglobals, hcurrent, -⟩ := hsteady
    unfold Machine.target? at htarget
    split at htarget
    · rw [hcurrent] at htarget
      exact (around_later hk.closed hlater hk.within).mp ⟨_, htarget⟩
    · rw [hglobals] at htarget
      have hroot := (hlater.outer _ hk.sound.store.within).trans hk.sound.store.root
      obtain rfl := holder_of_root hroot htarget
      exact hk.stands.linked.around
  | declares => exact around_self _ _

/-- Code outside a frame writes there only by way of functions that captured it. -/
theorem byCaptor_of_outside (hstart : start.Fits c l) (hf : f < start.machine.store.frames.size)
    (houtside : ¬ start.machine.store.frames.Around f start.machine.current) (h : start.Visits k) (hk : k.Writes f x) :
    start.ByCaptor f k := by
  obtain ⟨l', hfits⟩ := fits_of_visits h hstart
  exact (byCaptor_or_around hstart h hf (around_of_writes hfits hk)).resolve_right fun hactive => houtside hactive.2

/-- Where one piece of code begins, the frames that a piece before it made are around it only if it is the body of a
function that captured them, called by given code. -/
def Secluded (calls : Moment → Prop) (ps : List Moment) : Prop := ∀ front back, ps = front ++ back → ∀ p ∈ front,
  ∀ q ∈ back, ∀ f, p.machine.store.frames.size ≤ f → f < p.after.store.frames.size →
    q.machine.store.frames.Around f q.machine.current → ∃ call, calls call ∧ CallsCaptor f call q

/-- The pieces of a call: the callee, the arguments and the body. -/
theorem parts_of_enters {callee : Value} {values : List Value} {m m' : Machine} {body : List Stmt}
    (henters : k.Enters callee values m) (hcalled : m.called? values callee = some (body, m')) :
    ∃ a b, k.parts = [a, b, ⟨k.bound - 1, .body body, m'⟩] ∧ Later a.after.store.frames m.store.frames ∧
      Later b.after.store.frames m.store.frames := by
  obtain ⟨paren, m₂, ⟨e₁, e₂⟩, hadmit, rfl⟩ := henters
  rename_i n d callee' es m₀ m₁
  have hcallee : after ⟨n, .expr d callee', m₀⟩ = m₁ := Halting.after_of_ok e₁
  have harguments : after ⟨n, .arguments d es, m₁⟩ = m₂ := Halting.after_of_ok e₂
  have hlater := later_after ⟨n, .arguments d es, m₁⟩
  rw [harguments] at hlater
  refine ⟨⟨n, .expr d callee', m₀⟩, ⟨n, .arguments d es, m₁⟩, ?_, ?_, ?_⟩
  · change operands n d m₀ (.call callee' paren es) = _
    rw [operands_of_first rfl, Halting.upon_of_ok e₁, partsBehind, Halting.upon_of_ok e₂, Halting.upon_of_ok hadmit, hcalled]
    rfl
  · rw [hcallee]
    exact hlater
  · rw [harguments]
    exact .refl _

/-- Parts of code are secluded from what its earlier parts made. -/
theorem secluded_parts (hk : k.Fits c l) : Secluded (· = k) k.parts := by
  intro front back hparts p hp q hq f hf hfp ha
  have hmem : ∀ r ∈ front ++ back, k.Starts r := fun r hr => mem_parts_iff.mp (hparts ▸ hr)
  have hstarts := hmem q (List.mem_append_right _ hq)
  have hold := (later_of_starts (hmem p (List.mem_append_left _ hp))).1.size.trans hf
  by_cases hcalls : k.Calls q
  · obtain ⟨callee, values, m, body, m', henters, hcalled, rfl⟩ := hcalls
    obtain ⟨a, b, hlist, hla, hlb⟩ := parts_of_enters henters hcalled
    have hfm : f < m.store.frames.size := by
      have hpab : p ∈ [a, b] := by
        have hlast : [a, b] = front ++ back.dropLast := by
          rw [← List.dropLast_append_of_ne_nil (List.ne_nil_of_mem hq), ← hparts, hlist]
          rfl
        exact hlast ▸ List.mem_append_left _ hp
      rcases List.mem_pair.mp hpab with rfl | rfl
      · exact hfp.trans_le hla.size
      · exact hfp.trans_le hlb.size
    exact ⟨k, rfl, callsCaptor_of_around henters (henters.sound hk) hcalled hfm ha⟩
  · rcases (current_of_starts hstarts).resolve_left hcalls with hcurrent | ⟨-, hlone⟩
    · rw [hcurrent, around_later hk.closed (later_of_starts hstarts).1 hk.within] at ha
      exact absurd (ha.lt hk.closed hk.within) hold.not_gt
    · have hlength := congrArg List.length (hparts.symm.trans hlone)
      rw [List.length_append, List.length_singleton] at hlength
      have hfront := List.length_pos_of_mem hp
      have hback := List.length_pos_of_mem hq
      omega

/-- What is written behind some code in a frame that the code made is written by a function that captured the frame. -/
theorem Before.byCaptor {calls : Moment → Prop} {ps : List Moment} {i w : Moment} {m u : Machine} (h : Before ps i w)
    (htrail : Trail m ps u) (hps : Secluded calls ps) (hfits : ∀ r ∈ ps, ∃ c l, r.Fits c l)
    (hf : i.machine.store.frames.size ≤ f) (hfi : f < i.after.store.frames.size) (hw : w.Writes f x) :
    ∃ call body, (calls call ∨ ∃ r ∈ ps, r.Visits call) ∧ CallsCaptor f call body ∧ body.Active [] w := by
  induction h generalizing calls m u with
  | @apart front back p q i w hp hi hq hqw =>
    obtain ⟨c, l, hqf⟩ := hfits q (List.mem_append_right _ hq)
    obtain ⟨l', hwf⟩ := fits_of_visits hqw hqf
    have hpi := later_of_visits hi
    have hfp := hfi.trans_le hpi.2.size
    have hfq := hfp.trans_le (htrail.later_between hp hq).size
    rcases byCaptor_or_around hqf hqw hfq (around_of_writes hwf hw) with ⟨call, body, hcall, hbody⟩ | ⟨hactive, ha⟩
    · exact ⟨call, body, .inr ⟨q, List.mem_append_right _ hq, hcall⟩, hbody⟩
    · obtain ⟨call, hcalls, hcall⟩ := hps front back rfl p hp q hq f (hpi.1.size.trans hf) hfp ha
      exact ⟨call, q, .inl hcalls, hcall, hactive⟩
  | @inside ps r i w hr h ih =>
    obtain ⟨c, l, hrf⟩ := hfits r hr
    obtain ⟨u', htrail', -⟩ := r.traced
    have hparts : ∀ p ∈ r.parts, ∃ c l, p.Fits c l := fun p hp =>
      ⟨c, fits_of_starts (mem_parts_iff.mp hp) hrf⟩
    obtain ⟨call, body, hcall, hbody⟩ := ih htrail' (secluded_parts hrf) hparts hf hfi hw
    refine ⟨call, body, .inr ⟨r, hr, ?_⟩, hbody⟩
    rcases hcall with rfl | ⟨p, hp, hcall⟩
    · exact .refl
    · exact hcall.head (mem_parts_iff.mp hp)

end Moment

end LoxLang
