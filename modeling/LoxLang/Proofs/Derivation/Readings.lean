import LoxLang.Grammar.Program
import Mathlib

/-! Readings without a fault, from both sides. `Parses` tells of every such reading which tokens it took; `Takes`
tells of one cursor that such a reading takes place. Both compose along the steps of a reader. -/

namespace LoxLang

variable {α β : Type}

/-- Of a reading from this cursor that leaves no fault, the tokens taken, those left ahead and what was read are so
related, and the end mark stays in place. Faults stay, so there was none before either. -/
def ParsesAt (c : Cursor) (reader : Reader α) (P : List Token → List Token → α → Prop) : Prop :=
  ∀ a c', reader c = .ok a c' → c'.faults = [] →
    c.faults = [] ∧ (c.stop.kind = .eof → c'.stop = c.stop ∧ ∃ taken, c.rest = taken ++ c'.rest ∧ P taken c'.rest a)

def Parses (reader : Reader α) (P : List Token → List Token → α → Prop) : Prop := ∀ c, ParsesAt c reader P

/-- An item, and the others if a comma is behind it. -/
def Reader.itemAndOthers (what : String) (item : Reader α) (n count : Nat) : Reader (List α) := do
  let first ← item
  match ← accept .comma with
  | some _ => return first :: (← separated what item n (count + 1))
  | none => return [first]

theorem Reader.separated_succ (what : String) (item : Reader α) (n count : Nat) :
    separated what item (n + 1) count = (do
      if maxArity ≤ count then report (← get).peek (.tooMany what)
      itemAndOthers what item n count) := rfl

namespace Parses

open Reader

variable {P P' : List Token → List Token → α → Prop} {Q : List Token → List Token → β → Prop} {c : Cursor}

theorem done_at {a : α} (h : P [] c.rest a) : ParsesAt c (pure a) P := by
  rintro _ _ ⟨⟩ hf
  exact ⟨hf, fun _ => ⟨rfl, [], rfl, h⟩⟩

theorem done {a : α} (h : ∀ rest, P [] rest a) : Parses (pure a) P := fun c => done_at (h c.rest)

theorem stops (stop : Stop) : Parses (throw stop : Reader α) P := by
  rintro c _ _ ⟨⟩

theorem stops_expected (what : String) : Parses (expected what : Reader α) P := by
  rintro c _ _ ⟨⟩

theorem weaken {reader : Reader α} (h : Parses reader P) (hw : ∀ taken rest a, P taken rest a → P' taken rest a) :
    Parses reader P' := by
  intro c a c' e hf
  obtain ⟨hf, h⟩ := h c a c' e hf
  refine ⟨hf, fun hc => ?_⟩
  obtain ⟨hs, taken, ht, hP⟩ := h hc
  exact ⟨hs, taken, ht, hw _ _ _ hP⟩

theorem and {reader : Reader α} (h : Parses reader P) (h' : Parses reader P') :
    Parses reader fun taken rest a => P taken rest a ∧ P' taken rest a := by
  intro c a c' e hf
  refine ⟨(h c a c' e hf).1, fun hc => ?_⟩
  obtain ⟨hs, taken, ht, hP⟩ := (h c a c' e hf).2 hc
  obtain ⟨-, taken', ht', hP'⟩ := (h' c a c' e hf).2 hc
  obtain rfl := List.append_cancel_right (ht.symm.trans ht')
  exact ⟨hs, taken, ht, hP, hP'⟩

theorem bind {reader : Reader α} {next : α → Reader β} (h : Parses reader P)
    (hn : ∀ taken a, Parses (next a) fun more rest b => P taken (more ++ rest) a → Q (taken ++ more) rest b) :
    Parses (reader >>= next) Q := by
  intro c b c'' e hf
  simp only [Bind.bind, EStateM.bind] at e
  cases er : reader c with
  | error stop c' =>
    rw [er] at e
    cases e
  | ok a c' =>
    rw [er] at e
    -- The next reader keeps the faults, so there is none between the two.
    obtain ⟨hf', -⟩ := hn [] a c' b c'' e hf
    obtain ⟨hf₀, h⟩ := h c a c' er hf'
    refine ⟨hf₀, fun hc => ?_⟩
    obtain ⟨hs, taken, ht, hP⟩ := h hc
    obtain ⟨-, hn⟩ := hn taken a c' b c'' e hf
    obtain ⟨hs', more, ht', hQ⟩ := hn (hs ▸ hc)
    refine ⟨hs'.trans hs, taken ++ more, by rw [ht, ht', List.append_assoc], hQ ?_⟩
    rwa [← ht']

/-- The token at hand is looked at. -/
theorem after_get {next : Cursor → Reader β} (h : ∀ c, ParsesAt c (next c) Q) : Parses (get >>= next) Q :=
  fun c => h c

theorem after_advance {next : Unit → Reader β} (hk : c.peek.kind ≠ .eof)
    (h : Parses (next ()) fun taken rest b => Q (c.peek :: taken) rest b) : ParsesAt c (advance >>= next) Q := by
  intro b c' e hf
  obtain ⟨hf, h⟩ := h { c with rest := c.rest.drop 1 } b c' e hf
  refine ⟨hf, fun hc => ?_⟩
  obtain ⟨hs, taken, ht, hQ⟩ := h hc
  unfold Cursor.peek at hk hQ
  cases hr : c.rest with
  | nil =>
    rw [hr] at hk
    exact absurd hc hk
  | cons t rest =>
    simp only [hr, List.drop_succ_cons, List.drop_zero, List.head?_cons, Option.getD_some] at ht hQ
    exact ⟨hs, t :: taken, by rw [ht, List.cons_append], hQ⟩

/-- A step that only hands out node ids, or looks at what is ahead. -/
theorem after_idle {step : Reader α} {next : α → Reader β}
    (hstep : ∀ c, ∃ a i, step c = .ok a { c with nextId := i }) (h : ∀ a, Parses (next a) Q) :
    Parses (step >>= next) Q := by
  have hidle : Parses step fun taken _ _ => taken = [] := by
    intro c a c' e hf
    obtain ⟨a', i, e'⟩ := hstep c
    rw [e'] at e
    cases e
    exact ⟨hf, fun _ => ⟨rfl, [], rfl, rfl⟩⟩
  refine hidle.bind fun taken a => (h a).weaken fun more rest b hQ ht => ?_
  rwa [ht, List.nil_append]

theorem after_fresh {next : NodeId → Reader β} (h : ∀ id, Parses (next id) Q) : Parses (fresh >>= next) Q :=
  after_idle (fun c => ⟨c.nextId, c.nextId + 1, rfl⟩) h

theorem after_check {kind : Kind} {next : Bool → Reader β} (h : ∀ b, Parses (next b) Q) :
    Parses (check kind >>= next) Q := after_idle (fun c => ⟨_, c.nextId, rfl⟩) h

theorem after_atEnd {next : Bool → Reader β}
    (h : ∀ b, Parses (next b) fun taken rest a => (taken ++ rest).isEmpty = b → Q taken rest a) :
    Parses (atEnd >>= next) Q := by
  intro c a c' e hf
  obtain ⟨hf, h⟩ := h c.rest.isEmpty c a c' e hf
  refine ⟨hf, fun hc => ?_⟩
  obtain ⟨hs, taken, ht, hQ⟩ := h hc
  exact ⟨hs, taken, ht, hQ (ht ▸ rfl)⟩

/-- Behind a fault no reading is without one. -/
theorem after_report {t : Token} {cause : SyntaxFault} {next : Unit → Reader β}
    (h : Parses (next ()) fun _ _ _ => True) : Parses (report t cause >>= next) Q := by
  intro c b c' e hf
  have hne := (h (c.report t cause) b c' e hf).1
  simp [Cursor.report] at hne

theorem acceptIf_of_passes {passes : Kind → Bool} {t : Token} {rest : List Token} (hr : c.rest = t :: rest)
    (hp : passes t.kind = true) : acceptIf passes c = .ok (some t) { c with rest := rest } := by
  unfold acceptIf
  simp only [Bind.bind, EStateM.bind, MonadState.get, getThe, MonadStateOf.get, EStateM.get, hr, hp]
  rfl

theorem acceptIf_of_refuses {passes : Kind → Bool} (h : ∀ t ∈ c.rest.head?, passes t.kind = false) :
    acceptIf passes c = .ok none c := by
  unfold acceptIf
  simp only [Bind.bind, EStateM.bind, MonadState.get, getThe, MonadStateOf.get, EStateM.get]
  cases hr : c.rest with
  | nil => rfl
  | cons t rest =>
    rw [hr] at h
    simp only [h t rfl]
    rfl

theorem after_acceptIf {passes : Kind → Bool} {next : Option Token → Reader β}
    (hsome : ∀ t, passes t.kind = true → Parses (next (some t)) fun taken rest b => Q (t :: taken) rest b)
    (hnone : Parses (next none) fun taken rest b =>
      (∀ t ∈ (taken ++ rest).head?, passes t.kind = false) → Q taken rest b) :
    Parses (acceptIf passes >>= next) Q := by
  intro c b c' e hf
  simp only [Bind.bind, EStateM.bind] at e
  by_cases h : ∀ t ∈ c.rest.head?, passes t.kind = false
  · rw [acceptIf_of_refuses h] at e
    obtain ⟨hf, hnext⟩ := hnone c b c' e hf
    refine ⟨hf, fun hc => ?_⟩
    obtain ⟨hs, taken, ht, hQ⟩ := hnext hc
    exact ⟨hs, taken, ht, hQ (ht ▸ h)⟩
  · cases hr : c.rest with
    | nil =>
      rw [hr] at h
      exact absurd (fun t ht => nomatch ht) h
    | cons t rest =>
      have hp : passes t.kind = true := by
        rw [hr] at h
        simpa using h
      rw [acceptIf_of_passes hr hp] at e
      obtain ⟨hf, hnext⟩ := hsome t hp { c with rest := rest } b c' e hf
      refine ⟨hf, fun hc => ?_⟩
      obtain ⟨hs, taken, ht, hQ⟩ := hnext hc
      exact ⟨hs, t :: taken, congrArg (t :: ·) ht, hQ⟩

theorem after_accept {kind : Kind} {next : Option Token → Reader β}
    (hsome : ∀ t, t.kind = kind → Parses (next (some t)) fun taken rest b => Q (t :: taken) rest b)
    (hnone : Parses (next none) fun taken rest b =>
      (∀ t ∈ (taken ++ rest).head?, t.kind ≠ kind) → Q taken rest b) :
    Parses (accept kind >>= next) Q := by
  refine after_acceptIf (fun t ht => hsome t (eq_of_beq ht)) (hnone.weaken fun taken rest b hQ h => hQ fun t ht => ?_)
  exact ne_of_beq_false (h t ht)

theorem after_expect {kind : Kind} {what : String} {next : Token → Reader β}
    (h : ∀ t, t.kind = kind → Parses (next t) fun taken rest b => Q (t :: taken) rest b) :
    Parses (expect kind what >>= next) Q := by
  unfold expect
  rw [bind_assoc]
  refine after_accept (fun t ht => ?_) ?_
  · rw [pure_bind]
    exact h t ht
  · rintro c b c' ⟨⟩

end Parses

/-- From this cursor a reading ends in front of the given tokens without a fault, with a result of this kind. -/
def Takes (reader : Reader α) (c : Cursor) (ahead : List Token) (P : α → Prop) : Prop :=
  ∃ a i, reader c = .ok a { c with rest := ahead, nextId := i } ∧ P a

namespace Takes

open Reader

variable {P P' : α → Prop} {Q : β → Prop} {c : Cursor} {between ahead : List Token}

theorem done {a : α} (hc : c.rest = ahead) (h : P a) : Takes (pure a) c ahead P :=
  ⟨a, c.nextId, by subst hc; rfl, h⟩

theorem weaken {reader : Reader α} (h : Takes reader c ahead P) (hw : ∀ a, P a → P' a) : Takes reader c ahead P' := by
  obtain ⟨a, i, e, hP⟩ := h
  exact ⟨a, i, e, hw a hP⟩

theorem bind {reader : Reader α} {next : α → Reader β} (h : Takes reader c between P)
    (hn : ∀ a i, P a → Takes (next a) { c with rest := between, nextId := i } ahead Q) :
    Takes (reader >>= next) c ahead Q := by
  obtain ⟨a, i, e, hP⟩ := h
  obtain ⟨b, j, e', hQ⟩ := hn a i hP
  refine ⟨b, j, ?_, hQ⟩
  simp only [Bind.bind, EStateM.bind, e]
  exact e'

theorem after_get {next : Cursor → Reader β} (h : Takes (next c) c ahead Q) : Takes (get >>= next) c ahead Q := h

theorem after_advance {t : Token} {next : Unit → Reader β} (hr : c.rest = t :: between)
    (h : Takes (next ()) { c with rest := between } ahead Q) : Takes (advance >>= next) c ahead Q := by
  have hdrop : between = c.rest.drop 1 := by rw [hr]; rfl
  subst hdrop
  exact h

theorem after_fresh {next : NodeId → Reader β}
    (h : Takes (next c.nextId) { c with nextId := c.nextId + 1 } ahead Q) : Takes (fresh >>= next) c ahead Q := h

theorem after_atEnd {next : Bool → Reader β} (h : Takes (next c.rest.isEmpty) c ahead Q) :
    Takes (atEnd >>= next) c ahead Q := h

theorem after_found {kind : Kind} {t : Token} {next : Bool → Reader β} (hr : c.rest = t :: between) (hk : t.kind = kind)
    (h : Takes (next true) c ahead Q) : Takes (check kind >>= next) c ahead Q := by
  have hcheck : (c.rest.head?.any fun t => t.kind == kind) = true := by simp [hr, hk]
  rw [← hcheck] at h
  exact h

theorem after_other {kind : Kind} {t : Token} {next : Bool → Reader β} (hr : c.rest = t :: between) (hk : t.kind ≠ kind)
    (h : Takes (next false) c ahead Q) : Takes (check kind >>= next) c ahead Q := by
  have hcheck : (c.rest.head?.any fun t => t.kind == kind) = false := by simp [hr, hk]
  rw [← hcheck] at h
  exact h

theorem after_passing {passes : Kind → Bool} {t : Token} {next : Option Token → Reader β} (hr : c.rest = t :: between)
    (hp : passes t.kind = true) (h : Takes (next (some t)) { c with rest := between } ahead Q) :
    Takes (acceptIf passes >>= next) c ahead Q := by
  obtain ⟨b, i, e, hQ⟩ := h
  refine ⟨b, i, ?_, hQ⟩
  simp only [Bind.bind, EStateM.bind, Parses.acceptIf_of_passes hr hp]
  exact e

theorem after_refusing {passes : Kind → Bool} {next : Option Token → Reader β}
    (hp : ∀ t ∈ c.rest.head?, passes t.kind = false) (h : Takes (next none) c ahead Q) :
    Takes (acceptIf passes >>= next) c ahead Q := by
  obtain ⟨b, i, e, hQ⟩ := h
  refine ⟨b, i, ?_, hQ⟩
  simp only [Bind.bind, EStateM.bind, Parses.acceptIf_of_refuses hp]
  exact e

theorem after_accepting {kind : Kind} {t : Token} {next : Option Token → Reader β} (hr : c.rest = t :: between)
    (hk : t.kind = kind) (h : Takes (next (some t)) { c with rest := between } ahead Q) :
    Takes (accept kind >>= next) c ahead Q := after_passing hr (beq_iff_eq.mpr hk) h

theorem after_missing {kind : Kind} {next : Option Token → Reader β} (hk : ∀ t ∈ c.rest.head?, t.kind ≠ kind)
    (h : Takes (next none) c ahead Q) : Takes (accept kind >>= next) c ahead Q :=
  after_refusing (fun t ht => beq_eq_false_iff_ne.mpr (hk t ht)) h

theorem after_expect {kind : Kind} {what : String} {t : Token} {next : Token → Reader β} (hr : c.rest = t :: between)
    (hk : t.kind = kind) (h : Takes (next t) { c with rest := between } ahead Q) :
    Takes (expect kind what >>= next) c ahead Q := by
  unfold expect
  rw [bind_assoc]
  refine after_accepting hr hk ?_
  rw [pure_bind]
  exact h

end Takes

end LoxLang
