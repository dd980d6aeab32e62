import LoxLang.Proofs.Lexical.Mirror

/-! Pairs of runs, one with distances and one without: from machines that mirror each other both end alike, and what
they lead to are mirrors again. How such pairs compose, and the pairs of the operations. -/

namespace LoxLang.Lexical

open Frames LoxLang.Run

/-- How two results are related, and what holds where the runs leave off. -/
abbrev Post (α β : Type) := α → β → LoxLang.Machine → List Slot → Prop

/-- The same result. -/
def Same {α : Type} : Post α α := fun a b _ _ => b = a

variable {α β γ δ : Type} {c : Chart} {slots slots' : List Slot} {m m' : LoxLang.Machine} {r r' : Machine}
  {names more : List String}

/-- Both runs end, with related results, or both halt for the same reason. -/
def Pairs (c : Chart) (slots : List Slot) (m : LoxLang.Machine) (r : Machine) (run : LoxLang.Run α) (ref : Run β)
    (Q : Post α β) : Prop :=
  match run m, ref r with
  | .ok a m', .ok b r' => ∃ slots', slots <+: slots' ∧ Mirror c slots' m' r' ∧ Q a b m' slots'
  | .error h m', .error h' r' => h' = h ∧ ∃ slots', Mirror c slots' m' r'
  | _, _ => False

/-- A pair of runs the first of which adds the given names to the current frame. -/
structure Agree (c : Chart) (slots : List Slot) (m : LoxLang.Machine) (r : Machine) (run : LoxLang.Run α)
    (ref : Run β) (names : List String) (Q : Post α β) : Prop where
  keeps : Keeps c run m names
  pairs : Pairs c slots m r run ref Q

/-- Where a pair of runs that ended leaves off. -/
structure Later (c : Chart) (slots : List Slot) (m : LoxLang.Machine) (slots' : List Slot) (m' : LoxLang.Machine)
    (names : List String) : Prop where
  follows : m.Follows c m' names
  slots : slots <+: slots'

theorem Later.depth (h : Later c slots m slots' m' names) : m'.depth = m.depth :=
  congrArg Context.depth h.follows.context

section Rules

variable {run : LoxLang.Run α} {ref : Run β} {next : α → LoxLang.Run γ} {next' : β → Run δ} {Q : Post α β}
  {Q' : Post γ δ}

theorem pairs_of_ok {a : α} {b : β} (e : run m = .ok a m') (e' : ref r = .ok b r') (hp : slots <+: slots')
    (h : Mirror c slots' m' r') (hQ : Q a b m' slots') : Pairs c slots m r run ref Q := by
  unfold Pairs
  rw [e, e']
  exact ⟨slots', hp, h, hQ⟩

theorem pairs_of_error {k : Halt} (e : run m = .error k m') (e' : ref r = .error k r') (h : Mirror c slots' m' r') :
    Pairs c slots m r run ref Q := by
  unfold Pairs
  rw [e, e']
  exact ⟨rfl, slots', h⟩

theorem Agree.of_ok {a : α} {b : β} (hk : Keeps c run m names) (e : run m = .ok a m') (e' : ref r = .ok b r')
    (hp : slots <+: slots') (h : Mirror c slots' m' r') (hQ : Q a b m' slots') : Agree c slots m r run ref names Q :=
  ⟨hk, pairs_of_ok e e' hp h hQ⟩

theorem agree_pure (h : Mirror c slots m r) {a : α} {b : β} (hQ : Q a b m slots) :
    Agree c slots m r (pure a) (pure b) [] Q :=
  .of_ok (keeps_pure h.sound a) rfl rfl (List.prefix_refl _) h hQ

theorem agree_throw (h : Mirror c slots m r) (k : Halt) : Agree c slots m r (throw k) (throw k) names Q :=
  ⟨⟨[], .refl h.sound⟩, pairs_of_error rfl rfl h⟩

theorem agree_fail (h : Mirror c slots m r) (t : Token) (cause : RuntimeFault) :
    Agree c slots m r (fail t cause) (fail t cause) names Q := agree_throw h _

theorem agree_get {next : LoxLang.Machine → LoxLang.Run γ} {next' : Machine → Run δ}
    (h : Agree c slots m r (next m) (next' r) names Q') : Agree c slots m r (get >>= next) (get >>= next') names Q' :=
  ⟨keeps_get h.keeps, h.pairs⟩

theorem Agree.bind_pairs (h : Agree c slots m r run ref names Q)
    (hn : ∀ a b m' r' slots', Later c slots m slots' m' names → Mirror c slots' m' r' → Q a b m' slots' →
      Pairs c slots' m' r' (next a) (next' b) Q') : Pairs c slots m r (run >>= next) (ref >>= next') Q' := by
  obtain ⟨hk, hp⟩ := h
  unfold Pairs at hp
  cases e : run m with
  | error k m' =>
    cases e' : ref r with
    | ok b r' => simp only [e, e'] at hp
    | error k' r' =>
      simp only [e, e'] at hp
      obtain ⟨rfl, slots', hm'⟩ := hp
      exact pairs_of_error (Halting.bind_of_error e) (Halting.bind_of_error e') hm'
  | ok a m' =>
    cases e' : ref r with
    | error k' r' => simp only [e, e'] at hp
    | ok b r' =>
      simp only [e, e'] at hp
      obtain ⟨slots', hslots, hm', hQ⟩ := hp
      have hnext := hn a b m' r' slots' ⟨hk.of_ok e, hslots⟩ hm' hQ
      unfold Pairs at hnext ⊢
      rw [Halting.bind_of_ok e, Halting.bind_of_ok e']
      revert hnext
      cases next a m' <;> cases next' b r' <;> intro hnext
      · obtain ⟨slots'', hslots', hm''⟩ := hnext
        exact ⟨slots'', hslots.trans hslots', hm''⟩
      all_goals exact hnext

/-- What the first of two runs that agree leads to has a partner. -/
theorem Agree.partner (h : Agree c slots m r run ref names Q) {a : α} (e : run m = .ok a m') :
    ∃ b r' slots', slots <+: slots' ∧ Mirror c slots' m' r' ∧ Q a b m' slots' := by
  have hp := h.pairs
  unfold Pairs at hp
  cases e' : ref r with
  | error k r' => simp only [e, e'] at hp
  | ok b r' =>
    simp only [e, e'] at hp
    exact ⟨b, r', hp⟩

theorem Agree.bind (h : Agree c slots m r run ref names Q)
    (hn : ∀ a b m' r' slots', Later c slots m slots' m' names → Mirror c slots' m' r' → Q a b m' slots' →
      Agree c slots' m' r' (next a) (next' b) more Q') :
    Agree c slots m r (run >>= next) (ref >>= next') (more ++ names) Q' where
  keeps := h.keeps.bind fun a m' e hf => by
    obtain ⟨b, r', slots', hp, hm', hQ⟩ := h.partner e
    exact (hn a b m' r' slots' ⟨hf, hp⟩ hm' hQ).keeps
  pairs := h.bind_pairs fun a b m' r' slots' hl hm' hQ => (hn a b m' r' slots' hl hm' hQ).pairs

/-- Behind runs that add no name. -/
theorem Agree.then (h : Agree c slots m r run ref [] Q)
    (hn : ∀ a b m' r' slots', Later c slots m slots' m' [] → Mirror c slots' m' r' → Q a b m' slots' →
      Agree c slots' m' r' (next a) (next' b) more Q') :
    Agree c slots m r (run >>= next) (ref >>= next') more Q' := by
  simpa using h.bind hn

end Rules

section Operators

/-- What the run yields does not depend on the state, and it leaves the state alone. -/
def Uniform (run : (σ : Type) → Halting σ α) : Prop :=
  (∃ a, ∀ σ s, run σ s = .ok a s) ∨ ∃ k, ∀ σ s, run σ s = .error k s

theorem uniform_pure (a : α) : Uniform fun _ => pure a := .inl ⟨a, fun _ _ => rfl⟩

theorem uniform_fail (t : Token) (cause : RuntimeFault) : Uniform (α := α) fun _ => fail t cause :=
  .inr ⟨_, fun _ _ => rfl⟩

theorem uniform_binary (operator : Token) (a b : Value) : Uniform fun _ => binary operator a b := by
  unfold binary sum onNumbers
  split <;> first
    | exact uniform_pure _
    | exact uniform_fail _ _
    | split <;> first | exact uniform_pure _ | exact uniform_fail _ _

theorem uniform_unary (operator : Token) (a : Value) : Uniform fun _ => unary operator a := by
  unfold unary
  split
  · split <;> first | exact uniform_pure _ | exact uniform_fail _ _
  · exact uniform_pure _

theorem agree_of_uniform {run : (σ : Type) → Halting σ α} (hu : Uniform run) (h : Mirror c slots m r) :
    Agree c slots m r (run _) (run _) [] Same := by
  rcases hu with ⟨a, ha⟩ | ⟨k, hk⟩
  · exact .of_ok (keeps_of_ok (ha _ m) (.refl h.sound)) (ha _ m) (ha _ r) (List.prefix_refl _) h rfl
  · refine ⟨?_, pairs_of_error (hk _ m) (hk _ r) h⟩
    exact keeps_of_idle h.sound (Halting.after_of_error (hk _ m))

end Operators

end LoxLang.Lexical
