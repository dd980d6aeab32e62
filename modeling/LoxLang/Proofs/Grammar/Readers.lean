import LoxLang.Grammar.Program
import LoxLang.Proofs.Grammar.Words
import Mathlib

/-! What holds of a reader wherever it is started: it keeps the tokens ahead proper, hands out node ids upward
only, and what it reads has a property that may tell of the node ids handed out. -/

namespace LoxLang

structure Cursor.Proper (c : Cursor) : Prop where
  rest : ∀ t ∈ c.rest, t.Proper
  stop : c.stop.Proper

theorem Cursor.Proper.peek {c : Cursor} (h : c.Proper) : c.peek.Proper := by
  unfold Cursor.peek
  cases e : c.rest with
  | nil => exact h.stop
  | cons t rest => exact h.rest t (e ▸ List.mem_cons_self)

theorem Cursor.proper_ofTokens {tokens : List Token} (h : ∀ t ∈ tokens, t.Proper) (nextId : NodeId) :
    (Cursor.ofTokens tokens nextId).Proper where
  rest t ht := h t ((List.takeWhile_prefix _).sublist.mem ht)
  stop := by
    unfold Cursor.ofTokens
    cases e : tokens.find? Token.isEof with
    | none => exact Token.proper_of_not_naming (by simp [Kind.naming])
    | some t => exact h t (List.mem_of_find?_eq_some e)

/-- Started at the node id `lo`, the reader leaves off at one not less, even when it stops at a fault. The property
of what is read is told at the node id where reading left off. -/
def Reads {α : Type} (reader : Reader α) (lo : NodeId) (P : NodeId → α → Prop) : Prop :=
  ∀ c : Cursor, c.Proper → c.nextId = lo →
    match reader c with
    | .ok a c' => c'.Proper ∧ lo ≤ c'.nextId ∧ P c'.nextId a
    | .error _ c' => c'.Proper ∧ lo ≤ c'.nextId

namespace Reads

open Reader

variable {α β : Type} {lo : NodeId} {P : NodeId → α → Prop} {Q : NodeId → β → Prop}

theorem done {a : α} (h : P lo a) : Reads (pure a) lo P := by
  rintro c hc rfl
  exact ⟨hc, le_rfl, h⟩

theorem bind {reader : Reader α} {next : α → Reader β} (h : Reads reader lo P)
    (hn : ∀ mid a, lo ≤ mid → P mid a → Reads (next a) mid Q) : Reads (reader >>= next) lo Q := by
  intro c hc hlo
  have hr := h c hc hlo
  simp only [Bind.bind, EStateM.bind]
  cases e : reader c with
  | error stop c' =>
    rw [e] at hr
    exact hr
  | ok a c' =>
    rw [e] at hr
    obtain ⟨hc', hle, hP⟩ := hr
    have hs := hn c'.nextId a hle hP c' hc' rfl
    dsimp only
    cases e' : next a c' with
    | error stop c'' =>
      rw [e'] at hs
      exact ⟨hs.1, hle.trans hs.2⟩
    | ok b c'' =>
      rw [e'] at hs
      exact ⟨hs.1, hle.trans hs.2.1, hs.2.2⟩

theorem weaken {reader : Reader α} {P' : NodeId → α → Prop} (h : Reads reader lo P)
    (hw : ∀ hi a, lo ≤ hi → P hi a → P' hi a) : Reads reader lo P' := by
  intro c hc hlo
  have hr := h c hc hlo
  cases e : reader c with
  | error stop c' => rwa [e] at hr
  | ok a c' =>
    rw [e] at hr
    exact ⟨hr.1, hr.2.1, hw _ _ hr.2.1 hr.2.2⟩

theorem stops (stop : Stop) : Reads (throw stop : Reader α) lo P := by
  rintro c hc rfl
  exact ⟨hc, le_rfl⟩

theorem stops_failAt (t : Token) (cause : SyntaxFault) : Reads (failAt t cause : Reader α) lo P := stops _

theorem after_get {next : Cursor → Reader β} (h : ∀ c, c.Proper → Reads (next c) lo Q) :
    Reads (get >>= next) lo Q := by
  have hget : Reads (get : Reader Cursor) lo (fun hi c => hi = lo ∧ c.Proper) := by
    rintro c hc rfl
    exact ⟨hc, le_rfl, rfl, hc⟩
  exact hget.bind fun _ c _ hc => hc.1 ▸ h c hc.2

theorem stops_expected (what : String) : Reads (expected what : Reader α) lo P :=
  after_get fun _ _ => stops_failAt _ _

/-- A step that moves within the tokens ahead and hands out no node id. -/
theorem after_modify {f : Cursor → Cursor} {next : Unit → Reader β} (hr : ∀ c, (f c).rest ⊆ c.rest)
    (hs : ∀ c, (f c).stop = c.stop) (hi : ∀ c, (f c).nextId = c.nextId) (h : Reads (next ()) lo Q) :
    Reads (modify f >>= next) lo Q := by
  rintro c hc rfl
  exact h (f c) ⟨fun t ht => hc.rest t (hr c ht), (hs c).symm ▸ hc.stop⟩ (hi c)

theorem after_advance {next : Unit → Reader β} (h : Reads (next ()) lo Q) : Reads (advance >>= next) lo Q :=
  after_modify (fun c => List.drop_subset 1 c.rest) (fun _ => rfl) (fun _ => rfl) h

theorem after_report {t : Token} {cause : SyntaxFault} {next : Unit → Reader β} (h : Reads (next ()) lo Q) :
    Reads (report t cause >>= next) lo Q :=
  after_modify (fun _ => List.Subset.refl _) (fun _ => rfl) (fun _ => rfl) h

theorem after_check {kind : Kind} {next : Bool → Reader β} (h : ∀ b, Reads (next b) lo Q) :
    Reads (check kind >>= next) lo Q := by
  have hcheck : Reads (check kind) lo (fun hi _ => hi = lo) := after_get fun _ _ => done rfl
  exact hcheck.bind fun _ b _ hi => hi ▸ h b

theorem after_atEnd {next : Bool → Reader β} (h : ∀ b, Reads (next b) lo Q) : Reads (atEnd >>= next) lo Q := by
  have hend : Reads atEnd lo (fun hi _ => hi = lo) := after_get fun _ _ => done rfl
  exact hend.bind fun _ b _ hi => hi ▸ h b

/-- A token is taken from those ahead, or none is. -/
theorem reads_acceptIf (passes : Kind → Bool) :
    Reads (acceptIf passes) lo (fun hi o => hi = lo ∧ ∀ t ∈ o, passes t.kind = true ∧ t.Proper) := by
  rintro c hc rfl
  unfold acceptIf
  simp only [Bind.bind, EStateM.bind, MonadState.get, getThe, MonadStateOf.get, EStateM.get]
  cases e : c.rest with
  | nil => exact ⟨hc, le_rfl, rfl, fun t ht => by cases ht⟩
  | cons t rest =>
    dsimp only
    cases hp : passes t.kind with
    | false => exact ⟨hc, le_rfl, rfl, fun t ht => by cases ht⟩
    | true =>
      refine ⟨⟨fun u hu => hc.rest u (e ▸ List.mem_cons_of_mem t hu), hc.stop⟩, le_rfl, rfl, ?_⟩
      rintro u ⟨⟩
      exact ⟨hp, hc.rest t (e ▸ List.mem_cons_self)⟩

theorem reads_expect (kind : Kind) (what : String) :
    Reads (expect kind what) lo (fun hi t => hi = lo ∧ t.kind = kind ∧ t.Proper) := by
  refine (reads_acceptIf (· == kind)).bind ?_
  rintro _ o - ⟨rfl, ho⟩
  cases o with
  | none => exact stops_expected _
  | some t => exact done ⟨rfl, eq_of_beq (ho t rfl).1, (ho t rfl).2⟩

theorem after_acceptIf {passes : Kind → Bool} {next : Option Token → Reader β} (h : ∀ o, Reads (next o) lo Q) :
    Reads (acceptIf passes >>= next) lo Q :=
  (reads_acceptIf passes).bind fun _ o _ ho => ho.1 ▸ h o

theorem after_accept {kind : Kind} {next : Option Token → Reader β} (h : ∀ o, Reads (next o) lo Q) :
    Reads (accept kind >>= next) lo Q := after_acceptIf h

theorem after_expect {kind : Kind} {what : String} {next : Token → Reader β}
    (h : ∀ t, t.kind = kind → t.Proper → Reads (next t) lo Q) : Reads (expect kind what >>= next) lo Q :=
  (reads_expect kind what).bind fun _ t _ ht => ht.1 ▸ h t ht.2.1 ht.2.2

theorem after_fresh {next : NodeId → Reader β} (h : Reads (next lo) (lo + 1) Q) :
    Reads (fresh >>= next) lo Q := by
  rintro c hc rfl
  have hn := h { c with nextId := c.nextId + 1 } ⟨hc.rest, hc.stop⟩ rfl
  change match next c.nextId { c with nextId := c.nextId + 1 } with
    | .ok a c' => c'.Proper ∧ c.nextId ≤ c'.nextId ∧ Q c'.nextId a
    | .error _ c' => c'.Proper ∧ c.nextId ≤ c'.nextId
  cases e : next c.nextId { c with nextId := c.nextId + 1 } with
  | ok a c' =>
    rw [e] at hn
    exact ⟨hn.1, Nat.le_of_succ_le hn.2.1, hn.2.2⟩
  | error stop c' =>
    rw [e] at hn
    exact ⟨hn.1, Nat.le_of_succ_le hn.2⟩

end Reads

end LoxLang
