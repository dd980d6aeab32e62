import LoxLang.Proofs.Derivation.Readings
import LoxLang.Grammar.Statement

/-! Reading tokens that stand in a longer list, with a greater bound, behind faults that were found before. What ends in a
semicolon, and has nothing in it that a statement could go on with behind one, is read there just as it is read alone. -/

namespace LoxLang

/-- The kinds at which one statement may hold a semicolon that does not end it, or may go on behind one. -/
def Kind.spansSemicolons (k : Kind) : Bool := k ∈ [.leftBrace, .kwFor, .kwElse]

/-- Tokens that end in their only semicolon. -/
inductive Terminated : List Token → Prop
  | last {t : Token} : t.kind = .semicolon → Terminated [t]
  | cons {t : Token} {ts : List Token} : t.kind ≠ .semicolon → t.kind.spansSemicolons = false → Terminated ts →
    Terminated (t :: ts)

/-- Where a list of tokens is read. Either the tokens are cut from a longer list, in which more of them follow, or
nothing follows but the same end mark. -/
structure Excerpt where
  cut : Bool
  tail : List Token
  stop : Token
  /-- The faults that were found before. -/
  faults : List Diagnostic
  tail_of_whole : cut = false → tail = []
  no_else : ∀ t ∈ tail.head?, t.kind ≠ .kwElse

/-- The same place in the longer list. -/
def Cursor.within (c : Cursor) (s : Excerpt) : Cursor := ⟨c.rest ++ s.tail, s.stop, s.faults ++ c.faults, c.nextId⟩

namespace Excerpt

variable {s : Excerpt} {c : Cursor} {P Q : List Token → Prop}

/-- The tokens ahead are of this form if they are cut, and else the end mark is the same. -/
def Holds (s : Excerpt) (P : List Token → Prop) (c : Cursor) : Prop :=
  if s.cut then P c.rest else c.stop = s.stop

theorem holds_cut (h : s.cut = true) : s.Holds P c ↔ P c.rest := by rw [Holds, if_pos h]

theorem holds_whole (h : s.cut = false) : s.Holds P c ↔ c.stop = s.stop := by rw [Holds, h]; simp

theorem Holds.mono (h : s.Holds P c) (hPQ : ∀ ts, P ts → Q ts) : s.Holds Q c := by
  unfold Holds at *
  split
  · rename_i hs
    rw [if_pos hs] at h
    exact hPQ _ h
  · rename_i hs
    rwa [if_neg hs] at h

/-- Between two places of one reading the end mark stays. -/
theorem Holds.move {c' : Cursor} (h : s.Holds P c) (hstop : c'.stop = c.stop) (hrest : P c.rest → Q c'.rest) :
    s.Holds Q c' := by
  unfold Holds at *
  split
  · rename_i hs
    rw [if_pos hs] at h
    exact hrest h
  · rename_i hs
    rw [if_neg hs] at h
    exact hstop.trans h

theorem within_whole (hs : s.cut = false) (h : c.stop = s.stop) :
    c.within s = { c with faults := s.faults ++ c.faults } := by
  rw [Cursor.within, s.tail_of_whole hs, List.append_nil, ← h]

/-- The first token ahead is the same. -/
theorem head_within (h : s.Holds Terminated c) : (c.within s).rest.head? = c.rest.head? := by
  cases hs : s.cut with
  | true =>
    obtain ⟨rest, stop, faults, nextId⟩ := c
    cases (holds_cut hs).mp h <;> rfl
  | false => rw [within_whole hs ((holds_whole hs).mp h)]

theorem peek_within (h : s.Holds Terminated c) : (c.within s).peek = c.peek := by
  cases hs : s.cut with
  | true =>
    obtain ⟨rest, stop, faults, nextId⟩ := c
    cases (holds_cut hs).mp h <;> rfl
  | false => rw [within_whole hs ((holds_whole hs).mp h)]; rfl

/-- What spans semicolons stands ahead only where nothing is cut. -/
theorem whole_of_spans (h : s.Holds Terminated c) (hk : c.peek.kind.spansSemicolons = true) : s.cut = false := by
  cases hs : s.cut with
  | false => rfl
  | true =>
    obtain ⟨rest, stop, faults, nextId⟩ := c
    cases (holds_cut hs).mp h with
    | @last t hlast =>
      have hk : t.kind.spansSemicolons = true := hk
      rw [hlast] at hk
      cases hk
    | @cons t _ _ hspans =>
      have hk : t.kind.spansSemicolons = true := hk
      rw [hspans] at hk
      cases hk

end Excerpt

namespace Reader

variable {α β : Type} {s : Excerpt} {P Q R : List Token → Prop}

/-- A result of the reading alone, and of that in the longer list. Faults leave tokens ahead. -/
def Agrees (s : Excerpt) (Q : List Token → Prop) :
    EStateM.Result Stop Cursor α → EStateM.Result Stop Cursor α → Prop
  | .ok a c, r => r = .ok a (c.within s) ∧ s.Holds Q c
  | .error (.fault d) c, r => r = .error (.fault d) (c.within s) ∧ s.Holds Terminated c
  | .error .exhausted _, _ => True

def AgreesAt (s : Excerpt) (Q : List Token → Prop) (c : Cursor) (reader reader' : Reader α) : Prop :=
  Agrees s Q (reader c) (reader' (c.within s))

/-- Unless the first reader exhausts its bound, the second reads in the longer list what the first reads alone. -/
def Embeds (s : Excerpt) (P Q : List Token → Prop) (reader reader' : Reader α) : Prop :=
  ∀ c, s.Holds P c → AgreesAt s Q c reader reader'

/-- A reader that never reads to the end of what is cut. -/
abbrev Inside (s : Excerpt) (reader reader' : Reader α) : Prop := Embeds s Terminated Terminated reader reader'

/-- A reader that reads to the end of what is cut. -/
abbrev Finishes (s : Excerpt) (reader reader' : Reader α) : Prop := Embeds s Terminated (· = []) reader reader'

namespace Embeds

variable {reader reader' : Reader α} {next next' : α → Reader β}

theorem done (a : α) : Embeds s P P (pure a) (pure a) := fun _ h => ⟨rfl, h⟩

theorem exhausted : Embeds s P Q (Reader.exhausted : Reader α) reader' := fun _ _ => trivial

theorem failAt (t : Token) (cause : SyntaxFault) :
    Embeds s Terminated Q (Reader.failAt t cause : Reader α) (Reader.failAt t cause) := fun _ h => ⟨rfl, h⟩

theorem bind_at {c : Cursor} (h : AgreesAt s Q c reader reader')
    (hn : ∀ a c', reader c = .ok a c' → Embeds s Q R (next a) (next' a)) :
    AgreesAt s R c (reader >>= next) (reader' >>= next') := by
  unfold AgreesAt at *
  simp only [Bind.bind, EStateM.bind]
  cases e : reader c with
  | ok a c' =>
    rw [e] at h
    rw [h.1]
    exact hn a c' e c' h.2
  | error stop c' =>
    rw [e] at h
    cases stop with
    | fault d =>
      rw [h.1]
      exact ⟨rfl, h.2⟩
    | exhausted => trivial

theorem bind (h : Embeds s P Q reader reader') (hn : ∀ a, Embeds s Q R (next a) (next' a)) :
    Embeds s P R (reader >>= next) (reader' >>= next') := fun c hc => bind_at (h c hc) fun a _ _ => hn a

/-- Where nothing is cut, nothing is asked of the tokens ahead. -/
theorem of_whole {P' Q' : List Token → Prop} (hs : s.cut = false) (h : Embeds s P Q reader reader') :
    Embeds s P' Q' reader reader' := by
  intro c hc
  have hat := h c ((Excerpt.holds_whole hs).mpr ((Excerpt.holds_whole hs).mp hc))
  unfold AgreesAt at *
  cases e : reader c with
  | ok a c' =>
    rw [e] at hat
    exact ⟨hat.1, (Excerpt.holds_whole hs).mpr ((Excerpt.holds_whole hs).mp hat.2)⟩
  | error stop c' =>
    rw [e] at hat
    cases stop with
    | fault d => exact hat
    | exhausted => trivial

theorem after_get {next next' : Cursor → Reader β}
    (h : ∀ c, s.Holds P c → AgreesAt s Q c (next c) (next' (c.within s))) :
    Embeds s P Q (get >>= next) (get >>= next') := h

theorem expected (what : String) : Embeds s Terminated Q (Reader.expected what : Reader α) (Reader.expected what) := by
  refine after_get fun c hc => ?_
  rw [Excerpt.peek_within hc]
  exact failAt _ _ c hc

/-- A step that leaves the tokens ahead as they are. -/
theorem idle {step : Reader α}
    (h : ∀ c, s.Holds P c → ∃ a c', step c = .ok a c' ∧ step (c.within s) = .ok a (c'.within s) ∧ c'.rest = c.rest ∧
      c'.stop = c.stop) : Embeds s P P step step := by
  intro c hc
  obtain ⟨a, c', e, e', hrest, hstop⟩ := h c hc
  rw [AgreesAt, e, e']
  exact ⟨rfl, hc.move hstop fun hP => hrest ▸ hP⟩

theorem fresh : Embeds s P P Reader.fresh Reader.fresh := idle fun c _ => ⟨_, { c with nextId := c.nextId + 1 }, rfl, rfl, rfl, rfl⟩

theorem report (t : Token) (cause : SyntaxFault) : Embeds s P P (Reader.report t cause) (Reader.report t cause) := by
  refine idle fun c _ => ⟨(), c.report t cause, rfl, ?_, rfl, rfl⟩
  exact congrArg (EStateM.Result.ok ()) (by simp [Cursor.report, Cursor.within])

theorem check (kind : Kind) : Inside s (Reader.check kind) (Reader.check kind) := by
  refine idle fun c hc => ⟨_, c, rfl, ?_, rfl, rfl⟩
  rw [← Excerpt.head_within hc]
  rfl

theorem atEnd : Inside s Reader.atEnd Reader.atEnd := by
  refine idle fun c hc => ⟨_, c, rfl, ?_, rfl, rfl⟩
  have hempty : (c.within s).rest.isEmpty = c.rest.isEmpty := by
    have hhead := Excerpt.head_within hc
    cases h : c.rest <;> cases h' : (c.within s).rest <;> simp_all
  rw [← hempty]
  rfl

/-- Passing over a token that is not the last one. -/
theorem after_advance {next next' : Unit → Reader β} {c : Cursor} (hc : s.Holds Terminated c) (hk : c.peek.kind ≠ .semicolon)
    (h : Embeds s Terminated Q (next ()) (next' ())) : AgreesAt s Q c (advance >>= next) (advance >>= next') := by
  suffices hat : AgreesAt s Terminated c advance advance from bind_at hat fun _ _ _ => h
  cases hs : s.cut with
  | true =>
    obtain ⟨rest, stop, faults, nextId⟩ := c
    cases (Excerpt.holds_cut hs).mp hc with
    | last hlast => exact absurd hlast hk
    | cons _ _ hrest => exact ⟨rfl, (Excerpt.holds_cut hs).mpr hrest⟩
  | false =>
    have hstop := (Excerpt.holds_whole hs).mp hc
    refine ⟨?_, (Excerpt.holds_whole hs).mpr hstop⟩
    rw [Excerpt.within_whole hs hstop]
    exact congrArg (EStateM.Result.ok ()) (Excerpt.within_whole (c := { c with rest := c.rest.drop 1 }) hs hstop).symm

theorem acceptIf_at {passes : Kind → Bool} {c : Cursor} (hhead : (c.within s).rest.head? = c.rest.head?)
    (hsome : ∀ t rest, c.rest = t :: rest → passes t.kind = true → s.Holds Q { c with rest := rest })
    (hnone : (∀ t ∈ c.rest.head?, passes t.kind = false) → s.Holds Q c) :
    AgreesAt s Q c (acceptIf passes) (acceptIf passes) := by
  rw [AgreesAt]
  by_cases hp : ∀ t ∈ c.rest.head?, passes t.kind = false
  · rw [Parses.acceptIf_of_refuses hp, Parses.acceptIf_of_refuses (hhead ▸ hp)]
    exact ⟨rfl, hnone hp⟩
  · cases hr : c.rest with
    | nil =>
      rw [hr] at hp
      exact absurd (fun t ht => nomatch ht) hp
    | cons t rest =>
      have hp : passes t.kind = true := by
        rw [hr] at hp
        simpa using hp
      have hwithin : (c.within s).rest = t :: (rest ++ s.tail) := by rw [Cursor.within, hr, List.cons_append]
      rw [Parses.acceptIf_of_passes hr hp, Parses.acceptIf_of_passes hwithin hp]
      exact ⟨rfl, hsome t rest hr hp⟩

theorem acceptIf {passes : Kind → Bool} (h : s.cut = true → passes .semicolon = false) :
    Inside s (Reader.acceptIf passes) (Reader.acceptIf passes) := by
  intro c hc
  refine acceptIf_at (Excerpt.head_within hc) (fun t rest hr hp => ?_) fun _ => hc
  cases hs : s.cut with
  | false =>
    have hstop : c.stop = s.stop := (Excerpt.holds_whole hs).mp hc
    exact (Excerpt.holds_whole hs).mpr hstop
  | true =>
    refine hc.move rfl fun hterminated => ?_
    rw [hr] at hterminated
    cases hterminated with
    | last hlast =>
      rw [hlast, h hs] at hp
      cases hp
    | cons _ _ hrest => exact hrest

theorem passes_of_acceptIf {passes : Kind → Bool} {c c' : Cursor} {t : Token}
    (e : Reader.acceptIf passes c = .ok (some t) c') : passes t.kind = true := by
  by_cases hp : ∀ t ∈ c.rest.head?, passes t.kind = false
  · rw [Parses.acceptIf_of_refuses hp] at e
    cases e
  · cases hr : c.rest with
    | nil =>
      rw [hr] at hp
      exact absurd (fun t ht => nomatch ht) hp
    | cons u rest =>
      have hp : passes u.kind = true := by
        rw [hr] at hp
        simpa using hp
      rw [Parses.acceptIf_of_passes hr hp] at e
      cases e
      exact hp

theorem after_acceptIf {passes : Kind → Bool} {next next' : Option Token → Reader β} (h : s.cut = true → passes .semicolon = false)
    (hsome : ∀ t, passes t.kind = true → Embeds s Terminated Q (next (some t)) (next' (some t)))
    (hnone : Embeds s Terminated Q (next none) (next' none)) :
    Embeds s Terminated Q (Reader.acceptIf passes >>= next) (Reader.acceptIf passes >>= next') := by
  refine fun c hc => bind_at (acceptIf h c hc) fun o c' e => ?_
  cases o with
  | none => exact hnone
  | some t => exact hsome t (passes_of_acceptIf e)

theorem after_accept {kind : Kind} {next next' : Option Token → Reader β} (h : s.cut = true → kind ≠ .semicolon)
    (hsome : ∀ t, Embeds s Terminated Q (next (some t)) (next' (some t))) (hnone : Embeds s Terminated Q (next none) (next' none)) :
    Embeds s Terminated Q (Reader.accept kind >>= next) (Reader.accept kind >>= next') :=
  after_acceptIf (fun hs => beq_false_of_ne (h hs).symm) (fun t _ => hsome t) hnone

theorem accept {kind : Kind} (h : s.cut = true → kind ≠ .semicolon) : Inside s (Reader.accept kind) (Reader.accept kind) :=
  acceptIf fun hs => beq_false_of_ne (h hs).symm

theorem expect {kind : Kind} (h : s.cut = true → kind ≠ .semicolon) (what : String) :
    Inside s (Reader.expect kind what) (Reader.expect kind what) := by
  refine (accept h).bind fun o => ?_
  cases o with
  | none => exact expected what
  | some t => exact done t

theorem accept_of_missing {kind : Kind} {c : Cursor} (h : ∀ t ∈ c.rest.head?, (t.kind == kind) = false) :
    Reader.accept kind c = .ok none c := Parses.acceptIf_of_refuses h

theorem accept_of_found {kind : Kind} {c : Cursor} {t : Token} {rest : List Token} (hr : c.rest = t :: rest)
    (hk : (t.kind == kind) = true) : Reader.accept kind c = .ok (some t) { c with rest := rest } :=
  Parses.acceptIf_of_passes hr hk

theorem expect_of_missing {kind : Kind} {what : String} {c : Cursor} (h : ∀ t ∈ c.rest.head?, (t.kind == kind) = false) :
    Reader.expect kind what c = Reader.expected what c := by
  unfold Reader.expect
  simp only [Bind.bind, EStateM.bind, accept_of_missing h]

/-- Behind a token that spans semicolons nothing is cut. -/
theorem after_spanning {kind : Kind} {what : String} {next next' : Token → Reader β} (hk : kind.spansSemicolons = true)
    (h : s.cut = false → ∀ t, Embeds s Terminated Q (next t) (next' t)) :
    Embeds s Terminated Q (Reader.expect kind what >>= next) (Reader.expect kind what >>= next') := by
  cases hs : s.cut with
  | false => exact (expect (by simp [hs]) what).bind (h hs)
  | true =>
    have hfails : Embeds s Terminated (fun _ => False) (Reader.expect kind what) (Reader.expect kind what) := by
      intro c hc
      have hother : ∀ t ∈ c.rest.head?, (t.kind == kind) = false := by
        refine fun t ht => beq_false_of_ne fun hkind => ?_
        have hpeek : c.peek = t := by rw [Cursor.peek, ht, Option.getD_some]
        have hwhole := Excerpt.whole_of_spans hc (by rw [hpeek, hkind, hk])
        rw [hs] at hwhole
        cases hwhole
      rw [AgreesAt, expect_of_missing hother, expect_of_missing (Excerpt.head_within hc ▸ hother)]
      exact expected what c hc
    exact hfails.bind fun t c hc => ((Excerpt.holds_cut hs).mp hc).elim

end Embeds

section Lists

variable {item item' : Reader α} (h : Inside s item item') (what : String)

include h

theorem inside_separated {m m' : Nat} (hm : m ≤ m') (count : Nat) :
    Inside s (separated what item m count) (separated what item' m' count) := by
  induction m generalizing m' count with
  | zero => exact .exhausted
  | succ m ih =>
    obtain ⟨m', rfl⟩ := Nat.exists_eq_add_of_le' hm
    have hitem : Inside s (itemAndOthers what item m count) (itemAndOthers what item' (m' + m) count) := by
      refine h.bind fun a => Embeds.after_accept (by simp) (fun t => ?_) (.done _)
      exact (ih (Nat.le_add_left m m') (count + 1)).bind fun as => .done _
    rw [← Nat.add_assoc, separated_succ, separated_succ]
    split
    · refine Embeds.after_get fun c hc => ?_
      rw [Excerpt.peek_within hc]
      exact (Embeds.report c.peek _).bind (fun _ => hitem) c hc
    · exact hitem

theorem inside_listed {m m' : Nat} (hm : m ≤ m') : Inside s (listed what item m) (listed what item' m') := by
  refine (Embeds.check _).bind fun b => ?_
  split
  · exact .done _
  · exact inside_separated h what hm 0

end Lists

end Reader

namespace Grammar

open Reader

variable {s : Excerpt} {nested nested' operand operand' : Reader Expr} {n n' : Nat}

theorem inside_primary (h : Inside s nested nested') : Inside s (primary nested) (primary nested') := by
  refine Embeds.after_get fun c hc => ?_
  rw [Excerpt.peek_within hc]
  dsimp only
  split
  all_goals rename_i hk
  iterate 5 exact Embeds.after_advance hc (by simp [hk]) (.done _)
  · exact Embeds.after_advance hc (by simp [hk]) (Embeds.fresh.bind fun _ => .done _)
  · exact Embeds.after_advance hc (by simp [hk]) (Embeds.fresh.bind fun _ => .done _)
  · refine Embeds.after_advance hc (by simp [hk]) ((Embeds.expect (by simp) _).bind fun _ => ?_)
    exact (Embeds.expect (by simp) _).bind fun method => Embeds.fresh.bind fun _ => .done _
  · refine Embeds.after_advance hc (by simp [hk]) (h.bind fun inner => ?_)
    exact (Embeds.expect (by simp) _).bind fun _ => .done _
  · exact Embeds.expected _ c hc

theorem inside_suffixes (h : Inside s nested nested') (hn : n ≤ n') (e : Expr) :
    Inside s (suffixes nested n e) (suffixes nested' n' e) := by
  induction n generalizing n' e with
  | zero => exact .exhausted
  | succ n ih =>
    obtain ⟨m, rfl⟩ := Nat.exists_eq_add_of_le' hn
    have hle : n ≤ m + n := Nat.le_add_left n m
    refine (Embeds.accept (by simp)).bind fun o => ?_
    split
    · refine (inside_listed h "arguments" (Nat.succ_le_succ hle)).bind fun arguments => ?_
      exact (Embeds.expect (by simp) _).bind fun paren => ih hle _
    · refine (Embeds.accept (by simp)).bind fun o => ?_
      split
      · exact (Embeds.expect (by simp) _).bind fun name => ih hle _
      · exact .done e

theorem inside_call (h : Inside s nested nested') (hn : n ≤ n') : Inside s (call nested n) (call nested' n') :=
  (inside_primary h).bind fun e => inside_suffixes h hn e

theorem inside_unary (h : Inside s nested nested') (hn : n ≤ n') : Inside s (unary nested n) (unary nested' n') := by
  induction n generalizing n' with
  | zero => exact .exhausted
  | succ n ih =>
    obtain ⟨m, rfl⟩ := Nat.exists_eq_add_of_le' hn
    refine Embeds.after_acceptIf (fun _ => rfl) (fun operator _ => ?_) (inside_call h hn)
    exact (ih (Nat.le_add_left n m)).bind fun e => .done _

section Levels

variable {isOperator : Kind → Bool} {node : Expr → Token → Expr → Expr} (hsemicolon : isOperator .semicolon = false)
  (h : Inside s operand operand')

include hsemicolon h

theorem inside_chain (hn : n ≤ n') (left : Expr) :
    Inside s (chain isOperator node operand n left) (chain isOperator node operand' n' left) := by
  induction n generalizing n' left with
  | zero => exact .exhausted
  | succ n ih =>
    obtain ⟨m, rfl⟩ := Nat.exists_eq_add_of_le' hn
    refine Embeds.after_acceptIf (fun _ => hsemicolon) (fun operator _ => ?_) (.done left)
    exact h.bind fun right => ih (Nat.le_add_left n m) _

theorem inside_level (hn : n ≤ n') : Inside s (level isOperator node operand n) (level isOperator node operand' n') :=
  h.bind fun left => inside_chain hsemicolon h hn left

end Levels

/-- What tells a step from a sum is in front of the semicolon. -/
theorem doubles_within {c : Cursor} {sign : Token} (hc : s.Holds Terminated c) (hsign : sign.kind ≠ .semicolon) :
    doubles sign (c.within s).rest = doubles sign c.rest := by
  cases hs : s.cut with
  | false => rw [Excerpt.within_whole hs ((Excerpt.holds_whole hs).mp hc)]
  | true =>
    obtain ⟨rest, stop, faults, nextId⟩ := c
    cases (Excerpt.holds_cut hs).mp hc with
    | last hlast => simp [Cursor.within, doubles, hlast, Ne.symm hsign]
    | cons _ _ hrest => cases hrest <;> rfl

theorem inside_step (target : Expr) (sign : Token) : Inside s (step target sign) (step target sign) := by
  unfold step
  split
  · exact Embeds.fresh.bind fun _ => .done _
  · exact .failAt _ _

theorem inside_sums (h : Inside s operand operand') (hn : n ≤ n') (left : Expr) :
    Inside s (sums operand n left) (sums operand' n' left) := by
  induction n generalizing n' left with
  | zero => exact .exhausted
  | succ n ih =>
    obtain ⟨m, rfl⟩ := Nat.exists_eq_add_of_le' hn
    refine Embeds.after_acceptIf (fun _ => rfl) (fun sign hsign => Embeds.after_get fun c hc => ?_) (.done left)
    have hne : sign.kind ≠ .semicolon := fun hk => by
      rw [hk] at hsign
      cases hsign
    rw [doubles_within hc hne]
    split
    · rename_i hdoubles
      refine Embeds.after_advance hc ?_ (inside_step left sign)
      unfold doubles at hdoubles
      split at hdoubles
      · rename_i again rest hrest
        rw [Cursor.peek, hrest]
        simp_all
      · cases hdoubles
    · exact h.bind (fun right => ih (Nat.le_add_left n m) _) c hc

theorem inside_term (h : Inside s nested nested') (hn : n ≤ n') : Inside s (term nested n) (term nested' n') :=
  have hfactor : Inside s (factor nested n) (factor nested' n') := inside_level rfl (inside_unary h hn) hn
  hfactor.bind fun e => inside_sums hfactor hn e

theorem inside_disjunction (h : Inside s nested nested') (hn : n ≤ n') :
    Inside s (disjunction nested n) (disjunction nested' n') :=
  inside_level rfl (inside_level rfl (inside_level rfl (inside_level rfl (inside_term h hn) hn) hn) hn) hn

theorem inside_assignTo (target : Expr) (equals : Token) (value : Expr) :
    Inside s (assignTo target equals value) (assignTo target equals value) := by
  unfold assignTo
  split
  · exact Embeds.fresh.bind fun _ => .done _
  · exact .done _
  · exact (Embeds.report equals _).bind fun _ => .done _

theorem inside_expression (hn : n ≤ n') : Inside s (expression n) (expression n') := by
  induction n generalizing n' with
  | zero => exact .exhausted
  | succ n ih =>
    obtain ⟨m, rfl⟩ := Nat.exists_eq_add_of_le' hn
    have hnested := ih (Nat.le_add_left n m)
    refine (inside_disjunction hnested hn).bind fun target => Embeds.after_accept (by simp) (fun equals => ?_) (.done target)
    exact hnested.bind fun value => inside_assignTo target equals value

end Grammar

end LoxLang
