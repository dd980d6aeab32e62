import LoxLang.Proofs.Indexing.Readers
import LoxLang.Proofs.Derivation.Complete

/-! A finger stands where a cursor is: at the first of the tokens ahead, and never past the first end mark. A reader with
a finger tracks a reader with a cursor if they read the same from there and stand at the same place again. -/

namespace LoxLang

/-- Tokens up to an end mark, and what is behind it. -/
structure Ended where
  ahead : List Token
  stop : Token
  behind : List Token
  noEnd : ∀ t ∈ ahead, t.kind ≠ .eof
  isEnd : stop.kind = .eof

def Ended.tokens (k : Ended) : List Token := k.ahead ++ k.stop :: k.behind

theorem Ended.lt_length (k : Ended) : k.ahead.length < k.tokens.length := by
  rw [Ended.tokens, List.length_append, List.length_cons]
  omega

/-- The touch is not past the index, and if it is a declaration, it moved on. -/
def Touch.Within (last : Nat) : Touch → Prop
  | read i => i ≤ last
  | move i => i ≤ last
  | declaration i j => i < j ∧ j ≤ last

namespace Indexed

/-- The finger is at the first of the tokens ahead of the cursor. -/
structure Stands (k : Ended) (c : Cursor) (f : Finger) : Prop where
  tokens : f.tokens = k.tokens
  rest : c.rest = k.ahead.drop f.current
  stop : c.stop = k.stop
  current : f.current ≤ k.ahead.length
  faults : f.faults = c.faults
  nextId : f.nextId = c.nextId
  trail : ∀ t ∈ f.trail, t.Within k.ahead.length

variable {α β γ : Type} {k : Ended} {c : Cursor} {f : Finger}

namespace Stands

variable (h : Stands k c f)

include h

theorem touch {t : Touch} (ht : t.Within k.ahead.length) : Stands k c (f.touch t) where
  __ := h
  trail := List.forall_mem_cons.mpr ⟨ht, h.trail⟩

theorem report (d : Diagnostic) : Stands k { c with faults := c.faults ++ [d] } (f.report d) where
  __ := h
  faults := congrArg (· ++ [d]) h.faults

theorem numbered (n : Nat) : Stands k { c with nextId := c.nextId + n } { f with nextId := f.nextId + n } where
  __ := h
  nextId := congrArg (· + n) h.nextId

theorem getElem_eq (i : Nat) : f.tokens[f.current + i]? =
    if f.current + i < k.ahead.length then c.rest[i]? else (k.stop :: k.behind)[f.current + i - k.ahead.length]? := by
  rw [h.tokens, Ended.tokens, List.getElem?_append, h.rest, List.getElem?_drop]

theorem current_lt (hne : c.rest ≠ []) : f.current < k.ahead.length := by
  rw [h.rest, Ne, List.drop_eq_nil_iff, Nat.not_le] at hne
  exact hne

theorem current_eq (hend : c.rest = []) : f.current = k.ahead.length := by
  rw [h.rest, List.drop_eq_nil_iff] at hend
  exact Nat.le_antisymm h.current hend

theorem current_unique {f' : Finger} (h' : Stands k c f') : f.current = f'.current := by
  have hlength := congrArg List.length (h.rest.symm.trans h'.rest)
  have hcurrent := h.current
  have hcurrent' := h'.current
  rw [List.length_drop, List.length_drop] at hlength
  omega

theorem peek_eq : f.tokens[f.current]? = some c.peek := by
  have helem := h.getElem_eq 0
  rw [Nat.add_zero] at helem
  rw [helem, Cursor.peek]
  cases hrest : c.rest with
  | nil =>
    have hcurrent := h.current_eq hrest
    rw [if_neg hcurrent.not_lt, hcurrent, Nat.sub_self, h.stop]
    rfl
  | cons t rest =>
    rw [if_pos (h.current_lt (by simp [hrest]))]
    rfl

theorem isEof_peek : c.peek.isEof = c.rest.isEmpty := by
  rw [Cursor.peek]
  cases hrest : c.rest with
  | nil =>
    have hstop : c.stop.isEof = true := beq_iff_eq.mpr (h.stop ▸ k.isEnd)
    exact hstop
  | cons t rest =>
    have ht : t ∈ k.ahead := List.mem_of_mem_drop (h.rest ▸ hrest ▸ List.mem_cons_self)
    exact beq_eq_false_iff_ne.mpr (k.noEnd t ht)

/-- There is a token behind the finger, or at it. -/
theorem exists_behind : ∃ t, k.tokens[f.current - 1]? = some t := by
  have hlt : f.current - 1 < k.tokens.length := ((Nat.sub_le _ 1).trans h.current).trans_lt k.lt_length
  exact ⟨_, List.getElem?_eq_getElem hlt⟩

theorem next {t : Token} {rest : List Token} (hrest : c.rest = t :: rest) : Stands k { c with rest := rest } f.next := by
  have hlt := h.current_lt (by simp [hrest])
  have hdrop : rest = k.ahead.drop (f.current + 1) := by
    rw [← List.drop_drop, ← h.rest, hrest]
    rfl
  exact ⟨h.tokens, hdrop, h.stop, hlt, h.faults, h.nextId, List.forall_mem_cons.mpr ⟨hlt, h.trail⟩⟩

end Stands

/-- The finger yields what can be seen at the cursor, and stays. -/
def Looks (k : Ended) (c : Cursor) (look : Indexed α) (a : α) : Prop :=
  ∀ f, Stands k c f → ∃ f', look f = .ok a f' ∧ Stands k c f' ∧ f'.current = f.current

theorem bind_ok {reader : Indexed α} {next : α → Indexed β} {a : α} {f' : Finger} (h : reader f = .ok a f') :
    (reader >>= next) f = next a f' := by
  simp only [Bind.bind, EStateM.bind, h]

namespace Looks

theorem done (a : α) : Looks k c (pure a) a := fun f h => ⟨f, rfl, h, rfl⟩

theorem bind {look : Indexed α} {next : α → Indexed β} {a : α} {b : β} (h : Looks k c look a) (hn : Looks k c (next a) b) :
    Looks k c (look >>= next) b := by
  intro f hf
  obtain ⟨f₁, hlook, hf₁, hcurrent₁⟩ := h f hf
  obtain ⟨f₂, hnext, hf₂, hcurrent₂⟩ := hn f₁ hf₁
  exact ⟨f₂, (bind_ok hlook).trans hnext, hf₂, hcurrent₂.trans hcurrent₁⟩

/-- What is seen is the token at an index up to the end mark. -/
theorem tokenAt {i : Nat} {t : Token} (hi : i ≤ k.ahead.length) (ht : k.tokens[i]? = some t) :
    Looks k c (tokenAt i) t := by
  intro f h
  refine ⟨f.touch (.read i), ?_, h.touch hi, rfl⟩
  have htoken : (f.touch (.read i)).tokens[i]? = some t := by rw [← ht, ← h.tokens]; rfl
  simp only [Indexed.tokenAt, Indexed.touch, modify, modifyGet, MonadStateOf.modifyGet, EStateM.modifyGet, Bind.bind,
    EStateM.bind, get, getThe, MonadStateOf.get, EStateM.get, htoken]
  rfl

theorem peek : Looks k c peek c.peek := fun f h =>
  tokenAt h.current (h.tokens ▸ h.peek_eq) f h

theorem atEnd : Looks k c atEnd c.rest.isEmpty := by
  intro f h
  have hlook : Looks k c (Indexed.peek >>= fun t => pure t.isEof) c.peek.isEof := peek.bind (done _)
  rw [← h.isEof_peek]
  exact hlook f h

theorem admits (passes : Kind → Bool) : Looks k c (admits passes) (c.rest.head?.any fun t => passes t.kind) := by
  refine atEnd.bind ?_
  cases hrest : c.rest with
  | nil => exact done _
  | cons t rest =>
    have hpeek : c.peek = t := Grammar.peek_of_rest hrest
    exact peek.bind (hpeek ▸ done _)

theorem check (kind : Kind) : Looks k c (check kind) (c.rest.head?.any fun t => t.kind == kind) := admits _

/-- Behind the token at hand the finger sees what is ahead, and the end mark begins no operand. -/
theorem operandNext {again : Token} {rest : List Token} (hrest : c.rest = again :: rest) :
    Looks k c operandNext (rest.head?.any fun t => Grammar.startsOperand t.kind) := by
  intro f h
  have hlt := h.current_lt (by simp [hrest])
  refine ⟨f.touch (.read (f.current + 1)), ?_, h.touch hlt, rfl⟩
  have hsame : (f.tokens[f.current + 1]?.any fun t => Grammar.startsOperand t.kind) =
      rest.head?.any fun t => Grammar.startsOperand t.kind := by
    rw [h.getElem_eq 1, hrest]
    split
    · rw [List.getElem?_cons_succ, List.head?_eq_getElem?]
    · have hlength := congrArg List.length h.rest
      rw [hrest, List.length_cons, List.length_drop] at hlength
      obtain rfl : rest = [] := List.length_eq_zero_iff.mp (by omega)
      have hlast : f.current + 1 - k.ahead.length = 0 := by omega
      simp [hlast, k.isEnd, Grammar.startsOperand]
  exact congrArg (EStateM.Result.ok · _) hsame

theorem doubles (sign : Token) : Looks k c (doubles sign) (Grammar.doubles sign c.rest) := by
  refine (check sign.kind).bind ?_
  cases hrest : c.rest with
  | nil => exact done _
  | cons again rest =>
    rw [Grammar.doubles, List.head?_cons, Option.any_some]
    cases again.kind == sign.kind with
    | false => exact done _
    | true => exact (operandNext hrest).bind (done _)

theorem previous {t : Token} (h : Stands k c f) (ht : k.tokens[f.current - 1]? = some t) : Looks k c previous t :=
  fun f' hf' => tokenAt ((Nat.sub_le _ 1).trans hf'.current) (h.current_unique hf' ▸ ht) f' hf'

/-- Behind a token the finger sees whether reading can go on. -/
theorem atStart {t : Token} (h : Stands k c f) (ht : k.tokens[f.current - 1]? = some t) : Looks k c atStart
    (c.rest.isEmpty || (t.kind == .semicolon || c.rest.head?.any fun u => Grammar.startsStatement u.kind)) := by
  refine atEnd.bind ?_
  cases hrest : c.rest with
  | nil => exact done _
  | cons u rest =>
    have hpeek : c.peek = u := Grammar.peek_of_rest hrest
    refine (previous h ht).bind ?_
    cases t.kind == .semicolon with
    | true => exact done _
    | false => exact peek.bind (hpeek ▸ done _)

end Looks

/-- The two readers have read the same and stand at the same place, the finger no further back than at `low`, or than at
`floor` if there is a fault. -/
def Agrees (k : Ended) (floor low : Nat) : EStateM.Result Stop Cursor α → EStateM.Result Lift Finger α → Prop
  | .ok a c, .ok b f => a = b ∧ Stands k c f ∧ low ≤ f.current
  | .error (.fault d) c, .error (.fault d') f => d = d' ∧ Stands k c f ∧ floor ≤ f.current
  | .error .exhausted _, _ => True
  | _, _ => False

def TracksAt (k : Ended) (j : Nat) (c : Cursor) (reader : Reader α) (reader' : Indexed α) : Prop :=
  ∀ f, Stands k c f → Agrees k f.current (f.current + j) (reader c) (reader' f)

/-- The second reader tracks the first one, and takes at least `j` tokens. -/
def Tracks (k : Ended) (j : Nat) (reader : Reader α) (reader' : Indexed α) : Prop := ∀ c, TracksAt k j c reader reader'

/-- The first reader may have exhausted its bound. Otherwise both have read the same, or have the same fault. -/
theorem Agrees.cases {floor low : Nat} {r : EStateM.Result Stop Cursor α} {r' : EStateM.Result Lift Finger α}
    (h : Agrees k floor low r r') : (∃ c, r = .error .exhausted c) ∨
      (∃ a c f, r = .ok a c ∧ r' = .ok a f ∧ Stands k c f ∧ low ≤ f.current) ∨
      ∃ d c f, r = .error (.fault d) c ∧ r' = .error (.fault d) f ∧ Stands k c f ∧ floor ≤ f.current := by
  match r, r', h with
  | .ok a c, .ok _ f, ⟨rfl, hf, hlow⟩ => exact .inr (.inl ⟨a, c, f, rfl, rfl, hf, hlow⟩)
  | .error (.fault d) c, .error (.fault _) f, ⟨rfl, hf, hfloor⟩ => exact .inr (.inr ⟨d, c, f, rfl, rfl, hf, hfloor⟩)
  | .error .exhausted c, _, _ => exact .inl ⟨c, rfl⟩

theorem Agrees.weaken {floor low floor' low' : Nat} {r : EStateM.Result Stop Cursor α} {r' : EStateM.Result Lift Finger α}
    (h : Agrees k floor low r r') (hfloor : floor' ≤ floor) (hlow : low' ≤ low) : Agrees k floor' low' r r' := by
  rcases h.cases with ⟨c, rfl⟩ | ⟨a, c, f, rfl, rfl, hf, hle⟩ | ⟨d, c, f, rfl, rfl, hf, hle⟩
  · trivial
  · exact ⟨rfl, hf, hlow.trans hle⟩
  · exact ⟨rfl, hf, hfloor.trans hle⟩

section Rules

variable {i j : Nat} {reader : Reader α} {reader' : Indexed α} {next : α → Reader β} {next' : α → Indexed β}

theorem TracksAt.weaken (h : TracksAt k i c reader reader') (hle : j ≤ i) : TracksAt k j c reader reader' := fun f hf =>
  (h f hf).weaken le_rfl (Nat.add_le_add_left hle _)

/-- Tokens taken by the first of two readers count, and those taken by the second. -/
theorem TracksAt.bind_add (h : TracksAt k i c reader reader') (hn : ∀ a, Tracks k j (next a) (next' a)) :
    TracksAt k (i + j) c (reader >>= next) (reader' >>= next') := by
  intro f hf
  simp only [Bind.bind, EStateM.bind]
  rcases (h f hf).cases with ⟨c', hr⟩ | ⟨a, c', f', hr, hr', hf', hlow⟩ | ⟨d, c', f', hr, hr', hf', hfloor⟩
  · rw [hr]
    trivial
  · rw [hr, hr']
    exact (hn a c' f' hf').weaken (by omega) (by omega)
  · rw [hr, hr']
    exact ⟨rfl, hf', hfloor⟩

namespace Tracks

theorem weaken (h : Tracks k i reader reader') (hle : j ≤ i) : Tracks k j reader reader' := fun c => (h c).weaken hle

/-- Only the tokens that the second reader takes count. -/
theorem bind (h : Tracks k i reader reader') (hn : ∀ a, Tracks k j (next a) (next' a)) :
    Tracks k j (reader >>= next) (reader' >>= next') := fun c =>
  ((h c).bind_add hn).weaken (Nat.le_add_left j i)

/-- Only the tokens that the first reader takes count. -/
theorem first (h : Tracks k i reader reader') (hn : ∀ a, Tracks k 0 (next a) (next' a)) :
    Tracks k i (reader >>= next) (reader' >>= next') := fun c => (h c).bind_add hn

theorem done (a : α) : Tracks k 0 (pure a) (pure a) := fun _ _ hf => ⟨rfl, hf, le_rfl⟩

theorem exhausted : Tracks k j (Reader.exhausted : Reader α) reader' := fun _ _ _ => trivial

theorem failAt (t : Token) (cause : SyntaxFault) :
    Tracks k j (Reader.failAt t cause : Reader α) (Indexed.failAt t cause) := fun _ _ hf => ⟨rfl, hf, le_rfl⟩

end Tracks

theorem TracksAt.after_get {next : Cursor → Reader α} (h : TracksAt k j c (next c) reader') :
    TracksAt k j c (get >>= next) reader' := h

/-- The finger looks, and the cursor need not. -/
theorem TracksAt.after_look {look : Indexed γ} {a : γ} {next' : γ → Indexed α} (hlook : Looks k c look a)
    (h : TracksAt k j c reader (next' a)) : TracksAt k j c reader (look >>= next') := by
  intro f hf
  obtain ⟨f', heq, hf', hcurrent⟩ := hlook f hf
  have hagrees := h f' hf'
  rw [hcurrent] at hagrees
  rwa [bind_ok heq]

namespace Tracks

/-- Both see the token at hand. -/
theorem after_peek {next : Cursor → Reader β} {next' : Token → Indexed β} (h : ∀ c, TracksAt k j c (next c) (next' c.peek)) :
    Tracks k j (get >>= next) (peek >>= next') := fun c => TracksAt.after_look .peek (h c)

/-- Both see whether the sign is at hand again, with no operand behind it. -/
theorem after_doubles (sign : Token) {next : Cursor → Reader β} {next' : Bool → Indexed β}
    (h : ∀ c, TracksAt k j c (next c) (next' (Grammar.doubles sign c.rest))) :
    Tracks k j (get >>= next) (Indexed.doubles sign >>= next') := fun c => TracksAt.after_look (.doubles sign) (h c)

/-- Both only look. -/
theorem of_looks {look : Indexed α} {a : Cursor → α} (hlooks : ∀ c, Looks k c look (a c))
    (hreader : ∀ c, reader c = .ok (a c) c) : Tracks k 0 reader look := fun c f hf => by
  obtain ⟨f', heq, hf', hcurrent⟩ := hlooks c f hf
  rw [hreader, heq]
  exact ⟨rfl, hf', hcurrent.ge⟩

theorem check (kind : Kind) : Tracks k 0 (Reader.check kind) (check kind) := of_looks (fun _ => .check kind) fun _ => rfl

theorem atEnd : Tracks k 0 Reader.atEnd atEnd := of_looks (fun _ => .atEnd) fun _ => rfl

theorem expected (what : String) : Tracks k j (Reader.expected what : Reader α) (Indexed.expected what) :=
  after_peek fun _ => failAt _ _ _

theorem fresh : Tracks k 0 Reader.fresh fresh := fun _ _ hf => ⟨hf.nextId.symm, hf.numbered 1, le_rfl⟩

theorem report (t : Token) (cause : SyntaxFault) : Tracks k 0 (Reader.report t cause) (Indexed.report t cause) :=
  fun _ _ hf => ⟨rfl, hf.report _, le_rfl⟩

end Tracks

end Rules

section Steps

variable {t : Token} {rest : List Token} (h : Stands k c f)

include h

/-- The finger moves to the next token, and yields the one passed over. -/
theorem Stands.advance_eq (hrest : c.rest = t :: rest) : ∃ f', advance f = .ok t f' ∧
    Stands k { c with rest := rest } f' ∧ f'.current = f.current + 1 := by
  obtain ⟨f₁, hend, hf₁, hcurrent⟩ := Looks.atEnd f h
  have hnext := hf₁.next hrest
  have ht : k.tokens[f₁.next.current - 1]? = some t := by
    have hpeek := hf₁.peek_eq
    rw [hf₁.tokens, Cursor.peek, hrest] at hpeek
    exact hpeek
  obtain ⟨f₂, hprevious, hf₂, hcurrent₂⟩ :=
    Looks.tokenAt ((Nat.sub_le _ 1).trans hnext.current) ht f₁.next hnext
  refine ⟨f₂, ?_, hf₂, hcurrent₂.trans (congrArg (· + 1) hcurrent)⟩
  rw [hrest] at hend
  exact (bind_ok hend).trans hprevious

/-- At the end mark the finger stays. -/
theorem Stands.advance_at_end (hrest : c.rest = []) : ∃ t f', advance f = .ok t f' ∧ Stands k c f' ∧
    f'.current = f.current := by
  obtain ⟨f₁, hend, hf₁, hcurrent⟩ := Looks.atEnd f h
  obtain ⟨t, ht⟩ := hf₁.exists_behind
  obtain ⟨f₂, hprevious, hf₂, hcurrent₂⟩ := Looks.tokenAt ((Nat.sub_le _ 1).trans hf₁.current) ht f₁ hf₁
  rw [hrest] at hend
  exact ⟨t, f₂, (bind_ok hend).trans hprevious, hf₂, hcurrent₂.trans hcurrent⟩

end Steps

namespace Tracks

variable {j : Nat} {next : Unit → Reader β} {next' : Unit → Indexed β}

theorem skip : Tracks k 0 Reader.advance skip := by
  rintro ⟨_ | ⟨t, rest⟩, stop, faults, nextId⟩ f h
  · obtain ⟨t, f', heq, hf', hcurrent⟩ := h.advance_at_end rfl
    rw [show Indexed.skip f = .ok () f' from bind_ok heq]
    exact ⟨rfl, hf', hcurrent.ge⟩
  · obtain ⟨f', heq, hf', hcurrent⟩ := h.advance_eq rfl
    rw [show Indexed.skip f = .ok () f' from bind_ok heq]
    exact ⟨rfl, hf', Nat.le_of_succ_le hcurrent.ge⟩

/-- The token at hand is passed over, which is not the end mark. -/
theorem after_skip (hk : c.peek.kind ≠ .eof) (h : Tracks k 0 (next ()) (next' ())) :
    TracksAt k 1 c (Reader.advance >>= next) (Indexed.skip >>= next') := by
  intro f hf
  obtain ⟨_ | ⟨t, rest⟩, stop, faults, nextId⟩ := c
  · exact absurd (eq_of_beq hf.isEof_peek) hk
  · obtain ⟨f', heq, hf', hcurrent⟩ := hf.advance_eq rfl
    have hskip : Indexed.skip f = .ok () f' := bind_ok heq
    rw [bind_ok hskip]
    exact (h _ f' hf').weaken (by omega) (by omega)

theorem acceptIf (passes : Kind → Bool) : Tracks k 0 (Reader.acceptIf passes) (acceptIf passes) := by
  intro c f h
  obtain ⟨f₁, hadmits, hf₁, hcurrent⟩ := Looks.admits passes f h
  obtain ⟨_ | ⟨t, rest⟩, stop, faults, nextId⟩ := c
  · rw [show Indexed.acceptIf passes f = .ok none f₁ from bind_ok hadmits]
    exact ⟨rfl, hf₁, hcurrent.ge⟩
  · rw [List.head?_cons, Option.any_some] at hadmits
    cases hp : passes t.kind with
    | false =>
      rw [hp] at hadmits
      rw [show Indexed.acceptIf passes f = .ok none f₁ from bind_ok hadmits, Parses.acceptIf_of_refuses (by simpa using hp)]
      exact ⟨rfl, hf₁, hcurrent.ge⟩
    | true =>
      rw [hp] at hadmits
      obtain ⟨f₂, hadvance, hf₂, hcurrent₂⟩ := hf₁.advance_eq rfl
      have haccept : Indexed.acceptIf passes f = .ok (some t) f₂ := (bind_ok hadmits).trans (bind_ok hadvance)
      rw [haccept, Parses.acceptIf_of_passes rfl hp]
      exact ⟨rfl, hf₂, by omega⟩

theorem accept (kind : Kind) : Tracks k 0 (Reader.accept kind) (accept kind) := acceptIf _

theorem expect (kind : Kind) (what : String) : Tracks k 0 (Reader.expect kind what) (expect kind what) := by
  refine (accept kind).bind fun o => ?_
  cases o with
  | some t => exact done t
  | none => exact expected what

end Tracks

section Recovery

/-- From behind a token the finger finds the place where reading goes on after it. -/
theorem findStart_eq (n : Nat) {t : Token} (ht : k.tokens[f.current - 1]? = some t) (hn : k.ahead.length - f.current < n)
    (h : Stands k c f) : ∃ f', findStart n f = .ok () f' ∧ Stands k { c with rest := Grammar.resume (t :: c.rest) } f' ∧
      f.current ≤ f'.current := by
  induction n generalizing t c f with
  | zero => exact absurd hn (Nat.not_lt_zero _)
  | succ n ih =>
    obtain ⟨f₁, hstart, hf₁, hcurrent₁⟩ := Looks.atStart h ht f h
    obtain ⟨_ | ⟨u, rest⟩, stop, faults, nextId⟩ := c
    · have hresume : Grammar.resume [t] = [] := by simp [Grammar.resume]
      rw [hresume]
      exact ⟨f₁, bind_ok hstart, hf₁, hcurrent₁.ge⟩
    · have hlt := h.current_lt (List.cons_ne_nil u rest)
      rw [List.isEmpty_cons, Bool.false_or] at hstart
      rw [Grammar.resume]
      cases hsemicolon : t.kind == .semicolon with
      | true =>
        rw [hsemicolon] at hstart
        exact ⟨f₁, bind_ok hstart, hf₁, hcurrent₁.ge⟩
      | false =>
        rw [hsemicolon, Bool.false_or] at hstart
        cases hhead : (u :: rest).head?.any fun u => Grammar.startsStatement u.kind with
        | true =>
          rw [hhead] at hstart
          exact ⟨f₁, bind_ok hstart, hf₁, hcurrent₁.ge⟩
        | false =>
          rw [hhead] at hstart
          obtain ⟨f₂, hadvance, hf₂, hcurrent₂⟩ := hf₁.advance_eq rfl
          have hskip : skip f₁ = .ok () f₂ := bind_ok hadvance
          have hu : k.tokens[f₂.current - 1]? = some u := by
            rw [hcurrent₂, Nat.add_sub_cancel, ← hf₁.tokens]
            exact hf₁.peek_eq
          obtain ⟨f₃, hfind, hf₃, hcurrent₃⟩ := ih hu (by omega) hf₂
          have heq : findStart (n + 1) f = findStart n f₂ := (bind_ok hstart).trans (bind_ok hskip)
          exact ⟨f₃, heq.trans hfind, hf₃, by omega⟩

/-- Where the finger goes on after a fault. If there is a token ahead, it moves on. -/
theorem synchronize_eq (h : Stands k c f) : ∃ f', synchronize f = .ok () f' ∧
    Stands k { c with rest := Grammar.resume c.rest } f' ∧ f.current ≤ f'.current ∧
      (c.rest ≠ [] → f.current < f'.current) := by
  have hbound : ∀ f₁ : Finger, f₁.tokens = k.tokens → k.ahead.length - f₁.current < f₁.tokens.length := fun f₁ htokens => by
    rw [htokens]
    exact (Nat.sub_le _ _).trans_lt k.lt_length
  obtain ⟨_ | ⟨t, rest⟩, stop, faults, nextId⟩ := c
  · obtain ⟨u, f₁, hadvance, hf₁, hcurrent₁⟩ := h.advance_at_end rfl
    have hskip : skip f = .ok () f₁ := bind_ok hadvance
    obtain ⟨t, ht⟩ := hf₁.exists_behind
    obtain ⟨f₂, hfind, hf₂, hcurrent₂⟩ := findStart_eq _ ht (hbound f₁ hf₁.tokens) hf₁
    have hresume : Grammar.resume [t] = Grammar.resume [] := by simp [Grammar.resume]
    exact ⟨f₂, (bind_ok hskip).trans hfind, hresume ▸ hf₂, hcurrent₁.ge.trans hcurrent₂, fun hne => absurd rfl hne⟩
  · obtain ⟨f₁, hadvance, hf₁, hcurrent₁⟩ := h.advance_eq rfl
    have hskip : skip f = .ok () f₁ := bind_ok hadvance
    have ht : k.tokens[f₁.current - 1]? = some t := by
      rw [hcurrent₁, Nat.add_sub_cancel, ← h.tokens]
      exact h.peek_eq
    obtain ⟨f₂, hfind, hf₂, hcurrent₂⟩ := findStart_eq _ ht (hbound f₁ hf₁.tokens) hf₁
    exact ⟨f₂, (bind_ok hskip).trans hfind, hf₂, by omega, fun _ => by omega⟩

/-- Where there is a token ahead, a declaration takes one, with or without a fault, and it is said from where to where. -/
def Declares (k : Ended) (reader : Reader (Option Stmt)) (reader' : Indexed (Option Stmt)) : Prop :=
  ∀ c : Cursor, c.rest ≠ [] → TracksAt k 1 c reader reader'

theorem Declares.recovering {reader : Reader Stmt} {reader' : Indexed Stmt} (h : Tracks k 1 reader reader') :
    Declares k (Grammar.recovering reader) (recovering reader') := by
  intro c hne f hf
  have hlt := hf.current_lt hne
  -- The call is kept as one that moved on.
  have hkept : ∀ {c' : Cursor} {f' : Finger} {s : Option Stmt}, caught reader' f = .ok s f' → Stands k c' f' →
      f.current < f'.current → Agrees k f.current (f.current + 1) (.ok s c') (Indexed.recovering reader' f) := by
    intro c' f' s hcaught hf' hmoved
    have heq : Indexed.recovering reader' f = .ok s (f'.touch (.declaration f.current f'.current)) := bind_ok hcaught
    rw [heq]
    exact ⟨rfl, hf'.touch ⟨hmoved, hf'.current⟩, hmoved⟩
  unfold Grammar.recovering
  rcases (h c f hf).cases with ⟨c', hr⟩ | ⟨s, c', f', hr, hr', hf', hmoved⟩ | ⟨d, c', f', hr, hr', hf', hback⟩
  · rw [hr]
    trivial
  · rw [hr]
    exact hkept (by rw [caught, hr']) hf' hmoved
  · obtain ⟨f₁, hsynchronize, hf₁, hle, hmoves⟩ := synchronize_eq (hf'.report d)
    have hcaught : caught reader' f = .ok none f₁ := by
      rw [caught, hr']
      exact bind_ok hsynchronize
    rw [hr]
    refine hkept hcaught hf₁ ?_
    -- At the end mark the finger has passed over all that was ahead of it.
    by_cases hend : c'.rest = []
    · have hcurrent := hf'.current_eq hend
      exact (hlt.trans_eq hcurrent.symm).trans_le hle
    · exact hback.trans_lt (hmoves hend)

end Recovery

end Indexed

end LoxLang
