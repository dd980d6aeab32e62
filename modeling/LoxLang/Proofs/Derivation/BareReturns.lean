import LoxLang.Proofs.Derivation.Omission
import LoxLang.Proofs.Derivation.Program

/-! Where semicolons are optional, a `return` without one still needs a value in front of a right brace. So whatever is read
has no `return` directly in front of a brace. -/

namespace LoxLang

/-- No right brace is behind a `return` among these tokens, of which the second list is behind the first. -/
def Valued : List Token → List Token → Prop
  | [], _ => True
  | t :: taken, rest =>
    (t.kind = .kwReturn → ∀ u ∈ (taken ++ rest).head?, u.kind ≠ .rightBrace) ∧ Valued taken rest

namespace Valued

variable {taken more rest : List Token} {t : Token}

theorem append : ∀ {taken : List Token}, Valued (taken ++ more) rest ↔ Valued taken (more ++ rest) ∧ Valued more rest
  | [] => by simp [Valued]
  | t :: taken => by
    rw [List.cons_append, Valued, Valued, append, List.append_assoc, and_assoc]

theorem cons (ht : t.kind ≠ .kwReturn) (h : Valued taken rest) : Valued (t :: taken) rest := ⟨fun hk => absurd hk ht, h⟩

theorem of_outside (h : ∀ t ∈ taken, t.kind ∉ Kind.outside) : Valued taken rest := by
  induction taken with
  | nil => trivial
  | cons t taken ih =>
    obtain ⟨ht, htaken⟩ := List.forall_mem_cons.mp h
    exact (ih htaken).cons fun hk => ht (by simp [hk, Kind.outside])

end Valued

namespace Grammar

open Reader Parses

/-- Whatever is read leaves no `return` in front of a brace. -/
def KeepsValued {α : Type} (reader : Reader α) : Prop := Parses reader fun taken rest _ => Valued taken rest

namespace KeepsValued

variable {α β : Type} {reader : Reader α} {next : α → Reader β}

theorem done (a : α) : KeepsValued (pure a : Reader α) := Parses.done fun _ => trivial

theorem bind (h : KeepsValued reader) (hn : ∀ a, KeepsValued (next a)) : KeepsValued (reader >>= next) :=
  Parses.bind h fun _ a => (hn a).weaken fun _ _ _ hmore htaken => Valued.append.mpr ⟨htaken, hmore⟩

theorem accept {kind : Kind} (hk : kind ≠ .kwReturn) : KeepsValued (Reader.accept kind) := by
  have h : KeepsValued (Reader.accept kind >>= pure) := after_accept
    (fun t ht => (done (some t)).weaken fun _ _ _ h => h.cons (ht ▸ hk)) ((done none).weaken fun _ _ _ h _ => h)
  rwa [bind_pure] at h

theorem expect {kind : Kind} (hk : kind ≠ .kwReturn) (what : String) : KeepsValued (Reader.expect kind what) := by
  refine (accept hk).bind fun o => ?_
  cases o with
  | none => exact stops_expected what
  | some t => exact done t

theorem expression (n : Nat) : KeepsValued (Grammar.expression n) :=
  (parses_expression n).weaken fun _ _ _ ⟨d, ht, _⟩ => .of_outside (ht ▸ d.kind_notMem)

theorem terminator (what : String) : KeepsValued (Grammar.terminator true what) := by
  refine (accept (by decide)).bind fun o => ?_
  cases o with
  | none => exact done ()
  | some t => exact done ()

/-- Behind a keyword. -/
theorem after_advance {next : Unit → Reader β} {c : Cursor} {kind : Kind} (hk : c.peek.kind = kind)
    (hne : kind ∉ [Kind.eof, .kwReturn]) (h : KeepsValued (next ())) :
    ParsesAt c (advance >>= next) fun taken rest _ => Valued taken rest := by
  simp only [List.mem_cons, List.not_mem_nil, or_false, not_or] at hne
  exact Parses.after_advance (hk ▸ hne.1) (h.weaken fun _ _ _ hv => hv.cons (hk ▸ hne.2))

/-- A test of what is ahead, with its result. -/
theorem after_check_ahead {α : Type} {kind : Kind} {next : Bool → Reader α} {Q : List Token → List Token → α → Prop}
    (h : ∀ b, Parses (next b) fun taken rest a =>
      ((taken ++ rest).head?.any fun t => t.kind == kind) = b → Q taken rest a) :
    Parses (check kind >>= next) Q := by
  intro c a c' e hf
  have e : next (c.rest.head?.any fun t => t.kind == kind) c = .ok a c' := e
  obtain ⟨hf, h⟩ := h _ c a c' e hf
  refine ⟨hf, fun hc => ?_⟩
  obtain ⟨hs, taken, ht, hQ⟩ := h hc
  exact ⟨hs, taken, ht, hQ (ht ▸ rfl)⟩

theorem varDeclaration (n : Nat) : KeepsValued (Grammar.varDeclaration true n) := by
  refine (expect (by decide) _).bind fun name => (accept (by decide)).bind fun o => ?_
  cases o with
  | none => exact (terminator _).bind fun _ => done _
  | some equals => exact (expression n).bind fun e => (terminator _).bind fun _ => done _

theorem expressionStatement (n : Nat) : KeepsValued (Grammar.expressionStatement true n) :=
  (expression n).bind fun _ => (terminator _).bind fun _ => done _

theorem printStatement (n : Nat) : KeepsValued (Grammar.printStatement true n) :=
  (expression n).bind fun _ => (terminator _).bind fun _ => done _

/-- An optional semicolon is read where there is one. -/
theorem parses_terminator (what : String) : Parses (Grammar.terminator true what) fun taken rest _ =>
    (∃ t, t.kind = .semicolon ∧ taken = [t]) ∨ taken = [] ∧ ∀ t ∈ rest.head?, t.kind ≠ .semicolon := by
  refine after_accept (fun t ht => Parses.done fun rest => .inl ⟨t, ht, rfl⟩) (Parses.done fun rest hnone => ?_)
  exact .inr ⟨rfl, hnone⟩

/-- No value is missing but in front of a semicolon or the end. -/
theorem returnStatement (keyword : Token) (n : Nat) :
    Parses (Grammar.returnStatement true keyword n) fun taken rest _ => Valued (keyword :: taken) rest := by
  refine after_check_ahead fun found => after_atEnd fun ended => ?_
  dsimp only
  split
  · rename_i hbare
    refine (parses_terminator _).bind fun taken _ => Parses.done fun rest hend hended hfound => ?_
    rw [List.append_nil] at *
    rcases hend with ⟨t, ht, rfl⟩ | ⟨rfl, hnone⟩
    · have hhead : ∀ u ∈ ([t] ++ rest).head?, u.kind ≠ .rightBrace := by simp [ht]
      exact ⟨fun _ => hhead, fun hk => by simp [ht] at hk, trivial⟩
    · cases rest with
      | nil => exact ⟨nofun, trivial⟩
      | cons t rest =>
        -- Neither a semicolon nor the end is ahead, so a value was read.
        have hfound : found = false := hfound.symm.trans (beq_false_of_ne (hnone t rfl))
        have hended : ended = false := hended.symm
        simp [hfound, hended] at hbare
  · refine (parses_expression n).bind fun taken e => ((terminator _).bind fun _ => done _).weaken ?_
    rintro more rest - hmore ⟨d, rfl, -⟩ - -
    obtain ⟨t, ts, hd, -⟩ := d.head
    refine ⟨fun _ u hu hk => ?_, Valued.append.mpr ⟨.of_outside d.kind_notMem, hmore⟩⟩
    have hmem : u ∈ d.tokens := by
      rw [hd] at hu ⊢
      cases hu
      exact List.mem_cons_self
    exact d.kind_notMem u hmem (by simp [hk, Kind.outside])

section Nested

variable {inner : Reader Stmt} {nested : Reader (Option Stmt)} {n : Nat}

theorem branchStatement (h : KeepsValued inner) : KeepsValued (Grammar.branchStatement inner n) := by
  refine (expect (by decide) _).bind fun _ => (expression n).bind fun _ => (expect (by decide) _).bind fun _ => ?_
  refine h.bind fun _ => (accept (by decide)).bind fun o => ?_
  cases o with
  | none => exact done _
  | some _ => exact h.bind fun _ => done _

theorem loopStatement (h : KeepsValued inner) : KeepsValued (Grammar.loopStatement inner n) :=
  (expect (by decide) _).bind fun _ => (expression n).bind fun _ => (expect (by decide) _).bind fun _ =>
    h.bind fun _ => done _

theorem firstClause : KeepsValued (Grammar.firstClause true n) := by
  refine (accept (by decide)).bind fun o => ?_
  cases o with
  | some _ => exact done _
  | none =>
    refine (accept (by decide)).bind fun o => ?_
    cases o with
    | some _ => exact (varDeclaration n).bind fun _ => done _
    | none => exact (expressionStatement n).bind fun _ => done _

theorem clause (closes : Kind) : KeepsValued (Grammar.clause closes n) := by
  refine after_check fun b => ?_
  split
  · exact done _
  · exact (expression n).bind fun _ => done _

theorem countingStatement (h : KeepsValued inner) : KeepsValued (Grammar.countingStatement true inner n) := by
  refine (expect (by decide) _).bind fun _ => firstClause.bind fun initial => ?_
  refine (clause _).bind fun _ => (expect (by decide) _).bind fun _ => (clause _).bind fun _ => ?_
  refine (expect (by decide) _).bind fun _ => h.bind fun _ => ?_
  split
  · exact after_idle (fun c => ⟨_, _, rfl⟩) fun _ => done _
  · exact done _

theorem declarations (closes : Kind → Bool) (h : KeepsValued nested) :
    KeepsValued (Grammar.declarations closes nested n) := by
  induction n with
  | zero => exact stops _
  | succ n ih =>
    refine after_get fun c => ?_
    split
    · exact done _ c
    · split
      · exact done _ c
      · exact (h.bind fun _ => ih.bind fun _ => done _) c

theorem block (h : KeepsValued nested) : KeepsValued (Grammar.block nested n) :=
  (declarations _ h).bind fun _ => (expect (by decide) _).bind fun _ => done _

theorem parameters : KeepsValued (listed "parameters" (Reader.expect .identifier "parameter name") n) := by
  refine (parses_listed "parameters" parses_parameter n).weaken fun taken rest names hnames => ?_
  rcases hnames with ⟨rfl, -⟩ | ⟨hnames, -⟩
  · trivial
  · obtain ⟨d, rfl, -⟩ := hnames.names
    exact .of_outside d.kind_notMem

theorem function (what : String) (h : KeepsValued nested) : KeepsValued (Grammar.function what nested n) :=
  (expect (by decide) _).bind fun _ => (expect (by decide) _).bind fun _ => parameters.bind fun _ =>
    (expect (by decide) _).bind fun _ => (expect (by decide) _).bind fun _ => (block h).bind fun _ => done _

theorem methods (h : KeepsValued nested) : KeepsValued (Grammar.methods nested n) := by
  induction n with
  | zero => exact stops _
  | succ n ih =>
    refine after_get fun c => ?_
    split
    · exact done _ c
    · split
      · exact done _ c
      · exact ((function _ h).bind fun _ => ih.bind fun _ => done _) c

theorem classDeclaration (h : KeepsValued nested) : KeepsValued (Grammar.classDeclaration nested n) := by
  refine (expect (by decide) _).bind fun name => (accept (by decide)).bind fun o => ?_
  have hbody : ∀ superclass : Option NameUse, KeepsValued (do
      let _ ← Reader.expect .leftBrace "'\x7b' before class body"
      let declared ← Grammar.methods nested n
      let _ ← Reader.expect .rightBrace "'\x7d' after class body"
      return Stmt.classDecl name superclass declared) := fun _ =>
    (expect (by decide) _).bind fun _ => (methods h).bind fun _ => (expect (by decide) _).bind fun _ => done _
  cases o with
  | none => exact hbody none
  | some less => exact (expect (by decide) _).bind fun superclass => after_fresh fun id => hbody (some ⟨id, superclass⟩)

theorem statementWith (h : KeepsValued inner) (hd : KeepsValued nested) :
    KeepsValued (Grammar.statementWith true inner nested n) := by
  refine after_get fun c => ?_
  dsimp only
  split
  all_goals rename_i hk
  · exact after_advance hk (by decide) (countingStatement h)
  · exact after_advance hk (by decide) (branchStatement h)
  · exact after_advance hk (by decide) (loopStatement h)
  · exact Parses.after_advance (by simp [hk]) (returnStatement _ n)
  · exact after_advance hk (by decide) ((block hd).bind fun _ => done _)
  · exact after_advance hk (by decide) (printStatement n)
  · exact expressionStatement n c

theorem declarationWith (h : KeepsValued inner) (hd : KeepsValued nested) :
    KeepsValued (Grammar.declarationWith true inner nested n) := by
  refine (Parses.recovering (after_get fun c => ?_)).weaken fun taken rest o ⟨s, _, hs⟩ => hs
  split
  all_goals rename_i hk
  · exact after_advance hk (by decide) (classDeclaration hd)
  · exact after_advance hk (by decide) ((function _ hd).bind fun _ => done _)
  · exact after_advance hk (by decide) (varDeclaration n)
  · exact statementWith h hd c

end Nested

theorem grammar (n : Nat) : KeepsValued (statement true n) ∧ KeepsValued (declaration true n) := by
  induction n with
  | zero => exact ⟨stops _, stops _⟩
  | succ n ih => exact ⟨statementWith ih.1 ih.2, declarationWith ih.1 ih.2⟩

theorem program (n : Nat) : KeepsValued (Grammar.program true n) :=
  declarations _ (grammar n).2

end KeepsValued

end Grammar

/-- No program that is read has a `return` in front of a brace. -/
theorem Parsed.valued_of_program {ts : List Token} {stop : Token} {nextId : NodeId} {statements : List Stmt}
    (hts : ∀ t ∈ ts, t.kind ≠ .eof) (hstop : stop.kind = .eof)
    (h : (Parsed.program true (ts ++ [stop]) nextId).result = .ok statements) : Valued ts [] :=
  of_run_eq_ok hts hstop (((Grammar.parses_program _).and (Grammar.KeepsValued.program _)).weaken
    fun _ _ _ ⟨⟨hrest, _⟩, hvalued⟩ => ⟨hrest, hrest ▸ hvalued⟩) h

end LoxLang
