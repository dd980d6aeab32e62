import LoxLang.Proofs.Derivation.Omission
import LoxLang.Proofs.Derivation.Program

/-! Optional terminators change no program that has them all. What is read without some of them is read with all of them
put in, and the last semicolon of a program may always be left out. Everywhere the statements are the same up to node
ids. -/

namespace LoxLang

/-- The second list is the first with semicolons put in. -/
inductive WithSemicolons : List Token → List Token → Prop
  | nil : WithSemicolons [] []
  | keep (t : Token) {ts more : List Token} : WithSemicolons ts more → WithSemicolons (t :: ts) (t :: more)
  | put (line : Nat) {ts more : List Token} : WithSemicolons ts more →
    WithSemicolons ts (⟨.semicolon, ";", line⟩ :: more)

namespace WithSemicolons

theorem refl : ∀ ts, WithSemicolons ts ts
  | [] => .nil
  | t :: ts => .keep t (refl ts)

theorem append {ts more ts' more' : List Token} (h : WithSemicolons ts more) (h' : WithSemicolons ts' more') :
    WithSemicolons (ts ++ ts') (more ++ more') := by
  induction h with
  | nil => exact h'
  | keep t _ ih => exact .keep t ih
  | put line _ ih => exact .put line ih

theorem piecewise : Piecewise WithSemicolons := ⟨refl, append⟩

theorem mem {ts more : List Token} (h : WithSemicolons ts more) : ∀ t ∈ more, t ∈ ts ∨ t.kind = .semicolon := by
  induction h with
  | nil => exact fun t ht => .inl ht
  | keep u _ ih =>
    intro t ht
    rcases List.mem_cons.mp ht with rfl | ht
    · exact .inl List.mem_cons_self
    · exact (ih t ht).imp_left (List.mem_cons_of_mem u)
  | put line _ ih =>
    intro t ht
    rcases List.mem_cons.mp ht with rfl | ht
    · exact .inr rfl
    · exact ih t ht

end WithSemicolons

namespace Terminator

/-- The end with its semicolon. -/
def filled : Terminator true → Terminator false
  | written t => .written t
  | missing _ => .written ⟨⟨.semicolon, ";", 1⟩, by simp⟩

theorem tokens_filled (d : Terminator true) : WithSemicolons d.tokens d.filled.tokens := by
  cases d with
  | written t => exact .refl _
  | missing h => exact .put 1 .nil

end Terminator

section Ends

variable {lenient : Bool} {ts behind : List Token} {nextId : NodeId} {statements : List Stmt}

/-- Tokens go up to the first end mark, if there is one. -/
theorem exists_end (tokens : List Token) : ∃ ts behind, tokens = ts ++ behind ∧ (∀ t ∈ ts, t.kind ≠ .eof) ∧
    ∀ t ∈ behind.head?, t.kind = .eof := by
  refine ⟨tokens.takeWhile fun t => !t.isEof, tokens.dropWhile fun t => !t.isEof, List.takeWhile_append_dropWhile.symm,
    fun t ht hk => ?_, fun t ht => ?_⟩
  · have h := List.mem_takeWhile_imp ht
    simp [Token.isEof, hk] at h
  · have h := List.head?_dropWhile_not (fun t : Token => !t.isEof) tokens
    rw [ht] at h
    simpa [Token.isEof] using h

/-- What stands behind the end mark does not matter, and a missing end mark is added. -/
theorem Cursor.exists_ofTokens_eq (hts : ∀ t ∈ ts, t.kind ≠ .eof) (hbehind : ∀ t ∈ behind.head?, t.kind = .eof) :
    ∃ stop : Token, stop.kind = .eof ∧ ofTokens (ts ++ behind) nextId = ofTokens (ts ++ [stop]) nextId := by
  have hahead : ∀ t ∈ ts, t.isEof = false := fun t ht => beq_eq_false_iff_ne.mpr (hts t ht)
  have hrest : (ts ++ behind).takeWhile (fun t => !t.isEof) = ts ++ behind.takeWhile (fun t => !t.isEof) :=
    List.takeWhile_append_of_pos fun t ht => by simp [hahead t ht]
  have hfind : (ts ++ behind).find? Token.isEof = behind.find? Token.isEof := by
    rw [List.find?_append, List.find?_eq_none.mpr fun t ht => by simp [hahead t ht], Option.none_or]
  cases behind with
  | nil =>
    refine ⟨⟨.eof, "", (ts.getLast?.map Token.line).getD 1⟩, rfl, ?_⟩
    rw [ofTokens_append hts rfl, ofTokens, hrest, hfind]
    simp
  | cons stop rest =>
    have hstop : stop.kind = .eof := hbehind stop rfl
    have hend : stop.isEof = true := beq_iff_eq.mpr hstop
    refine ⟨stop, hstop, ?_⟩
    rw [ofTokens_append hts hstop, ofTokens, hrest, hfind]
    simp [hend]

theorem Parsed.exists_program_eq (hts : ∀ t ∈ ts, t.kind ≠ .eof) (hbehind : ∀ t ∈ behind.head?, t.kind = .eof) :
    ∃ stop : Token, stop.kind = .eof ∧
      program lenient (ts ++ behind) nextId = program lenient (ts ++ [stop]) nextId := by
  obtain ⟨stop, hstop, h⟩ := Cursor.exists_ofTokens_eq hts hbehind
  exact ⟨stop, hstop, by rw [program, run, h, program, run]⟩

theorem Parsed.derivation_of_program_ends (hts : ∀ t ∈ ts, t.kind ≠ .eof) (hbehind : ∀ t ∈ behind.head?, t.kind = .eof)
    (h : (Parsed.program lenient (ts ++ behind) nextId).result = .ok statements) :
    ∃ d : DeclarationsDerivation lenient, d.tokens = ts ∧ Stmt.unnumberedEach statements = d.trees := by
  obtain ⟨stop, hstop, hsame⟩ := exists_program_eq hts hbehind
  rw [hsame] at h
  exact derivation_of_program hts hstop h

/-- Read as these statements, up to node ids. -/
def ReadsAs (lenient : Bool) (tokens : List Token) (nextId : NodeId) (statements : List Stmt) : Prop :=
  ∃ read, (Parsed.program lenient tokens nextId).result = .ok read ∧
    Stmt.unnumberedEach read = Stmt.unnumberedEach statements

/-- What has a derivation that is clear to the end is read as its trees. -/
theorem ReadsAs.of_clear (d : DeclarationsDerivation lenient) (hd : d.tokens = ts) (hclear : lenient = true → d.Clear [])
    (htrees : d.trees = Stmt.unnumberedEach statements) (hts : ∀ t ∈ ts, t.kind ≠ .eof)
    (hbehind : ∀ t ∈ behind.head?, t.kind = .eof) : ReadsAs lenient (ts ++ behind) nextId statements := by
  subst hd
  obtain ⟨stop, hstop, hsame⟩ := Parsed.exists_program_eq hts hbehind
  have htakes := Grammar.takes_program_of_clear (c := ⟨_, stop, [], nextId⟩) d rfl (Nat.lt_succ_self _) hclear
  obtain ⟨read, hread, hd⟩ := Parsed.run_of_takes hts hstop htakes
  exact ⟨read, by rw [hsame]; exact hread, hd.trans htrees⟩

end Ends

section Leniency

variable {ts behind : List Token} {i j : NodeId} {statements : List Stmt}

/-- Where all semicolons are there, none is missed. -/
theorem ReadsAs.lenient_of_strict (hts : ∀ t ∈ ts, t.kind ≠ .eof) (hbehind : ∀ t ∈ behind.head?, t.kind = .eof)
    (h : (Parsed.program false (ts ++ behind) i).result = .ok statements) :
    ReadsAs true (ts ++ behind) j statements := by
  obtain ⟨d, hd, htrees⟩ := Parsed.derivation_of_program_ends hts hbehind h
  refine .of_clear (d.map .optional) ?_ (fun _ => ?_) ?_ hts hbehind
  · rw [← hd, ← d.tokens_map .eq Terminator.tokens_optional]
  · exact d.clear_map Terminator.tokens_optional_ne_nil
  · rw [d.trees_map, htrees]

/-- Each missing semicolon can be put in. -/
theorem ReadsAs.strict_of_lenient (hts : ∀ t ∈ ts, t.kind ≠ .eof) (hbehind : ∀ t ∈ behind.head?, t.kind = .eof)
    (h : (Parsed.program true (ts ++ behind) i).result = .ok statements) :
    ∃ more, WithSemicolons ts more ∧ ReadsAs false (more ++ behind) j statements := by
  obtain ⟨d, rfl, htrees⟩ := Parsed.derivation_of_program_ends hts hbehind h
  have hmore : WithSemicolons d.tokens (d.map .filled).tokens :=
    d.tokens_map WithSemicolons.piecewise Terminator.tokens_filled
  refine ⟨_, hmore, .of_clear (d.map .filled) rfl nofun ?_ (fun t ht => ?_) hbehind⟩
  · rw [d.trees_map, htrees]
  · rcases hmore.mem t ht with ht | hk
    · exact hts t ht
    · simp [hk]

/-- The last semicolon can be left out. -/
theorem ReadsAs.lenient_without_last {semicolon : Token} (hk : semicolon.kind = .semicolon)
    (hts : ∀ t ∈ ts, t.kind ≠ .eof) (hbehind : ∀ t ∈ behind.head?, t.kind = .eof)
    (h : (Parsed.program false (ts ++ semicolon :: behind) i).result = .ok statements) :
    ReadsAs true (ts ++ behind) j statements := by
  have hall : ∀ t ∈ ts ++ [semicolon], t.kind ≠ .eof := by
    rw [List.forall_mem_append]
    exact ⟨hts, by simp [hk]⟩
  rw [List.append_cons] at h
  obtain ⟨d, hd, htrees⟩ := Parsed.derivation_of_program_ends hall hbehind h
  have homissible : Omissible ts ([] ++ []) := ⟨nofun, fun _ _ _ => rfl⟩
  obtain ⟨d', hd', htrees', hclear⟩ := d.without hk hd homissible
  rw [List.append_nil] at hd'
  exact .of_clear d' hd' (fun _ => hclear) (htrees'.trans htrees.symm) hts hbehind

end Leniency

/-- Optional terminators are conservative, for any list of tokens and any node ids to begin with. What is read with all
semicolons is read as the same statements where they may be missing, also if the semicolon in front of the end is left
out. What is read where they may be missing is read as the same statements with some put in. -/
theorem leniency_conservative (tokens : List Token) (i j : NodeId) (statements : List Stmt) :
    ((Parsed.program false tokens i).result = .ok statements → ReadsAs true tokens j statements) ∧
    ((Parsed.program true tokens i).result = .ok statements →
      ∃ more, WithSemicolons tokens more ∧ ReadsAs false more j statements) ∧
    ∀ (ts behind : List Token) (semicolon : Token), tokens = ts ++ semicolon :: behind → (∀ t ∈ ts, t.kind ≠ .eof) →
      semicolon.kind = .semicolon → (∀ t ∈ behind.head?, t.kind = .eof) →
        (Parsed.program false tokens i).result = .ok statements → ReadsAs true (ts ++ behind) j statements := by
  refine ⟨fun h => ?_, fun h => ?_, ?_⟩
  · obtain ⟨ts, behind, rfl, hts, hbehind⟩ := exists_end tokens
    exact .lenient_of_strict hts hbehind h
  · obtain ⟨ts, behind, rfl, hts, hbehind⟩ := exists_end tokens
    obtain ⟨more, hmore, hread⟩ := ReadsAs.strict_of_lenient hts hbehind h
    exact ⟨more ++ behind, hmore.append (.refl behind), hread⟩
  · rintro ts behind semicolon rfl hts hk hbehind h
    exact .lenient_without_last hk hts hbehind h

/-- The statements of `print x; return;` are read without the last semicolon, and those of `print x return` with some
put in. -/
theorem leniency_conservative_return :
    let name : Token := ⟨.identifier, "x", 1⟩
    let semicolon : Token := ⟨.semicolon, ";", 1⟩
    let stop : Token := ⟨.eof, "", 1⟩
    let first : List Token := [⟨.kwPrint, "print", 1⟩, name]
    let last : Token := ⟨.kwReturn, "return", 1⟩
    let statements : List Stmt := [.print (.read 0 name), .ret last none]
    (Parsed.program false (first ++ [semicolon, last, semicolon, stop]) 0).result = .ok statements ∧
      ReadsAs true (first ++ [semicolon, last, semicolon, stop]) 7 statements ∧
      ReadsAs true (first ++ [semicolon, last, stop]) 7 statements ∧
      (Parsed.program true (first ++ [last, stop]) 0).result = .ok statements ∧
      ∃ more, WithSemicolons (first ++ [last, stop]) more ∧ ReadsAs false more 7 statements := by
  intro name semicolon stop first last statements
  have hstrict : (Parsed.program false (first ++ [semicolon, last, semicolon, stop]) 0).result = .ok statements := by cbv
  have hlenient : (Parsed.program true (first ++ [last, stop]) 0).result = .ok statements := by cbv
  obtain ⟨hall, -, hfront⟩ := leniency_conservative (first ++ [semicolon, last, semicolon, stop]) 0 7 statements
  obtain ⟨-, hput, -⟩ := leniency_conservative (first ++ [last, stop]) 0 7 statements
  refine ⟨hstrict, hall hstrict, ?_, hlenient, hput hlenient⟩
  exact hfront (first ++ [semicolon, last]) [stop] semicolon rfl (by decide) rfl (by simp [stop]) hstrict

end LoxLang
