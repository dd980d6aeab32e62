import LoxLang.Proofs.Segments.Readers

/-! Statements and declarations in a longer list. A statement that ends in its only semicolon is read to its end and no
further, and a fault inside it is recovered from in front of what stands behind. -/

namespace LoxLang

/-- What is left between two statements. -/
def BetweenStatements (ts : List Token) : Prop := ts = [] ∨ Terminated ts

namespace Grammar

open Reader

variable {s : Excerpt} {α : Type} {inner inner' : Reader Stmt} {nested nested' : Reader (Option Stmt)} {n n' : Nat}
  {Q : List Token → Prop}

/-- Dropping tokens up to a semicolon leaves what stands behind the last one. -/
theorem resume_append {ts : List Token} (h : Terminated ts) (tail : List Token) :
    resume (ts ++ tail) = resume ts ++ tail ∧ BetweenStatements (resume ts) := by
  induction h with
  | last hk => simp [resume, hk, BetweenStatements]
  | @cons t ts hk _ hts ih =>
    have hne : (t.kind == .semicolon) = false := beq_false_of_ne hk
    have hhead : ((ts ++ tail).head?.any fun u => startsStatement u.kind) = ts.head?.any fun u => startsStatement u.kind := by
      cases hts <;> rfl
    rw [List.cons_append, resume, resume, hne, hhead]
    split
    · rename_i h
      cases h
    · split
      · exact ⟨rfl, .inr hts⟩
      · exact ih

theorem embeds_recovering (h : Finishes s inner inner') : Embeds s Terminated BetweenStatements (recovering inner) (recovering inner') := by
  intro c hc
  have hat := h c hc
  unfold AgreesAt recovering at *
  cases e : inner c with
  | ok a c' =>
    rw [e] at hat
    rw [hat.1]
    exact ⟨rfl, hat.2.mono fun _ => .inl⟩
  | error stop c' =>
    rw [e] at hat
    cases stop with
    | exhausted => trivial
    | fault d =>
      obtain ⟨hwithin, hterminated⟩ := hat
      rw [hwithin]
      have hresume : resume (c'.rest ++ s.tail) = resume c'.rest ++ s.tail := by
        cases hs : s.cut with
        | false => rw [s.tail_of_whole hs, List.append_nil, List.append_nil]
        | true => exact (resume_append ((Excerpt.holds_cut hs).mp hterminated) _).1
      refine ⟨congrArg (EStateM.Result.ok none) ?_, ?_⟩
      · simp [Cursor.within, hresume]
      · exact hterminated.move rfl fun hts => (resume_append hts []).2

theorem finishes_terminator (what : String) : Finishes s (terminator false what) (terminator false what) := by
  intro c hc
  by_cases hp : ∀ t ∈ c.rest.head?, (t.kind == .semicolon) = false
  · have hmissing : ∀ {c' : Cursor}, (∀ t ∈ c'.rest.head?, (t.kind == .semicolon) = false) →
        terminator false what c' = (expected what : Reader Unit) c' := by
      intro c' hc'
      unfold terminator
      simp only [Bind.bind, EStateM.bind, Embeds.accept_of_missing hc']
      rfl
    rw [AgreesAt, hmissing hp, hmissing (Excerpt.head_within hc ▸ hp)]
    exact Embeds.expected what c hc
  · cases hr : c.rest with
    | nil =>
      rw [hr] at hp
      exact absurd (by simp) hp
    | cons t rest =>
      have hp : (t.kind == .semicolon) = true := by
        rw [hr] at hp
        simpa using hp
      have hwithin : (c.within s).rest = t :: (rest ++ s.tail) := by rw [Cursor.within, hr, List.cons_append]
      have hfound : ∀ {c' : Cursor} {rest : List Token}, c'.rest = t :: rest →
          terminator false what c' = .ok () { c' with rest := rest } := by
        intro c' rest hr
        unfold terminator
        simp only [Bind.bind, EStateM.bind, Embeds.accept_of_found hr hp]
        rfl
      rw [AgreesAt, hfound hr, hfound hwithin]
      refine ⟨rfl, hc.move rfl fun hterminated => ?_⟩
      rw [hr] at hterminated
      cases hterminated with
      | last => rfl
      | cons hk => exact absurd (eq_of_beq hp) hk

section Simple

variable (hn : n ≤ n')

include hn

theorem finishes_varDeclaration : Finishes s (varDeclaration false n) (varDeclaration false n') := by
  refine (Embeds.expect (by simp) _).bind fun name => Embeds.after_accept (by simp) (fun _ => ?_) ?_
  · exact (inside_expression hn).bind fun e => (finishes_terminator _).bind fun _ => .done _
  · exact (finishes_terminator _).bind fun _ => .done _

theorem finishes_expressionStatement : Finishes s (expressionStatement false n) (expressionStatement false n') :=
  (inside_expression hn).bind fun _ => (finishes_terminator _).bind fun _ => .done _

theorem finishes_printStatement : Finishes s (printStatement false n) (printStatement false n') :=
  (inside_expression hn).bind fun _ => (finishes_terminator _).bind fun _ => .done _

theorem finishes_returnStatement (keyword : Token) :
    Finishes s (returnStatement false keyword n) (returnStatement false keyword n') := by
  refine (Embeds.check _).bind fun b => Embeds.atEnd.bind fun b' => ?_
  dsimp only
  split
  · exact (finishes_terminator _).bind fun _ => .done _
  · exact (inside_expression hn).bind fun e => (finishes_terminator _).bind fun _ => .done _

theorem inside_clause (closes : Kind) : Inside s (clause closes n) (clause closes n') := by
  refine (Embeds.check _).bind fun b => ?_
  split
  · exact .done _
  · exact (inside_expression hn).bind fun e => .done _

/-- The first clause ends in a semicolon, so nothing is cut. -/
theorem inside_firstClause (hs : s.cut = false) : Inside s (firstClause false n) (firstClause false n') := by
  refine Embeds.after_accept (by simp [hs]) (fun _ => .done _) (Embeds.after_accept (by simp) (fun _ => ?_) ?_)
  · exact ((finishes_varDeclaration hn).of_whole hs).bind fun _ => .done _
  · exact ((finishes_expressionStatement hn).of_whole hs).bind fun _ => .done _

end Simple

section Statements

variable (h : Finishes s inner inner') (hn : n ≤ n')

include h hn

theorem finishes_branchStatement : Finishes s (branchStatement inner n) (branchStatement inner' n') := by
  refine (Embeds.expect (by simp) _).bind fun _ => (inside_expression hn).bind fun condition => ?_
  refine (Embeds.expect (by simp) _).bind fun _ => h.bind fun yes => ?_
  cases hs : s.cut with
  | false =>
    refine Embeds.of_whole (P := Terminated) (Q := Terminated) hs (Embeds.after_accept (by simp) (fun _ => ?_) (.done _))
    exact (h.bind fun no => .done _).of_whole hs
  | true =>
    -- At the end of what is cut no `else` follows, neither alone nor in the longer list.
    intro c hc
    have hend : c.rest = [] := (Excerpt.holds_cut hs).mp hc
    have hnone : ∀ t ∈ c.rest.head?, (t.kind == .kwElse) = false := by simp [hend]
    have hnone' : ∀ t ∈ (c.within s).rest.head?, (t.kind == .kwElse) = false := by
      rw [Cursor.within, hend]
      exact fun t ht => beq_false_of_ne (s.no_else t ht)
    unfold AgreesAt
    simp only [Bind.bind, EStateM.bind, Embeds.accept_of_missing hnone, Embeds.accept_of_missing hnone']
    exact ⟨rfl, hc⟩

theorem finishes_loopStatement : Finishes s (loopStatement inner n) (loopStatement inner' n') :=
  (Embeds.expect (by simp) _).bind fun _ => (inside_expression hn).bind fun condition =>
    (Embeds.expect (by simp) _).bind fun _ => h.bind fun body => .done _

theorem finishes_countingStatement (hs : s.cut = false) :
    Finishes s (countingStatement false inner n) (countingStatement false inner' n') := by
  refine (Embeds.expect (by simp) _).bind fun _ => (inside_firstClause hn hs).bind fun initial => ?_
  refine (inside_clause hn _).bind fun condition => (Embeds.expect (by simp [hs]) _).bind fun _ => ?_
  refine (inside_clause hn _).bind fun increment => (Embeds.expect (by simp) _).bind fun _ => h.bind fun body => ?_
  have hfive : Embeds s (· = []) (· = []) countingStatement.freshFive countingStatement.freshFive :=
    Embeds.idle fun c _ => ⟨c.nextId, { c with nextId := c.nextId + 5 }, rfl, rfl, rfl, rfl⟩
  split
  · exact hfive.bind fun _ => .done _
  · exact .done _

end Statements

section Bodies

variable (h : Embeds s Terminated BetweenStatements nested nested')

include h

/-- Declarations in a row, where nothing is cut. -/
theorem inside_declarations (hs : s.cut = false) (closes : Kind → Bool) {m m' : Nat} (hm : m ≤ m') :
    Inside s (declarations closes nested m) (declarations closes nested' m') := by
  induction m generalizing m' with
  | zero => exact .exhausted
  | succ m ih =>
    obtain ⟨m', rfl⟩ := Nat.exists_eq_add_of_le' hm
    refine Embeds.after_get fun c hc => ?_
    have hrest : (c.within s).rest = c.rest := by rw [Excerpt.within_whole hs ((Excerpt.holds_whole hs).mp hc)]
    rw [hrest]
    split
    · exact Embeds.done _ c hc
    · split
      · exact Embeds.done _ c hc
      · refine (Embeds.bind (Q := Terminated) (h.of_whole hs) fun first => ?_) c hc
        exact (ih (Nat.le_add_left m m')).bind fun more => .done _

variable (hn : n ≤ n')

include hn

theorem inside_block (hs : s.cut = false) : Inside s (block nested n) (block nested' n') :=
  (inside_declarations h hs _ hn).bind fun body => (Embeds.expect (by simp) _).bind fun _ => .done _

/-- A function has a body in braces, so nothing is cut behind its head. -/
theorem embeds_function (what : String) : Embeds s Terminated Q (function what nested n) (function what nested' n') := by
  refine (Embeds.expect (by simp) _).bind fun name => (Embeds.expect (by simp) _).bind fun _ => ?_
  refine (inside_listed (Embeds.expect (by simp) _) _ hn).bind fun parameters => (Embeds.expect (by simp) _).bind fun _ => ?_
  refine Embeds.after_spanning rfl fun hs _ => Embeds.of_whole (P := Terminated) (Q := Terminated) hs ?_
  exact (inside_block h hn hs).bind fun body => .done _

theorem inside_methods (hs : s.cut = false) : Inside s (methods nested n) (methods nested' n') := by
  induction n generalizing n' with
  | zero => exact .exhausted
  | succ n ih =>
    obtain ⟨m, rfl⟩ := Nat.exists_eq_add_of_le' hn
    refine Embeds.after_get fun c hc => ?_
    have hrest : (c.within s).rest = c.rest := by rw [Excerpt.within_whole hs ((Excerpt.holds_whole hs).mp hc)]
    rw [hrest]
    split
    · exact Embeds.done _ c hc
    · split
      · exact Embeds.done _ c hc
      · exact ((embeds_function h hn "method").bind fun f => (ih (Nat.le_add_left n m)).bind fun fs => .done _) c hc

theorem embeds_classDeclaration : Embeds s Terminated Q (classDeclaration nested n) (classDeclaration nested' n') := by
  refine (Embeds.expect (by simp) _).bind fun name => ?_
  have hbody : ∀ superclass : Option NameUse, Embeds s Terminated Q (do
      let _ ← expect .leftBrace "'\x7b' before class body"
      let declared ← methods nested n
      let _ ← expect .rightBrace "'\x7d' after class body"
      return Stmt.classDecl name superclass declared) (do
      let _ ← expect .leftBrace "'\x7b' before class body"
      let declared ← methods nested' n'
      let _ ← expect .rightBrace "'\x7d' after class body"
      return Stmt.classDecl name superclass declared) := fun superclass => by
    refine Embeds.after_spanning rfl fun hs _ => Embeds.of_whole (P := Terminated) (Q := Terminated) hs ?_
    exact (inside_methods h hn hs).bind fun declared => (Embeds.expect (by simp) _).bind fun _ => .done _
  refine Embeds.after_accept (by simp) (fun _ => ?_) (hbody none)
  exact (Embeds.expect (by simp) _).bind fun superclass => Embeds.fresh.bind fun id => hbody (some ⟨id, superclass⟩)

end Bodies

section Grammar

variable (hs : Finishes s inner inner') (hd : Embeds s Terminated BetweenStatements nested nested') (hn : n ≤ n')

include hs hd hn

theorem finishes_statementWith :
    Finishes s (statementWith false inner nested n) (statementWith false inner' nested' n') := by
  refine Embeds.after_get fun c hc => ?_
  have hwhole := Excerpt.whole_of_spans hc
  rw [Excerpt.peek_within hc]
  dsimp only
  split
  all_goals rename_i hk
  · exact Embeds.after_advance hc (by simp [hk]) (finishes_countingStatement hs hn (hwhole (by simp [hk, Kind.spansSemicolons])))
  · exact Embeds.after_advance hc (by simp [hk]) (finishes_branchStatement hs hn)
  · exact Embeds.after_advance hc (by simp [hk]) (finishes_loopStatement hs hn)
  · exact Embeds.after_advance hc (by simp [hk]) (finishes_returnStatement hn _)
  · have hwhole := hwhole (by simp [hk, Kind.spansSemicolons])
    have hblock : Inside s (block nested n >>= fun body => pure (Stmt.block body))
        (block nested' n' >>= fun body => pure (Stmt.block body)) := (inside_block hd hn hwhole).bind fun body => .done _
    exact Embeds.after_advance hc (by simp [hk]) (hblock.of_whole hwhole)
  · exact Embeds.after_advance hc (by simp [hk]) (finishes_printStatement hn)
  · exact finishes_expressionStatement hn c hc

theorem embeds_declarationWith :
    Embeds s Terminated BetweenStatements (declarationWith false inner nested n) (declarationWith false inner' nested' n') := by
  refine embeds_recovering (Embeds.after_get fun c hc => ?_)
  rw [Excerpt.peek_within hc]
  split
  all_goals rename_i hk
  · exact Embeds.after_advance hc (by simp [hk]) (embeds_classDeclaration hd hn)
  · exact Embeds.after_advance hc (by simp [hk]) ((embeds_function hd hn "function").bind fun f => .done _)
  · exact Embeds.after_advance hc (by simp [hk]) (finishes_varDeclaration hn)
  · exact finishes_statementWith hs hd hn c hc

end Grammar

theorem embeds_grammar (hn : n ≤ n') : Finishes s (statement false n) (statement false n') ∧
    Embeds s Terminated BetweenStatements (declaration false n) (declaration false n') := by
  induction n generalizing n' with
  | zero => exact ⟨.exhausted, .exhausted⟩
  | succ n ih =>
    obtain ⟨m, rfl⟩ := Nat.exists_eq_add_of_le' hn
    obtain ⟨hs, hd⟩ := ih (Nat.le_add_left n m)
    exact ⟨finishes_statementWith hs hd hn, embeds_declarationWith hs hd hn⟩

end Grammar

end LoxLang
