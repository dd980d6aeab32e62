import LoxLang.Proofs.Derivation.Progress
import LoxLang.Proofs.Indexing.Tracking
import LoxLang.Proofs.Relabeling.Grammar

/-! A finger reads any tokens to an answer, and never leaves the list: it stays at the first end mark. So what stands
behind that mark does not matter. -/

namespace LoxLang

open Reader (Follows)

namespace Ended

variable (k : Ended) (nextId : NodeId)

theorem isEof_ahead : ∀ t ∈ k.ahead, t.isEof = false := fun t ht => beq_eq_false_iff_ne.mpr (k.noEnd t ht)

theorem isEof_stop : k.stop.isEof = true := beq_iff_eq.mpr k.isEnd

/-- A cursor stops at the first end mark. -/
theorem ofTokens_eq : Cursor.ofTokens k.tokens nextId = ⟨k.ahead, k.stop, [], nextId⟩ := by
  have hrest : k.tokens.takeWhile (fun t => !t.isEof) = k.ahead := by
    rw [tokens, List.takeWhile_append_of_pos fun t ht => by simp [k.isEof_ahead t ht]]
    simp [k.isEof_stop]
  have hfind : k.tokens.find? Token.isEof = some k.stop := by
    rw [tokens, List.find?_append, List.find?_eq_none.mpr fun t ht => by simp [k.isEof_ahead t ht]]
    simp [k.isEof_stop]
  rw [Cursor.ofTokens, hrest, hfind]
  rfl

theorem findIdx_eq : k.tokens.findIdx Token.isEof = k.ahead.length := by
  have hnone : k.ahead.findIdx Token.isEof = k.ahead.length := by simpa using k.isEof_ahead
  rw [tokens, List.findIdx_append, hnone, if_neg (Nat.lt_irrefl _), List.findIdx_cons, k.isEof_stop, cond_true,
    Nat.zero_add]

end Ended

/-- Tokens with an end mark put behind them, where there is none, are tokens up to an end mark. -/
theorem exists_ended (tokens : List Token) (nextId : NodeId) : ∃ k : Ended, closed tokens = k.tokens ∧
    Cursor.ofTokens tokens nextId = ⟨k.ahead, k.stop, [], nextId⟩ ∧ k.ahead.length ≤ tokens.length := by
  cases hfind : tokens.find? Token.isEof with
  | none =>
    have hnone : ∀ t ∈ tokens, t.isEof = false := by simpa using hfind
    refine ⟨⟨tokens, _, [], fun t ht => beq_eq_false_iff_ne.mp (hnone t ht), rfl⟩, if_neg ?_, ?_, le_rfl⟩
    · rw [Option.any_eq_true]
      rintro ⟨t, ht, hend⟩
      rw [hnone t (List.mem_of_getLast? ht)] at hend
      cases hend
    · have hrest : tokens.takeWhile (fun t => !t.isEof) = tokens := by simpa using hnone
      rw [Cursor.ofTokens, hrest, hfind]
      rfl
  | some stop =>
    obtain ⟨hstop, ahead, behind, rfl, hahead⟩ := List.find?_eq_some_iff_append.mp hfind
    have hnone : ∀ t ∈ ahead, t.kind ≠ .eof := fun t ht => by
      have hopen : t.isEof = false := by simpa using hahead t ht
      exact beq_eq_false_iff_ne.mp hopen
    have hofTokens (behind : List Token) := Ended.ofTokens_eq ⟨ahead, stop, behind, hnone, eq_of_beq hstop⟩ nextId
    have hlength : ahead.length ≤ (ahead ++ stop :: behind).length := by
      rw [List.length_append]
      exact Nat.le_add_right _ _
    unfold closed
    split
    · exact ⟨⟨ahead, stop, behind, hnone, eq_of_beq hstop⟩, rfl, hofTokens behind, hlength⟩
    · exact ⟨⟨ahead, stop, behind ++ [_], hnone, eq_of_beq hstop⟩, List.append_assoc .., hofTokens behind, hlength⟩

namespace Indexed

variable {α : Type}

/-- What was read, unless the finger was off the list or the bound too small. -/
def parsed : EStateM.Result Lift Finger α → Option (Parsed α)
  | .ok a f => some ⟨if f.faults.isEmpty then .ok a else .error f.faults, f.nextId⟩
  | .error (.fault d) f => some ⟨.error (f.faults ++ [d]), f.nextId⟩
  | .error .outside _ | .error .exhausted _ => none

/-- All that the finger did. -/
def trail : EStateM.Result Lift Finger α → List Touch
  | .ok _ f | .error _ f => f.trail

/-- From the first of the tokens the finger reads this answer, and is never past the first end mark. -/
structure Answers (tokens : List Token) (nextId : NodeId) (reader : Indexed α) (answer : Parsed α) : Prop where
  parsed : parsed (reader (.ofTokens tokens nextId)) = some answer
  within : ∀ t ∈ trail (reader (.ofTokens tokens nextId)), t.Within ((closed tokens).findIdx Token.isEof)

theorem Answers.of_tracks {reader : Nat → Reader α} {reader' : Indexed α} {n : Nat}
    (hspends : ∀ n, Spends n 0 (reader n)) (htracks : ∀ (k : Ended) m, m ≤ n → Tracks k 0 (reader m) reader')
    (tokens : List Token) (nextId : NodeId) (hn : tokens.length < n) :
    Answers tokens nextId reader' (Parsed.run reader tokens nextId) := by
  obtain ⟨k, hclosed, hstart, hlength⟩ := exists_ended tokens nextId
  have hstands : Stands k ⟨k.ahead, k.stop, [], nextId⟩ (.ofTokens tokens nextId) :=
    ⟨hclosed, rfl, rfl, Nat.zero_le _, rfl, rfl, nofun⟩
  have hspent := hspends (k.ahead.length + 1) ⟨k.ahead, k.stop, [], nextId⟩ k.isEnd (Nat.lt_succ_self k.ahead.length)
  have hagrees := htracks k (k.ahead.length + 1) (by omega) _ _ hstands
  have hfirst : (closed tokens).findIdx Token.isEof = k.ahead.length := by rw [hclosed, k.findIdx_eq]
  unfold SpendsAt at hspent
  unfold Parsed.run
  rw [hstart]
  dsimp only
  rcases hagrees.cases with ⟨c, hr⟩ | ⟨a, c, f, hr, hr', hf, -⟩ | ⟨d, c, f, hr, hr', hf, -⟩
  · rw [hr] at hspent
    exact hspent.elim
  · refine ⟨?_, ?_⟩
    · rw [hr, hr', Indexed.parsed, hf.faults, hf.nextId]
    · rw [hr', hfirst]
      exact hf.trail
  · refine ⟨?_, ?_⟩
    · rw [hr, hr', Indexed.parsed, hf.faults, hf.nextId]
    · rw [hr', hfirst]
      exact hf.trail

end Indexed

namespace Grammar

open Reader

theorem spends_loneExpression (n : Nat) : Spends n 0 (loneExpression n) := by
  refine Spends.after (spends_expression n) fun e => Spends.after Spends.spends_atEnd fun last => ?_
  split
  · exact Spends.after_get fun c hc hlt => Spends.after (Spends.spends_report _ _) (fun _ => .done e) c hc hlt
  · exact .done e

theorem follows_loneExpression {ρ : Relabeling} (hρ : ρ.InOrder) (n : Nat) : FollowsExpr ρ (loneExpression n) := by
  refine (follows_expression hρ n).bind fun e => Follows.atEnd.bind fun last => ?_
  dsimp only [id]
  split
  · refine Follows.after_get fun c => ?_
    rw [Follows.peek]
    exact (Follows.report c.peek _).bind fun _ => .pure e
  · exact .pure e

end Grammar

namespace Parsed

variable {α : Type}

/-- The answer with all its node ids moved up. -/
def raised (d : Nat) (shift : α → α) (answer : Parsed α) : Parsed α := ⟨answer.result.map shift, answer.nextId + d⟩

/-- The answers are the same from the same node id on, and from different ones they differ by as much in all ids. -/
structure SameUpToIds (shift : Nat → α → α) (read read' : NodeId → Parsed α) : Prop where
  same : ∀ i, read i = read' i
  raised : ∀ i d, read (i + d) = (read' i).raised d (shift d)
  raised' : ∀ i d, read' (i + d) = (read i).raised d (shift d)

theorem run_raised {reader : Nat → Reader α} {shift : α → α} (d : Nat)
    (h : ∀ n, Follows (.shift d) shift (reader n) (reader n)) (tokens : List Token) (i : NodeId) :
    run reader tokens (i + d) = (run reader tokens i).raised d shift := by
  have hfaults : ∀ faults : List Diagnostic, faults.map (Diagnostic.relabel (.shift d)) = faults := fun faults =>
    List.map_id'' (fun fault => by cases fault <;> rfl) faults
  have hstart : Cursor.ofTokens tokens (i + d) = (Cursor.ofTokens tokens i).relabel (.shift d) := by
    have hrest : ∀ ts : List Token, ts.map (Token.relabel (.shift d)) = ts := List.map_id'' fun _ => rfl
    rw [Cursor.relabel, hrest, hfaults]
    rfl
  have hlength : ((Cursor.ofTokens tokens i).relabel (.shift d)).rest.length = (Cursor.ofTokens tokens i).rest.length :=
    List.length_map _
  unfold run
  dsimp only
  rw [hstart, hlength, h]
  cases reader ((Cursor.ofTokens tokens i).rest.length + 1) (Cursor.ofTokens tokens i) with
  | ok a c =>
    simp only [Reader.relabelResult, Cursor.relabel, hfaults]
    cases c.faults.isEmpty <;> rfl
  | error stop c =>
    cases stop with
    | exhausted => rfl
    | fault fault =>
      have hfault := hfaults (c.faults ++ [fault])
      rw [List.map_append] at hfault
      simp only [Reader.relabelResult, Cursor.relabel, Stop.relabel]
      exact congrArg (Parsed.mk · (c.nextId + d)) (congrArg Except.error hfault)

/-- What stands behind the first end mark does not matter. -/
theorem sameUpToIds {reader : Nat → Reader α} {shift : Nat → α → α}
    (h : ∀ d n, Follows (.shift d) (shift d) (reader n) (reader n)) {ts : List Token} {stop : Token} (behind : List Token)
    (hts : ∀ t ∈ ts, t.kind ≠ .eof) (hstop : stop.kind = .eof) :
    SameUpToIds shift (run reader (ts ++ stop :: behind)) (run reader (ts ++ [stop])) := by
  have hsame : ∀ i, run reader (ts ++ stop :: behind) i = run reader (ts ++ [stop]) i := fun i => by
    have hstart := (Ended.ofTokens_eq ⟨ts, stop, behind, hts, hstop⟩ i).trans
      (Ended.ofTokens_eq ⟨ts, stop, [], hts, hstop⟩ i).symm
    change Cursor.ofTokens (ts ++ stop :: behind) i = Cursor.ofTokens (ts ++ [stop]) i at hstart
    rw [run, hstart, run]
  exact ⟨hsame, fun i d => by rw [hsame, run_raised d (h d)], fun i d => by rw [hsame, run_raised d (h d)]⟩

end Parsed

/-- With or without a fault, all tokens are read to an answer, and every bound above their number is enough for it. On
the way no token is read behind the first end mark, the finger never moves past it, and each declaration takes a token.
What stands behind that mark does not matter but to node ids. -/
theorem reading_ends (lenient : Bool) :
    (∀ tokens nextId n, tokens.length < n →
      (closed tokens).findIdx Token.isEof < (closed tokens).length ∧
      Indexed.Answers tokens nextId (Indexed.program lenient n) (Parsed.program lenient tokens nextId) ∧
      Indexed.Answers tokens nextId (Indexed.loneExpression n) (Parsed.expression tokens nextId)) ∧
    ∀ ts stop behind, (∀ t ∈ ts, Token.kind t ≠ .eof) → Token.kind stop = .eof →
      Parsed.SameUpToIds (fun d => Stmt.relabelEach (.shift d)) (Parsed.program lenient (ts ++ stop :: behind))
        (Parsed.program lenient (ts ++ [stop])) ∧
      Parsed.SameUpToIds (fun d => Expr.relabel (.shift d)) (Parsed.expression (ts ++ stop :: behind))
        (Parsed.expression (ts ++ [stop])) := by
  refine ⟨fun tokens nextId n hn => ⟨?_, ?_, ?_⟩, fun ts stop behind hts hstop => ⟨?_, ?_⟩⟩
  · obtain ⟨k, hclosed, -, -⟩ := exists_ended tokens nextId
    rw [hclosed, k.findIdx_eq]
    exact k.lt_length
  · exact .of_tracks (Grammar.spends_program lenient) (fun k m => Indexed.tracks_program lenient) tokens nextId hn
  · exact .of_tracks Grammar.spends_loneExpression (fun k m => Indexed.tracks_loneExpression) tokens nextId hn
  · exact Parsed.sameUpToIds (fun d => Grammar.follows_program (Relabeling.inOrder_shift d) lenient) behind hts hstop
  · exact Parsed.sameUpToIds (fun d => Grammar.follows_loneExpression (Relabeling.inOrder_shift d)) behind hts hstop

/-- `print ) ; 1` with an end mark behind the semicolon and none at the end. -/
theorem reading_ends_inside :
    let ts : List Token := [⟨.kwPrint, "print", 1⟩, ⟨.rightParen, ")", 1⟩, ⟨.semicolon, ";", 1⟩]
    let stop : Token := ⟨.eof, "", 1⟩
    let behind : List Token := [⟨.number .one, "1", 2⟩]
    let tokens := ts ++ stop :: behind
    (tokens.length < 6 ∧ (closed tokens).findIdx Token.isEof < (closed tokens).length ∧
      Indexed.Answers tokens 0 (Indexed.program true 6) (Parsed.program true tokens 0) ∧
      Indexed.Answers tokens 0 (Indexed.loneExpression 6) (Parsed.expression tokens 0)) ∧
    (∀ t ∈ ts, Token.kind t ≠ .eof) ∧ Token.kind stop = .eof ∧
      Parsed.SameUpToIds (fun d => Stmt.relabelEach (.shift d)) (Parsed.program true (ts ++ stop :: behind))
        (Parsed.program true (ts ++ [stop])) ∧
      Parsed.SameUpToIds (fun d => Expr.relabel (.shift d)) (Parsed.expression (ts ++ stop :: behind))
        (Parsed.expression (ts ++ [stop])) := by
  intro ts stop behind tokens
  have hlength : tokens.length < 6 := by decide
  have hts : ∀ t ∈ ts, Token.kind t ≠ .eof := by decide
  have hstop : Token.kind stop = .eof := rfl
  exact ⟨⟨hlength, (reading_ends true).1 tokens 0 6 hlength⟩, hts, hstop, (reading_ends true).2 ts stop behind hts hstop⟩

/-- The semicolon that begins no statement is passed over, and the one behind the end mark is not seen. -/
example : (Indexed.trail (Indexed.program false 4
    (.ofTokens [⟨.semicolon, ";", 1⟩, ⟨.eof, "", 1⟩, ⟨.semicolon, ";", 1⟩] 0))).filter (fun t => t matches .declaration ..) =
      [.declaration 0 1] := by decide

end LoxLang
