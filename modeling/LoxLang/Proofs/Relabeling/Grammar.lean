import LoxLang.Proofs.Grammar.Sources
import LoxLang.Proofs.Relabeling.Readers

/-! Programs read from tokens at other lines, with other node ids to hand out. -/

namespace LoxLang

namespace Grammar

open Reader

variable {ρ : Relabeling} {nested : Reader (Option Stmt)} {inner : Reader Stmt}

abbrev FollowsStmt (ρ : Relabeling) (reader : Reader Stmt) : Prop := Follows ρ (Stmt.relabel ρ) reader reader

abbrev FollowsDeclaration (ρ : Relabeling) (reader : Reader (Option Stmt)) : Prop :=
  Follows ρ (Stmt.relabelOption ρ) reader reader

theorem resume_relabel (rest : List Token) : resume (rest.map (Token.relabel ρ)) = (resume rest).map (Token.relabel ρ) := by
  induction rest with
  | nil => rfl
  | cons t rest ih =>
    have hhead : ((rest.map (Token.relabel ρ)).head?.any fun u => startsStatement u.kind) =
        rest.head?.any fun u => startsStatement u.kind := by cases rest <;> simp
    rw [List.map_cons, resume, resume, Token.kind_relabel, hhead, ih]
    split
    · rfl
    · split <;> rfl

theorem follows_recovering (h : FollowsStmt ρ inner) : FollowsDeclaration ρ (recovering inner) := by
  intro c
  unfold recovering
  rw [h c]
  cases inner c with
  | ok s c' => rfl
  | error stop c' =>
    cases stop with
    | exhausted => rfl
    | fault d =>
      have hcursor : { c'.relabel ρ with
          faults := (c'.relabel ρ).faults ++ [d.relabel ρ], rest := resume (c'.relabel ρ).rest } =
            Cursor.relabel ρ { c' with faults := c'.faults ++ [d], rest := resume c'.rest } := by
        simp [Cursor.relabel, resume_relabel]
      exact congrArg (EStateM.Result.ok none) hcursor

theorem follows_terminator (lenient : Bool) (what : String) :
    Follows ρ id (terminator lenient what) (terminator lenient what) := by
  refine (Follows.accept .semicolon).bind fun o => ?_
  cases o with
  | some t => exact .pure ()
  | none =>
    dsimp only [Option.map_none]
    split
    · exact .pure ()
    · exact .expected what

theorem follows_declarations (closes : Kind → Bool) (h : FollowsDeclaration ρ nested) (n : Nat) :
    Follows ρ (Stmt.relabelEach ρ) (declarations closes nested n) (declarations closes nested n) := by
  induction n with
  | zero => exact .exhausted
  | succ n ih =>
    have hrest : Follows ρ (Stmt.relabelEach ρ) (do
        let first ← nested
        let more ← declarations closes nested n
        return first.toList ++ more) (do
        let first ← nested
        let more ← declarations closes nested n
        return first.toList ++ more) := by
      refine h.bind fun first => ih.bind fun more => .done ?_
      cases first <;> rfl
    refine Follows.after_get fun c => ?_
    obtain ⟨_ | ⟨t, rest⟩, stop, faults, nextId⟩ := c
    · exact .pure []
    · change Follows ρ _ (if closes t.kind then _ else _) (if closes (t.relabel ρ).kind then _ else _)
      by_cases hc : closes t.kind = true
      · have hc' : closes (t.relabel ρ).kind = true := hc
        rw [if_pos hc, if_pos hc']
        exact .pure []
      · have hc' : ¬ closes (t.relabel ρ).kind = true := hc
        rw [if_neg hc, if_neg hc']
        exact hrest

theorem follows_block (h : FollowsDeclaration ρ nested) (n : Nat) :
    Follows ρ (Stmt.relabelEach ρ) (block nested n) (block nested n) :=
  (follows_declarations _ h n).bind fun body => (Follows.expect _ _).bind fun _ => .pure body

theorem follows_function (what : String) (h : FollowsDeclaration ρ nested) (n : Nat) :
    Follows ρ (Function.relabel ρ) (function what nested n) (function what nested n) :=
  (Follows.expect _ _).bind fun name => (Follows.expect _ _).bind fun _ =>
    (follows_listed (Follows.expect _ _) "parameters" n).bind fun parameters => (Follows.expect _ _).bind fun _ =>
      (Follows.expect _ _).bind fun _ => (follows_block h n).bind fun body => .pure (Function.mk name parameters body)

theorem follows_methods (h : FollowsDeclaration ρ nested) (n : Nat) :
    Follows ρ (Function.relabelEach ρ) (methods nested n) (methods nested n) := by
  induction n with
  | zero => exact .exhausted
  | succ n ih =>
    refine Follows.after_get fun c => ?_
    obtain ⟨_ | ⟨t, rest⟩, stop, faults, nextId⟩ := c
    · exact .pure []
    · change Follows ρ _ (if t.kind == .rightBrace then _ else _) (if t.kind == .rightBrace then _ else _)
      split
      · exact .pure []
      · exact (follows_function "method" h (n + 1)).bind fun f => ih.bind fun more => .pure (f :: more)

theorem follows_classDeclaration (hρ : ρ.InOrder) (h : FollowsDeclaration ρ nested) (n : Nat) :
    FollowsStmt ρ (classDeclaration nested n) := by
  refine (Follows.expect _ _).bind fun name => (Follows.accept .less).bind fun o => ?_
  have hbody (superclass : Option NameUse) : Follows ρ (Stmt.relabel ρ) (do
      let _ ← expect .leftBrace "'\x7b' before class body"
      let declared ← methods nested n
      let _ ← expect .rightBrace "'\x7d' after class body"
      return Stmt.classDecl name superclass declared) (do
      let _ ← expect .leftBrace "'\x7b' before class body"
      let declared ← methods nested n
      let _ ← expect .rightBrace "'\x7d' after class body"
      return Stmt.classDecl (name.relabel ρ) (superclass.map (NameUse.relabel ρ)) declared) :=
    (Follows.expect _ _).bind fun _ => (follows_methods h n).bind fun declared => (Follows.expect _ _).bind fun _ =>
      .pure (Stmt.classDecl name superclass declared)
  cases o with
  | none => exact hbody none
  | some t => exact (Follows.expect _ _).bind fun superclass => (Follows.fresh hρ).bind fun id => hbody (some ⟨id, superclass⟩)

section Expressions

variable (hρ : ρ.InOrder)

include hρ

theorem follows_varDeclaration (lenient : Bool) (n : Nat) : FollowsStmt ρ (varDeclaration lenient n) := by
  refine (Follows.expect _ _).bind fun name => (Follows.accept .equal).bind fun o => ?_
  cases o with
  | none => exact (follows_terminator _ _).bind fun _ => .pure (Stmt.var name none)
  | some t =>
    exact (follows_expression hρ n).bind fun e => (follows_terminator _ _).bind fun _ => .pure (Stmt.var name (some e))

theorem follows_expressionStatement (lenient : Bool) (n : Nat) : FollowsStmt ρ (expressionStatement lenient n) :=
  (follows_expression hρ n).bind fun e => (follows_terminator _ _).bind fun _ => .pure (Stmt.expression e)

theorem follows_printStatement (lenient : Bool) (n : Nat) : FollowsStmt ρ (printStatement lenient n) :=
  (follows_expression hρ n).bind fun e => (follows_terminator _ _).bind fun _ => .pure (Stmt.print e)

theorem follows_returnStatement (lenient : Bool) (keyword : Token) (n : Nat) :
    Follows ρ (Stmt.relabel ρ) (returnStatement lenient keyword n) (returnStatement lenient (keyword.relabel ρ) n) := by
  refine (Follows.check .semicolon).bind fun b => Follows.atEnd.bind fun b' => ?_
  dsimp only [id]
  split
  · exact (follows_terminator _ _).bind fun _ => .pure (Stmt.ret keyword none)
  · exact (follows_expression hρ n).bind fun e => (follows_terminator _ _).bind fun _ => .pure (Stmt.ret keyword (some e))

theorem follows_branchStatement (h : FollowsStmt ρ inner) (n : Nat) : FollowsStmt ρ (branchStatement inner n) := by
  refine (Follows.expect _ _).bind fun _ => (follows_expression hρ n).bind fun condition => (Follows.expect _ _).bind fun _ =>
    h.bind fun yes => (Follows.accept .kwElse).bind fun o => ?_
  cases o with
  | none => exact .pure (Stmt.branch condition yes none)
  | some t => exact h.bind fun no => .pure (Stmt.branch condition yes (some no))

theorem follows_loopStatement (h : FollowsStmt ρ inner) (n : Nat) : FollowsStmt ρ (loopStatement inner n) :=
  (Follows.expect _ _).bind fun _ => (follows_expression hρ n).bind fun condition => (Follows.expect _ _).bind fun _ =>
    h.bind fun body => .pure (Stmt.loop condition body)

theorem follows_firstClause (lenient : Bool) (n : Nat) :
    Follows ρ (Stmt.relabelOption ρ) (firstClause lenient n) (firstClause lenient n) := by
  refine (Follows.accept .semicolon).bind fun o => ?_
  cases o with
  | some t => exact .pure none
  | none =>
    refine (Follows.accept .kwVar).bind fun o => ?_
    cases o with
    | some t => exact (follows_varDeclaration hρ lenient n).bind fun s => .pure (some s)
    | none => exact (follows_expressionStatement hρ lenient n).bind fun s => .pure (some s)

theorem follows_clause (closes : Kind) (n : Nat) :
    Follows ρ (Option.map (Expr.relabel ρ)) (clause closes n) (clause closes n) := by
  refine (Follows.check closes).bind fun b => ?_
  dsimp only [id]
  split
  · exact .pure none
  · exact (follows_expression hρ n).bind fun e => .pure (some e)

theorem relabel_iteration (id : NodeId) (name : Token) (body : Stmt) :
    (iteration id name body).relabel ρ = iteration (ρ.id id) (name.relabel ρ) (body.relabel ρ) := by
  simp [iteration, copy, Stmt.relabel, Stmt.relabelEach, Expr.relabel, hρ.add, carrier, Token.relabel]

omit hρ in
theorem relabel_counting (initial : Option Stmt) (condition increment : Option Expr) (body : Stmt) :
    (counting initial condition increment body).relabel ρ = counting (Stmt.relabelOption ρ initial)
      (condition.map (Expr.relabel ρ)) (increment.map (Expr.relabel ρ)) (body.relabel ρ) := by
  cases initial <;> cases condition <;> cases increment <;> rfl

theorem follows_countingStatement (lenient : Bool) (h : FollowsStmt ρ inner) (n : Nat) :
    FollowsStmt ρ (countingStatement lenient inner n) := by
  refine (Follows.expect _ _).bind fun _ => (follows_firstClause hρ lenient n).bind fun initial =>
    (follows_clause hρ .semicolon n).bind fun condition => (Follows.expect _ _).bind fun _ =>
      (follows_clause hρ .rightParen n).bind fun increment => (Follows.expect _ _).bind fun _ => h.bind fun body => ?_
  have hplain : Follows ρ (Stmt.relabel ρ) (pure (counting initial condition increment body))
      (pure (counting (Stmt.relabelOption ρ initial) (condition.map (Expr.relabel ρ)) (increment.map (Expr.relabel ρ))
        (body.relabel ρ))) := .done (relabel_counting ..).symm
  cases initial with
  | none => exact hplain
  | some s =>
    cases s with
    | var name value =>
      have hfive : Follows ρ ρ.id countingStatement.freshFive countingStatement.freshFive := fun c =>
        congrArg (EStateM.Result.ok (ρ.id c.nextId)) (by simp [Cursor.relabel, hρ.add])
      refine hfive.bind fun id => .done ?_
      rw [relabel_counting, relabel_iteration hρ]
    | _ => exact hplain

theorem follows_statementWith (lenient : Bool) (hs : FollowsStmt ρ inner) (hd : FollowsDeclaration ρ nested) (n : Nat) :
    FollowsStmt ρ (statementWith lenient inner nested n) := by
  refine Follows.after_get fun c => ?_
  rw [Follows.peek]
  dsimp only
  rw [Token.kind_relabel]
  split
  · exact Follows.advance.bind fun _ => follows_countingStatement hρ lenient hs n
  · exact Follows.advance.bind fun _ => follows_branchStatement hρ hs n
  · exact Follows.advance.bind fun _ => follows_loopStatement hρ hs n
  · exact Follows.advance.bind fun _ => follows_returnStatement hρ lenient _ n
  · exact Follows.advance.bind fun _ => (follows_block hd n).bind fun body => .pure (Stmt.block body)
  · exact Follows.advance.bind fun _ => follows_printStatement hρ lenient n
  · exact follows_expressionStatement hρ lenient n

theorem follows_declarationWith (lenient : Bool) (hs : FollowsStmt ρ inner) (hd : FollowsDeclaration ρ nested) (n : Nat) :
    FollowsDeclaration ρ (declarationWith lenient inner nested n) := by
  refine follows_recovering (Follows.after_get fun c => ?_)
  rw [Follows.peek, Token.kind_relabel]
  split
  · exact Follows.advance.bind fun _ => follows_classDeclaration hρ hd n
  · exact Follows.advance.bind fun _ => (follows_function "function" hd n).bind fun f => .pure (Stmt.function f)
  · exact Follows.advance.bind fun _ => follows_varDeclaration hρ lenient n
  · exact follows_statementWith hρ lenient hs hd n

theorem follows_grammar (lenient : Bool) (n : Nat) :
    FollowsStmt ρ (statement lenient n) ∧ FollowsDeclaration ρ (declaration lenient n) := by
  induction n with
  | zero => exact ⟨.exhausted, .exhausted⟩
  | succ n ih =>
    exact ⟨follows_statementWith hρ lenient ih.1 ih.2 (n + 1), follows_declarationWith hρ lenient ih.1 ih.2 (n + 1)⟩

theorem follows_program (lenient : Bool) (n : Nat) :
    Follows ρ (Stmt.relabelEach ρ) (program lenient n) (program lenient n) :=
  follows_declarations _ (follows_grammar hρ lenient n).2 n

end Expressions

end Grammar

namespace Parsed

variable {ρ : Relabeling} {lenient : Bool} {nextId : NodeId}

/-- What is read, or the faults. -/
def relabel (ρ : Relabeling) (p : Parsed (List Stmt)) : Parsed (List Stmt) where
  result := match p.result with
    | .ok statements => .ok (Stmt.relabelEach ρ statements)
    | .error faults => .error (faults.map (Diagnostic.relabel ρ))
  nextId := ρ.id p.nextId

theorem ofTokens_relabel {ts : List Token} (h : ∃ t ∈ ts, t.isEof = true) (nextId : NodeId) :
    Cursor.ofTokens (ts.map (Token.relabel ρ)) (ρ.id nextId) = (Cursor.ofTokens ts nextId).relabel ρ := by
  have hrest : (ts.map (Token.relabel ρ)).takeWhile (fun t => !t.isEof) =
      (ts.takeWhile fun t => !t.isEof).map (Token.relabel ρ) := by
    rw [List.takeWhile_map]
    rfl
  have hstop : (ts.map (Token.relabel ρ)).find? Token.isEof = (ts.find? Token.isEof).map (Token.relabel ρ) := by
    rw [List.find?_map]
    rfl
  obtain ⟨t, ht⟩ := Option.isSome_iff_exists.mp (List.find?_isSome.mpr h)
  unfold Cursor.ofTokens Cursor.relabel
  rw [hrest, hstop, ht]
  rfl

theorem run_relabel {ts : List Token} (h : ∃ t ∈ ts, t.isEof = true) {reader : Nat → Reader (List Stmt)}
    (hreader : ∀ n, Reader.Follows ρ (Stmt.relabelEach ρ) (reader n) (reader n)) (nextId : NodeId) :
    run reader (ts.map (Token.relabel ρ)) (ρ.id nextId) = (run reader ts nextId).relabel ρ := by
  unfold run
  dsimp only
  rw [ofTokens_relabel h]
  have hlength : ((Cursor.ofTokens ts nextId).relabel ρ).rest.length = (Cursor.ofTokens ts nextId).rest.length :=
    List.length_map _
  rw [hlength, hreader _ _]
  cases reader ((Cursor.ofTokens ts nextId).rest.length + 1) (Cursor.ofTokens ts nextId) with
  | ok statements c =>
    have hempty : (c.faults.map (Diagnostic.relabel ρ)).isEmpty = c.faults.isEmpty := List.isEmpty_map
    simp only [Reader.relabelResult, relabel, Cursor.relabel, hempty]
    cases c.faults.isEmpty <;> rfl
  | error stop c =>
    cases stop with
    | exhausted => rfl
    | fault d => simp [Reader.relabelResult, relabel, Cursor.relabel, Stop.relabel]

/-- A source that differs from another in lines only, read with other node ids to hand out. -/
theorem ofSource_relabel (hρ : ρ.InOrder) {source source' : String}
    (htokens : tokens source' = (tokens source).map (Token.relabel ρ))
    (hlexical : lexicalDiagnostics source' = (lexicalDiagnostics source).map (Diagnostic.relabel ρ)) :
    ofSource (program lenient) source' (ρ.id nextId) = (ofSource (program lenient) source nextId).relabel ρ := by
  have hend : ∃ t ∈ tokens source, t.isEof = true := by
    obtain ⟨ts, stop, h, -, hstop⟩ := tokens_eq source
    exact ⟨stop, by simp [h], by simp [Token.isEof, hstop]⟩
  have hread : program lenient (tokens source') (ρ.id nextId) = (program lenient (tokens source) nextId).relabel ρ := by
    rw [htokens]
    exact run_relabel hend (Grammar.follows_program hρ lenient) nextId
  unfold ofSource
  dsimp only
  rw [hread, hlexical]
  generalize program lenient (tokens source) nextId = parsed
  obtain ⟨result, next⟩ := parsed
  cases lexicalDiagnostics source <;> cases result <;> simp [relabel]

end Parsed

end LoxLang
