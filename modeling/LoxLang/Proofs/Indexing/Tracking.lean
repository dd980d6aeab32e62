import LoxLang.Proofs.Indexing.Standing

/-! Each reader with a finger tracks the reader with a cursor, whose bound it may exceed. -/

namespace LoxLang.Indexed

variable {k : Ended} {α : Type} {n m : Nat}

/-- Two bounds, the smaller of which comes to its end first. -/
@[elab_as_elim]
theorem lockstep {motive : ∀ n m : Nat, n ≤ m → Prop} (zero : ∀ m, motive 0 m (Nat.zero_le m))
    (succ : ∀ n m (hle : n + 1 ≤ m + 1), motive n m (Nat.le_of_succ_le_succ hle) → motive (n + 1) (m + 1) hle)
    (n m : Nat) (hle : n ≤ m) : motive n m hle := by
  induction n generalizing m with
  | zero => exact zero m
  | succ n ih =>
    cases m with
    | zero => exact absurd hle (Nat.not_succ_le_zero n)
    | succ m => exact succ n m hle (ih m (Nat.le_of_succ_le_succ hle))

section Lists

variable {item : Reader α} {item' : Indexed α} {j : Nat} (h : Tracks k j item item') (what : String)

/-- One item and those behind it. -/
def itemAndOthers (what : String) (item : Indexed α) (n count : Nat) : Indexed (List α) := do
  let first ← item
  match ← accept .comma with
  | some _ => return first :: (← separated what item n (count + 1))
  | none => return [first]

theorem separated_succ (what : String) (item : Indexed α) (n count : Nat) :
    separated what item (n + 1) count = (do
      if maxArity ≤ count then report (← peek) (.tooMany what)
      itemAndOthers what item n count) := rfl

include h

theorem tracks_separated (count : Nat) (hle : n ≤ m) :
    Tracks k 0 (Reader.separated what item n count) (separated what item' m count) := by
  induction n, m, hle using lockstep generalizing count with
  | zero m => exact .exhausted
  | succ n m hle ih =>
    have hitem : Tracks k 0 (Reader.itemAndOthers what item n count) (itemAndOthers what item' m count) := by
      refine h.bind fun a => (Tracks.accept .comma).bind fun o => ?_
      cases o with
      | none => exact .done [a]
      | some t => exact (ih (count + 1)).bind fun as => .done (a :: as)
    rw [Reader.separated_succ, separated_succ]
    split
    · exact Tracks.after_peek fun c => (Tracks.report c.peek _).bind (fun _ => hitem) c
    · exact hitem

theorem tracks_listed (hle : n ≤ m) : Tracks k 0 (Reader.listed what item n) (listed what item' m) := by
  refine (Tracks.check .rightParen).bind fun b => ?_
  split
  · exact .done []
  · exact tracks_separated h what 0 hle

end Lists

section Expressions

variable {nested : Reader Expr} {nested' : Indexed Expr} (h : Tracks k 1 nested nested')

include h

theorem tracks_primary : Tracks k 1 (Grammar.primary nested) (primary nested') := by
  refine Tracks.after_peek fun c => ?_
  dsimp only
  cases hk : c.peek.kind with
  | kwFalse | kwTrue | kwNil | number | string => exact Tracks.after_skip (by simp [hk]) (.done _)
  | kwThis | identifier => exact Tracks.after_skip (by simp [hk]) (Tracks.fresh.bind fun _ => .done _)
  | kwSuper =>
    exact Tracks.after_skip (by simp [hk]) ((Tracks.expect _ _).bind fun _ => (Tracks.expect _ _).bind fun _ => Tracks.fresh.bind fun _ => .done _)
  | leftParen => exact Tracks.after_skip (by simp [hk]) ((h.weaken (Nat.zero_le 1)).bind fun _ => (Tracks.expect _ _).bind fun _ => .done _)
  | _ => exact Tracks.expected _ c

theorem tracks_suffixes (e : Expr) (hle : n ≤ m) :
    Tracks k 0 (Grammar.suffixes nested n e) (suffixes nested' m e) := by
  induction n, m, hle using lockstep generalizing e with
  | zero m => exact .exhausted
  | succ n m hle ih =>
    refine (Tracks.accept .leftParen).bind fun o => ?_
    split
    · exact (tracks_listed h "arguments" hle).bind fun arguments => (Tracks.expect _ _).bind fun paren => ih _
    · refine (Tracks.accept .dot).bind fun o => ?_
      split
      · exact (Tracks.expect _ _).bind fun name => ih _
      · exact .done e

theorem tracks_call (hle : n ≤ m) : Tracks k 1 (Grammar.call nested n) (call nested' m) :=
  (tracks_primary h).first fun e => tracks_suffixes h e hle

theorem tracks_unary (hle : n ≤ m) : Tracks k 1 (Grammar.unary nested n) (unary nested' m) := by
  induction n, m, hle using lockstep with
  | zero m => exact .exhausted
  | succ n m hle ih =>
    refine (Tracks.acceptIf Grammar.isUnary).bind fun o => ?_
    cases o with
    | none => exact tracks_call h hle
    | some operator => exact ih.first fun e => .done (Expr.unary operator e)

end Expressions

section Levels

variable {operand : Reader Expr} {operand' : Indexed Expr} (h : Tracks k 1 operand operand')

include h

theorem tracks_chain (isOperator : Kind → Bool) (node : Expr → Token → Expr → Expr) (left : Expr) (hle : n ≤ m) :
    Tracks k 0 (Grammar.chain isOperator node operand n left) (chain operand' isOperator node m left) := by
  induction n, m, hle using lockstep generalizing left with
  | zero m => exact .exhausted
  | succ n m hle ih =>
    refine (Tracks.acceptIf isOperator).bind fun o => ?_
    cases o with
    | none => exact .done left
    | some operator => exact h.bind fun right => ih _

theorem tracks_level (isOperator : Kind → Bool) (node : Expr → Token → Expr → Expr) (hle : n ≤ m) :
    Tracks k 1 (Grammar.level isOperator node operand n) (level operand' isOperator node m) :=
  h.first fun left => tracks_chain h isOperator node left hle

omit h in
theorem tracks_step (target : Expr) (sign : Token) : Tracks k 0 (Grammar.step target sign) (step target sign) := by
  cases target with
  | read id name => exact Tracks.fresh.bind fun _ => .done _
  | _ => exact .failAt sign _

theorem tracks_sums (left : Expr) (hle : n ≤ m) :
    Tracks k 0 (Grammar.sums operand n left) (sums operand' m left) := by
  induction n, m, hle using lockstep generalizing left with
  | zero m => exact .exhausted
  | succ n m hle ih =>
    refine (Tracks.acceptIf Grammar.isTerm).bind fun o => ?_
    cases o with
    | none => exact .done left
    | some sign =>
      refine Tracks.after_doubles sign fun c => ?_
      split
      · exact (Tracks.skip.bind fun _ => tracks_step left sign) c
      · exact (h.bind fun right => ih _) c

end Levels

section Expressions

variable {nested : Reader Expr} {nested' : Indexed Expr} (h : Tracks k 1 nested nested')

include h

theorem tracks_disjunction (hle : n ≤ m) : Tracks k 1 (Grammar.disjunction nested n) (disjunction nested' m) :=
  have hfactor : Tracks k 1 (Grammar.factor nested n) (factor nested' m) := tracks_level (tracks_unary h hle) _ _ hle
  have hterm : Tracks k 1 (Grammar.term nested n) (term nested' m) := hfactor.first fun left => tracks_sums hfactor left hle
  have hequality := tracks_level (tracks_level hterm Grammar.isComparison .binary hle) Grammar.isEquality .binary hle
  tracks_level (tracks_level hequality (· == .kwAnd) .logical hle) _ _ hle

omit h in
theorem tracks_assignTo (target : Expr) (equals : Token) (value : Expr) :
    Tracks k 0 (Grammar.assignTo target equals value) (assignTo target equals value) := by
  cases target with
  | read id name => exact Tracks.fresh.bind fun _ => .done _
  | get object name => exact .done _
  | _ => exact (Tracks.report equals _).bind fun _ => .done _

theorem tracks_assignment (hle : n ≤ m) : Tracks k 1 (Grammar.assignment nested n) (assignment nested' m) := by
  refine (tracks_disjunction h hle).first fun target => (Tracks.accept .equal).bind fun o => ?_
  cases o with
  | none => exact .done target
  | some equals => exact h.bind fun value => tracks_assignTo target equals value

end Expressions

theorem tracks_expression (hle : n ≤ m) : Tracks k 1 (Grammar.expression n) (expression m) := by
  induction n, m, hle using lockstep with
  | zero m => exact .exhausted
  | succ n m hle ih => exact tracks_assignment ih hle

section Statements

variable {inner : Reader Stmt} {inner' : Indexed Stmt} {nested : Reader (Option Stmt)} {nested' : Indexed (Option Stmt)}
variable (lenient : Bool)

theorem tracks_terminator (what : String) :
    Tracks k 0 (Grammar.terminator lenient what) (terminator lenient what) := by
  refine (Tracks.accept .semicolon).bind fun o => ?_
  cases o with
  | some t => exact .done ()
  | none =>
    dsimp only
    split
    · exact .done ()
    · exact .expected what

section Bodies

variable (h : Declares k nested nested')

include h

theorem tracks_declarations (closes : Kind → Bool) (hle : n ≤ m) :
    Tracks k 0 (Grammar.declarations closes nested n) (declarations nested' closes m) := by
  induction n, m, hle using lockstep with
  | zero m => exact .exhausted
  | succ n m hle ih =>
    refine fun c => TracksAt.after_get (TracksAt.after_look .atEnd ?_)
    cases hrest : c.rest with
    | nil => exact Tracks.done [] c
    | cons t rest =>
      refine TracksAt.after_look (.admits closes) ?_
      rw [hrest, List.head?_cons, Option.any_some]
      dsimp only
      split
      · exact Tracks.done [] c
      · have hfirst := h c (by simp [hrest])
        refine TracksAt.weaken (hfirst.bind_add (j := 0) fun first => ?_) (Nat.zero_le _)
        exact ih.bind fun more => .done (first.toList ++ more)

theorem tracks_block (hle : n ≤ m) : Tracks k 0 (Grammar.block nested n) (block nested' m) :=
  (tracks_declarations h _ hle).bind fun body => (Tracks.expect _ _).bind fun _ => .done body

theorem tracks_function (what : String) (hle : n ≤ m) :
    Tracks k 0 (Grammar.function what nested n) (function nested' what m) :=
  (Tracks.expect _ _).bind fun name => (Tracks.expect _ _).bind fun _ =>
    (tracks_listed (Tracks.expect _ _) "parameters" hle).bind fun parameters => (Tracks.expect _ _).bind fun _ =>
      (Tracks.expect _ _).bind fun _ => (tracks_block h hle).bind fun body => .done (Function.mk name parameters body)

theorem tracks_methods (hle : n ≤ m) : Tracks k 0 (Grammar.methods nested n) (methods nested' m) := by
  induction n, m, hle using lockstep with
  | zero m => exact .exhausted
  | succ n m hle ih =>
    refine fun c => TracksAt.after_get (TracksAt.after_look .atEnd ?_)
    cases hrest : c.rest with
    | nil => exact Tracks.done [] c
    | cons t rest =>
      refine TracksAt.after_look (.check .rightBrace) ?_
      rw [hrest, List.head?_cons, Option.any_some]
      dsimp only
      split
      · exact Tracks.done [] c
      · exact ((tracks_function h "method" hle).bind fun f => ih.bind fun more =>
          .done (f :: more)) c

theorem tracks_classDeclaration (hle : n ≤ m) :
    Tracks k 0 (Grammar.classDeclaration nested n) (classDeclaration nested' m) := by
  refine (Tracks.expect _ _).bind fun name => (Tracks.accept .less).bind fun o => ?_
  have hbody : ∀ superclass : Option NameUse, Tracks k 0 (do
      let _ ← Reader.expect .leftBrace "'\x7b' before class body"
      let declared ← Grammar.methods nested n
      let _ ← Reader.expect .rightBrace "'\x7d' after class body"
      return Stmt.classDecl name superclass declared) (do
      let _ ← expect .leftBrace "'\x7b' before class body"
      let declared ← methods nested' m
      let _ ← expect .rightBrace "'\x7d' after class body"
      return Stmt.classDecl name superclass declared) := fun superclass =>
    (Tracks.expect _ _).bind fun _ => (tracks_methods h hle).bind fun declared => (Tracks.expect _ _).bind fun _ =>
      .done (Stmt.classDecl name superclass declared)
  cases o with
  | none => exact hbody none
  | some t =>
    exact (Tracks.expect _ _).bind fun superclass => Tracks.fresh.bind fun id => hbody (some ⟨id, superclass⟩)

end Bodies

section Clauses

variable (hle : n ≤ m)

include hle

theorem tracks_varDeclaration : Tracks k 0 (Grammar.varDeclaration lenient n) (varDeclaration lenient m) := by
  refine (Tracks.expect _ _).bind fun name => (Tracks.accept .equal).bind fun o => ?_
  cases o with
  | none => exact (tracks_terminator _ _).bind fun _ => .done (Stmt.var name none)
  | some t =>
    exact (tracks_expression hle).bind fun e => (tracks_terminator _ _).bind fun _ => .done (Stmt.var name (some e))

theorem tracks_expressionStatement :
    Tracks k 1 (Grammar.expressionStatement lenient n) (expressionStatement lenient m) :=
  (tracks_expression hle).first fun e => (tracks_terminator _ _).bind fun _ => .done (Stmt.expression e)

theorem tracks_printStatement : Tracks k 0 (Grammar.printStatement lenient n) (printStatement lenient m) :=
  (tracks_expression hle).bind fun e => (tracks_terminator _ _).bind fun _ => .done (Stmt.print e)

theorem tracks_returnStatement (keyword : Token) :
    Tracks k 0 (Grammar.returnStatement lenient keyword n) (returnStatement lenient keyword m) := by
  refine (Tracks.check .semicolon).bind fun stop => Tracks.atEnd.bind fun last => ?_
  dsimp only
  split
  · exact (tracks_terminator _ _).bind fun _ => .done (Stmt.ret keyword none)
  · exact (tracks_expression hle).bind fun e => (tracks_terminator _ _).bind fun _ => .done (Stmt.ret keyword (some e))

theorem tracks_firstClause : Tracks k 0 (Grammar.firstClause lenient n) (firstClause lenient m) := by
  refine (Tracks.accept .semicolon).bind fun o => ?_
  cases o with
  | some t => exact .done none
  | none =>
    refine (Tracks.accept .kwVar).bind fun o => ?_
    cases o with
    | some t => exact (tracks_varDeclaration lenient hle).bind fun s => .done (some s)
    | none => exact (tracks_expressionStatement lenient hle).bind fun s => .done (some s)

omit lenient in
theorem tracks_clause (closes : Kind) : Tracks k 0 (Grammar.clause closes n) (clause closes m) := by
  refine (Tracks.check closes).bind fun b => ?_
  split
  · exact .done none
  · exact (tracks_expression hle).bind fun e => .done (some e)

variable (h : Tracks k 1 inner inner')

include h

theorem tracks_branchStatement : Tracks k 0 (Grammar.branchStatement inner n) (branchStatement inner' m) := by
  refine (Tracks.expect _ _).bind fun _ => (tracks_expression hle).bind fun condition => (Tracks.expect _ _).bind fun _ =>
    h.bind fun yes => (Tracks.accept .kwElse).bind fun o => ?_
  cases o with
  | none => exact .done (Stmt.branch condition yes none)
  | some t => exact h.bind fun no => .done (Stmt.branch condition yes (some no))

theorem tracks_loopStatement : Tracks k 0 (Grammar.loopStatement inner n) (loopStatement inner' m) :=
  (Tracks.expect _ _).bind fun _ => (tracks_expression hle).bind fun condition => (Tracks.expect _ _).bind fun _ =>
    h.bind fun body => .done (Stmt.loop condition body)

theorem tracks_countingStatement :
    Tracks k 0 (Grammar.countingStatement lenient inner n) (countingStatement lenient inner' m) := by
  refine (Tracks.expect _ _).bind fun _ => (tracks_firstClause lenient hle).bind fun initial =>
    (tracks_clause hle .semicolon).bind fun condition => (Tracks.expect _ _).bind fun _ =>
      (tracks_clause hle .rightParen).bind fun increment => (Tracks.expect _ _).bind fun _ => h.bind fun body => ?_
  have hfive : Tracks k 0 Grammar.countingStatement.freshFive freshFive := fun _ _ hf =>
    ⟨hf.nextId.symm, hf.numbered 5, le_rfl⟩
  cases initial with
  | none => exact .done _
  | some s =>
    cases s with
    | var => exact hfive.bind fun id => .done _
    | _ => exact .done _

variable (hnested : Declares k nested nested')

include hnested

theorem tracks_statementWith :
    Tracks k 1 (Grammar.statementWith lenient inner nested n) (statementWith lenient inner' nested' m) := by
  refine Tracks.after_peek fun c => ?_
  dsimp only
  cases hk : c.peek.kind with
  | kwFor => exact Tracks.after_skip (by simp [hk]) (tracks_countingStatement lenient hle h)
  | kwIf => exact Tracks.after_skip (by simp [hk]) (tracks_branchStatement hle h)
  | kwWhile => exact Tracks.after_skip (by simp [hk]) (tracks_loopStatement hle h)
  | kwReturn => exact Tracks.after_skip (by simp [hk]) (tracks_returnStatement lenient hle _)
  | leftBrace => exact Tracks.after_skip (by simp [hk]) ((tracks_block hnested hle).bind fun body => .done (Stmt.block body))
  | kwPrint => exact Tracks.after_skip (by simp [hk]) (tracks_printStatement lenient hle)
  | _ => exact tracks_expressionStatement lenient hle c

theorem declares_declarationWith :
    Declares k (Grammar.declarationWith lenient inner nested n) (declarationWith lenient inner' nested' m) := by
  refine Declares.recovering (Tracks.after_peek fun c => ?_)
  cases hk : c.peek.kind with
  | kwClass => exact Tracks.after_skip (by simp [hk]) (tracks_classDeclaration hnested hle)
  | kwFunction =>
    exact Tracks.after_skip (by simp [hk]) ((tracks_function hnested "function" hle).bind fun f => .done (Stmt.function f))
  | kwVar => exact Tracks.after_skip (by simp [hk]) (tracks_varDeclaration lenient hle)
  | _ => exact tracks_statementWith lenient hle h hnested c

end Clauses

theorem tracks_grammar (hle : n ≤ m) : Tracks k 1 (Grammar.statement lenient n) (statement lenient m) ∧
    Declares k (Grammar.declaration lenient n) (declaration lenient m) := by
  induction n, m, hle using lockstep with
  | zero m => exact ⟨.exhausted, fun _ _ _ _ => trivial⟩
  | succ n m hle ih =>
    obtain ⟨hs, hd⟩ := ih
    exact ⟨tracks_statementWith lenient hle hs hd, declares_declarationWith lenient hle hs hd⟩

theorem tracks_program (hle : n ≤ m) : Tracks k 0 (Grammar.program lenient n) (program lenient m) :=
  tracks_declarations (tracks_grammar lenient hle).2 _ hle

end Statements

theorem tracks_loneExpression (hle : n ≤ m) : Tracks k 0 (Grammar.loneExpression n) (loneExpression m) := by
  refine (tracks_expression hle).bind fun e => Tracks.atEnd.bind fun last => ?_
  split
  · exact Tracks.after_peek fun c => (Tracks.report c.peek _).bind (fun _ => .done e) c
  · exact .done e

end LoxLang.Indexed
