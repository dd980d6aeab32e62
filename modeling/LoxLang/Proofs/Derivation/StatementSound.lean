import LoxLang.Proofs.Derivation.Sound
import LoxLang.Proofs.Derivation.Statement

/-! What is read as a program has a derivation. A declaration that is left out leaves a fault, so there is none; and
a statement that hangs is never read in front of an `else`. -/

namespace LoxLang

namespace Parses

open Reader

variable {P : List Token → List Token → Stmt → Prop}

/-- Without a fault nothing is left out. -/
theorem recovering {reader : Reader Stmt} (h : Parses reader P) :
    Parses (Grammar.recovering reader) fun taken rest o => ∃ s, o = some s ∧ P taken rest s := by
  intro c o c' e hf
  unfold Grammar.recovering at e
  cases er : reader c with
  | ok s c₁ =>
    simp only [er] at e
    cases e
    obtain ⟨hf, h⟩ := h c s _ er hf
    refine ⟨hf, fun hc => ?_⟩
    obtain ⟨hs, taken, ht, hP⟩ := h hc
    exact ⟨hs, taken, ht, s, rfl, hP⟩
  | error stop c₁ =>
    simp only [er] at e
    cases stop with
    | fault d =>
      cases e
      simp at hf
    | exhausted => cases e

variable {lenient : Bool} {α : Type} {Q : List Token → List Token → α → Prop}

theorem after_terminator {what : String} {next : Unit → Reader α}
    (h : Parses (next ()) fun taken rest a => ∀ d : Terminator lenient, Q (d.tokens ++ taken) rest a) :
    Parses (Grammar.terminator lenient what >>= next) Q := by
  have hend : Parses (Grammar.terminator lenient what) fun taken _ _ => ∃ d : Terminator lenient, taken = d.tokens := by
    refine after_accept (fun t ht => done fun _ => ⟨.written ⟨t, by simp [ht]⟩, rfl⟩) ?_
    dsimp only
    split
    · rename_i h
      exact done fun _ _ => ⟨.missing h, rfl⟩
    · exact stops_expected what
  refine hend.bind fun taken _ => h.weaken fun more rest a hQ ht => ?_
  obtain ⟨d, rfl⟩ := ht
  exact hQ d

end Parses

variable {lenient : Bool}

/-- A statement with a derivation. If it hangs, no `else` follows. -/
def IsStatement (lenient : Bool) (taken rest : List Token) (s : Stmt) : Prop :=
  ∃ (hangs : Bool) (d : StatementDerivation lenient hangs), taken = d.tokens ∧ s.unnumbered = d.tree ∧
    (hangs = true → ∀ t ∈ rest.head?, t.kind ≠ .kwElse)

def IsDeclaration (lenient : Bool) (taken : List Token) (s : Stmt) : Prop :=
  ∃ d : DeclarationDerivation lenient, taken = d.tokens ∧ s.unnumbered = d.tree

/-- Every declaration that is read without a fault has a derivation, and none is left out. -/
def ParsesDeclaration (lenient : Bool) (reader : Reader (Option Stmt)) : Prop :=
  Parses reader fun taken _ o => ∃ s, o = some s ∧ IsDeclaration lenient taken s

def AreDeclarations (lenient : Bool) (taken : List Token) (ss : List Stmt) : Prop :=
  ∃ d : DeclarationsDerivation lenient, taken = d.tokens ∧ Stmt.unnumberedEach ss = d.trees

theorem IsStatement.still {taken rest : List Token} {s : Stmt} (d : StatementDerivation lenient false)
    (ht : taken = d.tokens) (hs : s.unnumbered = d.tree) : IsStatement lenient taken rest s :=
  ⟨false, d, ht, hs, nofun⟩

/-- Names that are separated by commas. -/
theorem Separated.names {taken names : List Token}
    (h : Separated (fun taken t => t.kind = .identifier ∧ taken = [t]) taken names) :
    ∃ d : NameList names.length, taken = d.tokens ∧ names = d.names := by
  induction h with
  | @one taken t h =>
    obtain ⟨hk, rfl⟩ := h
    exact ⟨.one ⟨t, by simp [hk]⟩, rfl, rfl⟩
  | @cons _ _ t _ comma h hcomma _ ih =>
    obtain ⟨hk, rfl⟩ := h
    obtain ⟨d, rfl, hnames⟩ := ih
    refine ⟨.cons ⟨t, by simp [hk]⟩ ⟨comma, by simp [hcomma]⟩ d, rfl, ?_⟩
    rw [NameList.names, ← hnames]

namespace Grammar

open Reader Parses

section Simple

theorem parses_varDeclaration (n : Nat) {keyword : Token} (hk : keyword.kind = .kwVar) :
    Parses (varDeclaration lenient n) fun taken _ s => ∃ v : VariableDerivation lenient,
      keyword :: taken = v.tokens ∧ s.unnumbered = v.tree ∧ ∃ e, s = .var v.name.1 e := by
  refine after_expect fun name hname => after_accept (fun equals hequals => ?_) ?_
  · refine (parses_expression n).bind fun taken e => after_terminator (done fun _ d he => ?_)
    obtain ⟨value, rfl, he⟩ := he
    refine ⟨⟨⟨keyword, by simp [hk]⟩, ⟨name, by simp [hname]⟩, .some ⟨equals, by simp [hequals]⟩ value, d⟩, ?_, ?_, e, rfl⟩
    · simp [VariableDerivation.tokens, InitialValue.tokens]
    · rw [Stmt.unnumbered, Expr.unnumberedOption, he]
      rfl
  · refine after_terminator (done fun _ d _ => ?_)
    refine ⟨⟨⟨keyword, by simp [hk]⟩, ⟨name, by simp [hname]⟩, .none, d⟩, ?_, rfl, none, rfl⟩
    simp [VariableDerivation.tokens, InitialValue.tokens]

theorem parses_expressionStatement (n : Nat) :
    Parses (expressionStatement lenient n) fun taken _ s => ∃ (e : Derivation .expression) (d : Terminator lenient),
      taken = e.tokens ++ d.tokens ∧ s.unnumbered = .expression e.tree ∧ ∃ e', s = .expression e' := by
  refine (parses_expression n).bind fun taken e => after_terminator (done fun _ d he => ?_)
  obtain ⟨e', rfl, he⟩ := he
  exact ⟨e', d, by simp, by rw [Stmt.unnumbered, he], e, rfl⟩

theorem parses_printStatement (n : Nat) {keyword : Token} (hk : keyword.kind = .kwPrint) :
    Parses (printStatement lenient n) fun taken rest s => IsStatement lenient (keyword :: taken) rest s := by
  refine (parses_expression n).bind fun taken e => after_terminator (done fun _ d he => ?_)
  obtain ⟨e', rfl, he⟩ := he
  refine .still (.print ⟨keyword, by simp [hk]⟩ e' d) ?_ ?_
  · simp [StatementDerivation.tokens]
  · rw [Stmt.unnumbered, he]
    rfl

theorem parses_returnStatement (n : Nat) {keyword : Token} (hk : keyword.kind = .kwReturn) :
    Parses (returnStatement lenient keyword n) fun taken rest s => IsStatement lenient (keyword :: taken) rest s := by
  refine after_check fun b => after_atEnd fun b' => ?_
  dsimp only
  split
  · refine after_terminator (done fun _ d _ => ?_)
    exact .still (.ret ⟨keyword, by simp [hk]⟩ none d) (by simp [StatementDerivation.tokens, Derivation.tokensOption]) rfl
  · refine (parses_expression n).bind fun taken e => after_terminator (done fun _ d he _ => ?_)
    obtain ⟨e', rfl, he⟩ := he
    refine .still (.ret ⟨keyword, by simp [hk]⟩ (some e') d) ?_ ?_
    · simp [StatementDerivation.tokens, Derivation.tokensOption]
    · rw [Stmt.unnumbered, Expr.unnumberedOption, he]
      rfl

theorem parses_clause (closes : Kind) (n : Nat) : Parses (clause closes n) fun taken _ e =>
    ∃ d, taken = Derivation.tokensOption d ∧ Expr.unnumberedOption e = Derivation.treeOption d := by
  refine after_check fun b => ?_
  split
  · exact done fun _ => ⟨none, rfl, rfl⟩
  · refine (parses_expression n).bind fun taken e => done fun _ he => ?_
    obtain ⟨d, rfl, he⟩ := he
    exact ⟨some d, by simp [Derivation.tokensOption], by rw [Expr.unnumberedOption, he]; rfl⟩

/-- The first clause decides how the body is wrapped. -/
theorem parses_firstClause (n : Nat) : Parses (firstClause lenient n) fun taken _ initial =>
    ∃ d : FirstClause lenient, taken = d.tokens ∧ ∀ condition increment body id,
      (counting initial condition increment (bodyFor initial id body)).unnumbered =
        d.tree (Expr.unnumberedOption condition) (Expr.unnumberedOption increment) body.unnumbered := by
  refine after_accept (fun semicolon hsemicolon => ?_) (after_accept (fun keyword hk => ?_) ?_)
  · refine done fun _ => ⟨.none ⟨semicolon, by simp [hsemicolon]⟩, rfl, fun condition increment body id => ?_⟩
    exact unnumbered_counting none condition increment body
  · refine (parses_varDeclaration n hk).bind fun taken s => done fun _ hs _ => ?_
    obtain ⟨v, htokens, htree, e, rfl⟩ := hs
    refine ⟨.var v, by simpa [FirstClause.tokens] using htokens, fun condition increment body id => ?_⟩
    rw [unnumbered_counting, Stmt.unnumberedOption, htree]
    rfl
  · refine (parses_expressionStatement n).bind fun taken s => done fun _ hs _ _ => ?_
    obtain ⟨e, ending, rfl, htree, e', rfl⟩ := hs
    refine ⟨.expression e ending, by simp [FirstClause.tokens], fun condition increment body id => ?_⟩
    rw [unnumbered_counting, Stmt.unnumberedOption, htree]
    rfl

end Simple

section Nested

variable {inner : Reader Stmt} {nested : Reader (Option Stmt)}

theorem parses_branchStatement (h : Parses inner (IsStatement lenient)) (n : Nat) {keyword : Token}
    (hk : keyword.kind = .kwIf) :
    Parses (branchStatement inner n) fun taken rest s => IsStatement lenient (keyword :: taken) rest s := by
  refine after_expect fun opening hopening => (parses_expression n).bind fun t₁ condition => ?_
  refine after_expect fun closing hclosing => h.bind fun t₂ yes => after_accept (fun otherwise hotherwise => ?_) ?_
  · refine h.bind fun t₃ no => done fun rest hno hyes hcondition => ?_
    obtain ⟨d₁, rfl, hcondition⟩ := hcondition
    obtain ⟨hangs, d₂, rfl, hyes, hfollow⟩ := hyes
    obtain ⟨hangs', d₃, rfl, hno, hfollow'⟩ := hno
    -- An `else` follows, so the branch before it does not hang.
    cases hangs with
    | true => exact absurd hotherwise (hfollow rfl otherwise rfl)
    | false =>
      refine ⟨hangs', .branchElse ⟨keyword, by simp [hk]⟩ ⟨opening, by simp [hopening]⟩ d₁ ⟨closing, by simp [hclosing]⟩ d₂
        ⟨otherwise, by simp [hotherwise]⟩ d₃, ?_, ?_, by simpa using hfollow'⟩
      · simp [StatementDerivation.tokens]
      · rw [Stmt.unnumbered, Stmt.unnumberedOption, hcondition, hyes, hno]
        rfl
  · refine done fun rest hrest hyes hcondition => ?_
    obtain ⟨d₁, rfl, hcondition⟩ := hcondition
    obtain ⟨hangs, d₂, rfl, hyes, -⟩ := hyes
    refine ⟨true, .branch ⟨keyword, by simp [hk]⟩ ⟨opening, by simp [hopening]⟩ d₁ ⟨closing, by simp [hclosing]⟩ d₂, ?_, ?_,
      fun _ => hrest⟩
    · simp [StatementDerivation.tokens]
    · rw [Stmt.unnumbered, Stmt.unnumberedOption, hcondition, hyes]
      rfl

theorem parses_loopStatement (h : Parses inner (IsStatement lenient)) (n : Nat) {keyword : Token}
    (hk : keyword.kind = .kwWhile) :
    Parses (loopStatement inner n) fun taken rest s => IsStatement lenient (keyword :: taken) rest s := by
  refine after_expect fun opening hopening => (parses_expression n).bind fun t₁ condition => ?_
  refine after_expect fun closing hclosing => h.bind fun t₂ body => done fun rest hbody hcondition => ?_
  obtain ⟨d₁, rfl, hcondition⟩ := hcondition
  obtain ⟨hangs, d₂, rfl, hbody, hfollow⟩ := hbody
  refine ⟨hangs, .loop ⟨keyword, by simp [hk]⟩ ⟨opening, by simp [hopening]⟩ d₁ ⟨closing, by simp [hclosing]⟩ d₂, ?_, ?_,
    by simpa using hfollow⟩
  · simp [StatementDerivation.tokens]
  · rw [Stmt.unnumbered, hcondition, hbody]
    rfl

theorem parses_countingStatement (h : Parses inner (IsStatement lenient)) (n : Nat) {keyword : Token}
    (hk : keyword.kind = .kwFor) :
    Parses (countingStatement lenient inner n) fun taken rest s => IsStatement lenient (keyword :: taken) rest s := by
  refine after_expect fun opening hopening => (parses_firstClause n).bind fun t₁ initial => ?_
  refine (parses_clause .semicolon n).bind fun t₂ condition => after_expect fun semicolon hsemicolon => ?_
  refine (parses_clause .rightParen n).bind fun t₃ increment => after_expect fun closing hclosing => ?_
  refine h.bind fun t₄ body => ?_
  have hdone : ∀ id, Parses (pure (counting initial condition increment (bodyFor initial id body)) : Reader Stmt)
      fun more rest s => IsStatement lenient t₄ (more ++ rest) body →
        (∃ d, t₃ = Derivation.tokensOption d ∧ Expr.unnumberedOption increment = Derivation.treeOption d) →
        (∃ d, t₂ = Derivation.tokensOption d ∧ Expr.unnumberedOption condition = Derivation.treeOption d) →
        (∃ d : FirstClause lenient, t₁ = d.tokens ∧ ∀ condition increment body id,
          (counting initial condition increment (bodyFor initial id body)).unnumbered =
            d.tree (Expr.unnumberedOption condition) (Expr.unnumberedOption increment) body.unnumbered) →
        IsStatement lenient
          (keyword :: opening :: (t₁ ++ (t₂ ++ (semicolon :: (t₃ ++ (closing :: (t₄ ++ more))))))) rest s := by
    refine fun id => done fun rest => ?_
    rintro ⟨hangs, d₄, rfl, hbody, hfollow⟩ ⟨d₃, rfl, hincrement⟩ ⟨d₂, rfl, hcondition⟩ ⟨d₁, rfl, hfirst⟩
    refine ⟨hangs, .counting ⟨keyword, by simp [hk]⟩ ⟨opening, by simp [hopening]⟩ d₁ d₂ ⟨semicolon, by simp [hsemicolon]⟩
      d₃ ⟨closing, by simp [hclosing]⟩ d₄, ?_, ?_, by simpa using hfollow⟩
    · simp [StatementDerivation.tokens]
    · rw [hfirst, hcondition, hincrement, hbody]
      rfl
  cases initial with
  | none => exact hdone 0
  | some s =>
    cases s with
    | var name e => exact after_idle (fun c => ⟨_, _, rfl⟩) hdone
    | _ => exact hdone 0

theorem parses_declarations (closes : Kind → Bool)
    (h : ParsesDeclaration lenient nested) (n : Nat) :
    Parses (declarations closes nested n) fun taken rest ss => AreDeclarations lenient taken ss ∧
      ∀ t ∈ rest.head?, closes t.kind = true := by
  induction n with
  | zero => exact stops _
  | succ n ih =>
    refine after_get fun c => ?_
    split
    · rename_i hrest
      exact done_at ⟨⟨.nil, rfl, rfl⟩, by simp [hrest]⟩
    · rename_i t rest hrest
      split
      · rename_i hcloses
        exact done_at ⟨⟨.nil, rfl, rfl⟩, by simpa [hrest] using hcloses⟩
      · refine (h.bind fun t₁ first => ih.bind fun t₂ more => done fun rest hmore hfirst => ?_) c
        obtain ⟨⟨d₂, rfl, hmore⟩, hend⟩ := hmore
        obtain ⟨s, rfl, d₁, rfl, hs⟩ := hfirst
        refine ⟨⟨.cons d₁ d₂, by simp [DeclarationsDerivation.tokens], ?_⟩, by simpa using hend⟩
        rw [Option.toList_some, List.singleton_append, Stmt.unnumberedEach, hs, hmore]
        rfl

theorem parses_block (h : ParsesDeclaration lenient nested) (n : Nat) :
    Parses (block nested n) fun taken _ ss => ∃ (d : DeclarationsDerivation lenient) (closing : Terminal [.rightBrace]),
      taken = d.tokens ++ [closing.1] ∧ Stmt.unnumberedEach ss = d.trees := by
  refine (parses_declarations _ h n).bind fun t₁ body => after_expect fun closing hclosing => done fun _ hbody => ?_
  obtain ⟨⟨d, rfl, hbody⟩, -⟩ := hbody
  exact ⟨d, ⟨closing, by simp [hclosing]⟩, rfl, hbody⟩

theorem parses_parameter :
    Parses (expect .identifier "parameter name") fun taken _ t => t.kind = .identifier ∧ taken = [t] := by
  unfold expect
  exact after_accept (fun t ht => done fun _ => ⟨ht, rfl⟩) (stops_expected _)

theorem parses_function (what : String)
    (h : ParsesDeclaration lenient nested) (n : Nat) :
    Parses (function what nested n) fun taken _ f => ∃ d : FunctionDerivation lenient,
      taken = d.tokens ∧ f.unnumbered = d.tree := by
  refine after_expect fun name hname => after_expect fun opening hopening => ?_
  refine (parses_listed "parameters" parses_parameter n).bind fun t₁ names => after_expect fun closing hclosing => ?_
  refine after_expect fun brace hbrace => (parses_block h n).bind fun t₂ body => done fun _ hbody hnames => ?_
  obtain ⟨d, closingBrace, rfl, hbody⟩ := hbody
  have hparameters : ∃ p : Parameters, t₁ = p.tokens ∧ names = p.names := by
    rcases hnames with ⟨rfl, rfl⟩ | ⟨hnames, hfew⟩
    · exact ⟨.none, rfl, rfl⟩
    · obtain ⟨d, ht, hd⟩ := hnames.names
      exact ⟨.some d hfew, ht, hd⟩
  obtain ⟨p, rfl, rfl⟩ := hparameters
  refine ⟨.mk ⟨name, by simp [hname]⟩ ⟨opening, by simp [hopening]⟩ p ⟨closing, by simp [hclosing]⟩
    ⟨brace, by simp [hbrace]⟩ d closingBrace, ?_, ?_⟩
  · simp [FunctionDerivation.tokens]
  · rw [Function.unnumbered, hbody]
    rfl

theorem parses_methods (h : ParsesDeclaration lenient nested) (n : Nat) :
    Parses (methods nested n) fun taken _ fs => ∃ d : MethodsDerivation lenient,
      taken = d.tokens ∧ Function.unnumberedEach fs = d.trees := by
  induction n with
  | zero => exact stops _
  | succ n ih =>
    refine after_get fun c => ?_
    split
    · exact done_at ⟨.nil, rfl, rfl⟩
    · split
      · exact done_at ⟨.nil, rfl, rfl⟩
      · refine ((parses_function "method" h (n + 1)).bind fun t₁ f => ih.bind fun t₂ fs => done fun _ hfs hf => ?_) c
        obtain ⟨d₁, rfl, hf⟩ := hf
        obtain ⟨d₂, rfl, hfs⟩ := hfs
        exact ⟨.cons d₁ d₂, by simp [MethodsDerivation.tokens], by rw [Function.unnumberedEach, hf, hfs]; rfl⟩

theorem parses_classDeclaration (h : ParsesDeclaration lenient nested)
    (n : Nat) {keyword : Token} (hk : keyword.kind = .kwClass) :
    Parses (classDeclaration nested n) fun taken _ s => IsDeclaration lenient (keyword :: taken) s := by
  refine after_expect fun name hname => ?_
  -- The part behind the superclass is the same with and without one.
  have hbody : ∀ superclass : Option NameUse, Parses (do
      let _ ← expect .leftBrace "'\x7b' before class body"
      let declared ← methods nested n
      let _ ← expect .rightBrace "'\x7d' after class body"
      return Stmt.classDecl name superclass declared) fun taken _ s => ∀ clause : SuperclassClause,
        superclass.map NameUse.unnumbered = clause.tree →
          IsDeclaration lenient (keyword :: name :: (clause.tokens ++ taken)) s := by
    intro superclass
    refine after_expect fun opening hopening => (parses_methods h n).bind fun t fs => ?_
    refine after_expect fun closing hclosing => done fun _ hfs clause hclause => ?_
    obtain ⟨d, rfl, hfs⟩ := hfs
    refine ⟨.classDecl ⟨keyword, by simp [hk]⟩ ⟨name, by simp [hname]⟩ clause ⟨opening, by simp [hopening]⟩ d
      ⟨closing, by simp [hclosing]⟩, ?_, ?_⟩
    · simp [DeclarationDerivation.tokens]
    · rw [Stmt.unnumbered, hclause, hfs]
      rfl
  refine after_accept (fun less hless => after_expect fun superclass hsuperclass => after_fresh fun id => ?_) ?_
  · refine (hbody (some ⟨id, superclass⟩)).weaken fun taken _ s hs => ?_
    exact hs (.some ⟨less, by simp [hless]⟩ ⟨superclass, by simp [hsuperclass]⟩) rfl
  · exact (hbody none).weaken fun taken _ s hs _ => hs .none rfl

end Nested

/-- Statements are read as such, and declarations. -/
theorem parses_statementWith {inner : Reader Stmt} {nested : Reader (Option Stmt)}
    (hinner : Parses inner (IsStatement lenient))
    (hnested : ParsesDeclaration lenient nested) (n : Nat) :
    Parses (statementWith lenient inner nested n) (IsStatement lenient) := by
  refine after_get fun c => ?_
  dsimp only
  split
  · rename_i hk
    exact after_advance (by simp [hk]) (parses_countingStatement hinner n hk)
  · rename_i hk
    exact after_advance (by simp [hk]) (parses_branchStatement hinner n hk)
  · rename_i hk
    exact after_advance (by simp [hk]) (parses_loopStatement hinner n hk)
  · rename_i hk
    exact after_advance (by simp [hk]) (parses_returnStatement n hk)
  · rename_i hk
    refine after_advance (by simp [hk]) ((parses_block hnested n).bind fun t body => done fun _ hbody => ?_)
    obtain ⟨d, closing, rfl, hbody⟩ := hbody
    refine .still (.block ⟨c.peek, by simp [hk]⟩ d closing) (by simp [StatementDerivation.tokens]) ?_
    rw [Stmt.unnumbered, hbody]
    rfl
  · rename_i hk
    exact after_advance (by simp [hk]) (parses_printStatement n hk)
  · refine (parses_expressionStatement n).weaken (fun taken rest s hs => ?_) c
    obtain ⟨e, ending, rfl, htree, -⟩ := hs
    exact .still (.expression e ending) rfl htree

theorem parses_declarationWith {inner : Reader Stmt} {nested : Reader (Option Stmt)}
    (hinner : Parses inner (IsStatement lenient))
    (hnested : ParsesDeclaration lenient nested) (n : Nat) :
    ParsesDeclaration lenient (declarationWith lenient inner nested n) := by
  refine Parses.recovering (after_get fun c => ?_)
  split
  · rename_i hk
    exact after_advance (by simp [hk]) (parses_classDeclaration hnested n hk)
  · rename_i hk
    refine after_advance (by simp [hk]) ((parses_function _ hnested n).bind fun t f => done fun _ hf => ?_)
    obtain ⟨d, rfl, hf⟩ := hf
    refine ⟨.function ⟨c.peek, by simp [hk]⟩ d, by simp [DeclarationDerivation.tokens], ?_⟩
    rw [Stmt.unnumbered, hf]
    rfl
  · rename_i hk
    refine after_advance (by simp [hk]) ((parses_varDeclaration n hk).weaken fun taken _ s hs => ?_)
    obtain ⟨v, htokens, htree, -⟩ := hs
    exact ⟨.var v, htokens, htree⟩
  · refine (parses_statementWith hinner hnested n).weaken (fun taken rest s hs => ?_) c
    obtain ⟨hangs, d, htokens, htree, -⟩ := hs
    exact ⟨.statement d, htokens, htree⟩

theorem parses_statement (n : Nat) : Parses (statement lenient n) (IsStatement lenient) ∧
    ParsesDeclaration lenient (declaration lenient n) := by
  induction n with
  | zero => exact ⟨stops _, stops _⟩
  | succ n ih => exact ⟨parses_statementWith ih.1 ih.2 (n + 1), parses_declarationWith ih.1 ih.2 (n + 1)⟩

theorem parses_program (n : Nat) : Parses (program lenient n) fun taken rest ss =>
    rest = [] ∧ AreDeclarations lenient taken ss := by
  refine (parses_declarations _ (parses_statement n).2 n).weaken fun taken rest ss h => ⟨?_, h.1⟩
  cases rest with
  | nil => rfl
  | cons t rest => cases h.2 t rfl

end Grammar

end LoxLang
