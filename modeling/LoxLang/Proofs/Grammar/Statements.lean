import LoxLang.Proofs.Grammar.Expressions

/-! Programs as they are read: their uses have node ids of their own, handed out upward from unit to unit, no
declared name is reserved, and a branch or a loop body declares nothing in the scope around it. -/

namespace LoxLang

structure Stmt.MadeIn (lo hi : NodeId) (s : Stmt) : Prop where
  uses : Made lo hi s.uses
  tidy : s.Tidy

structure Stmt.MadeInEach (lo hi : NodeId) (body : List Stmt) : Prop where
  uses : Made lo hi (Stmt.usesEach body)
  tidy : Stmt.TidyEach body

/-- Wherever it starts, the reader makes the uses of the statements it reads. -/
def ReadsStmt (reader : Reader Stmt) : Prop := ∀ lo, Reads reader lo (Stmt.MadeIn lo)

def ReadsInner (reader : Reader Stmt) : Prop := ∀ lo, Reads reader lo fun hi s => s.MadeIn lo hi ∧ s.declares = []

def ReadsDeclaration (reader : Reader (Option Stmt)) : Prop :=
  ∀ lo, Reads reader lo fun hi o => ∀ s ∈ o, Stmt.MadeIn lo hi s

theorem Stmt.usesEach_append (a b : List Stmt) : usesEach (a ++ b) = usesEach a ++ usesEach b := by
  induction a with
  | nil => rfl
  | cons s rest ih => rw [List.cons_append, usesEach, usesEach, ih, List.append_assoc]

theorem Stmt.usesEach_singleton (s : Stmt) : usesEach [s] = s.uses := by rw [usesEach, usesEach, List.append_nil]

theorem Stmt.tidyEach_append {a b : List Stmt} (ha : TidyEach a) (hb : TidyEach b) : TidyEach (a ++ b) := by
  induction a with
  | nil => exact hb
  | cons s rest ih => exact ⟨ha.1, ih ha.2⟩

namespace Stmt

variable {lo mid hi : NodeId}

theorem MadeInEach.nil : MadeInEach lo hi [] := ⟨.nil, trivial⟩

theorem MadeIn.single {s : Stmt} (h : s.MadeIn lo hi) : MadeInEach lo hi [s] :=
  ⟨by rw [usesEach_singleton]; exact h.uses, h.tidy, trivial⟩

theorem MadeInEach.append {a b : List Stmt} (ha : MadeInEach lo mid a) (hb : MadeInEach mid hi b) (hl : lo ≤ mid)
    (hr : mid ≤ hi) : MadeInEach lo hi (a ++ b) :=
  ⟨by rw [usesEach_append]; exact ha.uses.append hb.uses hl hr, tidyEach_append ha.tidy hb.tidy⟩

theorem MadeInEach.block {body : List Stmt} (h : MadeInEach lo hi body) : (Stmt.block body).MadeIn lo hi :=
  ⟨by rw [Stmt.uses]; exact h.uses, h.tidy⟩

end Stmt

namespace Grammar

open Reader Reads

variable {nested : Reader (Option Stmt)} {inner : Reader Stmt}

/-- A reader that recovers reads a declaration or none, and what is left ahead is proper still. -/
theorem reads_recovering {reader : Reader Stmt} (h : ReadsStmt reader) : ReadsDeclaration (recovering reader) := by
  intro lo c hc hlo
  have hr := h lo c hc hlo
  unfold recovering
  cases e : reader c with
  | ok s c' =>
    rw [e] at hr
    exact ⟨hr.1, hr.2.1, fun _ ht => Option.some.inj ht ▸ hr.2.2⟩
  | error stop c' =>
    rw [e] at hr
    cases stop with
    | exhausted => exact hr
    | fault d =>
      exact ⟨⟨fun t ht => hr.1.rest t (resume_subset c'.rest ht), hr.1.stop⟩, hr.2, fun _ ht => by cases ht⟩
where
  resume_subset : ∀ rest : List Token, resume rest ⊆ rest
    | [] => List.Subset.refl _
    | t :: rest => by
      rw [resume]
      split
      · exact List.subset_cons_self _ _
      · split
        · exact List.subset_cons_self _ _
        · exact List.Subset.trans (resume_subset rest) (List.subset_cons_self _ _)

theorem after_terminator {β : Type} {Q : NodeId → β → Prop} {lo : NodeId} {lenient : Bool} {what : String}
    {next : Unit → Reader β} (h : Reads (next ()) lo Q) : Reads (terminator lenient what >>= next) lo Q := by
  have hend : Reads (terminator lenient what) lo (fun hi _ => hi = lo) := by
    refine after_accept fun o => ?_
    split
    · exact done rfl
    · split
      · exact done rfl
      · exact stops_expected _
  exact hend.bind fun _ _ _ hi => hi ▸ h

theorem reads_declarations (closes : Kind → Bool) (h : ReadsDeclaration nested) (n : Nat) (lo : NodeId) :
    Reads (declarations closes nested n) lo (Stmt.MadeInEach lo) := by
  induction n generalizing lo with
  | zero => exact stops _
  | succ n ih =>
    refine after_get fun c _ => ?_
    split
    · exact done .nil
    · split
      · exact done .nil
      · refine (h lo).bind fun mid first hmid hfirst => (ih mid).bind fun hi more hhi hmore => done ?_
        refine Stmt.MadeInEach.append ?_ hmore hmid hhi
        cases first with
        | none => exact .nil
        | some s => exact (hfirst s rfl).single

theorem reads_block (h : ReadsDeclaration nested) (n : Nat) (lo : NodeId) :
    Reads (block nested n) lo (Stmt.MadeInEach lo) :=
  (reads_declarations _ h n lo).bind fun _ _ _ hbody => after_expect fun _ _ _ => done hbody

theorem reads_parameters (n : Nat) (lo : NodeId) :
    Reads (listed "parameters" (expect .identifier "parameter name") n) lo
      fun _ ts => ∀ t ∈ ts, t.lexeme ∉ reserved := by
  refine reads_listed (P := fun _ _ (ts : List Token) => ∀ t ∈ ts, t.lexeme ∉ reserved) _ (by simp) (fun lo => ?_) ?_ n lo
  · exact (reads_expect _ _).weaken fun _ t _ ht => List.forall_mem_singleton.mpr (ht.2.2.not_reserved ht.2.1)
  · intro lo mid hi t ts _ _ ht hts
    exact List.forall_mem_cons.mpr ⟨ht t List.mem_cons_self, hts⟩

theorem reads_function (what : String) (h : ReadsDeclaration nested) (n : Nat) (lo : NodeId) :
    Reads (function what nested n) lo fun hi f => Made lo hi f.uses ∧ f.Tidy ∧ f.name.lexeme ∉ reserved := by
  refine after_expect fun name hk hname => after_expect fun _ _ _ => ?_
  refine (reads_parameters n lo).bind fun mid parameters hmid hparameters => ?_
  refine after_expect fun _ _ _ => after_expect fun _ _ _ => ?_
  refine (reads_block h n mid).bind fun hi body hhi hbody => done ⟨?_, ⟨hparameters, hbody.tidy⟩, ?_⟩
  · rw [Function.uses]
    exact Made.append .nil hbody.uses hmid hhi
  · exact hname.not_reserved hk

theorem reads_methods (h : ReadsDeclaration nested) (n : Nat) (lo : NodeId) :
    Reads (methods nested n) lo fun hi fs => Made lo hi (Function.usesEach fs) ∧ Function.TidyEach fs := by
  induction n generalizing lo with
  | zero => exact stops _
  | succ n ih =>
    refine after_get fun c _ => ?_
    split
    · exact done ⟨.nil, trivial⟩
    · split
      · exact done ⟨.nil, trivial⟩
      · refine (reads_function "method" h (n + 1) lo).bind fun mid f hmid hf => ?_
        refine (ih mid).bind fun hi fs hhi hfs => done ⟨?_, hf.2.1, hfs.2⟩
        rw [Function.usesEach]
        exact hf.1.append hfs.1 hmid hhi

theorem reads_classDeclaration (h : ReadsDeclaration nested) (n : Nat) : ReadsStmt (classDeclaration nested n) := by
  intro lo
  refine after_expect fun name hk hname => after_accept fun o => ?_
  have hbody : ∀ (superclass : Option NameUse) (mid : NodeId), lo ≤ mid →
      Made lo mid (superclass.map fun u => (⟨.read, u.id, u.name⟩ : Use)).toList →
      Reads (do
        let _ ← expect .leftBrace "'\x7b' before class body"
        let declared ← methods nested n
        let _ ← expect .rightBrace "'\x7d' after class body"
        return Stmt.classDecl name superclass declared) mid (Stmt.MadeIn lo) := by
    intro superclass mid hmid hsuper
    refine after_expect fun _ _ _ => (reads_methods h n mid).bind fun hi fs hhi hfs => ?_
    refine after_expect fun _ _ _ => done ⟨?_, hname.not_reserved hk, hfs.2⟩
    rw [Stmt.uses]
    exact hsuper.append hfs.1 hmid hhi
  cases o with
  | none => exact hbody none lo le_rfl .nil
  | some t =>
    refine after_expect fun superclass hs hsuperclass => after_fresh ?_
    exact hbody (some ⟨lo, superclass⟩) (lo + 1) (Nat.le_succ _)
      (.single (Use.proper_read _ (hsuperclass.not_reserved hs)))

theorem reads_varDeclaration (lenient : Bool) (n : Nat) (lo : NodeId) :
    Reads (varDeclaration lenient n) lo fun hi s => s.MadeIn lo hi := by
  refine after_expect fun name hk hname => after_accept fun o => ?_
  cases o with
  | none => exact after_terminator (done ⟨.nil, hname.not_reserved hk⟩)
  | some t =>
    exact (reads_expression n lo).bind fun hi e _ he => after_terminator (done ⟨he, hname.not_reserved hk⟩)

theorem reads_expressionStatement (lenient : Bool) (n : Nat) : ReadsInner (expressionStatement lenient n) := fun lo =>
  (reads_expression n lo).bind fun _ _ _ he => after_terminator (done ⟨⟨he, trivial⟩, rfl⟩)

theorem reads_printStatement (lenient : Bool) (n : Nat) : ReadsInner (printStatement lenient n) := fun lo =>
  (reads_expression n lo).bind fun _ _ _ he => after_terminator (done ⟨⟨he, trivial⟩, rfl⟩)

theorem reads_returnStatement (lenient : Bool) (keyword : Token) (n : Nat) :
    ReadsInner (returnStatement lenient keyword n) := by
  intro lo
  refine after_check fun b => after_atEnd fun b' => ?_
  dsimp only
  split
  · exact after_terminator (done ⟨⟨.nil, trivial⟩, rfl⟩)
  · exact (reads_expression n lo).bind fun hi e _ he => after_terminator (done ⟨⟨he, trivial⟩, rfl⟩)

theorem reads_branchStatement (h : ReadsInner inner) (n : Nat) : ReadsInner (branchStatement inner n) := by
  intro lo
  refine after_expect fun _ _ _ => (reads_expression n lo).bind fun m₁ condition h₁ hcondition => ?_
  refine after_expect fun _ _ _ => (h m₁).bind fun m₂ yes h₂ hyes => after_accept fun o => ?_
  have huses := hcondition.append hyes.1.uses h₁ h₂
  cases o with
  | none =>
    refine done ⟨⟨?_, hyes.1.tidy, hyes.2, trivial⟩, rfl⟩
    rw [Stmt.uses, Stmt.usesOption, List.append_nil]
    exact huses
  | some t =>
    refine (h m₂).bind fun m₃ no h₃ hno => done ⟨⟨?_, hyes.1.tidy, hyes.2, hno.1.tidy, hno.2⟩, rfl⟩
    rw [Stmt.uses, Stmt.usesOption]
    exact huses.append hno.1.uses (h₁.trans h₂) h₃

theorem reads_loopStatement (h : ReadsInner inner) (n : Nat) : ReadsInner (loopStatement inner n) := by
  intro lo
  refine after_expect fun _ _ _ => (reads_expression n lo).bind fun mid condition hmid hcondition => ?_
  refine after_expect fun _ _ _ => (h mid).bind fun hi body hhi hbody => ?_
  refine done ⟨⟨?_, hbody.1.tidy, hbody.2⟩, rfl⟩
  rw [Stmt.uses]
  exact hcondition.append hbody.1.uses hmid hhi

theorem carrier_not_reserved (name : Token) : (carrier name).lexeme ∉ reserved := by
  have hlast : (carrier name).lexeme.toList.getLast? = some '\'' := by simp [carrier]
  intro h
  rcases List.mem_cons.mp h with h | h
  · rw [h] at hlast
    exact absurd hlast (by decide)
  · rw [List.mem_singleton.mp h] at hlast
    exact absurd hlast (by decide)

section Counting

variable {lo mid hi : NodeId}

theorem uses_iteration (id : NodeId) (name : Token) (body : Stmt) :
    (iteration id name body).uses = ⟨.read, id, name⟩ :: (body.uses ++
      [⟨.assign, id + 1, carrier name⟩, ⟨.read, id + 2, name⟩, ⟨.assign, id + 3, name⟩,
        ⟨.read, id + 4, carrier name⟩]) := by
  simp [iteration, copy, Stmt.uses, Stmt.usesEach, Expr.usesOption, Expr.uses]

/-- One run of a loop body makes five uses of its own after those of the body. -/
theorem madeIn_iteration {name : Token} {body : Stmt} (hname : name.lexeme ∉ reserved) (hle : lo ≤ mid)
    (hbody : body.MadeIn lo mid) : (iteration mid name body).MadeIn lo (mid + 5) where
  uses := by
    have hassign (id : NodeId) {t : Token} (ht : t.lexeme ∉ reserved) : Made id (id + 1) [⟨.assign, id, t⟩] :=
      .single (Use.proper_assign _ ht)
    have hread (id : NodeId) {t : Token} (ht : t.lexeme ∉ reserved) : Made id (id + 1) [⟨.read, id, t⟩] :=
      .single (Use.proper_read _ ht)
    have hcarrier := carrier_not_reserved name
    have hback := (hassign (mid + 3) hname).append (hread (mid + 4) hcarrier) (Nat.le_succ _) (Nat.le_succ _)
    have hthere := (hassign (mid + 1) hcarrier).append (hread (mid + 2) hname) (Nat.le_succ _) (Nat.le_succ _)
    have hfive := (hread mid hname).append (hthere.append hback (Nat.le_add_right _ 2) (Nat.le_add_right _ 2))
      (Nat.le_succ _) (Nat.le_add_right _ 4)
    rw [uses_iteration]
    exact (hbody.uses.append hfive hle (Nat.le_add_right _ 5)).perm List.perm_middle
  tidy := ⟨carrier_not_reserved name, ⟨hname, hbody.tidy, trivial, trivial⟩, trivial, trivial⟩

theorem uses_counting (initial : Option Stmt) (condition increment : Option Expr) (body : Stmt) :
    (counting initial condition increment body).uses = Stmt.usesOption initial ++
      (Expr.usesOption condition ++ (body.uses ++ Expr.usesOption increment)) := by
  cases initial <;> cases condition <;> cases increment <;>
    simp [counting, Stmt.uses, Stmt.usesEach, Stmt.usesOption, Expr.usesOption, Expr.uses]

theorem madeIn_counting {m₁ m₂ m₃ : NodeId} {initial : Option Stmt} {condition increment : Option Expr} {body : Stmt}
    (hinitial : Made lo m₁ (Stmt.usesOption initial)) (htidy : ∀ s ∈ initial, s.Tidy)
    (hcondition : Made m₁ m₂ (Expr.usesOption condition)) (hincrement : Made m₂ m₃ (Expr.usesOption increment))
    (hbody : body.MadeIn m₃ hi ∧ body.declares = []) (h₁ : lo ≤ m₁) (h₂ : m₁ ≤ m₂) (h₃ : m₂ ≤ m₃) (h₄ : m₃ ≤ hi) :
    (counting initial condition increment body).MadeIn lo hi ∧
      (counting initial condition increment body).declares = [] := by
  refine ⟨⟨?_, ?_⟩, ?_⟩
  · rw [uses_counting]
    have hloop := (hincrement.append hbody.1.uses h₃ h₄).perm List.perm_append_comm
    exact hinitial.append (hcondition.append hloop h₂ (h₃.trans h₄)) h₁ (h₂.trans (h₃.trans h₄))
  · clear hincrement
    -- the loop alone, and behind what comes first
    have hloop : (counting none condition increment body).Tidy := by
      cases increment with
      | none => exact ⟨hbody.1.tidy, hbody.2⟩
      | some e => exact ⟨⟨hbody.1.tidy, trivial, trivial⟩, rfl⟩
    cases initial with
    | none => exact hloop
    | some s => exact ⟨htidy s rfl, hloop, trivial⟩
  · cases initial <;> rfl

theorem reads_firstClause (lenient : Bool) (n : Nat) (lo : NodeId) :
    Reads (firstClause lenient n) lo fun hi o => Made lo hi (Stmt.usesOption o) ∧ ∀ s ∈ o, s.Tidy := by
  refine after_accept fun o => ?_
  cases o with
  | some t => exact done ⟨.nil, fun _ hs => by cases hs⟩
  | none =>
    refine after_accept fun o => ?_
    cases o with
    | some t =>
      exact (reads_varDeclaration lenient n lo).bind fun _ s _ hs =>
        done ⟨hs.uses, fun _ ht => Option.some.inj ht ▸ hs.tidy⟩
    | none =>
      exact (reads_expressionStatement lenient n lo).bind fun _ s _ hs =>
        done ⟨hs.1.uses, fun _ ht => Option.some.inj ht ▸ hs.1.tidy⟩

theorem reads_clause (closes : Kind) (n : Nat) (lo : NodeId) :
    Reads (clause closes n) lo fun hi o => Made lo hi (Expr.usesOption o) := by
  refine after_check fun b => ?_
  split
  · exact done .nil
  · exact (reads_expression n lo).bind fun _ _ _ he => done he

theorem reads_countingStatement (lenient : Bool) (h : ReadsInner inner) (n : Nat) :
    ReadsInner (countingStatement lenient inner n) := by
  intro lo
  refine after_expect fun _ _ _ => (reads_firstClause lenient n lo).bind fun m₁ initial h₁ hinitial => ?_
  refine (reads_clause .semicolon n m₁).bind fun m₂ condition h₂ hcondition => after_expect fun _ _ _ => ?_
  refine (reads_clause .rightParen n m₂).bind fun m₃ increment h₃ hincrement => after_expect fun _ _ _ => ?_
  refine (h m₃).bind fun m₄ body h₄ hbody => ?_
  split
  · rename_i name value
    have hfive : Reads countingStatement.freshFive m₄ (fun hi id => id = m₄ ∧ hi = m₄ + 5) := by
      rintro c hc rfl
      exact ⟨⟨hc.rest, hc.stop⟩, Nat.le_add_right _ 5, rfl, rfl⟩
    refine hfive.bind ?_
    rintro _ _ hle ⟨rfl, rfl⟩
    exact done (madeIn_counting hinitial.1 hinitial.2 hcondition hincrement
      ⟨madeIn_iteration (hinitial.2 _ rfl) h₄ hbody.1, rfl⟩ h₁ h₂ h₃ (h₄.trans hle))
  · exact done (madeIn_counting hinitial.1 hinitial.2 hcondition hincrement hbody h₁ h₂ h₃ h₄)

end Counting

theorem reads_statementWith (lenient : Bool) (hs : ReadsInner inner) (hd : ReadsDeclaration nested) (n : Nat) :
    ReadsInner (statementWith lenient inner nested n) := by
  intro lo
  refine after_get fun c _ => ?_
  dsimp only
  split
  · exact after_advance (reads_countingStatement lenient hs n lo)
  · exact after_advance (reads_branchStatement hs n lo)
  · exact after_advance (reads_loopStatement hs n lo)
  · exact after_advance (reads_returnStatement lenient _ n lo)
  · exact after_advance ((reads_block hd n lo).bind fun _ _ _ hbody => done ⟨hbody.block, rfl⟩)
  · exact after_advance (reads_printStatement lenient n lo)
  · exact reads_expressionStatement lenient n lo

theorem reads_declarationWith (lenient : Bool) (hs : ReadsInner inner) (hd : ReadsDeclaration nested) (n : Nat) :
    ReadsDeclaration (declarationWith lenient inner nested n) := by
  refine reads_recovering fun lo => after_get fun c _ => ?_
  split
  · exact after_advance (reads_classDeclaration hd n lo)
  · exact after_advance ((reads_function "function" hd n lo).bind fun _ f _ hf => done ⟨hf.1, hf.2.2, hf.2.1⟩)
  · exact after_advance (reads_varDeclaration lenient n lo)
  · exact (reads_statementWith lenient hs hd n lo).weaken fun _ _ _ h => h.1

/-- Statements and declarations contain each other; the bound falls at each level. -/
theorem reads_grammar (lenient : Bool) (n : Nat) :
    ReadsInner (statement lenient n) ∧ ReadsDeclaration (declaration lenient n) := by
  induction n with
  | zero => exact ⟨fun lo => stops _, fun lo => stops _⟩
  | succ n ih =>
    exact ⟨reads_statementWith lenient ih.1 ih.2 (n + 1), reads_declarationWith lenient ih.1 ih.2 (n + 1)⟩

theorem reads_program (lenient : Bool) (n : Nat) (lo : NodeId) :
    Reads (program lenient n) lo (Stmt.MadeInEach lo) :=
  reads_declarations _ (reads_grammar lenient n).2 n lo

end Grammar

namespace Parsed

variable {α : Type} {P : NodeId → α → Prop}

/-- What is read from proper tokens has what the reader promises, and node ids are not handed out twice. -/
theorem reads_run {reader : Nat → Reader α} {tokens : List Token} {nextId : NodeId}
    (htokens : ∀ t ∈ tokens, t.Proper) (h : ∀ n, Reads (reader n) nextId P) :
    nextId ≤ (run reader tokens nextId).nextId ∧
      ∀ a, (run reader tokens nextId).result = .ok a → P (run reader tokens nextId).nextId a := by
  have hr := h ((Cursor.ofTokens tokens nextId).rest.length + 1) _ (Cursor.proper_ofTokens htokens nextId) rfl
  unfold run
  dsimp only
  cases e : reader ((Cursor.ofTokens tokens nextId).rest.length + 1) (Cursor.ofTokens tokens nextId) with
  | ok a c =>
    rw [e] at hr
    refine ⟨hr.2.1, fun a' ha => ?_⟩
    dsimp only at ha ⊢
    split at ha
    · exact Except.ok.inj ha ▸ hr.2.2
    · cases ha
  | error stop c =>
    rw [e] at hr
    cases stop with
    | fault d => exact ⟨hr.2, fun a ha => by cases ha⟩
    | exhausted => exact ⟨hr.2, fun a ha => by cases ha⟩

theorem ofSource_eq (read : List Token → NodeId → Parsed α) (source : String) (nextId : NodeId) :
    (ofSource read source nextId).nextId = (read (tokens source) nextId).nextId ∧
      ∀ a, (ofSource read source nextId).result = .ok a → (read (tokens source) nextId).result = .ok a := by
  unfold ofSource
  dsimp only
  split
  · exact ⟨rfl, fun _ h => h⟩
  · exact ⟨rfl, fun _ h => by cases h⟩
  · exact ⟨rfl, fun _ h => by cases h⟩

/-- A program that is read from a source has made its uses in the node ids handed out for it. -/
theorem made_of_program {lenient : Bool} {source : String} {nextId : NodeId} :
    nextId ≤ (ofSource (program lenient) source nextId).nextId ∧
      ∀ statements, (ofSource (program lenient) source nextId).result = .ok statements →
        Stmt.MadeInEach nextId (ofSource (program lenient) source nextId).nextId statements := by
  obtain ⟨hle, hmade⟩ := reads_run (tokens_proper source) fun n => Grammar.reads_program lenient n nextId
  obtain ⟨hid, hok⟩ := ofSource_eq (program lenient) source nextId
  rw [hid]
  exact ⟨hle, fun statements h => hmade statements (hok statements h)⟩

end Parsed

end LoxLang
