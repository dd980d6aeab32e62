import LoxLang.Proofs.Derivation.Progress
import LoxLang.Proofs.Joining.Programs
import LoxLang.Proofs.Leniency
import LoxLang.Proofs.Relabeling.Grammar
import LoxLang.Proofs.Segments.Statements

/-! The faults of a program in a row with others. What is in front of it does not matter to its faults, be it a program
without faults or a segment that ends in its only semicolon, from whose faults reading recovers at that semicolon. -/

namespace LoxLang

/-- The faults that prevent a tree, none if there is one. -/
def Parsed.faults {α : Type} (p : Parsed α) : List Diagnostic :=
  match p.result with
  | .ok _ => []
  | .error faults => faults

theorem Parsed.faults_program {ts : List Token} {stop : Token} {nextId : NodeId} {ss : List Stmt} {c : Cursor}
    (hts : ∀ t ∈ ts, t.kind ≠ .eof) (hstop : stop.kind = .eof)
    (hread : Grammar.program false (ts.length + 1) ⟨ts, stop, [], nextId⟩ = .ok ss c) :
    (program false (ts ++ [stop]) nextId).faults = c.faults := by
  rw [faults, program, run, Cursor.ofTokens_append hts hstop]
  dsimp only
  rw [hread]
  dsimp only
  cases c.faults <;> rfl

namespace Grammar

open Reader

section Bounds

variable {n n' m m' : Nat} {c c' c₁ c₂ : Cursor} {ss more : List Stmt} {ts : List Token} {stop : Token}
  {faults before : List Diagnostic}

/-- All declarations up to the end. -/
abbrev allDeclarations (n m : Nat) : Reader (List Stmt) := declarations (fun _ => false) (declaration false n) m

theorem allDeclarations_nil (hrest : c.rest = []) : allDeclarations n (m + 1) c = .ok [] c := by
  unfold allDeclarations declarations
  simp only [Bind.bind, EStateM.bind, MonadState.get, getThe, MonadStateOf.get, EStateM.get, hrest]
  rfl

theorem allDeclarations_cons (hrest : c.rest ≠ []) : allDeclarations n (m + 1) c = (do
    let first ← declaration false n
    let more ← allDeclarations n m
    return first.toList ++ more) c := by
  obtain ⟨rest, stop, faults, nextId⟩ := c
  cases rest with
  | nil => exact absurd rfl hrest
  | cons t rest => rfl

theorem allDeclarations_of_ok {o : Option Stmt} (hrest : c.rest ≠ []) (hfirst : declaration false n c = .ok o c₁)
    (hmore : allDeclarations n m c₁ = .ok more c₂) : allDeclarations n (m + 1) c = .ok (o.toList ++ more) c₂ := by
  rw [allDeclarations_cons hrest]
  simp only [Bind.bind, EStateM.bind, hfirst, hmore]
  rfl

/-- Declarations that are read to the end are the first one and those behind it. -/
theorem exists_of_allDeclarations (hrest : c.rest ≠ []) (h : allDeclarations n (m + 1) c = .ok ss c') :
    ∃ o c₁ more, declaration false n c = .ok o c₁ ∧ allDeclarations n m c₁ = .ok more c' ∧ ss = o.toList ++ more := by
  rw [allDeclarations_cons hrest] at h
  simp only [Bind.bind, EStateM.bind] at h
  cases hfirst : declaration false n c with
  | error stop c₁ => simp [hfirst] at h
  | ok o c₁ =>
    simp only [hfirst] at h
    cases hmore : allDeclarations n m c₁ with
    | error stop c₂ => simp [hmore] at h
    | ok more c₂ =>
      simp only [hmore] at h
      cases h
      exact ⟨o, c₁, more, rfl, hmore, rfl⟩

/-- Greater bounds change nothing, and faults from before stay in front. -/
theorem allDeclarations_mono (h : allDeclarations n m c = .ok ss c') (hn : n ≤ n') (hm : m ≤ m')
    (before : List Diagnostic) :
    allDeclarations n' m' { c with faults := before ++ c.faults } = .ok ss { c' with faults := before ++ c'.faults } := by
  let s : Excerpt := ⟨false, [], c.stop, before, fun _ => rfl, nofun⟩
  have hat := inside_declarations (s := s) (embeds_grammar hn).2 rfl (fun _ => false) hm c rfl
  have h : declarations (fun _ => false) (declaration false n) m c = .ok ss c' := h
  unfold AgreesAt at hat
  rw [h] at hat
  obtain ⟨hwithin, hstop⟩ := hat
  rwa [Excerpt.within_whole (s := s) rfl rfl, Excerpt.within_whole (s := s) rfl hstop] at hwithin

/-- A segment in front of other tokens: first its own declarations are read, and then those behind it. -/
theorem allDeclarations_within {s : Excerpt} (hs : s.cut = true) (hc : BetweenStatements c.rest)
    (h : allDeclarations n m c = .ok ss c₁) (hn : n ≤ n')
    (hbehind : allDeclarations n' m' ⟨s.tail, s.stop, s.faults ++ c₁.faults, c₁.nextId⟩ = .ok more c₂) :
    allDeclarations n' (m' + m) (c.within s) = .ok (ss ++ more) c₂ := by
  induction m generalizing c ss with
  | zero => cases h
  | succ m ih =>
    rcases hc with hrest | hterminated
    · rw [allDeclarations_nil hrest] at h
      cases h
      have hmono := allDeclarations_mono hbehind le_rfl (Nat.le_add_right m' (m + 1)) []
      rwa [Cursor.within, hrest]
    · have hne : c.rest ≠ [] := by
        rintro hnil
        rw [hnil] at hterminated
        cases hterminated
      obtain ⟨o, c', ss', hfirst, hmore, rfl⟩ := exists_of_allDeclarations hne h
      have hat := (embeds_grammar hn).2 c ((Excerpt.holds_cut hs).mpr hterminated)
      rw [AgreesAt, hfirst] at hat
      obtain ⟨hfirst', hbetween⟩ := hat
      rw [List.append_assoc]
      refine allDeclarations_of_ok ?_ hfirst' (ih ((Excerpt.holds_cut hs).mp hbetween) hmore)
      exact List.append_ne_nil_of_left_ne_nil hne _

/-- What has a derivation is read in front of other tokens, and then those are. -/
theorem allDeclarations_behind : ∀ (d : DeclarationsDerivation false) {c : Cursor} {tail : List Token},
    c.rest = d.tokens ++ tail → c.rest.length < n → (∀ t ∈ tail.head?, t.kind ≠ .kwElse) →
      ∃ k ss i, ∀ m more c', allDeclarations n m { c with rest := tail, nextId := i } = .ok more c' →
        allDeclarations n (m + k) c = .ok (ss ++ more) c'
  | .nil, c, tail, hrest, _, _ => ⟨0, [], c.nextId, fun m more c' h => by
      obtain rfl : c.rest = tail := hrest
      exact h⟩
  | .cons first others, c, tail, hrest, hlen, htail => by
    rw [DeclarationsDerivation.tokens, List.append_assoc] at hrest
    obtain ⟨t, rest, ht, -⟩ := first.head
    have hne : c.rest ≠ [] := by
      rw [hrest, ht]
      exact List.cons_ne_nil _ _
    have hfollow := others.head_ne_else htail
    obtain ⟨o, i, hfirst, -⟩ := (takes_statement n).2 first c _ hrest (hrest ▸ hlen) hfollow nofun
    rw [hrest, List.length_append] at hlen
    obtain ⟨k, ss, j, hothers⟩ := allDeclarations_behind others (c := { c with rest := others.tokens ++ tail, nextId := i })
      rfl (by dsimp only; omega) htail
    refine ⟨k + 1, o.toList ++ ss, j, fun m more c' h => ?_⟩
    rw [List.append_assoc]
    exact allDeclarations_of_ok hne hfirst (hothers m more c' h)

/-- From a fault in a declaration reading recovers. -/
theorem declaration_ne_fault (n : Nat) (c c' : Cursor) (d : Diagnostic) : declaration false n c ≠ .error (.fault d) c' := by
  cases n with
  | zero => exact nofun
  | succ n =>
    intro h
    unfold declaration declarationWith recovering at h
    split at h <;> cases h

theorem allDeclarations_ne_fault (n m : Nat) (c c' : Cursor) (d : Diagnostic) :
    allDeclarations n m c ≠ .error (.fault d) c' := by
  induction m generalizing c with
  | zero => exact nofun
  | succ m ih =>
    intro h
    by_cases hrest : c.rest = []
    · rw [allDeclarations_nil hrest] at h
      cases h
    · rw [allDeclarations_cons hrest] at h
      simp only [Bind.bind, EStateM.bind] at h
      cases hfirst : declaration false n c with
      | error stop c₁ =>
        rw [hfirst] at h
        cases h
        exact declaration_ne_fault n c c' d hfirst
      | ok o c₁ =>
        simp only [hfirst] at h
        cases hmore : allDeclarations n m c₁ with
        | error stop c₂ =>
          simp only [hmore] at h
          cases h
          exact ih c₁ hmore
        | ok more c₂ => simp [hmore] at h; cases h

/-- With a bound above the number of tokens all declarations are read. -/
theorem exists_allDeclarations (hstop : c.stop.kind = .eof) (hlen : c.rest.length < n) :
    ∃ ss c', program false n c = .ok ss c' := by
  have hspends := spends_program false n c hstop hlen
  unfold SpendsAt at hspends
  cases e : program false n c with
  | ok ss c' => exact ⟨ss, c', rfl⟩
  | error stop c' =>
    rw [e] at hspends
    cases stop with
    | fault d => exact absurd e (allDeclarations_ne_fault n n c c' d)
    | exhausted => exact hspends.elim

end Bounds

section Faults

variable {ts ts' : List Token} {stop stop' : Token} {faults faults' : List Diagnostic} {nextId : NodeId}

/-- Reading the tokens in front of an end mark leaves these faults. -/
def LeavesFaults (ts : List Token) (stop : Token) (faults : List Diagnostic) : Prop :=
  ∃ n ss c, program false n ⟨ts, stop, [], 0⟩ = .ok ss c ∧ c.faults = faults

theorem relabel_shift (c : Cursor) (i : NodeId) : c.relabel (.shift i) = { c with nextId := c.nextId + i } := by
  have hline : ∀ n, (Relabeling.shift i).line n = n := fun _ => rfl
  rw [Cursor.relabel, Token.map_relabel_of_line _ hline, Token.relabel_of_line _ hline,
    Diagnostic.map_relabel_of_line _ hline]
  rfl

/-- The same from any node id on and behind other faults, within any greater bounds. -/
theorem LeavesFaults.exists_bound (h : LeavesFaults ts stop faults) :
    ∃ n, ∀ n' m' before i, n ≤ n' → n ≤ m' →
      ∃ ss c, allDeclarations n' m' ⟨ts, stop, before, i⟩ = .ok ss c ∧ c.faults = before ++ faults := by
  obtain ⟨n, ss, c, h, rfl⟩ := h
  refine ⟨n, fun n' m' before i hn hm => ?_⟩
  have hfollows := follows_program (Relabeling.inOrder_shift i) false n ⟨ts, stop, [], 0⟩
  rw [h, relabelResult, relabel_shift, relabel_shift, Nat.zero_add] at hfollows
  have hmono := allDeclarations_mono hfollows hn hm before
  rw [List.append_nil] at hmono
  exact ⟨_, _, hmono, rfl⟩

theorem exists_leavesFaults (ts : List Token) (hstop : stop.kind = .eof) : ∃ faults, LeavesFaults ts stop faults := by
  obtain ⟨ss, c, h⟩ := exists_allDeclarations (c := ⟨ts, stop, [], 0⟩) hstop (Nat.lt_succ_self _)
  exact ⟨_, _, ss, c, h, rfl⟩

/-- With the end mark behind them, the tokens are read with these faults. -/
theorem LeavesFaults.faults_eq (h : LeavesFaults ts stop faults) (hts : ∀ t ∈ ts, t.kind ≠ .eof)
    (hstop : stop.kind = .eof) (nextId : NodeId) : (Parsed.program false (ts ++ [stop]) nextId).faults = faults := by
  obtain ⟨ss, c, hread⟩ := exists_allDeclarations (c := ⟨ts, stop, [], nextId⟩) hstop (Nat.lt_succ_self _)
  obtain ⟨n, hbound⟩ := h.exists_bound
  obtain ⟨ss', c', hread', hfaults⟩ := hbound (max n (ts.length + 1)) (max n (ts.length + 1)) [] nextId (le_max_left _ _)
    (le_max_left _ _)
  have hmono := allDeclarations_mono hread (le_max_right n _) (le_max_right n _) []
  obtain ⟨rfl, rfl⟩ := EStateM.Result.ok.inj (hmono.symm.trans hread')
  rw [Parsed.faults_program hts hstop hread]
  exact hfaults

theorem leavesFaults_of_program (hts : ∀ t ∈ ts, t.kind ≠ .eof) (hstop : stop.kind = .eof) (nextId : NodeId) :
    LeavesFaults ts stop (Parsed.program false (ts ++ [stop]) nextId).faults := by
  obtain ⟨faults, h⟩ := exists_leavesFaults ts hstop
  rwa [h.faults_eq hts hstop]

theorem leavesFaults_nil (stop : Token) : LeavesFaults [] stop [] := ⟨1, [], _, rfl, rfl⟩

/-- Behind a segment other tokens have their own faults. -/
theorem LeavesFaults.append (hts : Terminated ts) (h : LeavesFaults ts stop faults)
    (helse : ∀ t ∈ ts'.head?, t.kind ≠ .kwElse) (h' : LeavesFaults ts' stop' faults') :
    LeavesFaults (ts ++ ts') stop' (faults ++ faults') := by
  obtain ⟨n, ss, c, hread, rfl⟩ := h
  obtain ⟨n', hbound⟩ := h'.exists_bound
  obtain ⟨more, c', hread', hfaults⟩ := hbound (n' + n) n' c.faults c.nextId (Nat.le_add_right _ _) le_rfl
  let s : Excerpt := ⟨true, ts', stop', [], nofun, helse⟩
  have hboth := allDeclarations_within (s := s) rfl (.inr hts) hread (Nat.le_add_left n n') hread'
  exact ⟨n' + n, ss ++ more, c', hboth, hfaults⟩

/-- Behind a program without faults other tokens have their own faults. -/
theorem LeavesFaults.behind (d : DeclarationsDerivation false) (helse : ∀ t ∈ ts.head?, t.kind ≠ .kwElse)
    (h : LeavesFaults ts stop faults) : LeavesFaults (d.tokens ++ ts) stop faults := by
  obtain ⟨n, hbound⟩ := h.exists_bound
  let c : Cursor := ⟨d.tokens ++ ts, stop, [], 0⟩
  have hlen : c.rest.length < n + (c.rest.length + 1) := by omega
  obtain ⟨k, ss, i, hbehind⟩ := allDeclarations_behind d (c := c) rfl hlen helse
  obtain ⟨more, c', hread, hfaults⟩ := hbound _ n [] i (Nat.le_add_right n (c.rest.length + 1)) le_rfl
  have hmono := allDeclarations_mono (hbehind _ _ _ hread) (Nat.le_add_right _ k)
    (Nat.add_le_add_right (Nat.le_add_right n (c.rest.length + 1)) k) []
  exact ⟨_, _, _, hmono, hfaults⟩

end Faults

end Grammar

namespace Parsed

variable {α : Type} {p : Parsed α} {ds : List Diagnostic}

theorem faults_of_error (h : p.result = .error ds) : p.faults = ds := by
  rw [faults, h]

theorem result_of_faults_ne_nil (h : p.faults ≠ []) : p.result = .error p.faults := by
  cases hp : p.result with
  | ok a =>
    rw [faults, hp] at h
    exact absurd rfl h
  | error ds => rw [faults_of_error hp]

end Parsed

section Sequence

variable {ts ts' : List Token} {stop stop' : Token} {i j : NodeId} {ss ss' : List Stmt}

theorem Stmt.unnumberedEach_append : ∀ ss ss' : List Stmt,
    unnumberedEach (ss ++ ss') = unnumberedEach ss ++ unnumberedEach ss'
  | [], _ => rfl
  | s :: ss, ss' => by
    rw [List.cons_append, unnumberedEach, unnumberedEach, unnumberedEach_append ss ss', List.cons_append]

/-- Two programs in a row are read as the statements of both. -/
theorem ReadsAs.append (hts : ∀ t ∈ ts, t.kind ≠ .eof) (hstop : stop.kind = .eof)
    (h : (Parsed.program false (ts ++ [stop]) i).result = .ok ss) (hts' : ∀ t ∈ ts', t.kind ≠ .eof)
    (hstop' : stop'.kind = .eof) (h' : ReadsAs false (ts' ++ [stop']) j ss') (k : NodeId) :
    ReadsAs false (ts ++ ts' ++ [stop']) k (ss ++ ss') := by
  obtain ⟨read, hread, hsame⟩ := h'
  obtain ⟨both, hboth, hunnumbered⟩ := Parsed.program_append hts hstop hts' hstop' h hread k
  refine ⟨both, by rw [List.append_assoc]; exact hboth, ?_⟩
  rw [hunnumbered, Stmt.unnumberedEach_append, hsame]

/-- Behind a program other tokens are read as alone: as statements behind those of the program, or with the same
faults. -/
theorem programs_compose (hts : ∀ t ∈ ts, t.kind ≠ .eof) (hts' : ∀ t ∈ ts', t.kind ≠ .eof) (hstop : stop.kind = .eof)
    (hstop' : stop'.kind = .eof) (helse : ∀ t ∈ ts'.head?, t.kind ≠ .kwElse)
    (h : (Parsed.program false (ts ++ [stop]) i).result = .ok ss) (j k : NodeId) :
    (∀ ss', (Parsed.program false (ts' ++ [stop']) j).result = .ok ss' →
      ReadsAs false (ts ++ ts' ++ [stop']) k (ss ++ ss')) ∧
    ∀ faults, (Parsed.program false (ts' ++ [stop']) j).result = .error faults →
      (Parsed.program false (ts ++ ts' ++ [stop']) k).result = .error faults := by
  refine ⟨fun ss' h' => .append hts hstop h hts' hstop' ⟨ss', h', rfl⟩ k, fun faults h' => ?_⟩
  have hfaults := Parsed.faults_of_error h'
  have hne := Parsed.faults_ne_nil_of_ends hts' hstop' h'
  obtain ⟨d, rfl, -⟩ := Parsed.derivation_of_program hts hstop h
  -- The first program leaves no faults behind, so all there are come from the second.
  have hboth := (Grammar.leavesFaults_of_program hts' hstop' j).behind d helse |>.faults_eq
    (List.forall_mem_append.mpr ⟨hts, hts'⟩) hstop' k
  rw [hfaults] at hboth
  rw [Parsed.result_of_faults_ne_nil (hboth ▸ hne), hboth]

/-- In `print x; -x;` the minus begins a statement, and in `print x; -;` there is the fault of `-;`. -/
theorem programs_compose_minus :
    let name : Token := ⟨.identifier, "x", 1⟩
    let semicolon : Token := ⟨.semicolon, ";", 1⟩
    let minus : Token := ⟨.minus, "-", 1⟩
    let stop : Token := ⟨.eof, "", 1⟩
    let front : List Token := [⟨.kwPrint, "print", 1⟩, name, semicolon]
    let first : Stmt := .print (.read 0 name)
    let second : Stmt := .expression (.unary minus (.read 0 name))
    let fault : Diagnostic := .syntactic ⟨1, some ";"⟩ (.expected "expression")
    (Parsed.program false (front ++ [stop]) 0).result = .ok [first] ∧
      ReadsAs false (front ++ [minus, name, semicolon] ++ [stop]) 0 ([first] ++ [second]) ∧
      (Parsed.program false (front ++ [minus, semicolon] ++ [stop]) 0).result = .error [fault] := by
  intro name semicolon minus stop front first second fault
  have hfirst : (Parsed.program false (front ++ [stop]) 0).result = .ok [first] := by cbv
  have hsecond : (Parsed.program false ([minus, name, semicolon] ++ [stop]) 0).result = .ok [second] := by cbv
  have hfault : (Parsed.program false ([minus, semicolon] ++ [stop]) 0).result = .error [fault] := by cbv
  have hcompose := fun behind : List Token =>
    @programs_compose front behind stop stop 0 [first] (by decide)
  have hok := (hcompose [minus, name, semicolon] (by decide) rfl rfl (by simp [minus]) hfirst 0 0).1
  have herror := (hcompose [minus, semicolon] (by decide) rfl rfl (by simp [minus]) hfirst 0 0).2
  exact ⟨hfirst, hok _ hsecond, herror _ hfault⟩

/-- Any tokens but semicolons, left braces, `for`, `else` and end marks, and a semicolon behind them. -/
def IsSegment (ts : List Token) : Prop :=
  ∃ front semicolon, ts = front ++ [semicolon] ∧ semicolon.kind = .semicolon ∧
    ∀ t ∈ front, t.kind ∉ [Kind.semicolon, .leftBrace, .kwFor, .kwElse, .eof]

namespace IsSegment

theorem terminated (h : IsSegment ts) : Terminated ts := by
  obtain ⟨front, semicolon, rfl, hsemicolon, hfront⟩ := h
  induction front with
  | nil => exact .last hsemicolon
  | cons t front ih =>
    obtain ⟨ht, hfront⟩ := List.forall_mem_cons.mp hfront
    simp only [List.mem_cons, not_or] at ht
    exact .cons ht.1 (by simp [Kind.spansSemicolons, ht]) (ih hfront)

theorem kind_ne (h : IsSegment ts) : ∀ t ∈ ts, t.kind ≠ .kwElse ∧ t.kind ≠ .eof := by
  obtain ⟨front, semicolon, rfl, hsemicolon, hfront⟩ := h
  refine List.forall_mem_append.mpr ⟨fun t ht => ?_, by simp [hsemicolon]⟩
  have hk := hfront t ht
  simp only [List.mem_cons, not_or] at hk
  exact ⟨hk.2.2.2.1, hk.2.2.2.2.1⟩

theorem kind_ne_eof (h : IsSegment ts) : ∀ t ∈ ts, t.kind ≠ .eof := fun t ht => (h.kind_ne t ht).2

end IsSegment

/-- A segment in front of an end mark is read with this result. -/
def ReadAlone (ts : List Token) (p : Parsed (List Stmt)) : Prop :=
  ∃ stop i, stop.kind = .eof ∧ p = Parsed.program false (ts ++ [stop]) i

section Segments

variable {segments : List (List Token)} {alone : List (Parsed (List Stmt))}

theorem kind_ne_of_mem_flatten (h : ∀ ts ∈ segments, IsSegment ts) :
    ∀ t ∈ segments.flatten, t.kind ≠ .kwElse ∧ t.kind ≠ .eof := by
  intro t ht
  obtain ⟨ts, hts, ht⟩ := List.mem_flatten.mp ht
  exact (h ts hts).kind_ne t ht

theorem faults_ne_nil_of_mem {p : Parsed (List Stmt)} {faults : List Diagnostic}
    (halone : List.Forall₂ ReadAlone segments alone) (h : ∀ ts ∈ segments, IsSegment ts) (hp : p ∈ alone)
    (herror : p.result = .error faults) : faults ≠ [] := by
  induction halone with
  | nil => cases hp
  | @cons ts q segments alone hq _ ih =>
    obtain ⟨hts, h⟩ := List.forall_mem_cons.mp h
    rcases List.mem_cons.mp hp with rfl | hp
    · obtain ⟨stop, i, hstop, rfl⟩ := hq
      exact Parsed.faults_ne_nil_of_ends hts.kind_ne_eof hstop herror
    · exact ih h hp

/-- The faults of the segments are those of each. -/
theorem leavesFaults_flatten (halone : List.Forall₂ ReadAlone segments alone) (h : ∀ ts ∈ segments, IsSegment ts)
    (stop : Token) : Grammar.LeavesFaults segments.flatten stop (alone.flatMap Parsed.faults) := by
  induction halone with
  | nil => exact Grammar.leavesFaults_nil stop
  | @cons ts p segments alone hp _ ih =>
    obtain ⟨stop', i, hstop', rfl⟩ := hp
    obtain ⟨hts, h⟩ := List.forall_mem_cons.mp h
    refine .append hts.terminated (Grammar.leavesFaults_of_program hts.kind_ne_eof hstop' i) (fun t ht => ?_) (ih h)
    exact (kind_ne_of_mem_flatten h t (List.mem_of_mem_head? ht)).1

/-- Where no segment has a fault, they are read as the statements of each. -/
theorem readsAs_flatten {stop : Token} (hstop : stop.kind = .eof) (halone : List.Forall₂ ReadAlone segments alone)
    (h : ∀ ts ∈ segments, IsSegment ts) {trees : List (List Stmt)}
    (htrees : alone.map Parsed.result = trees.map Except.ok) (k : NodeId) :
    ReadsAs false (segments.flatten ++ [stop]) k trees.flatten := by
  induction halone generalizing trees with
  | nil =>
    obtain rfl : trees = [] := by simpa using htrees.symm
    exact .of_clear .nil rfl nofun rfl (by simp) (by simpa using hstop)
  | @cons ts p segments alone hp _ ih =>
    obtain ⟨stop', i, hstop', rfl⟩ := hp
    obtain ⟨hts, h⟩ := List.forall_mem_cons.mp h
    cases trees with
    | nil => simp at htrees
    | cons ss trees =>
      rw [List.map_cons, List.map_cons, List.cons.injEq] at htrees
      exact .append hts.kind_ne_eof hstop' htrees.1 (fun t ht => (kind_ne_of_mem_flatten h t ht).2) hstop (ih h htrees.2) k

/-- Recovery at its last semicolon isolates a segment. In a row, segments have the faults that each has alone, in their
order, and where none has a fault, the statements of each. -/
theorem segments_isolated {stop : Token} (hstop : stop.kind = .eof) (halone : List.Forall₂ ReadAlone segments alone)
    (h : ∀ ts ∈ segments, IsSegment ts) (k : NodeId) :
    (Parsed.program false (segments.flatten ++ [stop]) k).faults = alone.flatMap Parsed.faults ∧
    ((∃ p ∈ alone, ∃ faults, p.result = .error faults) →
      (Parsed.program false (segments.flatten ++ [stop]) k).result = .error (alone.flatMap Parsed.faults)) ∧
    ∀ trees : List (List Stmt), alone.map Parsed.result = trees.map Except.ok →
      ReadsAs false (segments.flatten ++ [stop]) k trees.flatten := by
  have hfaults := (leavesFaults_flatten halone h stop).faults_eq (fun t ht => (kind_ne_of_mem_flatten h t ht).2) hstop k
  refine ⟨hfaults, ?_, fun trees htrees => readsAs_flatten hstop halone h htrees k⟩
  rintro ⟨p, hp, faults, herror⟩
  have hne : alone.flatMap Parsed.faults ≠ [] := by
    rw [Ne, List.flatMap_eq_nil_iff]
    intro hall
    exact faults_ne_nil_of_mem halone h hp herror ((Parsed.faults_of_error herror).symm.trans (hall p hp))
  rw [Parsed.result_of_faults_ne_nil (hfaults ▸ hne), hfaults]

/-- In `var = x; print x; x = ;` the first and the last segment have a fault each, in `print x; print x;` none has. -/
theorem segments_isolated_around_print :
    let name : Token := ⟨.identifier, "x", 1⟩
    let equal : Token := ⟨.equal, "=", 1⟩
    let semicolon : Token := ⟨.semicolon, ";", 1⟩
    let stop : Token := ⟨.eof, "", 1⟩
    let print : List Token := [⟨.kwPrint, "print", 1⟩, name, semicolon]
    let segments : List (List Token) := [[⟨.kwVar, "var", 1⟩, equal, name, semicolon], print, [name, equal, semicolon]]
    let first : Diagnostic := .syntactic ⟨1, some "="⟩ (.expected "variable name")
    let last : Diagnostic := .syntactic ⟨1, some ";"⟩ (.expected "expression")
    (∀ ts ∈ segments, IsSegment ts) ∧
      (Parsed.program false (segments.flatten ++ [stop]) 0).result = .error [first, last] ∧
      ReadsAs false ([print, print].flatten ++ [stop]) 0 [.print (.read 0 name), .print (.read 0 name)] := by
  intro name equal semicolon stop print segments first last
  have hprint : IsSegment print := ⟨[⟨.kwPrint, "print", 1⟩, name], semicolon, rfl, rfl, by decide⟩
  have hsegments : ∀ ts ∈ segments, IsSegment ts := by
    simp only [segments, List.forall_mem_cons]
    refine ⟨⟨[⟨.kwVar, "var", 1⟩, equal, name], semicolon, rfl, rfl, by decide⟩, hprint, ?_, by simp⟩
    exact ⟨[name, equal], semicolon, rfl, rfl, by decide⟩
  have halone : ∀ all : List (List Token),
      List.Forall₂ ReadAlone all (all.map fun ts => Parsed.program false (ts ++ [stop]) 0) := fun all =>
    List.forall₂_map_right_iff.mpr (List.forall₂_same.mpr fun ts _ => ⟨stop, 0, rfl, rfl⟩)
  have hstop : stop.kind = .eof := rfl
  obtain ⟨-, herror, -⟩ := segments_isolated hstop (halone segments) hsegments 0
  obtain ⟨-, -, hok⟩ := segments_isolated hstop (halone [print, print]) (by simpa using hprint) 0
  refine ⟨hsegments, ?_, hok [[_], [_]] (by cbv)⟩
  rw [herror]
  · cbv
  · exact ⟨_, List.mem_cons_self, [first], by cbv⟩

end Segments

end Sequence

end LoxLang
