import LoxLang.Proofs.Derivation.Progress
import LoxLang.Proofs.Relabeling.Sessions

/-! Units with a static fault: which faults are reported, in which order, and that nothing else is left of such a unit. The
units after it get other node ids, which no one sees. -/

namespace LoxLang

/-- The text of lines. -/
def written (lines : List String) : String := String.join (lines.map (· ++ "\n"))

def Sink.add (s : Sink) (lines : List String) : Sink := { s with text := s.text ++ written lines }

theorem Sink.add_add (s : Sink) (lines more : List String) : (s.add lines).add more = s.add (lines ++ more) := by
  simp [add, written, String.append_assoc]

/-- A sink without a capacity takes everything. -/
theorem Sink.writeLines_of_unlimited {s : Sink} (h : s.capacity = none) (lines : List String) :
    s.writeLines lines = (true, s.add lines) := by
  induction lines generalizing s with
  | nil => simp [writeLines, add, written]
  | cons line rest ih =>
    have hline : s.writeLine line = (true, { s with text := s.text ++ (line ++ "\n") }) := by
      unfold writeLine
      rw [h]
    have hrest := ih (s := { s with text := s.text ++ (line ++ "\n") }) h
    rw [writeLines, hline]
    dsimp only
    rw [if_pos rfl, hrest]
    simp [add, written, String.append_assoc]

namespace Parsed

variable {α : Type} {read : List Token → NodeId → Parsed α} {source : String} {nextId : NodeId}

theorem ofSource_of_error {faults : List Diagnostic} (h : (read (tokens source) nextId).result = .error faults) :
    (ofSource read source nextId).result = .error (lexicalDiagnostics source ++ faults) := by
  unfold ofSource
  dsimp only
  rw [h]
  cases lexicalDiagnostics source <;> rfl

theorem ofSource_of_ok {a : α} (h : (read (tokens source) nextId).result = .ok a) :
    (ofSource read source nextId).result =
      if (lexicalDiagnostics source).isEmpty then .ok a else .error (lexicalDiagnostics source) := by
  unfold ofSource
  dsimp only
  rw [h]
  cases lexicalDiagnostics source <;> rfl

end Parsed

namespace Session

variable {s s' : Session} {source : String} {k base : NodeId}

theorem report_of_unlimited {m : Machine} {sink : Sink} {nextId : NodeId} (h : sink.capacity = none)
    (outcome : Outcome) (lines : List String) :
    report outcome lines ⟨m, sink, nextId⟩ = (outcome, ⟨m, sink.add lines, nextId⟩) := by
  unfold report
  rw [Sink.writeLines_of_unlimited h]
  rfl

section Faults

/-- The faults in the tokens of a unit, which are read even if the text has faults. -/
def syntaxFaults (s : Session) (source : String) : List Diagnostic :=
  match (Parsed.program s.machine.prompt (tokens source) s.nextId).result with
  | .ok _ => []
  | .error faults => faults

/-- The faults of the program that a unit is. -/
def bindingFaults (s : Session) (source : String) : List Diagnostic :=
  match (Parsed.program s.machine.prompt (tokens source) s.nextId).result with
  | .ok statements =>
    match resolve s.globals statements with
    | .ok _ => []
    | .error faults => faults
  | .error _ => []

/-- The faults that are reported of a unit: those of text and tokens, or if there are none, those of the program. -/
def staticFaults (s : Session) (source : String) : List Diagnostic :=
  match lexicalDiagnostics source ++ s.syntaxFaults source with
  | [] => s.bindingFaults source
  | faults => faults

theorem staticFaults_stages (s : Session) (source : String) :
    s.staticFaults source = lexicalDiagnostics source ++ s.syntaxFaults source ∧ s.staticFaults source ≠ [] ∨
      lexicalDiagnostics source = [] ∧ s.syntaxFaults source = [] ∧ s.staticFaults source = s.bindingFaults source := by
  unfold staticFaults
  cases hearly : lexicalDiagnostics source ++ s.syntaxFaults source with
  | nil =>
    obtain ⟨hlexical, hsyntax⟩ := List.append_eq_nil_iff.mp hearly
    exact .inr ⟨hlexical, hsyntax, rfl⟩
  | cons fault faults => exact .inl ⟨rfl, List.cons_ne_nil _ _⟩

theorem staticFaults_ne_nil (s : Session) (source : String) : s.staticFaults source ≠ [] ↔
    lexicalDiagnostics source ≠ [] ∨ s.syntaxFaults source ≠ [] ∨ s.bindingFaults source ≠ [] := by
  rcases s.staticFaults_stages source with ⟨heq, hne⟩ | ⟨hlexical, hsyntax, heq⟩
  · refine ⟨fun _ => ?_, fun _ => hne⟩
    rw [heq, ne_eq, List.append_eq_nil_iff, not_and_or] at hne
    exact hne.imp_right .inl
  · simp [hlexical, hsyntax, heq]

theorem resolve_faults_ne_nil {globals : Std.ExtTreeSet String} {statements : List Stmt} {faults : List Diagnostic}
    (h : resolve globals statements = .error faults) : faults ≠ [] := by
  unfold resolve at h
  dsimp only at h
  split at h
  · cases h
  · rename_i hne
    rw [← Except.error.inj h]
    simpa using hne

/-- A unit is run if it has no static fault, and else refused with those it has. -/
theorem accept_eq (s : Session) (source : String) :
    (s.staticFaults source = [] ∧ ∃ unit, s.accept source = .ok unit) ∨
      s.staticFaults source ≠ [] ∧ s.accept source = .error (s.staticFaults source) := by
  unfold staticFaults syntaxFaults bindingFaults
  cases hp : (Parsed.program s.machine.prompt (tokens source) s.nextId).result with
  | error faults =>
    right
    have hne : lexicalDiagnostics source ++ faults ≠ [] := List.append_ne_nil_of_right_ne_nil _ (Parsed.faults_ne_nil hp)
    dsimp only
    rw [accept_of_unread (Parsed.ofSource_of_error hp)]
    split
    · rename_i hnil
      exact absurd hnil hne
    · exact ⟨hne, rfl⟩
  | ok statements =>
    have hresult : (s.read source).result = _ := Parsed.ofSource_of_ok hp
    dsimp only
    rw [List.append_nil]
    cases hl : lexicalDiagnostics source with
    | cons fault faults =>
      rw [hl] at hresult
      exact .inr ⟨List.cons_ne_nil _ _, accept_of_unread hresult⟩
    | nil =>
      rw [hl] at hresult
      rw [accept_of_read hresult]
      cases hb : resolve s.globals statements with
      | ok bindings => exact .inl ⟨rfl, _, rfl⟩
      | error faults => exact .inr ⟨resolve_faults_ne_nil hb, rfl⟩

theorem run_of_faults (hsink : s.diagnostics.capacity = none) (h : s.staticFaults source ≠ []) (n : Nat) :
    s.run n source = (.staticError, { s with
      nextId := (s.read source).nextId
      diagnostics := s.diagnostics.add ((s.staticFaults source).map Diagnostic.text) }) := by
  rcases s.accept_eq source with ⟨hnil, -⟩ | ⟨-, ha⟩
  · exact absurd hnil h
  · rw [run_eq, ha]
    exact report_of_unlimited hsink _ _

/-- A unit that runs ends otherwise. -/
theorem run_ne_staticError (h : s.staticFaults source = []) (n : Nat) : (s.run n source).1 ≠ .staticError := by
  rcases s.accept_eq source with ⟨-, unit, ha⟩ | ⟨hne, -⟩
  · rw [run_eq, ha]
    dsimp only
    unfold execute report
    cases interpret n unit.1 (s.ready unit.2) with
    | ok _ m => simp
    | error k m =>
      dsimp only
      split
      · cases k <;> simp [Halt.outcome]
      · simp
  · exact absurd h hne

end Faults

open Labels Relabeling

/-- The second session is the first with later node ids, from a base on. Neither can fail to report. -/
structure Renumbers (k base : NodeId) (s s' : Session) : Prop where
  twins : (since base (shift k)).Twins s.machine s'.machine
  base : base ≤ s.nextId
  nextId : s'.nextId = s.nextId + k
  unlimited : s.diagnostics.capacity = none
  unlimited' : s'.diagnostics.capacity = none

namespace Renumbers

variable (h : Renumbers k base s s')

include h

theorem corresponds (source : String) : Corresponds (shift k) s s' source source where
  order := inOrder_shift k
  separates := fun _ _ _ _ => Nat.add_right_cancel
  tokens := (Token.map_relabel_of_line _ (fun _ => rfl) _).symm
  lexical := (Diagnostic.map_relabel_of_line _ (fun _ => rfl) _).symm
  prompt := h.twins.prompt
  globals := by
    unfold globals Machine.globalNames
    rw [h.twins.frames, h.twins.globals]
  nextId := h.nextId

/-- A unit ends alike in both sessions, which report the same. -/
theorem run (n : Nat) (source : String) : (s'.run n source).1 = (s.run n source).1 ∧
    Renumbers k base (s.run n source).2 (s'.run n source).2 ∧
      ∃ lines, (s.run n source).2.diagnostics = s.diagnostics.add lines ∧
        (s'.run n source).2.diagnostics = s'.diagnostics.add lines := by
  have hc := h.corresponds source
  have hle := h.base.trans (nextId_le_read s source)
  cases ha : s.accept source with
  | error faults =>
    have ha' := hc.refused ha
    rw [Diagnostic.map_relabel_of_line _ fun _ => rfl] at ha'
    rw [run_eq, run_eq, ha, ha']
    dsimp only
    rw [report_of_unlimited h.unlimited, report_of_unlimited h.unlimited']
    exact ⟨rfl, ⟨h.twins, hle, hc.nextId_read, h.unlimited, h.unlimited'⟩, _, rfl, rfl⟩
  | ok unit =>
    obtain ⟨statements, bindings⟩ := unit
    obtain ⟨bindings', ha', hsame⟩ := hc.accepted ha
    have hbase' : base ≤ s'.nextId := h.nextId ▸ Nat.le_add_right_of_le h.base
    obtain ⟨htwins, hcarries⟩ := twins_ready h.twins h.base hbase' (accepted_of_accept ha) (accepted_of_accept ha') hsame
    have hruns := echoes_interpret n statements htwins hcarries
    rw [run_eq, run_eq, ha, ha']
    dsimp only
    unfold execute
    dsimp only
    unfold Echoes at hruns
    revert hruns
    cases interpret n statements (s.ready bindings) <;>
      cases interpret n (Stmt.relabelEach (shift k) statements) (s'.ready bindings') <;> intro hruns
    · exact ⟨rfl, ⟨hruns.2, hle, hc.nextId_read, h.unlimited, h.unlimited'⟩, [], by simp [Sink.add, written]⟩
    · exact hruns.elim
    · exact hruns.elim
    · obtain ⟨hk, ht⟩ := hruns
      have hline : ∀ ρ, (since base (shift k)).allowed ρ → ∀ n, ρ.line n = n := by
        rintro ρ (rfl | rfl) n <;> rfl
      rw [hk.eq hline]
      dsimp only
      rw [report_of_unlimited h.unlimited, report_of_unlimited h.unlimited']
      exact ⟨rfl, ⟨ht, hle, hc.nextId_read, h.unlimited, h.unlimited'⟩, _, rfl, rfl⟩

theorem runEach (units : List (Nat × String)) : (Session.runEach units s').1 = (Session.runEach units s).1 ∧
    Renumbers k base (Session.runEach units s).2 (Session.runEach units s').2 ∧
      ∃ lines, (Session.runEach units s).2.diagnostics = s.diagnostics.add lines ∧
        (Session.runEach units s').2.diagnostics = s'.diagnostics.add lines := by
  induction units generalizing s s' with
  | nil => exact ⟨rfl, h, [], by simp [Session.runEach, Sink.add, written]⟩
  | cons unit rest ih =>
    obtain ⟨houtcome, hnext, lines, hlines, hlines'⟩ := h.run unit.1 unit.2
    obtain ⟨houtcomes, hlast, more, hmore, hmore'⟩ := ih hnext
    refine ⟨congrArg₂ List.cons houtcome houtcomes, hlast, lines ++ more, ?_, ?_⟩
    · rw [← Sink.add_add, ← hlines]
      exact hmore
    · rw [← Sink.add_add, ← hlines']
      exact hmore'

end Renumbers

/-- The node ids that a refused unit has used up are known nowhere. -/
theorem Reachable.renumbers (hs : s.Reachable) (hsink : s.diagnostics.capacity = none) (source : String)
    (lines : List String) : ∃ k, Renumbers k s.nextId s
      { s with nextId := (s.read source).nextId, diagnostics := s.diagnostics.add lines } := by
  obtain ⟨k, hk⟩ := Nat.exists_eq_add_of_le (nextId_le_read s source)
  refine ⟨k, ?_, le_rfl, hk, hsink, hsink⟩
  refine twins_self (L := since s.nextId (shift k)) hs.sound.machine (.inl rfl) (fun i hi => .inl ⟨rfl, hi⟩) (keeps_since (fun _ _ => rfl) fun i hi => ?_)
  exact (hs.sound.ahead _ (hi.trans (Nat.le_add_right i k))).trans (hs.sound.ahead i hi).symm

end Session

/-- The same function, but for its node ids. -/
def Closure.Renumbered (k k' : Closure FrameId) : Prop := ∃ j, k' = { k with declared := k.declared.relabel (.shift j) }

/-- The same machine, but for the node ids in the code of functions and the distances known for them. -/
structure Machine.Renumbered (m m' : Machine) : Prop where
  frames : m'.store.frames = m.store.frames
  heap : m.store.toHeap.Corresponds Closure.Renumbered Closure.Renumbered m'.store.toHeap
  globals : m'.globals = m.globals
  current : m'.current = m.current
  depth : m'.depth = m.depth
  prompt : m'.prompt = m.prompt
  output : m'.output = m.output

theorem Session.Renumbers.machine {s s' : Session} {k base : NodeId} (h : s.Renumbers k base s') :
    s.machine.Renumbered s'.machine := by
  have hcode : ∀ c c', (Labels.since base (.shift k)).Twin c c' → c.Renumbered c' := by
    rintro c c' ⟨ρ, ⟨rfl | rfl, -⟩, rfl⟩
    · exact ⟨0, rfl⟩
    · exact ⟨k, rfl⟩
  exact ⟨h.twins.frames, h.twins.heap.mono hcode hcode, h.twins.globals, h.twins.current, h.twins.depth, h.twins.prompt,
    h.twins.output⟩

/-- While errors can be reported, a unit is refused just if its text, its tokens or the program that they are has a fault.
All faults of text and tokens are reported then, or else those of the program, and nothing is left of the unit but that
report and the node ids used up. So the units that follow in a session end as they do without it, with the same output,
reports and values. -/
theorem static_rejection {s : Session} (hsink : s.diagnostics.capacity = none) (n : Nat) (source : String) :
    ((s.run n source).1 = .staticError ↔
      lexicalDiagnostics source ≠ [] ∨ s.syntaxFaults source ≠ [] ∨ s.bindingFaults source ≠ []) ∧
    ((s.run n source).1 = .staticError →
      ∃ faults, (faults = lexicalDiagnostics source ++ s.syntaxFaults source ∧ faults ≠ [] ∨
          lexicalDiagnostics source = [] ∧ s.syntaxFaults source = [] ∧ faults = s.bindingFaults source) ∧
        (s.run n source).2 = { s with
          diagnostics := s.diagnostics.add (faults.map Diagnostic.text)
          nextId := (s.read source).nextId } ∧
        (s.Reachable → ∀ units, ∃ lines,
          (Session.runEach units (s.run n source).2).1 = (Session.runEach units s).1 ∧
          (Session.runEach units s).2.machine.Renumbered (Session.runEach units (s.run n source).2).2.machine ∧
          (Session.runEach units s).2.diagnostics = s.diagnostics.add lines ∧
          (Session.runEach units (s.run n source).2).2.diagnostics =
            (s.diagnostics.add (faults.map Diagnostic.text)).add lines)) := by
  have hiff : (s.run n source).1 = .staticError ↔ s.staticFaults source ≠ [] :=
    ⟨fun h hnil => s.run_ne_staticError hnil n h, fun hne => by rw [s.run_of_faults hsink hne]⟩
  refine ⟨hiff.trans (s.staticFaults_ne_nil source), fun h => ⟨s.staticFaults source, s.staticFaults_stages source, ?_⟩⟩
  rw [s.run_of_faults hsink (hiff.mp h)]
  refine ⟨rfl, fun hs units => ?_⟩
  obtain ⟨k, hk⟩ := hs.renumbers hsink source ((s.staticFaults source).map Diagnostic.text)
  obtain ⟨houtcomes, hlast, lines, hlines, hlines'⟩ := hk.runEach units
  exact ⟨lines, houtcomes, hlast.machine, hlines, hlines'⟩

/-- Between a unit that declares a variable and one that uses it, a unit with a fault in its text and one in its tokens. -/
theorem static_rejection_between :
    let s := ((Session.start false ⟨0⟩ .unlimited .unlimited).run 30 "var x = 1;").2
    let source := "{ var x = 2; # } print ;"
    s.Reachable ∧ s.diagnostics.capacity = none ∧ (s.run 30 source).1 = .staticError ∧
      ((lexicalDiagnostics source).length, (s.syntaxFaults source).length) = (1, 1) ∧
        ∃ (faults : List Diagnostic) (lines : List String), (s.run 30 source).2.diagnostics = s.diagnostics.add (faults.map Diagnostic.text) ∧
          (Session.runEach [(30, "{ x = x + 1; print x; }")] (s.run 30 source).2).1 =
            (Session.runEach [(30, "{ x = x + 1; print x; }")] s).1 ∧
          (Session.runEach [(30, "{ x = x + 1; print x; }")] (s.run 30 source).2).2.diagnostics =
            (s.diagnostics.add (faults.map Diagnostic.text)).add lines := by
  intro s source
  have hs : s.Reachable := .run 30 _ (.start false ⟨0⟩ .unlimited .unlimited)
  have hsink : s.diagnostics.capacity = none := by decide +kernel
  have hrefused : (s.run 30 source).1 = .staticError := by decide +kernel
  have hfaults : ((lexicalDiagnostics source).length, (s.syntaxFaults source).length) = (1, 1) := by decide +kernel
  clear_value s source
  obtain ⟨faults, -, hafter, hrest⟩ := (static_rejection hsink 30 source).2 hrefused
  obtain ⟨lines, houtcomes, -, -, hlines⟩ := hrest hs [(30, "{ x = x + 1; print x; }")]
  exact ⟨hs, hsink, hrefused, hfaults, faults, lines, congrArg Session.diagnostics hafter, houtcomes, hlines⟩

end LoxLang
