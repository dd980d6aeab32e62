import LoxLang.CommandLine.Reply
import LoxLang.Proofs.Joining.Sources
import LoxLang.Proofs.Relabeling.Rejections
import LoxLang.Proofs.Rendering.Numbers
import LoxLang.Proofs.Tiling.Stream

/-! The commands on a file, of which one writes what the scanner yields item by item and the others collect it first. They
report the same lexical faults, before all else, and agree on what these mean for the exit code. -/

namespace LoxLang

open Piece (joined)

namespace Scanner

/-- All that the scanner yields, call by call, until it yields nothing. -/
inductive Streams : Scanner → List Item → Prop
  | ended {s t : Scanner} : s.next = some (none, t) → Streams s []
  | item {s t : Scanner} {item : Item} {rest : List Item} :
    s.next = some (some item, t) → Streams t rest → Streams s (item :: rest)

variable {s : Scanner} {source : String}

theorem Streams.unique {yielded yielded' : List Item} (h : s.Streams yielded) (h' : s.Streams yielded') :
    yielded = yielded' := by
  induction h generalizing yielded' with
  | ended hnext =>
    cases h' with
    | ended => rfl
    | item hnext' => rw [hnext] at hnext'; cases hnext'
  | item hnext _ ih =>
    cases h' with
    | ended hnext' => rw [hnext] at hnext'; cases hnext'
    | item hnext' hrest' =>
      rw [hnext] at hnext'
      cases hnext'
      rw [ih hrest']

theorem Stands.streams {n : Nat} (h : Stands source n s) : s.Streams ((items source).drop n) := by
  obtain ⟨k, hk⟩ : ∃ k, k = (items source).length - n := ⟨_, rfl⟩
  induction k generalizing n s with
  | zero =>
    obtain ⟨t, hnext, -⟩ := h.next
    have hle : (items source).length ≤ n := by omega
    rw [List.getElem?_eq_none hle] at hnext
    rw [List.drop_eq_nil_of_le hle]
    exact .ended hnext
  | succ k ih =>
    obtain ⟨t, hnext, ht⟩ := h.next
    have hlt : n < (items source).length := by omega
    rw [List.getElem?_eq_getElem hlt] at hnext
    rw [List.drop_eq_getElem_cons hlt]
    exact .item hnext (ih ht (by omega))

theorem streams_ofSource (source : String) : (ofSource source).Streams (items source) :=
  (Reading.ofSource source).stands.streams

end Scanner

namespace Item

/-- Writes an item: a token to the output, a fault to the diagnostics. -/
def write (done : String × String) : Item → String × String
  | token t => (done.1 ++ (t.text ++ "\n"), done.2)
  | fault cause line => (done.1, done.2 ++ ((Diagnostic.lexical line cause).text ++ "\n"))

theorem mem_pieces_of_fault {cause : LexicalFault} {line : Nat} {ps : List Piece} {n : Nat}
    (h : .fault cause line ∈ ofPieces n ps) : ∃ p ∈ ps, p.shape = .fault cause := by
  induction ps generalizing n with
  | nil => simp [ofPieces] at h
  | cons p rest ih =>
    by_cases hp : p.shape = .fault cause
    · exact ⟨p, List.mem_cons_self, hp⟩
    · have hrest : .fault cause line ∈ ofPieces (n + p.text.count '\n') rest := by
        rw [ofPieces] at h
        cases hshape : p.shape with
        | token kind => simpa [hshape] using h
        | fault cause' =>
          have hne : cause ≠ cause' := fun e => hp (e ▸ hshape)
          simpa [hshape, hne] using h
        | blank | comment => simpa [hshape] using h
      obtain ⟨q, hq, hshape⟩ := ih hrest
      exact ⟨q, List.mem_cons_of_mem p hq, hshape⟩

end Item

/-- A line end is a blank, and so no character that is reported. -/
theorem ne_newline_of_unexpected {source : String} {c : Char} {line : Nat}
    (h : .fault (.unexpected c) line ∈ items source) : c ≠ '\n' := by
  obtain ⟨p, hp, hshape⟩ := Item.mem_pieces_of_fault h
  obtain ⟨front, back, hpieces⟩ := List.append_of_mem hp
  have htile := pieces_tile hpieces
  obtain ⟨shape, text⟩ := p
  subst hshape
  cases htile with
  | unexpected hstray =>
    rintro rfl
    exact absurd hstray.blank (by decide)

theorem LexicalFault.message_oneLine {cause : LexicalFault} (h : ∀ c, cause = .unexpected c → c ≠ '\n') :
    '\n' ∉ cause.message.toList := by
  cases cause with
  | unexpected c =>
    have hmessage : (LexicalFault.unexpected c).message = "Unexpected character: " ++ c.toString := rfl
    have hc : c.toString.toList = [c] := by simp
    have hfirst : '\n' ∉ "Unexpected character: ".toList := by decide +kernel
    rw [hmessage, String.toList_append, hc]
    intro hmem
    rcases List.mem_append.mp hmem with hmem | hmem
    · exact hfirst hmem
    · exact h c rfl (List.mem_singleton.mp hmem).symm
  | unterminatedString =>
    have hmessage : '\n' ∉ "Unterminated string.".toList := by decide +kernel
    exact hmessage

/-- A lexical fault is reported on one line. -/
theorem lexicalDiagnostics_oneLine {source : String} {d : Diagnostic} (h : d ∈ lexicalDiagnostics source) :
    '\n' ∉ d.text.toList := by
  obtain ⟨⟨cause, line⟩, hfault, rfl⟩ := List.mem_map.mp h
  obtain ⟨i, hi, hcause⟩ := List.mem_filterMap.mp hfault
  cases i with
  | token t => cases hcause
  | fault =>
    cases hcause
    have hdigits : '\n' ∉ Nat.toDigits 10 line := fun hmem => absurd ((digits_toDigits line).isDigit _ hmem) (by decide)
    have hmessage : '\n' ∉ cause.message.toList := by
      refine LexicalFault.message_oneLine fun c hc => ?_
      subst hc
      exact ne_newline_of_unexpected hi
    simp [Diagnostic.text, Diagnostic.line, Diagnostic.location, Diagnostic.message, hdigits, hmessage]

namespace Reply

theorem ofLines_append (lines more : List String) : ofLines (lines ++ more) = ofLines lines ++ ofLines more := by
  simp [ofLines]

/-- Written as they come, items give what they give when tokens and faults are collected first. -/
theorem foldl_write (yielded : List Item) (done : String × String) :
    yielded.foldl Item.write done =
      (done.1 ++ ofLines ((yielded.filterMap Item.token?).map Token.text),
        done.2 ++ ofLines ((Item.diagnostics yielded).map Diagnostic.text)) := by
  induction yielded generalizing done with
  | nil => simp [ofLines, Item.diagnostics]
  | cons i rest ih =>
    rw [List.foldl_cons, ih]
    cases i <;>
      simp [Item.write, Item.token?, Item.fault?, Item.diagnostics, List.filterMap_cons, ofLines, String.append_assoc]

theorem staticCode_eq (faults : List Diagnostic) : staticCode faults = if faults = [] then 0 else 65 := by
  cases faults <;> rfl

theorem parse_of_faults {source : String} (h : lexicalDiagnostics source ≠ []) : ∃ more, parse source =
    ⟨65, "", ofLines ((lexicalDiagnostics source).map Diagnostic.text) ++ more⟩ := by
  unfold parse
  cases hread : (Parsed.expression (tokens source) 0).result with
  | error faults =>
    rw [Parsed.ofSource_of_error hread]
    refine ⟨ofLines (faults.map Diagnostic.text), ?_⟩
    dsimp only
    rw [List.map_append, ofLines_append]
  | ok e =>
    have hnonempty : (lexicalDiagnostics source).isEmpty = false := by simpa using h
    rw [Parsed.ofSource_of_ok hread, hnonempty]
    exact ⟨"", by simp⟩

theorem run_of_faults {source : String} (h : lexicalDiagnostics source ≠ []) (now : Number) : ∃ more,
    run now source = ⟨65, "", ofLines ((lexicalDiagnostics source).map Diagnostic.text) ++ more⟩ := by
  set s := Session.start false now .unlimited .unlimited with hs
  rcases s.staticFaults_stages source with ⟨hfaults, hne⟩ | ⟨hnone, -⟩
  · refine ⟨ofLines ((s.syntaxFaults source).map Diagnostic.text), ?_⟩
    unfold run
    rw [← hs, s.run_of_faults rfl hne, hfaults, List.map_append]
    have hwritten (lines : List String) : (s.diagnostics.add lines).text = ofLines lines := String.empty_append
    dsimp only [Session.takeWritten, Sink.take]
    rw [hwritten, ofLines_append]
    rfl
  · exact absurd hnone h

/-- If there are no faults, whatever is written begins with their lines. -/
theorem begins_of_faults {reply : Reply} {faults : List Diagnostic}
    (h : faults ≠ [] → ∃ more, reply = ⟨65, "", ofLines (faults.map Diagnostic.text) ++ more⟩) :
    ∃ more, reply.diagnostics = ofLines (faults.map Diagnostic.text) ++ more := by
  by_cases hnone : faults = []
  · exact ⟨reply.diagnostics, by rw [hnone]; exact String.empty_append.symm⟩
  · obtain ⟨more, hreply⟩ := h hnone
    exact ⟨more, by rw [hreply]⟩

end Reply

/-- What the commands on a file write, and their exit codes, when the text of the file has some lexical faults and tokens. -/
structure FrontEnds (reply : Command → Reply) (file : String) (faults : List Diagnostic) (ts : List Token) : Prop where
  /-- Each fault is reported on a line of its own. -/
  oneLine : ∀ d ∈ faults, '\n' ∉ d.text.toList
  tokenized : ∀ asListing,
    (reply (.tokenize file asListing)).diagnostics = Reply.ofLines (faults.map Diagnostic.text)
  parsed : ∃ more, (reply (.parse file)).diagnostics = Reply.ofLines (faults.map Diagnostic.text) ++ more
  run : ∃ more, (reply (.run file)).diagnostics = Reply.ofLines (faults.map Diagnostic.text) ++ more
  refused : faults ≠ [] →
    (∀ asListing, (reply (.tokenize file asListing)).code = 65) ∧ (reply (.parse file)).code = 65 ∧
      (reply (.run file)).code = 65 ∧ (reply (.parse file)).output = "" ∧ (reply (.run file)).output = ""
  accepted : faults = [] → ∀ asListing, (reply (.tokenize file asListing)).code = 0
  lines : (reply (.tokenize file false)).output = Reply.ofLines (ts.map Token.text)
  listing : (reply (.tokenize file true)).output = listing ts ++ "\n"

theorem frontEnds_onFile {contents : String → Except FileFault ByteArray} {file : String} {bytes : ByteArray}
    {source : String} (hfile : contents file = .ok bytes) (htext : String.fromUTF8? bytes = some source)
    (f : String → Reply) : Command.reply.onFile contents file f = f source := by
  have hdecode : contents file >>= Reply.decode = .ok source := by
    rw [hfile]
    change Reply.decode bytes = _
    rw [Reply.decode, htext]
  rw [Command.reply.onFile, hdecode]

/-- On every file that is text, the scanner yields one list of items. Let `D` be the faults among them, in order. To write
the items as they come is what the plain command for tokens does. Both commands for tokens write the lines of `D` to the
diagnostics and nothing else; those that parse and run the file write them first. If there are any, all four exit with 65,
and the latter two write no output; if there are none, both commands for tokens exit with 0, and they list the tokens among
the items, in order. -/
theorem front_ends_agree {contents : String → Except FileFault ByteArray} {file : String} {bytes : ByteArray}
    {source : String} (hfile : contents file = .ok bytes) (htext : String.fromUTF8? bytes = some source)
    (now : Number) (input : ByteArray) : ∃ yielded, (Scanner.ofSource source).Streams yielded ∧
      (∀ yielded', (Scanner.ofSource source).Streams yielded' → yielded' = yielded) ∧
      ((Command.reply now contents input (.tokenize file false)).output,
        (Command.reply now contents input (.tokenize file false)).diagnostics) = yielded.foldl Item.write ("", "") ∧
      FrontEnds (Command.reply now contents input) file (Item.diagnostics yielded) (yielded.filterMap Item.token?) := by
  have hstreams := Scanner.streams_ofSource source
  have htokenize (asListing : Bool) :
      Command.reply now contents input (.tokenize file asListing) = Reply.tokenize asListing source :=
    frontEnds_onFile hfile htext _
  have hparse : Command.reply now contents input (.parse file) = Reply.parse source := frontEnds_onFile hfile htext _
  have hrun : Command.reply now contents input (.run file) = Reply.run now source := frontEnds_onFile hfile htext _
  refine ⟨items source, hstreams, fun _ h => h.unique hstreams, ?_, ?_⟩
  · rw [htokenize, Reply.foldl_write, String.empty_append, String.empty_append]
    rfl
  rw [← lexicalDiagnostics_eq]
  have hcode (asListing : Bool) : (Reply.tokenize asListing source).code = Reply.staticCode (lexicalDiagnostics source) :=
    rfl
  have hparsed (h : lexicalDiagnostics source ≠ []) := Reply.parse_of_faults h
  have hran (h : lexicalDiagnostics source ≠ []) := Reply.run_of_faults h now
  constructor
  case oneLine => exact fun d => lexicalDiagnostics_oneLine
  case tokenized =>
    intro asListing
    rw [htokenize]
    rfl
  case parsed =>
    rw [hparse]
    exact Reply.begins_of_faults hparsed
  case run =>
    rw [hrun]
    exact Reply.begins_of_faults hran
  case refused =>
    intro h
    obtain ⟨more, hparsed⟩ := hparsed h
    obtain ⟨more', hran⟩ := hran h
    rw [hparse, hrun, hparsed, hran]
    refine ⟨fun asListing => ?_, rfl, rfl, rfl, rfl⟩
    rw [htokenize, hcode, Reply.staticCode_eq, if_neg h]
  case accepted =>
    intro h asListing
    rw [htokenize, hcode, Reply.staticCode_eq, if_pos h]
  case lines =>
    rw [htokenize]
    rfl
  case listing =>
    rw [htokenize]
    rfl

/-- A file with two lexical faults, which is no program and no expression for other reasons. -/
theorem front_ends_agree_mixed :
    let source := "print 1 # +;\n\"open"
    let reply := Command.reply ⟨0⟩ (fun _ => .ok source.toUTF8) ByteArray.empty
    String.fromUTF8? source.toUTF8 = some source ∧
      ((reply (.parse "f")).diagnostics, (reply (.run "f")).diagnostics) =
        ("[line 1] Error: Unexpected character: #\n[line 2] Error: Unterminated string.\n" ++
          "[line 1] Error at 'print': Expect expression.\n",
        "[line 1] Error: Unexpected character: #\n[line 2] Error: Unterminated string.\n" ++
          "[line 1] Error at ';': Expect expression.\n") ∧
      ∃ yielded, (Scanner.ofSource source).Streams yielded ∧
        FrontEnds reply "f" (Item.diagnostics yielded) (yielded.filterMap Item.token?) := by
  intro source reply
  have htext : String.fromUTF8? source.toUTF8 = some source := by decide +kernel
  have hreports : ((reply (.parse "f")).diagnostics, (reply (.run "f")).diagnostics) =
      ("[line 1] Error: Unexpected character: #\n[line 2] Error: Unterminated string.\n" ++
        "[line 1] Error at 'print': Expect expression.\n",
      "[line 1] Error: Unexpected character: #\n[line 2] Error: Unterminated string.\n" ++
        "[line 1] Error at ';': Expect expression.\n") := by
    decide +kernel
  obtain ⟨yielded, hstreams, -, -, hagree⟩ := @front_ends_agree (fun _ => .ok source.toUTF8) "f" source.toUTF8
    source rfl htext ⟨0⟩ ByteArray.empty
  exact ⟨htext, hreports, yielded, hstreams, hagree⟩

end LoxLang
