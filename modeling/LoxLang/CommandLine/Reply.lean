import LoxLang.CommandLine.Arguments
import LoxLang.Session
import LoxLang.Text.Quoted
import LoxLang.Token.Listing
import LoxLang.Tree.Render

/-! What each command writes, and its exit code: 65 for static faults, 70 for a runtime error, 1 if its input
cannot be had. -/

namespace LoxLang

def Outcome.exitCode : Outcome → Nat
  | ok => 0
  | staticError => 65
  | runtimeError => 70
  | outputFailed | exhausted => 1

structure Reply where
  code : Nat
  output : String
  diagnostics : String
deriving DecidableEq, Repr

/-- Why the text of a file cannot be had. -/
inductive FileFault
  | cannotOpen (cause : String)
  | cannotRead (cause : String)
deriving DecidableEq, Repr

namespace Reply

def programName : String := "rlox"

def versionText : String := programName ++ " 0.1.0\n"

def ofLines (lines : List String) : String := String.join (lines.map (· ++ "\n"))

/-- A failure of the command itself. -/
def failure (context cause : String) : Reply :=
  ⟨1, "", "Error: " ++ context ++ "\n\nCaused by:\n    " ++ cause ++ "\n"⟩

def notText : String := "stream did not contain valid UTF-8"

def ofFileFault (name : String) : FileFault → Reply
  | .cannotOpen cause => failure ("Failed to open file " ++ Text.quoted name) cause
  | .cannotRead cause => failure ("Failed to read file " ++ Text.quoted name) cause

def decode (bytes : ByteArray) : Except FileFault String :=
  match String.fromUTF8? bytes with
  | some text => .ok text
  | none => .error (.cannotRead notText)

def staticCode (faults : List Diagnostic) : Nat := if faults.isEmpty then 0 else 65

def tokenize (asListing : Bool) (source : String) : Reply :=
  let faults := lexicalDiagnostics source
  let output := if asListing then listing (tokens source) ++ "\n" else ofLines ((tokens source).map Token.text)
  ⟨staticCode faults, output, ofLines (faults.map Diagnostic.text)⟩

def parse (source : String) : Reply :=
  match (Parsed.ofSource Parsed.expression source 0).result with
  | .ok e => ⟨0, e.render ++ "\n", ""⟩
  | .error faults => ⟨65, "", ofLines (faults.map Diagnostic.text)⟩

def run (now : Number) (source : String) : Reply :=
  let (outcome, s) := (Session.start false now .unlimited .unlimited).run Session.ample source
  let (written, _) := s.takeWritten
  ⟨outcome.exitCode, written.1, written.2⟩

/-- Lines of bytes without their ends. A carriage return before an end is a blank, and stays. -/
def lines : List UInt8 → List (List UInt8)
  | [] => []
  | b :: rest =>
    if b = 10 then [] :: lines rest
    else match lines rest with
      | [] => [[b]]
      | line :: more => (b :: line) :: more

def promptMark : String := "> "

/-- What the prompt writes for one line, if the line is text. -/
def promptLine (line : ByteArray) (s : Session) : Option ((String × String) × Session) :=
  (String.fromUTF8? line).map fun source => (s.run Session.ample source).2.takeWritten

def promptFailure : Reply := failure "Failed to read from stdin" notText

/-- The whole conversation at the prompt, given its lines. -/
def prompt : List (List UInt8) → Session → Reply
  | [], _ => ⟨0, promptMark ++ "\n", ""⟩
  | line :: rest, s =>
    match promptLine ⟨line.toArray⟩ s with
    | none => { promptFailure with output := promptMark }
    | some (written, s) =>
      let later := prompt rest s
      ⟨later.code, promptMark ++ written.1 ++ later.output, written.2 ++ later.diagnostics⟩

def promptSession (now : Number) : Session := .start true now .unlimited .unlimited

end Reply

/-- Carries out a command. -/
def Command.reply (now : Number) (contents : String → Except FileFault ByteArray) (input : ByteArray) :
    Command → Reply
  | .tokenize file asListing => onFile file (Reply.tokenize asListing)
  | .parse file => onFile file Reply.parse
  | .run file => onFile file (Reply.run now)
  | .prompt => Reply.prompt (Reply.lines input.toList) (Reply.promptSession now)
where
  onFile (file : String) (f : String → Reply) : Reply :=
    match contents file >>= Reply.decode with
    | .ok source => f source
    | .error fault => Reply.ofFileFault file fault

end LoxLang
