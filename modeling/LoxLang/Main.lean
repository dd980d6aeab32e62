import LoxLang.CommandLine.Reply
import Std.Time.DateTime.Timestamp

/-! The command line program. -/

namespace LoxLang.Main

def causeText : IO.Error → String
  | .noFileOrDirectory _ code details | .permissionDenied (some _) code details
  | .inappropriateType (some _) code details | .resourceExhausted (some _) code details
  | .invalidArgument (some _) code details | .inappropriateType none code details
  | .otherError code details => details ++ " (os error " ++ toString code ++ ")"
  | e => toString e

/-- The bytes of a file. -/
def contents (file : String) : IO (Except FileFault ByteArray) := do
  match ← (IO.FS.Handle.mk file .read).toBaseIO with
  | .error e => return .error (.cannotOpen (causeText e))
  | .ok handle =>
    match ← handle.readBinToEnd.toBaseIO with
    | .error e => return .error (.cannotRead (causeText e))
    | .ok bytes => return .ok bytes

def write (output diagnostics : String) : IO Unit := do
  (← IO.getStdout).putStr output
  (← IO.getStderr).putStr diagnostics
  (← IO.getStdout).flush

def say (reply : Reply) : IO UInt32 := do
  write reply.output reply.diagnostics
  return UInt32.ofNat reply.code

/-- The bytes up to the next end of line, and those behind it; nothing at the end of the input. -/
partial def nextLine (pending : ByteArray) : IO (Option (ByteArray × ByteArray)) := do
  match pending.data.findIdx? (· == 10) with
  | some i => return some (pending.extract 0 i, pending.extract (i + 1) pending.size)
  | none =>
    let more ← (← IO.getStdin).read 4096
    if more.isEmpty then
      return if pending.isEmpty then none else some (pending, ByteArray.empty)
    else nextLine (pending ++ more)

partial def converse (s : Session) (pending : ByteArray) : IO UInt32 := do
  write Reply.promptMark ""
  match ← nextLine pending with
  | none =>
    write "\n" ""
    return 0
  | some (line, pending) =>
    match Reply.promptLine line s with
    | none => say Reply.promptFailure
    | some (written, s) =>
      write written.1 written.2
      converse s pending

def usage : String :=
  Reply.ofLines
    ["Usage: " ++ Reply.programName ++ " [--log] [FILE]",
     "       " ++ Reply.programName ++ " tokenize [--json] FILE",
     "       " ++ Reply.programName ++ " parse FILE",
     "       " ++ Reply.programName ++ " run FILE",
     "       " ++ Reply.programName ++ " repl"]

/-- Seconds since 1970 when the program was started. A session keeps this time. -/
def now : IO Number := do
  let time ← Std.Time.Timestamp.now
  return .ofFloat (Float.ofInt time.toMillisecondsSinceUnixEpoch.val / 1000.0)

def perform (invocation : Invocation) : IO UInt32 := do
  if invocation.log then
    let _ ← IO.FS.Handle.mk "app.log" .write
  match invocation.command with
  | .prompt => converse (Reply.promptSession (← now)) ByteArray.empty
  | command@(.tokenize file _) | command@(.parse file) | command@(.run file) =>
    let found ← contents file
    say (command.reply (← now) (fun _ => found) ByteArray.empty)

end LoxLang.Main

open LoxLang in
def main (arguments : List String) : IO UInt32 := do
  match Invocation.ofArguments arguments with
  | .ok invocation => Main.perform invocation
  | .error .version => Main.say ⟨0, Reply.versionText, ""⟩
  | .error .help => Main.say ⟨0, Main.usage, ""⟩
  | .error .misuse => Main.say ⟨2, "", Main.usage⟩
