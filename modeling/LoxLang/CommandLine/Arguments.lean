/-! What the arguments of the command line ask for. They are read from left to right, and the first that does
not fit decides. -/

namespace LoxLang

inductive Command
  | tokenize (file : String) (asListing : Bool)
  | parse (file : String)
  | run (file : String)
  | prompt
deriving DecidableEq, Repr

structure Invocation where
  command : Command
  /-- Is a log wanted? -/
  log : Bool
deriving DecidableEq, Repr

/-- Why arguments ask for no command. -/
inductive Refusal
  | version
  | help
  | misuse
deriving DecidableEq, Repr

namespace Arguments

inductive Argument
  /-- All that follow are words. -/
  | separator
  | log
  | json
  | version
  | help
  | unknown
  | word (text : String)
deriving DecidableEq, Repr

/-- Options of one letter are told by the first; a lone dash is a word. -/
def Argument.ofText (text : String) : Argument :=
  if text = "--" then .separator
  else if text = "--log" then .log
  else if text = "--json" then .json
  else if text = "--version" then .version
  else if text = "--help" then .help
  else match text.toList with
    | '-' :: 'V' :: _ => .version
    | '-' :: 'h' :: _ => .help
    | '-' :: _ :: _ => .unknown
    | _ => .word text

inductive Verb
  | tokenize
  | parse
  | run
  | prompt
deriving DecidableEq, Repr

def Verb.ofWord? : String → Option Verb
  | "tokenize" => some .tokenize
  | "parse" => some .parse
  | "run" => some .run
  | "repl" => some .prompt
  | _ => none

/-- What has been read so far. -/
structure Read where
  file : Option String
  log : Bool
  json : Bool

def nothing : Read := ⟨none, false, false⟩

/-- A word names the one file; the empty word names none. -/
def placeFile (r : Read) (word : String) : Except Refusal Read :=
  if word = "" || r.file.isSome then throw .misuse else return { r with file := some word }

def setLog (r : Read) : Except Refusal Read := if r.log then throw .misuse else return { r with log := true }

def setJson (r : Read) : Except Refusal Read := if r.json then throw .misuse else return { r with json := true }

/-- Takes the words after a verb. -/
def Verb.place (v : Verb) (r : Read) (word : String) : Except Refusal Read :=
  if v = .prompt then throw .misuse else placeFile r word

def Verb.finish (v : Verb) (r : Read) : Except Refusal Invocation :=
  match v, r.file with
  | .prompt, _ => return ⟨.prompt, r.log⟩
  | .tokenize, some file => return ⟨.tokenize file r.json, r.log⟩
  | .parse, some file => return ⟨.parse file, r.log⟩
  | .run, some file => return ⟨.run file, r.log⟩
  | _, none => throw .misuse

/-- The arguments after a verb. -/
def afterVerb (v : Verb) (r : Read) : List String → Except Refusal Invocation
  | [] => v.finish r
  | text :: rest =>
    match Argument.ofText text with
    | .separator => do v.finish (← rest.foldlM v.place r)
    | .log => do afterVerb v (← setLog r) rest
    | .json => do if v = .tokenize then afterVerb v (← setJson r) rest else throw .misuse
    | .help => throw .help
    | .version | .unknown => throw .misuse
    | .word word => do afterVerb v (← v.place r word) rest

/-- A request for help may name one verb. -/
def afterHelp : List String → Refusal
  | [] => .help
  | [word] => if word = "help" || (Verb.ofWord? word).isSome then .help else .misuse
  | _ => .misuse

def finishBare (r : Read) : Except Refusal Invocation :=
  match r.file with
  | some file => return ⟨.run file, r.log⟩
  | none => return ⟨.prompt, r.log⟩

/-- The arguments without a verb: one file to run, or none for the prompt. -/
def bare (r : Read) : List String → Except Refusal Invocation
  | [] => finishBare r
  | text :: rest =>
    match Argument.ofText text with
    | .separator => do finishBare (← rest.foldlM placeFile r)
    | .log => do bare (← setLog r) rest
    | .version => throw .version
    | .help => throw .help
    | .json | .unknown => throw .misuse
    | .word word => do bare (← placeFile r word) rest

end Arguments

open Arguments in
/-- Reads all arguments. A verb counts only in the first place. -/
def Invocation.ofArguments (arguments : List String) : Except Refusal Invocation :=
  match arguments with
  | [] => bare nothing []
  | "help" :: rest => throw (afterHelp rest)
  | first :: rest =>
    match Verb.ofWord? first with
    | some verb => afterVerb verb nothing rest
    | none => bare nothing arguments

end LoxLang
