import LoxLang.Grammar.Statement

/-! Programs and lone expressions from tokens. Either there is no fault, and the tree is given, or all faults
are given. Node ids continue from those given out before. -/

namespace LoxLang

/-- A tree or the faults that prevent one, with the next node id. -/
structure Parsed (α : Type) where
  result : Except (List Diagnostic) α
  nextId : NodeId

namespace Parsed

/-- Runs a reader over tokens. No fault is left out, so the list is empty only if the bound is exhausted. -/
def run {α : Type} (reader : Nat → Reader α) (tokens : List Token) (nextId : NodeId) : Parsed α :=
  let start := Cursor.ofTokens tokens nextId
  match reader (start.rest.length + 1) start with
  | .ok a c => ⟨if c.faults.isEmpty then .ok a else .error c.faults, c.nextId⟩
  | .error (.fault d) c => ⟨.error (c.faults ++ [d]), c.nextId⟩
  | .error .exhausted c => ⟨.error [], c.nextId⟩

def program (lenient : Bool) (tokens : List Token) (nextId : NodeId) : Parsed (List Stmt) :=
  run (Grammar.program lenient) tokens nextId

def expression (tokens : List Token) (nextId : NodeId) : Parsed Expr :=
  run Grammar.loneExpression tokens nextId

/-- Reads a source text: its lexical faults come first, then those found in the tokens there are. -/
def ofSource {α : Type} (read : List Token → NodeId → Parsed α) (source : String) (nextId : NodeId) : Parsed α :=
  let parsed := read (tokens source) nextId
  match lexicalDiagnostics source, parsed.result with
  | [], result => ⟨result, parsed.nextId⟩
  | faults, .ok _ => ⟨.error faults, parsed.nextId⟩
  | faults, .error more => ⟨.error (faults ++ more), parsed.nextId⟩

end Parsed

end LoxLang
