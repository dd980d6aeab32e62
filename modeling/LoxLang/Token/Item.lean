import LoxLang.Token.Piece

/-! What reading a source yields: tokens and faults in the order of the text, each with the line it ends on. -/

namespace LoxLang

inductive Item
  | token (t : Token)
  | fault (cause : LexicalFault) (line : Nat)
deriving DecidableEq, Repr

namespace Item

/-- The items of pieces that begin on a line; the last of them marks the end. -/
def ofPieces (line : Nat) : List Piece → List Item
  | [] => [.token ⟨.eof, "", line⟩]
  | p :: rest =>
    let line := line + p.text.count '\n'
    match p.shape with
    | .token kind => .token ⟨kind, String.ofList p.text, line⟩ :: ofPieces line rest
    | .fault cause => .fault cause line :: ofPieces line rest
    | .blank | .comment => ofPieces line rest

def token? : Item → Option Token
  | token t => some t
  | fault .. => none

def fault? : Item → Option (LexicalFault × Nat)
  | token _ => none
  | fault cause line => some (cause, line)

end Item

/-- The items of a source text. -/
def items (source : String) : List Item := Item.ofPieces 1 (pieces source.toList)

def tokens (source : String) : List Token := (items source).filterMap Item.token?

def lexicalFaults (source : String) : List (LexicalFault × Nat) := (items source).filterMap Item.fault?

end LoxLang
