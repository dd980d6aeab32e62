import LoxLang.Token.Item

/-! Tokens as an indented listing of objects with the members `token_type`, `lexeme` and `line`. A kind is
its name; the kind of a literal is an object from its name to its value. -/

namespace LoxLang.Listing

def hexDigit (n : Nat) : Char := Nat.digitChar n

/-- A character inside quotes: quote, backslash and controls are escaped, all others stand for themselves. -/
def escape (c : Char) : List Char :=
  match c with
  | '"' => ['\\', '"']
  | '\\' => ['\\', '\\']
  | '\x08' => ['\\', 'b']
  | '\x0c' => ['\\', 'f']
  | '\n' => ['\\', 'n']
  | '\r' => ['\\', 'r']
  | '\t' => ['\\', 't']
  | _ =>
    if c.toNat < 0x20 then ['\\', 'u', '0', '0', hexDigit (c.toNat / 16), hexDigit (c.toNat % 16)] else [c]

def quoted (s : String) : String := String.ofList ('"' :: s.toList.flatMap escape ++ ['"'])

/-- A member of an object at the given indentation. -/
def member (indent key value : String) : String := indent ++ quoted key ++ ": " ++ value

/-- An object whose members are already written, closed at the given indentation. -/
def object (indent : String) (members : List String) : String :=
  "\x7b\n" ++ String.intercalate ",\n" members ++ "\n" ++ indent ++ "\x7d"

def kind (k : Kind) : String :=
  match k with
  | .string text => object "    " [member "      " k.name (quoted text)]
  | .number value => object "    " [member "      " k.name value.inListing]
  | _ => quoted k.name

def token (t : Token) : String :=
  "  " ++ object "  "
    [member "    " "token_type" (kind t.kind), member "    " "lexeme" (quoted t.lexeme),
     member "    " "line" (toString t.line)]

end LoxLang.Listing

namespace LoxLang

/-- The listing of at least one token. -/
def listing (tokens : List Token) : String :=
  "[\n" ++ String.intercalate ",\n" (tokens.map Listing.token) ++ "\n]"

end LoxLang
