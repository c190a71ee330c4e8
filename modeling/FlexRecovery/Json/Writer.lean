import FlexRecovery.Json

/-! Writing JSON text without blanks. -/

namespace FlexRecovery.Json

def hexDigit (n : Nat) : Char := if n < 10 then Char.ofNat (48 + n) else Char.ofNat (87 + n)

/-- Quotes, backslashes and control characters are escaped, all else stands for itself. -/
def escape (c : Char) : List Char :=
  match c with
  | '"' => ['\\', '"']
  | '\\' => ['\\', '\\']
  | '\x08' => ['\\', 'b']
  | '\x0c' => ['\\', 'f']
  | '\n' => ['\\', 'n']
  | '\r' => ['\\', 'r']
  | '\t' => ['\\', 't']
  | c => if c.toNat < 32 then ['\\', 'u', '0', '0', hexDigit (c.toNat / 16), hexDigit (c.toNat % 16)] else [c]

def quote (s : String) : String := "\"" ++ String.ofList (s.toList.flatMap escape) ++ "\""

def renderLiteral (l : Literal) : String :=
  (if l.negative then "-" else "") ++ toString l.digits ++
    if l.whole then "" else "e" ++ toString l.exponent

mutual

def render : Json → String
  | null => "null"
  | bool b => if b then "true" else "false"
  | number l => renderLiteral l
  | text s => quote (s.getD "")
  | array items => "[" ++ ",".intercalate (renderItems items) ++ "]"
  | object members => "\x7b" ++ ",".intercalate (renderMembers members) ++ "\x7d"

def renderItems : List Json → List String
  | [] => []
  | j :: js => render j :: renderItems js

def renderMembers : List (Option String × Json) → List String
  | [] => []
  | (k, j) :: ms => (quote (k.getD "") ++ ":" ++ render j) :: renderMembers ms

end

end FlexRecovery.Json
