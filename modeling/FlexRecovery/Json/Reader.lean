import FlexRecovery.Json

/-! Reading JSON text, strictly: no comments, no trailing commas, nothing after the value but blanks. -/

namespace FlexRecovery.Json

def skipBlanks (cs : List Char) : List Char :=
  cs.dropWhile fun c => c == ' ' || c == '\t' || c == '\n' || c == '\r'

def digitOf? (c : Char) : Option Nat := if c.isDigit then some (c.toNat - 48) else none

/-- The value of the leading digits on top of `acc`, how many there are, and the rest. -/
def readDigits (acc count : Nat) : List Char → Nat × Nat × List Char
  | [] => (acc, count, [])
  | c :: cs =>
    match digitOf? c with
    | some d => readDigits (10 * acc + d) (count + 1) cs
    | none => (acc, count, c :: cs)

/-- An exponent part, if there is one. -/
def readExponent (l : Literal) (cs : List Char) : Option (Literal × List Char) :=
  match cs with
  | c :: cs =>
    if c == 'e' || c == 'E' then
      let (down, cs) := match cs with
        | '+' :: cs => (false, cs)
        | '-' :: cs => (true, cs)
        | cs => (false, cs)
      let (n, count, rest) := readDigits 0 0 cs
      if count = 0 then none
      else some ({ l with exponent := l.exponent + (if down then -(n : Int) else n), whole := false }, rest)
    else some (l, c :: cs)
  | [] => some (l, [])

/-- A fraction part, if there is one. -/
def readFraction (l : Literal) (cs : List Char) : Option (Literal × List Char) :=
  match cs with
  | '.' :: cs =>
    let (n, count, rest) := readDigits l.digits 0 cs
    if count = 0 then none
    else readExponent { l with digits := n, exponent := -(count : Int), whole := false } rest
  | cs => readExponent l cs

def readNumber (cs : List Char) : Option (Literal × List Char) :=
  let (negative, cs) := match cs with
    | '-' :: cs => (true, cs)
    | cs => (false, cs)
  let (n, count, rest) := readDigits 0 0 cs
  if count = 0 || (cs.head? == some '0' && 1 < count) then none
  else readFraction ⟨negative, n, 0, true⟩ rest

def hexOf? (c : Char) : Option Nat :=
  if c.isDigit then some (c.toNat - 48)
  else if 'a' ≤ c && c ≤ 'f' then some (c.toNat - 87)
  else if 'A' ≤ c && c ≤ 'F' then some (c.toNat - 55)
  else none

def escaped? : Char → Option Char
  | '"' => some '"'
  | '\\' => some '\\'
  | '/' => some '/'
  | 'b' => some '\x08'
  | 'f' => some '\x0c'
  | 'n' => some '\n'
  | 'r' => some '\r'
  | 't' => some '\t'
  | _ => none

/-- What a string holds so far: its characters in reverse, a high surrogate that waits for its low one,
and whether a surrogate was left alone. -/
structure Spelled where
  chars : List Char := []
  high : Option Nat := none
  broken : Bool := false

namespace Spelled

def push (s : Spelled) (c : Char) : Spelled :=
  { chars := c :: s.chars, broken := s.broken || s.high.isSome }

/-- A code unit that was written as an escape. -/
def pushUnit (s : Spelled) (u : Nat) : Spelled :=
  if 0xD800 ≤ u && u < 0xDC00 then { s with high := some u, broken := s.broken || s.high.isSome }
  else if 0xDC00 ≤ u && u < 0xE000 then
    match s.high with
    | some h => { s with chars := Char.ofNat (0x10000 + (h - 0xD800) * 0x400 + (u - 0xDC00)) :: s.chars, high := none }
    | none => { s with broken := true }
  else s.push (Char.ofNat u)

def text (s : Spelled) : Option String :=
  if s.broken || s.high.isSome then none else some (String.ofList s.chars.reverse)

end Spelled

/-- The rest of a string after its opening quote. -/
def readText (s : Spelled) : List Char → Option (Option String × List Char)
  | [] => none
  | '"' :: cs => some (s.text, cs)
  | '\\' :: 'u' :: a :: b :: c :: d :: cs =>
    match hexOf? a, hexOf? b, hexOf? c, hexOf? d with
    | some a, some b, some c, some d => readText (s.pushUnit (((a * 16 + b) * 16 + c) * 16 + d)) cs
    | _, _, _, _ => none
  | '\\' :: c :: cs =>
    match escaped? c with
    | some c => readText (s.push c) cs
    | none => none
  | c :: cs => if c == '\\' || c.toNat < 32 then none else readText (s.push c) cs

mutual

/-- One value. The budget bounds how deep the recursion goes; the length of the text suffices. -/
def readValue (budget : Nat) (cs : List Char) : Option (Json × List Char) :=
  match budget with
  | 0 => none
  | budget + 1 =>
    match skipBlanks cs with
    | 'n' :: 'u' :: 'l' :: 'l' :: cs => some (null, cs)
    | 't' :: 'r' :: 'u' :: 'e' :: cs => some (bool true, cs)
    | 'f' :: 'a' :: 'l' :: 's' :: 'e' :: cs => some (bool false, cs)
    | '"' :: cs => (readText {} cs).map fun (s, cs) => (text s, cs)
    | '[' :: cs =>
      match skipBlanks cs with
      | ']' :: cs => some (array [], cs)
      | cs => (readItems budget cs).map fun (items, cs) => (array items, cs)
    | '\x7b' :: cs =>
      match skipBlanks cs with
      | '\x7d' :: cs => some (object [], cs)
      | cs => (readMembers budget cs).map fun (members, cs) => (object members, cs)
    | cs => (readNumber cs).map fun (l, cs) => (number l, cs)

/-- The items up to the closing bracket, at least one. -/
def readItems (budget : Nat) (cs : List Char) : Option (List Json × List Char) :=
  match budget with
  | 0 => none
  | budget + 1 =>
    match readValue budget cs with
    | none => none
    | some (j, cs) =>
      match skipBlanks cs with
      | ',' :: cs => (readItems budget cs).map fun (js, cs) => (j :: js, cs)
      | ']' :: cs => some ([j], cs)
      | _ => none

/-- The members up to the closing brace, at least one. -/
def readMembers (budget : Nat) (cs : List Char) : Option (List (Option String × Json) × List Char) :=
  match budget with
  | 0 => none
  | budget + 1 =>
    match skipBlanks cs with
    | '"' :: cs =>
      match readText {} cs with
      | none => none
      | some (k, cs) =>
        match skipBlanks cs with
        | ':' :: cs =>
          match readValue budget cs with
          | none => none
          | some (j, cs) =>
            match skipBlanks cs with
            | ',' :: cs => (readMembers budget cs).map fun (ms, cs) => ((k, j) :: ms, cs)
            | '\x7d' :: cs => some ([(k, j)], cs)
            | _ => none
        | _ => none
    | _ => none

end

/-- The one value of a text. -/
def parse? (s : String) : Option Json :=
  let cs := s.toList
  match readValue (2 * cs.length + 2) cs with
  | some (j, rest) => if (skipBlanks rest).isEmpty then some j else none
  | none => none

end FlexRecovery.Json
