import FlexRecovery.Number.Single

/-!
JSON values as they are written: an object keeps its members in order with repetitions, a number keeps
its literal, and a string in which a surrogate stands alone has no text.
-/

namespace FlexRecovery

/-- A number as written: `digits * 10 ^ exponent`. It is `whole` without a point and an exponent. -/
structure Literal where
  negative : Bool
  digits : Nat
  exponent : Int
  whole : Bool
  deriving DecidableEq, Repr

inductive Json where
  | null
  | bool (value : Bool)
  | number (literal : Literal)
  | text (value : Option String)
  | array (items : List Json)
  | object (members : List (Option String × Json))
  deriving Repr

namespace Literal

def ofInt (z : Int) : Literal := ⟨z < 0, z.natAbs, 0, true⟩

/-- The whole number that is written, unless it is a negative zero. -/
def toInt? (l : Literal) : Option Int :=
  if !l.whole || (l.negative && l.digits == 0) then none
  else some (if l.negative then -(l.digits : Int) else l.digits)

/-- As many leading digits as fit 64 bits, and how many were left out. -/
def leading (digits : Nat) : Nat × Nat :=
  let dropped := ((List.range (digits.log2 + 1)).find? fun k => digits / 10 ^ k < 2 ^ 64).getD 0
  (digits / 10 ^ dropped, dropped)

/-- Ten to a power that a double can hold. -/
def power (n : Nat) : Float := Float.ofScientific 1 false n

/-- The double that is read: the leading digits are scaled by one power of ten. Out of range is none. -/
def toFloat? (l : Literal) : Option Float :=
  let (lead, dropped) := leading l.digits
  let exponent := l.exponent + dropped
  let f := lead.toUInt64.toFloat
  let scaled : Option Float :=
    if 0 ≤ exponent then
      if lead = 0 then some f
      else if exponent ≤ 308 then
        let g := f * power exponent.toNat
        if g.isInf then none else some g
      else none
    else
      let down := (-exponent).toNat
      if down ≤ 308 then some (f / power down)
      else if down ≤ 616 then some (f / power 308 / power (down - 308))
      else some 0
  scaled.map fun f => if l.negative then -f else f

/-- Rounded to single precision, a whole number of 64 bits at once and all else by way of the double. -/
def toSingle? (l : Literal) : Option Float32 :=
  if l.whole && decide (l.digits < if l.negative then 2 ^ 63 + 1 else 2 ^ 64) then
    let f := l.digits.toUInt64.toFloat32
    some (if l.negative then -f else f)
  else l.toFloat?.map Single.ofDouble

end Literal

namespace Json

instance : Inhabited Json := ⟨null⟩

def ofInt (z : Int) : Json := number (Literal.ofInt z)

def ofText (s : String) : Json := text (some s)

def ofMembers (members : List (String × Json)) : Json := object (members.map fun (k, v) => (some k, v))

def ofOption (f : α → Json) : Option α → Json
  | none => null
  | some a => f a

def ofList (f : α → Json) (as : List α) : Json := array (as.map f)

/-- The member of that name. -/
def get? (name : String) : Json → Option Json
  | object members => members.lookup (some name)
  | _ => none

def toText? : Json → Option String
  | text s => s
  | _ => none

def toInt? : Json → Option Int
  | number l => l.toInt?
  | _ => none

def toBool? : Json → Option Bool
  | bool b => some b
  | _ => none

def toList? : Json → Option (List Json)
  | array items => some items
  | _ => none

/-- Nesting deeper than this is refused where a value is read. -/
def deepest : Nat := 127

mutual

/-- Every string has a text, every number a value, and nothing is nested too deep. -/
def readable (depth : Nat) : Json → Bool
  | null | bool _ => true
  | number l => l.toFloat?.isSome
  | text s => s.isSome
  | array items => decide (depth < deepest) && readableItems (depth + 1) items
  | object members => decide (depth < deepest) && readableMembers (depth + 1) members

def readableItems (depth : Nat) : List Json → Bool
  | [] => true
  | j :: js => readable depth j && readableItems depth js

def readableMembers (depth : Nat) : List (Option String × Json) → Bool
  | [] => true
  | (k, j) :: ms => k.isSome && readable depth j && readableMembers depth ms

end

mutual

/-- Each member once, with its last value. -/
def collapse : Json → Json
  | array items => array (collapseItems items)
  | object members => object (collapseMembers members)
  | j => j

def collapseItems : List Json → List Json
  | [] => []
  | j :: js => collapse j :: collapseItems js

def collapseMembers : List (Option String × Json) → List (Option String × Json)
  | [] => []
  | (k, j) :: ms =>
    let rest := collapseMembers ms
    if rest.any (·.1 == k) then rest else (k, collapse j) :: rest

end

end Json

end FlexRecovery
