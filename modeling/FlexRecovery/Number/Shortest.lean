import FlexRecovery.Number.Single

/-!
The fewest decimal digits that read back as the same single. The reals that round to a single form an
interval; the coarsest decimal grid with a point in it gives the digits, and of two such points the
nearer one.
-/

namespace FlexRecovery.Single

/-- The reals that round to a value, in quarters of its last place. -/
structure Interval where
  low : Nat
  middle : Nat
  high : Nat
  closed : Bool

/-- Below a power of two the neighbour is only half as far away. -/
def Parts.interval (p : Parts) : Interval :=
  { low := 4 * p.significand - (if p.significand = 2 ^ 23 ∧ -149 < p.exponent then 1 else 2)
    middle := 4 * p.significand
    high := 4 * p.significand + 2
    closed := p.significand % 2 == 0 }

/-- A quarter of the last place over the grid `10 ^ place`, as a fraction. -/
def Parts.ratio (p : Parts) (place : Int) : Nat × Nat :=
  let e := p.exponent - 2
  (2 ^ e.toNat * 10 ^ (-place).toNat, 2 ^ (-e).toNat * 10 ^ place.toNat)

/-- The point of the grid that stands for the value, if one lies in its interval. -/
def Parts.onGrid (p : Parts) (place : Int) : Option Nat :=
  let i := p.interval
  let (num, den) := p.ratio place
  let inside (t : Nat) : Bool :=
    decide (0 < t) && (if i.closed then decide (i.low * num ≤ t * den ∧ t * den ≤ i.high * num)
      else decide (i.low * num < t * den ∧ t * den < i.high * num))
  let below := i.middle * num / den
  if inside below && inside (below + 1) then
    if i.middle * num - below * den < (below + 1) * den - i.middle * num then some below
    else some (below + 1)
  else if inside below then some below
  else if inside (below + 1) then some (below + 1)
  else none

/-- Every decimal place that a finite single can need, the coarsest first. -/
def places : List Int := (List.range 86).map fun (n : Nat) => 39 - (n : Int)

def Parts.digits (p : Parts) : Nat × Int :=
  (places.findSome? fun place => (p.onGrid place).map (·, place)).getD (0, 0)

/-- Digits and place written without an exponent. -/
def positional (digits : Nat) (place : Int) : String :=
  if 0 ≤ place then toString digits ++ String.ofList (List.replicate place.toNat '0')
  else
    let after := (-place).toNat
    let cs := (toString digits).toList
    let cs := List.replicate (after + 1 - cs.length) '0' ++ cs
    String.ofList (cs.take (cs.length - after)) ++ "." ++ String.ofList (cs.drop (cs.length - after))

/-- A whole number has no point, and zero keeps its sign. -/
def shortest (x : Float32) : String :=
  if x.isNaN then "NaN"
  else
    let p := parts x
    (if p.negative then "-" else "") ++
      if x.isInf then "inf"
      else if p.significand = 0 then "0"
      else positional p.digits.1 p.digits.2

end FlexRecovery.Single
