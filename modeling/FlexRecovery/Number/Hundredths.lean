import FlexRecovery.Number.Significant
import FlexRecovery.Number.Single

/-! The text of a length: at most two decimals, and no zeros after them. -/

namespace FlexRecovery.Single

/-- The magnitude in hundredths, a half going to the even neighbour. -/
def Parts.hundredths (p : Parts) : Nat :=
  if 0 ≤ p.exponent then p.significand * 100 * 2 ^ p.exponent.toNat
  else Number.divNearest (p.significand * 100) (2 ^ (-p.exponent).toNat)

/-- Two digits, whatever the number of hundredths. -/
def twoDigits (n : Nat) : String := if n < 10 then "0" ++ toString n else toString n

def Parts.twoPlaces (p : Parts) : String :=
  (if p.negative then "-" else "") ++ toString (p.hundredths / 100) ++ "." ++ twoDigits (p.hundredths % 100)

def dropZeros (s : String) : String := String.ofList (s.toList.reverse.dropWhile (· == '0')).reverse

/-- Rounded to hundredths; a whole number has no point, and what is no number reads `NaN`. -/
def text (x : Float32) : String :=
  let v := rounded (x * 100) / 100
  if isWhole v then toString (whole v)
  else if v.isNaN then "NaN"
  else dropZeros (parts v).twoPlaces

end FlexRecovery.Single
