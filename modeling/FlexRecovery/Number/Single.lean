import FlexRecovery.Number.Significant

/-!
Rules of single-precision arithmetic that the style tokens rest on: how a value is clamped, compared,
rounded and turned into a whole number. A finite single is taken apart into sign, significand and exponent,
and rounded there.
-/

namespace FlexRecovery.Single

/-- Into the unit interval; a value that is no number stays one. -/
def unit (x : Float32) : Float32 := if x < 0 then 0 else if 1 < x then 1 else x

/-- The larger of two, passing over what is no number. -/
def larger (a b : Float32) : Float32 := if a.isNaN then b else if a < b then b else a

/-- The smaller of two, passing over what is no number. -/
def smaller (a b : Float32) : Float32 := if a.isNaN then b else if b < a then b else a

/-- The value `significand * 2 ^ exponent` with a sign. -/
structure Parts where
  negative : Bool
  significand : Nat
  exponent : Int

/-- What is infinite or no number comes out as at least `2 ^ 128`. -/
def parts (x : Float32) : Parts :=
  let bits := x.toBits.toNat
  let scale := bits / 2 ^ 23 % 2 ^ 8
  let fraction := bits % 2 ^ 23
  { negative := decide (2 ^ 31 ≤ bits)
    significand := if scale = 0 then fraction else fraction + 2 ^ 23
    exponent := (max 1 scale : Nat) - 150 }

namespace Parts

/-- A magnitude with the sign. -/
def signed (p : Parts) (n : Nat) : Int := if p.negative then -(n : Int) else n

/-- The magnitude as the nearest whole number, a half away from zero. -/
def nearest (p : Parts) : Nat :=
  if 0 ≤ p.exponent then p.significand * 2 ^ p.exponent.toNat
  else (2 * p.significand + 2 ^ (-p.exponent).toNat) / (2 * 2 ^ (-p.exponent).toNat)

def isWhole (p : Parts) : Bool := decide (0 ≤ p.exponent) || p.significand % 2 ^ (-p.exponent).toNat == 0

end Parts

/-- Into the range of signed numbers of that many bits. -/
def saturate (bits : Nat) (z : Int) : Int :=
  let bound : Nat := 2 ^ (bits - 1)
  max (-bound) (min z (bound - 1))

/-- The nearest whole number, a half away from zero; it saturates at 32 bits, and no number gives 0. -/
def nearest (x : Float32) : Int := if x.isNaN then 0 else saturate 32 ((parts x).signed (parts x).nearest)

/-- The same as a single, which keeps the sign of zero. -/
def rounded (x : Float32) : Float32 :=
  let p := parts x
  if 0 ≤ p.exponent then x
  else if p.negative then -Float32.ofNat p.nearest
  else Float32.ofNat p.nearest

def isWhole (x : Float32) : Bool := !x.isNaN && (parts x).isWhole

/-- A whole value, saturating at 64 bits. -/
def whole (x : Float32) : Int := saturate 64 ((parts x).signed (parts x).nearest)

/-- The nearest single of a double, a tie to the even one. The significand is rounded to 24 bits, or to the
smallest exponent, and a carry out of it goes into the exponent. -/
def ofDouble (x : Float) : Float32 :=
  let bits := x.toBits.toNat
  let scale := bits / 2 ^ 52 % 2 ^ 11
  let fraction := bits % 2 ^ 52
  let sign := bits / 2 ^ 63 * 2 ^ 31
  if scale = 2 ^ 11 - 1 then
    Float32.ofBits (UInt32.ofNat (if fraction = 0 then sign + 255 * 2 ^ 23 else 511 * 2 ^ 22))
  else
    let significand := if scale = 0 then fraction else fraction + 2 ^ 52
    let exponent : Int := (max 1 scale : Nat) - 1075
    let unit := max ((significand.log2 : Int) + exponent - 23) (-149)
    let n :=
      if unit ≤ exponent then significand * 2 ^ (exponent - unit).toNat
      else Number.divNearest significand (2 ^ (unit - exponent).toNat)
    Float32.ofBits (UInt32.ofNat (sign + min ((unit + 149).toNat * 2 ^ 23 + n) (255 * 2 ^ 23)))

end FlexRecovery.Single
