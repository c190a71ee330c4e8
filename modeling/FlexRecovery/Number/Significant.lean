/-! Whole numbers as a single-precision float holds them: 24 significant bits, ties to even. -/

namespace FlexRecovery.Number

/-- Powers of whole numbers are the built-in ones, whatever algebra is imported beside them. -/
@[default_instance 10000]
instance (priority := 10000) powNat : Pow Nat Nat := instPowNat

/-- The quotient rounded to the nearest whole number, a tie to the even one. -/
def divNearest (n d : Nat) : Nat :=
  let q := n / d
  let r := n % d
  if d < 2 * r then q + 1
  else if 2 * r = d then q + q % 2
  else q

/-- The nearest number with at most 24 significant bits. -/
def roundBits (n : Nat) : Nat :=
  if n < 2 ^ 24 then n
  else
    let unit := 2 ^ (n.log2 - 23)
    divNearest n unit * unit

/-- The sign is kept and the magnitude rounded. -/
def toSingle (z : Int) : Int :=
  match z with
  | .ofNat n => roundBits n
  | .negSucc n => -(roundBits (n + 1) : Int)

theorem roundBits_of_lt {n : Nat} (h : n < 2 ^ 24) : roundBits n = n := by
  unfold roundBits
  rw [if_pos h]

theorem toSingle_of_small {z : Int} (h : z.natAbs < 2 ^ 24) : toSingle z = z := by
  cases z with
  | ofNat n =>
    have h' : n < 2 ^ 24 := h
    show ((roundBits n : Nat) : Int) = n
    rw [roundBits_of_lt h']
  | negSucc n =>
    have h' : n + 1 < 2 ^ 24 := h
    show -((roundBits (n + 1) : Nat) : Int) = Int.negSucc n
    rw [roundBits_of_lt h']
    rfl

end FlexRecovery.Number
