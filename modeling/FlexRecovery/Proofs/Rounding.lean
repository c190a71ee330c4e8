import FlexRecovery.Number.Significant
import Mathlib.Tactic.Ring

/-! Rounding to singles keeps the order of whole numbers, and doubling is exact. -/

namespace FlexRecovery.Number

theorem le_divNearest (n d : Nat) : n / d ≤ divNearest n d := by
  unfold divNearest
  dsimp only
  split
  · omega
  · split <;> omega

theorem divNearest_le (n d : Nat) : divNearest n d ≤ n / d + 1 := by
  unfold divNearest
  dsimp only
  split
  · omega
  · split <;> omega

theorem divNearest_mono {m n : Nat} (d : Nat) (h : m ≤ n) : divNearest m d ≤ divNearest n d := by
  have hq : m / d ≤ n / d := Nat.div_le_div_right h
  rcases Nat.lt_or_eq_of_le hq with hlt | heq
  · have h1 := divNearest_le m d
    have h2 := le_divNearest n d
    omega
  · have hm := Nat.div_add_mod m d
    have hn := Nat.div_add_mod n d
    rw [heq] at hm
    have hr : m % d ≤ n % d := by omega
    unfold divNearest
    dsimp only
    rw [heq]
    split_ifs <;> omega

theorem divNearest_two_mul (n d : Nat) : divNearest (2 * n) (2 * d) = divNearest n d := by
  unfold divNearest
  rw [Nat.mul_div_mul_left _ _ (by omega), Nat.mul_mod_mul_left]
  dsimp only
  split_ifs <;> omega

/-- A power of two of that size is met exactly. -/
theorem divNearest_of_dvd {d q : Nat} (hd : 0 < d) : divNearest (q * d) d = q := by
  unfold divNearest
  rw [Nat.mul_div_cancel _ hd, Nat.mul_mod_left]
  dsimp only
  split_ifs <;> omega

/-- Between two neighbouring powers of two, rounding stays between them. -/
theorem roundBits_bounds {n k : Nat} (hk : 24 ≤ k) (h : 2 ^ k ≤ n) (h' : n < 2 ^ (k + 1)) :
    2 ^ k ≤ roundBits n ∧ roundBits n ≤ 2 ^ (k + 1) := by
  have hlog : n.log2 = k := (Nat.log2_eq_iff (by have := Nat.two_pow_pos k; omega)).2 ⟨h, h'⟩
  have hlow : ¬n < 2 ^ 24 := by
    have := Nat.pow_le_pow_right (n := 2) (by omega) hk
    omega
  obtain ⟨e, rfl⟩ : ∃ e, k = 23 + e := ⟨k - 23, by omega⟩
  have hu : 0 < 2 ^ e := Nat.two_pow_pos e
  unfold roundBits
  rw [if_neg hlow, hlog]
  dsimp only
  rw [Nat.add_sub_cancel_left]
  have h1 : 2 ^ (23 + e) = 2 ^ 23 * 2 ^ e := pow_add 2 23 e
  have h2 : 2 ^ (23 + e + 1) = 2 ^ 24 * 2 ^ e := by ring
  rw [h1] at h ⊢
  rw [h2] at h' ⊢
  have hlo := divNearest_mono (2 ^ e) h
  have hhi := divNearest_mono (2 ^ e) h'.le
  rw [divNearest_of_dvd hu] at hlo hhi
  exact ⟨Nat.mul_le_mul_right _ hlo, Nat.mul_le_mul_right _ hhi⟩

theorem roundBits_mono {m n : Nat} (h : m ≤ n) : roundBits m ≤ roundBits n := by
  by_cases hn : n < 2 ^ 24
  · rw [roundBits_of_lt hn, roundBits_of_lt (by omega)]
    exact h
  · have hn0 : n ≠ 0 := by omega
    have hkn : 24 ≤ n.log2 := (Nat.le_log2 hn0).2 (by omega)
    have hbn := roundBits_bounds hkn (Nat.log2_self_le hn0) Nat.lt_log2_self
    by_cases hm : m < 2 ^ 24
    · have := Nat.pow_le_pow_right (n := 2) (by omega) hkn
      rw [roundBits_of_lt hm]
      omega
    · have hm0 : m ≠ 0 := by omega
      have hkm : 24 ≤ m.log2 := (Nat.le_log2 hm0).2 (by omega)
      have hbm := roundBits_bounds hkm (Nat.log2_self_le hm0) Nat.lt_log2_self
      have hle : m.log2 ≤ n.log2 := (Nat.le_log2 hn0).2 ((Nat.log2_self_le hm0).trans h)
      rcases Nat.lt_or_eq_of_le hle with hlt | heq
      · have := Nat.pow_le_pow_right (n := 2) (by omega) (Nat.succ_le_of_lt hlt)
        omega
      · unfold roundBits
        rw [if_neg hm, if_neg hn, heq]
        exact Nat.mul_le_mul_right _ (divNearest_mono _ h)

theorem roundBits_two_mul (n : Nat) : roundBits (2 * n) = 2 * roundBits n := by
  by_cases h : 2 * n < 2 ^ 24
  · rw [roundBits_of_lt h, roundBits_of_lt (by omega)]
  · have hn0 : n ≠ 0 := by omega
    have hlog : (2 * n).log2 = n.log2 + 1 := Nat.log2_two_mul hn0
    by_cases hn : n < 2 ^ 24
    · have hk : n.log2 = 23 := (Nat.log2_eq_iff hn0).2 ⟨by omega, hn⟩
      rw [roundBits_of_lt hn, roundBits, if_neg h, hlog, hk]
      dsimp only
      have hd := divNearest_of_dvd (q := n) (d := 2) (by omega)
      rw [Nat.mul_comm] at hd
      rw [show 23 + 1 - 23 = 1 from rfl, pow_one, hd, Nat.mul_comm]
    · have hk : 24 ≤ n.log2 := (Nat.le_log2 hn0).2 (by omega)
      rw [roundBits, roundBits, if_neg h, if_neg hn, hlog]
      dsimp only
      rw [show n.log2 + 1 - 23 = (n.log2 - 23) + 1 by omega, pow_succ, Nat.mul_comm _ 2, divNearest_two_mul]
      ring

theorem toSingle_natCast (n : Nat) : toSingle n = roundBits n := rfl

theorem toSingle_nonpos {z : Int} (h : z ≤ 0) : toSingle z ≤ 0 := by
  cases z with
  | ofNat n =>
    obtain rfl : n = 0 := by
      rw [Int.ofNat_eq_natCast] at h
      omega
    exact le_rfl
  | negSucc n =>
    have := Int.natCast_nonneg (roundBits (n + 1))
    change -((roundBits (n + 1) : Nat) : Int) ≤ 0
    omega

/-- Twice a length that is at most half of another one is at most the other one, also as singles. -/
theorem two_mul_toSingle_le {z : Int} {n : Nat} (h : 2 * z ≤ n) : 2 * toSingle z ≤ toSingle n := by
  rw [toSingle_natCast]
  have hn := Int.natCast_nonneg (roundBits n)
  rcases Int.le_total z 0 with hz | hz
  · have := toSingle_nonpos hz
    omega
  · obtain ⟨m, rfl⟩ := Int.eq_ofNat_of_zero_le hz
    have hm : roundBits (2 * m) ≤ roundBits n := roundBits_mono (by omega)
    rw [roundBits_two_mul] at hm
    rw [toSingle_natCast]
    omega

end FlexRecovery.Number
