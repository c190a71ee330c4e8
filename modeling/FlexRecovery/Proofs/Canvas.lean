import FlexRecovery.Draft

/-!
The edges of a canvas. A single that is positive and not above the longest edge is rounded to a whole number in
the same range.
-/

namespace FlexRecovery.Single

open Float.Model UnpackedFloat

section unpacking

variable (b : BitVec Format.binary32.numBits)

theorem toNat_unpackMantissa : (unpackMantissa b).toNat = b.toNat % 2 ^ 23 := by
  simp [unpackMantissa, BitVec.extractLsb]

theorem toNat_unpackExponent : (unpackExponent b).toNat = b.toNat / 2 ^ 23 % 2 ^ 8 := by
  simp [unpackExponent, BitVec.extractLsb, Nat.shiftRight_eq_div_pow]

theorem toNat_unpackSign : (unpackSign b).toNat = b.toNat / 2 ^ 31 := by
  have hb : b.toNat < 2 ^ 32 := b.isLt
  rw [show unpackSign b = b.extractLsb 31 31 from rfl]
  simp [BitVec.extractLsb, Nat.shiftRight_eq_div_pow]
  omega

theorem lt_of_positive (h : Sign.ofBitVec (unpackSign b) = .positive) : b.toNat < 2 ^ 31 := by
  have hs := toNat_unpackSign b
  unfold Sign.ofBitVec at h
  split at h
  · next h0 =>
    rw [h0] at hs
    simp at hs
    omega
  · cases h

end unpacking

theorem toNat_implicit {n : Nat} (v : BitVec n) : (1#1 ++ v).toNat = v.toNat + 2 ^ n := by
  rw [BitVec.toNat_append, ← Nat.shiftLeft_add_eq_or_of_lt v.isLt, Nat.add_comm]
  simp [Nat.shiftLeft_eq]

/-- A positive single has the parts that it unpacks to. -/
theorem parts_of_unpack {x : Float32} {m : Nat} {e : Int} {hm : 0 < m}
    (h : x.toModel.unpack = .finite .positive m e hm) : parts x = ⟨false, m, e⟩ ∧ m < 2 ^ 24 := by
  let b : BitVec Format.binary32.numBits := x.toModel.toBits.toBitVec
  have hmantissa := toNat_unpackMantissa b
  have hexponent := toNat_unpackExponent b
  have hlt : b.toNat % 2 ^ 23 < 2 ^ 23 := Nat.mod_lt _ (by decide)
  have hbias : Format.binary32.exponentBias = 127 := rfl
  have hparts : parts x =
      ⟨decide (2 ^ 31 ≤ b.toNat),
        if b.toNat / 2 ^ 23 % 2 ^ 8 = 0 then b.toNat % 2 ^ 23 else b.toNat % 2 ^ 23 + 2 ^ 23,
        (max 1 (b.toNat / 2 ^ 23 % 2 ^ 8) : Nat) - 150⟩ := rfl
  have hunpack : UnpackedFloat.unpack Format.binary32 b = .finite .positive m e hm := h
  unfold UnpackedFloat.unpack at hunpack
  dsimp only at hunpack
  rw [hparts, Parts.mk.injEq, decide_eq_false_iff_not, ← hexponent, ← hmantissa]
  by_cases hones : unpackExponent b = -1#8
  · rw [if_pos hones] at hunpack
    by_cases hzero : unpackMantissa b = 0#23
    · rw [if_pos hzero] at hunpack
      cases hunpack
    · rw [if_neg hzero] at hunpack
      cases hunpack
  rw [if_neg hones] at hunpack
  by_cases hsmall : unpackExponent b = 0#8
  · rw [if_pos hsmall] at hunpack
    by_cases hzero : unpackMantissa b = 0#23
    · rw [dif_pos hzero] at hunpack
      cases hunpack
    · rw [dif_neg hzero] at hunpack
      injection hunpack with hs hm he
      have hneg := lt_of_positive b hs
      rw [hsmall, BitVec.toNat_zero] at hexponent he ⊢
      rw [if_pos rfl]
      omega
  · rw [if_neg hsmall] at hunpack
    injection hunpack with hs hm he
    have hneg := lt_of_positive b hs
    have hz : ¬(unpackExponent b).toNat = 0 := fun hz =>
      hsmall (BitVec.eq_of_toNat_eq (hz.trans BitVec.toNat_zero.symm))
    have hm := (toNat_implicit _).symm.trans hm
    dsimp only at hm
    rw [if_neg hz]
    omega

theorem unpack_zero : (0 : Float32).toModel.unpack = .zero .positive := rfl

theorem unpack_longestEdge :
    Tuning.longestEdge.toModel.unpack = .finite .positive (2 ^ 23) (-9) (by decide) := rfl

/-- A positive single up to the longest edge is finite, and no greater than the edge. -/
theorem unpack_of_isSupported {x : Float32} (h : Draft.isSupported x = true) :
    ∃ m e hm, x.toModel.unpack = .finite .positive m e hm ∧ (e < -9 ∨ e = -9 ∧ m ≤ 2 ^ 23) := by
  obtain ⟨hpos, hle⟩ := Bool.and_eq_true_iff.1 h
  have hpos : (Float32.toModel 0).unpack.lt x.toModel.unpack = true :=
    of_decide_eq_true (of_decide_eq_true hpos)
  have hle : x.toModel.unpack.le Tuning.longestEdge.toModel.unpack = true :=
    of_decide_eq_true (of_decide_eq_true hle)
  rw [unpack_zero] at hpos
  rw [unpack_longestEdge] at hle
  cases hx : x.toModel.unpack with
  | infinity s =>
    rw [hx] at hpos hle
    cases s
    · cases hpos
    · cases hle
  | notANumber =>
    rw [hx] at hpos
    cases hpos
  | zero s =>
    rw [hx] at hpos
    cases hpos
  | finite s m e hm =>
    rw [hx] at hpos hle
    cases s
    · cases hpos
    · refine ⟨m, e, hm, rfl, ?_⟩
      have hle : ((compare e (-9)).then (compare m (2 ^ 23))).isLE = true := hle
      rcases Ordering.isLE_then_iff_or.1 hle with h | ⟨he, hm⟩
      · exact .inl (Int.compare_eq_lt.1 h)
      · exact .inr ⟨Int.compare_eq_eq.1 he, Nat.isLE_compare.1 hm⟩

theorem nearest_of_isSupported {x : Float32} (h : Draft.isSupported x = true) : 0 ≤ nearest x ∧ nearest x ≤ 16384 := by
  obtain ⟨m, e, hm, hx, hle⟩ := unpack_of_isSupported h
  obtain ⟨hp, hlt⟩ := parts_of_unpack hx
  have hs : (parts x).nearest < 16385 := by
    obtain ⟨k, rfl⟩ : ∃ k : Nat, e = -(k : Int) := ⟨e.natAbs, by omega⟩
    rw [hp]
    unfold Parts.nearest
    dsimp only
    rw [if_neg (by omega), Int.neg_neg, Int.toNat_natCast, Nat.div_lt_iff_lt_mul (by have := Nat.two_pow_pos k; omega)]
    by_cases hk : k = 9
    · subst hk
      omega
    · have hk : 2 ^ 10 ≤ 2 ^ k := Nat.pow_le_pow_right (by decide) (by omega)
      omega
  have hsign : (parts x).signed (parts x).nearest = (parts x).nearest := by
    rw [hp]
    rfl
  unfold nearest
  split
  · omega
  · rw [hsign, saturate]
    omega

end FlexRecovery.Single
