import ToolBatching.Number.Rounding
import ToolBatching.Proofs.Number.NearestFloat

namespace ToolBatching.Number

open Float.Model Float.Model.UnpackedFloat

def value (x : Float) : ℚ :=
  signedNumerator x / denominator x

/-- Two floats are finite and their values differ by no more than a bound. -/
def Within (bound : ℚ) (x y : Float) : Prop :=
  x.isFinite = true ∧ y.isFinite = true ∧ |value x - value y| ≤ bound

instance (bound : ℚ) (x y : Float) : Decidable (Within bound x y) :=
  inferInstanceAs (Decidable (_ ∧ _ ∧ _))

theorem Within.mono {bound wider : ℚ} {x y : Float} (h : Within bound x y)
    (hwider : bound ≤ wider) : Within wider x y :=
  ⟨h.1, h.2.1, h.2.2.trans hwider⟩

theorem toNat_unpackExponent (b : BitVec 64) :
    (@unpackExponent Format.binary64 b).toNat = b.toNat / 2 ^ 52 % 2 ^ 11 := by
  simp [unpackExponent, Nat.shiftRight_eq_div_pow]

theorem toNat_unpackMantissa (b : BitVec 64) :
    (@unpackMantissa Format.binary64 b).toNat = b.toNat % 2 ^ 52 := by
  simp [unpackMantissa]

theorem toNat_unpackSign (b : BitVec 64) :
    (@unpackSign Format.binary64 b).toNat = b.toNat / 2 ^ 63 := by
  have hb : b.toNat < 2 ^ 64 := b.isLt
  change (b.extractLsb' 63 1).toNat = _
  simp [Nat.shiftRight_eq_div_pow]
  generalize b.toNat = n at hb ⊢
  omega

def signOf (x : Float) : Sign :=
  if isNegative x then .negative else .positive

theorem unpackSign_eq (x : Float) :
    Sign.ofBitVec (@unpackSign Format.binary64 x.toModel.toBits.toBitVec) = signOf x := by
  have hbits : x.toBits.toNat = x.toModel.toBits.toBitVec.toNat := rfl
  have hlt : x.toModel.toBits.toBitVec.toNat < 2 ^ 64 := x.toModel.toBits.toBitVec.isLt
  have hpositive : @unpackSign Format.binary64 x.toModel.toBits.toBitVec = 0#1 ↔
      isNegative x = false := by
    rw [← BitVec.toNat_inj, toNat_unpackSign, isNegative, hbits]
    generalize x.toModel.toBits.toBitVec.toNat = n at hlt
    simp
    omega
  unfold Sign.ofBitVec signOf
  simp only [hpositive]
  cases isNegative x <;> rfl

/-- What the bits of a float stand for, told by its fields. -/
theorem unpack_eq (x : Float) :
    x.toModel.unpack =
      if exponentField x = 2047 then
        if fractionField x = 0 then .infinity (signOf x) else .notANumber
      else if h : mantissa x = 0 then .zero (signOf x)
      else .finite (signOf x) (mantissa x) (exponent x) (Nat.pos_of_ne_zero h) := by
  have hexponent : (@unpackExponent Format.binary64 x.toModel.toBits.toBitVec).toNat =
      exponentField x := toNat_unpackExponent _
  have hfraction : (@unpackMantissa Format.binary64 x.toModel.toBits.toBitVec).toNat =
      fractionField x := toNat_unpackMantissa _
  have hfull : @unpackExponent Format.binary64 x.toModel.toBits.toBitVec = -1#11 ↔
      exponentField x = 2047 := by
    rw [← BitVec.toNat_inj, hexponent]
    rfl
  have hempty : @unpackExponent Format.binary64 x.toModel.toBits.toBitVec = 0#11 ↔
      exponentField x = 0 := by
    rw [← BitVec.toNat_inj, hexponent]
    rfl
  have hnone : @unpackMantissa Format.binary64 x.toModel.toBits.toBitVec = 0#52 ↔
      fractionField x = 0 := by
    rw [← BitVec.toNat_inj, hfraction]
    rfl
  unfold Float.Model.unpack UnpackedFloat.unpack
  simp only [hfull, hempty, hnone, unpackSign_eq]
  by_cases h2047 : exponentField x = 2047
  · simp only [h2047, if_true]
  · simp only [h2047, if_false]
    by_cases hzero : exponentField x = 0
    · have hmantissa : mantissa x = fractionField x := by simp [mantissa, hzero]
      have hexp : exponent x = -1074 := by simp [exponent, hzero]
      simp only [hzero, if_true]
      by_cases hfrac : fractionField x = 0
      · rw [dif_pos hfrac, dif_pos (hmantissa.trans hfrac)]
      · rw [dif_neg hfrac, dif_neg (by rwa [hmantissa])]
        apply finite_congr rfl (hfraction.trans hmantissa.symm)
        rw [hexponent, hzero, hexp]
        rfl
    · have hmantissa : mantissa x = 2 ^ 52 + fractionField x := by simp [mantissa, hzero]
      have hexp : exponent x = exponentField x - 1075 := by
        simp only [exponent]
        omega
      simp only [hzero, if_false]
      rw [dif_neg (by omega)]
      have hbits : (1#1 ++ @unpackMantissa Format.binary64
          x.toModel.toBits.toBitVec).toNat = 2 ^ 52 + fractionField x := by
        have hlt : fractionField x < 2 ^ 52 := Nat.mod_lt _ (by norm_num)
        rw [BitVec.toNat_append, hfraction]
        exact (Nat.two_pow_add_eq_or_of_lt hlt 1).symm
      apply finite_congr rfl (hbits.trans hmantissa.symm)
      rw [hexponent, hexp]
      rfl

theorem exponentField_lt (x : Float) : exponentField x < 2048 :=
  Nat.mod_lt _ (by norm_num)

theorem isFinite_iff (x : Float) : x.isFinite = true ↔ exponentField x ≠ 2047 := by
  change x.toModel.unpack.isFinite = true ↔ _
  rw [unpack_eq]
  by_cases h2047 : exponentField x = 2047
  · by_cases hfrac : fractionField x = 0 <;> simp [h2047, hfrac, UnpackedFloat.isFinite]
  · by_cases hzero : mantissa x = 0 <;> simp [h2047, hzero, UnpackedFloat.isFinite]

theorem mantissa_lt (x : Float) : mantissa x < 2 ^ 53 := by
  have hlt : fractionField x < 2 ^ 52 := Nat.mod_lt _ (by norm_num)
  unfold mantissa
  split <;> omega

theorem canonical_unpack {x : Float} (h : x.isFinite = true) :
    Canonical x.toModel.unpack ∧ exactValue x.toModel.unpack = value x := by
  rw [isFinite_iff] at h
  have hvalue : value x = ((signOf x).apply (mantissa x) : ℤ) * 2 ^ exponent x := by
    have hmagnitude : (numerator x : ℚ) / denominator x = mantissa x * 2 ^ exponent x := by
      unfold numerator denominator
      push_cast
      rw [mul_div_assoc]
      congr 1
      rcases le_total 0 (exponent x) with hle | hle
      · obtain ⟨k, hk⟩ := Int.eq_ofNat_of_zero_le hle
        rw [hk]
        simp
      · obtain ⟨k, hk⟩ := Int.eq_ofNat_of_zero_le (neg_nonneg.mpr hle)
        rw [show exponent x = -k by omega]
        simp
    unfold value signedNumerator signOf
    cases isNegative x with
    | false =>
        simp only [Bool.false_eq_true, if_false, Sign.apply]
        push_cast
        exact hmagnitude
    | true =>
        simp only [if_true, Sign.apply]
        push_cast
        rw [neg_div, hmagnitude, neg_mul]
  have hlt := mantissa_lt x
  rw [unpack_eq, if_neg h, hvalue]
  by_cases hzero : mantissa x = 0
  · rw [dif_pos hzero, hzero]
    refine ⟨trivial, ?_⟩
    cases signOf x <;> simp [exactValue, Sign.apply]
  · rw [dif_neg hzero]
    refine ⟨⟨hlt, ?_, ?_⟩, rfl⟩
    · simp only [exponent]
      omega
    · simp only [exponent]
      by_cases hfield : exponentField x = 0
      · right
        simp [hfield]
      · left
        simp only [mantissa, hfield, if_false]
        omega

theorem toNat_packComponents (sign : Sign) (e : BitVec 11) (m : BitVec 52) :
    (packComponents Format.binary64 sign e m).toNat =
      sign.toBitVec.toNat * 2 ^ 63 + e.toNat * 2 ^ 52 + m.toNat := by
  unfold packComponents
  change (sign.toBitVec ++ e ++ m : BitVec 64).toNat = _
  rw [BitVec.toNat_append, BitVec.toNat_append]
  have hm : m.toNat < 2 ^ 52 := m.isLt
  have he : e.toNat < 2 ^ 11 := e.isLt
  rw [← Nat.shiftLeft_add_eq_or_of_lt hm, ← Nat.shiftLeft_add_eq_or_of_lt he]
  simp only [Nat.shiftLeft_eq]
  omega

theorem fields_packComponents (sign : Sign) (e : BitVec 11) (m : BitVec 52) {x : Float}
    (h : x.toModel.toBits.toBitVec = packComponents Format.binary64 sign e m) :
    signOf x = sign ∧ exponentField x = e.toNat ∧ fractionField x = m.toNat := by
  have hbits : x.toBits.toNat = sign.toBitVec.toNat * 2 ^ 63 + e.toNat * 2 ^ 52 + m.toNat := by
    rw [← toNat_packComponents, ← h]
    rfl
  have hm : m.toNat < 2 ^ 52 := m.isLt
  have he : e.toNat < 2 ^ 11 := e.isLt
  unfold signOf isNegative exponentField fractionField
  rw [hbits]
  refine ⟨?_, by omega, by omega⟩
  cases sign with
  | positive =>
      have hzero : Sign.positive.toBitVec.toNat = 0 := rfl
      rw [hzero, if_neg]
      simp
      omega
  | negative =>
      have hone : Sign.negative.toBitVec.toNat = 1 := rfl
      rw [hone, if_pos]
      simp
      omega

theorem unpack_finite {x : Float} {s : Sign} {m : Nat} {e : Int} (hm : 0 < m)
    (hfield : exponentField x ≠ 2047) (hsign : signOf x = s) (hmantissa : mantissa x = m)
    (hexponent : exponent x = e) : x.toModel.unpack = .finite s m e hm := by
  rw [unpack_eq, if_neg hfield, dif_neg (by omega)]
  exact finite_congr hsign hmantissa hexponent _ _

/-- Packing keeps a canonical float that is not too large. -/
theorem unpack_pack {u : UnpackedFloat} (h : Canonical u) :
    (Float.Model.pack u).unpack = u ∨
      ∃ s m e hm, u = .finite s m e hm ∧ 971 < e ∧ (Float.Model.pack u).unpack = .infinity s := by
  cases u with
  | infinity s => exact absurd h id
  | notANumber => exact absurd h id
  | zero s =>
      left
      cases s <;> rfl
  | finite s m e hm =>
      obtain ⟨hlt, hmin, hnormal⟩ := h
      by_cases hmax : 971 < e
      · right
        refine ⟨s, m, e, hm, rfl, hmax, ?_⟩
        have hpack : UnpackedFloat.pack Format.binary64 (.finite s m e hm) =
            packedInfinity Format.binary64 s := by
          unfold UnpackedFloat.pack
          rw [if_pos]
          change 2048 ≤ (e + 1023 + 52).toNat + 1
          omega
        change UnpackedFloat.unpack Format.binary64
          (UnpackedFloat.pack Format.binary64 (.finite s m e hm)) = _
        rw [hpack]
        cases s <;> rfl
      · left
        have hbias : ¬ 2 ^ 11 ≤ (e + 1023 + 52).toNat + 1 := by omega
        have hlog : m.log2 + 1 = 53 ↔ 2 ^ 52 ≤ m := by
          have hupper := (Nat.log2_lt hm.ne').mpr hlt
          rw [← Nat.le_log2 hm.ne']
          omega
        have hpack : UnpackedFloat.pack Format.binary64 (.finite s m e hm) =
            if m.log2 + 1 = 53 then
              packComponents Format.binary64 s (BitVec.ofNat 11 (e + 1023 + 52).toNat)
                (BitVec.ofNat 52 m)
            else packComponents Format.binary64 s 0#11 (BitVec.ofNat 52 m) := by
          unfold UnpackedFloat.pack
          exact if_neg hbias
        have hbits : (Float.ofModel (Float.Model.pack (.finite s m e hm))).toModel.toBits.toBitVec =
            UnpackedFloat.pack Format.binary64 (.finite s m e hm) := rfl
        change (Float.ofModel (Float.Model.pack (.finite s m e hm))).toModel.unpack = _
        generalize Float.ofModel (Float.Model.pack (.finite s m e hm)) = x at hbits ⊢
        rw [hpack] at hbits
        by_cases hfull : 2 ^ 52 ≤ m
        · rw [if_pos (hlog.mpr hfull)] at hbits
          obtain ⟨hsign, hfield, hfraction⟩ := fields_packComponents s _ _ hbits
          rw [BitVec.toNat_ofNat, Nat.mod_eq_of_lt (by omega)] at hfield
          rw [BitVec.toNat_ofNat] at hfraction
          apply unpack_finite hm (by omega) hsign
          · rw [mantissa, if_neg (by omega)]
            omega
          · rw [exponent]
            omega
        · rw [if_neg (fun hlog' => hfull (hlog.mp hlog'))] at hbits
          obtain ⟨hsign, hfield, hfraction⟩ := fields_packComponents s _ _ hbits
          have hzero : exponentField x = 0 := hfield
          rw [BitVec.toNat_ofNat] at hfraction
          apply unpack_finite hm (by omega) hsign
          · rw [mantissa, if_pos hzero]
            omega
          · rw [exponent]
            omega

end ToolBatching.Number
