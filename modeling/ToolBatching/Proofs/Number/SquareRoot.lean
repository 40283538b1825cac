import ToolBatching.Proofs.Number.Arithmetic

namespace ToolBatching.Number

open Float.Model Float.Model.UnpackedFloat

theorem mantissa_ofMantissaAndAccuracy (m : Nat) (acc : Accuracy) :
    (ExtendedMantissa.ofMantissaAndAccuracy m acc).mantissa = m := by
  unfold ExtendedMantissa.ofMantissaAndAccuracy
  split <;> rfl

theorem exists_represents (m : Nat) (acc : Accuracy) :
    ∃ y, Represents (.ofMantissaAndAccuracy m acc) y ∧ (m : ℚ) ≤ y ∧ y < m + 1 := by
  obtain ⟨y, hy⟩ : ∃ y, Represents (.ofMantissaAndAccuracy m acc) y := by
    cases hsticky : (ExtendedMantissa.ofMantissaAndAccuracy m acc).stickyBit with
    | false => exact ⟨_, 0, le_rfl, by norm_num, by simp [hsticky], rfl⟩
    | true => exact ⟨_, 1 / 4, by norm_num, by norm_num, by simp [hsticky], rfl⟩
  have hle := hy.le
  rw [mantissa_ofMantissaAndAccuracy] at hle
  exact ⟨y, hy, hle⟩

/-- The integer root of a mantissa that is shifted far enough. -/
structure RootAt (m : Nat) (e : ℤ) (root : Nat) (t : ℤ) : Prop where
  bits : 2 ^ 52 ≤ root
  below : ((root : ℚ) * 2 ^ t) ^ 2 ≤ m * 2 ^ e
  above : (m : ℚ) * 2 ^ e < ((root + 1) * 2 ^ t) ^ 2

theorem rootAt_sqrtCore {m : Nat} {e : ℤ} (hm : 0 < m) (he : -1074 ≤ e) :
    RootAt m e (sqrtCore Format.binary64 m e).1 (sqrtCore Format.binary64 m e).2.1 := by
  obtain ⟨t, ht⟩ : ∃ t, min (e.ediv 2)
      (Format.binary64.targetExponent ((totalExponent m e + 1).ediv 2)) = t := ⟨_, rfl⟩
  obtain ⟨k, hk⟩ : ∃ k, (e - 2 * t).toNat = k := ⟨_, rfl⟩
  have hcore : (sqrtCore Format.binary64 m e).1 = Nat.sqrt (m * 2 ^ k) ∧
      (sqrtCore Format.binary64 m e).2.1 = t := by
    simp only [sqrtCore, ht, hk, Nat.shiftLeft_eq]
    exact ⟨trivial, trivial⟩
  rw [hcore.1, hcore.2]
  have hshift : (k : ℤ) = e - 2 * t ∧ 104 ≤ m.log2 + k := by
    rw [targetExponent_eq, totalExponent] at ht
    change min (e / 2) (max ((m.log2 + 1 + e + 1) / 2 - 53) (-1074)) = t at ht
    omega
  have hvalue : (m : ℚ) * 2 ^ e = ((m * 2 ^ k : Nat) : ℚ) * (2 ^ t) ^ 2 := by
    push_cast
    rw [mul_assoc, ← zpow_natCast 2 k, ← zpow_natCast (2 ^ t) 2, ← zpow_mul,
      ← zpow_add₀ two_ne_zero, hshift.1]
    congr 2
    push_cast
    ring
  have hstep : (0 : ℚ) < (2 ^ t) ^ 2 := by positivity
  refine ⟨?_, ?_, ?_⟩
  · rw [Nat.le_sqrt, ← pow_add]
    calc
      2 ^ (52 + 52) ≤ 2 ^ (m.log2 + k) := Nat.pow_le_pow_right (by norm_num) hshift.2
      _ = 2 ^ m.log2 * 2 ^ k := pow_add ..
      _ ≤ m * 2 ^ k := Nat.mul_le_mul_right _ (Nat.log2_self_le hm.ne')
  · rw [hvalue, mul_pow]
    exact mul_le_mul_of_nonneg_right (by exact_mod_cast Nat.sqrt_le' (m * 2 ^ k)) hstep.le
  · rw [hvalue, mul_pow]
    exact mul_lt_mul_of_pos_right (by exact_mod_cast Nat.lt_succ_sqrt' (m * 2 ^ k)) hstep

theorem RootAt.abs_sub_le {m root : Nat} {e t : ℤ} (h : RootAt m e root t) {y : ℚ}
    (hlow : (root : ℚ) ≤ y) (hhigh : y < root + 1) :
    |(y * 2 ^ t) ^ 2 - m * 2 ^ e| ≤ (m : ℚ) * 2 ^ e / 2 ^ 50 := by
  have hbits : (2 : ℚ) ^ 52 ≤ root := by exact_mod_cast h.bits
  have hbelow := h.below
  have habove := h.above
  rw [mul_pow] at hbelow habove ⊢
  have hstep : (0 : ℚ) < (2 ^ t) ^ 2 := by positivity
  generalize ((2 : ℚ) ^ t) ^ 2 = step at hbelow habove hstep ⊢
  have hsquares : (root : ℚ) ^ 2 * step ≤ y ^ 2 * step ∧
      y ^ 2 * step ≤ (root + 1) ^ 2 * step := by
    constructor
    · exact mul_le_mul_of_nonneg_right (pow_le_pow_left₀ (by positivity) hlow 2) hstep.le
    · exact mul_le_mul_of_nonneg_right (pow_le_pow_left₀ (by linarith) hhigh.le 2) hstep.le
  have hgap : ((root : ℚ) + 1) ^ 2 * step - root ^ 2 * step ≤ root ^ 2 * step / 2 ^ 50 := by
    have hroot : 2 * (root : ℚ) + 1 ≤ root ^ 2 / 2 ^ 50 := by
      rw [le_div_iff₀ (by positivity)]
      nlinarith
    calc
      ((root : ℚ) + 1) ^ 2 * step - root ^ 2 * step = (2 * root + 1) * step := by ring
      _ ≤ root ^ 2 / 2 ^ 50 * step := mul_le_mul_of_nonneg_right hroot hstep.le
      _ = root ^ 2 * step / 2 ^ 50 := div_mul_eq_mul_div ..
  have hpart : (root : ℚ) ^ 2 * step / 2 ^ 50 ≤ m * 2 ^ e / 2 ^ 50 :=
    div_le_div_of_nonneg_right hbelow (by positivity)
  rw [abs_le]
  constructor <;> linarith [hsquares.1, hsquares.2]

theorem nearest_sqrt {m : Nat} {e : ℤ} (hm : 0 < m) (he : -1074 ≤ e) :
    Canonical (UnpackedFloat.sqrt Format.binary64 (.finite .positive m e hm)) ∧
      ∃ q, Nearest q (exactValue (UnpackedFloat.sqrt Format.binary64 (.finite .positive m e hm))) ∧
        0 < q ∧ |q ^ 2 - m * 2 ^ e| ≤ (m : ℚ) * 2 ^ e / 2 ^ 50 := by
  have hroot := rootAt_sqrtCore hm he
  have hresult : UnpackedFloat.sqrt Format.binary64 (.finite .positive m e hm) =
      roundWithAccuracy Format.binary64 .positive (sqrtCore Format.binary64 m e).1
        (sqrtCore Format.binary64 m e).2.1 (sqrtCore Format.binary64 m e).2.2 := rfl
  rw [hresult]
  generalize sqrtCore Format.binary64 m e = core at hroot
  obtain ⟨root, t, acc⟩ := core
  dsimp only at hroot ⊢
  have hpos : 0 < root := lt_of_lt_of_le (by norm_num) hroot.bits
  have hbits : t ≤ Format.binary64.targetExponent (totalExponent root t) := by
    have hlog : 52 ≤ root.log2 := (Nat.le_log2 hpos.ne').mpr hroot.bits
    rw [targetExponent_eq, totalExponent]
    omega
  obtain ⟨y, hy, hlow, hhigh⟩ := exists_represents root acc
  obtain ⟨hcanonical, hnearest⟩ := nearest_roundWithAccuracy .positive hy hbits
  refine ⟨hcanonical, y * 2 ^ t, by simpa [Sign.apply] using hnearest, ?_,
    hroot.abs_sub_le hlow hhigh⟩
  have hy : 0 < y := lt_of_lt_of_le (by exact_mod_cast hpos) hlow
  positivity

theorem rounds_sqrt {x : Float} (hx : x.isFinite = true) (hpos : 0 < value x) :
    ∃ q, Rounds q x.sqrt ∧ 0 < q ∧ |q ^ 2 - value x| ≤ value x / 2 ^ 50 := by
  obtain ⟨hcanonical, hvalue⟩ := canonical_unpack hx
  have hsqrt : x.sqrt = .ofModel (Float.Model.pack
      (UnpackedFloat.sqrt Format.binary64 x.toModel.unpack)) := rfl
  rcases hcanonical.cases with ⟨s, hu⟩ | ⟨s, m, e, hm, hu⟩
  · rw [← hvalue, hu] at hpos
    exact absurd hpos (lt_irrefl 0)
  · rw [hu] at hcanonical hvalue hsqrt
    cases s with
    | negative =>
        have hneg : (0 : ℚ) ≤ m * 2 ^ e := by positivity
        simp only [exactValue, Sign.apply, Int.cast_neg, Int.cast_natCast, neg_mul] at hvalue
        linarith
    | positive =>
        have hmagnitude : (m : ℚ) * 2 ^ e = value x := by
          simpa [exactValue, Sign.apply] using hvalue
        obtain ⟨hrounded, q, hnearest, hq, hclose⟩ := nearest_sqrt hm hcanonical.2.1
        rw [hmagnitude] at hclose
        exact ⟨q, ⟨_, hrounded, hnearest, hsqrt⟩, hq, hclose⟩

end ToolBatching.Number
