import Mathlib
import ToolBatching.Proofs.Number.Grid

/-!
Operations on unpacked floats round to the nearest number of the grid. A mantissa with its
two residual bits represents a number; shifting it keeps what it represents, and rounding
it off gives an integer within one half.
-/

namespace ToolBatching.Number

open Float.Model Float.Model.UnpackedFloat

theorem finite_congr {s s' : Sign} {m m' : Nat} {e e' : ℤ} (hsign : s = s') (hmantissa : m = m')
    (hexponent : e = e') (hpos : 0 < m) (hpos' : 0 < m') :
    UnpackedFloat.finite s m e hpos = .finite s' m' e' hpos' := by
  subst hsign hmantissa hexponent
  rfl

/-- A mantissa with its residual bits stands for a number: the round bit is worth one half
and the sticky bit tells whether there is more. -/
def Represents (em : ExtendedMantissa) (x : ℚ) : Prop :=
  ∃ more : ℚ, 0 ≤ more ∧ more < 1 / 2 ∧ (em.stickyBit = true ↔ 0 < more) ∧
    x = em.mantissa + em.roundBit.toNat / 2 + more

theorem Represents.shiftRightOne {em : ExtendedMantissa} {x : ℚ} (h : Represents em x) :
    Represents em.shiftRightOne (x / 2) := by
  obtain ⟨more, hmin, hmax, hsticky, rfl⟩ := h
  have hround : (em.roundBit.toNat : ℚ) = 0 ∨ (em.roundBit.toNat : ℚ) = 1 := by
    cases em.roundBit <;> simp
  refine ⟨(em.roundBit.toNat / 2 + more) / 2, ?_, ?_, ?_, ?_⟩
  · rcases hround with h | h <;> rw [h] <;> linarith
  · rcases hround with h | h <;> rw [h] <;> linarith
  · simp only [ExtendedMantissa.shiftRightOne, Bool.or_eq_true, hsticky]
    cases em.roundBit with
    | false => simp
    | true =>
        simp only [true_or, true_iff, Bool.toNat_true, Nat.cast_one]
        linarith
  · have hparity : (em.mantissa : ℚ) = 2 * (em.mantissa / 2 : Nat) + (em.mantissa % 2 : Nat) := by
      exact_mod_cast (Nat.div_add_mod em.mantissa 2).symm
    have hbit : em.shiftRightOne.roundBit.toNat = em.mantissa % 2 := by
      simp only [ExtendedMantissa.shiftRightOne]
      rcases Nat.mod_two_eq_zero_or_one em.mantissa with heven | hodd
      · rw [heven]
        rfl
      · rw [hodd]
        rfl
    have hhalf : em.shiftRightOne.mantissa = em.mantissa / 2 := rfl
    rw [hbit, hhalf]
    linarith

theorem Represents.shiftRight {em : ExtendedMantissa} {x : ℚ} (h : Represents em x) (n : Nat) :
    Represents (em >>> n) (x / 2 ^ n) := by
  induction n with
  | zero =>
      rw [pow_zero, div_one]
      exact h
  | succ n ih =>
      have hstep : em >>> (n + 1) = (em >>> n).shiftRightOne := rfl
      rw [hstep, pow_succ, ← div_div]
      exact ih.shiftRightOne

theorem Represents.exact (m : Nat) : Represents (.ofMantissaAndAccuracy m .exact) m :=
  ⟨0, le_refl 0, by norm_num, by simp [ExtendedMantissa.ofMantissaAndAccuracy],
    by simp [ExtendedMantissa.ofMantissaAndAccuracy]⟩

theorem Represents.le {em : ExtendedMantissa} {x : ℚ} (h : Represents em x) :
    (em.mantissa : ℚ) ≤ x ∧ x < em.mantissa + 1 := by
  obtain ⟨more, hmin, hmax, -, rfl⟩ := h
  have hround : (em.roundBit.toNat : ℚ) = 0 ∨ (em.roundBit.toNat : ℚ) = 1 := by
    cases em.roundBit <;> simp
  constructor
  · rcases hround with h | h <;> rw [h] <;> linarith
  · rcases hround with h | h <;> rw [h] <;> linarith

theorem Represents.abs_roundedMantissa_sub_le {em : ExtendedMantissa} {x : ℚ}
    (h : Represents em x) : |(em.roundedMantissa : ℚ) - x| ≤ 1 / 2 := by
  obtain ⟨more, hmin, hmax, hsticky, rfl⟩ := h
  rcases em with ⟨m, round, sticky⟩
  rw [abs_le]
  cases round with
  | false =>
      cases sticky <;>
        simp only [ExtendedMantissa.roundedMantissa, ExtendedMantissa.accuracy,
          Accuracy.roundToNearestEven, Bool.toNat_false, Nat.cast_zero] <;>
        constructor <;> linarith
  | true =>
      cases sticky with
      | false =>
          have hnone : more = 0 := by
            apply le_antisymm _ hmin
            rw [← not_lt, ← hsticky]
            simp
          have hparity : m % 2 = 0 ∨ m % 2 = 1 := Nat.mod_two_eq_zero_or_one m
          simp only [ExtendedMantissa.roundedMantissa, ExtendedMantissa.accuracy,
            Accuracy.roundToNearestEven, Bool.toNat_true, Nat.cast_one, hnone]
          rcases hparity with heven | hodd
          · rw [heven]
            constructor <;> push_cast <;> linarith
          · rw [hodd]
            constructor <;> push_cast <;> linarith
      | true =>
          simp only [ExtendedMantissa.roundedMantissa, ExtendedMantissa.accuracy,
            Accuracy.roundToNearestEven, Bool.toNat_true, Nat.cast_one]
          constructor <;> push_cast <;> linarith

/-- The number that an unpacked float stands for; zero if it is not finite. -/
def exactValue : UnpackedFloat → ℚ
  | .finite s m e _ => (s.apply m : ℤ) * 2 ^ e
  | _ => 0

/-- Finite floats in the form that packing expects, without a bound from above. -/
def Canonical : UnpackedFloat → Prop
  | .zero _ => True
  | .finite _ m e _ => m < 2 ^ 53 ∧ -1074 ≤ e ∧ (2 ^ 52 ≤ m ∨ e = -1074)
  | _ => False

theorem targetExponent_eq (k : ℤ) : Format.binary64.targetExponent k = max (k - 53) (-1074) :=
  rfl

theorem shiftToExponent_eq (m : Nat) (e : ℤ) (acc : Accuracy) {E : ℤ} (h : e ≤ E) :
    shiftToExponent m e acc E =
      (ExtendedMantissa.ofMantissaAndAccuracy m acc >>> (E - e).toNat, E) := by
  simp only [shiftToExponent, Prod.mk.injEq, true_and]
  omega

theorem shiftToTargetExponent_rounded {n : Nat} {E : ℤ} (hn : n ≤ 2 ^ 53) (hE : -1074 ≤ E) :
    (n < 2 ^ 53 ∧ ((shiftToTargetExponent Format.binary64 n E .exact).1.mantissa = n ∧
        (shiftToTargetExponent Format.binary64 n E .exact).2 = E)) ∨
      (n = 2 ^ 53 ∧ (shiftToTargetExponent Format.binary64 n E .exact).1.mantissa = 2 ^ 52 ∧
        (shiftToTargetExponent Format.binary64 n E .exact).2 = E + 1) := by
  rcases Nat.lt_or_eq_of_le hn with hlt | rfl
  · left
    refine ⟨hlt, ?_⟩
    have hlog : n.log2 ≤ 52 := by
      by_cases hzero : n = 0
      · simp [hzero]
      · have := (Nat.log2_lt hzero).mpr hlt
        omega
    have hshift : (Format.binary64.targetExponent (totalExponent n E) - E).toNat = 0 := by
      rw [targetExponent_eq, totalExponent]
      omega
    simp only [shiftToTargetExponent, shiftToExponent, hshift]
    exact ⟨rfl, by simp⟩
  · right
    have hshift : (Format.binary64.targetExponent (totalExponent (2 ^ 53) E) - E).toNat = 1 := by
      rw [targetExponent_eq, totalExponent, Nat.log2_two_pow]
      omega
    simp only [shiftToTargetExponent, shiftToExponent, hshift]
    exact ⟨trivial, rfl, rfl⟩

theorem exactValue_dite (sign : Sign) (n : Nat) (E : ℤ) :
    exactValue (if h : n = 0 then .zero sign else .finite sign n E (Nat.pos_of_ne_zero h)) =
      (sign.apply n : ℤ) * 2 ^ E := by
  split
  · rename_i hzero
    subst hzero
    cases sign <;> simp [exactValue, Sign.apply]
  · rfl

theorem nearest_apply {sign : Sign} {q : ℚ} {n : Nat} {E : ℤ} (h : Nearest q (n * 2 ^ E)) :
    Nearest ((sign.apply 1 : ℤ) * q) ((sign.apply n : ℤ) * 2 ^ E) := by
  cases sign with
  | positive => simpa [Sign.apply] using h
  | negative => simpa [Sign.apply] using h.neg

/-- Rounding a number that is known to enough bits gives the nearest one of the grid. -/
theorem nearest_roundWithAccuracy (sign : Sign) {m : Nat} {e : ℤ} {acc : Accuracy} {x : ℚ}
    (h : Represents (.ofMantissaAndAccuracy m acc) x)
    (hbits : e ≤ Format.binary64.targetExponent (totalExponent m e)) :
    Canonical (roundWithAccuracy Format.binary64 sign m e acc) ∧
      Nearest ((sign.apply 1 : ℤ) * (x * 2 ^ e))
        (exactValue (roundWithAccuracy Format.binary64 sign m e acc)) := by
  obtain ⟨E, hE⟩ : ∃ E, Format.binary64.targetExponent (totalExponent m e) = E := ⟨_, rfl⟩
  rw [hE] at hbits
  have hmin : -1074 ≤ E := by
    rw [← hE, targetExponent_eq]
    omega
  have hmantissa : (ExtendedMantissa.ofMantissaAndAccuracy m acc).mantissa = m := by
    unfold ExtendedMantissa.ofMantissaAndAccuracy
    split <;> rfl
  have hle := h.le
  rw [hmantissa] at hle
  have hshifted := h.shiftRight (E - e).toNat
  have hscale : x / 2 ^ (E - e).toNat = x * 2 ^ e / 2 ^ E := by
    have hpow : ((2 : ℚ) ^ (E - e).toNat) = 2 ^ E / 2 ^ e := by
      rw [← zpow_natCast, Int.toNat_of_nonneg (by omega), zpow_sub₀ two_ne_zero]
    rw [hpow, div_div_eq_mul_div]
  rw [hscale] at hshifted
  have hhalf := hshifted.abs_roundedMantissa_sub_le
  -- The number has at most 53 bits above the step, and all of them unless the step is least.
  have hbelow : x * 2 ^ e / 2 ^ E < 2 ^ 53 := by
    have hlog : (m : ℚ) + 1 ≤ 2 ^ (m.log2 + 1) := by
      exact_mod_cast Nat.lt_log2_self
    have hstep : (0 : ℚ) < 2 ^ e := by positivity
    rw [div_lt_iff₀ (by positivity)]
    calc
      x * 2 ^ e < 2 ^ (m.log2 + 1) * 2 ^ e := by
        apply mul_lt_mul_of_pos_right _ hstep
        linarith
      _ = 2 ^ ((m.log2 : ℤ) + 1 + e) := by
        rw [zpow_add₀ two_ne_zero]
        norm_cast
      _ ≤ 2 ^ (53 + E) := by
        apply zpow_le_zpow_right₀ (by norm_num)
        rw [← hE, targetExponent_eq, totalExponent]
        omega
      _ = 2 ^ 53 * 2 ^ E := by
        rw [zpow_add₀ two_ne_zero]
        norm_num
  have hfull : E = -1074 ∨ (2 : ℚ) ^ (52 + E) ≤ x * 2 ^ e := by
    by_cases hleast : E = -1074
    · exact Or.inl hleast
    · right
      have hexact : E = m.log2 + 1 + e - 53 := by
        rw [← hE, targetExponent_eq, totalExponent] at hleast ⊢
        omega
      have hpos : m ≠ 0 := by
        rintro rfl
        simp at hexact
        omega
      have hlog : ((2 : ℚ) ^ m.log2) ≤ m := by
        exact_mod_cast Nat.log2_self_le hpos
      calc
        (2 : ℚ) ^ (52 + E) = 2 ^ m.log2 * 2 ^ e := by
          rw [hexact, ← zpow_natCast, ← zpow_add₀ two_ne_zero]
          congr 1
          omega
        _ ≤ x * 2 ^ e := mul_le_mul_of_nonneg_right (hlog.trans hle.1) (by positivity)
  obtain ⟨n, hn⟩ : ∃ n, (ExtendedMantissa.ofMantissaAndAccuracy m acc >>>
      (E - e).toNat).roundedMantissa = n := ⟨_, rfl⟩
  rw [hn] at hhalf
  rw [abs_le] at hhalf
  have hbound : n ≤ 2 ^ 53 := by
    have hless : (n : ℚ) < 2 ^ 53 + 1 := by linarith
    have hnat : n < 2 ^ 53 + 1 := by exact_mod_cast hless
    omega
  have hlarge : E ≠ -1074 → 2 ^ 52 ≤ n := by
    intro hleast
    have hquotient : (2 : ℚ) ^ 52 ≤ x * 2 ^ e / 2 ^ E := by
      rw [le_div_iff₀ (by positivity)]
      have hfilled := hfull.resolve_left hleast
      rw [zpow_add₀ two_ne_zero] at hfilled
      exact_mod_cast hfilled
    have hmore : (2 : ℚ) ^ 52 < n + 1 := by linarith
    have hnat : 2 ^ 52 < n + 1 := by exact_mod_cast hmore
    omega
  have hnearest := nearest_of_step hmin hbound (abs_le.mpr hhalf) hfull
  have hround : roundWithAccuracy Format.binary64 sign m e acc =
      if h : (shiftToTargetExponent Format.binary64 n E .exact).1.mantissa = 0 then .zero sign
      else .finite sign (shiftToTargetExponent Format.binary64 n E .exact).1.mantissa
        (shiftToTargetExponent Format.binary64 n E .exact).2 (Nat.pos_of_ne_zero h) := by
    unfold roundWithAccuracy
    have hfirst : shiftToTargetExponent Format.binary64 m e acc =
        (ExtendedMantissa.ofMantissaAndAccuracy m acc >>> (E - e).toNat, E) := by
      rw [shiftToTargetExponent, hE, shiftToExponent_eq m e acc hbits]
    rw [hfirst]
    dsimp only
    rw [hn]
  rw [hround, exactValue_dite]
  rcases shiftToTargetExponent_rounded hbound hmin with ⟨hless, heq, hexp⟩ | ⟨hpow, heq, hexp⟩
  · rw [heq, hexp]
    refine ⟨?_, nearest_apply hnearest⟩
    by_cases hzero : n = 0
    · simp only [hzero, dif_pos, Canonical]
    · simp only [hzero, dif_neg, not_false_eq_true, Canonical]
      refine ⟨hless, hmin, ?_⟩
      by_cases hleast : E = -1074
      · exact Or.inr hleast
      · exact Or.inl (hlarge hleast)
  · rw [heq, hexp]
    constructor
    · norm_num [Canonical]
      omega
    · have hsame : ((2 ^ 52 : Nat) : ℚ) * 2 ^ (E + 1) = (n : ℚ) * 2 ^ E := by
        rw [hpow, zpow_add₀ two_ne_zero]
        push_cast
        ring
      apply nearest_apply
      rw [hsame]
      exact hnearest

theorem log2_add_le_log2_mul {m : Nat} (hm : m ≠ 0) (k : Nat) :
    m.log2 + k ≤ (m * 2 ^ k).log2 := by
  rw [Nat.le_log2 (by positivity), pow_add]
  exact Nat.mul_le_mul_right _ (Nat.log2_self_le hm)

theorem nearest_round (sign : Sign) {m : Nat} (hm : m ≠ 0) (e : ℤ) :
    Canonical (UnpackedFloat.round Format.binary64 sign m e) ∧
      Nearest ((sign.apply 1 : ℤ) * (m * 2 ^ e))
        (exactValue (UnpackedFloat.round Format.binary64 sign m e)) := by
  obtain ⟨E, hE⟩ : ∃ E, Format.binary64.targetExponent (totalExponent m e) = E := ⟨_, rfl⟩
  obtain ⟨k, hk⟩ : ∃ k, (e - E).toNat = k := ⟨_, rfl⟩
  have hround : UnpackedFloat.round Format.binary64 sign m e =
      roundWithAccuracy Format.binary64 sign (m * 2 ^ k) (e - k) .exact := by
    simp only [UnpackedFloat.round, decreaseExponent, hE, hk, Nat.shiftLeft_eq]
  have hbits : e - k ≤ Format.binary64.targetExponent (totalExponent (m * 2 ^ k) (e - k)) := by
    have hlog := log2_add_le_log2_mul hm k
    rw [targetExponent_eq, totalExponent] at hE ⊢
    omega
  have hsame : ((m * 2 ^ k : Nat) : ℚ) * 2 ^ (e - k) = m * 2 ^ e := by
    push_cast
    rw [mul_assoc, ← zpow_natCast, ← zpow_add₀ two_ne_zero]
    congr 2
    omega
  have hnearest := nearest_roundWithAccuracy sign (Represents.exact (m * 2 ^ k)) hbits
  rwa [hsame, ← hround] at hnearest

theorem nearest_normalize (m : ℤ) (e : ℤ) (zero : Sign) :
    Canonical (UnpackedFloat.normalize Format.binary64 m e zero) ∧
      Nearest (m * 2 ^ e) (exactValue (UnpackedFloat.normalize Format.binary64 m e zero)) := by
  rcases lt_trichotomy m 0 with hneg | rfl | hpos
  · have heq : UnpackedFloat.normalize Format.binary64 m e zero =
        UnpackedFloat.round Format.binary64 .negative (-m).toNat e := by
      rw [UnpackedFloat.normalize, Int.compare_eq_lt.mpr hneg]
    have hnearest := nearest_round .negative (m := (-m).toNat) (by omega) e
    have hsame : (((-m).toNat : Nat) : ℚ) = -m := by
      exact_mod_cast Int.toNat_of_nonneg (by omega : 0 ≤ -m)
    rw [hsame] at hnearest
    rw [heq]
    simpa [Sign.apply] using hnearest
  · have heq : UnpackedFloat.normalize Format.binary64 0 e zero = .zero zero := rfl
    rw [heq]
    refine ⟨trivial, ?_, ?_⟩
    · exact grid_zero
    · intro t _
      simp [exactValue]
  · have heq : UnpackedFloat.normalize Format.binary64 m e zero =
        UnpackedFloat.round Format.binary64 .positive m.toNat e := by
      rw [UnpackedFloat.normalize, Int.compare_eq_gt.mpr hpos]
    have hnearest := nearest_round .positive (m := m.toNat) (by omega) e
    have hsame : ((m.toNat : Nat) : ℚ) = m := by
      exact_mod_cast Int.toNat_of_nonneg (by omega : 0 ≤ m)
    rw [hsame] at hnearest
    rw [heq]
    simpa [Sign.apply] using hnearest

theorem represents_fraction {num den : Nat} (hden : 0 < den) :
    Represents (.ofMantissaAndAccuracy (num / den) (accuracyOfFraction (num % den) den))
      (num / den : ℚ) := by
  have hpos : (0 : ℚ) < den := by exact_mod_cast hden
  have hless : num % den < den := Nat.mod_lt num hden
  have hsplit : (num : ℚ) / den = (num / den : Nat) + (num % den : Nat) / den := by
    rw [div_eq_iff hpos.ne', add_mul, div_mul_cancel₀ _ hpos.ne', mul_comm]
    exact_mod_cast (Nat.div_add_mod num den).symm
  rw [hsplit]
  generalize num / den = quotient
  generalize num % den = rest at hless
  have hrest : (rest : ℚ) < den := by exact_mod_cast hless
  unfold accuracyOfFraction
  by_cases hzero : rest = 0
  · subst hzero
    simpa using Represents.exact quotient
  · have hone : (0 : ℚ) < rest := by exact_mod_cast Nat.pos_of_ne_zero hzero
    rw [if_neg hzero]
    rcases lt_trichotomy (2 * rest) den with hlt | heq | hgt
    · have hhalf : (2 : ℚ) * rest < den := by exact_mod_cast hlt
      rw [Nat.compare_eq_lt.mpr hlt]
      refine ⟨rest / den, by positivity, ?_, ?_, ?_⟩
      · rw [div_lt_iff₀ hpos]
        linarith
      · simp only [ExtendedMantissa.ofMantissaAndAccuracy, true_iff]
        positivity
      · simp [ExtendedMantissa.ofMantissaAndAccuracy]
    · have hhalf : (2 : ℚ) * rest = den := by exact_mod_cast heq
      rw [Nat.compare_eq_eq.mpr heq]
      refine ⟨0, le_refl 0, by norm_num, by simp [ExtendedMantissa.ofMantissaAndAccuracy], ?_⟩
      rw [← hhalf]
      simp only [ExtendedMantissa.ofMantissaAndAccuracy, Bool.toNat_true, Nat.cast_one]
      field_simp
      ring
    · have hhalf : (den : ℚ) < 2 * rest := by exact_mod_cast hgt
      rw [Nat.compare_eq_gt.mpr hgt]
      refine ⟨rest / den - 1 / 2, ?_, ?_, ?_, ?_⟩
      · rw [sub_nonneg, div_le_div_iff₀ (by norm_num) hpos]
        linarith
      · rw [sub_lt_iff_lt_add, div_lt_iff₀ hpos]
        linarith
      · simp only [ExtendedMantissa.ofMantissaAndAccuracy, true_iff, sub_pos]
        rw [div_lt_div_iff₀ (by norm_num) hpos]
        linarith
      · simp only [ExtendedMantissa.ofMantissaAndAccuracy, Bool.toNat_true, Nat.cast_one]
        ring

/-- A quotient of floats is the nearest number of the grid. -/
theorem nearest_div {s : Sign} {m₁ m₂ : Nat} {e₁ e₂ : ℤ} {hm₁ : 0 < m₁} {hm₂ : 0 < m₂}
    {quotient : UnpackedFloat} (h : UnpackedFloat.div Format.binary64
      (.finite s m₁ e₁ hm₁) (.finite .positive m₂ e₂ hm₂) = quotient) :
    Canonical quotient ∧
      Nearest ((s.apply 1 : ℤ) * (m₁ * 2 ^ e₁ / (m₂ * 2 ^ e₂))) (exactValue quotient) := by
  obtain ⟨T, hT⟩ : ∃ T, min (e₁ - e₂) (Format.binary64.targetExponent
      (totalExponent m₁ e₁ - totalExponent m₂ e₂)) = T := ⟨_, rfl⟩
  obtain ⟨k, hk⟩ : ∃ k, (e₁ - e₂ - T).toNat = k := ⟨_, rfl⟩
  have hsign : s / .positive = s := by cases s <;> rfl
  have hdiv : quotient = roundWithAccuracy Format.binary64 s (m₁ * 2 ^ k / m₂) T
      (accuracyOfFraction (m₁ * 2 ^ k % m₂) m₂) := by
    rw [← h]
    simp only [UnpackedFloat.div, divCore, hT, hk, Nat.shiftLeft_eq, hsign]
  have hlog₁ := log2_add_le_log2_mul hm₁.ne' k
  have hbits : T ≤ Format.binary64.targetExponent (totalExponent (m₁ * 2 ^ k / m₂) T) := by
    rw [targetExponent_eq, totalExponent, totalExponent] at hT
    rw [targetExponent_eq, totalExponent]
    by_cases hzero : m₁ * 2 ^ k / m₂ = 0
    · -- The quotient vanishes only below the least step.
      have hless : m₁ * 2 ^ k < m₂ := by
        rw [Nat.div_eq_zero_iff] at hzero
        omega
      have hlog : (m₁ * 2 ^ k).log2 ≤ m₂.log2 := by
        rw [Nat.le_log2 hm₂.ne']
        exact (Nat.log2_self_le (by positivity)).trans hless.le
      rw [hzero, Nat.log2_zero]
      omega
    · have hlog : m₁.log2 + k ≤ m₂.log2 + 1 + (m₁ * 2 ^ k / m₂).log2 := by
        refine hlog₁.trans ?_
        have hlt : (m₁ * 2 ^ k).log2 < m₂.log2 + 1 + (m₁ * 2 ^ k / m₂).log2 + 1 := by
          rw [Nat.log2_lt (by positivity)]
          calc
            m₁ * 2 ^ k < m₂ * (m₁ * 2 ^ k / m₂ + 1) := Nat.lt_mul_div_succ _ hm₂
            _ ≤ 2 ^ (m₂.log2 + 1) * 2 ^ ((m₁ * 2 ^ k / m₂).log2 + 1) :=
              Nat.mul_le_mul Nat.lt_log2_self.le Nat.lt_log2_self
            _ = 2 ^ (m₂.log2 + 1 + (m₁ * 2 ^ k / m₂).log2 + 1) := by
              rw [← pow_add]
              congr 1
        omega
      omega
  have hnearest := nearest_roundWithAccuracy s (represents_fraction hm₂) hbits
  have hsame : ((m₁ * 2 ^ k : Nat) : ℚ) / m₂ * 2 ^ T = m₁ * 2 ^ e₁ / (m₂ * 2 ^ e₂) := by
    have hexp : e₁ = k + T + e₂ := by omega
    have hpos : (m₂ : ℚ) ≠ 0 := by exact_mod_cast hm₂.ne'
    rw [hexp, zpow_add₀ two_ne_zero, zpow_add₀ two_ne_zero, zpow_natCast]
    push_cast
    field_simp
  rw [hsame, ← hdiv] at hnearest
  exact hnearest

end ToolBatching.Number
