import ToolBatching.Proofs.Number.FixedText
import ToolBatching.Proofs.Number.ReadNumber

namespace ToolBatching.Number

open Float.Model Float.Model.UnpackedFloat

theorem nearest_mul {s t : Sign} {m n : Nat} {e k : ℤ} (hm : 0 < m) (hn : 0 < n)
    (hfull : 2 ^ 52 ≤ m * n ∨ e + k ≤ -1074) {product : UnpackedFloat}
    (hproduct : UnpackedFloat.mul Format.binary64 (.finite s m e hm) (.finite t n k hn) =
      product) :
    Canonical product ∧
      Nearest (((s * t).apply 1 : ℤ) * ((m : ℚ) * n * 2 ^ (e + k))) (exactValue product) := by
  have hbits : e + k ≤ Format.binary64.targetExponent (totalExponent (m * n) (e + k)) := by
    rw [targetExponent_eq, totalExponent]
    rcases hfull with hfull | hbelow
    · have hlog : 52 ≤ (m * n).log2 := (Nat.le_log2 (by positivity)).mpr hfull
      omega
    · omega
  have hnearest := nearest_roundWithAccuracy (s * t) (Represents.exact (m * n)) hbits
  simp only [UnpackedFloat.mul] at hproduct
  rw [Nat.cast_mul, hproduct] at hnearest
  exact hnearest

theorem apply_one_mul (s t : Sign) : (s * t).apply 1 = s.apply 1 * t.apply 1 := by
  cases s <;> cases t <;> rfl

theorem exactValue_finite (s : Sign) {m : Nat} (e : ℤ) (hm : 0 < m) :
    exactValue (.finite s m e hm) = (s.apply 1 : ℤ) * (m * 2 ^ e) := by
  cases s <;> simp [exactValue, Sign.apply]

/-- A product of finite floats is rounded once. -/
theorem rounds_mul {x y : Float} (hx : x.isFinite = true) (hy : y.isFinite = true) :
    Rounds (value x * value y) (x * y) := by
  obtain ⟨hxc, hxv⟩ := canonical_unpack hx
  obtain ⟨hyc, hyv⟩ := canonical_unpack hy
  have hpack : x * y = .ofModel (Float.Model.pack
      (UnpackedFloat.mul Format.binary64 x.toModel.unpack y.toModel.unpack)) := rfl
  rw [hpack, ← hxv, ← hyv]
  generalize x.toModel.unpack = u at hxc ⊢
  generalize y.toModel.unpack = v at hyc ⊢
  have hzero (s : Sign) : Nearest 0 (exactValue (.zero s)) := nearest_self (u := .zero s) trivial
  rcases hxc.cases with ⟨s, rfl⟩ | ⟨s, m, e, hm, rfl⟩
  · rw [show exactValue (.zero s) = 0 from rfl, zero_mul]
    rcases hyc.cases with ⟨t, rfl⟩ | ⟨t, n, k, hn, rfl⟩
    · exact ⟨.zero (s * t), trivial, hzero (s * t), rfl⟩
    · exact ⟨.zero (s * t), trivial, hzero (s * t), rfl⟩
  · rcases hyc.cases with ⟨t, rfl⟩ | ⟨t, n, k, hn, rfl⟩
    · rw [show exactValue (.zero t) = 0 from rfl, mul_zero]
      exact ⟨.zero (s * t), trivial, hzero (s * t), rfl⟩
    · have hfull : 2 ^ 52 ≤ m * n ∨ e + k ≤ -1074 := by
        rcases hxc.2.2 with hfull | hx
        · exact Or.inl (hfull.trans (Nat.le_mul_of_pos_right m hn))
        · rcases hyc.2.2 with hfull | hy
          · exact Or.inl (hfull.trans (Nat.le_mul_of_pos_left n hm))
          · exact Or.inr (by omega)
      obtain ⟨hcanonical, hnearest⟩ := nearest_mul (s := s) (t := t) hm hn hfull rfl
      have hsame : exactValue (.finite s m e hm) * exactValue (.finite t n k hn) =
          ((s * t).apply 1 : ℤ) * ((m : ℚ) * n * 2 ^ (e + k)) := by
        rw [exactValue_finite, exactValue_finite, apply_one_mul, zpow_add₀ two_ne_zero]
        push_cast
        ring
      rw [hsame]
      exact ⟨_, hcanonical, hnearest, rfl⟩

theorem rounds_natural_of_lt {n : Nat} (h : n < 2 ^ 53) :
    Rounds n (Float.ofScientific n false 0) := by
  have hfast : Float.ofScientific n false 0 =
      n.toUInt64.toFloat * Float.exactlyRepresentablePowersOfTen[0] := by
    unfold Float.ofScientific
    rw [dif_pos ⟨h, by norm_num⟩]
    rfl
  obtain ⟨hone, hvalue⟩ : Float.exactlyRepresentablePowersOfTen[0].isFinite = true ∧
      value Float.exactlyRepresentablePowersOfTen[0] = 1 := by
    decide +kernel
  obtain ⟨hfinite, hn⟩ := value_toFloat h
  have hrounds := rounds_mul hfinite hone
  rwa [hn, hvalue, mul_one, ← hfast] at hrounds

/-- A whole number is rounded once. -/
theorem rounds_natural (n : Nat) : Rounds n (Float.ofScientific n false 0) := by
  by_cases hsmall : n < 2 ^ 53
  · exact rounds_natural_of_lt hsmall
  · have hslow : Float.ofScientific n false 0 =
        .ofModel (Float.Model.pack (UnpackedFloat.ofScientific Format.binary64 n 0)) := by
      unfold Float.ofScientific
      rw [dif_neg (by omega)]
      rfl
    have hn : 0 < n := by omega
    obtain ⟨shifted, hshifted⟩ : ∃ shifted, n <<< Format.binary64.mantissaBits = shifted := ⟨_, rfl⟩
    have hvalue : shifted = n * 2 ^ 53 := by
      rw [← hshifted, show Format.binary64.mantissaBits = 53 from rfl, Nat.shiftLeft_eq]
    have hpos : 0 < shifted := by omega
    have hmul : UnpackedFloat.ofScientific Format.binary64 n 0 = UnpackedFloat.mul Format.binary64
        (.finite .positive shifted (-53) hpos) (.finite .positive 1 0 (by norm_num)) := by
      have hbits : (2 : ℤ) ^ Format.binary64.exponentBits = 2048 := rfl
      unfold UnpackedFloat.ofScientific
      rw [dif_neg (by omega), if_neg (by omega), if_neg (by omega), if_pos (le_refl 0)]
      exact congrArg₂ (UnpackedFloat.mul Format.binary64) (finite_congr rfl hshifted rfl _ hpos) rfl
    rw [hslow, hmul]
    generalize hproduct : UnpackedFloat.mul Format.binary64 (.finite .positive shifted (-53) hpos)
      (.finite .positive 1 0 (by norm_num)) = product
    have hbits : 2 ^ 52 ≤ shifted * 1 := by
      omega
    obtain ⟨hcanonical, hnearest⟩ := nearest_mul hpos Nat.one_pos (Or.inl hbits) hproduct
    have hsame : (((Sign.positive * .positive).apply 1 : ℤ) : ℚ) * ((shifted : ℚ) * (1 : Nat) * 2 ^ (-53 + 0 : ℤ)) =
        n := by
      rw [hvalue, apply_one_mul]
      norm_num [Sign.apply]
      ring
    rw [hsame] at hnearest
    exact ⟨product, hcanonical, hnearest, rfl⟩

theorem denominator_eq_one {x : Float} (h : 2 ^ 53 ≤ |value x|) : denominator x = 1 := by
  have hexponent : 0 ≤ exponent x := by
    by_contra hneg
    have hdenominator : 1 < denominator x := by
      rw [denominator, Nat.pow_eq]
      exact Nat.one_lt_two_pow (by omega)
    have hnumerator : numerator x < 2 ^ 53 := by
      rw [numerator, Int.toNat_of_nonpos (by omega), Nat.pow_eq, Nat.pow_zero, Nat.mul_one]
      exact mantissa_lt x
    rw [abs_value_eq, le_div_iff₀ (by exact_mod_cast denominator_pos x)] at h
    have hle : 2 ^ 53 * denominator x ≤ numerator x := by exact_mod_cast h
    omega
  rw [denominator, Int.toNat_of_nonpos (by omega), Nat.pow_eq, Nat.pow_zero]

theorem unitsOf_zero_of_le {x : Float} (h : 2 ^ 53 ≤ |value x|) :
    (unitsOf 0 x : ℚ) = |value x| := by
  have hone := denominator_eq_one h
  have hround : roundQuotient .toEven (numerator x) 1 = numerator x := by
    simp [roundQuotient, Nat.mod_one]
  rw [abs_value_eq, hone, unitsOf, Nat.pow_eq, Nat.pow_zero, Nat.mul_one, hone, hround,
    Nat.cast_one, div_one]

theorem value_unitsOf_zero {x : Float} (hx : x.isFinite = true) :
    (Decimal.mk (unitsOf 0 x) 0).toFloat.isFinite = true ∧
      value (Decimal.mk (unitsOf 0 x) 0).toFloat = unitsOf 0 x := by
  have hread : (Decimal.mk (unitsOf 0 x) 0).toFloat = Float.ofScientific (unitsOf 0 x) false 0 :=
    rfl
  have hclose := abs_unitsOf_sub_le 0 x
  rw [pow_zero, div_one, div_one, abs_le] at hclose
  have hgrid : Grid (unitsOf 0 x) := by
    by_cases hlarge : 2 ^ 53 < unitsOf 0 x
    · have hmagnitude : 2 ^ 53 ≤ |value x| := by
        have hcast : (2 : ℚ) ^ 53 + 1 ≤ unitsOf 0 x := by exact_mod_cast hlarge
        linarith
      obtain ⟨habs, hvalue⟩ := value_abs hx
      rw [unitsOf_zero_of_le hmagnitude, ← hvalue]
      exact grid_value habs
    · exact grid_natCast (not_lt.mp hlarge)
  have hbound : |(unitsOf 0 x : ℚ)| + 0 < 2 ^ 1024 := by
    rw [Nat.abs_cast, add_zero]
    exact lt_of_le_of_lt (by linarith) (abs_value_add_one_lt hx)
  obtain ⟨hfinite, hnearest⟩ :=
    (rounds_natural (unitsOf 0 x)).value hgrid hbound (by rw [sub_self, abs_zero, mul_zero])
  rw [hread]
  exact ⟨hfinite, hnearest.eq_of_grid hgrid⟩

/-- A whole number nearest to a number, the even one where two are equally near. -/
structure RoundsToWhole (q : ℚ) (n : ℤ) : Prop where
  close : |(n : ℚ) - q| ≤ 1 / 2
  tie : |(n : ℚ) - q| = 1 / 2 → Even n

theorem even_roundQuotient (num : Nat) {den : Nat} (h : 0 < den)
    (htie : |(roundQuotient .toEven num den : ℚ) - num / den| = 1 / 2) :
    Even (roundQuotient .toEven num den) := by
  have hpos : (0 : ℚ) < den := by exact_mod_cast h
  have hquotient : (num : ℚ) / den = (num / den : Nat) + (num % den : Nat) / den := by
    rw [div_eq_iff hpos.ne', add_mul, div_mul_cancel₀ _ hpos.ne', mul_comm]
    exact_mod_cast (Nat.div_add_mod num den).symm
  have hless : ((num % den : Nat) : ℚ) / den < 1 := by
    rw [div_lt_one hpos]
    exact_mod_cast Nat.mod_lt num h
  have hnonneg : (0 : ℚ) ≤ ((num % den : Nat) : ℚ) / den := by positivity
  have hhalf (htwice : ((num % den : Nat) : ℚ) / den = 1 / 2) : 2 * (num % den) = den := by
    rw [div_eq_div_iff hpos.ne' two_ne_zero, one_mul] at htwice
    rw [mul_comm]
    exact_mod_cast htwice
  rw [hquotient] at htie
  unfold roundQuotient at htie ⊢
  generalize num / den = quotient at htie ⊢
  generalize num % den = rest at htie hless hnonneg hhalf ⊢
  simp only at htie ⊢
  split at htie
  · rename_i habove
    push_cast at htie
    rw [add_sub_add_left_eq_sub, abs_of_nonneg (by linarith)] at htie
    have htwice := hhalf (by linarith)
    rw [if_pos habove]
    simp only [Bool.or_eq_true, decide_eq_true_eq, Bool.and_eq_true, beq_iff_eq] at habove
    rw [Nat.even_iff]
    omega
  · rename_i hbelow
    rw [sub_add_cancel_left, abs_neg, abs_of_nonneg hnonneg] at htie
    have htwice := hhalf htie
    rw [if_neg hbelow]
    simp only [Bool.or_eq_true, decide_eq_true_eq, Bool.and_eq_true, beq_iff_eq] at hbelow
    rw [Nat.even_iff]
    omega

theorem even_unitsOf {x : Float} (h : |(unitsOf 0 x : ℚ) - (|value x|)| = 1 / 2) :
    Even (unitsOf 0 x) := by
  rw [abs_value_eq] at h
  unfold unitsOf at h ⊢
  rw [Nat.pow_eq, pow_zero, mul_one] at h ⊢
  exact even_roundQuotient _ (denominator_pos x) h

theorem read_rounded {x : Float} (hx : x.isFinite = true) :
    ∃ r, readPlain (coordinate 0 x).toList = some r ∧ r.isFinite = true ∧
      ∃ n : ℤ, value r = n ∧ RoundsToWhole (value x) n := by
  obtain ⟨hfinite, hwhole⟩ := value_unitsOf_zero hx
  obtain ⟨r, s, hread, hr, hsign, hvalue, hclose⟩ := exists_read_coordinate 0 hx hfinite
  rw [hwhole] at hvalue
  rw [pow_zero, div_one, div_one] at hclose
  -- Where the sign is lost the number rounds to zero.
  have htie (heq : |s * (unitsOf 0 x : ℚ) - value x| = 1 / 2) : Even (unitsOf 0 x) := by
    rcases Nat.eq_zero_or_pos (unitsOf 0 x) with hzero | hpos
    · simp [hzero]
    · have hone : (1 : ℚ) ≤ unitsOf 0 x := by exact_mod_cast hpos
      apply even_unitsOf
      obtain ⟨hlow, hhigh⟩ := abs_le.mp hclose
      rcases hsign with rfl | rfl
      · rwa [abs_of_nonneg (a := value x) (by linarith), ← one_mul (unitsOf 0 x : ℚ)]
      · rw [abs_of_nonpos (a := value x) (by linarith)]
        rwa [neg_one_mul, ← neg_add', abs_neg, ← sub_neg_eq_add] at heq
  rcases hsign with rfl | rfl
  · exact ⟨r, hread, hr, unitsOf 0 x, by simpa using hvalue, by simpa using hclose,
      by simpa using htie⟩
  · exact ⟨r, hread, hr, -(unitsOf 0 x), by simpa using hvalue, by simpa using hclose,
      by simpa using htie⟩

theorem isNaN_add {x y : Float} (hx : x.isNaN = false) (hy : y.isFinite = true) :
    (x + y).isNaN = false := by
  rcases finite_or_infinite hx with hfinite | ⟨s, hs⟩
  · obtain ⟨u, hcanonical, -, hsum⟩ := rounds_add hfinite hy
    rw [hsum]
    apply isNaN_pack
    rcases hcanonical.cases with ⟨s, rfl⟩ | ⟨s, m, e, hm, rfl⟩
    · rfl
    · rfl
  · have hsum : x + y = .ofModel (Float.Model.pack
        (UnpackedFloat.add Format.binary64 x.toModel.unpack y.toModel.unpack)) := rfl
    obtain ⟨hcanonical, -⟩ := canonical_unpack hy
    rw [hsum, hs]
    apply isNaN_pack
    rcases hcanonical.cases with ⟨s', hu⟩ | ⟨s', m, e, hm, hu⟩
    · rw [hu]
      rfl
    · rw [hu]
      rfl

end ToolBatching.Number
