import ToolBatching.Proofs.Number.WholeParts

namespace ToolBatching.Number

open Float.Model Float.Model.UnpackedFloat

variable {x x' y z z' m r r' : Float} {q q' t t' : ℚ}

namespace Nearest

theorem add_le_two_mul (h : Nearest q t) (ht' : Grid t') (hlt : t' < t) : t + t' ≤ 2 * q := by
  have hclosest := h.closest t' ht'
  by_contra hbelow
  rw [not_le] at hbelow
  rw [abs_of_pos (by linarith : 0 < t - q)] at hclosest
  rcases abs_cases (t' - q) with ⟨heq, -⟩ | ⟨heq, -⟩ <;> linarith

theorem two_mul_le_add (h : Nearest q t) (ht' : Grid t') (hlt : t < t') : 2 * q ≤ t + t' := by
  have hopposite := h.neg.add_le_two_mul ht'.neg (neg_lt_neg hlt)
  linarith

theorem le_of_lt (h : Nearest q t) (h' : Nearest q' t') (hlt : q < q') : t ≤ t' := by
  by_contra habove
  rw [not_le] at habove
  have hlow := h.add_le_two_mul h'.grid habove
  have hhigh := h'.two_mul_le_add h.grid habove
  linarith

end Nearest

theorem Rounds.isNaN (h : Rounds q x) : x.isNaN = false := by
  rcases h.cases with ⟨hx, -⟩ | ⟨s, t, hs, -, -⟩
  · exact isNaN_of_isFinite hx
  · exact isNaN_of_infinity hs

/-- Rounding keeps the order of what it rounds. -/
theorem Rounds.le_of_lt (h : Rounds q z) (h' : Rounds q' z') (hlt : q < q') : z ≤ z' := by
  have htop : (0 : ℚ) < 2 ^ 1024 := by positivity
  rcases h.cases with ⟨hz, hnearest⟩ | ⟨s, t, hs, hnearest, hlarge⟩
  · rcases h'.cases with ⟨hz', hnearest'⟩ | ⟨s', t', hs', hnearest', hlarge'⟩
    · rw [le_iff_value_le hz hz']
      exact hnearest.le_of_lt hnearest' hlt
    · have hbelow := hnearest.le_of_lt hnearest' hlt
      have hinside := abs_lt.mp (abs_value_lt hz)
      cases s' with
      | positive => exact le_of_lt_float (lt_of_infinity hz hs')
      | negative =>
          simp only [Sign.apply, Int.cast_neg, Int.cast_one, neg_mul, one_mul] at hlarge'
          generalize (2 : ℚ) ^ 1024 = top at *
          linarith
  · rcases h'.cases with ⟨hz', hnearest'⟩ | ⟨s', t', hs', hnearest', hlarge'⟩
    · have habove := hnearest.le_of_lt hnearest' hlt
      have hinside := abs_lt.mp (abs_value_lt hz')
      cases s with
      | positive =>
          simp only [Sign.apply, Int.cast_one, one_mul] at hlarge
          generalize (2 : ℚ) ^ 1024 = top at *
          linarith
      | negative => exact le_of_lt_float (infinity_lt hz' hs)
    · have hbetween := hnearest.le_of_lt hnearest' hlt
      rw [le_iff_unpack, hs, hs']
      cases s with
      | negative => cases s' <;> rfl
      | positive =>
          cases s' with
          | positive => rfl
          | negative =>
              simp only [Sign.apply, Int.cast_neg, Int.cast_one, neg_mul, one_mul] at hlarge hlarge'
              generalize (2 : ℚ) ^ 1024 = top at *
              linarith

theorem eq_of_parts (hsign : signOf x = signOf x') (hmantissa : mantissa x = mantissa x')
    (hexponent : exponent x = exponent x') : x = x' := by
  have hnegative : isNegative x = isNegative x' := by
    unfold signOf at hsign
    cases hx : isNegative x <;> cases hx' : isNegative x' <;> simp [hx, hx'] at hsign ⊢
  have hbound := x.toBits.toNat_lt
  have hbound' := x'.toBits.toNat_lt
  rw [← Float.toBits_inj, ← UInt64.toNat_inj]
  unfold isNegative at hnegative
  rw [Bool.eq_iff_iff, beq_iff_eq, beq_iff_eq] at hnegative
  unfold exponent at hexponent
  unfold mantissa exponentField fractionField at hmantissa
  unfold exponentField at hexponent
  generalize x.toBits.toNat = n at *
  generalize x'.toBits.toNat = n' at *
  split at hmantissa <;> split at hmantissa <;> omega

theorem eq_of_value_eq (hx : x.isFinite = true) (hx' : x'.isFinite = true)
    (h : value x = value x') (hne : value x ≠ 0) : x = x' := by
  have hsome {x : Float} (hx : x.isFinite = true) (hne : value x ≠ 0) :
      ∃ hm, x.toModel.unpack = .finite (signOf x) (mantissa x) (exponent x) hm := by
    have hmantissa : mantissa x ≠ 0 := by
      intro hzero
      apply hne
      rw [value, signedNumerator, numerator, hzero]
      simp
    refine ⟨Nat.pos_of_ne_zero hmantissa, ?_⟩
    rw [unpack_eq, if_neg ((isFinite_iff x).mp hx), dif_neg hmantissa]
  obtain ⟨hm, hu⟩ := hsome hx hne
  obtain ⟨hm', hu'⟩ := hsome hx' (by rwa [← h])
  -- Neither is below the other, so they have the same rank.
  have hnone : ¬ x < x' ∧ ¬ x' < x := by
    rw [lt_iff_value_lt hx hx', lt_iff_value_lt hx' hx, h]
    exact ⟨lt_irrefl _, lt_irrefl _⟩
  rw [lt_iff_unpack, lt_iff_unpack, hu, hu', lt_iff_rankLt, lt_iff_rankLt] at hnone
  have hrank : rank (.finite (signOf x) (mantissa x) (exponent x) hm) =
      rank (.finite (signOf x') (mantissa x') (exponent x') hm') := by
    simp only [ne_eq, reduceCtorEq, not_false_eq_true, true_and, RankLt] at hnone
    rw [Prod.ext_iff, Prod.ext_iff]
    omega
  cases hs : signOf x <;> cases hs' : signOf x' <;>
    simp only [hs, hs', rank, Prod.mk.injEq] at hrank
  · exact eq_of_parts (by rw [hs, hs']) (by omega) (by omega)
  · omega
  · omega
  · exact eq_of_parts (by rw [hs, hs']) (by omega) (by omega)

theorem le_of_rounds {f : Float → Float} {g : ℚ → ℚ}
    (hf : ∀ v : Float, v.isFinite = true → Rounds (g (value v)) (f v)) (hy : y.isFinite = true)
    (hzero : g 0 = value y) (hx : x.isFinite = true) (hx' : x'.isFinite = true)
    (h : value x = value x' ∨ g (value x) < g (value x')) : f x ≤ f x' := by
  rcases h with heq | hlt
  · by_cases hnone : value x = 0
    · have hbelow : f x ≤ y := (hf x hx).le hy (by rw [hnone, hzero])
      have habove : y ≤ f x' := (hf x' hx').ge hy (by rw [← heq, hnone, hzero])
      exact le_trans_float hbelow habove
    · rw [eq_of_value_eq hx hx' heq hnone]
      exact le_refl_float (hf x' hx').isNaN
  · exact (hf x hx).le_of_lt (hf x' hx') hlt

section Operations

variable (hx : x.isFinite = true) (hx' : x'.isFinite = true) (h : x ≤ x')

include hx hx' h

theorem add_le_add_right_float (hy : y.isFinite = true) : x + y ≤ x' + y := by
  rw [le_iff_value_le hx hx', le_iff_eq_or_lt] at h
  refine le_of_rounds (f := (· + y)) (g := (· + value y)) (fun v hv => rounds_add hv hy) hy
    (zero_add _) hx hx' (h.imp_right fun hlt => ?_)
  linarith

theorem div_le_div_right_float (hy : y.isFinite = true) (hpos : 0 < value y) :
    x / y ≤ x' / y := by
  rw [le_iff_value_le hx hx', le_iff_eq_or_lt] at h
  refine le_of_rounds (f := (· / y)) (g := (· / value y)) (fun v hv => rounds_div hv hy hpos)
    isFinite_zero.1 ?_ hx hx' (h.imp_right fun hlt => ?_)
  · rw [isFinite_zero.2, zero_div]
  · exact div_lt_div_of_pos_right hlt hpos

theorem add_le_add_left_float (hm : m.isNaN = false) : m + x ≤ m + x' := by
  rcases finite_or_infinite hm with hfinite | ⟨s, hs⟩
  · rw [le_iff_value_le hx hx', le_iff_eq_or_lt] at h
    refine le_of_rounds (f := (m + ·)) (g := (value m + ·)) (fun v hv => rounds_add hfinite hv)
      hfinite (add_zero _) hx hx' (h.imp_right fun hlt => ?_)
    linarith
  · rw [le_iff_unpack, unpack_add_of_infinity hs hx, unpack_add_of_infinity hs hx']
    cases s <;> rfl

theorem sub_le_sub_left_float (hm : m.isNaN = false) : m - x' ≤ m - x := by
  rcases finite_or_infinite hm with hfinite | ⟨s, hs⟩
  · rw [le_iff_value_le hx hx', le_iff_eq_or_lt] at h
    refine le_of_rounds (f := (m - ·)) (g := (value m - ·)) (fun v hv => rounds_sub hfinite hv)
      hfinite (sub_zero _) hx' hx (h.imp Eq.symm fun hlt => ?_)
    linarith
  · rw [le_iff_unpack, unpack_sub_of_infinity hs hx, unpack_sub_of_infinity hs hx']
    cases s <;> rfl

end Operations

theorem unpack_pack_notANumber : (Float.Model.pack .notANumber).unpack = .notANumber :=
  rfl

theorem isFinite_pack_infinity_ne (s : Sign) :
    (Float.Model.pack (.infinity s)).unpack.isFinite ≠ true := by
  rw [unpack_pack_infinity]
  exact Bool.false_ne_true

theorem isFinite_pack_notANumber_ne : (Float.Model.pack .notANumber).unpack.isFinite ≠ true := by
  rw [unpack_pack_notANumber]
  exact Bool.false_ne_true

theorem isFinite_of_isFinite_add (h : (x + y).isFinite = true) :
    x.isFinite = true ∧ y.isFinite = true := by
  change (Float.Model.pack (UnpackedFloat.add Format.binary64 x.toModel.unpack
    y.toModel.unpack)).unpack.isFinite = true at h
  change x.toModel.unpack.isFinite = true ∧ y.toModel.unpack.isFinite = true
  generalize x.toModel.unpack = u at h ⊢
  generalize y.toModel.unpack = v at h ⊢
  cases u with
  | notANumber => cases v <;> exact absurd h isFinite_pack_notANumber_ne
  | infinity s =>
      cases v with
      | infinity s' => cases s <;> cases s' <;> exact absurd h (by decide)
      | notANumber => exact absurd h isFinite_pack_notANumber_ne
      | zero s' => exact absurd h (isFinite_pack_infinity_ne s)
      | finite s' m e hm => exact absurd h (isFinite_pack_infinity_ne s)
  | zero s =>
      cases v with
      | infinity s' => exact absurd h (isFinite_pack_infinity_ne s')
      | notANumber => exact absurd h isFinite_pack_notANumber_ne
      | zero s' => exact ⟨rfl, rfl⟩
      | finite s' m e hm => exact ⟨rfl, rfl⟩
  | finite s m e hm =>
      cases v with
      | infinity s' => exact absurd h (isFinite_pack_infinity_ne s')
      | notANumber => exact absurd h isFinite_pack_notANumber_ne
      | zero s' => exact ⟨rfl, rfl⟩
      | finite s' m' e' hm' => exact ⟨rfl, rfl⟩

theorem isFinite_of_isFinite_mul (h : (x * y).isFinite = true) :
    x.isFinite = true ∧ y.isFinite = true := by
  change (Float.Model.pack (UnpackedFloat.mul Format.binary64 x.toModel.unpack
    y.toModel.unpack)).unpack.isFinite = true at h
  change x.toModel.unpack.isFinite = true ∧ y.toModel.unpack.isFinite = true
  generalize x.toModel.unpack = u at h ⊢
  generalize y.toModel.unpack = v at h ⊢
  cases u with
  | notANumber => cases v <;> exact absurd h isFinite_pack_notANumber_ne
  | infinity s =>
      cases v with
      | infinity s' => exact absurd h (isFinite_pack_infinity_ne _)
      | notANumber => exact absurd h isFinite_pack_notANumber_ne
      | zero s' => exact absurd h isFinite_pack_notANumber_ne
      | finite s' m e hm => exact absurd h (isFinite_pack_infinity_ne _)
  | zero s =>
      cases v with
      | infinity s' => exact absurd h isFinite_pack_notANumber_ne
      | notANumber => exact absurd h isFinite_pack_notANumber_ne
      | zero s' => exact ⟨rfl, rfl⟩
      | finite s' m e hm => exact ⟨rfl, rfl⟩
  | finite s m e hm =>
      cases v with
      | infinity s' => exact absurd h (isFinite_pack_infinity_ne _)
      | notANumber => exact absurd h isFinite_pack_notANumber_ne
      | zero s' => exact ⟨rfl, rfl⟩
      | finite s' m' e' hm' => exact ⟨rfl, rfl⟩

theorem unpack_of_isNaN (h : x.isNaN = true) : x.toModel.unpack = .notANumber := by
  change x.toModel.unpack.isNaN = true at h
  cases hu : x.toModel.unpack with
  | notANumber => rfl
  | infinity s => rw [hu] at h; cases h
  | zero s => rw [hu] at h; cases h
  | finite s m e hm => rw [hu] at h; cases h

theorem isNaN_left_of_add (h : (x + y).isNaN = false) : x.isNaN = false := by
  by_contra hnone
  rw [Bool.not_eq_false] at hnone
  have hadd (v : UnpackedFloat) :
      UnpackedFloat.add Format.binary64 .notANumber v = .notANumber := by
    cases v <;> rfl
  change (Float.Model.pack (UnpackedFloat.add Format.binary64 x.toModel.unpack
    y.toModel.unpack)).unpack.isNaN = false at h
  rw [unpack_of_isNaN hnone, hadd, unpack_pack_notANumber] at h
  cases h

theorem isNaN_left_of_sub (h : (x - y).isNaN = false) : x.isNaN = false := by
  by_contra hnone
  rw [Bool.not_eq_false] at hnone
  have hsub (v : UnpackedFloat) :
      UnpackedFloat.sub Format.binary64 .notANumber v = .notANumber := by
    cases v <;> rfl
  change (Float.Model.pack (UnpackedFloat.sub Format.binary64 x.toModel.unpack
    y.toModel.unpack)).unpack.isNaN = false at h
  rw [unpack_of_isNaN hnone, hsub, unpack_pack_notANumber] at h
  cases h

theorem isNaN_of_le (h : x ≤ y) : x.isNaN = false ∧ y.isNaN = false :=
  ⟨(le_iff_not_lt.mp h).1, (le_iff_not_lt.mp h).2.1⟩

theorem isFinite_of_between (hx : x.isFinite = true) (hz : z.isFinite = true) (hxy : x ≤ y)
    (hyz : y ≤ z) : y.isFinite = true := by
  rcases finite_or_infinite (isNaN_of_le hxy).2 with hy | ⟨s, hs⟩
  · exact hy
  · cases s with
    | positive => exact absurd (lt_of_infinity hz hs) (le_iff_not_lt.mp hyz).2.2
    | negative => exact absurd (infinity_lt hx hs) (le_iff_not_lt.mp hxy).2.2

section Bounds

variable (hr : r.isFinite = true) (hr' : r'.isFinite = true) (hle : r ≤ r')

include hr hr' hle

theorem sub_le_of_le (h : m - r ≤ z) : m - r' ≤ z :=
  le_trans_float (sub_le_sub_left_float hr hr' hle (isNaN_left_of_sub (isNaN_of_le h).1)) h

theorem le_add_of_le (h : z ≤ m + r) : z ≤ m + r' :=
  le_trans_float h (add_le_add_left_float hr hr' hle (isNaN_left_of_add (isNaN_of_le h).2))

end Bounds

theorem le_infinity (hx : x.isNaN = false) (hy : y.toModel.unpack = .infinity .positive) :
    x ≤ y := by
  rcases finite_or_infinite hx with hfinite | ⟨s, hs⟩
  · exact le_of_lt_float (lt_of_infinity hfinite hy)
  · rw [le_iff_unpack, hs, hy]
    cases s <;> rfl

theorem unpack_div_of_infinity (hx : x.toModel.unpack = .infinity .positive)
    (hy : y.isFinite = true) (hpos : 0 < value y) :
    (x / y).toModel.unpack = .infinity .positive := by
  obtain ⟨hcanonical, hvalue⟩ := canonical_unpack hy
  change (Float.Model.pack (UnpackedFloat.div Format.binary64 x.toModel.unpack
    y.toModel.unpack)).unpack = _
  rw [hx]
  rcases hcanonical.cases with ⟨s, hu⟩ | ⟨s, m, e, hm, hu⟩
  · rw [← hvalue, hu] at hpos
    exact absurd hpos (lt_irrefl 0)
  · cases s with
    | positive =>
        rw [hu]
        exact unpack_pack_infinity .positive
    | negative =>
        have hmagnitude : (0 : ℚ) < m * 2 ^ e := by positivity
        rw [← hvalue, hu] at hpos
        simp only [exactValue, Sign.apply, Int.cast_neg, Int.cast_natCast, neg_mul] at hpos
        linarith

theorem div_le_div_of_pos (hx : 0 < x) (h : x ≤ x') (hy : y.isFinite = true)
    (hpos : 0 < value y) : 0 ≤ x / y ∧ x / y ≤ x' / y := by
  have hnumber : (x / y).isNaN = false ∧ 0 ≤ x / y := by
    rcases pos_cases hx with ⟨hfinite, hvalue⟩ | hinfinite
    · exact ⟨(rounds_div hfinite hy hpos).isNaN,
        nonneg_div hfinite hvalue.le ((pos_iff hy).mpr hpos)⟩
    · have hquotient := unpack_div_of_infinity hinfinite hy hpos
      exact ⟨isNaN_of_infinity hquotient, le_infinity rfl hquotient⟩
  refine ⟨hnumber.2, ?_⟩
  rcases nonneg_cases (le_trans_float (le_of_lt_float hx) h) with ⟨hfinite', -⟩ | hinfinite'
  · have hfinite := isFinite_of_between isFinite_zero.1 hfinite' (le_of_lt_float hx) h
    exact div_le_div_right_float hfinite hfinite' h hy hpos
  · exact le_infinity hnumber.1 (unpack_div_of_infinity hinfinite' hy hpos)

theorem clamped_ceiling_le {lo hi : Int} (hlohi : lo ≤ hi) (hx : 0 ≤ x) (h : x ≤ x') :
    clamped lo hi ceiling x ≤ clamped lo hi ceiling x' := by
  rcases nonneg_cases (le_trans_float hx h) with ⟨hfinite', -⟩ | hinfinite'
  · have hfinite := isFinite_of_between isFinite_zero.1 hfinite' hx h
    rw [le_iff_value_le hfinite hfinite'] at h
    rw [clamped_of_isFinite _ _ _ hfinite, clamped_of_isFinite _ _ _ hfinite', ceiling_eq hfinite,
      ceiling_eq hfinite']
    exact max_le_max_left _ (min_le_min_left _ (Int.ceil_le_ceil h))
  · rw [clamped_of_infinity _ _ _ hinfinite']
    rcases nonneg_cases hx with ⟨hfinite, -⟩ | hinfinite
    · rw [clamped_of_isFinite _ _ _ hfinite]
      exact max_le hlohi (min_le_left _ _)
    · exact (clamped_of_infinity _ _ _ hinfinite).le

end ToolBatching.Number
