import ToolBatching.Proofs.Number.Arithmetic

namespace ToolBatching.Number

open Float.Model Float.Model.UnpackedFloat

variable {x y z m a b r : Float}

theorem exactValue_eq_of_compare {u v : UnpackedFloat} (hu : Canonical u) (hv : Canonical v)
    (h : u.compare v = some .eq) : exactValue u = exactValue v := by
  rcases hu.cases with ⟨s, rfl⟩ | ⟨s, m, e, hm, rfl⟩
  · rcases hv.cases with ⟨s', rfl⟩ | ⟨s', m', e', hm', rfl⟩
    · rfl
    · cases s' <;> simp [UnpackedFloat.compare] at h
  · rcases hv.cases with ⟨s', rfl⟩ | ⟨s', m', e', hm', rfl⟩
    · cases s <;> simp [UnpackedFloat.compare] at h
    · have hsame : s = s' ∧ e = e' ∧ m = m' := by
        cases s <;> cases s' <;> simp [UnpackedFloat.compare, Ordering.swap_eq_eq] at h <;>
          simpa using h
      obtain ⟨rfl, rfl, rfl⟩ := hsame
      rfl

theorem value_eq_of_beq {x y : Float} (h : (x == y) = true) (hy : y.isFinite = true) :
    x.isFinite = true ∧ value x = value y := by
  have hcompare : x.toModel.unpack.compare y.toModel.unpack = some .eq := beq_iff_eq.mp h
  obtain ⟨hyc, hyv⟩ := canonical_unpack hy
  have hx : x.toModel.unpack.isFinite = true := by
    cases hu : x.toModel.unpack with
    | infinity s =>
        rw [hu] at hcompare
        rcases hyc.cases with ⟨s', hv⟩ | ⟨s', m, e, hm, hv⟩
        · rw [hv] at hcompare
          cases s <;> simp [UnpackedFloat.compare] at hcompare
        · rw [hv] at hcompare
          cases s <;> simp [UnpackedFloat.compare] at hcompare
    | notANumber =>
        rw [hu] at hcompare
        simp [UnpackedFloat.compare] at hcompare
    | zero s => rfl
    | finite s m e hm => rfl
  obtain ⟨hxc, hxv⟩ := canonical_unpack hx
  refine ⟨hx, ?_⟩
  rw [← hxv, ← hyv, exactValue_eq_of_compare hxc hyc hcompare]

theorem compare_swap (u v : UnpackedFloat) : v.compare u = (u.compare v).map Ordering.swap := by
  have hsigns (s t : Sign) : compare t s = (compare s t).swap := by cases s <;> cases t <;> rfl
  have hparts (e₁ e₂ : ℤ) (m₁ m₂ : Nat) : (compare e₂ e₁).then (compare m₂ m₁) =
      ((compare e₁ e₂).then (compare m₁ m₂)).swap := by
    rw [Ordering.swap_then, Int.compare_swap, Nat.compare_swap]
  cases u with
  | notANumber => cases v <;> rfl
  | infinity s =>
      cases v with
      | notANumber => rfl
      | infinity t => exact congrArg some (hsigns s t)
      | zero t => cases s <;> rfl
      | finite t m e hm => cases s <;> rfl
  | zero s =>
      cases v with
      | notANumber => rfl
      | infinity t => cases t <;> rfl
      | zero t => rfl
      | finite t m e hm => cases t <;> rfl
  | finite s m e hm =>
      cases v with
      | notANumber => rfl
      | infinity t => cases t <;> rfl
      | zero t => cases s <;> rfl
      | finite t n k hn =>
          cases s <;> cases t <;> simp only [UnpackedFloat.compare, Option.map_some, Ordering.swap,
            hparts e k m n]

theorem isSome_compare (u v : UnpackedFloat) :
    (u.compare v).isSome = (!u.isNaN && !v.isNaN) := by
  cases u with
  | infinity s => cases v <;> cases s <;> rfl
  | notANumber => cases v <;> rfl
  | zero s =>
      cases v with
      | infinity t => cases t <;> rfl
      | notANumber => rfl
      | zero t => rfl
      | finite t n k hn => cases t <;> rfl
  | finite s m e hm =>
      cases v with
      | infinity t => cases t <;> rfl
      | notANumber => rfl
      | zero t => cases s <;> rfl
      | finite t n k hn => cases s <;> cases t <;> rfl

theorem le_iff_unpack (x y : Float) : x ≤ y ↔ x.toModel.unpack.le y.toModel.unpack = true :=
  decide_eq_true_iff

theorem le_iff_not_lt : x ≤ y ↔ x.isNaN = false ∧ y.isNaN = false ∧ ¬ y < x := by
  change _ ↔ x.toModel.unpack.isNaN = false ∧ y.toModel.unpack.isNaN = false ∧ _
  rw [le_iff_unpack, lt_iff_unpack, UnpackedFloat.le, UnpackedFloat.lt,
    compare_swap x.toModel.unpack]
  have hsome := isSome_compare x.toModel.unpack y.toModel.unpack
  cases hcompare : x.toModel.unpack.compare y.toModel.unpack with
  | none =>
      rw [hcompare] at hsome
      cases hx : x.toModel.unpack.isNaN <;> simp_all
  | some order =>
      rw [hcompare] at hsome
      have hnumbers : x.toModel.unpack.isNaN = false ∧ y.toModel.unpack.isNaN = false := by
        simpa using hsome
      rw [hnumbers.1, hnumbers.2]
      cases order <;> decide

theorem isNaN_of_lt (h : x < y) : x.isNaN = false ∧ y.isNaN = false := by
  obtain ⟨hx, hy, -⟩ := (lt_iff_rankLt _ _).mp ((lt_iff_unpack x y).mp h)
  change x.toModel.unpack.isNaN = false ∧ y.toModel.unpack.isNaN = false
  cases hu : x.toModel.unpack <;> cases hv : y.toModel.unpack <;> simp_all [UnpackedFloat.isNaN]

theorem not_lt_of_lt_float (h : x < y) : ¬ y < x := by
  rw [lt_iff_unpack, lt_iff_rankLt] at h ⊢
  have hless := h.2.2
  unfold RankLt at hless ⊢
  omega

theorem le_of_lt_float (h : x < y) : x ≤ y :=
  le_iff_not_lt.mpr ⟨(isNaN_of_lt h).1, (isNaN_of_lt h).2, not_lt_of_lt_float h⟩

theorem le_refl_float (hx : x.isNaN = false) : x ≤ x :=
  le_iff_not_lt.mpr ⟨hx, hx, fun h => not_lt_of_lt_float h h⟩

theorem le_trans_float (hxy : x ≤ y) (hyz : y ≤ z) : x ≤ z := by
  obtain ⟨hx, hy, hxy⟩ := le_iff_not_lt.mp hxy
  obtain ⟨-, hz, hyz⟩ := le_iff_not_lt.mp hyz
  refine le_iff_not_lt.mpr ⟨hx, hz, fun hzx => ?_⟩
  have hnumber {w : Float} (hw : w.isNaN = false) : w.toModel.unpack ≠ .notANumber := by
    change w.toModel.unpack.isNaN = false at hw
    intro heq
    rw [heq] at hw
    exact absurd hw (by decide)
  rw [lt_iff_unpack, lt_iff_rankLt] at hxy hyz hzx
  have hxy' : ¬ RankLt (rank y.toModel.unpack) (rank x.toModel.unpack) :=
    fun h => hxy ⟨hnumber hy, hnumber hx, h⟩
  have hyz' : ¬ RankLt (rank z.toModel.unpack) (rank y.toModel.unpack) :=
    fun h => hyz ⟨hnumber hz, hnumber hy, h⟩
  have hzx' := hzx.2.2
  unfold RankLt at hxy' hyz' hzx'
  omega

theorem le_iff_value_le (hx : x.isFinite = true) (hy : y.isFinite = true) :
    x ≤ y ↔ value x ≤ value y := by
  rw [le_iff_not_lt, lt_iff_value_lt hy hx, not_lt]
  exact ⟨fun h => h.2.2, fun h => ⟨isNaN_of_isFinite hx, isNaN_of_isFinite hy, h⟩⟩

theorem lesser_le (hx : x.isNaN = false) : lesser m x ≤ x := by
  unfold lesser
  split
  · rename_i h
    rw [hx, Bool.or_false, decide_eq_true_eq] at h
    exact le_of_lt_float h
  · exact le_refl_float hx

theorem lesser_le_of_le (h : m ≤ a) : lesser m x ≤ a := by
  unfold lesser
  split
  · exact h
  · rename_i hother
    rw [Bool.or_eq_true, decide_eq_true_eq, not_or] at hother
    have hx : x.isNaN = false := by simpa using hother.2
    exact le_trans_float (le_iff_not_lt.mpr ⟨hx, (le_iff_not_lt.mp h).1, hother.1⟩) h

theorem le_greater (hx : x.isNaN = false) : x ≤ greater m x := by
  unfold greater
  split
  · rename_i h
    rw [hx, Bool.or_false, decide_eq_true_eq] at h
    exact le_of_lt_float h
  · exact le_refl_float hx

theorem le_greater_of_le (h : a ≤ m) : a ≤ greater m x := by
  unfold greater
  split
  · exact h
  · rename_i hother
    rw [Bool.or_eq_true, decide_eq_true_eq, not_or] at hother
    have hx : x.isNaN = false := by simpa using hother.2
    exact le_trans_float h (le_iff_not_lt.mpr ⟨(le_iff_not_lt.mp h).2.1, hx, hother.1⟩)

theorem Rounds.cases {exact : ℚ} (h : Rounds exact x) :
    (x.isFinite = true ∧ Nearest exact (Number.value x)) ∨
      ∃ s t, x.toModel.unpack = .infinity s ∧ Nearest exact t ∧
        (2 : ℚ) ^ 1024 ≤ (s.apply 1 : ℤ) * t := by
  have hrounds := h
  obtain ⟨u, hcanonical, hnearest, rfl⟩ := h
  by_cases hsmall : |exactValue u| < 2 ^ 1024
  · have hfinite := (value_pack hcanonical hsmall).1
    exact Or.inl ⟨hfinite, hrounds.nearest hfinite⟩
  · rcases unpack_pack hcanonical with heq | ⟨s, m, e, hm, rfl, -, hinfinite⟩
    · have hfinite : (Float.ofModel (Float.Model.pack u)).isFinite = true := by
        change (Float.Model.pack u).unpack.isFinite = true
        rw [heq]
        exact hcanonical.isFinite
      exact Or.inl ⟨hfinite, hrounds.nearest hfinite⟩
    · refine Or.inr ⟨s, _, hinfinite, hnearest, ?_⟩
      rw [not_lt, abs_exactValue_finite] at hsmall
      cases s <;> simpa [exactValue, Sign.apply] using hsmall

theorem Rounds.le {exact : ℚ} (h : Rounds exact x) (hy : y.isFinite = true)
    (hle : exact ≤ Number.value y) : x ≤ y := by
  rcases h.cases with ⟨hx, hnearest⟩ | ⟨s, t, hs, hnearest, hlarge⟩
  · rw [le_iff_value_le hx hy]
    exact hnearest.le_of_le_grid (grid_value hy) hle
  · have hbelow := hnearest.le_of_le_grid (grid_value hy) hle
    cases s with
    | positive =>
        have hmax := (le_abs_self _).trans_lt (abs_value_lt hy)
        simp only [Sign.apply, Int.cast_one, one_mul] at hlarge
        exact absurd (hlarge.trans hbelow) hmax.not_ge
    | negative => exact le_of_lt_float (infinity_lt hy hs)

theorem Rounds.ge {exact : ℚ} (h : Rounds exact x) (hy : y.isFinite = true)
    (hle : Number.value y ≤ exact) : y ≤ x := by
  rcases h.cases with ⟨hx, hnearest⟩ | ⟨s, t, hs, hnearest, hlarge⟩
  · rw [le_iff_value_le hy hx]
    exact hnearest.le_of_grid_le (grid_value hy) hle
  · have habove := hnearest.le_of_grid_le (grid_value hy) hle
    cases s with
    | positive => exact le_of_lt_float (lt_of_infinity hy hs)
    | negative =>
        have hmin := (neg_le_abs _).trans_lt (abs_value_lt hy)
        simp only [Sign.apply, Int.cast_neg, Int.cast_one, neg_mul, one_mul] at hlarge
        exact absurd (hlarge.trans (neg_le_neg habove)) hmin.not_ge

theorem unpack_add_of_infinity {s : Sign} (hx : x.toModel.unpack = .infinity s)
    (hy : y.isFinite = true) : (x + y).toModel.unpack = .infinity s := by
  change (Float.Model.pack (UnpackedFloat.add Format.binary64 x.toModel.unpack
    y.toModel.unpack)).unpack = _
  obtain ⟨hcanonical, -⟩ := canonical_unpack hy
  rw [hx]
  rcases hcanonical.cases with ⟨s', hu⟩ | ⟨s', m, e, hm, hu⟩
  · rw [hu]
    exact unpack_pack_infinity s
  · rw [hu]
    exact unpack_pack_infinity s

theorem sub_le_of_sub_le (hm : m ≤ a) (ha : a.isFinite = true) (hb : b.isFinite = true)
    (hr : r.isFinite = true) (h : value a - value b ≤ value r) : m - r ≤ b := by
  rcases finite_or_infinite (le_iff_not_lt.mp hm).1 with hfinite | ⟨s, hs⟩
  · rw [le_iff_value_le hfinite ha] at hm
    exact (rounds_sub hfinite hr).le hb (by linarith)
  · cases s with
    | positive => exact absurd (lt_of_infinity ha hs) (le_iff_not_lt.mp hm).2.2
    | negative => exact le_of_lt_float (infinity_lt hb (unpack_sub_of_infinity hs hr))

theorem le_add_of_sub_le (hm : a ≤ m) (ha : a.isFinite = true) (hb : b.isFinite = true)
    (hr : r.isFinite = true) (h : value b - value a ≤ value r) : b ≤ m + r := by
  rcases finite_or_infinite (le_iff_not_lt.mp hm).2.1 with hfinite | ⟨s, hs⟩
  · rw [le_iff_value_le ha hfinite] at hm
    exact (rounds_add hfinite hr).ge hb (by linarith)
  · cases s with
    | positive => exact le_of_lt_float (lt_of_infinity hb (unpack_add_of_infinity hs hr))
    | negative => exact absurd (infinity_lt ha hs) (le_iff_not_lt.mp hm).2.2

end ToolBatching.Number
