import ToolBatching.Proofs.Number.FloatValue

namespace ToolBatching.Number

open Float.Model Float.Model.UnpackedFloat

theorem abs_exactValue_finite (s : Sign) (m : Nat) (e : ℤ) (hm : 0 < m) :
    |exactValue (.finite s m e hm)| = m * 2 ^ e := by
  cases s with
  | positive => simp [exactValue, Sign.apply]
  | negative => simp [exactValue, Sign.apply]

theorem Canonical.cases {u : UnpackedFloat} (h : Canonical u) :
    (∃ s, u = .zero s) ∨ ∃ s m e hm, u = .finite s m e hm := by
  cases u with
  | infinity s => exact absurd h id
  | notANumber => exact absurd h id
  | zero s => exact Or.inl ⟨s, rfl⟩
  | finite s m e hm => exact Or.inr ⟨s, m, e, hm, rfl⟩

theorem Canonical.grid {u : UnpackedFloat} (h : Canonical u) : Grid (exactValue u) := by
  cases u with
  | infinity s => exact absurd h id
  | notANumber => exact absurd h id
  | zero s => exact grid_zero
  | finite s m e hm =>
      obtain ⟨hlt, hmin, -⟩ := h
      refine ⟨s.apply m, e, ?_, hmin, rfl⟩
      cases s with
      | positive =>
          simp only [Sign.apply, Nat.abs_cast]
          exact_mod_cast hlt.le
      | negative =>
          simp only [Sign.apply, abs_neg, Nat.abs_cast]
          exact_mod_cast hlt.le

theorem Canonical.isFinite {u : UnpackedFloat} (h : Canonical u) : u.isFinite = true := by
  cases u with
  | infinity s => exact absurd h id
  | notANumber => exact absurd h id
  | zero s => rfl
  | finite s m e hm => rfl

theorem grid_value {x : Float} (h : x.isFinite = true) : Grid (value x) := by
  obtain ⟨hcanonical, hvalue⟩ := canonical_unpack h
  rw [← hvalue]
  exact hcanonical.grid

theorem value_pack {u : UnpackedFloat} (h : Canonical u) (hlt : |exactValue u| < 2 ^ 1024) :
    (Float.ofModel (Float.Model.pack u)).isFinite = true ∧
      value (.ofModel (Float.Model.pack u)) = exactValue u := by
  rcases unpack_pack h with heq | ⟨s, m, e, hm, rfl, he, -⟩
  · have hfinite : (Float.ofModel (Float.Model.pack u)).isFinite = true := by
      change (Float.Model.pack u).unpack.isFinite = true
      rw [heq]
      exact h.isFinite
    refine ⟨hfinite, ?_⟩
    rw [← (canonical_unpack hfinite).2]
    exact congrArg exactValue heq
  · rw [abs_exactValue_finite] at hlt
    obtain ⟨-, -, hfull | hleast⟩ := h
    · have hlarge : (2 : ℚ) ^ 1024 ≤ m * 2 ^ e := by
        calc
          (2 : ℚ) ^ 1024 = (2 : ℚ) ^ 52 * (2 : ℚ) ^ (972 : ℤ) := by rw [zpow_ofNat, ← pow_add]
          _ ≤ (m : ℚ) * 2 ^ e := by
            apply mul_le_mul
            · exact_mod_cast hfull
            · exact zpow_le_zpow_right₀ (by norm_num) (by omega)
            · positivity
            · positivity
      exact absurd hlt (not_lt.mpr hlarge)
    · omega

theorem abs_value_le {x : Float} (h : x.isFinite = true) :
    |value x| ≤ (2 : ℚ) ^ 1024 - 2 ^ 971 := by
  obtain ⟨hcanonical, hvalue⟩ := canonical_unpack h
  rw [← hvalue]
  rw [isFinite_iff] at h
  rw [unpack_eq, if_neg h]
  by_cases hzero : mantissa x = 0
  · rw [dif_pos hzero]
    have hpowers : (2 : ℚ) ^ 971 ≤ 2 ^ 1024 := pow_le_pow_right₀ (by norm_num) (by norm_num)
    simp [exactValue, hpowers]
  · rw [dif_neg hzero, abs_exactValue_finite]
    have hmantissa : (mantissa x : ℚ) ≤ 2 ^ 53 - 1 := by
      have hlt := mantissa_lt x
      rw [le_sub_iff_add_le]
      exact_mod_cast hlt
    have hfield := exponentField_lt x
    have hexponent : exponent x ≤ 971 := by
      unfold exponent
      omega
    calc
      (mantissa x : ℚ) * 2 ^ exponent x ≤ (2 ^ 53 - 1) * (2 : ℚ) ^ (971 : ℤ) := by
          apply mul_le_mul hmantissa
          · exact zpow_le_zpow_right₀ (by norm_num) hexponent
          · positivity
          · norm_num
      _ = (2 : ℚ) ^ 1024 - 2 ^ 971 := by
          rw [zpow_ofNat, sub_mul, one_mul, ← pow_add]

theorem abs_value_add_lt {x : Float} (h : x.isFinite = true) {more : ℚ} (hmore : more < 2 ^ 971) :
    |value x| + more < (2 : ℚ) ^ 1024 := by
  have hlt := add_lt_add_of_le_of_lt (abs_value_le h) hmore
  rwa [sub_add_cancel] at hlt

theorem abs_value_add_one_lt {x : Float} (h : x.isFinite = true) :
    |value x| + 1 < (2 : ℚ) ^ 1024 :=
  abs_value_add_lt h (one_lt_pow₀ (by norm_num) (by norm_num))

theorem abs_value_lt {x : Float} (h : x.isFinite = true) : |value x| < 2 ^ 1024 := by
  have hlt := abs_value_add_lt h (show (0 : ℚ) < 2 ^ 971 by positivity)
  rwa [add_zero] at hlt

theorem magnitude_lt_iff {m₁ m₂ : Nat} {e₁ e₂ : ℤ}
    (h₁ : m₁ < 2 ^ 53 ∧ -1074 ≤ e₁ ∧ (2 ^ 52 ≤ m₁ ∨ e₁ = -1074))
    (h₂ : m₂ < 2 ^ 53 ∧ -1074 ≤ e₂ ∧ (2 ^ 52 ≤ m₂ ∨ e₂ = -1074)) :
    (compare e₁ e₂).then (compare m₁ m₂) = .lt ↔ (m₁ : ℚ) * 2 ^ e₁ < m₂ * 2 ^ e₂ := by
  -- A larger exponent belongs to a larger number, as its mantissa fills all bits.
  have hstep {m m' : Nat} {e e' : ℤ} (hm : m < 2 ^ 53) (hm' : 2 ^ 52 ≤ m') (he : e < e') :
      (m : ℚ) * 2 ^ e < m' * 2 ^ e' := by
    calc
      (m : ℚ) * 2 ^ e < 2 ^ 53 * 2 ^ e :=
        mul_lt_mul_of_pos_right (by exact_mod_cast hm) (by positivity)
      _ = 2 ^ 52 * 2 ^ (e + 1) := by
        rw [zpow_add_one₀ two_ne_zero]
        ring
      _ ≤ m' * 2 ^ e' := by
        apply mul_le_mul
        · exact_mod_cast hm'
        · exact zpow_le_zpow_right₀ (by norm_num) he
        · positivity
        · positivity
  rcases lt_trichotomy e₁ e₂ with hlt | rfl | hgt
  · have hless := hstep h₁.1 (h₂.2.2.resolve_right (by omega)) hlt
    rw [Int.compare_eq_lt.mpr hlt]
    simp [hless]
  · have hpos : (0 : ℚ) < 2 ^ e₁ := by positivity
    rw [mul_lt_mul_iff_left₀ hpos, Nat.cast_lt]
    simp [Nat.compare_eq_lt]
  · have hless := hstep h₂.1 (h₁.2.2.resolve_right (by omega)) hgt
    rw [Int.compare_eq_gt.mpr hgt]
    simp [hless.le]

theorem lt_canonical {u v : UnpackedFloat} (hu : Canonical u) (hv : Canonical v) :
    u.lt v = true ↔ exactValue u < exactValue v := by
  have hpos {m : Nat} (e : ℤ) (hm : 0 < m) : (0 : ℚ) < m * 2 ^ e := by positivity
  cases u with
  | infinity s => exact absurd hu id
  | notANumber => exact absurd hu id
  | zero s =>
      cases v with
      | infinity s' => exact absurd hv id
      | notANumber => exact absurd hv id
      | zero s' => simp [UnpackedFloat.lt, UnpackedFloat.compare, exactValue]
      | finite s' m e hm =>
          have hm' := hpos e hm
          cases s' with
          | positive => simp [UnpackedFloat.lt, UnpackedFloat.compare, exactValue, Sign.apply, hm']
          | negative =>
              simp [UnpackedFloat.lt, UnpackedFloat.compare, exactValue, Sign.apply, hm'.le]
  | finite s m e hm =>
      have hm' := hpos e hm
      cases v with
      | infinity s' => exact absurd hv id
      | notANumber => exact absurd hv id
      | zero s' =>
          cases s with
          | positive =>
              simp [UnpackedFloat.lt, UnpackedFloat.compare, exactValue, Sign.apply, hm'.le]
          | negative => simp [UnpackedFloat.lt, UnpackedFloat.compare, exactValue, Sign.apply, hm']
      | finite s' m' e' hm'' =>
          have hv' := hpos e' hm''
          cases s with
          | positive =>
              cases s' with
              | positive =>
                  have hiff := magnitude_lt_iff hu hv
                  simpa [UnpackedFloat.lt, UnpackedFloat.compare, exactValue, Sign.apply] using hiff
              | negative =>
                  have hle : ¬ (m : ℚ) * 2 ^ e < -(m' * 2 ^ e') := by linarith
                  simpa [UnpackedFloat.lt, UnpackedFloat.compare, exactValue, Sign.apply] using hle
          | negative =>
              cases s' with
              | positive =>
                  have hlt : -((m : ℚ) * 2 ^ e) < m' * 2 ^ e' := by linarith
                  simpa [UnpackedFloat.lt, UnpackedFloat.compare, exactValue, Sign.apply] using hlt
              | negative =>
                  have hiff := magnitude_lt_iff hv hu
                  have hflip : ((compare e e').then (compare m m')).swap =
                      (compare e' e).then (compare m' m) := by
                    rw [Ordering.swap_then, Int.compare_swap, Nat.compare_swap]
                  simp only [UnpackedFloat.lt, UnpackedFloat.compare, exactValue, Sign.apply, hflip,
                    beq_iff_eq, Option.some.injEq]
                  rw [hiff]
                  push_cast
                  constructor <;> intro h <;> linarith

theorem lt_iff_value_lt {x y : Float} (hx : x.isFinite = true) (hy : y.isFinite = true) :
    x < y ↔ value x < value y := by
  obtain ⟨hxc, hxv⟩ := canonical_unpack hx
  obtain ⟨hyc, hyv⟩ := canonical_unpack hy
  rw [← hxv, ← hyv, ← lt_canonical hxc hyc]
  exact decide_eq_true_iff

/-- Where a float stands among all floats: by its sign, then by exponent and mantissa. -/
def rank : UnpackedFloat → ℤ × ℤ × ℤ
  | .infinity .negative => (-2, 0, 0)
  | .finite .negative m e _ => (-1, -e, -m)
  | .zero _ => (0, 0, 0)
  | .finite .positive m e _ => (1, e, m)
  | .infinity .positive => (2, 0, 0)
  | .notANumber => (0, 0, 0)

def RankLt (a b : ℤ × ℤ × ℤ) : Prop :=
  a.1 < b.1 ∨ a.1 = b.1 ∧ (a.2.1 < b.2.1 ∨ a.2.1 = b.2.1 ∧ a.2.2 < b.2.2)

theorem RankLt.trans {a b c : ℤ × ℤ × ℤ} (hab : RankLt a b) (hbc : RankLt b c) : RankLt a c := by
  unfold RankLt at hab hbc ⊢
  omega

theorem then_compare_eq_lt {e₁ e₂ : ℤ} {m₁ m₂ : Nat} :
    (compare e₁ e₂).then (compare m₁ m₂) = .lt ↔ e₁ < e₂ ∨ e₁ = e₂ ∧ m₁ < m₂ := by
  rw [Ordering.then_eq_lt, Int.compare_eq_lt, Int.compare_eq_eq, Nat.compare_eq_lt]

theorem then_compare_eq_gt {e₁ e₂ : ℤ} {m₁ m₂ : Nat} :
    (compare e₁ e₂).then (compare m₁ m₂) = .gt ↔ e₂ < e₁ ∨ e₁ = e₂ ∧ m₂ < m₁ := by
  rw [Ordering.then_eq_gt, Int.compare_eq_gt, Int.compare_eq_eq, Nat.compare_eq_gt]

theorem lt_iff_rankLt (u v : UnpackedFloat) :
    u.lt v = true ↔ u ≠ .notANumber ∧ v ≠ .notANumber ∧ RankLt (rank u) (rank v) := by
  cases u with
  | notANumber => simp [UnpackedFloat.lt, UnpackedFloat.compare]
  | infinity s =>
      cases v with
      | notANumber => simp [UnpackedFloat.lt, UnpackedFloat.compare]
      | infinity s' =>
          cases s <;> cases s' <;> simp [UnpackedFloat.lt, UnpackedFloat.compare, rank, RankLt]
          decide
      | zero s' => cases s <;> simp [UnpackedFloat.lt, UnpackedFloat.compare, rank, RankLt]
      | finite s' m e hm =>
          cases s <;> cases s' <;> simp [UnpackedFloat.lt, UnpackedFloat.compare, rank, RankLt]
  | zero s =>
      cases v with
      | notANumber => simp [UnpackedFloat.lt, UnpackedFloat.compare]
      | infinity s' => cases s' <;> simp [UnpackedFloat.lt, UnpackedFloat.compare, rank, RankLt]
      | zero s' => simp [UnpackedFloat.lt, UnpackedFloat.compare, rank, RankLt]
      | finite s' m e hm =>
          cases s' <;> simp [UnpackedFloat.lt, UnpackedFloat.compare, rank, RankLt]
  | finite s m e hm =>
      cases v with
      | notANumber => simp [UnpackedFloat.lt, UnpackedFloat.compare]
      | infinity s' =>
          cases s <;> cases s' <;> simp [UnpackedFloat.lt, UnpackedFloat.compare, rank, RankLt]
      | zero s' => cases s <;> simp [UnpackedFloat.lt, UnpackedFloat.compare, rank, RankLt]
      | finite s' m' e' hm' =>
          cases s <;> cases s' <;>
            simp [UnpackedFloat.lt, UnpackedFloat.compare, rank, RankLt, then_compare_eq_lt,
              then_compare_eq_gt]

theorem lt_iff_unpack (x y : Float) : x < y ↔ x.toModel.unpack.lt y.toModel.unpack = true :=
  decide_eq_true_iff

theorem lt_trans_float {x y z : Float} (hxy : x < y) (hyz : y < z) : x < z := by
  rw [lt_iff_unpack, lt_iff_rankLt] at hxy hyz ⊢
  exact ⟨hxy.1, hyz.2.1, hxy.2.2.trans hyz.2.2⟩

/-- What a pair of finite floats makes of an operation that rounds to the grid: a canonical
float is packed whose number is nearest to the exact result. -/
def Rounds (exact : ℚ) (x : Float) : Prop :=
  ∃ u, Canonical u ∧ Nearest exact (exactValue u) ∧ x = .ofModel (Float.Model.pack u)

theorem Rounds.nearest {exact : ℚ} {x : Float} (h : Rounds exact x) (hx : x.isFinite = true) :
    Nearest exact (value x) := by
  obtain ⟨u, hcanonical, hnearest, rfl⟩ := h
  have hvalue := (canonical_unpack hx).2
  rcases unpack_pack hcanonical with heq | ⟨s, m, e, hm, -, -, hinfinite⟩
  · rw [← hvalue]
    have hsame : (Float.ofModel (Float.Model.pack u)).toModel.unpack = u := heq
    rwa [hsame]
  · have hsame : (Float.ofModel (Float.Model.pack u)).isFinite =
        (Float.Model.pack u).unpack.isFinite := rfl
    rw [hsame, hinfinite] at hx
    exact absurd hx (by simp [UnpackedFloat.isFinite])

theorem Rounds.value {exact t slack : ℚ} {x : Float} (h : Rounds exact x) (ht : Grid t)
    (hlt : |t| + slack < (2 : ℚ) ^ 1024) (hclose : 2 * |exact - t| ≤ slack) :
    x.isFinite = true ∧ Nearest exact (value x) := by
  obtain ⟨u, hcanonical, hnearest, rfl⟩ := h
  have hsmall : |exactValue u| < 2 ^ 1024 := by
    have hnear := (hnearest.abs_sub_le ht).trans hclose
    have htriangle := abs_sub_abs_le_abs_sub (exactValue u) t
    exact lt_of_le_of_lt (by linarith) hlt
  obtain ⟨hfinite, hvalue⟩ := value_pack hcanonical hsmall
  rw [hvalue]
  exact ⟨hfinite, hnearest⟩

theorem Rounds.eq_of_grid {t : ℚ} {x : Float} (h : Rounds t x) (ht : Grid t)
    (hlt : |t| < (2 : ℚ) ^ 1024) : x.isFinite = true ∧ Number.value x = t := by
  have hslack : |t| + 0 < (2 : ℚ) ^ 1024 := by rwa [add_zero]
  obtain ⟨hfinite, hnearest⟩ := h.value ht hslack (by rw [sub_self, abs_zero, mul_zero])
  exact ⟨hfinite, hnearest.eq_of_grid ht⟩

theorem decreaseExponent_eq (m : Nat) {e target : ℤ} (h : target ≤ e) :
    ((decreaseExponent m e target).1 : ℚ) * 2 ^ target = m * 2 ^ e := by
  obtain ⟨k, rfl⟩ := Int.le.dest h
  have hshift : (decreaseExponent m (target + k) target).1 = m * 2 ^ k := by
    simp [decreaseExponent, Nat.shiftLeft_eq]
  rw [hshift, zpow_add₀ two_ne_zero, zpow_natCast]
  push_cast
  ring

theorem nearest_self {u : UnpackedFloat} (h : Canonical u) :
    Nearest (exactValue u) (exactValue u) where
  grid := h.grid
  closest := by
    intro t _
    rw [sub_self, abs_zero]
    exact abs_nonneg _

theorem apply_neg (s : Sign) (m : ℤ) : (-s).apply m = -s.apply m := by
  cases s with
  | positive => rfl
  | negative => exact (neg_neg m).symm

theorem nearest_sub {u v : UnpackedFloat} (hu : Canonical u) (hv : Canonical v) :
    Canonical (UnpackedFloat.sub Format.binary64 u v) ∧
      Nearest (exactValue u - exactValue v)
        (exactValue (UnpackedFloat.sub Format.binary64 u v)) := by
  cases u with
  | infinity s => exact absurd hu id
  | notANumber => exact absurd hu id
  | zero s =>
      cases v with
      | infinity s' => exact absurd hv id
      | notANumber => exact absurd hv id
      | zero s' =>
          simp only [UnpackedFloat.sub]
          split <;> exact ⟨trivial, by simpa [exactValue] using nearest_self (u := .zero s) trivial⟩
      | finite s' m' e' hm' =>
          have hnegated : Canonical (.finite (-s') m' e' hm') := hv
          have hsame : UnpackedFloat.sub Format.binary64 (.zero s) (.finite s' m' e' hm') =
              .finite (-s') m' e' hm' := rfl
          have hvalue : exactValue (.zero s) - exactValue (.finite s' m' e' hm') =
              exactValue (.finite (-s') m' e' hm') := by
            simp [exactValue, apply_neg]
          rw [hsame, hvalue]
          exact ⟨hnegated, nearest_self hnegated⟩
  | finite s m e hm =>
      cases v with
      | infinity s' => exact absurd hv id
      | notANumber => exact absurd hv id
      | zero s' =>
          have hsame : UnpackedFloat.sub Format.binary64 (.finite s m e hm) (.zero s') =
              .finite s m e hm := rfl
          have hvalue : exactValue (.finite s m e hm) - exactValue (.zero s') =
              exactValue (.finite s m e hm) := sub_zero _
          rw [hsame, hvalue]
          exact ⟨hu, nearest_self hu⟩
      | finite s' m' e' hm' =>
          simp only [UnpackedFloat.sub]
          have hnearest := nearest_normalize
            (s.apply (decreaseExponent m e (min e e')).1 -
              s'.apply (decreaseExponent m' e' (min e e')).1) (min e e') .positive
          have hleft := decreaseExponent_eq m (min_le_left e e')
          have hright := decreaseExponent_eq m' (min_le_right e e')
          have hexact : ((s.apply (decreaseExponent m e (min e e')).1 -
              s'.apply (decreaseExponent m' e' (min e e')).1 : ℤ) : ℚ) * 2 ^ min e e' =
              exactValue (.finite s m e hm) - exactValue (.finite s' m' e' hm') := by
            have hsign (s : Sign) (n : Nat) : ((s.apply n : ℤ) : ℚ) = (s.apply 1 : ℤ) * n := by
              cases s <;> simp [Sign.apply]
            simp only [exactValue]
            rw [hsign s m, hsign s' m', mul_assoc, mul_assoc, ← hleft, ← hright]
            push_cast
            rw [hsign s, hsign s']
            ring
          rw [hexact] at hnearest
          exact hnearest

theorem canonical_neg {u : UnpackedFloat} (h : Canonical u) :
    Canonical u.neg ∧ exactValue u.neg = -exactValue u := by
  rcases h.cases with ⟨s, rfl⟩ | ⟨s, m, e, hm, rfl⟩
  · exact ⟨trivial, neg_zero.symm⟩
  · exact ⟨h, by simp [exactValue, UnpackedFloat.neg, apply_neg]⟩

theorem nearest_add {u v : UnpackedFloat} (hu : Canonical u) (hv : Canonical v) :
    Canonical (UnpackedFloat.add Format.binary64 u v) ∧
      Nearest (exactValue u + exactValue v)
        (exactValue (UnpackedFloat.add Format.binary64 u v)) := by
  rcases hu.cases with ⟨s, rfl⟩ | ⟨s, m, e, hm, rfl⟩
  · rcases hv.cases with ⟨s', rfl⟩ | ⟨s', m', e', hm', rfl⟩
    · simp only [UnpackedFloat.add]
      split <;> exact ⟨trivial, by simpa [exactValue] using nearest_self (u := .zero s) trivial⟩
    · have hzero : exactValue (.zero s) = 0 := rfl
      rw [hzero, zero_add]
      exact ⟨hv, nearest_self hv⟩
  · rcases hv.cases with ⟨s', rfl⟩ | ⟨s', m', e', hm', rfl⟩
    · have hzero : exactValue (.zero s') = 0 := rfl
      rw [hzero, add_zero]
      exact ⟨hu, nearest_self hu⟩
    · obtain ⟨hneg, hopposite⟩ := canonical_neg hv
      have hsame : UnpackedFloat.add Format.binary64 (.finite s m e hm) (.finite s' m' e' hm') =
          UnpackedFloat.sub Format.binary64 (.finite s m e hm)
            (UnpackedFloat.neg (.finite s' m' e' hm')) := by
        simp only [UnpackedFloat.add, UnpackedFloat.sub, UnpackedFloat.neg, apply_neg, sub_neg_eq_add]
      have hnearest := nearest_sub hu hneg
      rwa [hopposite, sub_neg_eq_add, ← hsame] at hnearest

theorem rounds_add {x y : Float} (hx : x.isFinite = true) (hy : y.isFinite = true) :
    Rounds (value x + value y) (x + y) := by
  obtain ⟨hxc, hxv⟩ := canonical_unpack hx
  obtain ⟨hyc, hyv⟩ := canonical_unpack hy
  rw [← hxv, ← hyv]
  exact ⟨_, (nearest_add hxc hyc).1, (nearest_add hxc hyc).2, rfl⟩

theorem rounds_sub {x y : Float} (hx : x.isFinite = true) (hy : y.isFinite = true) :
    Rounds (value x - value y) (x - y) := by
  obtain ⟨hxc, hxv⟩ := canonical_unpack hx
  obtain ⟨hyc, hyv⟩ := canonical_unpack hy
  rw [← hxv, ← hyv]
  exact ⟨_, (nearest_sub hxc hyc).1, (nearest_sub hxc hyc).2, rfl⟩

theorem value_abs {x : Float} (h : x.isFinite = true) :
    x.abs.isFinite = true ∧ value x.abs = |value x| := by
  obtain ⟨hcanonical, hvalue⟩ := canonical_unpack h
  have habs : Canonical x.toModel.unpack.abs ∧
      exactValue x.toModel.unpack.abs = |exactValue x.toModel.unpack| := by
    generalize x.toModel.unpack = u at hcanonical
    rcases hcanonical.cases with ⟨s, rfl⟩ | ⟨s, m, e, hm, rfl⟩
    · exact ⟨trivial, abs_zero.symm⟩
    · rw [abs_exactValue_finite]
      exact ⟨hcanonical, by simp [exactValue, UnpackedFloat.abs, Sign.apply]⟩
  have hlt : |exactValue x.toModel.unpack.abs| < 2 ^ 1024 := by
    rw [habs.2, abs_abs, hvalue]
    exact abs_value_lt h
  rw [← hvalue, ← habs.2]
  exact value_pack habs.1 hlt

theorem value_neg {x : Float} (h : x.isFinite = true) :
    (-x).isFinite = true ∧ value (-x) = -value x := by
  obtain ⟨hcanonical, hvalue⟩ := canonical_unpack h
  have hneg := canonical_neg hcanonical
  have hlt : |exactValue x.toModel.unpack.neg| < 2 ^ 1024 := by
    rw [hneg.2, abs_neg, hvalue]
    exact abs_value_lt h
  rw [← hvalue, ← hneg.2]
  exact value_pack hneg.1 hlt

theorem isNaN_of_isFinite {x : Float} (h : x.isFinite = true) : x.isNaN = false := by
  obtain ⟨hcanonical, -⟩ := canonical_unpack h
  change x.toModel.unpack.isNaN = false
  rcases hcanonical.cases with ⟨s, hu⟩ | ⟨s, m, e, hm, hu⟩
  · rw [hu]
    rfl
  · rw [hu]
    rfl

theorem finite_or_infinite {x : Float} (h : x.isNaN = false) :
    x.isFinite = true ∨ ∃ s, x.toModel.unpack = .infinity s := by
  change x.toModel.unpack.isNaN = false at h
  change x.toModel.unpack.isFinite = true ∨ _
  cases hu : x.toModel.unpack with
  | infinity s => exact Or.inr ⟨s, rfl⟩
  | notANumber =>
      rw [hu] at h
      exact Bool.noConfusion h
  | zero s => exact Or.inl rfl
  | finite s m e hm => exact Or.inl rfl

theorem unpack_pack_infinity (s : Sign) : (Float.Model.pack (.infinity s)).unpack = .infinity s := by
  cases s <;> rfl

theorem lt_of_infinity {x y : Float} (hx : x.isFinite = true)
    (hy : y.toModel.unpack = .infinity .positive) : x < y := by
  refine decide_eq_true_iff.mpr ?_
  change x.toModel.unpack.lt y.toModel.unpack = true
  rw [hy]
  obtain ⟨hcanonical, -⟩ := canonical_unpack hx
  rcases hcanonical.cases with ⟨s, hu⟩ | ⟨s, m, e, hm, hu⟩
  · rw [hu]
    rfl
  · rw [hu]
    cases s <;> rfl

theorem infinity_lt {x y : Float} (hx : x.isFinite = true)
    (hy : y.toModel.unpack = .infinity .negative) : y < x := by
  refine decide_eq_true_iff.mpr ?_
  change y.toModel.unpack.lt x.toModel.unpack = true
  rw [hy]
  obtain ⟨hcanonical, -⟩ := canonical_unpack hx
  rcases hcanonical.cases with ⟨s, hu⟩ | ⟨s, m, e, hm, hu⟩
  · rw [hu]
    rfl
  · rw [hu]
    cases s <;> rfl

theorem value_greater {x y : Float} (hx : x.isFinite = true) (hy : y.isFinite = true) :
    (greater x y).isFinite = true ∧ value (greater x y) = max (value x) (value y) := by
  have hnumber := isNaN_of_isFinite hy
  unfold greater
  rw [hnumber, Bool.or_false]
  by_cases hlt : y < x
  · rw [if_pos (by simpa using hlt)]
    rw [lt_iff_value_lt hy hx] at hlt
    exact ⟨hx, (max_eq_left hlt.le).symm⟩
  · rw [if_neg (by simpa using hlt)]
    rw [lt_iff_value_lt hy hx, not_lt] at hlt
    exact ⟨hy, (max_eq_right hlt).symm⟩

theorem value_greater_of_not_lt {x y : Float} (hx : x.isFinite = true) (h : ¬ x < y) :
    (greater x y).isFinite = true ∧ value (greater x y) = value x := by
  unfold greater
  split
  · exact ⟨hx, rfl⟩
  · rename_i hother
    rw [Bool.or_eq_true, decide_eq_true_eq, not_or] at hother
    have hnumber : y.isNaN = false := by simpa using hother.2
    rcases finite_or_infinite hnumber with hy | ⟨s, hs⟩
    · refine ⟨hy, ?_⟩
      rw [lt_iff_value_lt hx hy] at h
      rw [lt_iff_value_lt hy hx] at hother
      exact le_antisymm (not_lt.mp h) (not_lt.mp hother.1)
    · cases s with
      | positive => exact absurd (lt_of_infinity hx hs) h
      | negative => exact absurd (infinity_lt hx hs) hother.1

theorem lt_abs_of_infinity {bound x : Float} (hbound : bound.isFinite = true) {s : Sign}
    (h : x.toModel.unpack = .infinity s) : bound < x.abs := by
  apply lt_of_infinity hbound
  change (Float.Model.pack x.toModel.unpack.abs).unpack = _
  rw [h]
  exact unpack_pack_infinity .positive

theorem unpack_sub_of_infinity {x y : Float} {s : Sign} (hx : x.toModel.unpack = .infinity s)
    (hy : y.isFinite = true) : (x - y).toModel.unpack = .infinity s := by
  change (Float.Model.pack (UnpackedFloat.sub Format.binary64 x.toModel.unpack
    y.toModel.unpack)).unpack = _
  obtain ⟨hcanonical, -⟩ := canonical_unpack hy
  rw [hx]
  rcases hcanonical.cases with ⟨s', hu⟩ | ⟨s', m, e, hm, hu⟩
  · rw [hu]
    exact unpack_pack_infinity s
  · rw [hu]
    exact unpack_pack_infinity s

theorem abs_sub_lt_of_not_lt {bound x y : Float} {k : ℤ} (hbound : bound.isFinite = true)
    (hk : -1074 ≤ k) (hless : value bound < 2 ^ k) (hx : x.isNaN = false)
    (hy : y.isFinite = true) (h : ¬ bound < (x - y).abs) :
    x.isFinite = true ∧ |value x - value y| < 2 ^ k := by
  rcases finite_or_infinite hx with hx | ⟨s, hs⟩
  · refine ⟨hx, ?_⟩
    obtain ⟨u, hcanonical, hnearest, hsub⟩ := rounds_sub hx hy
    rcases unpack_pack hcanonical with heq | ⟨s, m, e, hm, -, -, hinf⟩
    · by_contra hfar
      rw [not_lt] at hfar
      have hlarge : 2 ^ k ≤ |exactValue u| := by
        rcases le_abs.mp hfar with hpos | hneg
        · exact le_abs.mpr (Or.inl (hnearest.le_of_grid_le (grid_two_zpow hk) hpos))
        · exact le_abs.mpr (Or.inr (hnearest.neg.le_of_grid_le (grid_two_zpow hk) hneg))
      have hfinite : (x - y).isFinite = true := by
        rw [hsub]
        change (Float.Model.pack u).unpack.isFinite = true
        rw [heq]
        exact hcanonical.isFinite
      have hvalue : value (x - y) = exactValue u := by
        rw [← (canonical_unpack hfinite).2, hsub]
        exact congrArg exactValue heq
      obtain ⟨habs, hvabs⟩ := value_abs hfinite
      rw [lt_iff_value_lt hbound habs, hvabs, hvalue] at h
      exact h (hless.trans_le hlarge)
    · rw [hsub] at h
      exact absurd (lt_abs_of_infinity hbound hinf) h
  · exact absurd (lt_abs_of_infinity hbound (unpack_sub_of_infinity hs hy)) h

theorem powersOfTen_exact : ∀ k : Fin 23,
    (Float.exactlyRepresentablePowersOfTen[k.val]).isFinite = true ∧
      signedNumerator Float.exactlyRepresentablePowersOfTen[k.val] =
        10 ^ k.val * denominator Float.exactlyRepresentablePowersOfTen[k.val] := by
  decide +kernel

/-- A quotient of finite floats, the second of them positive, is rounded once. -/
theorem rounds_div {x y : Float} (hx : x.isFinite = true) (hy : y.isFinite = true)
    (hpos : 0 < value y) : Rounds (value x / value y) (x / y) := by
  obtain ⟨hxc, hxv⟩ := canonical_unpack hx
  obtain ⟨hyc, hyv⟩ := canonical_unpack hy
  have hpack : x / y = .ofModel (Float.Model.pack
      (UnpackedFloat.div Format.binary64 x.toModel.unpack y.toModel.unpack)) := rfl
  rw [← hyv] at hpos
  rw [hpack, ← hyv, ← hxv]
  generalize x.toModel.unpack = u at hxc ⊢
  generalize y.toModel.unpack = v at hyc hpos ⊢
  rcases hyc.cases with ⟨s, rfl⟩ | ⟨s, m, e, hm, rfl⟩
  · exact absurd hpos (lt_irrefl 0)
  · have hv : (0 : ℚ) < m * 2 ^ e := by positivity
    cases s with
    | negative =>
        simp only [exactValue, Sign.apply] at hpos
        push_cast at hpos
        linarith
    | positive =>
        rcases hxc.cases with ⟨s', rfl⟩ | ⟨s', m', e', hm', rfl⟩
        · refine ⟨_, ?_, ?_, rfl⟩
          · cases s' <;> trivial
          · have hzero : exactValue (UnpackedFloat.div Format.binary64 (.zero s')
                (.finite .positive m e hm)) = 0 := rfl
            rw [hzero]
            simpa [exactValue] using nearest_self (u := .zero s') trivial
        · obtain ⟨hcanonical, hnearest⟩ := @nearest_div s' m' m e' e hm' hm _ rfl
          refine ⟨_, hcanonical, ?_, rfl⟩
          have hsame : exactValue (.finite s' m' e' hm') / exactValue (.finite .positive m e hm) =
              (s'.apply 1 : ℤ) * (m' * 2 ^ e' / (m * 2 ^ e) : ℚ) := by
            cases s' with
            | positive => simp [exactValue, Sign.apply]
            | negative => simp [exactValue, Sign.apply, neg_div]
          rw [hsame]
          exact hnearest

theorem value_toFloat {n : Nat} (h : n < 2 ^ 53) :
    n.toUInt64.toFloat.isFinite = true ∧ value n.toUInt64.toFloat = n := by
  have hpack : n.toUInt64.toFloat = .ofModel (Float.Model.pack
      (UnpackedFloat.normalize Format.binary64 n.toUInt64.toNat 0 .positive)) := rfl
  have hsame : n.toUInt64.toNat = n := by
    rw [Nat.toUInt64_eq, UInt64.toNat_ofNat']
    omega
  rw [hpack, hsame]
  obtain ⟨hcanonical, hnearest⟩ := nearest_normalize n 0 .positive
  have hexact : exactValue (UnpackedFloat.normalize Format.binary64 n 0 .positive) = n := by
    rw [zpow_zero, mul_one] at hnearest
    exact_mod_cast hnearest.eq_of_grid (by exact_mod_cast grid_natCast h.le)
  have hlt : |exactValue (UnpackedFloat.normalize Format.binary64 n 0 .positive)| < 2 ^ 1024 := by
    rw [hexact, Nat.abs_cast]
    calc
      (n : ℚ) < 2 ^ 53 := by exact_mod_cast h
      _ ≤ 2 ^ 1024 := pow_le_pow_right₀ (by norm_num) (by norm_num)
  have hvalue := value_pack hcanonical hlt
  rwa [hexact] at hvalue

/-- A decimal with few places is rounded once. -/
theorem rounds_ofScientific (n : Nat) {k : Nat} (hpos : 0 < k) (hk : k ≤ 22) :
    Rounds (n / 10 ^ k) (Float.ofScientific n true k) := by
  by_cases hsmall : n < 2 ^ 53 ∧ k ≤ 22
  · have hindex : k < Float.exactlyRepresentablePowersOfTen.size := by
      change k < 23
      omega
    have hfast : Float.ofScientific n true k =
        n.toUInt64.toFloat / Float.exactlyRepresentablePowersOfTen[k] := by
      unfold Float.ofScientific
      rw [dif_pos hsmall]
      rfl
    obtain ⟨hfinite, hexact⟩ := powersOfTen_exact ⟨k, by omega⟩
    have hvalue : value Float.exactlyRepresentablePowersOfTen[k] = 10 ^ k := by
      unfold value
      rw [div_eq_iff (by exact_mod_cast (denominator_pos _).ne')]
      exact_mod_cast hexact
    obtain ⟨hwhole, hn⟩ := value_toFloat hsmall.1
    have hrounds := rounds_div hwhole hfinite (by
      rw [hvalue]
      positivity)
    rw [hn, hvalue] at hrounds
    rw [hfast]
    exact hrounds
  · have hslow : Float.ofScientific n true k =
        .ofModel (Float.Model.ofScientific n (Int.negOfNat k)) := by
      unfold Float.ofScientific
      rw [dif_neg hsmall]
      rfl
    have hn : n ≠ 0 := by omega
    have hneg : Int.negOfNat k = -k := Int.negOfNat_eq
    have hdiv : UnpackedFloat.ofScientific Format.binary64 n (-k) =
        UnpackedFloat.div Format.binary64 (.finite .positive n 0 (Nat.pos_of_ne_zero hn))
          (.finite .positive (10 ^ k) 0 (by positivity)) := by
      have hbits : (2 : ℤ) ^ Format.binary64.exponentBits = 2048 := rfl
      unfold UnpackedFloat.ofScientific
      rw [dif_neg hn, if_neg (by omega), if_neg (by omega), if_neg (by omega)]
      have hpower : 10 ^ (- -(k : ℤ)).toNat = 10 ^ k := by
        rw [neg_neg, Int.toNat_natCast]
      exact congrArg (UnpackedFloat.div Format.binary64 _) (finite_congr rfl hpower rfl _ _)
    obtain ⟨hcanonical, hnearest⟩ := nearest_div hdiv.symm
    rw [hslow, hneg]
    refine ⟨_, hcanonical, ?_, rfl⟩
    simpa [Sign.apply] using hnearest

end ToolBatching.Number
