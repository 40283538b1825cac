import ToolBatching.Proofs.Number.WholeText

namespace ToolBatching.Number

/-- Finite, and not above a power of two in magnitude. -/
structure AtMost (k : Nat) (x : Float) : Prop where
  isFinite : x.isFinite = true
  le : |value x| ≤ 2 ^ k

instance (k : Nat) (x : Float) : Decidable (AtMost k x) :=
  decidable_of_iff (x.isFinite = true ∧ |value x| ≤ 2 ^ k)
    ⟨fun h => ⟨h.1, h.2⟩, fun h => ⟨h.isFinite, h.le⟩⟩

variable {j k : Nat} {x y : Float}

theorem Rounds.atMost {exact : ℚ} (h : Rounds exact x) (hle : |exact| ≤ 2 ^ k) (hk : k ≤ 1022) :
    AtMost k x := by
  have hpower : (2 : ℚ) ^ (k + 1) < 2 ^ 1024 := pow_lt_pow_right₀ (by norm_num) (by omega)
  have hclose : 2 * |exact - 0| ≤ 2 ^ (k + 1) := by
    rw [sub_zero, pow_succ]
    linarith
  obtain ⟨hfinite, hnearest⟩ := h.value grid_zero (by simpa using hpower) hclose
  have hgrid : Grid (2 ^ k) := by
    have hpower := grid_two_zpow (k := k) (by omega)
    rwa [zpow_natCast] at hpower
  rw [abs_le] at hle
  refine ⟨hfinite, abs_le.mpr ⟨?_, hnearest.le_of_le_grid hgrid hle.2⟩⟩
  exact hnearest.le_of_grid_le hgrid.neg hle.1

namespace AtMost

theorem mono (h : AtMost j x) (hjk : j ≤ k) : AtMost k x :=
  ⟨h.isFinite, h.le.trans (pow_le_pow_right₀ (by norm_num) hjk)⟩

theorem add (hx : AtMost k x) (hy : AtMost k y) (hk : k ≤ 1021) : AtMost (k + 1) (x + y) := by
  refine (rounds_add hx.isFinite hy.isFinite).atMost ((abs_add_le _ _).trans ?_) (by omega)
  rw [pow_succ]
  linarith [hx.le, hy.le]

theorem sub (hx : AtMost k x) (hy : AtMost k y) (hk : k ≤ 1021) : AtMost (k + 1) (x - y) := by
  refine (rounds_sub hx.isFinite hy.isFinite).atMost ((abs_sub _ _).trans ?_) (by omega)
  rw [pow_succ]
  linarith [hx.le, hy.le]

theorem mul (hx : AtMost j x) (hy : AtMost k y) (hk : j + k ≤ 1022) : AtMost (j + k) (x * y) := by
  refine (rounds_mul hx.isFinite hy.isFinite).atMost ?_ hk
  rw [abs_mul, pow_add]
  exact mul_le_mul hx.le hy.le (abs_nonneg _) (by positivity)

end AtMost

theorem atMost_ofNat {n : Nat} (h : n ≤ 2 ^ k) (hk : k ≤ 1022) : AtMost k (Float.ofNat n) := by
  refine (rounds_natural n).atMost ?_ hk
  rw [Nat.abs_cast]
  exact_mod_cast h

end ToolBatching.Number
