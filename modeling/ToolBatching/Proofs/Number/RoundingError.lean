import Mathlib.Data.Int.Log
import ToolBatching.Proofs.Number.Comparing

namespace ToolBatching.Number

variable {q r bound : ℚ} {x : Float}

theorem abs_round_le {y : ℚ} {n : ℤ} (h : |y| ≤ n) : |round y| ≤ n := by
  have hclose := abs_le.mp (abs_sub_round y)
  have hbounds := abs_le.mp h
  have hlow : (-n : ℤ) < round y + 1 := by
    have hcast : ((-n : ℤ) : ℚ) < ((round y + 1 : ℤ) : ℚ) := by
      push_cast
      linarith
    exact_mod_cast hcast
  have hhigh : round y < n + 1 := by
    have hcast : ((round y : ℤ) : ℚ) < ((n + 1 : ℤ) : ℚ) := by
      push_cast
      linarith
    exact_mod_cast hcast
  rw [abs_le]
  omega

namespace Nearest

theorem abs_sub_le_two_zpow (h : Nearest q r) {k : ℤ} (hk : -1021 ≤ k) (hq : |q| ≤ 2 ^ k) :
    |r - q| ≤ 2 ^ (k - 54) := by
  have hstep : (0 : ℚ) < 2 ^ (k - 53) := by positivity
  have hscaled : |q / 2 ^ (k - 53)| ≤ (2 ^ 53 : ℤ) := by
    rw [abs_div, abs_of_pos hstep, div_le_iff₀ hstep]
    calc
      |q| ≤ 2 ^ k := hq
      _ = 2 ^ (53 + (k - 53)) := by rw [add_sub_cancel]
      _ = (2 ^ 53 : ℤ) * 2 ^ (k - 53) := by
        rw [zpow_add₀ two_ne_zero]
        norm_num
  have hgrid : Grid (round (q / 2 ^ (k - 53)) * 2 ^ (k - 53)) :=
    ⟨round (q / 2 ^ (k - 53)), k - 53, abs_round_le hscaled, by omega, rfl⟩
  have hclose := abs_sub_round (q / 2 ^ (k - 53))
  calc
    |r - q| ≤ |round (q / 2 ^ (k - 53)) * 2 ^ (k - 53) - q| := h.closest _ hgrid
    _ = |(round (q / 2 ^ (k - 53)) - q / 2 ^ (k - 53)) * 2 ^ (k - 53)| := by
      rw [sub_mul, div_mul_cancel₀ _ hstep.ne']
    _ = |q / 2 ^ (k - 53) - round (q / 2 ^ (k - 53))| * 2 ^ (k - 53) := by
      rw [abs_mul, abs_of_pos hstep, abs_sub_comm]
    _ ≤ 1 / 2 * 2 ^ (k - 53) := mul_le_mul_of_nonneg_right hclose hstep.le
    _ = 2 ^ (k - 54) := by
      rw [show k - 53 = k - 54 + 1 by ring, zpow_add_one₀ two_ne_zero]
      ring

theorem abs_sub_le_of_abs_le (h : Nearest q r) (hq : |q| ≤ bound)
    (hbound : (2 : ℚ) ^ (-1022 : ℤ) ≤ bound) : |r - q| ≤ bound / 2 ^ 53 := by
  have hpos : 0 < bound := lt_of_lt_of_le (by positivity) hbound
  have hlog : -1022 ≤ Int.log 2 bound :=
    (Int.zpow_le_iff_le_log (by norm_num) hpos).mp (by simpa using hbound)
  have hbelow : |q| ≤ 2 ^ (Int.log 2 bound + 1) :=
    hq.trans (by simpa using (Int.lt_zpow_succ_log_self (b := 2) (by norm_num) bound).le)
  calc
    |r - q| ≤ 2 ^ (Int.log 2 bound + 1 - 54) := h.abs_sub_le_two_zpow (by omega) hbelow
    _ = 2 ^ Int.log 2 bound / 2 ^ 53 := by
      rw [show Int.log 2 bound + 1 - 54 = Int.log 2 bound - 53 by ring, zpow_sub₀ two_ne_zero]
      norm_num
    _ ≤ bound / 2 ^ 53 := by
      apply div_le_div_of_nonneg_right _ (by positivity)
      simpa using Int.zpow_log_le_self (b := 2) (by norm_num) hpos

end Nearest

theorem Rounds.abs_sub_le (h : Rounds q x) (hq : |q| ≤ bound) (hlow : 1 ≤ bound)
    (hhigh : bound ≤ 2 ^ 1000) :
    x.isFinite = true ∧ |Number.value x - q| ≤ bound / 2 ^ 53 := by
  have htiny : (2 : ℚ) ^ (-1022 : ℤ) ≤ bound :=
    le_trans (zpow_le_one_of_nonpos₀ (by norm_num) (by norm_num)) hlow
  rcases h.cases with ⟨hx, hnearest⟩ | ⟨s, t, -, hnearest, hlarge⟩
  · exact ⟨hx, hnearest.abs_sub_le_of_abs_le hq htiny⟩
  · have hclose := hnearest.abs_sub_le_of_abs_le hq htiny
    have hbelow : |t| ≤ bound + bound / 2 ^ 53 := by
      linarith only [abs_sub_abs_le_abs_sub t q, hclose, hq]
    have habove : (2 : ℚ) ^ 1024 ≤ |t| := by
      cases s with
      | positive =>
          apply hlarge.trans
          simpa [Float.Model.UnpackedFloat.Sign.apply] using le_abs_self t
      | negative =>
          apply hlarge.trans
          simpa [Float.Model.UnpackedFloat.Sign.apply] using neg_le_abs t
    have hroom : bound + bound / 2 ^ 53 < 2 ^ 1024 := by
      calc
        bound + bound / 2 ^ 53 ≤ 2 ^ 1000 + 2 ^ 1000 :=
          add_le_add hhigh
            ((div_le_self (zero_le_one.trans hlow) (by norm_num)).trans hhigh)
        _ = 2 ^ 1001 := by rw [← two_mul, ← pow_succ']
        _ < 2 ^ 1024 := pow_lt_pow_right₀ (by norm_num) (by norm_num)
    exact absurd (habove.trans hbelow) (not_le.mpr hroom)

end ToolBatching.Number
