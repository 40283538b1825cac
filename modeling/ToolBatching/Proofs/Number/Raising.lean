import Mathlib.Data.Rat.Floor
import ToolBatching.Body.Travel
import ToolBatching.Proofs.Number.FixedText

namespace ToolBatching.Number

theorem Grid.exists_mul {t : ℚ} (h : Grid t) {k : ℤ} (hlarge : (2 : ℚ) ^ k ≤ |t|) :
    ∃ n : ℤ, t = n * 2 ^ (k - 53) := by
  obtain ⟨m, e, hm, -, rfl⟩ := h
  have hexponent : k - 53 ≤ e := by
    by_contra hlt
    have hbits : |(m : ℚ)| ≤ 2 ^ 53 := by exact_mod_cast hm
    have hsmall : |(m : ℚ) * 2 ^ e| < 2 ^ k := by
      calc
        |(m : ℚ) * 2 ^ e| = |(m : ℚ)| * 2 ^ e := by
          rw [abs_mul, abs_of_pos (show (0 : ℚ) < 2 ^ e by positivity)]
        _ ≤ 2 ^ 53 * 2 ^ e := mul_le_mul_of_nonneg_right hbits (by positivity)
        _ = 2 ^ (53 + e) := by
          rw [zpow_add₀ two_ne_zero]
          norm_num
        _ < 2 ^ k := zpow_lt_zpow_right₀ (by norm_num) (by omega)
    exact absurd hlarge (not_le.mpr hsmall)
  obtain ⟨more, rfl⟩ := Int.le.dest hexponent
  refine ⟨m * 2 ^ more, ?_⟩
  rw [zpow_add₀ two_ne_zero, zpow_natCast]
  push_cast
  ring

theorem tolerance_lt : tolerance.isFinite = true ∧ value tolerance < 1 / 2 ^ 19 := by
  decide +kernel

variable {c x z : Float}

theorem value_le_add (hz : z.isFinite = true) {length : Float} (hlength : length.isFinite = true)
    (hnonneg : 0 ≤ value length) (hsum : (z + length).isFinite = true) :
    value z ≤ value (z + length) :=
  ((rounds_add hz hlength).nearest hsum).le_of_grid_le (grid_value hz) (by linarith)

theorem isFinite_add (hz : z.isFinite = true) {length : Float} (hlength : length.isFinite = true)
    (hsmall : |value length| ≤ 2 ^ 10) : (z + length).isFinite = true := by
  have hroom : 2 * |value length| < (2 : ℚ) ^ 971 := by
    calc
      2 * |value length| ≤ 2 ^ 11 := by linarith
      _ < 2 ^ 971 := pow_lt_pow_right₀ (by norm_num) (by norm_num)
  refine ((rounds_add hz hlength).value (grid_value hz) (abs_value_add_lt hz hroom) ?_).1
  rw [add_sub_cancel_left]

theorem le_of_not_lt_sub_tolerance (hc : c.isFinite = true) (hz : z.isFinite = true)
    (h : ¬ z < c - tolerance) : value c - 1 / 2 ^ 18 ≤ value z := by
  obtain ⟨hfinite, hsmall⟩ := tolerance_lt
  have hnonneg : 0 ≤ value tolerance := by decide +kernel
  have hdistance : |value c - value tolerance - value c| = value tolerance := by
    rw [sub_sub_cancel_left, abs_neg, abs_of_nonneg hnonneg]
  have hone : value tolerance ≤ 1 / 2 := hsmall.le.trans (by norm_num)
  have hroom := abs_value_add_one_lt hc
  obtain ⟨hlowered, hnearest⟩ :=
    (rounds_sub hc hfinite).value (grid_value hc) hroom (by rw [hdistance]; linarith)
  have hnear := hnearest.abs_sub_le (grid_value hc)
  rw [hdistance, abs_le] at hnear
  rw [lt_iff_value_lt hz hlowered, not_lt] at h
  norm_num at hsmall ⊢
  linarith

/-- Writing a height and reading it back lowers it by no more than a thousandth, whether or
not it was a tolerance too low before. -/
theorem le_of_written (hc : c.isFinite = true) (hpos : 0 ≤ value c) (hx : x.isFinite = true)
    (hle : value c - 1 / 2 ^ 18 ≤ value x) {q r : ℚ} (hclose : |q - value x| ≤ 1 / 2000)
    (hnearest : Nearest q r) : value c - 1 / 1000 ≤ r := by
  have hbelow := (abs_le.mp hclose).1
  rcases le_or_gt (value c) (2 ^ 40) with hsmall | hlarge
  · -- A multiple of `1 / 2 ^ 12` lies between the bound and the decimal.
    obtain ⟨n, hn⟩ : ∃ n : ℤ, ⌊(value c - 1 / 2 ^ 18 - 1 / 2000) * 2 ^ 12⌋ = n := ⟨_, rfl⟩
    have hlower := Int.lt_floor_add_one ((value c - 1 / 2 ^ 18 - 1 / 2000) * 2 ^ 12)
    have hupper := Int.floor_le ((value c - 1 / 2 ^ 18 - 1 / 2000) * 2 ^ 12)
    rw [hn] at hlower hupper
    have hgrid : Grid (n / 2 ^ 12) := by
      refine ⟨n, -12, ?_, by norm_num, by norm_num [div_eq_mul_inv]⟩
      have hbounds : |(n : ℚ)| ≤ 2 ^ 53 := by
        rw [abs_le]
        norm_num at hsmall hlower hupper ⊢
        constructor <;> linarith
      exact_mod_cast hbounds
    have hr := hnearest.le_of_grid_le hgrid (by norm_num at hlower hupper hle hbelow ⊢; linarith)
    norm_num at hlower hr ⊢
    linarith
  · -- Floats this large are further apart than the tolerance, so nothing is too low.
    have hreached : value c ≤ value x := by
      have hxlarge : (2 : ℚ) ^ (39 : ℤ) ≤ |value x| := by
        refine le_trans ?_ (le_abs_self _)
        norm_num at hlarge hle ⊢
        linarith
      have hclarge : (2 : ℚ) ^ (39 : ℤ) ≤ |value c| := by
        refine le_trans ?_ (le_abs_self _)
        norm_num at hlarge ⊢
        linarith
      obtain ⟨i, hi⟩ := (grid_value hc).exists_mul hclarge
      obtain ⟨j, hj⟩ := (grid_value hx).exists_mul hxlarge
      rw [hi, hj] at hle ⊢
      have hstep : (i : ℚ) - 1 < j := by
        norm_num at hle ⊢
        linarith
      have hint : i ≤ j := by
        have hless : i - 1 < j := by exact_mod_cast hstep
        omega
      have hcast : (i : ℚ) ≤ j := by exact_mod_cast hint
      exact mul_le_mul_of_nonneg_right hcast (by positivity)
    have hr := hnearest.abs_sub_le (grid_value hx)
    have hrbelow := (abs_le.mp hr).1
    linarith

end ToolBatching.Number
