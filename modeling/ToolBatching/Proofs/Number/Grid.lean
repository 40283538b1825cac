import Mathlib.Algebra.Order.Field.Power
import Mathlib.Algebra.Order.Field.Rat
import Mathlib.Data.Rat.Cast.Order
import Mathlib.Tactic.FieldSimp
import Mathlib.Tactic.Linarith
import Mathlib.Tactic.Positivity
import Mathlib.Tactic.Ring

/-!
The numbers that a 64-bit float can hold, without a bound from above: integers of 53 bits
times a power of two from `2 ^ -1074` on. A number is rounded to the nearest of them.
-/

namespace ToolBatching.Number

/-- Numbers with 53 bits in steps of a power of two that is not below the least one. -/
def Grid (t : ℚ) : Prop :=
  ∃ (m : ℤ) (e : ℤ), |m| ≤ 2 ^ 53 ∧ -1074 ≤ e ∧ t = m * 2 ^ e

/-- A number of the grid that no other one is closer than. -/
structure Nearest (q r : ℚ) : Prop where
  grid : Grid r
  closest : ∀ t, Grid t → |r - q| ≤ |t - q|

theorem Grid.neg {t : ℚ} (h : Grid t) : Grid (-t) := by
  obtain ⟨m, e, hm, he, rfl⟩ := h
  exact ⟨-m, e, by rwa [abs_neg], he, by push_cast; ring⟩

theorem grid_zero : Grid 0 :=
  ⟨0, 0, by norm_num, by norm_num, by norm_num⟩

theorem grid_two_zpow {k : ℤ} (h : -1074 ≤ k) : Grid (2 ^ k) :=
  ⟨1, k, by norm_num, h, by norm_num⟩

theorem grid_natCast {n : Nat} (h : n ≤ 2 ^ 53) : Grid n := by
  refine ⟨n, 0, ?_, by norm_num, by norm_num⟩
  rw [Nat.abs_cast]
  exact_mod_cast h

namespace Nearest

variable {q r : ℚ}

theorem neg (h : Nearest q r) : Nearest (-q) (-r) where
  grid := h.grid.neg
  closest := by
    intro t ht
    have hclosest := h.closest (-t) ht.neg
    rw [show -r - -q = -(r - q) by ring, abs_neg, show t - -q = -(-t - q) by ring, abs_neg]
    exact hclosest

theorem eq_of_grid (h : Nearest q r) (hq : Grid q) : r = q := by
  have hclosest := h.closest q hq
  rw [sub_self, abs_zero, abs_nonpos_iff, sub_eq_zero] at hclosest
  exact hclosest

theorem le_of_grid_le (h : Nearest q r) {t : ℚ} (ht : Grid t) (hle : t ≤ q) : t ≤ r := by
  by_contra hlt
  rw [not_le] at hlt
  have hclosest := h.closest t ht
  rw [abs_of_nonpos (by linarith), abs_of_nonpos (by linarith)] at hclosest
  linarith

theorem le_of_le_grid (h : Nearest q r) {t : ℚ} (ht : Grid t) (hle : q ≤ t) : r ≤ t := by
  have hopposite := h.neg.le_of_grid_le ht.neg (neg_le_neg hle)
  linarith

theorem abs_sub_le (h : Nearest q r) {t : ℚ} (ht : Grid t) : |r - t| ≤ 2 * |q - t| := by
  have hclosest := h.closest t ht
  calc
    |r - t| = |(r - q) + (q - t)| := by ring_nf
    _ ≤ |r - q| + |q - t| := abs_add_le _ _
    _ ≤ |t - q| + |q - t| := by linarith
    _ = 2 * |q - t| := by rw [abs_sub_comm t q]; ring

end Nearest

/-- A whole number of steps within half a step of a number is nearest to it when the
number fills all 53 bits or the step is the least one. -/
theorem nearest_of_step {q : ℚ} {n : Nat} {E : ℤ} (hmin : -1074 ≤ E) (hn : n ≤ 2 ^ 53)
    (hhalf : |(n : ℚ) - q / 2 ^ E| ≤ 1 / 2) (hfull : E = -1074 ∨ (2 : ℚ) ^ (52 + E) ≤ q) :
    Nearest q (n * 2 ^ E) := by
  have hstep : (0 : ℚ) < 2 ^ E := by positivity
  have hscaled (k : ℚ) : |k * 2 ^ E - q| = |k - q / 2 ^ E| * 2 ^ E := by
    rw [← abs_of_pos hstep, ← abs_mul, abs_of_pos hstep, sub_mul, div_mul_cancel₀ _ hstep.ne']
  -- Among whole steps the nearest integer wins.
  have hwhole (k : ℤ) : |(n : ℚ) * 2 ^ E - q| ≤ |(k : ℚ) * 2 ^ E - q| := by
    rw [hscaled, hscaled]
    refine mul_le_mul_of_nonneg_right ?_ hstep.le
    rcases eq_or_ne (k : ℤ) n with rfl | hne
    · exact le_of_eq (by push_cast; rfl)
    · have hapart : (1 : ℚ) ≤ |(k : ℚ) - n| := by
        have hint : (1 : ℤ) ≤ |k - n| := Int.one_le_abs (sub_ne_zero.mpr hne)
        exact_mod_cast hint
      have htriangle : |(k : ℚ) - n| ≤ |(k : ℚ) - q / 2 ^ E| + |(n : ℚ) - q / 2 ^ E| := by
        rw [show (k : ℚ) - n = (k - q / 2 ^ E) - (n - q / 2 ^ E) by ring]
        exact abs_sub _ _
      linarith
  refine ⟨⟨n, E, ?_, hmin, by push_cast; rfl⟩, ?_⟩
  · rw [Nat.abs_cast]
    exact_mod_cast hn
  · rintro t ⟨m, e, hm, he, rfl⟩
    rcases le_or_gt E e with hle | hlt
    · -- A coarser step is a whole number of steps.
      obtain ⟨k, rfl⟩ := Int.le.dest hle
      have hsplit : (m : ℚ) * 2 ^ (E + (k : ℤ)) = ((m * 2 ^ k : ℤ) : ℚ) * 2 ^ E := by
        rw [zpow_add₀ two_ne_zero, zpow_natCast]
        push_cast
        ring
      rw [hsplit]
      exact hwhole _
    · -- A finer step leaves the number below the first one that fills all bits.
      have hfilled : (2 : ℚ) ^ (52 + E) ≤ q := hfull.resolve_left (by omega)
      have hbelow : (m : ℚ) * 2 ^ e ≤ 2 ^ (52 + E) := by
        have hbits : (m : ℚ) ≤ 2 ^ 53 := by
          exact_mod_cast (le_abs_self m).trans hm
        calc
          (m : ℚ) * 2 ^ e ≤ 2 ^ 53 * 2 ^ e := mul_le_mul_of_nonneg_right hbits (by positivity)
          _ = 2 ^ (53 + e) := by
            rw [zpow_add₀ two_ne_zero]
            norm_num
          _ ≤ 2 ^ (52 + E) := zpow_le_zpow_right₀ (by norm_num) (by omega)
      have hfirst := hwhole (2 ^ 52)
      have heq : ((2 ^ 52 : ℤ) : ℚ) * 2 ^ E = 2 ^ (52 + E) := by
        rw [zpow_add₀ two_ne_zero]
        norm_num
      rw [heq] at hfirst
      refine hfirst.trans ?_
      rw [abs_sub_comm, abs_of_nonneg (by linarith), abs_sub_comm, abs_of_nonneg (by linarith)]
      linarith

end ToolBatching.Number
