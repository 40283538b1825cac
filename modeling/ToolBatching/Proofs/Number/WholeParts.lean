import Mathlib.Data.Rat.Floor
import ToolBatching.Proofs.Number.Comparing

namespace ToolBatching.Number

open Float.Model Float.Model.UnpackedFloat

variable {x y : Float}

theorem floor_eq (x : Float) : floor x = ⌊value x⌋ :=
  (Rat.floor_intCast_div_natCast _ _).symm

theorem ceiling_eq (h : x.isFinite = true) : ceiling x = ⌈value x⌉ := by
  rw [ceiling, floor_eq, (value_neg h).2, Int.floor_neg, neg_neg]

theorem clamped_of_isFinite (lo hi : Int) (round : Float → Int) (h : x.isFinite = true) :
    clamped lo hi round x = max lo (min hi (round x)) := by
  rw [clamped, isNaN_of_isFinite h, h]
  rfl

theorem clamped_mem {lo hi : Int} (round : Float → Int) (x : Float) (hlo : lo ≤ 0) (hhi : 0 ≤ hi) :
    lo ≤ clamped lo hi round x ∧ clamped lo hi round x ≤ hi := by
  unfold clamped
  split
  · exact ⟨hlo, hhi⟩
  · split
    · omega
    · split <;> omega

theorem isFinite_zero : (0 : Float).isFinite = true ∧ value 0 = 0 := by
  decide +kernel

theorem pos_iff (h : x.isFinite = true) : 0 < x ↔ 0 < value x := by
  rw [lt_iff_value_lt isFinite_zero.1 h, isFinite_zero.2]

theorem nonneg_iff (h : x.isFinite = true) : 0 ≤ x ↔ 0 ≤ value x := by
  rw [le_iff_value_le isFinite_zero.1 h, isFinite_zero.2]

theorem pos_cases (h : 0 < y) :
    (y.isFinite = true ∧ 0 < value y) ∨ y.toModel.unpack = .infinity .positive := by
  rcases finite_or_infinite (isNaN_of_lt h).2 with hfinite | ⟨s, hs⟩
  · exact Or.inl ⟨hfinite, (pos_iff hfinite).mp h⟩
  · cases s with
    | positive => exact Or.inr hs
    | negative => exact absurd (infinity_lt isFinite_zero.1 hs) (not_lt_of_lt_float h)

theorem nonneg_div (hx : x.isFinite = true) (hnonneg : 0 ≤ value x) (hy : 0 < y) :
    0 ≤ x / y := by
  obtain ⟨hzero, hvalue⟩ := isFinite_zero
  rcases pos_cases hy with ⟨hfinite, hpos⟩ | hinfinite
  · refine (rounds_div hx hfinite hpos).ge hzero ?_
    rw [hvalue]
    exact div_nonneg hnonneg hpos.le
  · have hpack : x / y = .ofModel (Float.Model.pack
        (UnpackedFloat.div Format.binary64 x.toModel.unpack (.infinity .positive))) := by
      rw [← hinfinite]
      rfl
    obtain ⟨s, hs⟩ : ∃ s, UnpackedFloat.div Format.binary64 x.toModel.unpack
        (.infinity .positive) = .zero s := by
      rcases (canonical_unpack hx).1.cases with ⟨s, hu⟩ | ⟨s, m, e, hm, hu⟩ <;>
        exact ⟨_, by rw [hu]; rfl⟩
    rw [hpack, hs]
    cases s <;> decide +kernel

theorem isNegative_of_infinity (h : x.toModel.unpack = .infinity .positive) :
    isNegative x = false := by
  rw [unpack_eq] at h
  cases hsign : isNegative x with
  | false => rfl
  | true =>
      rw [signOf, if_pos hsign] at h
      split at h
      · split at h <;> cases h
      · split at h <;> cases h

theorem isNaN_of_infinity {s : Sign} (h : x.toModel.unpack = .infinity s) : x.isNaN = false := by
  change x.toModel.unpack.isNaN = false
  rw [h]
  rfl

theorem isFinite_of_infinity {s : Sign} (h : x.toModel.unpack = .infinity s) :
    x.isFinite = false := by
  change x.toModel.unpack.isFinite = false
  rw [h]
  rfl

theorem clamped_of_infinity (lo hi : Int) (round : Float → Int)
    (h : x.toModel.unpack = .infinity .positive) : clamped lo hi round x = hi := by
  rw [clamped, isNaN_of_infinity h, isFinite_of_infinity h, isNegative_of_infinity h]
  rfl

theorem nonneg_cases (h : 0 ≤ x) :
    (x.isFinite = true ∧ 0 ≤ value x) ∨ x.toModel.unpack = .infinity .positive := by
  rcases finite_or_infinite (le_iff_not_lt.mp h).2.1 with hfinite | ⟨s, hs⟩
  · exact Or.inl ⟨hfinite, (nonneg_iff hfinite).mp h⟩
  · cases s with
    | positive => exact Or.inr hs
    | negative => exact absurd (infinity_lt isFinite_zero.1 hs) (le_iff_not_lt.mp h).2.2

theorem clamped_ceiling_nonneg {lo hi : Int} (h : 0 ≤ x) (hhi : 0 ≤ hi) :
    0 ≤ clamped lo hi ceiling x := by
  rcases nonneg_cases h with ⟨hfinite, hvalue⟩ | hinfinite
  · rw [clamped_of_isFinite _ _ _ hfinite, ceiling_eq hfinite]
    exact le_max_of_le_right (le_min hhi (Int.ceil_nonneg hvalue))
  · rwa [clamped_of_infinity _ _ _ hinfinite]

end ToolBatching.Number
