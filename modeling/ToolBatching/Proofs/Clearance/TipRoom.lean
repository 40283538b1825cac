import ToolBatching.Proofs.Clearance.CellDistance
import ToolBatching.Proofs.Number.Raising

namespace ToolBatching

open Number

theorem Cone.tipRadius_le_radiusAt {c : Cone} (hslope : 0 ≤ c.slope) {height : Float}
    (hfinite : (c.radiusAt height).isFinite = true) :
    value c.tipRadius ≤ value (c.radiusAt height) := by
  unfold radiusAt at hfinite ⊢
  split
  · exact le_rfl
  · rename_i hhigh
    rw [if_neg hhigh] at hfinite
    obtain ⟨htip, hrise⟩ := isFinite_of_isFinite_add hfinite
    obtain ⟨hheight, hfactor⟩ := isFinite_of_isFinite_mul hrise
    have hpos : 0 ≤ value height := by
      rw [le_iff_value_le hheight isFinite_zero.1, isFinite_zero.2, not_le] at hhigh
      exact hhigh.le
    have hproduct : 0 ≤ value height * value c.slope :=
      mul_nonneg hpos ((nonneg_iff hfactor).mp hslope)
    have hrises : 0 ≤ value (height * c.slope) :=
      ((rounds_mul hheight hfactor).nearest hrise).le_of_grid_le grid_zero hproduct
    exact value_le_add htip hrise hrises hfinite

namespace Settings

variable {s : Settings}

/-- Settings that leave room around the tip of the nozzle: the margin is two cells wide, and the
cone does not get narrower above the tip. -/
structure Roomy (s : Settings) : Prop where
  tip : AtMost 20 s.nozzle.tipRadius
  slope : 0 ≤ s.nozzle.cone.slope
  margin : 2 * value s.clearance.cellSize ≤ value s.clearance.safetyMargin

theorem Roomy.tip_nonneg (h : s.Roomy) (hvalid : s.validate = .ok ()) :
    0 ≤ value s.nozzle.tipRadius := by
  have hpos := Nozzle.tipDiameter_pos (validate_nozzle hvalid)
  have hhalf := div_le_div_of_pos hpos (le_refl_float (isNaN_of_lt hpos).2)
    (show (2.0 : Float).isFinite = true by decide +kernel) (by decide +kernel)
  exact (nonneg_iff h.tip.isFinite).mp hhalf.1

theorem Roomy.le_safetyRadius (h : s.Roomy) (hvalid : s.validate = .ok ()) (p : Program)
    {dz : Float}
    (hfinite : ((Clearance.ofProgram p s.nozzle s.clearance).safetyRadius dz).isFinite = true) :
    value s.nozzle.tipRadius + 9 / 2000 + 3 / 2 * value s.clearance.cellSize ≤
      value ((Clearance.ofProgram p s.nozzle s.clearance).safetyRadius dz) := by
  have htip := h.tip_nonneg hvalid
  have hcell := (ClearanceSettings.coarse_of_validate (validate_clearance hvalid)).le
  change (s.nozzle.cone.radiusAt dz.abs + s.clearance.safetyMargin).isFinite = true at hfinite
  change _ ≤ value (s.nozzle.cone.radiusAt dz.abs + s.clearance.safetyMargin)
  obtain ⟨hcone, hmargin⟩ := isFinite_of_isFinite_add hfinite
  have hradius : value s.nozzle.tipRadius ≤ value (s.nozzle.cone.radiusAt dz.abs) :=
    Cone.tipRadius_le_radiusAt (c := s.nozzle.cone) h.slope hcone
  have hnearest := (rounds_add hcone hmargin).nearest hfinite
  generalize value (s.nozzle.cone.radiusAt dz.abs) = radius at hradius hnearest
  have hsum : value s.nozzle.tipRadius + 2 * value s.clearance.cellSize ≤
      radius + value s.clearance.safetyMargin := add_le_add hradius h.margin
  have hpos : 0 ≤ radius + value s.clearance.safetyMargin := by linarith
  have hlarge : (2 : ℚ) ^ (-1022 : ℤ) ≤ radius + value s.clearance.safetyMargin := by
    calc
      (2 : ℚ) ^ (-1022 : ℤ) ≤ 2 ^ (-10 : ℤ) := zpow_le_zpow_right₀ (by norm_num) (by norm_num)
      _ ≤ radius + value s.clearance.safetyMargin := by
        norm_num
        linarith
  have herror := (abs_le.mp (hnearest.abs_sub_le_of_abs_le (abs_of_nonneg hpos).le hlarge)).1
  have hbound := (abs_le.mp h.tip.le).2
  norm_num at herror hbound
  linarith

end Settings

end ToolBatching
