import ToolBatching.Proofs.Number.WholeParts
import ToolBatching.Settings

namespace ToolBatching

open Number

theorem require_eq_ok_iff {condition : Bool} {fault : SettingsFault} :
    require condition fault = .ok () ↔ condition = true := by
  unfold require
  split <;> simp_all

theorem check_eq_ok_iff {first second : Except SettingsFault Unit} :
    (do first; second) = .ok () ↔ first = .ok () ∧ second = .ok () := by
  cases first with
  | error fault => exact iff_of_false (fun h => by cases h) (fun h => by cases h.1)
  | ok _ => exact (and_iff_right rfl).symm

theorem finite_of_length {length : Float} (h : (0 ≤ length && length.isFinite) = true) :
    length.isFinite = true ∧ 0 ≤ value length := by
  rw [Bool.and_eq_true, decide_eq_true_eq] at h
  exact ⟨h.2, (nonneg_iff h.2).mp h.1⟩

section Parts

variable {s : Settings} (h : s.validate = .ok ())

include h

theorem Settings.validate_nozzle : s.nozzle.validate = .ok () :=
  (check_eq_ok_iff.mp (check_eq_ok_iff.mp h).2).1

theorem Settings.validate_clearance : s.clearance.validate = .ok () :=
  (check_eq_ok_iff.mp (check_eq_ok_iff.mp (check_eq_ok_iff.mp h).2).2).1

theorem Settings.validate_hop : s.hop.validate = .ok () :=
  (check_eq_ok_iff.mp (check_eq_ok_iff.mp (check_eq_ok_iff.mp (check_eq_ok_iff.mp h).2).2).2).1

theorem Settings.validate_primeTower (henabled : s.primeTower.enabled = true) :
    s.primeTower.validate = .ok () := by
  have hrest := (check_eq_ok_iff.mp (check_eq_ok_iff.mp (check_eq_ok_iff.mp
    (check_eq_ok_iff.mp h).2).2).2).2
  rw [if_pos henabled] at hrest
  exact (check_eq_ok_iff.mp hrest).1

theorem HopSettings.height_of_validate :
    s.hop.height.isFinite = true ∧ 0 ≤ value s.hop.height :=
  finite_of_length (require_eq_ok_iff.mp (check_eq_ok_iff.mp (Settings.validate_hop h)).1)

end Parts

theorem Nozzle.tipDiameter_pos {n : Nozzle} (h : n.validate = .ok ()) : 0 < n.tipDiameter :=
  of_decide_eq_true (require_eq_ok_iff.mp (check_eq_ok_iff.mp h).1)

namespace ClearanceSettings

variable {s : ClearanceSettings}

theorem safetyMargin_of_validate (h : s.validate = .ok ()) :
    s.safetyMargin.isFinite = true ∧ 0 ≤ value s.safetyMargin :=
  finite_of_length (require_eq_ok_iff.mp (check_eq_ok_iff.mp h).1)

theorem cellSize_of_validate (h : s.validate = .ok ()) :
    s.cellSize.isFinite = true ∧ 0 < value s.cellSize := by
  have hcell := require_eq_ok_iff.mp (check_eq_ok_iff.mp h).2
  rw [Bool.and_eq_true, decide_eq_true_eq] at hcell
  have hmin : minCellSize.isFinite = true ∧ 0 < value minCellSize := by decide +kernel
  exact ⟨hcell.2, hmin.2.trans_le ((le_iff_value_le hmin.1 hcell.2).mp hcell.1)⟩

end ClearanceSettings

theorem PrimeTower.lengths_of_validate {t : PrimeTower} (h : t.validate = .ok ()) :
    (t.size.isFinite = true ∧ 0 < value t.size) ∧ t.extrusionWidth.isFinite = true := by
  have hlength {name : String} {length : Float} (h : requireLength name length = .ok ()) :
      length.isFinite = true ∧ 0 < value length := by
    have hcondition := require_eq_ok_iff.mp h
    rw [Bool.and_eq_true, decide_eq_true_eq] at hcondition
    exact ⟨hcondition.2, (pos_iff hcondition.2).mp hcondition.1⟩
  obtain ⟨hsize, h⟩ := check_eq_ok_iff.mp h
  obtain ⟨-, h⟩ := check_eq_ok_iff.mp h
  obtain ⟨-, h⟩ := check_eq_ok_iff.mp h
  obtain ⟨hwidth, -⟩ := check_eq_ok_iff.mp h
  exact ⟨hlength hsize, (hlength hwidth).1⟩

end ToolBatching
