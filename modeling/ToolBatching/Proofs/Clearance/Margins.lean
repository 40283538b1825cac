import ToolBatching.Proofs.Clearance.Verdicts
import ToolBatching.Proofs.Number.Hypotenuse

namespace ToolBatching

open Number

/-- Settings that differ at most in the tip and the margin, both of them at least as large. -/
structure Settings.WidensTo (s t : Settings) : Prop where
  same : t = { s with
    nozzle.tipDiameter := t.nozzle.tipDiameter
    clearance.safetyMargin := t.clearance.safetyMargin }
  tip : s.nozzle.tipDiameter ≤ t.nozzle.tipDiameter
  margin : s.clearance.safetyMargin ≤ t.clearance.safetyMargin

namespace Clearance

variable {c d : Clearance} {f g : Footprint} {r r' : Float}

/-- Checks with the same cells, one of them with a thicker tip and a larger margin. -/
structure WidensTo (c d : Clearance) : Prop where
  cellSize : d.settings.cellSize = c.settings.cellSize
  slope : d.cone.slope = c.cone.slope
  tip : 0 ≤ c.cone.tipRadius ∧ c.cone.tipRadius ≤ d.cone.tipRadius
  margin : 0 ≤ value c.settings.safetyMargin ∧ c.settings.safetyMargin ≤ d.settings.safetyMargin
  finite : c.settings.safetyMargin.isFinite = true ∧ d.settings.safetyMargin.isFinite = true

theorem WidensTo.radiusAt_le (h : c.WidensTo d) (height : Float)
    (hfinite : (d.cone.radiusAt height).isFinite = true) :
    (c.cone.radiusAt height).isFinite = true ∧
      c.cone.radiusAt height ≤ d.cone.radiusAt height := by
  unfold Cone.radiusAt at hfinite ⊢
  split at hfinite
  · rename_i hlow
    rw [if_pos hlow, if_pos hlow]
    exact ⟨isFinite_of_between isFinite_zero.1 hfinite h.tip.1 h.tip.2, h.tip.2⟩
  · rename_i hhigh
    rw [if_neg hhigh, if_neg hhigh]
    rw [h.slope] at hfinite ⊢
    obtain ⟨htip', hrise⟩ := isFinite_of_isFinite_add hfinite
    have htip := isFinite_of_between isFinite_zero.1 htip' h.tip.1 h.tip.2
    have hle := add_le_add_right_float htip htip' h.tip.2 hrise
    have hnonneg := (nonneg_iff htip).mp h.tip.1
    have hlow := (rounds_add htip hrise).ge hrise (by linarith)
    exact ⟨isFinite_of_between hrise hfinite hlow hle, hle⟩

theorem WidensTo.safetyRadius_le (h : c.WidensTo d) (dz : Float)
    (hfinite : (d.safetyRadius dz).isFinite = true) :
    (c.safetyRadius dz).isFinite = true ∧ c.safetyRadius dz ≤ d.safetyRadius dz := by
  unfold safetyRadius at hfinite ⊢
  obtain ⟨hcone', hmargin'⟩ := isFinite_of_isFinite_add hfinite
  obtain ⟨hcone, hle⟩ := h.radiusAt_le dz.abs hcone'
  have hlow := (rounds_add hcone h.finite.1).ge hcone (by linarith [h.margin.1])
  have hmiddle := add_le_add_left_float h.finite.1 hmargin' h.margin.2 (isNaN_of_isFinite hcone)
  have hhigh := le_trans_float hmiddle (add_le_add_right_float hcone hcone' hle hmargin')
  exact ⟨isFinite_of_between hcone hfinite hlow hhigh, hhigh⟩

theorem boxesApart_of_le (hr : r.isFinite = true) (hr' : r'.isFinite = true) (hle : r ≤ r')
    (h : boxesApart f g r' = true) : boxesApart f g r = true := by
  unfold boxesApart at h ⊢
  split at h
  · rename_i p q hp hq
    rw [Bool.not_eq_true', ← Bool.not_eq_true, Box.intersects] at h ⊢
    simp only [Bool.and_eq_true, decide_eq_true_eq] at h ⊢
    rintro ⟨⟨⟨hminX, hmaxX⟩, hminY⟩, hmaxY⟩
    exact h ⟨⟨⟨sub_le_of_le hr hr' hle hminX, le_add_of_le hr hr' hle hmaxX⟩,
      sub_le_of_le hr hr' hle hminY⟩, le_add_of_le hr hr' hle hmaxY⟩
  · exact absurd h (by decide)

end Clearance

namespace Proximity

variable {cellSize r r' : Float} {a b : Cell}

theorem near_of_le (hcell : cellSize.isFinite = true ∧ 0 < value cellSize) (ha : a.Fits)
    (hb : b.Fits) (hr : r.isFinite = true) (hr' : r'.isFinite = true) (hle : r ≤ r')
    (h : (ofRadius cellSize r).near a b = true) : (ofRadius cellSize r').near a b = true := by
  have hnonneg := nonneg_of_near hcell ha hb h
  have hpos := (pos_iff hcell.1).mpr hcell.2
  have hlow := (reach_ofRadius hpos hnonneg hr).1
  have hreach : (ofRadius cellSize r).reach ≤ (ofRadius cellSize r').reach :=
    clamped_ceiling_le (by decide) (nonneg_div hr ((nonneg_iff hr).mp hnonneg) hpos)
      (div_le_div_right_float hr hr' hle hcell.1 hcell.2)
  simp only [near, Bool.and_eq_true, decide_eq_true_eq] at h ⊢
  obtain ⟨⟨hcolumns, hrows⟩, hlength⟩ := h
  exact ⟨⟨by omega, by omega⟩, le_trans_float hlength hle⟩

end Proximity

namespace Clearance

variable {c d : Clearance} {f g : Footprint}

theorem WidensTo.collides_compare (h : c.WidensTo d)
    (hcell : c.settings.cellSize.isFinite = true ∧ 0 < value c.settings.cellSize)
    (hf : ∀ a ∈ f.cells, a.Fits) (hg : ∀ b ∈ g.cells, b.Fits)
    (hcollides : (c.compare f g).collides = true) : (d.compare f g).collides = true := by
  have hcell' : d.settings.cellSize.isFinite = true ∧ 0 < value d.settings.cellSize := by
    rwa [h.cellSize]
  rw [collides_compare_iff hcell' rfl hf hg]
  cases hfinite' : (d.safetyRadius (f.z - g.z)).isFinite with
  | false => exact Or.inl rfl
  | true =>
      obtain ⟨hfinite, hle⟩ := h.safetyRadius_le _ hfinite'
      rcases (collides_compare_iff hcell rfl hf hg).mp hcollides with hinfinite | ⟨hboxes, hcells⟩
      · rw [hfinite] at hinfinite
        cases hinfinite
      · obtain ⟨a, ha, b, hb, hnear⟩ := hcells
        rw [← h.cellSize] at hnear
        refine Or.inr ⟨?_, a, ha, b, hb, ?_⟩
        · by_contra hapart
          rw [Bool.not_eq_false] at hapart
          rw [boxesApart_of_le hfinite hfinite' hle hapart] at hboxes
          cases hboxes
        · exact Proximity.near_of_le hcell' (hf a ha) (hg b hb) hfinite hfinite' hle hnear

theorem widensTo_ofProgram (p : Program) {s t : Settings} (hs : s.validate = .ok ())
    (ht : t.validate = .ok ()) (h : s.WidensTo t) :
    (ofProgram p s.nozzle s.clearance).WidensTo (ofProgram p t.nozzle t.clearance) where
  cellSize := (congrArg (fun u : Settings => u.clearance.cellSize) h.same).trans rfl
  slope := (congrArg (fun u : Settings => tangent u.nozzle.halfAngle) h.same).trans rfl
  tip := div_le_div_of_pos (Nozzle.tipDiameter_pos (Settings.validate_nozzle hs)) h.tip
    (by decide +kernel) (by decide +kernel)
  margin := ⟨(ClearanceSettings.safetyMargin_of_validate (Settings.validate_clearance hs)).2,
    h.margin⟩
  finite := ⟨(ClearanceSettings.safetyMargin_of_validate (Settings.validate_clearance hs)).1,
    (ClearanceSettings.safetyMargin_of_validate (Settings.validate_clearance ht)).1⟩

theorem collides_of_widensTo (p : Program) {s t : Settings} (hs : s.validate = .ok ())
    (ht : t.validate = .ok ()) (h : s.WidensTo t) {printing existing : SegmentId}
    (hcollides :
      ((ofProgram p s.nozzle s.clearance).check printing existing).collides = true) :
    ((ofProgram p t.nozzle t.clearance).check printing existing).collides = true := by
  have hwidens := widensTo_ofProgram p hs ht h
  have hsize : t.clearance.cellSize = s.clearance.cellSize := hwidens.cellSize
  unfold check at hcollides ⊢
  rw [footprint?_ofProgram, footprint?_ofProgram] at hcollides ⊢
  rw [hsize]
  cases hprinting : p.segment? printing with
  | none =>
      rw [hprinting] at hcollides
      cases hcollides
  | some u =>
      rw [hprinting] at hcollides
      cases hexisting : p.segment? existing with
      | none =>
          rw [hexisting] at hcollides
          cases hcollides
      | some v =>
          rw [hexisting] at hcollides
          exact hwidens.collides_compare
            (ClearanceSettings.cellSize_of_validate (Settings.validate_clearance hs))
            (Footprint.fits_ofSegment _ u) (Footprint.fits_ofSegment _ v) hcollides

theorem canBatch_of_canBatch (htool : ∀ id, c.tool id = d.tool id)
    (hchecks : ∀ printing existing, (c.check printing existing).collides = true →
      (d.check printing existing).collides = true) {a b : SegmentId} {pending : List SegmentId}
    (h : d.canBatch a b pending = true) : c.canBatch a b pending = true := by
  unfold canBatch at h ⊢
  rw [List.all_eq_true] at h ⊢
  intro other hother
  have hjoins := h other hother
  rw [htool, htool]
  rw [Bool.or_eq_true, Bool.not_eq_true'] at hjoins ⊢
  refine hjoins.imp_right fun hclear => ?_
  unfold tooClose at hclear ⊢
  by_contra hcollides
  rw [Bool.not_eq_false] at hcollides
  rw [hchecks b other hcollides] at hclear
  cases hclear

/-- Segments that collide keep colliding with a thicker tip and a larger margin, and what may
join a batch then might join it before. -/
theorem safe_of_widensTo (p : Program) {s t : Settings} (hs : s.validate = .ok ())
    (ht : t.validate = .ok ()) (h : s.WidensTo t) :
    let narrow := ofProgram p s.nozzle s.clearance
    let wide := ofProgram p t.nozzle t.clearance
    (∀ printing existing, (narrow.check printing existing).collides = true →
      (wide.check printing existing).collides = true) ∧
    ∀ a b pending, wide.canBatch a b pending = true → narrow.canBatch a b pending = true := by
  intro narrow wide
  have hchecks (printing existing : SegmentId) :
      (narrow.check printing existing).collides = true →
        (wide.check printing existing).collides = true :=
    collides_of_widensTo p hs ht h
  refine ⟨hchecks, fun a b pending => canBatch_of_canBatch (fun id => ?_) hchecks⟩
  exact (tool_ofProgram p _ _ id).trans (tool_ofProgram p _ _ id).symm

/-- Prints of one layer next to each other collide with both checks, and the first tool may go on
far from the second one with both. -/
theorem safe_of_widensTo_one_layer :
    let p := Program.ofText ("; layer num/total_layer_count: 1/1\nT0\nG1 X0 Y0 Z0.2 E1\n" ++
      "T1\nG1 X0.5 E2\nT0\nG1 X100 E3\n")
    let s : Settings := {}
    let t : Settings := { s with nozzle.tipDiameter := 0.6, clearance.safetyMargin := 1.5 }
    let narrow := ofProgram p s.nozzle s.clearance
    let wide := ofProgram p t.nozzle t.clearance
    (s.validate = .ok () ∧ t.validate = .ok () ∧ s.WidensTo t) ∧
      ((narrow.check ⟨1, 2⟩ ⟨1, 1⟩).collides = true ∧
        (wide.check ⟨1, 2⟩ ⟨1, 1⟩).collides = true) ∧
      wide.canBatch ⟨1, 1⟩ ⟨1, 3⟩ [⟨1, 1⟩, ⟨1, 2⟩, ⟨1, 3⟩] = true ∧
        narrow.canBatch ⟨1, 1⟩ ⟨1, 3⟩ [⟨1, 1⟩, ⟨1, 2⟩, ⟨1, 3⟩] = true := by
  intro p s t narrow wide
  have hs : s.validate = .ok () := by decide +kernel
  have ht : t.validate = .ok () := by decide +kernel
  have hwidens : s.WidensTo t := ⟨rfl, by decide +kernel, by decide +kernel⟩
  have hcollides : (narrow.check ⟨1, 2⟩ ⟨1, 1⟩).collides = true := by decide +kernel
  have hbatch : wide.canBatch ⟨1, 1⟩ ⟨1, 3⟩ [⟨1, 1⟩, ⟨1, 2⟩, ⟨1, 3⟩] = true := by decide +kernel
  obtain ⟨hchecks, hbatches⟩ := safe_of_widensTo p hs ht hwidens
  exact ⟨⟨hs, ht, hwidens⟩, ⟨hcollides, hchecks _ _ hcollides⟩, hbatch, hbatches _ _ _ hbatch⟩

end Clearance

end ToolBatching
