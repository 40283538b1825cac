import ToolBatching.Proofs.Clearance.Occupancy
import ToolBatching.Proofs.Clearance.Verdicts

/-!
What the boxes of two segments say about their cells. A check that ends at the boxes has looked at
the ends of print moves, and not at the cells they lie in, which may be near where their points are
farther apart than the radius. Where the boxes leave a gap of one and a half cells beside the radius
no cells are near, and the check says what a search of the cells would.
-/

namespace ToolBatching

open Number

namespace Clearance

variable {p : Program} {settings : ClearanceSettings} {printing existing : SegmentId}
  {s t : Segment} {f g : Footprint} {ends others : List Point} {radius : Float}

theorem Apart.mono {gap less : ℚ} (h : Apart gap ends others) (hle : less ≤ gap) :
    Apart less ends others :=
  h.imp (fun hfar a ha b hb hafinite hbfinite => hle.trans_lt (hfar a ha b hb hafinite hbfinite))
    fun hfar a ha b hb hafinite hbfinite => hle.trans_lt (hfar a ha b hb hafinite hbfinite)

theorem Apart.not_near {size : Float} (hsize : Cell.Coarse size)
    (h : Apart (value radius + 3 / 2 * value size) ends others) (hradius : radius.isFinite = true)
    (hf : f.Outlines size ends) (hg : g.Outlines size others) (hends : ∀ a ∈ ends, a.Inside)
    (hothers : ∀ b ∈ others, b.Inside) :
    ∀ x ∈ f.cells, ∀ y ∈ g.cells, (Proximity.ofRadius size radius).near x y = false := by
  intro x hx y hy
  obtain ⟨a, ha, rfl⟩ := (hf.cells x).mp hx
  obtain ⟨b, hb, rfl⟩ := (hg.cells y).mp hy
  have hainside := hends a ha
  have hbinside := hothers b hb
  by_contra hnear
  rw [Bool.not_eq_false] at hnear
  have hnonneg := (nonneg_iff hradius).mp (Proximity.nonneg_of_near ⟨hsize.isFinite, hsize.pos⟩
    (Cell.fits_around _ _ _) (Cell.fits_around _ _ _) hnear)
  have hfar := h.lt (by linarith [hsize.pos]) ha hb hainside.finite hbinside.finite
  exact absurd (hsize.sq_le_of_near hainside hbinside hradius hnear) hfar.not_ge

theorem check_eq_clear {nozzle : Nozzle} (hs : p.segment? printing = some s)
    (ht : p.segment? existing = some t)
    (hradius : (ofProgram p nozzle settings).safetyRadius (s.z - t.z) = radius)
    (hfinite : radius.isFinite = true)
    (hboxes : boxesApart (Footprint.ofSegment settings.cellSize s)
      (Footprint.ofSegment settings.cellSize t) radius = true) :
    (ofProgram p nozzle settings).check printing existing = .clear radius := by
  rw [check_ofProgram hs ht]
  unfold compare
  rw [Footprint.z_ofSegment, Footprint.z_ofSegment, hradius]
  simp only [hfinite, hboxes, Bool.not_true, Bool.false_eq_true, if_false, if_true, ite_self]

/-- Where boxes that are apart are also apart with one and a half cells more, the check collides
exactly where the search of the cells finds two that are near, and where the boxes answer, the
check is clear and no cells are near. -/
theorem check_agrees_with_search (text : String) {settings : Settings}
    (hvalid : settings.validate = .ok ())
    (hwords : ∀ d ∈ Program.readCommands text, ∀ v ∈ d.along .e, v.isFinite = true)
    (hs : (Program.ofText text).segment? printing = some s)
    (ht : (Program.ofText text).segment? existing = some t)
    (hends : ∀ a ∈ s.printEnds, a.Inside) (hothers : ∀ b ∈ t.printEnds, b.Inside) {grown : Float}
    (hgrown : grown.isFinite = true) :
    let c := ofProgram (Program.ofText text) settings.nozzle settings.clearance
    let size := settings.clearance.cellSize
    let radius := c.safetyRadius (s.z - t.z)
    let f := Footprint.ofSegment size s
    let g := Footprint.ofSegment size t
    let narrow := Proximity.ofRadius size radius
    radius.isFinite = true → value radius + 3 / 2 * value size ≤ value grown →
      (boxesApart f g radius = true → boxesApart f g grown = true) →
        (c.check printing existing).collides = (narrow.search f.cells g.cells).isSome ∧
        (boxesApart f g radius = true → c.check printing existing = .clear radius ∧
          ∀ x ∈ f.cells, ∀ y ∈ g.cells, narrow.near x y = false) := by
  intro c size radius f g narrow hfinite hmargin hapart
  have hclearance := Settings.validate_clearance hvalid
  have hcell := ClearanceSettings.cellSize_of_validate hclearance
  have hread := Program.read_ofText text
  have hclear : boxesApart f g radius = true →
      ∀ x ∈ f.cells, ∀ y ∈ g.cells, narrow.near x y = false := by
    intro hboxes
    have hgap := (apart_printEnds hgrown (hapart hboxes)).mono hmargin
    exact hgap.not_near (ClearanceSettings.coarse_of_validate hclearance) hfinite
      (hread.outlines_footprint hwords (Program.mem_segments_of_segment? hs) size)
      (hread.outlines_footprint hwords (Program.mem_segments_of_segment? ht) size) hends hothers
  refine ⟨?_, fun hboxes => ⟨check_eq_clear hs ht rfl hfinite hboxes, hclear hboxes⟩⟩
  have hsearch : (narrow.search f.cells g.cells).isSome = true ↔ _ :=
    Proximity.isSome_search_ofRadius_iff hcell hfinite (Footprint.fits_ofSegment _ s)
      (Footprint.fits_ofSegment _ t)
  have hcheck : (c.check printing existing).collides = true ↔ _ := collides_check_iff hcell hs ht rfl
  rw [Bool.eq_iff_iff, hcheck, hsearch]
  constructor
  · rintro (hinfinite | ⟨-, hcells⟩)
    · rw [hfinite] at hinfinite
      cases hinfinite
    · exact hcells
  · rintro ⟨x, hx, y, hy, hnear⟩
    refine Or.inr ⟨?_, x, hx, y, hy, hnear⟩
    by_contra hboxes
    rw [Bool.not_eq_false] at hboxes
    rw [hclear hboxes x hx y hy] at hnear
    cases hnear

/-- Prints on both sides of the origin, farther apart along X than the radius of 1.2 mm and one and
a half cells of 0.5 mm. -/
theorem check_agrees_with_search_both_sides :
    let text := "; layer num/total_layer_count: 1/2\nT0\nG1 X-0.9 Y0 Z0.2 E1\nG1 X-7 E2\n" ++
      "; layer num/total_layer_count: 2/2\nT1\nG1 X1.2 Y0 Z0.2 E3\nG1 X9 E4\n"
    let p := Program.ofText text
    let settings : Settings := {}
    let c := ofProgram p settings.nozzle settings.clearance
    let size := settings.clearance.cellSize
    (settings.validate = .ok () ∧
      ∀ d ∈ Program.readCommands text, ∀ v ∈ d.along .e, v.isFinite = true) ∧
    ∃ s ∈ p.segment? ⟨2, 1⟩, ∃ t ∈ p.segment? ⟨1, 1⟩,
      let radius := c.safetyRadius (s.z - t.z)
      let f := Footprint.ofSegment size s
      let g := Footprint.ofSegment size t
      let narrow := Proximity.ofRadius size radius
      (((∀ a ∈ s.printEnds, a.Inside) ∧ ∀ b ∈ t.printEnds, b.Inside) ∧
        (2.0 : Float).isFinite = true ∧ radius.isFinite = true ∧
        value radius + 3 / 2 * value size ≤ value 2.0 ∧ boxesApart f g radius = true ∧
        boxesApart f g 2.0 = true) ∧
      (narrow.search f.cells g.cells).isSome = false ∧
        c.check ⟨2, 1⟩ ⟨1, 1⟩ = .clear radius ∧
        ∀ x ∈ f.cells, ∀ y ∈ g.cells, narrow.near x y = false := by
  intro text p settings c size
  have hread : settings.validate = .ok () ∧
      ∀ d ∈ Program.readCommands text, ∀ v ∈ d.along .e, v.isFinite = true := by
    decide +kernel
  have hboxes : ∃ s ∈ p.segment? ⟨2, 1⟩, ∃ t ∈ p.segment? ⟨1, 1⟩,
      let radius := c.safetyRadius (s.z - t.z)
      let f := Footprint.ofSegment size s
      let g := Footprint.ofSegment size t
      ((∀ a ∈ s.printEnds, a.Inside) ∧ ∀ b ∈ t.printEnds, b.Inside) ∧
        (2.0 : Float).isFinite = true ∧ radius.isFinite = true ∧
        value radius + 3 / 2 * value size ≤ value 2.0 ∧ boxesApart f g radius = true ∧
        boxesApart f g 2.0 = true := by
    decide +kernel
  obtain ⟨s, hs, t, ht, hfits⟩ := hboxes
  have ⟨⟨hends, hothers⟩, hgrown, hfinite, hmargin, hapart, hwide⟩ := hfits
  obtain ⟨hagrees, hclear⟩ := check_agrees_with_search text hread.1 hread.2 hs ht hends hothers
    hgrown hfinite hmargin fun _ => hwide
  obtain ⟨hcheck, hnear⟩ := hclear hapart
  refine ⟨hread, s, hs, t, ht, hfits, ?_, hcheck, hnear⟩
  rw [← hagrees, hcheck]
  rfl

/-- The boxes measure 1.49 mm between points whose cells are 1 mm apart, and end the check
for a radius of 1.2 mm, which the search would answer by these cells. -/
theorem boxesApart_of_near_cells :
    let text := "; layer num/total_layer_count: 1/2\nT0\nG1 X0 Y0 Z0.2 E1\n" ++
      "; layer num/total_layer_count: 2/2\nT1\nG1 X1.49 Y0 Z0.2 E2\n"
    let p := Program.ofText text
    let settings : Settings := {}
    let c := ofProgram p settings.nozzle settings.clearance
    let size := settings.clearance.cellSize
    settings.validate = .ok () ∧
      (∀ d ∈ Program.readCommands text, ∀ a ∈ [Axis.x, .y, .z, .e], ∀ v ∈ d.along a,
        v.isFinite = true) ∧
      ∃ s ∈ p.segment? ⟨2, 1⟩, ∃ t ∈ p.segment? ⟨1, 1⟩,
        let radius := c.safetyRadius (s.z - t.z)
        let f := Footprint.ofSegment size s
        let g := Footprint.ofSegment size t
        (radius.isFinite = true ∧ f.isEmpty = false ∧ g.isEmpty = false) ∧
        boxesApart f g radius = true ∧ (c.check ⟨2, 1⟩ ⟨1, 1⟩).collides = false ∧
        ((Proximity.ofRadius size radius).search f.cells g.cells).isSome = true := by
  decide +kernel

end Clearance

end ToolBatching
