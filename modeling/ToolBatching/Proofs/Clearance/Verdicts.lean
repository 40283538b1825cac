import ToolBatching.Proofs.Clearance.CellDistance
import ToolBatching.Proofs.Coordinates
import ToolBatching.Proofs.Reading.Program

namespace ToolBatching

open Number

theorem overlap_of_abs_le {lo hi lo' hi' a b r : Float} (ha : a.isFinite = true)
    (hb : b.isFinite = true) (hr : r.isFinite = true) (hspan : lo ≤ a ∧ a ≤ hi)
    (hspan' : lo' ≤ b ∧ b ≤ hi') (h : |value a - value b| ≤ value r) :
    lo - r ≤ hi' ∧ lo' ≤ hi + r := by
  obtain ⟨hbelow, habove⟩ := abs_le.mp h
  have hlow : lo - r ≤ b := sub_le_of_sub_le hspan.1 ha hb hr habove
  have hhigh : b ≤ hi + r := le_add_of_sub_le hspan.2 ha hb hr (by linarith)
  exact ⟨le_trans_float hlow hspan'.2, le_trans_float hspan'.1 hhigh⟩

namespace Proximity

variable {size radius : Float}

theorem nonneg_of_near (hcell : size.isFinite = true ∧ 0 < value size) {a b : Cell} (ha : a.Fits)
    (hb : b.Fits) (h : (ofRadius size radius).near a b = true) : 0 ≤ radius := by
  simp only [near, Bool.and_eq_true, decide_eq_true_eq] at h
  obtain ⟨hcolumns, hrows⟩ := Cell.distances_le ha hb
  unfold maxUInt64 at hcolumns hrows
  obtain ⟨hlength, hnonneg⟩ := hypotenuse_nonneg (m := a.columnsTo b) (n := a.rowsTo b)
    (by omega) (by omega)
  refine le_trans_float ((rounds_mul hlength hcell.1).ge isFinite_zero.1 ?_) h.2
  rw [isFinite_zero.2]
  exact mul_nonneg hnonneg hcell.2.le

theorem isSome_search_ofRadius_iff (hcell : size.isFinite = true ∧ 0 < value size)
    (hradius : radius.isFinite = true) {printing existing : CellSet}
    (hprinting : ∀ x ∈ printing, x.Fits) (hexisting : ∀ y ∈ existing, y.Fits) :
    ((ofRadius size radius).search printing existing).isSome = true ↔
      ∃ x ∈ printing, ∃ y ∈ existing, (ofRadius size radius).near x y = true := by
  constructor
  · intro h
    obtain ⟨⟨x, y⟩, hfound⟩ := Option.isSome_iff_exists.mp h
    rw [search_eq] at hfound
    obtain ⟨hx, hy, hnear⟩ := searchAlong_eq_some (lists_toList _) hfound
    exact ⟨x, Std.TreeSet.mem_toList.mp hx, y, hy, hnear⟩
  · rintro ⟨x, hx, y, hy, hnear⟩
    have hnonneg := nonneg_of_near hcell (hprinting x hx) (hexisting y hy) hnear
    have hreach := (reach_ofRadius ((pos_iff hcell.1).mpr hcell.2) hnonneg hradius).1
    exact (isSome_search_iff hreach hexisting).mpr ⟨x, hx, y, hy, hnear⟩

end Proximity

namespace Clearance

variable {p : Program} {nozzle : Nozzle} {settings : ClearanceSettings}
  {printing existing : SegmentId} {s t : Segment} {f g : Footprint} {a b : Point}
  {cellSize radius : Float}

/-- Two lists of points with a gap between them, along one axis for all of them. Points that are
not finite are left aside. -/
def Apart (gap : ℚ) (ends others : List Point) : Prop :=
  (∀ a ∈ ends, ∀ b ∈ others, a.Finite → b.Finite → gap < |value a.x - value b.x|) ∨
    ∀ a ∈ ends, ∀ b ∈ others, a.Finite → b.Finite → gap < |value a.y - value b.y|

theorem apart_of_boxesApart {ends others : List Point} (hradius : radius.isFinite = true)
    (hf : ∀ a ∈ ends, a.Finite → f.Holds cellSize a)
    (hg : ∀ b ∈ others, b.Finite → g.Holds cellSize b) (h : boxesApart f g radius = true) :
    Apart (value radius) ends others := by
  unfold boxesApart at h
  split at h
  · rename_i p q hp hq
    rw [Bool.not_eq_true', Box.intersects, Box.expand] at h
    have hspans {f : Footprint} {b : Box} {a : Point} (hb : f.bounds = some b)
        (hholds : f.Holds cellSize a) : b.Spans a := by
      obtain ⟨-, box, hbox, hspans⟩ := hholds
      rw [hb, Option.mem_some_iff] at hbox
      exact hbox ▸ hspans
    by_contra hnear
    rw [Apart, not_or] at hnear
    push Not at hnear
    obtain ⟨⟨a, ha, b, hb, hafinite, hbfinite, hx⟩, a', ha', b', hb', hafinite', hbfinite', hy⟩ :=
      hnear
    have hpa := hspans hp (hf a ha hafinite)
    have hqb := hspans hq (hg b hb hbfinite)
    have hpa' := hspans hp (hf a' ha' hafinite')
    have hqb' := hspans hq (hg b' hb' hbfinite')
    obtain ⟨hminX, hmaxX⟩ := overlap_of_abs_le hafinite.x hbfinite.x hradius
      ⟨hpa.minX, hpa.maxX⟩ ⟨hqb.minX, hqb.maxX⟩ hx
    obtain ⟨hminY, hmaxY⟩ := overlap_of_abs_le hafinite'.y hbfinite'.y hradius
      ⟨hpa'.minY, hpa'.maxY⟩ ⟨hqb'.minY, hqb'.maxY⟩ hy
    simp [hminX, hmaxX, hminY, hmaxY] at h
  · exact absurd h (by decide)

theorem check_ofProgram (hs : p.segment? printing = some s) (ht : p.segment? existing = some t) :
    (ofProgram p nozzle settings).check printing existing =
      (ofProgram p nozzle settings).compare (Footprint.ofSegment settings.cellSize s)
        (Footprint.ofSegment settings.cellSize t) := by
  unfold check
  rw [footprint?_ofProgram, footprint?_ofProgram, hs, ht]
  rfl

theorem apart_printEnds (hradius : radius.isFinite = true)
    (h : boxesApart (Footprint.ofSegment cellSize s) (Footprint.ofSegment cellSize t) radius = true) :
    Apart (value radius) s.printEnds t.printEnds :=
  apart_of_boxesApart hradius
    (fun _ ha hfinite => Footprint.holds_ofSegment (s := s) hfinite ha)
    (fun _ hb hfinite => Footprint.holds_ofSegment (s := t) hfinite hb) h

theorem Apart.lt {gap : ℚ} {ends others : List Point} (h : Apart gap ends others) (hgap : 0 ≤ gap)
    (ha : a ∈ ends) (hb : b ∈ others) (hafinite : a.Finite) (hbfinite : b.Finite) :
    gap ^ 2 < (value a.x - value b.x) ^ 2 + (value a.y - value b.y) ^ 2 := by
  rcases h with hfar | hfar
  · have hx := pow_lt_pow_left₀ (hfar a ha b hb hafinite hbfinite) hgap two_ne_zero
    rw [sq_abs] at hx
    linarith [sq_nonneg (value a.y - value b.y)]
  · have hy := pow_lt_pow_left₀ (hfar a ha b hb hafinite hbfinite) hgap two_ne_zero
    rw [sq_abs] at hy
    linarith [sq_nonneg (value a.x - value b.x)]

theorem boxesApart_of_reaches (ha : a ∈ s.printEnds) (hb : b ∈ t.printEnds)
    (hafinite : a.Finite) (hbfinite : b.Finite) (hreaches : Point.Reaches radius a b)
    (hradius : radius.isFinite = true) :
    boxesApart (Footprint.ofSegment cellSize s) (Footprint.ofSegment cellSize t) radius =
      false := by
  obtain ⟨hnonneg, hclose⟩ := hreaches hradius
  by_contra hapart
  rw [Bool.not_eq_false] at hapart
  exact absurd hclose
    ((apart_printEnds hradius hapart).lt hnonneg ha hb hafinite hbfinite).not_ge

/-- Footprints collide where the radius is not a number, or their boxes are not apart and some of
their cells are near. -/
theorem collides_compare_iff {c : Clearance}
    (hcell : c.settings.cellSize.isFinite = true ∧ 0 < value c.settings.cellSize)
    (hradius : c.safetyRadius (f.z - g.z) = radius) (hf : ∀ x ∈ f.cells, x.Fits)
    (hg : ∀ y ∈ g.cells, y.Fits) :
    (c.compare f g).collides = true ↔
      radius.isFinite = false ∨ boxesApart f g radius = false ∧ ∃ x ∈ f.cells, ∃ y ∈ g.cells,
        (Proximity.ofRadius c.settings.cellSize radius).near x y = true := by
  unfold compare
  simp only [hradius]
  cases hfinite : radius.isFinite with
  | false => simp [Verdict.collides]
  | true =>
      simp only [Bool.not_true, Bool.false_eq_true, if_false, Bool.true_eq_false, false_or,
        ← Proximity.isSome_search_ofRadius_iff hcell hfinite hf hg]
      have hsearch := Proximity.isSome_search_ofRadius_iff hcell hfinite hf hg
      by_cases hempty : (f.isEmpty || g.isEmpty) = true
      · -- Nothing is found where one of the footprints has no cells.
        rw [if_pos hempty, hsearch]
        refine iff_of_false (by simp [Verdict.collides]) ?_
        rintro ⟨-, x, hx, y, hy, -⟩
        rcases Bool.or_eq_true_iff.mp hempty with hnone | hnone
        · exact absurd hx (Std.TreeSet.not_mem_of_isEmpty hnone)
        · exact absurd hy (Std.TreeSet.not_mem_of_isEmpty hnone)
      · rw [if_neg hempty]
        cases boxesApart f g radius with
        | true => simp [Verdict.collides]
        | false =>
            cases (Proximity.ofRadius c.settings.cellSize radius).search f.cells g.cells with
            | none => simp [Verdict.collides]
            | some found => simp [Verdict.collides]

theorem collides_check_iff
    (hcell : settings.cellSize.isFinite = true ∧ 0 < value settings.cellSize)
    (hs : p.segment? printing = some s) (ht : p.segment? existing = some t)
    (hradius : (ofProgram p nozzle settings).safetyRadius (s.z - t.z) = radius) :
    ((ofProgram p nozzle settings).check printing existing).collides = true ↔
      radius.isFinite = false ∨
        boxesApart (Footprint.ofSegment settings.cellSize s)
          (Footprint.ofSegment settings.cellSize t) radius = false ∧
        ∃ x ∈ (Footprint.ofSegment settings.cellSize s).cells,
          ∃ y ∈ (Footprint.ofSegment settings.cellSize t).cells,
            (Proximity.ofRadius settings.cellSize radius).near x y = true := by
  rw [check_ofProgram hs ht]
  refine collides_compare_iff (c := ofProgram p nozzle settings) hcell ?_
    (Footprint.fits_ofSegment _ s) (Footprint.fits_ofSegment _ t)
  rw [Footprint.z_ofSegment, Footprint.z_ofSegment, hradius]

theorem collides_of_close (hsize : Cell.Coarse settings.cellSize)
    (hs : p.segment? printing = some s) (ht : p.segment? existing = some t) (ha : a ∈ s.printEnds)
    (hb : b ∈ t.printEnds) (hainside : a.Inside) (hbinside : b.Inside) {d : ℚ} (hd : 0 ≤ d)
    (hroom : d + 3 / 2 * value settings.cellSize ≤
      value ((ofProgram p nozzle settings).safetyRadius (s.z - t.z)))
    (hclose : (value a.x - value b.x) ^ 2 + (value a.y - value b.y) ^ 2 ≤ d ^ 2) :
    ((ofProgram p nozzle settings).check printing existing).collides = true := by
  rw [collides_check_iff ⟨hsize.isFinite, hsize.pos⟩ hs ht rfl]
  generalize (ofProgram p nozzle settings).safetyRadius (s.z - t.z) = radius at hroom ⊢
  cases hfinite : radius.isFinite with
  | false => exact Or.inl rfl
  | true =>
      have hle : d ≤ value radius := by linarith [hsize.pos]
      have hreaches : Point.Reaches radius a b := fun _ =>
        ⟨hd.trans hle, hclose.trans (pow_le_pow_left₀ hd hle 2)⟩
      exact Or.inr ⟨boxesApart_of_reaches ha hb hainside.finite hbinside.finite hreaches hfinite,
        _, (Footprint.holds_ofSegment hainside.finite ha).cell, _,
        (Footprint.holds_ofSegment hbinside.finite hb).cell,
        hsize.near_around hainside hbinside hfinite hd hclose hroom⟩

theorem lt_of_not_tooClose (hsize : Cell.Coarse settings.cellSize)
    (hs : p.segment? printing = some s) (ht : p.segment? existing = some t)
    (h : (ofProgram p nozzle settings).tooClose printing existing = false)
    (ha : a ∈ s.printEnds) (hb : b ∈ t.printEnds) (hainside : a.Inside) (hbinside : b.Inside) :
    ((ofProgram p nozzle settings).safetyRadius (s.z - t.z)).isFinite = true ∧
      ∀ d, 0 ≤ d → d + 3 / 2 * value settings.cellSize ≤
          value ((ofProgram p nozzle settings).safetyRadius (s.z - t.z)) →
        d ^ 2 < (value a.x - value b.x) ^ 2 + (value a.y - value b.y) ^ 2 := by
  unfold tooClose at h
  constructor
  · by_contra hinfinite
    rw [Bool.not_eq_true] at hinfinite
    rw [(collides_check_iff ⟨hsize.isFinite, hsize.pos⟩ hs ht rfl).mpr (Or.inl hinfinite)] at h
    cases h
  · intro d hd hroom
    by_contra hclose
    rw [collides_of_close hsize hs ht ha hb hainside hbinside hd hroom (not_lt.mp hclose)] at h
    cases h

/-- Where two print moves end within the safety radius, the boxes do not answer, and the check of
their segments collides exactly where the radius is not finite or cells that the segments occupy are
near. It collides where the cells of the two ends are near, and wherever the ends are closer than
the radius by one and a half cells. -/
theorem check_collides_iff_near (p : Program) {settings : Settings}
    (hvalid : settings.validate = .ok ()) (hs : p.segment? printing = some s)
    (ht : p.segment? existing = some t) (ha : a ∈ s.printEnds)
    (hb : b ∈ t.printEnds) (hafinite : a.Finite) (hbfinite : b.Finite) :
    let c := ofProgram p settings.nozzle settings.clearance
    let size := settings.clearance.cellSize
    let radius := c.safetyRadius (s.z - t.z)
    let near := (Proximity.ofRadius size radius).near
    Point.Reaches radius a b →
      (radius.isFinite = true →
        boxesApart (Footprint.ofSegment size s) (Footprint.ofSegment size t) radius = false) ∧
      ((c.check printing existing).collides = true ↔
        radius.isFinite = false ∨ ∃ x ∈ (Footprint.ofSegment size s).cells,
          ∃ y ∈ (Footprint.ofSegment size t).cells, near x y = true) ∧
      (near (Cell.around size a.x a.y) (Cell.around size b.x b.y) = true →
        (c.check printing existing).collides = true) ∧
      (a.Inside → b.Inside → ∀ d, 0 ≤ d → d + 3 / 2 * value size ≤ value radius →
        (value a.x - value b.x) ^ 2 + (value a.y - value b.y) ^ 2 ≤ d ^ 2 →
          (c.check printing existing).collides = true) := by
  intro c size radius near hreaches
  have hclearance := Settings.validate_clearance hvalid
  have hcell := ClearanceSettings.cellSize_of_validate hclearance
  have hboxes : radius.isFinite = true → boxesApart (Footprint.ofSegment size s)
      (Footprint.ofSegment size t) radius = false :=
    boxesApart_of_reaches ha hb hafinite hbfinite hreaches
  have hiff : (c.check printing existing).collides = true ↔ _ := collides_check_iff hcell hs ht rfl
  have hnear : near (Cell.around size a.x a.y) (Cell.around size b.x b.y) = true →
      (c.check printing existing).collides = true := by
    intro hnear
    rw [hiff]
    cases hfinite : radius.isFinite with
    | false => exact Or.inl rfl
    | true =>
        exact Or.inr ⟨hboxes hfinite, _, (Footprint.holds_ofSegment hafinite ha).cell, _,
          (Footprint.holds_ofSegment hbfinite hb).cell, hnear⟩
  refine ⟨hboxes, ?_, hnear, ?_⟩
  · rw [hiff]
    constructor
    · exact Or.imp_right And.right
    · rintro (hinfinite | hcells)
      · exact Or.inl hinfinite
      · cases hfinite : radius.isFinite with
        | false => exact Or.inl rfl
        | true => exact Or.inr ⟨hboxes hfinite, hcells⟩
  · intro hainside hbinside d hd hroom hclose
    exact collides_of_close (ClearanceSettings.coarse_of_validate hclearance) hs ht ha hb hainside
      hbinside hd hroom hclose

/-- Print moves that end 1.02 mm apart, in cells whose centers are 1.5 mm apart, are not found
with a radius of 1.2 mm. -/
theorem check_misses_reached_ends :
    let text := "; layer num/total_layer_count: 1/2\nT0\nG1 X0.49 Y0 Z0.2 E1\n" ++
      "; layer num/total_layer_count: 2/2\nT1\nG1 X1.51 Y0 Z0.2 E2\n"
    let p := Program.ofText text
    let settings : Settings := {}
    let c := ofProgram p settings.nozzle settings.clearance
    settings.validate = .ok () ∧
      (∀ d ∈ Program.readCommands text, ∀ a ∈ [Axis.x, .y, .z, .e], ∀ v ∈ d.along a,
        v.isFinite = true) ∧
      ∃ s ∈ p.segment? ⟨2, 1⟩, ∃ t ∈ p.segment? ⟨1, 1⟩, ∃ a ∈ s.printEnds, ∃ b ∈ t.printEnds,
        Point.Reaches (c.safetyRadius (s.z - t.z)) a b ∧
        (c.check ⟨2, 1⟩ ⟨1, 1⟩).collides = false := by
  decide +kernel

/-- The ends lie on both sides of both axes, in cells of 0.5 mm that are a column and a row apart. -/
theorem check_collides_iff_near_both_sides :
    let p := Program.ofText ("; layer num/total_layer_count: 1/2\nT0\nG1 X-0.2 Y0.1 Z0.2 E1\n" ++
      "G1 X-40 E2\n; layer num/total_layer_count: 2/2\nT1\nG1 X0.2 Y-0.1 Z0.2 E3\nG1 X90 E4\n")
    let settings : Settings := {}
    let c := ofProgram p settings.nozzle settings.clearance
    let size := settings.clearance.cellSize
    settings.validate = .ok () ∧
      ∃ s ∈ p.segment? ⟨2, 1⟩, ∃ t ∈ p.segment? ⟨1, 1⟩, ∃ a ∈ s.printEnds, ∃ b ∈ t.printEnds,
        let radius := c.safetyRadius (s.z - t.z)
        let f := Footprint.ofSegment size s
        let g := Footprint.ofSegment size t
        ((a.Finite ∧ b.Finite) ∧ Point.Reaches radius a b ∧ radius.isFinite = true ∧ a.Inside ∧
          b.Inside ∧ 449 / 1000 + 3 / 2 * value size ≤ value radius ∧
          (value a.x - value b.x) ^ 2 + (value a.y - value b.y) ^ 2 ≤ (449 / 1000) ^ 2) ∧
        boxesApart f g radius = false ∧ (c.check ⟨2, 1⟩ ⟨1, 1⟩).collides = true ∧
        ∃ x ∈ f.cells, ∃ y ∈ g.cells, (Proximity.ofRadius size radius).near x y = true := by
  intro p settings c size
  have hpoints : settings.validate = .ok () ∧
      ∃ s ∈ p.segment? ⟨2, 1⟩, ∃ t ∈ p.segment? ⟨1, 1⟩, ∃ a ∈ s.printEnds, ∃ b ∈ t.printEnds,
        let radius := c.safetyRadius (s.z - t.z)
        (a.Finite ∧ b.Finite) ∧ Point.Reaches radius a b ∧ radius.isFinite = true ∧ a.Inside ∧
          b.Inside ∧ 449 / 1000 + 3 / 2 * value size ≤ value radius ∧
          (value a.x - value b.x) ^ 2 + (value a.y - value b.y) ^ 2 ≤ (449 / 1000) ^ 2 := by
    decide +kernel
  obtain ⟨hvalid, s, hs, t, ht, a, ha, b, hb, hends⟩ := hpoints
  have ⟨⟨hafinite, hbfinite⟩, hreaches, hfinite, hainside, hbinside, hroom, hclose⟩ := hends
  obtain ⟨hboxes, hcells, -, hcollides⟩ :=
    check_collides_iff_near p hvalid hs ht ha hb hafinite hbfinite hreaches
  have hcollides := hcollides hainside hbinside (449 / 1000) (by norm_num) hroom hclose
  refine ⟨hvalid, s, hs, t, ht, a, ha, b, hb, hends, hboxes hfinite, hcollides, ?_⟩
  exact (hcells.mp hcollides).resolve_left (by rw [hfinite]; simp)

end Clearance

end ToolBatching
