import ToolBatching.Clearance.Proximity
import ToolBatching.Proofs.Number.WholeParts

namespace ToolBatching

open Number

/-- The integers that a signed word of 64 bits holds. -/
def Number.FitsInt64 (n : Int) : Prop :=
  minInt64 ≤ n ∧ n ≤ maxInt64

instance (n : Int) : Decidable (FitsInt64 n) :=
  inferInstanceAs (Decidable (_ ∧ _))

/-- The result of an operation on integers, unless it overflows. -/
def Number.checked (n : Int) : Option Int :=
  if FitsInt64 n then some n else none

namespace Cell

/-- Whether the coordinates of a cell fit in 64 bits. -/
structure Fits (c : Cell) : Prop where
  column : FitsInt64 c.column
  row : FitsInt64 c.row

variable {a b : Cell}

theorem fitsInt64_clamp (n : Int) : FitsInt64 (clamp n) := by
  unfold FitsInt64 clamp minInt64 maxInt64
  omega

theorem clamp_eq_self {n : Int} (h : FitsInt64 n) : clamp n = n := by
  unfold FitsInt64 at h
  unfold clamp
  omega

theorem fits_offset (a : Cell) (columns rows : Int) : (a.offset columns rows).Fits :=
  ⟨fitsInt64_clamp _, fitsInt64_clamp _⟩

theorem fits_around (size x y : Float) : (around size x y).Fits :=
  ⟨clamped_mem floor _ (by decide) (by decide), clamped_mem floor _ (by decide) (by decide)⟩

theorem offset_sub (a : Cell) (hb : b.Fits) :
    a.offset (b.column - a.column) (b.row - a.row) = b := by
  rw [offset, add_sub_cancel, add_sub_cancel, clamp_eq_self hb.column, clamp_eq_self hb.row]

theorem distances_le (ha : a.Fits) (hb : b.Fits) :
    (a.columnsTo b : Int) ≤ maxUInt64 ∧ (a.rowsTo b : Int) ≤ maxUInt64 := by
  obtain ⟨hac, har⟩ := ha
  obtain ⟨hbc, hbr⟩ := hb
  unfold FitsInt64 minInt64 maxInt64 at hac har hbc hbr
  unfold columnsTo rowsTo maxUInt64
  omega

end Cell

namespace Proximity

variable {p : Proximity} {a b : Cell} {printing existing : CellSet} {listed : List Cell}

theorem mem_offsets_iff {d : Int} : d ∈ p.offsets ↔ -p.reach ≤ d ∧ d ≤ p.reach := by
  simp only [offsets, side, List.mem_map, List.mem_range]
  constructor
  · rintro ⟨i, hi, rfl⟩
    omega
  · intro h
    exact ⟨(d + p.reach).toNat, by omega, by omega⟩

theorem mem_window_of_near (hreach : 0 ≤ p.reach) (hb : b.Fits) (h : p.near a b = true) :
    b ∈ p.window a := by
  simp only [near, Bool.and_eq_true, decide_eq_true_eq] at h
  obtain ⟨⟨hcolumns, hrows⟩, -⟩ := h
  unfold Cell.columnsTo at hcolumns
  unfold Cell.rowsTo at hrows
  rw [window, List.mem_flatMap]
  refine ⟨b.column - a.column, mem_offsets_iff.mpr (by omega), ?_⟩
  rw [List.mem_map]
  exact ⟨b.row - a.row, mem_offsets_iff.mpr (by omega), Cell.offset_sub a hb⟩

theorem windowScan_eq_some (h : p.windowScan existing a = some b) :
    b ∈ existing ∧ p.near a b = true := by
  have hfound := List.find?_some h
  rw [Bool.and_eq_true] at hfound
  exact ⟨Std.TreeSet.contains_iff_mem.mp hfound.1, hfound.2⟩

theorem isSome_windowScan_iff (hreach : 0 ≤ p.reach) (hfits : ∀ c ∈ existing, c.Fits) :
    (p.windowScan existing a).isSome = true ↔ ∃ b ∈ existing, p.near a b = true := by
  constructor
  · intro h
    obtain ⟨b, hb⟩ := Option.isSome_iff_exists.mp h
    exact ⟨b, windowScan_eq_some hb⟩
  · rintro ⟨b, hb, hnear⟩
    rw [windowScan, List.find?_isSome]
    refine ⟨b, mem_window_of_near hreach (hfits b hb) hnear, ?_⟩
    rw [Bool.and_eq_true]
    exact ⟨Std.TreeSet.contains_iff_mem.mpr hb, hnear⟩

theorem pairScan_eq_some (h : p.pairScan listed a = some b) : b ∈ listed ∧ p.near a b = true :=
  ⟨List.mem_of_find?_eq_some h, List.find?_some h⟩

theorem isSome_pairScan_iff :
    (p.pairScan listed a).isSome = true ↔ ∃ b ∈ listed, p.near a b = true := by
  rw [pairScan, List.find?_isSome]

/-- The search along lists of the cells, by lookups in windows or by trying all pairs. -/
def searchAlong (p : Proximity) (windows : Bool) (cells listed : List Cell) (existing : CellSet) :
    Option (Cell × Cell) :=
  cells.findSome? fun a =>
    (if windows then p.windowScan existing a else p.pairScan listed a).map fun b => (a, b)

/-- A list of the cells of a set, in any order. -/
def Lists (cells : List Cell) (set : CellSet) : Prop :=
  ∀ c, c ∈ cells ↔ c ∈ set

theorem lists_toList (set : CellSet) : Lists set.toList set :=
  fun _ => Std.TreeSet.mem_toList

/-- Whether the window around a cell has fewer cells than a set, so that it is scanned. -/
def scansWindows (p : Proximity) (existing : CellSet) : Bool :=
  decide (p.side * p.side < existing.size)

theorem search_eq (p : Proximity) (printing existing : CellSet) :
    p.search printing existing =
      p.searchAlong (p.scansWindows existing) printing.toList existing.toList existing := by
  unfold search searchAlong scansWindows
  simp only [decide_eq_true_eq]

theorem searchAlong_eq_some {cells : List Cell} {windows : Bool} (hlisted : Lists listed existing)
    (h : p.searchAlong windows cells listed existing = some (a, b)) :
    a ∈ cells ∧ b ∈ existing ∧ p.near a b = true := by
  obtain ⟨c, hc, hfound⟩ := List.exists_of_findSome?_eq_some h
  obtain ⟨d, hd, heq⟩ := Option.map_eq_some_iff.mp hfound
  obtain ⟨rfl, rfl⟩ := Prod.mk.inj heq
  cases windows with
  | true => exact ⟨hc, windowScan_eq_some hd⟩
  | false =>
      obtain ⟨hmem, hnear⟩ := pairScan_eq_some hd
      exact ⟨hc, (hlisted _).mp hmem, hnear⟩

theorem isSome_searchAlong_iff (hreach : 0 ≤ p.reach) (hfits : ∀ c ∈ existing, c.Fits)
    {cells : List Cell} (hcells : Lists cells printing) (hlisted : Lists listed existing)
    (windows : Bool) :
    (p.searchAlong windows cells listed existing).isSome = true ↔
      ∃ a ∈ printing, ∃ b ∈ existing, p.near a b = true := by
  have hfound (a : Cell) :
      (if windows then p.windowScan existing a else p.pairScan listed a).isSome = true ↔
        ∃ b ∈ existing, p.near a b = true := by
    cases windows with
    | true => exact isSome_windowScan_iff hreach hfits
    | false =>
        refine isSome_pairScan_iff.trans (exists_congr fun b => ?_)
        rw [hlisted b]
  simp only [searchAlong, List.findSome?_isSome_iff, Option.isSome_map, hfound]
  exact exists_congr fun a => by rw [hcells a]

theorem isSome_search_iff (hreach : 0 ≤ p.reach) (hfits : ∀ c ∈ existing, c.Fits) :
    (p.search printing existing).isSome = true ↔
      ∃ a ∈ printing, ∃ b ∈ existing, p.near a b = true := by
  rw [p.search_eq]
  exact isSome_searchAlong_iff hreach hfits (lists_toList printing) (lists_toList existing) _

theorem reach_ofRadius {cellSize radius : Float} (hcell : 0 < cellSize) (hradius : 0 ≤ radius)
    (hfinite : radius.isFinite = true) :
    0 ≤ (ofRadius cellSize radius).reach ∧ (ofRadius cellSize radius).reach ≤ maxInt64 := by
  have hvalue := (nonneg_iff hfinite).mp hradius
  exact ⟨clamped_ceiling_nonneg (nonneg_div hfinite hvalue hcell) (by decide),
    (clamped_mem ceiling _ (by decide) (by decide)).2⟩

/-- Cells of a window, computed with overflow checks. -/
def checkedArea (p : Proximity) : Option Int := do
  let doubled ← checked (p.reach * 2)
  let side ← checked (doubled + 1)
  checked (side * side)

/-- The checks decide like unbounded integers whether a window has fewer cells than a set. -/
theorem lt_iff_checkedArea (hreach : 0 ≤ p.reach) {size : Int} (hsize : size ≤ maxInt64) :
    p.side * p.side < size ↔ ∃ area ∈ p.checkedArea, area < size := by
  have hgrows : p.side ≤ p.side * p.side := by
    unfold side
    nlinarith
  constructor
  · intro hless
    have hfits : FitsInt64 (p.reach * 2) ∧ FitsInt64 (p.reach * 2 + 1) ∧
        FitsInt64 ((p.reach * 2 + 1) * (p.reach * 2 + 1)) := by
      have hsame : p.reach * 2 + 1 = p.side := by
        unfold side
        omega
      rw [hsame]
      unfold side at hgrows hless hsame ⊢
      unfold FitsInt64 minInt64
      unfold maxInt64 at hsize ⊢
      omega
    refine ⟨p.side * p.side, ?_, hless⟩
    have hsame : p.side = p.reach * 2 + 1 := by
      unfold side
      omega
    simp [checkedArea, checked, hfits, hsame]
  · rintro ⟨area, harea, hless⟩
    simp only [checkedArea, checked, Option.mem_def, Option.bind_eq_bind,
      Option.bind_eq_some_iff, Option.ite_none_right_eq_some, Option.some.injEq] at harea
    obtain ⟨doubled, ⟨-, rfl⟩, side, ⟨-, rfl⟩, -, rfl⟩ := harea
    have hsame : p.side = p.reach * 2 + 1 := by
      unfold Proximity.side
      omega
    rwa [hsame]

/-- No integer that a search computes leaves its word. -/
structure StaysInWords (p : Proximity) (printing existing : CellSet) : Prop where
  reach : FitsInt64 (-p.reach) ∧ FitsInt64 p.reach
  /-- What the checks let pass is the area of the window. -/
  area : (existing.size : Int) ≤ maxInt64 →
    (p.scansWindows existing = true ↔ ∃ area ∈ p.checkedArea, area < existing.size)
  window : (existing.size : Int) ≤ maxInt64 → p.scansWindows existing = true →
    FitsInt64 p.side ∧ FitsInt64 (p.side * p.side)
  offsets : ∀ d ∈ p.offsets, FitsInt64 d
  neighbours : ∀ a ∈ printing, ∀ b ∈ p.window a, b.Fits
  distances : ∀ a ∈ printing, ∀ b ∈ existing,
    (a.columnsTo b : Int) ≤ maxUInt64 ∧ (a.rowsTo b : Int) ≤ maxUInt64

theorem staysInWords (hreach : 0 ≤ p.reach ∧ p.reach ≤ maxInt64)
    (hprinting : ∀ c ∈ printing, c.Fits) (hexisting : ∀ c ∈ existing, c.Fits) :
    p.StaysInWords printing existing where
  reach := by
    unfold FitsInt64 minInt64 maxInt64
    unfold maxInt64 at hreach
    omega
  area hsize := by
    rw [scansWindows, decide_eq_true_eq]
    exact lt_iff_checkedArea hreach.1 hsize
  window hsize hscans := by
    rw [scansWindows, decide_eq_true_eq] at hscans
    have hgrows : p.side ≤ p.side * p.side := by
      unfold side
      nlinarith
    have hpos : 0 ≤ p.side := by
      unfold side
      omega
    unfold FitsInt64 minInt64
    unfold maxInt64 at hsize ⊢
    omega
  offsets d hd := by
    obtain ⟨hlow, hhigh⟩ := mem_offsets_iff.mp hd
    unfold FitsInt64 minInt64
    unfold maxInt64 at hreach ⊢
    omega
  neighbours a _ b hb := by
    obtain ⟨columns, -, hb⟩ := List.mem_flatMap.mp hb
    obtain ⟨rows, -, rfl⟩ := List.mem_map.mp hb
    exact a.fits_offset columns rows
  distances a ha b hb := Cell.distances_le (hprinting a ha) (hexisting b hb)

/-- The search over two sets of cells gives two near cells exactly where there are any, and so
do both of its scans along any lists of the sets. None of its integers overflows. -/
theorem search_finds_near {cellSize radius : Float} (hcell : 0 < cellSize) (hradius : 0 ≤ radius)
    (hfinite : radius.isFinite = true) {printing existing : CellSet}
    (hprinting : ∀ c ∈ printing, c.Fits) (hexisting : ∀ c ∈ existing, c.Fits) :
    let p := ofRadius cellSize radius
    (∀ cells listed windows, Lists cells printing → Lists listed existing →
      ((p.searchAlong windows cells listed existing).isSome = true ↔
        ∃ a ∈ printing, ∃ b ∈ existing, p.near a b = true) ∧
      ∀ a b, p.searchAlong windows cells listed existing = some (a, b) →
        a ∈ printing ∧ b ∈ existing ∧ p.near a b = true) ∧
    p.search printing existing =
      p.searchAlong (p.scansWindows existing) printing.toList existing.toList existing ∧
    ((p.search printing existing).isSome = true ↔
      ∃ a ∈ printing, ∃ b ∈ existing, p.near a b = true) ∧
    p.StaysInWords printing existing := by
  intro p
  have hreach := reach_ofRadius hcell hradius hfinite
  refine ⟨?_, p.search_eq printing existing, isSome_search_iff hreach.1 hexisting,
    staysInWords hreach hprinting hexisting⟩
  intro cells listed windows hcells hlisted
  refine ⟨isSome_searchAlong_iff hreach.1 hexisting hcells hlisted windows, ?_⟩
  intro a b hfound
  obtain ⟨ha, hb⟩ := searchAlong_eq_some hlisted hfound
  exact ⟨(hcells a).mp ha, hb⟩

/-- From one side of the grid to its corners, for a radius whose reach is clamped: one of the
corners is near, and the area of the window does not fit in a word. -/
theorem search_finds_near_at_corner :
    let middle : Cell := ⟨0, minInt64⟩
    let corner : Cell := ⟨maxInt64, minInt64⟩
    let printing : CellSet := .ofList [middle] Cell.order
    let existing : CellSet := .ofList [corner, ⟨maxInt64, maxInt64⟩] Cell.order
    let p := ofRadius 1 2e19
    ((0 : Float) < 1 ∧ (0 : Float) ≤ 2e19 ∧ (2e19 : Float).isFinite = true) ∧
    ((∀ c ∈ printing, c.Fits) ∧ ∀ c ∈ existing, c.Fits) ∧
    (p.reach = maxInt64 ∧ p.checkedArea = none) ∧
    p.near middle corner = true ∧ (p.search printing existing).isSome = true ∧
    p.StaysInWords printing existing := by
  intro middle corner printing existing p
  have hcell : (0 : Float) < 1 := by decide +kernel
  have hradius : (0 : Float) ≤ 2e19 := by decide +kernel
  have hfinite : (2e19 : Float).isFinite = true := by decide +kernel
  have hprinting : ∀ c ∈ printing, c.Fits := by
    intro c hc
    rw [Std.TreeSet.mem_ofList, List.contains_iff_mem, List.mem_singleton] at hc
    subst hc
    exact ⟨by decide, by decide⟩
  have hexisting : ∀ c ∈ existing, c.Fits := by
    intro c hc
    rw [Std.TreeSet.mem_ofList, List.contains_iff_mem, List.mem_pair] at hc
    rcases hc with rfl | rfl <;> exact ⟨by decide, by decide⟩
  have hnear : p.near middle corner = true := by decide +kernel
  obtain ⟨-, -, hsome, hwords⟩ :=
    search_finds_near hcell hradius hfinite hprinting hexisting
  refine ⟨⟨hcell, hradius, hfinite⟩, ⟨hprinting, hexisting⟩,
    ⟨by decide +kernel, by decide +kernel⟩, hnear, ?_, hwords⟩
  refine hsome.mpr ⟨middle, ?_, corner, ?_, hnear⟩
  · rw [Std.TreeSet.mem_ofList, List.contains_iff_mem]
    exact List.mem_singleton_self _
  · rw [Std.TreeSet.mem_ofList, List.contains_iff_mem]
    exact List.mem_cons_self

end Proximity

end ToolBatching
