import ToolBatching.Proofs.Clearance.CellSearch
import ToolBatching.Proofs.Scheduling.Footprints

namespace ToolBatching

open Number

/-- A point seen from above. -/
structure Point where
  x : Float
  y : Float
  deriving DecidableEq

namespace Point

variable {a b : Point}

/-- Whether both coordinates are numbers. -/
structure Finite (a : Point) : Prop where
  x : a.x.isFinite = true
  y : a.y.isFinite = true

instance (a : Point) : Decidable a.Finite :=
  decidable_of_iff (a.x.isFinite = true ∧ a.y.isFinite = true)
    ⟨fun h => ⟨h.1, h.2⟩, fun h => ⟨h.x, h.y⟩⟩

/-- Whether two points are at most a radius apart, by their exact distance. A radius that is
not finite reaches everywhere. -/
def Reaches (radius : Float) (a b : Point) : Prop :=
  radius.isFinite = true →
    0 ≤ value radius ∧
      (value a.x - value b.x) ^ 2 + (value a.y - value b.y) ^ 2 ≤ value radius ^ 2

instance (radius : Float) (a b : Point) : Decidable (Reaches radius a b) :=
  inferInstanceAs (Decidable (_ → _))

end Point

/-- Where the print moves among commands end, in their order. -/
def Machine.printEnds (m : Machine) : List Command → List Point
  | [] => []
  | c :: rest =>
      let next := m.step c
      if m.prints c then ⟨next.x, next.y⟩ :: next.printEnds rest else next.printEnds rest

def Segment.printEnds (s : Segment) : List Point :=
  s.entry.printEnds s.commands

/-- Whether a box spans a point. -/
structure Box.Spans (b : Box) (a : Point) : Prop where
  minX : b.minX ≤ a.x
  maxX : a.x ≤ b.maxX
  minY : b.minY ≤ a.y
  maxY : a.y ≤ b.maxY

theorem Box.spans_insert?_self (b : Option Box) {a : Point} (ha : a.Finite) :
    (Box.insert? b a.x a.y).Spans a := by
  have hx := isNaN_of_isFinite ha.x
  have hy := isNaN_of_isFinite ha.y
  cases b with
  | none =>
      have hself {v : Float} (hv : v.isFinite = true) : v ≤ v :=
        (le_iff_value_le hv hv).mpr le_rfl
      exact ⟨hself ha.x, hself ha.x, hself ha.y, hself ha.y⟩
  | some b => exact ⟨lesser_le hx, le_greater hx, lesser_le hy, le_greater hy⟩

theorem Box.Spans.insert {b : Box} {a : Point} (h : b.Spans a) (x y : Float) :
    (b.insert x y).Spans a :=
  ⟨lesser_le_of_le h.minX, le_greater_of_le h.maxX, lesser_le_of_le h.minY,
    le_greater_of_le h.maxY⟩

namespace Footprint

variable {cellSize : Float} {f : Footprint} {a : Point}

/-- A point that a footprint accounts for. -/
structure Holds (cellSize : Float) (f : Footprint) (a : Point) : Prop where
  cell : Cell.around cellSize a.x a.y ∈ f.cells
  box : ∃ b ∈ f.bounds, b.Spans a

theorem holds_insert_self (f : Footprint) (ha : a.Finite) :
    (f.insert cellSize a.x a.y).Holds cellSize a :=
  ⟨Std.TreeSet.mem_insert_self, _, rfl, Box.spans_insert?_self f.bounds ha⟩

theorem Holds.insert (h : f.Holds cellSize a) (x y : Float) :
    (f.insert cellSize x y).Holds cellSize a := by
  obtain ⟨hcell, b, hb, hspans⟩ := h
  rw [Option.mem_def] at hb
  refine ⟨Std.TreeSet.mem_insert.mpr (Or.inr hcell), _, rfl, ?_⟩
  rw [hb]
  exact hspans.insert x y

theorem Holds.record {m : Machine} (h : f.Holds cellSize a) (c : Command) :
    (record cellSize (m, f) c).2.Holds cellSize a := by
  unfold Footprint.record
  simp only
  split
  · exact h
  · exact h.insert _ _

theorem machine_record (m : Machine) (f : Footprint) (c : Command) :
    (record cellSize (m, f) c).1 = m.step c := by
  unfold record
  simp only
  split <;> rfl

theorem record_of_prints {m : Machine} {c : Command} (h : m.prints c = true)
    (ha : a = ⟨(m.step c).x, (m.step c).y⟩) :
    record cellSize (m, f) c = (m.step c, f.insert cellSize a.x a.y) := by
  subst ha
  unfold Machine.prints at h
  rw [Bool.and_eq_true, Bool.and_eq_true, decide_eq_true_eq] at h
  obtain ⟨⟨hextrudes, hmotion⟩, hplain⟩ := h
  have hnot : decide (m.extruded c ≤ 0) = false :=
    decide_eq_false fun hle => (le_iff_not_lt.mp hle).2.2 hextrudes
  rw [Bool.not_eq_true'] at hplain
  unfold record
  simp only [hnot, hmotion, hplain, Bool.not_true, Bool.or_false, Bool.false_eq_true, if_false]

theorem holds_foldl_record (m : Machine) (commands : List Command) (ha : a.Finite)
    (h : f.Holds cellSize a ∨ a ∈ m.printEnds commands) :
    (commands.foldl (record cellSize) (m, f)).2.Holds cellSize a := by
  induction commands generalizing m f with
  | nil => exact h.resolve_right (by simp [Machine.printEnds])
  | cons c rest ih =>
      rw [List.foldl_cons, ← Prod.mk.eta (p := record cellSize (m, f) c), machine_record]
      refine ih _ ?_
      rcases h with hheld | hend
      · exact Or.inl (hheld.record c)
      · unfold Machine.printEnds at hend
        simp only at hend
        split at hend
        · rename_i hprints
          rcases List.mem_cons.mp hend with hlast | hlater
          · rw [record_of_prints hprints hlast]
            exact Or.inl (holds_insert_self f ha)
          · exact Or.inr hlater
        · exact Or.inr hend

theorem holds_ofSegment {s : Segment} (ha : a.Finite) (hend : a ∈ s.printEnds) :
    (ofSegment cellSize s).Holds cellSize a :=
  holds_foldl_record s.entry s.commands ha (Or.inr hend)

theorem z_foldl_record (state : Machine × Footprint) (commands : List Command) :
    (commands.foldl (record cellSize) state).2.z = state.2.z := by
  induction commands generalizing state with
  | nil => rfl
  | cons c commands ih =>
      rw [List.foldl_cons, ih]
      unfold record
      simp only
      split <;> rfl

theorem z_ofSegment (cellSize : Float) (s : Segment) : (ofSegment cellSize s).z = s.z :=
  z_foldl_record _ s.commands

theorem fits_foldl_record (state : Machine × Footprint) (commands : List Command)
    (h : ∀ c ∈ state.2.cells, c.Fits) :
    ∀ c ∈ (commands.foldl (record cellSize) state).2.cells, c.Fits := by
  induction commands generalizing state with
  | nil => exact h
  | cons c commands ih =>
      rw [List.foldl_cons]
      refine ih _ fun cell hcell => ?_
      unfold record at hcell
      simp only at hcell
      split at hcell
      · exact h cell hcell
      · rcases Std.TreeSet.mem_insert.mp hcell with heq | hmem
        · rw [← Std.LawfulEqCmp.eq_of_compare heq]
          exact Cell.fits_around _ _ _
        · exact h cell hmem

theorem fits_ofSegment (cellSize : Float) (s : Segment) :
    ∀ c ∈ (ofSegment cellSize s).cells, c.Fits :=
  fits_foldl_record _ s.commands fun _ hc => absurd hc Std.TreeSet.not_mem_emptyc

end Footprint

end ToolBatching
