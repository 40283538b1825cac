import ToolBatching.Proofs.Clearance.PrintEnds
import ToolBatching.Proofs.Reading.Votes
import ToolBatching.Proofs.Writing.Closing

namespace ToolBatching

namespace Number

open Float.Model Float.Model.UnpackedFloat

theorem isNaN_sub {x y : Float} (hx : x.isFinite = true) (hy : y.isNaN = false) :
    (x - y).isNaN = false := by
  have hdiff : x - y = .ofModel (Float.Model.pack
      (UnpackedFloat.sub Format.binary64 x.toModel.unpack y.toModel.unpack)) := rfl
  rcases finite_or_infinite hy with hfinite | ⟨s, hs⟩
  · obtain ⟨u, hcanonical, -, hrounds⟩ := rounds_sub hx hfinite
    rw [hrounds]
    apply isNaN_pack
    rcases hcanonical.cases with ⟨s, rfl⟩ | ⟨s, m, e, hm, rfl⟩
    · rfl
    · rfl
  · obtain ⟨hcanonical, -⟩ := canonical_unpack hx
    rw [hdiff, hs]
    apply isNaN_pack
    rcases hcanonical.cases with ⟨s', hu⟩ | ⟨s', m, e, hm, hu⟩
    · rw [hu]
      rfl
    · rw [hu]
      rfl

/-- One of some floats that no number among them is below. -/
structure Least (vs : List Float) (m : Float) : Prop where
  mem : m ∈ vs
  le : ∀ v ∈ vs, v.isNaN = false → m ≤ v

/-- One of some floats that no number among them is above. -/
structure Greatest (vs : List Float) (m : Float) : Prop where
  mem : m ∈ vs
  le : ∀ v ∈ vs, v.isNaN = false → v ≤ m

section Least

variable {vs : List Float} {m : Float}

theorem least_singleton (x : Float) : Least [x] x :=
  ⟨List.mem_singleton_self x, List.forall_mem_singleton.mpr le_refl_float⟩

theorem greatest_singleton (x : Float) : Greatest [x] x :=
  ⟨List.mem_singleton_self x, List.forall_mem_singleton.mpr le_refl_float⟩

theorem Least.concat (h : Least vs m) (x : Float) : Least (vs ++ [x]) (lesser m x) where
  mem := by
    unfold lesser
    split
    · exact List.mem_append_left _ h.mem
    · simp
  le := by
    rw [List.forall_mem_append, List.forall_mem_singleton]
    exact ⟨fun v hv hnumber => lesser_le_of_le (h.le v hv hnumber), lesser_le⟩

theorem Greatest.concat (h : Greatest vs m) (x : Float) : Greatest (vs ++ [x]) (greater m x) where
  mem := by
    unfold greater
    split
    · exact List.mem_append_left _ h.mem
    · simp
  le := by
    rw [List.forall_mem_append, List.forall_mem_singleton]
    exact ⟨fun v hv hnumber => le_greater_of_le (h.le v hv hnumber), le_greater⟩

end Least

end Number

namespace Machine

open Number

variable {m : Machine}

theorem isNaN_extruded (h : m.e.isNaN = false) {c : Command}
    (hc : ∀ v ∈ c.e, v.isFinite = true) : (m.extruded c).isNaN = false := by
  have hzero : (0 : Float).isNaN = false := by decide +kernel
  unfold extruded
  split
  · cases he : c.e with
    | none => exact hzero
    | some e =>
        cases m.extrusion with
        | relative => exact isNaN_of_isFinite (hc e he)
        | absolute => exact isNaN_sub (hc e he) h
  · exact hzero

theorem length_printEnds (m : Machine) (cs : List Command) :
    (m.printEnds cs).length = m.printCount cs := by
  induction cs generalizing m with
  | nil => rfl
  | cons c cs ih =>
      rw [printEnds, printCount]
      cases m.prints c with
      | false => simp [ih]
      | true => simp [ih, Nat.add_comm]

end Machine

/-- The smallest box around points, as far as their coordinates are numbers. -/
structure Box.Tight (b : Box) (ends : List Point) : Prop where
  minX : Number.Least (ends.map Point.x) b.minX
  minY : Number.Least (ends.map Point.y) b.minY
  maxX : Number.Greatest (ends.map Point.x) b.maxX
  maxY : Number.Greatest (ends.map Point.y) b.maxY

theorem Box.tight_point (a : Point) : (Box.point a.x a.y).Tight [a] :=
  ⟨Number.least_singleton _, Number.least_singleton _, Number.greatest_singleton _,
    Number.greatest_singleton _⟩

theorem Box.Tight.concat {b : Box} {ends : List Point} (h : b.Tight ends) (a : Point) :
    (b.insert a.x a.y).Tight (ends ++ [a]) := by
  constructor
  · rw [List.map_append]
    exact h.minX.concat a.x
  · rw [List.map_append]
    exact h.minY.concat a.y
  · rw [List.map_append]
    exact h.maxX.concat a.x
  · rw [List.map_append]
    exact h.maxY.concat a.y

namespace Footprint

variable {cellSize : Float} {f : Footprint} {ends : List Point}

/-- A footprint of points: the cells around them and the smallest box. -/
structure Outlines (cellSize : Float) (f : Footprint) (ends : List Point) : Prop where
  cells : ∀ cell, cell ∈ f.cells ↔ ∃ a ∈ ends, cell = Cell.around cellSize a.x a.y
  bounds : f.bounds = none ↔ ends = []
  tight : ∀ b ∈ f.bounds, b.Tight ends

theorem Outlines.insert (h : f.Outlines cellSize ends) (a : Point) :
    (f.insert cellSize a.x a.y).Outlines cellSize (ends ++ [a]) where
  cells := by
    intro cell
    have hnew : Cell.order (Cell.around cellSize a.x a.y) cell = .eq ↔
        cell = Cell.around cellSize a.x a.y :=
      ⟨fun heq => (Std.LawfulEqCmp.eq_of_compare heq).symm,
        fun heq => heq ▸ Std.ReflCmp.compare_self⟩
    have hmem : cell ∈ (f.insert cellSize a.x a.y).cells ↔
        Cell.order (Cell.around cellSize a.x a.y) cell = .eq ∨ cell ∈ f.cells :=
      Std.TreeSet.mem_insert
    rw [hmem, hnew, h.cells]
    simp only [List.mem_append, List.mem_singleton]
    constructor
    · rintro (rfl | ⟨b, hb, rfl⟩)
      · exact ⟨a, Or.inr rfl, rfl⟩
      · exact ⟨b, Or.inl hb, rfl⟩
    · rintro ⟨b, hb | rfl, rfl⟩
      · exact Or.inr ⟨b, hb, rfl⟩
      · exact Or.inl rfl
  bounds := by simp [Footprint.insert]
  tight := by
    intro b hb
    obtain rfl := Option.some.inj hb
    cases hbounds : f.bounds with
    | none =>
        rw [h.bounds.mp hbounds]
        exact Box.tight_point a
    | some inner => exact (h.tight inner hbounds).concat a

theorem Outlines.foldl (h : f.Outlines cellSize ends) (more : List Point) :
    (more.foldl (fun f a => f.insert cellSize a.x a.y) f).Outlines cellSize (ends ++ more) := by
  induction more generalizing f ends with
  | nil => rwa [List.append_nil]
  | cons a more ih =>
      have hrest := ih (h.insert a)
      rwa [List.append_assoc, List.singleton_append] at hrest

theorem record_of_prints_eq_false {m : Machine} {c : Command}
    (hnumber : (m.extruded c).isNaN = false) (h : m.prints c = false) :
    record cellSize (m, f) c = (m.step c, f) := by
  have hskip : (decide (m.extruded c ≤ 0) || !c.isMotion || c.inToolChange) = true := by
    by_cases hpositive : 0 < m.extruded c
    · simp only [Machine.prints, hpositive, decide_true, Bool.true_and] at h
      cases hmotion : c.isMotion with
      | false => simp
      | true =>
          have htag : c.inToolChange = true := by simpa [hmotion] using h
          simp [htag]
    · have hzero : (0 : Float).isNaN = false := by decide +kernel
      have hle : m.extruded c ≤ 0 := Number.le_iff_not_lt.mpr ⟨hnumber, hzero, hpositive⟩
      simp [hle]
  unfold record
  simp only [hskip, if_true]

theorem foldl_record_eq {m : Machine} (hm : m.e.isNaN = false) (f : Footprint)
    {cs : List Command} (hcs : ∀ c ∈ cs, ∀ v ∈ c.along .e, v.isFinite = true) :
    (cs.foldl (record cellSize) (m, f)).2 =
      (m.printEnds cs).foldl (fun f a => f.insert cellSize a.x a.y) f := by
  induction cs generalizing m f with
  | nil => rfl
  | cons c cs ih =>
      obtain ⟨hc, hrest⟩ := List.forall_mem_cons.mp hcs
      have hnext : (m.step c).e.isNaN = false := Machine.isNaN_along_step (a := .e) hm hc
      rw [List.foldl_cons, Machine.printEnds]
      cases hprints : m.prints c with
      | false =>
          rw [record_of_prints_eq_false (Machine.isNaN_extruded hm hc) hprints, ih hnext f hrest]
          rfl
      | true =>
          rw [record_of_prints hprints rfl, ih hnext _ hrest]
          rfl

theorem outlines_ofSegment {s : Segment} (he : s.entry.e.isNaN = false)
    (hcommands : ∀ c ∈ s.commands, ∀ v ∈ c.along .e, v.isFinite = true) :
    (ofSegment cellSize s).Outlines cellSize s.printEnds := by
  rw [ofSegment, foldl_record_eq he _ hcommands]
  have hempty : Outlines cellSize { tool := s.tool, z := s.z, cells := ∅, bounds := none } [] :=
    ⟨by simp, by simp, by simp⟩
  exact hempty.foldl s.printEnds

theorem Outlines.isEmpty_iff (h : f.Outlines cellSize ends) : f.isEmpty = true ↔ ends = [] := by
  rw [isEmpty, Std.TreeSet.isEmpty_iff_forall_not_mem]
  constructor
  · intro hnone
    cases ends with
    | nil => rfl
    | cons a rest =>
        exact absurd ((h.cells _).mpr ⟨a, List.mem_cons_self, rfl⟩) (hnone _)
  · rintro rfl cell hcell
    obtain ⟨a, ha, -⟩ := (h.cells cell).mp hcell
    exact absurd ha (by simp)

end Footprint

namespace Program

variable {lines : List Command} {p : Program}

theorem Read.isNaN_entry (h : Read lines p)
    (hfinite : ∀ c ∈ lines, ∀ v ∈ c.along .e, v.isFinite = true) {s : Segment}
    (hs : s ∈ p.segments) : s.entry.e.isNaN = false := by
  obtain ⟨before, hentry, hprefix⟩ := h.chained.exists_run hs
  rw [hentry]
  apply Machine.isNaN_along_run (a := .e) (h.isNaN_preamble hfinite)
  intro c hc
  have hbody : c ∈ p.bodyCommands := by
    rw [← commands_segments]
    exact hprefix.subset (List.mem_append_left _ hc)
  exact hfinite c (h.mem_of_mem_bodyCommands hbody)

theorem Read.outlines_footprint (h : Read lines p)
    (hfinite : ∀ c ∈ lines, ∀ v ∈ c.along .e, v.isFinite = true) {s : Segment}
    (hs : s ∈ p.segments) (cellSize : Float) :
    (Footprint.ofSegment cellSize s).Outlines cellSize s.printEnds := by
  refine Footprint.outlines_ofSegment (h.isNaN_entry hfinite hs) fun c hc => hfinite c ?_
  apply h.mem_of_mem_bodyCommands
  rw [← commands_segments]
  exact List.mem_flatMap.mpr ⟨s, hs, hc⟩

/-- Lines with finite extruder words are counted, outlined and voted for alike. Each segment
counts the print moves of a replay, its footprint outlines their ends and is empty only without
any, and a layer that prints with selected tools has one whose segments print most. -/
theorem ofLines_print_moves (lines : List String) (lineEnding : LineEnding) (nozzle : Nozzle)
    (settings : ClearanceSettings)
    (hfinite : ∀ line ∈ scanLines {} 0 lines, ∀ e ∈ line.command.e, e.isFinite = true) :
    let p := ofLines lines lineEnding
    let c := Clearance.ofProgram p nozzle settings
    (∀ s ∈ p.segments,
      s.entry.printCount s.commands = s.printMoves ∧ s.printEnds.length = s.printMoves ∧
      ∃ f, c.footprint? s.id = some f ∧ f.Outlines settings.cellSize s.printEnds ∧
        (f.isEmpty = true ↔ s.printMoves = 0)) ∧
    ∀ l ∈ p.layers, (∀ t, l.printMovesBy t = l.entry.printsBy t l.commands) ∧
      ∀ t, 0 < l.entry.printsBy t l.commands →
        ∃ best, l.tool = some best ∧ ∀ u, l.printMovesBy u ≤ l.printMovesBy best := by
  intro p c
  have h : Read _ p := read_ofLines lines lineEnding
  have hwords : ∀ c ∈ (scanLines {} 0 lines).map ScannedLine.command,
      ∀ v ∈ c.along .e, v.isFinite = true := by
    intro c hc
    obtain ⟨line, hline, rfl⟩ := List.mem_map.mp hc
    exact hfinite line hline
  constructor
  · intro s hs
    have hcount : s.printMoves = s.entry.printCount s.commands :=
      (owned_of_mem_ofLines hs).printMoves
    have hlength : s.printEnds.length = s.printMoves := by
      rw [hcount]
      exact Machine.length_printEnds s.entry s.commands
    have houtlines := h.outlines_footprint hwords hs settings.cellSize
    refine ⟨hcount.symm, hlength, Footprint.ofSegment settings.cellSize s, ?_, houtlines, ?_⟩
    · rw [Clearance.footprint?_ofProgram, h.segment?_id hs, Option.map_some]
    · rw [houtlines.isEmpty_iff, ← hlength, List.length_eq_zero_iff]
  · intro l hl
    refine ⟨printMovesBy_eq hl, fun t ht => ?_⟩
    rw [← printMovesBy_eq hl] at ht
    exact exists_tool_most hl ht

/-- The second tool prints two of three moves of a layer, with coordinates as offsets. -/
theorem ofLines_print_moves_second_tool :
    let lines := ["G1 Z0.2", "T0", "G1 X-3 Y-1 E1", "T1", "G91", "M83", "G1 X-1 E1",
      "G1 Y2 E0.5", "G1 X5 E-1"]
    let p := ofLines lines .lf
    let c := Clearance.ofProgram p {} {}
    (∀ line ∈ scanLines {} 0 lines, ∀ e ∈ line.command.e, e.isFinite = true) ∧
      ∃ s ∈ p.segment? ⟨1, 2⟩, s.printEnds = [⟨-4, -1⟩, ⟨-4, 1⟩] ∧
        (∃ f ∈ c.footprint? s.id, f.Outlines 0.5 s.printEnds ∧ f.isEmpty = false) ∧
      ∃ l ∈ p.layers, ∃ best ∈ l.tool, best = 1 ∧ l.printMovesBy 0 ≤ l.printMovesBy best := by
  intro lines p c
  have hfinite : ∀ line ∈ scanLines {} 0 lines, ∀ e ∈ line.command.e, e.isFinite = true := by
    decide +kernel
  obtain ⟨hsegments, hlayers⟩ := ofLines_print_moves lines .lf {} {} hfinite
  obtain ⟨⟨s, hs, hmem, hends⟩, l, hl, htool, hprints⟩ :
      (∃ s ∈ p.segment? ⟨1, 2⟩, s ∈ p.segments ∧ s.printEnds = [⟨-4, -1⟩, ⟨-4, 1⟩]) ∧
        ∃ l ∈ p.layers, l.tool = some 1 ∧ 0 < l.entry.printsBy 1 l.commands := by
    decide +kernel
  obtain ⟨-, hlength, f, hf, houtlines, hempty⟩ := hsegments s hmem
  obtain ⟨best, hbest, hmost⟩ := (hlayers l hl).2 1 hprints
  obtain rfl : 1 = best := Option.some.inj (htool.symm.trans hbest)
  refine ⟨hfinite, s, hs, hends, ⟨f, hf, houtlines, ?_⟩, l, hl, 1, hbest, rfl, hmost 0⟩
  rw [← Bool.not_eq_true, hempty, ← hlength, hends]
  decide

end Program

end ToolBatching
