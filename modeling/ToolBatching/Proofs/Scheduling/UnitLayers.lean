import Mathlib.Data.List.Nodup
import ToolBatching.Proofs.Scheduling.Units

namespace ToolBatching

namespace PrintUnit

theorem ofSegments_of_silent {first : Segment} {rest : List Segment}
    (h : ∀ s ∈ first :: rest, s.printMoves = 0) :
    ofSegments (first :: rest) =
      [{ anchor := first.id, members := (first :: rest).map Segment.id, tool := first.tool }] := by
  obtain ⟨hflat, hgroups, -⟩ := cut_spec (first :: rest)
  have hnone : (cut (first :: rest)).1 = [] := by
    rw [List.eq_nil_iff_forall_not_mem]
    intro g hg
    have hmem : g.2 ∈ first :: rest := by
      rw [← hflat]
      exact List.mem_append_left _ (List.mem_flatMap.mpr ⟨g, hg, by simp⟩)
    have hprints := (hgroups g hg).1
    rw [h g.2 hmem] at hprints
    omega
  rw [hnone] at hflat
  have hcut : cut (first :: rest) = ([], first :: rest) := Prod.ext hnone hflat
  rw [ofSegments, hcut]

end PrintUnit

namespace Layer

theorem AllSound.indexes {place : Nat} {m : Machine} {layers : List Layer}
    (h : AllSound place m layers) : layers.map index = List.range' place layers.length := by
  induction layers generalizing place m with
  | nil => rfl
  | cons first rest ih =>
      rw [List.map_cons, ih h.2, h.1.index, List.length_cons, List.range'_succ]

theorem Sound.cover_ofSegments {place : Nat} {m : Machine} {l : Layer} (h : l.Sound place m) :
    PrintUnit.Cover (fun s => 0 < s.printMoves ∨ ∀ t ∈ l.segments, t.printMoves = 0)
      l.segments (PrintUnit.ofSegments l.segments) :=
  PrintUnit.cover_ofSegments l.segments (fun _ => h.layer_of_mem) (fun _ _ => Or.inl)
    fun hsilent _ _ => Or.inr hsilent

theorem Sound.layer_anchor {place : Nat} {m : Machine} {l : Layer} (h : l.Sound place m)
    {u : PrintUnit} (hu : u ∈ PrintUnit.ofSegments l.segments) : u.anchor.layer = l.index := by
  obtain ⟨lead, a, tail, hspans, -, hmem⟩ := h.cover_ofSegments.exists_spans hu
  rw [hspans.anchor, h.layer_of_mem (hmem a (by simp)), h.index]

end Layer

namespace Program

/-- Whether the segment with a name prints. -/
def prints (p : Program) (id : SegmentId) : Bool :=
  (p.segment? id).any fun s => decide (0 < s.printMoves)

end Program

/-- A unit of a layer. If anything in the layer prints, the anchor is the one member that
does. -/
structure PrintUnit.StandsIn (p : Program) (l : Layer) (u : PrintUnit) : Prop where
  inside : ∀ id ∈ u.members, id ∈ l.segments.map Segment.id
  anchor : u.anchor ∈ u.members
  tool : (p.segment? u.anchor).map Segment.tool = some u.tool
  prints : (∃ s ∈ l.segments, 0 < s.printMoves) → u.members.filter p.prints = [u.anchor]

namespace Program

section Read

variable {lines : List Command} {p : Program}

theorem Read.prints_id (h : Read lines p) {s : Segment} (hs : s ∈ p.segments) :
    p.prints s.id = decide (0 < s.printMoves) := by
  rw [prints, h.segment?_id hs, Option.any_some]

theorem Read.filter_prints (h : Read lines p) {u : PrintUnit} {lead tail : List Segment}
    {a : Segment} (hspans : u.Spans lead a tail) (hmem : ∀ s ∈ lead ++ a :: tail, s ∈ p.segments)
    (ha : 0 < a.printMoves) : u.members.filter p.prints = [u.anchor] := by
  have hsilent (part : List Segment) (hpart : part ⊆ lead ++ tail)
      (hin : part ⊆ lead ++ a :: tail) : part.filter (p.prints ∘ Segment.id) = [] := by
    rw [List.filter_eq_nil_iff]
    intro s hs
    rw [Function.comp_apply, h.prints_id (hmem s (hin hs)), hspans.silent s (hpart hs)]
    decide
  have hanchor : (p.prints ∘ Segment.id) a = true := by
    rw [Function.comp_apply, h.prints_id (hmem a (by simp))]
    exact decide_eq_true ha
  rw [hspans.members, List.filter_map, List.filter_append, List.filter_cons_of_pos hanchor,
    hsilent lead (List.subset_append_left _ _) (List.subset_append_left _ _),
    hsilent tail (List.subset_append_right _ _)
      (fun s hs => List.mem_append_right _ (List.mem_cons_of_mem a hs)), hspans.anchor]
  rfl

theorem Read.standsIn (h : Read lines p) {l : Layer} (hl : l ∈ p.layers) {u : PrintUnit}
    (hu : u ∈ PrintUnit.ofSegments l.segments) : u.StandsIn p l := by
  obtain ⟨m, hsound⟩ := h.layers.of_mem hl
  obtain ⟨lead, a, tail, hspans, hstands, hmem⟩ := hsound.cover_ofSegments.exists_spans hu
  have hsegments : ∀ s ∈ lead ++ a :: tail, s ∈ p.segments := by
    intro s hs
    exact List.mem_flatMap.mpr ⟨l, hl, hmem s hs⟩
  refine ⟨?_, ?_, ?_, ?_⟩
  · intro id hid
    rw [hspans.members] at hid
    exact List.map_subset Segment.id hmem hid
  · rw [hspans.anchor, hspans.members]
    exact List.mem_map_of_mem (by simp)
  · rw [hspans.anchor, h.segment?_id (hsegments a (by simp)), hspans.tool]
    rfl
  · rintro ⟨s, hs, hprints⟩
    refine h.filter_prints hspans hsegments (hstands.resolve_right fun hsilent => ?_)
    rw [hsilent s hs] at hprints
    omega

/-- The units that are anchored in a layer are those of its segments. -/
theorem Read.units_of_layer (h : Read lines p) {l : Layer} (hl : l ∈ p.layers) :
    p.units.filter (fun u => u.anchor.layer == l.index) = PrintUnit.ofSegments l.segments := by
  have hindexes : (p.layers.map Layer.index).Nodup := by
    rw [h.layers.indexes]
    exact List.nodup_range'
  have hanchors (l' : Layer) (hl' : l' ∈ p.layers) {u : PrintUnit}
      (hu : u ∈ PrintUnit.ofSegments l'.segments) : u.anchor.layer = l'.index := by
    obtain ⟨m, hsound⟩ := h.layers.of_mem hl'
    exact hsound.layer_anchor hu
  obtain ⟨front, back, hlayers⟩ := List.append_of_mem hl
  have hothers (part : List Layer) (hpart : part ⊆ p.layers)
      (hne : l.index ∉ part.map Layer.index) :
      (part.flatMap fun l => PrintUnit.ofSegments l.segments).filter
        (fun u => u.anchor.layer == l.index) = [] := by
    rw [List.filter_eq_nil_iff]
    intro u hu
    obtain ⟨l', hl', hu⟩ := List.mem_flatMap.mp hu
    rw [hanchors l' (hpart hl') hu, beq_iff_eq]
    exact fun heq => hne (List.mem_map.mpr ⟨l', hl', heq⟩)
  have hown : (PrintUnit.ofSegments l.segments).filter (fun u => u.anchor.layer == l.index) =
      PrintUnit.ofSegments l.segments := by
    rw [List.filter_eq_self]
    intro u hu
    rw [hanchors l hl hu, beq_self_eq_true]
  have hfront : front ⊆ p.layers := by
    rw [hlayers]
    exact List.subset_append_left _ _
  have hback : back ⊆ p.layers := by
    rw [hlayers]
    exact fun _ h => List.mem_append_right _ (List.mem_cons_of_mem l h)
  rw [hlayers, List.map_append, List.map_cons, List.nodup_middle, List.nodup_cons,
    List.mem_append, not_or] at hindexes
  rw [units, hlayers, List.flatMap_append, List.flatMap_cons, List.filter_append,
    List.filter_append, hown, hothers front hfront hindexes.1.1, hothers back hback hindexes.1.2,
    List.nil_append, List.append_nil]

end Read

/-- Units tile a program around their anchors. Their members in a row are all segments in
program order, each unit stands in one layer with its anchor, and a layer that prints nothing is
one unit at its first segment; so the anchors ascend. -/
theorem units_tile (lines : List String) (lineEnding : LineEnding) :
    let p := ofLines lines lineEnding
    p.units.flatMap PrintUnit.members = p.segmentIds ∧
      (∀ u ∈ p.units, ∃ l ∈ p.layers, u.StandsIn p l) ∧
      (∀ l ∈ p.layers, (∀ s ∈ l.segments, s.printMoves = 0) →
        ∃ first rest, l.segments = first :: rest ∧
          p.units.filter (fun u => u.anchor.layer == l.index) =
            [⟨first.id, l.segments.map Segment.id, first.tool⟩]) ∧
      (p.units.map PrintUnit.anchor).Pairwise (· < ·) := by
  have h := read_ofLines lines lineEnding
  refine ⟨h.members_units, fun u hu => ?_, fun l hl hsilent => ?_, h.anchors_pairwise⟩
  · obtain ⟨l, hl, hu⟩ := List.mem_flatMap.mp hu
    exact ⟨l, hl, h.standsIn hl hu⟩
  · obtain ⟨m, hsound⟩ := h.layers.of_mem hl
    obtain ⟨first, rest, hsegments⟩ := List.exists_cons_of_ne_nil hsound.nonempty
    refine ⟨first, rest, hsegments, ?_⟩
    rw [h.units_of_layer hl, hsegments]
    rw [hsegments] at hsilent
    exact PrintUnit.ofSegments_of_silent hsilent

theorem units_tile_silent_second_layer :
    let p := ofLines ["; layer num/total_layer_count: 1/2", "T0", "T1", "G1 Z0.2 E1", "T0",
      "; layer num/total_layer_count: 2/2", "T1"] .lf
    p.units = [⟨⟨1, 2⟩, [⟨1, 0⟩, ⟨1, 1⟩, ⟨1, 2⟩, ⟨1, 3⟩], some 1⟩,
        ⟨⟨2, 0⟩, [⟨2, 0⟩, ⟨2, 1⟩], some 0⟩] ∧
      p.units.flatMap PrintUnit.members = p.segmentIds ∧
      ∃ l ∈ p.layers, (∀ s ∈ l.segments, s.printMoves = 0) ∧
        ∃ first rest, l.segments = first :: rest ∧
          p.units.filter (fun u => u.anchor.layer == l.index) =
            [⟨first.id, l.segments.map Segment.id, first.tool⟩] := by
  intro p
  obtain ⟨hmembers, -, hsilent, -⟩ := units_tile ["; layer num/total_layer_count: 1/2", "T0", "T1",
    "G1 Z0.2 E1", "T0", "; layer num/total_layer_count: 2/2", "T1"] .lf
  have hlayer : ∃ l ∈ p.layers, ∀ s ∈ l.segments, s.printMoves = 0 := by decide +kernel
  obtain ⟨l, hl, hzero⟩ := hlayer
  exact ⟨by decide +kernel, hmembers, l, hl, hzero, hsilent l hl hzero⟩

end Program

end ToolBatching
