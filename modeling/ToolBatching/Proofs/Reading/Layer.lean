import ToolBatching.Proofs.Reading.LeadIn

namespace ToolBatching

namespace LayerDraft

theorem adds_append (d : LayerDraft) (line : ScannedLine) (h : d.segments ≠ []) :
    SegmentDraft.Adds line d.segments (d.append line).segments := by
  obtain ⟨last, rest, hsegments⟩ := List.exists_cons_of_ne_nil h
  have hlines : (last.append line).commands.isEmpty = false := by
    simp [SegmentDraft.append]
  rw [hsegments]
  cases hboundary : line.boundary with
  | none =>
      have hnext : (d.append line).segments = last.append line :: rest := by
        simp [append, hboundary, appendToSegment, observe, hsegments]
      rw [hnext]
      exact .inside hboundary
  | before =>
      by_cases hempty : last.commands.isEmpty = true
      · have hnext : (d.append line).segments =
            (SegmentDraft.start line.next.object line.before.machine #[]).append line :: rest := by
          simp [append, hboundary, startSegment, appendToSegment, observe, hsegments, hempty]
        rw [hnext]
        exact .replacing hboundary (last.isEmpty_commands_iff.mp hempty)
      · have hnext : (d.append line).segments =
            (SegmentDraft.start line.next.object line.before.machine #[]).append line ::
              last :: rest := by
          simp [append, hboundary, startSegment, appendToSegment, observe, hsegments, hempty]
        rw [hnext]
        exact .before hboundary fun hlast => hempty (last.isEmpty_commands_iff.mpr hlast)
  | after =>
      have hnext : (d.append line).segments =
          SegmentDraft.start line.next.object line.next.machine #[] ::
            last.append line :: rest := by
        simp [append, hboundary, startSegment, appendToSegment, observe, hsegments, hlines]
      rw [hnext]
      exact .after hboundary

theorem entry_append (d : LayerDraft) (line : ScannedLine) : (d.append line).entry = d.entry := by
  unfold append
  split <;> split <;> rfl

theorem closedSegments_cases (d : LayerDraft) :
    d.closedSegments = d.segments.reverse ∨
      ∃ last rest, d.segments = last :: rest ∧ last.lines = [] ∧
        d.closedSegments = rest.reverse := by
  unfold closedSegments
  split
  · rename_i last rest hsegments
    split
    · rename_i hempty
      exact Or.inr ⟨last, rest, hsegments, last.isEmpty_commands_iff.mp hempty, rfl⟩
    · rw [hsegments]
      exact Or.inl rfl
  · rename_i hsegments
    rw [hsegments]
    exact Or.inl rfl

theorem lines_closedSegments (d : LayerDraft) :
    d.closedSegments.flatMap SegmentDraft.lines = SegmentDraft.linesOf d.segments := by
  rcases d.closedSegments_cases with hclosed | ⟨last, rest, hsegments, hlast, hclosed⟩
  · rw [hclosed]
    rfl
  · rw [hclosed, hsegments, SegmentDraft.linesOf_cons, hlast, List.append_nil]
    rfl

theorem mem_of_mem_closedSegments {d : LayerDraft} {s : SegmentDraft}
    (h : s ∈ d.closedSegments) : s ∈ d.segments := by
  rcases d.closedSegments_cases with hclosed | ⟨last, rest, hsegments, -, hclosed⟩
  · rw [hclosed] at h
    exact List.mem_reverse.mp h
  · rw [hclosed] at h
    rw [hsegments]
    exact List.mem_cons_of_mem last (List.mem_reverse.mp h)

theorem mem_getLast?_of_mem_head?_closedSegments {d : LayerDraft} {s : SegmentDraft}
    (h : s ∈ d.closedSegments.head?) : s ∈ d.segments.getLast? := by
  rcases d.closedSegments_cases with hclosed | ⟨last, rest, hsegments, -, hclosed⟩
  · rwa [hclosed, List.head?_reverse] at h
  · rw [hclosed, List.head?_reverse] at h
    rw [hsegments, List.getLast?_cons, Option.mem_def.mp h]
    rfl

theorem chained_closedSegments {m : Machine} {d : LayerDraft}
    (h : Chained SegmentDraft.entry SegmentDraft.lines m d.segments.reverse) :
    Chained SegmentDraft.entry SegmentDraft.lines m d.closedSegments := by
  rcases d.closedSegments_cases with hclosed | ⟨last, rest, hsegments, -, hclosed⟩
  · rwa [hclosed]
  · rw [hsegments] at h
    rw [hclosed]
    exact (SegmentDraft.chained_cons_iff.mp h).1

theorem linesOf_eq_nil_of_isEmpty {d : LayerDraft} (h : d.isEmpty = true) :
    SegmentDraft.linesOf d.segments = [] := by
  simp only [isEmpty, List.all_eq_true, SegmentDraft.isEmpty_commands_iff] at h
  rw [SegmentDraft.linesOf, List.flatMap_eq_nil_iff]
  intro s hs
  exact h s (List.mem_reverse.mp hs)

theorem closedSegments_ne_nil {d : LayerDraft} (h : d.isEmpty = false) :
    d.closedSegments ≠ [] := by
  intro hnil
  have hlines := d.lines_closedSegments
  rw [hnil, List.flatMap_nil, eq_comm, SegmentDraft.linesOf, List.flatMap_eq_nil_iff] at hlines
  simp only [isEmpty, List.all_eq_false, SegmentDraft.isEmpty_commands_iff] at h
  obtain ⟨s, hs, hne⟩ := h
  exact hne (hlines s (List.mem_reverse.mpr hs))

variable (layer : Nat) (z : Float)

theorem map_id_number (ordinal start : Nat) (segments : List SegmentDraft) :
    (number layer z ordinal start segments).map Segment.id =
      (List.range' ordinal segments.length).map (SegmentId.mk layer) := by
  induction segments generalizing ordinal start with
  | nil => rfl
  | cons s rest ih =>
      rw [number, List.map_cons, ih, List.length_cons, List.range'_succ, List.map_cons]

theorem length_number (ordinal start : Nat) (segments : List SegmentDraft) :
    (number layer z ordinal start segments).length = segments.length := by
  simpa using congrArg List.length (map_id_number layer z ordinal start segments)

theorem commands_number (ordinal start : Nat) (segments : List SegmentDraft) :
    (number layer z ordinal start segments).flatMap Segment.commands =
      segments.flatMap SegmentDraft.lines := by
  induction segments generalizing ordinal start with
  | nil => rfl
  | cons s rest ih =>
      rw [number, List.flatMap_cons, ih, List.flatMap_cons]
      rfl

theorem chained_number {m : Machine} (ordinal start : Nat) {segments : List SegmentDraft}
    (h : Chained SegmentDraft.entry SegmentDraft.lines m segments) :
    Chained Segment.entry Segment.commands m (number layer z ordinal start segments) := by
  induction segments generalizing m ordinal start with
  | nil => trivial
  | cons s rest ih => exact ⟨h.1, ih _ _ h.2⟩

theorem exists_of_mem_number {ordinal start : Nat} {segments : List SegmentDraft} {s : Segment}
    (h : s ∈ number layer z ordinal start segments) :
    ∃ read ∈ segments, s.entry = read.entry ∧ s.commands = read.lines ∧ s.tool = read.tool ∧
      s.printMoves = read.printMoves ∧ s.object = read.object := by
  induction segments generalizing ordinal start with
  | nil => exact absurd h (by simp [number])
  | cons first rest ih =>
      rcases List.mem_cons.mp h with rfl | h
      · exact ⟨first, List.mem_cons_self, rfl, rfl, rfl, rfl, rfl⟩
      · obtain ⟨read, hread, hkept⟩ := ih h
        exact ⟨read, List.mem_cons_of_mem first hread, hkept⟩

theorem exists_of_mem_head?_number {ordinal start : Nat} {segments : List SegmentDraft}
    {s : Segment} (h : s ∈ (number layer z ordinal start segments).head?) :
    ∃ read ∈ segments.head?, s.entry = read.entry ∧ s.commands = read.lines ∧
      s.tool = read.tool := by
  cases segments with
  | nil => exact absurd h (by simp [number])
  | cons first rest =>
      obtain rfl := Option.some.inj h
      exact ⟨first, rfl, rfl, rfl, rfl⟩

end LayerDraft

namespace Layer

/-- What a layer at a place of a program, behind a machine state, records about its lines.
The tool of a segment that prints, and that of the first one, is active at some moment of
the segment. -/
structure Sound (place : Nat) (m : Machine) (l : Layer) : Prop where
  index : l.index = place
  entry : l.entry = m
  nonempty : l.segments ≠ []
  numbered : l.segments.map Segment.id =
    (List.range l.segments.length).map (SegmentId.mk place)
  chained : Chained Segment.entry Segment.commands m l.segments
  printed : ∀ s ∈ l.segments, 0 < s.printMoves → s.entry.Shows s.commands s.tool
  first : ∀ s ∈ l.segments.head?, s.entry.Shows s.commands s.tool

/-- Layers in a row behind a machine state, counted from `index`. -/
def AllSound : Nat → Machine → List Layer → Prop
  | _, _, [] => True
  | index, m, l :: rest => l.Sound index m ∧ AllSound (index + 1) (m.run l.commands) rest

theorem allSound_append_iff {index : Nat} {m : Machine} {xs ys : List Layer} :
    AllSound index m (xs ++ ys) ↔
      AllSound index m xs ∧ AllSound (index + xs.length) (m.run (xs.flatMap commands)) ys := by
  induction xs generalizing index m with
  | nil => simp [AllSound]
  | cons l xs ih =>
      simp only [List.cons_append, AllSound, ih, List.length_cons, List.flatMap_cons,
        Machine.run_append, and_assoc, Nat.add_comm xs.length 1, Nat.add_assoc]

end Layer

namespace LayerDraft

theorem commands_toLayer (d : LayerDraft) (index : Nat) (below : Option Float) :
    (d.toLayer index below).commands = SegmentDraft.linesOf d.segments := by
  rw [← lines_closedSegments]
  exact commands_number index (d.height below) 0 0 d.closedSegments

theorem toLayer_sound {m : Machine} {d : LayerDraft} (hentry : d.entry = m)
    (hclosable : SegmentDraft.Closable m d.segments) (hlines : d.isEmpty = false) (index : Nat)
    (below : Option Float) : (d.toLayer index below).Sound index m where
  index := rfl
  entry := hentry
  nonempty := by
    intro hnil
    have hlength := length_number index (d.height below) 0 0 d.closedSegments
    rw [show number index (d.height below) 0 0 d.closedSegments = [] from hnil] at hlength
    exact closedSegments_ne_nil hlines (List.length_eq_zero_iff.mp hlength.symm)
  numbered := by
    have hids := map_id_number index (d.height below) 0 0 d.closedSegments
    rw [← length_number index (d.height below) 0 0, ← List.range_eq_range'] at hids
    exact hids
  chained := chained_number index (d.height below) 0 0 (chained_closedSegments hclosable.chained)
  printed := by
    intro s hs hpos
    obtain ⟨read, hread, hentry, hcommands, htool, hmoves, -⟩ := exists_of_mem_number _ _ hs
    rw [hentry, hcommands, htool]
    exact hclosable.printed read (mem_of_mem_closedSegments hread) (hmoves ▸ hpos)
  first := by
    intro s hs
    obtain ⟨read, hread, hentry, hcommands, htool⟩ := exists_of_mem_head?_number _ _ hs
    rw [hentry, hcommands, htool]
    exact hclosable.first read (mem_getLast?_of_mem_head?_closedSegments hread)

end LayerDraft

end ToolBatching
