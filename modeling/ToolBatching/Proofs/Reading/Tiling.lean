import ToolBatching.Proofs.Reading.OwnedSegments

namespace ToolBatching

namespace Segment

/-- Segments in a row cover the places from one place of a layer to another. -/
def Tiles : Nat → Nat → List Segment → Prop
  | first, last, [] => first = last
  | first, last, s :: rest => s.start = first ∧ s.start < s.stop ∧ Tiles s.stop last rest

theorem tiles_append_iff {first last : Nat} {xs ys : List Segment} :
    Tiles first last (xs ++ ys) ↔ ∃ middle, Tiles first middle xs ∧ Tiles middle last ys := by
  induction xs generalizing first with
  | nil => simp [Tiles]
  | cons s xs ih =>
      simp only [List.cons_append, Tiles, ih]
      constructor
      · rintro ⟨hstart, hlt, middle, hxs, hys⟩
        exact ⟨middle, ⟨hstart, hlt, hxs⟩, hys⟩
      · rintro ⟨middle, ⟨hstart, hlt, hxs⟩, hys⟩
        exact ⟨hstart, hlt, middle, hxs, hys⟩

theorem Tiles.last_eq {first last : Nat} {segments : List Segment}
    (h : Tiles first last segments) : last = first + (segments.flatMap commands).length := by
  induction segments generalizing first with
  | nil => exact h.symm
  | cons s rest ih =>
      obtain ⟨hstart, -, hrest⟩ := h
      rw [ih hrest, stop, hstart, List.flatMap_cons, List.length_append, Nat.add_assoc]

theorem Tiles.commands_eq {last : Nat} {segments : List Segment} (h : Tiles 0 last segments)
    {s : Segment} (hs : s ∈ segments) :
    s.stop ≤ (segments.flatMap commands).length ∧
      s.commands = (segments.flatMap commands).extract s.start s.stop := by
  obtain ⟨front, back, rfl⟩ := List.append_of_mem hs
  obtain ⟨middle, hfront, hstart, -, -⟩ := tiles_append_iff.mp h
  have hplace : s.start = (front.flatMap commands).length := by
    rw [hstart, hfront.last_eq, Nat.zero_add]
  have hsplit : (front ++ s :: back).flatMap commands =
      front.flatMap commands ++ (s.commands ++ back.flatMap commands) := by
    rw [List.flatMap_append, List.flatMap_cons]
  rw [hsplit]
  constructor
  · rw [stop, hplace, List.length_append, List.length_append]
    omega
  · rw [List.extract_eq_take_drop, stop, Nat.add_sub_cancel_left, hplace, List.drop_left,
      List.take_left]

end Segment

namespace LayerDraft

theorem tiles_number (layer : Nat) (z : Float) (ordinal start : Nat)
    {segments : List SegmentDraft} (hfull : ∀ s ∈ segments, s.lines ≠ []) :
    Segment.Tiles start (start + (segments.flatMap SegmentDraft.lines).length)
      (number layer z ordinal start segments) := by
  induction segments generalizing ordinal start with
  | nil => rfl
  | cons s rest ih =>
      obtain ⟨hs, hrest⟩ := List.forall_mem_cons.mp hfull
      have hpos : 0 < s.lines.length := List.length_pos_iff.mpr hs
      refine ⟨rfl, ?_, ?_⟩
      · exact Nat.lt_add_of_pos_right hpos
      · rw [List.flatMap_cons, List.length_append, ← Nat.add_assoc]
        exact ih (ordinal + 1) (start + s.lines.length) hrest

theorem full_closedSegments {m : Machine} {d : LayerDraft}
    (h : SegmentDraft.Closable m d.segments) : ∀ s ∈ d.closedSegments, s.lines ≠ [] := by
  intro s hs
  unfold closedSegments at hs
  have hfull := h.full
  split at hs
  · rename_i last rest hsegments
    rw [hsegments, List.tail_cons] at hfull
    split at hs
    · exact hfull s (List.mem_reverse.mp hs)
    · rename_i hlast
      rcases List.mem_cons.mp (List.mem_reverse.mp hs) with rfl | hs
      · exact fun hnil => hlast (s.isEmpty_commands_iff.mpr hnil)
      · exact hfull s hs
  · exact absurd hs (by simp)

theorem tiles_toLayer {m : Machine} {d : LayerDraft} (h : SegmentDraft.Closable m d.segments)
    (index : Nat) (below : Option Float) :
    Segment.Tiles 0 (d.toLayer index below).commands.length (d.toLayer index below).segments := by
  have htiles := tiles_number index (d.height below) 0 0 (full_closedSegments h)
  rw [Nat.zero_add, lines_closedSegments, ← commands_toLayer d index below] at htiles
  exact htiles

end LayerDraft

namespace Layout

/-- The lines a lead-in is taken back from. -/
def sink (l : Layout) : List Command :=
  match l.current with
  | some d => SegmentDraft.linesOf d.segments
  | none => l.preamble.toList

theorem LeadBehind.length_le {l : Layout} {lead : LeadIn} (h : l.LeadBehind lead) :
    lead.length ≤ l.sink.length := by
  unfold LeadBehind at h
  unfold sink
  cases hcurrent : l.current with
  | none =>
      simp only [hcurrent] at h
      exact h.1
  | some d =>
      simp only [hcurrent] at h ⊢
      obtain ⟨newer, first, older, front, back, hsegments, hstands⟩ := h
      have hcount := hstands.count
      rw [hsegments, hstands.linesOf_eq]
      simp only [List.length_append]
      omega

/-- What every layer has that is closed from closable segments. -/
structure Closes (holds : Layer → Prop) : Prop where
  toLayer : ∀ (m : Machine) (d : LayerDraft) (index : Nat) (below : Option Float),
    SegmentDraft.Closable m d.segments → d.isEmpty = false → holds (d.toLayer index below)

section Layers

variable {holds : Layer → Prop} {seen : List Command} {l : Layout}

theorem Closing.forall_layers (h : Closing seen l) (hcloses : Closes holds)
    (hlayers : ∀ layer ∈ l.layers.toList, holds layer) :
    ∀ layer ∈ l.closeLayer.layers.toList, holds layer := by
  unfold Layout.closeLayer
  cases hcurrent : l.current with
  | none => exact hlayers
  | some d =>
      cases hempty : d.isEmpty with
      | true =>
          simp only [hempty, if_true]
          exact hlayers
      | false =>
          simp only [hempty, Bool.false_eq_true, if_false, Array.toList_push]
          rw [List.forall_mem_append, List.forall_mem_singleton]
          exact ⟨hlayers, hcloses.toLayer _ d _ _ (h.current d hcurrent).2 hempty⟩

theorem layers_takeBack (l : Layout) (object : Option String) (entry : Machine) (count : Nat) :
    (l.takeBack object entry count).1.layers = l.layers := by
  unfold takeBack
  split <;> rfl

theorem Sound.forall_layers_openAt (h : Sound seen l) (hopen : l.ending = none)
    (hleads : Leads False l) (hcloses : Closes holds) {line : ScannedLine}
    (hbefore : line.before.machine = Machine.run {} seen)
    (hlayers : ∀ layer ∈ l.layers.toList, holds layer) :
    ∀ layer ∈ (l.openAt line).layers.toList, holds layer := by
  rcases l.openAt_cases line with ⟨w, heq⟩ | ⟨lastNumber, topZ, openedZ, heq, -⟩
  · rw [heq, warn_eq]
    exact hlayers
  · obtain ⟨w, hintedZ, hopened⟩ := openLayer_eq { l with lastNumber, topZ } line openedZ
    have hnumbered : Sound seen { l with lastNumber, topZ } :=
      ⟨h.lines, h.layers, h.current, h.unopened, h.ended, h.ending⟩
    have hstands : ∀ lead ∈ l.leadIn, (Layout.warn { l with lastNumber, topZ } w).LeadBehind lead := by
      rw [warn_eq]
      exact hleads.stands
    obtain ⟨front, hclosing, -⟩ := (hnumbered.warn w).takeBack
      ((frame_warn { l with lastNumber, topZ } w).ending.trans hopen) hstands
      line.before.object hbefore rfl
    rw [heq, hopened]
    refine hclosing.forall_layers hcloses ?_
    rw [layers_takeBack, warn_eq]
    exact hlayers

theorem layers_append (l : Layout) (line : ScannedLine) : (l.append line).layers = l.layers := by
  unfold append
  rcases noteHeight_eq { l with leadIn := l.nextLeadIn line } line with
    ⟨-, pendingZ, hnote⟩ | ⟨d, hintedZ, pendingZ, -, hnote⟩
  · simp only [hnote]
    split <;> rfl
  · simp only [hnote]

theorem Sound.forall_layers_place (h : Sound seen l)
    (hleads : l.ending = none → Leads False l) (hcloses : Closes holds) {line : ScannedLine}
    (hbefore : line.before.machine = Machine.run {} seen)
    (hlayers : ∀ layer ∈ l.layers.toList, holds layer) :
    ∀ layer ∈ (l.place line).layers.toList, holds layer := by
  cases hending : l.ending with
  | some tail =>
      rw [place_of_ending_eq_some line hending]
      exact hlayers
  | none =>
      rcases place_of_ending_eq_none line hending with ⟨-, -, heq⟩ | ⟨-, heq⟩
      · rw [heq]
        exact (h.closing hending).forall_layers hcloses hlayers
      · rw [heq, layers_append]
        exact h.forall_layers_openAt hending (hleads hending) hcloses hbefore hlayers

theorem Reading.forall_layers_read (h : Reading seen l) (hcloses : Closes holds) (text : String)
    (hlayers : ∀ layer ∈ l.layers.toList, holds layer) :
    ∀ layer ∈ (l.read text).layers.toList, holds layer := by
  have hbefore := (reads_scan l.context l.line text h.machine).before
  unfold Layout.read push
  generalize l.context.scan l.line text = line at hbefore ⊢
  refine (h.sound.warn line.warning).forall_layers_place (fun hnone => ?_) hcloses hbefore ?_
  · exact (h.leads ((l.frame_warn line.warning).ending.symm.trans hnone)).warn _
  · rw [warn_eq]
    exact hlayers

theorem Reading.forall_layers_foldl (h : Reading seen l) (hcloses : Closes holds)
    (lines : List String) (hlayers : ∀ layer ∈ l.layers.toList, holds layer) :
    ∀ layer ∈ (lines.foldl Layout.read l).layers.toList, holds layer := by
  induction lines generalizing seen l with
  | nil => exact hlayers
  | cons text lines ih =>
      rw [List.foldl_cons]
      exact ih (h.read text) (h.forall_layers_read hcloses text hlayers)

theorem Reading.forall_layers_finish (h : Reading seen l) (hcloses : Closes holds)
    (lineEnding : LineEnding) (hlayers : ∀ layer ∈ l.layers.toList, holds layer) :
    ∀ layer ∈ (l.finish lineEnding).layers, holds layer := by
  rw [layers_finish]
  cases hending : l.ending with
  | none => exact (h.sound.closing hending).forall_layers hcloses hlayers
  | some tail =>
      rw [closeLayer_eq_self (h.sound.ended (by rw [hending]; simp))]
      exact hlayers

end Layers

end Layout

namespace Command

/-- A line as a command, whether or not it belongs to a tool-change sequence. -/
def untagged (c : Command) : Command :=
  { c with inToolChange := false }

end Command

theorem Context.untagged_scan (ctx : Context) (n : Nat) (text : String) :
    (ctx.scan n text).command.untagged = Command.parse n text := by
  rw [command_scan]
  simp only [Command.untagged, Command.parse, Command.ofText]

theorem untagged_scanLines (ctx : Context) (start : Nat) (lines : List String) :
    (scanLines ctx start lines).map (fun line => line.command.untagged) =
      lines.mapIdx fun i text => Command.parse (start + i) text := by
  induction lines generalizing ctx start with
  | nil => rfl
  | cons text rest ih =>
      rw [scanLines, List.map_cons, ih, ctx.untagged_scan, List.mapIdx_cons]
      simp only [Nat.add_zero, Nat.add_assoc, Nat.add_comm 1]

namespace Program

theorem forall_layers_ofLines {holds : Layer → Prop} (hcloses : Layout.Closes holds)
    (lines : List String) (lineEnding : LineEnding) :
    ∀ layer ∈ (ofLines lines lineEnding).layers, holds layer := by
  have hstart :=
    Layout.reading_start (if Marker.anyLayer lines then .markers else .zHeight)
  rw [ofLines]
  exact (hstart.foldl lines).forall_layers_finish hcloses lineEnding
    (hstart.forall_layers_foldl hcloses lines (by simp))

theorem tiles_of_mem_layers (lines : List String) (lineEnding : LineEnding) {l : Layer}
    (hl : l ∈ (ofLines lines lineEnding).layers) :
    Segment.Tiles 0 l.commands.length l.segments := by
  have hcloses : Layout.Closes fun l => Segment.Tiles 0 l.commands.length l.segments :=
    ⟨fun m d index below hclosable _ => LayerDraft.tiles_toLayer hclosable index below⟩
  exact forall_layers_ofLines hcloses lines lineEnding l hl

/-- The preamble, the layers and the end sequence hold the lines of a program one by one.
The segments of a layer are named by their places and tile its commands, their names
lead back to them, and whatever lead-in a line may take back is there. -/
theorem ofLines_tiled (lines : List String) (lineEnding : LineEnding) :
    (ofLines lines lineEnding).commands.map Command.untagged = lines.mapIdx Command.parse ∧
      (∀ k l, (ofLines lines lineEnding).layers[k]? = some l →
        l.index = k + 1 ∧ (ofLines lines lineEnding).layer? (k + 1) = some l ∧
          l.segments ≠ [] ∧
          l.segments.map Segment.id =
            (List.range l.segments.length).map (SegmentId.mk (k + 1)) ∧
          Segment.Tiles 0 l.commands.length l.segments ∧
          ∀ s ∈ l.segments, (ofLines lines lineEnding).segment? s.id = some s ∧
            s.stop ≤ l.commands.length ∧ s.commands = l.commands.extract s.start s.stop) ∧
      ∀ front, front <+: lines → ∀ layout,
        front.foldl Layout.read { detection := (ofLines lines lineEnding).detection } = layout →
          layout.ending = none → ∀ lead ∈ layout.leadIn, lead.length ≤ layout.sink.length := by
  have hread := read_ofLines lines lineEnding
  refine ⟨?_, ?_, ?_⟩
  · rw [hread.commands, List.map_map]
    exact (untagged_scanLines {} 0 lines).trans (by simp)
  · intro k l hl
    have hmem : l ∈ (ofLines lines lineEnding).layers := List.mem_of_getElem? hl
    have htiles := tiles_of_mem_layers lines lineEnding hmem
    obtain ⟨m, hsound⟩ := hread.layers.getElem? hl
    rw [Nat.add_comm] at hsound
    have hlayer := hread.layer?_eq_some hl
    rw [hsound.index] at hlayer
    refine ⟨hsound.index, hlayer, hsound.nonempty, hsound.numbered, htiles, fun s hs => ?_⟩
    exact ⟨hread.segment?_id (List.mem_flatMap.mpr ⟨l, hmem, hs⟩), htiles.commands_eq hs⟩
  · rintro front - layout rfl hopen lead hlead
    have hreading := (Layout.reading_start (ofLines lines lineEnding).detection).foldl front
    exact ((hreading.leads hopen).stands lead hlead).length_le

end Program

end ToolBatching
