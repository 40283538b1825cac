import ToolBatching.Proofs.Reading.Line

namespace ToolBatching

namespace SegmentId

theorem lt_iff {a b : SegmentId} :
    a < b ↔ a.layer < b.layer ∨ (a.layer = b.layer ∧ a.ordinal < b.ordinal) :=
  Iff.rfl

theorem lt_trans {a b c : SegmentId} (hab : a < b) (hbc : b < c) : a < c := by
  rw [lt_iff] at hab hbc ⊢
  omega

theorem not_lt_self (a : SegmentId) : ¬ a < a := by
  rw [lt_iff]
  omega

theorem ne_of_lt {a b : SegmentId} (h : a < b) : a ≠ b := by
  rintro rfl
  exact not_lt_self a h

theorem not_lt_of_lt {a b : SegmentId} (h : a < b) : ¬ b < a := by
  intro hba
  exact not_lt_self a (lt_trans h hba)

theorem layer_le_of_lt {a b : SegmentId} (h : a < b) : a.layer ≤ b.layer := by
  rw [lt_iff] at h
  omega

end SegmentId

namespace Layer

theorem Sound.id_of_getElem? {place : Nat} {m : Machine} {l : Layer} (h : l.Sound place m)
    {i : Nat} {s : Segment} (hs : l.segments[i]? = some s) : s.id = ⟨place, i⟩ := by
  have hid : (l.segments.map Segment.id)[i]? = some s.id := by
    rw [List.getElem?_map, hs]
    rfl
  have hi : i < l.segments.length := (List.getElem?_eq_some_iff.mp hs).1
  rw [h.numbered, List.getElem?_map, List.getElem?_range hi] at hid
  exact (Option.some.inj hid).symm

theorem Sound.layer_of_mem {place : Nat} {m : Machine} {l : Layer} (h : l.Sound place m)
    {s : Segment} (hs : s ∈ l.segments) : s.id.layer = place := by
  obtain ⟨i, hi⟩ := List.getElem?_of_mem hs
  rw [h.id_of_getElem? hi]

theorem Sound.ids_pairwise {place : Nat} {m : Machine} {l : Layer} (h : l.Sound place m) :
    (l.segments.map Segment.id).Pairwise (· < ·) := by
  rw [h.numbered, List.pairwise_map]
  refine List.pairwise_lt_range.imp fun hij => ?_
  exact Or.inr ⟨rfl, hij⟩

theorem AllSound.getElem? {place : Nat} {m : Machine} {layers : List Layer}
    (h : AllSound place m layers) {i : Nat} {l : Layer} (hl : layers[i]? = some l) :
    ∃ m', l.Sound (place + i) m' := by
  induction layers generalizing place m i with
  | nil => exact absurd hl (by simp)
  | cons first rest ih =>
      obtain ⟨hfirst, hrest⟩ := h
      cases i with
      | zero =>
          obtain rfl : first = l := by simpa using hl
          exact ⟨m, hfirst⟩
      | succ i =>
          obtain ⟨m', hsound⟩ := ih hrest (by simpa using hl)
          rw [Nat.add_assoc, Nat.add_comm 1 i] at hsound
          exact ⟨m', hsound⟩

theorem AllSound.of_mem {place : Nat} {m : Machine} {layers : List Layer}
    (h : AllSound place m layers) {l : Layer} (hl : l ∈ layers) : ∃ m', l.Sound l.index m' := by
  obtain ⟨i, hi⟩ := List.getElem?_of_mem hl
  obtain ⟨m', hsound⟩ := h.getElem? hi
  rw [← hsound.index] at hsound
  exact ⟨m', hsound⟩

theorem AllSound.chained {place : Nat} {m : Machine} {layers : List Layer}
    (h : AllSound place m layers) :
    Chained Segment.entry Segment.commands m (layers.flatMap segments) := by
  induction layers generalizing place m with
  | nil => trivial
  | cons first rest ih =>
      rw [List.flatMap_cons, Chained.append_iff]
      exact ⟨h.1.chained, ih h.2⟩

theorem AllSound.ids_pairwise {place : Nat} {m : Machine} {layers : List Layer}
    (h : AllSound place m layers) :
    ((layers.flatMap segments).map Segment.id).Pairwise (· < ·) ∧
      ∀ s ∈ layers.flatMap segments, place ≤ s.id.layer := by
  induction layers generalizing place m with
  | nil => simp
  | cons first rest ih =>
      obtain ⟨hfirst, hrest⟩ := h
      obtain ⟨hpairwise, hbound⟩ := ih hrest
      rw [List.flatMap_cons]
      constructor
      · rw [List.map_append, List.pairwise_append]
        refine ⟨hfirst.ids_pairwise, hpairwise, fun a ha b hb => ?_⟩
        obtain ⟨s, hs, rfl⟩ := List.mem_map.mp ha
        obtain ⟨t, ht, rfl⟩ := List.mem_map.mp hb
        have hlayer := hfirst.layer_of_mem hs
        have hafter := hbound t ht
        exact Or.inl (by omega)
      · intro s hs
        rcases List.mem_append.mp hs with hs | hs
        · exact Nat.le_of_eq (hfirst.layer_of_mem hs).symm
        · have := hbound s hs
          omega

end Layer

namespace Program

/-- What a program records about the lines it was read from. -/
structure Read (lines : List Command) (p : Program) : Prop where
  commands : p.commands = lines
  layers : Layer.AllSound 1 p.preambleState p.layers
  preambleState : p.preambleState = Machine.run {} p.preamble
  exit : p.exit = Machine.run {} (p.preamble ++ p.bodyCommands)

theorem read_of_layers {lines : List Command} {p : Program} (hcommands : p.commands = lines)
    (hlayers : Layer.AllSound 1 (Machine.run {} p.preamble) p.layers)
    (hexit : p.exit = Machine.run {} (p.preamble ++ p.bodyCommands)) : Read lines p := by
  have hstate : p.preambleState = Machine.run {} p.preamble := by
    unfold Program.preambleState
    cases hfirst : p.layers with
    | nil =>
        simp only
        rw [hexit, bodyCommands, hfirst, List.flatMap_nil, List.append_nil]
    | cons first rest =>
        rw [hfirst] at hlayers
        exact hlayers.1.entry
  exact ⟨hcommands, hstate ▸ hlayers, hstate, hexit⟩

theorem read_finish {seen : List Command} {l : Layout} (h : Layout.Reading seen l)
    (lineEnding : LineEnding) : Read seen (l.finish lineEnding) := by
  have hclosed : l.closeLayer.front ++ l.closeLayer.endingLines = seen ∧
      Layer.AllSound 1 (Machine.run {} l.closeLayer.preamble.toList)
        l.closeLayer.layers.toList ∧
      (l.closeLayer.ending.map EndSequence.entry).getD l.closeLayer.context.machine =
        Machine.run {} l.closeLayer.front := by
    cases hending : l.ending with
    | none =>
        obtain ⟨-, hfront, hlayers⟩ := (h.sound.closing hending).closeLayer
        have hstill := l.frame_closeLayer.ending.trans hending
        refine ⟨?_, hlayers, ?_⟩
        · rw [Layout.endingLines, hstill, hfront]
          exact List.append_nil seen
        · rw [hstill, hfront, l.context_closeLayer]
          exact h.machine
    | some tail =>
        have hnone : l.current = none := h.sound.ended (by rw [hending]; simp)
        have hlines := h.sound.lines
        rw [Layout.currentLines, hnone, Option.map_none, Option.getD_none,
          List.append_nil] at hlines
        rw [Layout.closeLayer_eq_self hnone]
        refine ⟨hlines, h.sound.layers, ?_⟩
        rw [hending]
        exact h.sound.ending tail hending
  obtain ⟨hlines, hlayers, hexit⟩ := hclosed
  unfold Layout.finish
  simp only
  rw [Layout.warn_eq]
  exact read_of_layers hlines hlayers hexit

theorem read_ofLines (lines : List String) (lineEnding : LineEnding) :
    Read ((scanLines {} 0 lines).map ScannedLine.command) (ofLines lines lineEnding) :=
  read_finish (Layout.reading_start _ |>.foldl lines) lineEnding

theorem commands_segments (p : Program) : p.segments.flatMap Segment.commands = p.bodyCommands := by
  rw [segments, List.flatMap_assoc]
  rfl

section Read

variable {lines : List Command} {p : Program}

theorem Read.chained (h : Read lines p) :
    Chained Segment.entry Segment.commands p.preambleState p.segments :=
  h.layers.chained

theorem Read.segmentIds_pairwise (h : Read lines p) : p.segmentIds.Pairwise (· < ·) :=
  h.layers.ids_pairwise.1

theorem Read.segmentIds_nodup (h : Read lines p) : p.segmentIds.Nodup :=
  h.segmentIds_pairwise.imp SegmentId.ne_of_lt

theorem Read.mem_of_mem_bodyCommands (h : Read lines p) {c : Command} (hc : c ∈ p.bodyCommands) :
    c ∈ lines := by
  rw [← h.commands, Program.commands]
  exact List.mem_append_left _ (List.mem_append_right _ hc)

theorem Read.mem_of_mem_preamble (h : Read lines p) {c : Command} (hc : c ∈ p.preamble) :
    c ∈ lines := by
  rw [← h.commands, Program.commands]
  exact List.mem_append_left _ (List.mem_append_left _ hc)

theorem Read.mem_of_mem_postamble (h : Read lines p) {c : Command} (hc : c ∈ p.postamble) :
    c ∈ lines := by
  rw [← h.commands, Program.commands]
  exact List.mem_append_right _ hc

theorem Read.layer?_eq_some (h : Read lines p) {i : Nat} {l : Layer} (hl : p.layers[i]? = some l) :
    p.layer? l.index = some l := by
  obtain ⟨m', hsound⟩ := h.layers.getElem? hl
  rw [hsound.index, layer?, if_neg (by omega), Nat.add_sub_cancel_left]
  exact hl

theorem Read.segment?_id (h : Read lines p) {s : Segment} (hs : s ∈ p.segments) :
    p.segment? s.id = some s := by
  obtain ⟨l, hl, hs⟩ := List.mem_flatMap.mp hs
  obtain ⟨i, hi⟩ := List.getElem?_of_mem hl
  obtain ⟨j, hj⟩ := List.getElem?_of_mem hs
  obtain ⟨m', hsound⟩ := h.layers.getElem? hi
  have hlayer := h.layer?_eq_some hi
  rw [hsound.index] at hlayer
  rw [hsound.id_of_getElem? hj, segment?, hlayer, Option.bind_some]
  exact hj

theorem Read.exists_of_mem_segmentIds (h : Read lines p) {id : SegmentId}
    (hid : id ∈ p.segmentIds) : ∃ s ∈ p.segments, s.id = id ∧ p.segment? id = some s := by
  obtain ⟨s, hs, rfl⟩ := List.mem_map.mp hid
  exact ⟨s, hs, rfl, h.segment?_id hs⟩

end Read

end Program

theorem exists_of_mem_scanLines {ctx : Context} {start : Nat} {lines : List String}
    {line : ScannedLine} (h : line ∈ scanLines ctx start lines) :
    ∃ (ctx' : Context) (n : Nat), ∃ text ∈ lines, line = ctx'.scan n text := by
  induction lines generalizing ctx start with
  | nil => exact absurd h (by simp [scanLines])
  | cons text rest ih =>
      rw [scanLines] at h
      rcases List.mem_cons.mp h with rfl | h
      · exact ⟨ctx, start, text, List.mem_cons_self, rfl⟩
      · obtain ⟨ctx', n, text', htext, rfl⟩ := ih h
        exact ⟨ctx', n, text', List.mem_cons_of_mem text htext, rfl⟩

theorem forall_scanLines (holds : ScannedLine → Prop) (ctx : Context) (start : Nat)
    (lines : List String)
    (h : ∀ (ctx : Context) (n : Nat) (text : String), holds (ctx.scan n text)) :
    ∀ line ∈ scanLines ctx start lines, holds line := by
  intro line hline
  obtain ⟨ctx', n, text, -, rfl⟩ := exists_of_mem_scanLines hline
  exact h ctx' n text

theorem map_line_scanLines (ctx : Context) (start : Nat) (lines : List String) :
    (scanLines ctx start lines).map (fun line => line.command.line) =
      (List.range' start lines.length).map some := by
  induction lines generalizing ctx start with
  | nil => rfl
  | cons text rest ih =>
      rw [scanLines, List.map_cons, ih, ctx.line_scan, List.length_cons, List.range'_succ,
        List.map_cons]

namespace Program

def readCommands (text : String) : List Command :=
  (scanLines {} 0 ((Text.lines text.toList).map String.ofList)).map ScannedLine.command

theorem read_ofText (text : String) : Read (readCommands text) (ofText text) :=
  read_ofLines ((Text.lines text.toList).map String.ofList) (LineEnding.ofText text.toList)

theorem tool_of_mem_readCommands (text : String) {c : Command} {t : Tool}
    (hc : c ∈ readCommands text) (ht : c.tool = some t) : c.inToolChange = true ∧ t < 10 := by
  obtain ⟨line, hline, rfl⟩ := List.mem_map.mp hc
  refine forall_scanLines (fun line => line.command.tool = some t →
    line.command.inToolChange = true ∧ t < 10) {} 0 _ (fun ctx n text h => ?_) line hline ht
  exact ⟨ctx.inToolChange_of_tool n text (by rw [h]; rfl), ctx.tool_scan_lt n text h⟩

theorem map_line_readCommands (text : String) :
    (readCommands text).map Command.line =
      (List.range (readCommands text).length).map some := by
  have hlines := map_line_scanLines {} 0 ((Text.lines text.toList).map String.ofList)
  have hlength := congrArg List.length hlines
  rw [List.length_map, List.length_map, List.length_range'] at hlength
  rw [readCommands, List.map_map, List.length_map, hlength, List.range_eq_range']
  exact hlines

end Program

end ToolBatching
