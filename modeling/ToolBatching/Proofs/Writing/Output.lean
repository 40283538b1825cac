import ToolBatching.Proofs.Reading.Detection
import ToolBatching.Proofs.Writing.Blocks
import ToolBatching.Proofs.Writing.PlainText

namespace ToolBatching

namespace Marker

open Text

theorem numberOf_layerText {number total : Nat} (hnumber : number < 2 ^ 32)
    (htotal : total < 2 ^ 32) : numberOf ("; " ++ layerText number total) = some number := by
  rw [numberOf, ofCommand_layerText none hnumber htotal]

theorem ofCommand_heightText_cases (z : Float) :
    ofCommand (Command.ofText none ("; " ++ heightText z)) = none ∨
      ∃ r, ofCommand (Command.ofText none ("; " ++ heightText z)) = some (.zHeight r) := by
  cases hz : z.isFinite with
  | true =>
      obtain ⟨r, hr, -⟩ := @read_coordinate axisPlaces (by decide) (by decide) _ hz
      exact Or.inr ⟨r, ofCommand_heightText none hz hr⟩
  | false => exact Or.inl (ofCommand_heightText_of_not_isFinite none hz)

theorem numberOf_heightText (z : Float) : numberOf ("; " ++ heightText z) = none := by
  rcases ofCommand_heightText_cases z with hnone | ⟨r, hheight⟩
  · rw [numberOf, hnone]
  · rw [numberOf, hheight]

theorem numberOf_of_not_isLayer {raw : String} (h : isLayer (Command.ofText none raw) = false) :
    numberOf raw = none := by
  unfold isLayer at h
  unfold numberOf
  split
  · rename_i number total hmarker
    rw [hmarker] at h
    exact absurd h (by simp)
  · rfl

theorem numberOf_of_plain {raw : String} (h : Plain raw) : numberOf raw = none :=
  numberOf_of_not_isLayer (ofCommand_of_colon_notMem h.colon_notMem).1

end Marker

namespace Program

open Text

theorem isLine_of_mem_readCommands {text : String} {c : Command} (hc : c ∈ readCommands text) :
    IsLine c.raw.toList := by
  obtain ⟨line, hline, rfl⟩ := List.mem_map.mp hc
  obtain ⟨ctx, n, raw, hraw, rfl⟩ := exists_of_mem_scanLines hline
  obtain ⟨chars, hchars, rfl⟩ := List.mem_map.mp hraw
  rw [ctx.command_scan]
  change IsLine (String.ofList _).toList
  rw [String.toList_ofList, String.toList_ofList]
  exact isLine_dropEndWhile (feed_notMem_of_mem_lines hchars)

theorem exists_of_mem_readCommands {text : String} {c : Command} (hc : c ∈ readCommands text) :
    ∃ line tag, c = { Command.ofText line c.raw with inToolChange := tag } := by
  obtain ⟨line, hline, rfl⟩ := List.mem_map.mp hc
  obtain ⟨ctx, n, text, -, rfl⟩ := exists_of_mem_scanLines hline
  obtain ⟨raw, hparse, -⟩ := Command.exists_parse n text
  rw [ctx.command_scan, hparse]
  exact ⟨_, _, rfl⟩

theorem ofCommand_of_mem_readCommands {text : String} {c : Command} (hc : c ∈ readCommands text) :
    Marker.ofCommand c = Marker.ofCommand (Command.ofText none c.raw) := by
  obtain ⟨line, tag, heq⟩ := exists_of_mem_readCommands hc
  have htagged := (congrArg Marker.ofCommand heq).trans
    (Marker.ofCommand_tagged (Command.ofText line c.raw) line tag)
  rw [htagged, Marker.ofCommand_ofText]

theorem heightOf_of_mem_readCommands {text : String} {c : Command} (hc : c ∈ readCommands text) :
    Marker.heightOf c = Marker.heightOf (Command.ofText none c.raw) := by
  rw [Marker.heightOf, ofCommand_of_mem_readCommands hc]
  rfl

theorem idle_of_mem_readCommands {text : String} {c : Command} (hc : c ∈ readCommands text)
    (hcode : Command.codeOf c.raw = []) (m : Machine) : m.step c = m ∧ m.prints c = false := by
  obtain ⟨line, tag, heq⟩ := exists_of_mem_readCommands hc
  exact m.idle (Command.idle_of_codeOf_nil heq hcode)

theorem numberOf_of_keeps {text : String} {c : Command} (hc : c ∈ readCommands text)
    (h : Writer.keeps c = true) : Marker.numberOf c.raw = none := by
  simp only [Writer.keeps, Bool.and_eq_true, Bool.not_eq_true'] at h
  refine Marker.numberOf_of_not_isLayer ?_
  rw [Marker.isLayer, ← ofCommand_of_mem_readCommands hc]
  exact h.2

theorem Read.mem_of_mem_kept {lines : List Command} {p : Program} (h : Read lines p) {v : Visit}
    (hv : v.OfLayer p) {s : Segment} (hs : s ∈ v.segments) {c : Command} (hc : c ∈ s.kept) :
    c ∈ lines ∧ Writer.keeps c = true := by
  obtain ⟨hc, hkeeps⟩ := List.mem_filter.mp hc
  refine ⟨h.mem_of_mem_bodyCommands ?_, hkeeps⟩
  rw [← commands_segments]
  exact List.mem_flatMap.mpr ⟨s, hv.mem_segments hs, hc⟩

theorem of_holds (text : String) {plan : BodyPlan} {v : Visit} (hv : v.OfLayer (ofText text))
    {c : Command} (hc : Block.Holds plan v c) :
    Text.IsLine c.raw.toList ∧ Marker.numberOf c.raw = none := by
  rcases hc with hsurrounds | ⟨s, hs, hkept⟩
  · exact ⟨hsurrounds.plain.isLine, Marker.numberOf_of_plain hsurrounds.plain⟩
  · obtain ⟨hmem, hkeeps⟩ := (read_ofText text).mem_of_mem_kept hv hs hkept
    exact ⟨isLine_of_mem_readCommands hmem, numberOf_of_keeps hmem hkeeps⟩

/-- In front of all layers no line carries a layer marker, and the end sequence begins with
the marker that ends the print. -/
theorem ofLines_ends (lines : List String) (lineEnding : LineEnding) :
    (∀ c ∈ (ofLines lines lineEnding).preamble, Marker.numberOf c.raw = none) ∧
      ∀ c ∈ (ofLines lines lineEnding).postamble.head?,
        Marker.ofCommand (Command.ofText none c.raw) = some .endOfPrint := by
  obtain ⟨front, slices, tail, hcut, hfront⟩ : ∃ front slices tail,
      CutAt (scanLines {} 0 lines) front slices tail (ofLines lines lineEnding) ∧
        ∀ line ∈ front, line.layerNumber = none := by
    cases hlayer : Marker.anyLayer lines with
    | true =>
        obtain ⟨front, slices, tail, hcut⟩ := exists_cutBy Rule.markers lines lineEnding
          (if_pos hlayer)
        exact ⟨front, slices, tail, hcut.cutAt, hcut.cuts.outside⟩
    | false =>
        obtain ⟨front, slices, tail, hcut⟩ := exists_cutBy Rule.zHeight lines lineEnding
          (by rw [hlayer]; rfl)
        refine ⟨front, slices, tail, hcut.cutAt, fun line hline => ?_⟩
        have hmem : line ∈ scanLines {} 0 lines := by
          rw [← hcut.lines]
          exact List.mem_append_left _ (List.mem_append_left _ hline)
        exact layerNumber_eq_none hlayer line hmem
  have hscanned := hcut.lines
  constructor
  · intro c hc
    rw [hcut.preamble] at hc
    obtain ⟨line, hline, rfl⟩ := List.mem_map.mp hc
    have hmem : line ∈ scanLines {} 0 lines := by
      rw [← hscanned]
      exact List.mem_append_left _ (List.mem_append_left _ hline)
    rw [← ScannedLine.layerNumber_eq hmem]
    exact hfront line hline
  · intro c hc
    rw [hcut.postamble, List.head?_map] at hc
    obtain ⟨line, hline, rfl⟩ := Option.map_eq_some_iff.mp hc
    have hmem : line ∈ scanLines {} 0 lines := by
      rw [← hscanned]
      exact List.mem_append_right _ (List.mem_of_mem_head? hline)
    rw [← marker_eq_of_mem_scanLines hmem]
    exact hcut.begun line hline

theorem ofText_unlines (ending : LineEnding) {cs : List Command}
    (h : ∀ raw ∈ cs.map Command.raw, IsLine raw.toList) :
    ofText (Command.unlines ending cs) =
      ofLines (cs.map Command.raw) (LineEnding.ofText (Command.unlines ending cs).toList) := by
  have hlines : (lines (Command.unlines ending cs).toList).map String.ofList =
      cs.map Command.raw := by
    rw [Command.unlines, lines_unlines ending h, List.map_map]
    exact List.map_id'' (fun raw => String.ofList_toList) _
  rw [ofText, hlines]

end Program

end ToolBatching
