import ToolBatching.Proofs.MarkerText
import ToolBatching.Proofs.Reading.Cuts

namespace ToolBatching

namespace Machine

/-- The last height stated in a comment, up to the first print move and on its line. -/
def heightAhead (m : Machine) : List Command → Option Float
  | [] => none
  | c :: rest =>
      if m.prints c then Marker.heightOf c
      else ((m.step c).heightAhead rest).or (Marker.heightOf c)

theorem heightAhead_append_singleton (m : Machine) (cs : List Command) (c : Command) :
    m.heightAhead (cs ++ [c]) =
      if m.printCount cs = 0 then (Marker.heightOf c).or (m.heightAhead cs)
      else m.heightAhead cs := by
  induction cs generalizing m with
  | nil => simp [heightAhead, printCount]
  | cons d cs ih =>
      rw [List.cons_append, heightAhead, heightAhead, printCount, ih]
      cases m.prints d with
      | true => simp
      | false =>
          simp only [Bool.false_eq_true, if_false, Nat.zero_add]
          split
          · rw [Option.or_assoc]
          · rfl

end Machine

theorem Context.marker_scan (ctx : Context) (n : Nat) (text : String) :
    (ctx.scan n text).marker = Marker.ofCommand (ctx.scan n text).command := by
  rw [command_scan]
  simp only [scan]
  exact (Marker.ofCommand_tagged _ _ _).symm

namespace LayerDraft

theorem heights_append (d : LayerDraft) (line : ScannedLine) :
    (d.append line).hintedZ = d.hintedZ ∧ (d.append line).printedZ =
      if line.isPrintMove then d.printedZ.or (some line.next.machine.z) else d.printedZ := by
  unfold append
  split <;> split <;> exact ⟨rfl, rfl⟩

/-- A layer that no move has opened knows the height stated in front of its first print move. -/
structure Hinted (d : LayerDraft) : Prop where
  openedZ : d.openedZ = none
  printedZ : d.printedZ = none ↔ d.entry.printCount (SegmentDraft.linesOf d.segments) = 0
  hintedZ : ∀ z ∈ d.entry.heightAhead (SegmentDraft.linesOf d.segments), d.hintedZ = some z

theorem Hinted.append {d : LayerDraft} (h : d.Hinted) (hne : d.segments ≠ [])
    {line : ScannedLine} {hintedZ : Option Float}
    (hbefore : line.before.machine = d.entry.run (SegmentDraft.linesOf d.segments))
    (hprints : line.isPrintMove = line.before.machine.prints line.command)
    (hnote : hintedZ =
      if d.printedZ.isNone then (Marker.heightOf line.command).or d.hintedZ else d.hintedZ) :
    Hinted ({ d with hintedZ }.append line) := by
  have hlines := (adds_append { d with hintedZ } line hne).linesOf
  have hentry : ({ d with hintedZ }.append line).entry = d.entry := entry_append _ line
  obtain ⟨hhinted, hprinted⟩ := heights_append { d with hintedZ } line
  refine ⟨(openedZ_append _ line).trans h.openedZ, ?_, ?_⟩
  · rw [hprinted, hlines, hentry, Machine.printCount_append, ← hbefore, Machine.printCount,
      Machine.printCount, ← hprints]
    have hcount := h.printedZ
    cases line.isPrintMove <;> simp_all
  · rw [hlines, hentry, hhinted, Machine.heightAhead_append_singleton, hnote]
    have hcount := h.printedZ
    by_cases hnone : d.printedZ = none
    · rw [if_pos (hcount.mp hnone), if_pos (by rw [hnone]; rfl)]
      cases Marker.heightOf line.command with
      | none => exact h.hintedZ
      | some z => simp
    · rw [if_neg fun hzero => hnone (hcount.mpr hzero),
        if_neg (by rw [Option.isNone_iff_eq_none]; exact hnone)]
      exact h.hintedZ

theorem Hinted.height {d : LayerDraft} (h : d.Hinted) (index : Nat) (below : Option Float) :
    ∀ z ∈ (d.toLayer index below).entry.heightAhead (d.toLayer index below).commands,
      (d.toLayer index below).z = z := by
  intro z hz
  rw [commands_toLayer] at hz
  have hhinted : d.hintedZ = some z := h.hintedZ z hz
  change d.height below = z
  simp [LayerDraft.height, h.openedZ, hhinted]

end LayerDraft

namespace Layout

/-- The layers of a layout have the heights stated in front of their first print moves. -/
structure Hints (l : Layout) : Prop where
  detection : l.detection = .markers
  current : ∀ d ∈ l.current, d.Hinted
  layers : ∀ layer ∈ l.layers.toList, ∀ z ∈ layer.entry.heightAhead layer.commands, layer.z = z

theorem append_eq_of_heightOf (l : Layout) {line : ScannedLine} {d : LayerDraft}
    (hmarker : line.marker = Marker.ofCommand line.command) (h : l.current = some d) :
    ∃ hintedZ pendingZ, l.append line =
        { l with leadIn := l.nextLeadIn line, pendingZ,
                 current := some ({ d with hintedZ }.append line) } ∧
      hintedZ =
        if d.printedZ.isNone then (Marker.heightOf line.command).or d.hintedZ else d.hintedZ := by
  unfold Marker.heightOf
  rw [← hmarker]
  unfold append noteHeight
  simp only [h]
  cases line.marker with
  | none => exact ⟨d.hintedZ, l.pendingZ, rfl, by simp⟩
  | some marker =>
      cases marker with
      | zHeight z =>
          cases hprinted : d.printedZ.isNone with
          | true => exact ⟨some z, l.pendingZ, by simp only [if_true], by simp⟩
          | false => exact ⟨d.hintedZ, some z, by simp, by simp⟩
      | _ => exact ⟨d.hintedZ, l.pendingZ, rfl, by simp⟩

section Hints

variable {l : Layout}

theorem Hints.warn (h : Hints l) (w : Option Warning) : Hints (l.warn w) := by
  rw [warn_eq]
  exact ⟨h.detection, h.current, h.layers⟩

theorem Hints.closeLayer (h : Hints l) :
    ∀ layer ∈ l.closeLayer.layers.toList, ∀ z ∈ layer.entry.heightAhead layer.commands,
      layer.z = z := by
  unfold Layout.closeLayer
  cases hcurrent : l.current with
  | none => exact h.layers
  | some d =>
      cases hempty : d.isEmpty with
      | true =>
          simp only [hempty, if_true]
          exact h.layers
      | false =>
          simp only [hempty, Bool.false_eq_true, if_false, Array.toList_push]
          rw [List.forall_mem_append, List.forall_mem_singleton]
          exact ⟨h.layers, (h.current d hcurrent).height _ _⟩

theorem Hints.openLayer (h : Hints l) (hlead : l.leadIn = none) (line : ScannedLine) :
    Hints (l.openLayer line none) := by
  obtain ⟨w, hintedZ, heq⟩ := l.openLayer_eq line none
  simp only [hlead, Option.map_none, Option.getD_none, takeBack_zero, List.isEmpty_nil,
    if_true] at heq
  have hwarned := h.warn w
  rw [heq]
  refine ⟨(frame_closeLayer (l.warn w)).detection.trans hwarned.detection, ?_,
    hwarned.closeLayer⟩
  intro d hd
  obtain rfl := Option.some.inj hd
  exact ⟨rfl, by simp [SegmentDraft.start, SegmentDraft.lines, Machine.printCount],
    by simp [SegmentDraft.start, SegmentDraft.lines, Machine.heightAhead]⟩

theorem Hints.openAt (h : Hints l) (hlead : l.leadIn = none) (line : ScannedLine) :
    Hints (l.openAt line) := by
  rcases Rule.markers.openAt l line h.detection with ⟨⟨w, heq⟩, -⟩ |
    ⟨k, lastNumber, topZ, -, -, -, heq⟩
  · rw [heq]
    exact h.warn w
  · rw [heq]
    have hnumbered : Hints { l with lastNumber, topZ } := ⟨h.detection, h.current, h.layers⟩
    exact hnumbered.openLayer hlead line

theorem Hints.append (h : Hints l) {seen : List Command} (hsound : Sound seen l)
    (hopen : l.ending = none) {line : ScannedLine} (hline : Reads seen line)
    (hmarker : line.marker = Marker.ofCommand line.command)
    (hprints : line.isPrintMove = line.before.machine.prints line.command) :
    Hints (l.append line) := by
  cases hcurrent : l.current with
  | none =>
      obtain ⟨pendingZ, heq⟩ := append_of_current_eq_none line hcurrent
      rw [heq]
      exact ⟨h.detection, h.current, h.layers⟩
  | some d =>
      obtain ⟨hintedZ, pendingZ, heq, hnote⟩ := l.append_eq_of_heightOf hmarker hcurrent
      obtain ⟨hentry, hstack⟩ := hsound.current d hcurrent
      have hbefore := hline.before_eq_run hsound hopen hcurrent
      rw [← hentry] at hbefore
      rw [heq]
      refine ⟨h.detection, ?_, h.layers⟩
      intro next hnext
      obtain rfl := Option.some.inj hnext
      exact (h.current d hcurrent).append hstack.nonempty hbefore hprints hnote

theorem Hints.place (h : Hints l) {seen : List Command} (hsound : Sound seen l)
    (hleads : l.ending = none → Leads False l) {line : ScannedLine} (hline : Reads seen line)
    (hmarker : line.marker = Marker.ofCommand line.command)
    (hprints : line.isPrintMove = line.before.machine.prints line.command) :
    Hints (l.place line) := by
  cases hending : l.ending with
  | some tail =>
      rw [place_of_ending_eq_some line hending]
      exact ⟨h.detection, h.current, h.layers⟩
  | none =>
      rcases place_of_ending_eq_none line hending with ⟨-, -, heq⟩ | ⟨-, heq⟩
      · obtain ⟨hnone, -⟩ := (hsound.closing hending).closeLayer
        rw [heq]
        refine ⟨l.frame_closeLayer.detection.trans h.detection, ?_, h.closeLayer⟩
        intro d hd
        exact absurd (hnone.symm.trans hd) (by simp)
      · rw [heq]
        obtain ⟨hopened, -⟩ := hsound.openAt hending (hleads hending) hline.before hline.moves
        exact (h.openAt ((hleads hending).markers h.detection) line).append hopened
          ((l.frame_openAt line).ending.trans hending) hline hmarker hprints

theorem Hints.read (h : Hints l) {seen : List Command} (hreading : Reading seen l) (text : String) :
    Hints (l.read text) := by
  have hline := reads_scan l.context l.line text hreading.machine
  have hmarker := l.context.marker_scan l.line text
  have hprints : (l.context.scan l.line text).isPrintMove =
      (l.context.scan l.line text).before.machine.prints (l.context.scan l.line text).command := by
    rw [Context.before_scan]
    exact l.context.isPrintMove_scan l.line text
  unfold Layout.read push
  generalize l.context.scan l.line text = line at hline hmarker hprints ⊢
  have hplaced := (h.warn line.warning).place (hreading.sound.warn line.warning)
    (fun hnone => (hreading.leads ((l.frame_warn line.warning).ending.symm.trans hnone)).warn _)
    hline hmarker hprints
  exact ⟨hplaced.detection, hplaced.current, hplaced.layers⟩

theorem Hints.foldl (h : Hints l) {seen : List Command} (hreading : Reading seen l)
    (lines : List String) : Hints (lines.foldl Layout.read l) := by
  induction lines generalizing seen l with
  | nil => exact h
  | cons text lines ih =>
      rw [List.foldl_cons]
      exact ih (h.read hreading text) (hreading.read text)

end Hints

end Layout

theorem Program.z_eq_of_heightAhead {lines : List String} {lineEnding : LineEnding}
    (h : (ofLines lines lineEnding).detection = .markers) {l : Layer}
    (hl : l ∈ (ofLines lines lineEnding).layers) {z : Float}
    (hz : l.entry.heightAhead l.commands = some z) : l.z = z := by
  rw [detection_ofLines] at h
  rw [ofLines, h, Layout.layers_finish] at hl
  have hreading := Layout.reading_start .markers
  have hstart : Layout.Hints { detection := .markers } := ⟨rfl, by simp, by simp⟩
  exact (hstart.foldl hreading lines).closeLayer l hl z hz

end ToolBatching
