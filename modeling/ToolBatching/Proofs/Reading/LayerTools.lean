import ToolBatching.Proofs.Reading.Objects
import ToolBatching.Proofs.Reading.Votes

namespace ToolBatching

/-- A command that stops an object selects no tool. -/
def Command.StopsOnly (c : Command) : Prop :=
  ∀ label, Marker.ofCommand c = some (.objectStop label) → c.tool = none

/-- Unless an object stops at a select behind it, a layer has the tool that its print moves
elect, or else the one that is active behind it. -/
def Layer.Decided (l : Layer) : Prop :=
  (∀ c ∈ l.commands.getLast?, c.StopsOnly) →
    l.tool = ((LayerDraft.winner (l.entry.tally [] l.commands)).map Prod.fst).or
      (l.entry.run l.commands).tool

theorem Context.stop_of_boundary (ctx : Context) (n : Nat) (text : String)
    (h : (ctx.scan n text).boundary = .after) :
    ∃ label, Marker.ofCommand (ctx.scan n text).command = some (.objectStop label) := by
  rw [ctx.boundary_scan] at h
  generalize Marker.ofCommand (ctx.scan n text).command = marker at h ⊢
  unfold boundaryOf at h
  split at h
  · exact absurd h (by simp)
  · exact ⟨_, rfl⟩
  · split at h <;> exact absurd h (by simp)

namespace Machine

open LayerDraft

theorem mem_addVote {t : Tool} {votes : List (Tool × Nat)} {vote : Tool × Nat}
    (h : vote ∈ addVote t votes) : vote.1 = t ∨ ∃ old ∈ votes, old.1 = vote.1 := by
  have hkey : vote.1 ∈ (addVote t votes).map Prod.fst := List.mem_map_of_mem h
  rw [keys_addVote] at hkey
  split at hkey
  · exact Or.inr (List.mem_map.mp hkey)
  · rcases List.mem_append.mp hkey with hkey | hkey
    · exact Or.inr (List.mem_map.mp hkey)
    · exact Or.inl (List.mem_singleton.mp hkey)

theorem PrintsWith.mem_tally {tool : Option Tool} {m : Machine} {cs : List Command}
    (h : m.PrintsWith tool cs) {votes : List (Tool × Nat)}
    (hvotes : ∀ vote ∈ votes, some vote.1 = tool) :
    ∀ vote ∈ m.tally votes cs, some vote.1 = tool := by
  induction cs generalizing m votes with
  | nil => exact hvotes
  | cons c cs ih =>
      obtain ⟨hc, hcs⟩ := h
      rw [tally]
      refine ih hcs ?_
      split
      · rename_i t ht
        split
        · rename_i hprints
          rw [tool_step, tool_eq_none_of_prints hprints, Option.none_or, hc hprints] at ht
          intro vote hvote
          rcases mem_addVote hvote with hsame | ⟨old, hold, hsame⟩
          · rw [hsame, ht]
          · rw [← hsame]
            exact hvotes old hold
        · exact hvotes
      · exact hvotes

end Machine

theorem Layer.Decided.tool_eq {l : Layer} (h : l.Decided)
    (hstops : ∀ c ∈ l.commands.getLast?, c.StopsOnly) {tool : Option Tool}
    (hprints : l.entry.PrintsWith tool l.commands) (hbehind : (l.entry.run l.commands).tool = tool) :
    l.tool = tool := by
  rw [h hstops, hbehind]
  cases hwinner : LayerDraft.winner (l.entry.tally [] l.commands) with
  | none => rfl
  | some best => exact hprints.mem_tally (by simp) best (LayerDraft.winner_spec hwinner).1

namespace SegmentDraft

/-- The newest segment that has lines has a tool. -/
def EndsWith (tool : Option Tool) : List SegmentDraft → Prop
  | [] => True
  | last :: rest =>
      if last.commands.isEmpty = true then ∀ s ∈ rest.head?, s.tool = tool else last.tool = tool

theorem tool_append {s : SegmentDraft} {line : ScannedLine} (hline : line.Regular)
    (h : s.Follows line.before)
    (hselect : s.settled = true → line.before.sequence = none → line.command.tool = none) :
    (s.append line).tool = line.next.machine.tool := by
  cases hsettled : s.settled with
  | false => simp [SegmentDraft.append, hsettled]
  | true =>
      obtain ⟨hsequence, htool⟩ := h hsettled
      rw [hline.next, Machine.tool_step, hselect hsettled hsequence, Option.none_or, htool]
      simp [SegmentDraft.append, hsettled]

theorem endsWith_adds {line : ScannedLine} {segments next : List SegmentDraft}
    (hadds : Adds line segments next) (hline : line.Regular)
    (hstops : line.boundary = .after → line.command.tool = none)
    (hnewest : ∀ s ∈ segments.head?, s.Follows line.before) :
    EndsWith line.next.machine.tool next := by
  have hfull (s : SegmentDraft) : ¬ (s.append line).commands.isEmpty = true := by
    simp [SegmentDraft.append]
  have hfresh : ((start line.next.object line.before.machine #[]).append line).tool =
      line.next.machine.tool :=
    tool_append hline (follows_start _ _ _ _) fun h => absurd h (by simp [start])
  cases hadds with
  | @inside last rest hboundary =>
      rw [EndsWith, if_neg (hfull last)]
      exact tool_append hline (hnewest last rfl) fun _ hsequence =>
        (hline.inside hboundary hsequence).2
  | replacing _ _ =>
      rw [EndsWith, if_neg (hfull _)]
      exact hfresh
  | before _ _ =>
      rw [EndsWith, if_neg (hfull _)]
      exact hfresh
  | @after last rest hboundary =>
      have hempty : (start line.next.object line.next.machine #[]).commands.isEmpty = true := rfl
      rw [EndsWith, if_pos hempty]
      rintro s ⟨⟩
      exact tool_append hline (hnewest last rfl) fun _ _ => hstops hboundary

end SegmentDraft

namespace LayerDraft

theorem map_tool_number (layer : Nat) (z : Float) (ordinal start : Nat)
    (segments : List SegmentDraft) :
    (number layer z ordinal start segments).map Segment.tool = segments.map SegmentDraft.tool := by
  induction segments generalizing ordinal start with
  | nil => rfl
  | cons s rest ih => rw [number, List.map_cons, List.map_cons, ih]

/-- The newest segment of a layer that is being read has the tool that is active behind it. -/
def Ends (d : LayerDraft) : Prop :=
  (∀ c ∈ (SegmentDraft.linesOf d.segments).getLast?, c.StopsOnly) →
    SegmentDraft.EndsWith (d.entry.run (SegmentDraft.linesOf d.segments)).tool d.segments

theorem tool_getLast?_closedSegments {d : LayerDraft} {tool : Option Tool}
    (h : SegmentDraft.EndsWith tool d.segments) :
    ∀ t ∈ (d.closedSegments.map SegmentDraft.tool).getLast?, t = tool := by
  unfold closedSegments
  rw [List.getLast?_map]
  rintro t ht
  obtain ⟨s, hs, rfl⟩ := Option.map_eq_some_iff.mp ht
  cases hsegments : d.segments with
  | nil => simp [hsegments] at hs
  | cons last rest =>
      rw [hsegments, SegmentDraft.EndsWith] at h
      simp only [hsegments] at hs
      split at hs
      · rename_i hempty
        rw [if_pos hempty] at h
        rw [List.getLast?_reverse] at hs
        exact h s hs
      · rename_i hempty
        rw [if_neg hempty] at h
        rw [List.getLast?_reverse] at hs
        obtain rfl := Option.some.inj hs
        exact h

theorem decided_toLayer {d : LayerDraft} (htallied : d.Tallied) (hends : d.Ends)
    (hlines : d.isEmpty = false) (index : Nat) (below : Option Float) :
    (d.toLayer index below).Decided := by
  intro hstops
  have htool : (d.toLayer index below).tool = ((winner d.votes).map Prod.fst).or
      (((d.toLayer index below).segments.map Segment.tool).getLast?.join.or d.entry.tool) := by
    rw [List.getLast?_map]
    cases hlast : (d.toLayer index below).segments.getLast? <;>
      simp_all [toLayer]
  have hsegments : (d.toLayer index below).segments.map Segment.tool =
      d.closedSegments.map SegmentDraft.tool := map_tool_number _ _ 0 0 _
  have hne : d.closedSegments.map SegmentDraft.tool ≠ [] := by
    simpa using closedSegments_ne_nil hlines
  rw [commands_toLayer] at hstops ⊢
  have hlast := tool_getLast?_closedSegments (hends hstops)
  rw [List.getLast?_eq_getLast_of_ne_nil hne] at hlast
  rw [htool, hsegments, List.getLast?_eq_getLast_of_ne_nil hne, hlast _ rfl, htallied]
  have hentry : (d.toLayer index below).entry = d.entry := rfl
  rw [hentry, Option.join_some]
  congr 1
  rw [Machine.tool_run, Option.or_assoc, Option.or_self]

end LayerDraft

namespace Layout

/-- Behind layer markers the layers so far are decided, and the layer being read ends with the
tool that is active behind it. -/
structure Decides (l : Layout) : Prop where
  detection : l.detection = .markers
  layers : ∀ layer ∈ l.layers.toList, layer.Decided
  current : ∀ d ∈ l.current, d.Ends

section Decides

variable {l : Layout}

theorem Decides.warn (h : Decides l) (w : Option Warning) : Decides (l.warn w) := by
  rw [warn_eq]
  exact ⟨h.detection, h.layers, h.current⟩

theorem Decides.closeLayer (h : Decides l) (hvoted : Voted l) :
    ∀ layer ∈ l.closeLayer.layers.toList, layer.Decided := by
  unfold Layout.closeLayer
  cases hd : l.current with
  | none => exact h.layers
  | some d =>
      cases hempty : d.isEmpty with
      | true =>
          simp only [hempty, if_true]
          exact h.layers
      | false =>
          simp only [hempty, Bool.false_eq_true, if_false, Array.toList_push]
          rw [List.forall_mem_append, List.forall_mem_singleton]
          exact ⟨h.layers, LayerDraft.decided_toLayer (hvoted.current d hd) (h.current d hd)
            hempty _ _⟩

theorem Decides.openLayer (h : Decides l) (hvoted : Voted l) (hlead : l.leadIn = none)
    (line : ScannedLine) : Decides (l.openLayer line none) := by
  obtain ⟨w, hintedZ, heq⟩ := l.openLayer_eq line none
  simp only [hlead, Option.map_none, Option.getD_none, takeBack_zero, List.isEmpty_nil,
    if_true] at heq
  have hwarned := h.warn w
  rw [heq]
  refine ⟨(frame_closeLayer (l.warn w)).detection.trans hwarned.detection,
    hwarned.closeLayer (hvoted.warn w), ?_⟩
  rintro d ⟨⟩ -
  rw [SegmentDraft.EndsWith]
  split
  · simp
  · rfl

theorem Decides.openAt (h : Decides l) (hvoted : Voted l) (hlead : l.leadIn = none)
    (line : ScannedLine) : Decides (l.openAt line) := by
  rcases Rule.markers.openAt l line h.detection with ⟨⟨w, heq⟩, -⟩ |
    ⟨k, lastNumber, topZ, -, -, -, heq⟩
  · rw [heq]
    exact h.warn w
  · rw [heq]
    have hnumbered : Decides { l with lastNumber, topZ } := ⟨h.detection, h.layers, h.current⟩
    have hstill : Voted { l with lastNumber, topZ } :=
      ⟨hvoted.layers, hvoted.current, hvoted.leadIn⟩
    exact hnumbered.openLayer hstill hlead line

theorem Decides.append (h : Decides l) {seen : List Command} (hsound : Sound seen l)
    (hopen : l.ending = none) {line : ScannedLine} (hprints : Prints line.before l)
    (hreads : Reads seen line) (hline : line.Regular)
    (hstops : line.boundary = .after →
      ∃ label, Marker.ofCommand line.command = some (.objectStop label)) :
    Decides (l.append line) := by
  cases hcurrent : l.current with
  | none =>
      obtain ⟨pendingZ, heq⟩ := append_of_current_eq_none line hcurrent
      rw [heq]
      exact ⟨h.detection, h.layers, h.current⟩
  | some d =>
      obtain ⟨hentry, hstack⟩ := hsound.current d hcurrent
      obtain ⟨next, pendingZ, heq, hkept, hadds⟩ :=
        append_of_current_eq_some line hcurrent hstack.nonempty
      have hbefore := hreads.before_eq_run hsound hopen hcurrent
      rw [← hentry] at hbefore
      rw [heq]
      refine ⟨h.detection, h.layers, ?_⟩
      rintro d' ⟨⟩ hlast
      rw [hadds.linesOf, List.getLast?_concat] at hlast
      rw [hadds.linesOf, hkept, Machine.run_append, ← hbefore, Machine.run_cons, Machine.run_nil,
        ← hline.next]
      refine SegmentDraft.endsWith_adds hadds hline (fun hboundary => ?_)
        (hprints.newest d hcurrent)
      obtain ⟨label, hmarker⟩ := hstops hboundary
      exact hlast _ rfl label hmarker

theorem Decides.place (h : Decides l) (hvoted : Voted l) {seen : List Command}
    (hsound : Sound seen l) (hleads : l.ending = none → Leads False l) {line : ScannedLine}
    (hprints : Prints line.before l) (hreads : Reads seen line) (hline : line.Regular)
    (hstops : line.boundary = .after →
      ∃ label, Marker.ofCommand line.command = some (.objectStop label)) :
    Decides (l.place line) := by
  cases hending : l.ending with
  | some tail =>
      rw [place_of_ending_eq_some line hending]
      exact ⟨h.detection, h.layers, h.current⟩
  | none =>
      rcases place_of_ending_eq_none line hending with ⟨-, -, heq⟩ | ⟨-, heq⟩
      · obtain ⟨hnone, -⟩ := (hsound.closing hending).closeLayer
        rw [heq]
        refine ⟨l.frame_closeLayer.detection.trans h.detection, h.closeLayer hvoted, ?_⟩
        exact fun d hd => absurd (hnone.symm.trans hd) (by simp)
      · obtain ⟨hopened, -⟩ :=
          hsound.openAt hending (hleads hending) hreads.before hreads.moves
        have hstill := (l.frame_openAt line).ending.trans hending
        rw [heq]
        exact (h.openAt hvoted ((hleads hending).markers h.detection) line).append hopened hstill
          (hprints.openAt hending (hleads hending) line) hreads hline hstops

theorem Decides.read (h : Decides l) (hvoted : Voted l) {seen : List Command}
    (hreading : Reading seen l) (hprints : Prints l.context l) (text : String) :
    Decides (l.read text) := by
  have hreads := reads_scan l.context l.line text hreading.machine
  have hline := l.context.regular_scan l.line text
  have hstops := l.context.stop_of_boundary l.line text
  rw [← l.context.before_scan l.line text] at hprints
  unfold Layout.read push
  generalize l.context.scan l.line text = line at hprints hreads hline hstops ⊢
  have hplaced := (h.warn line.warning).place (hvoted.warn _) (hreading.sound.warn _)
    (fun hnone => (hreading.leads ((l.frame_warn line.warning).ending.symm.trans hnone)).warn _)
    (hprints.warn _) hreads hline hstops
  exact ⟨hplaced.detection, hplaced.layers, hplaced.current⟩

theorem Decides.foldl (h : Decides l) (hvoted : Voted l) {seen : List Command}
    (hreading : Reading seen l) (hprints : Prints l.context l) (lines : List String) :
    Decides (lines.foldl Layout.read l) := by
  induction lines generalizing seen l with
  | nil => exact h
  | cons text lines ih =>
      rw [List.foldl_cons]
      exact ih (h.read hvoted hreading hprints text) (hvoted.read hreading text)
        (hreading.read text) (hprints.read hreading text)

end Decides

end Layout

namespace Program

theorem decided_of_mem_ofLines {lines : List String} {lineEnding : LineEnding}
    (h : (ofLines lines lineEnding).detection = .markers) {l : Layer}
    (hl : l ∈ (ofLines lines lineEnding).layers) : l.Decided := by
  rw [detection_ofLines] at h
  rw [ofLines, h, Layout.layers_finish] at hl
  have hstart : Layout.Decides { detection := .markers } := ⟨rfl, by simp, by simp⟩
  have hvoted : Layout.Voted { detection := .markers } := ⟨by simp, by simp, by simp⟩
  have hreading := Layout.reading_start .markers
  exact (hstart.foldl hvoted hreading (Layout.prints_start _ _) lines).closeLayer
    (hvoted.foldl hreading lines) l hl

end Program

end ToolBatching
