import ToolBatching.Proofs.Reading.Entries
import ToolBatching.Proofs.Reading.Heights
import ToolBatching.Proofs.Reading.OwnedSegments

namespace ToolBatching

namespace Command

/-- The object open behind a command, given the one open in front of it. -/
def objectBehind (object : Option String) (c : Command) : Option String :=
  match Marker.ofCommand c with
  | some (.objectStart label) => some label
  | some (.objectStop _) => none
  | _ => object

/-- The object a command stands in, given the one open in front of it. -/
def objectAround (object : Option String) (c : Command) : Option String :=
  match Marker.ofCommand c with
  | some (.objectStart label) => some label
  | _ => object

theorem objectBehind_tagged (object : Option String) (c : Command) (tag : Bool) :
    objectBehind object { c with inToolChange := tag } = objectBehind object c := by
  rw [objectBehind, Marker.ofCommand_tagged]
  rfl

end Command

/-- The object open in front of the line with an index. -/
def objectAt (lines : List String) (n : Nat) : Option String :=
  ((lines.mapIdx Command.parse).take n).foldl Command.objectBehind none

namespace Context

variable (ctx : Context) (n : Nat) (text : String)

theorem object_scan :
    (ctx.scan n text).next.object = (ctx.scan n text).command.objectBehind ctx.object := by
  rw [command_scan, Command.objectBehind_tagged]
  simp only [scan, advance]
  generalize Command.parse n text = c
  rfl

theorem boundary_scan :
    (ctx.scan n text).boundary =
      ctx.boundaryOf (Marker.ofCommand (ctx.scan n text).command) (ctx.scan n text).opens := by
  rw [command_scan, Marker.ofCommand_tagged]
  simp only [scan]

end Context

/-- How a line that splits its segment, or does not, stands to the objects around it. -/
structure ScannedLine.Bounds (line : ScannedLine) : Prop where
  inside : line.boundary = .none →
    line.command.objectAround line.before.object = line.before.object ∧
      line.next.object = line.before.object
  before : line.boundary = .before →
    line.command.objectAround line.before.object = line.next.object
  after : line.boundary = .after →
    line.command.objectAround line.before.object = line.before.object

theorem Context.bounds_scan (ctx : Context) (n : Nat) (text : String) :
    (ctx.scan n text).Bounds := by
  have hboundary := ctx.boundary_scan n text
  have hnext := ctx.object_scan n text
  have hbefore := ctx.before_scan n text
  generalize ctx.scan n text = line at hboundary hnext hbefore ⊢
  subst hbefore
  unfold boundaryOf at hboundary
  rw [Command.objectBehind] at hnext
  have haround : line.command.objectAround line.before.object =
      match Marker.ofCommand line.command with
      | some (.objectStart label) => some label
      | _ => line.before.object := rfl
  rcases hmarker : Marker.ofCommand line.command with _ | marker
  · rw [hmarker] at hboundary hnext haround
    exact ⟨fun _ => ⟨haround, hnext⟩, fun _ => haround.trans hnext.symm, fun _ => haround⟩
  · rw [hmarker] at hboundary hnext haround
    cases marker with
    | objectStart label =>
        refine ⟨fun h => ?_, fun _ => haround.trans hnext.symm, fun h => ?_⟩ <;>
          exact absurd (hboundary.symm.trans h) (by simp)
    | objectStop label =>
        -- Only the stop of an open object splits behind its line.
        cases hobject : line.before.object with
        | none =>
            have hkept := hnext.trans hobject.symm
            exact ⟨fun _ => ⟨haround, hkept⟩, fun _ => haround.trans hkept.symm, fun _ => haround⟩
        | some label =>
            rw [hobject] at hboundary
            refine ⟨fun h => ?_, fun h => ?_, fun _ => haround⟩ <;>
              exact absurd (hboundary.symm.trans h) (by simp)
    | _ => exact ⟨fun _ => ⟨haround, hnext⟩, fun _ => haround.trans hnext.symm, fun _ => haround⟩

theorem object_of_mem_scanLines {ctx : Context} {start : Nat} {lines : List String}
    {line : ScannedLine} (h : line ∈ scanLines ctx start lines) :
    ∃ k, line.command.line = some (start + k) ∧
      line.before.object = ((lines.mapIdx fun i text => Command.parse (start + i) text).take
        k).foldl Command.objectBehind ctx.object := by
  induction lines generalizing ctx start with
  | nil => exact absurd h (by simp [scanLines])
  | cons text rest ih =>
      rw [scanLines] at h
      rcases List.mem_cons.mp h with rfl | h
      · exact ⟨0, ctx.line_scan start text, congrArg _ (ctx.before_scan start text)⟩
      · obtain ⟨k, hline, hobject⟩ := ih h
        refine ⟨k + 1, by rw [hline]; congr 1; omega, ?_⟩
        rw [hobject, ctx.object_scan, ctx.command_scan, Command.objectBehind_tagged,
          List.mapIdx_cons, List.take_succ_cons, List.foldl_cons]
        simp only [Nat.add_zero, Nat.add_assoc, Nat.add_comm 1]

namespace SegmentDraft

/-- All lines of a segment stand in its object, as far as `stands` says. -/
def StandsIn (stands : Command → Option String → Prop) (s : SegmentDraft) : Prop :=
  ∀ c ∈ s.lines, stands c s.object

variable {stands : Command → Option String → Prop}

theorem StandsIn.append {s : SegmentDraft} (h : s.StandsIn stands) {line : ScannedLine}
    (hline : stands line.command s.object) : (s.append line).StandsIn stands := by
  intro c hc
  rw [lines_append] at hc
  rcases List.mem_append.mp hc with hc | hc
  · exact h c hc
  · rw [List.mem_singleton.mp hc]
    exact hline

/-- One line stands in the object of the segment it is added to. -/
theorem standsIn_adds {line : ScannedLine} {segments next : List SegmentDraft}
    (hadds : Adds line segments next) (hbounds : line.Bounds)
    (hline : stands line.command (line.command.objectAround line.before.object))
    (h : ∀ s ∈ segments, s.StandsIn stands)
    (hnewest : ∀ s ∈ segments.head?, s.object = line.before.object) :
    (∀ s ∈ next, s.StandsIn stands) ∧ ∀ s ∈ next.head?, s.object = line.next.object := by
  have hfresh (object : Option String) (entry : Machine) :
      (start object entry #[]).StandsIn stands := fun c hc => absurd hc (by simp [lines_start])
  cases hadds with
  | @inside last rest hboundary =>
      obtain ⟨haround, hnext⟩ := hbounds.inside hboundary
      have hlast : last.object = line.before.object := hnewest last rfl
      rw [haround, ← hlast] at hline
      obtain ⟨hstands, hrest⟩ := List.forall_mem_cons.mp h
      refine ⟨List.forall_mem_cons.mpr ⟨hstands.append hline, hrest⟩, ?_⟩
      rintro s ⟨⟩
      exact hlast.trans hnext.symm
  | @replacing last rest hboundary _ =>
      rw [hbounds.before hboundary] at hline
      refine ⟨List.forall_mem_cons.mpr ⟨(hfresh _ _).append hline, (List.forall_mem_cons.mp h).2⟩,
        ?_⟩
      rintro s ⟨⟩
      rfl
  | @before last rest hboundary _ =>
      rw [hbounds.before hboundary] at hline
      refine ⟨List.forall_mem_cons.mpr ⟨(hfresh _ _).append hline, h⟩, ?_⟩
      rintro s ⟨⟩
      rfl
  | @after last rest hboundary =>
      have hlast : last.object = line.before.object := hnewest last rfl
      rw [hbounds.after hboundary, ← hlast] at hline
      obtain ⟨hstands, hrest⟩ := List.forall_mem_cons.mp h
      refine ⟨List.forall_mem_cons.mpr ⟨hfresh _ _,
        List.forall_mem_cons.mpr ⟨hstands.append hline, hrest⟩⟩, ?_⟩
      rintro s ⟨⟩
      rfl

end SegmentDraft

namespace Layout

/-- Behind layer markers the lines of every segment stand in its object, and the newest
segment has the object that is open. -/
structure Objects (stands : Command → Option String → Prop) (object : Option String)
    (l : Layout) : Prop where
  detection : l.detection = .markers
  layers : ∀ layer ∈ l.layers.toList, ∀ s ∈ layer.segments, ∀ c ∈ s.commands, stands c s.object
  current : ∀ d ∈ l.current, ∀ s ∈ d.segments, s.StandsIn stands
  newest : ∀ d ∈ l.current, ∀ s ∈ d.segments.head?, s.object = object

section Objects

variable {stands : Command → Option String → Prop} {object : Option String} {l : Layout}

theorem Objects.warn (h : Objects stands object l) (w : Option Warning) :
    Objects stands object (l.warn w) := by
  rw [warn_eq]
  exact ⟨h.detection, h.layers, h.current, h.newest⟩

theorem Objects.closeLayer (h : Objects stands object l) :
    ∀ layer ∈ l.closeLayer.layers.toList, ∀ s ∈ layer.segments, ∀ c ∈ s.commands,
      stands c s.object := by
  unfold Layout.closeLayer
  cases hd : l.current with
  | none => exact h.layers
  | some d =>
      by_cases hempty : d.isEmpty = true
      · simp only [hempty, if_true]
        exact h.layers
      · simp only [hempty, Bool.false_eq_true, if_false, Array.toList_push]
        rw [List.forall_mem_append, List.forall_mem_singleton]
        refine ⟨h.layers, fun s hs c hc => ?_⟩
        obtain ⟨read, hread, -, hcommands, -, -, hobject⟩ := LayerDraft.exists_of_mem_number _ _ hs
        rw [hobject]
        rw [hcommands] at hc
        exact h.current d hd read (LayerDraft.mem_of_mem_closedSegments hread) c hc

theorem Objects.openLayer (h : Objects stands object l) (hlead : l.leadIn = none)
    {line : ScannedLine} (hobject : line.before.object = object) :
    Objects stands object (l.openLayer line none) := by
  obtain ⟨w, hintedZ, heq⟩ := l.openLayer_eq line none
  simp only [hlead, Option.map_none, Option.getD_none, takeBack_zero, List.isEmpty_nil,
    if_true] at heq
  have hwarned := h.warn w
  rw [heq]
  refine ⟨(frame_closeLayer (l.warn w)).detection.trans hwarned.detection, hwarned.closeLayer,
    ?_, ?_⟩
  · rintro d ⟨⟩
    refine List.forall_mem_singleton.mpr fun c hc => ?_
    exact absurd hc (by simp [SegmentDraft.lines_start])
  · rintro d ⟨⟩ s ⟨⟩
    exact hobject

theorem Objects.openAt (h : Objects stands object l) (hlead : l.leadIn = none)
    {line : ScannedLine} (hobject : line.before.object = object) :
    Objects stands object (l.openAt line) := by
  rcases Rule.markers.openAt l line h.detection with ⟨⟨w, heq⟩, -⟩ |
    ⟨k, lastNumber, topZ, -, -, -, heq⟩
  · rw [heq]
    exact h.warn w
  · rw [heq]
    have hnumbered : Objects stands object { l with lastNumber, topZ } :=
      ⟨h.detection, h.layers, h.current, h.newest⟩
    exact hnumbered.openLayer hlead hobject

theorem Objects.append {line : ScannedLine} (h : Objects stands line.before.object l)
    {seen : List Command} (hsound : Sound seen l) (hbounds : line.Bounds)
    (hline : stands line.command (line.command.objectAround line.before.object)) :
    Objects stands line.next.object (l.append line) := by
  cases hcurrent : l.current with
  | none =>
      obtain ⟨pendingZ, heq⟩ := append_of_current_eq_none line hcurrent
      rw [heq]
      refine ⟨h.detection, h.layers, h.current, fun d hd => ?_⟩
      exact absurd (hcurrent.symm.trans hd) (by simp)
  | some d =>
      obtain ⟨-, hstack⟩ := hsound.current d hcurrent
      obtain ⟨next, pendingZ, heq, -, hadds⟩ :=
        append_of_current_eq_some line hcurrent hstack.nonempty
      obtain ⟨hstands, hnewest⟩ := SegmentDraft.standsIn_adds hadds hbounds hline
        (h.current d hcurrent) (h.newest d hcurrent)
      rw [heq]
      refine ⟨h.detection, h.layers, ?_, ?_⟩
      · rintro d' ⟨⟩
        exact hstands
      · rintro d' ⟨⟩
        exact hnewest

theorem Objects.place {line : ScannedLine} (h : Objects stands line.before.object l)
    {seen : List Command} (hsound : Sound seen l) (hleads : l.ending = none → Leads False l)
    (hreads : Reads seen line) (hbounds : line.Bounds)
    (hline : stands line.command (line.command.objectAround line.before.object)) :
    Objects stands line.next.object (l.place line) := by
  cases hending : l.ending with
  | some tail =>
      have hnone : l.current = none := hsound.ended (by rw [hending]; simp)
      rw [place_of_ending_eq_some line hending]
      refine ⟨h.detection, h.layers, h.current, fun d hd => ?_⟩
      exact absurd (hnone.symm.trans hd) (by simp)
  | none =>
      rcases place_of_ending_eq_none line hending with ⟨-, -, heq⟩ | ⟨-, heq⟩
      · obtain ⟨hnone, -⟩ := (hsound.closing hending).closeLayer
        rw [heq]
        refine ⟨l.frame_closeLayer.detection.trans h.detection, h.closeLayer, ?_, ?_⟩ <;>
          exact fun d hd => absurd (hnone.symm.trans hd) (by simp)
      · obtain ⟨hopened, -⟩ :=
          hsound.openAt hending (hleads hending) hreads.before hreads.moves
        rw [heq]
        exact (h.openAt ((hleads hending).markers h.detection) rfl).append hopened hbounds hline

theorem Objects.read (h : Objects stands l.context.object l) {seen : List Command}
    (hreading : Reading seen l) (text : String)
    (hline : stands (l.context.scan l.line text).command
      ((l.context.scan l.line text).command.objectAround
        (l.context.scan l.line text).before.object)) :
    Objects stands (l.read text).context.object (l.read text) := by
  have hreads := reads_scan l.context l.line text hreading.machine
  have hbounds := l.context.bounds_scan l.line text
  rw [← l.context.before_scan l.line text] at h
  unfold Layout.read push
  generalize l.context.scan l.line text = line at h hreads hbounds hline ⊢
  have hplaced := (h.warn line.warning).place (hreading.sound.warn _)
    (fun hnone => (hreading.leads ((l.frame_warn line.warning).ending.symm.trans hnone)).warn _)
    hreads hbounds hline
  exact ⟨hplaced.detection, hplaced.layers, hplaced.current, hplaced.newest⟩

theorem Objects.foldl (h : Objects stands l.context.object l) {seen : List Command}
    (hreading : Reading seen l) {lines : List String}
    (hlines : ∀ line ∈ scanLines l.context l.line lines,
      stands line.command (line.command.objectAround line.before.object)) :
    Objects stands (lines.foldl Layout.read l).context.object (lines.foldl Layout.read l) := by
  induction lines generalizing seen l with
  | nil => exact h
  | cons text lines ih =>
      rw [scanLines] at hlines
      obtain ⟨hline, hlines⟩ := List.forall_mem_cons.mp hlines
      rw [List.foldl_cons]
      refine ih (h.read hreading text hline) (hreading.read text) ?_
      rwa [context_read, line_read]

end Objects

end Layout

namespace Program

/-- In a replay of the file every print move of a segment is made with the tool of the
segment, and behind layer markers all its lines stand in the object of the segment. -/
theorem ofLines_uniform (lines : List String) (lineEnding : LineEnding) :
    (∀ s ∈ (ofLines lines lineEnding).segments, ∀ c ∈ s.commands, ∃ n, c.line = some n ∧
      ((stateAt lines n).prints c = true → (stateAt lines n).tool = s.tool)) ∧
    ((ofLines lines lineEnding).detection = .markers →
      ∀ s ∈ (ofLines lines lineEnding).segments, ∀ c ∈ s.commands, ∃ n, c.line = some n ∧
        c.objectAround (objectAt lines n) = s.object) := by
  constructor
  · intro s hs c hc
    obtain ⟨front, back, hcommands⟩ := List.append_of_mem hc
    have hread := read_ofLines lines lineEnding
    obtain ⟨n, hn, hstate⟩ :=
      hread.stateAt_of_mem hread.chained (commands_segments _) hs hcommands
    have howned := (owned_of_mem_ofLines hs).tool
    rw [hcommands] at howned
    refine ⟨n, hn, ?_⟩
    rw [← hstate]
    exact howned.tool
  · intro hmarkers s hs c hc
    rw [detection_ofLines] at hmarkers
    obtain ⟨l, hl, hs⟩ := List.mem_flatMap.mp hs
    rw [ofLines, hmarkers, Layout.layers_finish] at hl
    have hstart : Layout.Objects (fun c object => ∃ n, c.line = some n ∧
        c.objectAround (objectAt lines n) = object) none { detection := .markers } :=
      ⟨rfl, by simp, by simp, by simp⟩
    refine (hstart.foldl (Layout.reading_start .markers) fun line hline => ?_).closeLayer l hl s hs
      c hc
    obtain ⟨n, hn, hobject⟩ := object_of_mem_scanLines hline
    simp only [Nat.zero_add] at hn hobject
    exact ⟨n, hn, by rw [hobject]; rfl⟩

end Program

end ToolBatching
