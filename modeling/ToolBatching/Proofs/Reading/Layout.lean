import ToolBatching.Program.Layout
import ToolBatching.Proofs.Reading.Layer

namespace ToolBatching

namespace Layout

/-- Lines in front of the layer being read. -/
def front (l : Layout) : List Command :=
  l.preamble.toList ++ l.layers.toList.flatMap Layer.commands

def currentLines (l : Layout) : List Command :=
  (l.current.map fun d => SegmentDraft.linesOf d.segments).getD []

def endingLines (l : Layout) : List Command :=
  (l.ending.map fun tail => tail.commands.toList).getD []

/-- The parts of a layout hold the lines seen so far, each with the state in front of it. -/
structure Sound (seen : List Command) (l : Layout) : Prop where
  lines : l.front ++ l.currentLines ++ l.endingLines = seen
  layers : Layer.AllSound 1 (Machine.run {} l.preamble.toList) l.layers.toList
  current : ∀ d ∈ l.current, d.entry = Machine.run {} l.front ∧
    SegmentDraft.Stack (Machine.run {} l.front) d.segments
  unopened : l.current = none → l.ending = none → l.layers = #[]
  ended : l.ending ≠ none → l.current = none
  ending : ∀ tail ∈ l.ending, tail.entry = Machine.run {} l.front

/-- Where a lead-in stands: it ends the layer being read or, in front of all layers, the
preamble. -/
def LeadBehind (l : Layout) (lead : LeadIn) : Prop :=
  match l.current with
  | some d => SegmentDraft.EndsInLead (Machine.run {} l.front) lead.entry lead.length d.segments
  | none => lead.length ≤ l.preamble.size ∧
      lead.entry = Machine.run {} (l.preamble.toList.take (l.preamble.size - lead.length))

/-- Only layers told apart by height have lead-ins. Their first segment is settled as
long as it is the only one, up to a line to come that fixes it. -/
structure Leads (fixes : Prop) (l : Layout) : Prop where
  markers : l.detection = .markers → l.leadIn = none
  stands : ∀ lead ∈ l.leadIn, l.LeadBehind lead
  alone : l.detection = .zHeight → ∀ d ∈ l.current, ∀ s, d.segments = [s] →
    s.settled = true ∨ fixes

/-- A layout whose open layer may be closed. -/
structure Closing (seen : List Command) (l : Layout) : Prop where
  lines : l.front ++ l.currentLines = seen
  layers : Layer.AllSound 1 (Machine.run {} l.preamble.toList) l.layers.toList
  current : ∀ d ∈ l.current, d.entry = Machine.run {} l.front ∧
    SegmentDraft.Closable (Machine.run {} l.front) d.segments

theorem Sound.closing {seen : List Command} {l : Layout} (h : Sound seen l)
    (hopen : l.ending = none) : Closing seen l where
  lines := by
    have hlines := h.lines
    rwa [endingLines, hopen, Option.map_none, Option.getD_none, List.append_nil] at hlines
  layers := h.layers
  current := fun d hd => ⟨(h.current d hd).1, (h.current d hd).2.closable⟩

theorem Sound.preamble_eq {seen : List Command} {l : Layout} (h : Sound seen l)
    (hopen : l.ending = none) (hcurrent : l.current = none) : l.preamble.toList = seen := by
  have hlayers : l.layers = #[] := h.unopened hcurrent hopen
  have hlines := (h.closing hopen).lines
  rw [front, currentLines, hlayers, hcurrent] at hlines
  simpa using hlines

theorem Sound.front_append_linesOf {seen : List Command} {l : Layout} (h : Sound seen l)
    (hopen : l.ending = none) {d : LayerDraft} (hcurrent : l.current = some d) :
    l.front ++ SegmentDraft.linesOf d.segments = seen := by
  have hlines := (h.closing hopen).lines
  rwa [currentLines, hcurrent] at hlines

/-- A layout that agrees with another one outside the lines in front of the end sequence. -/
structure Frame (l next : Layout) : Prop where
  detection : next.detection = l.detection
  line : next.line = l.line
  ending : next.ending = l.ending

theorem Frame.trans {l next last : Layout} (h : Frame l next) (hnext : Frame next last) :
    Frame l last where
  detection := hnext.detection.trans h.detection
  line := hnext.line.trans h.line
  ending := hnext.ending.trans h.ending

theorem warn_eq (l : Layout) (w : Option Warning) :
    l.warn w = { l with warnings := (l.warn w).warnings } := by
  cases w <;> rfl

theorem frame_warn (l : Layout) (w : Option Warning) : Frame l (l.warn w) := by
  rw [warn_eq]
  exact ⟨rfl, rfl, rfl⟩

theorem Sound.warn {seen : List Command} {l : Layout} (h : Sound seen l) (w : Option Warning) :
    Sound seen (l.warn w) := by
  rw [warn_eq]
  exact ⟨h.lines, h.layers, h.current, h.unopened, h.ended, h.ending⟩

theorem Leads.warn {fixes : Prop} {l : Layout} (h : Leads fixes l) (w : Option Warning) :
    Leads fixes (l.warn w) := by
  rw [warn_eq]
  exact ⟨h.markers, h.stands, h.alone⟩

theorem frame_closeLayer (l : Layout) : Frame l l.closeLayer := by
  unfold closeLayer
  split
  · exact ⟨rfl, rfl, rfl⟩
  · split <;> exact ⟨rfl, rfl, rfl⟩

theorem context_closeLayer (l : Layout) : l.closeLayer.context = l.context := by
  unfold closeLayer
  split
  · rfl
  · split <;> rfl

theorem closeLayer_eq_self {l : Layout} (h : l.current = none) : l.closeLayer = l := by
  unfold closeLayer
  rw [h]

theorem Closing.closeLayer {seen : List Command} {l : Layout} (h : Closing seen l) :
    l.closeLayer.current = none ∧ l.closeLayer.front = seen ∧
      Layer.AllSound 1 (Machine.run {} l.closeLayer.preamble.toList)
        l.closeLayer.layers.toList := by
  have hlines := h.lines
  rw [currentLines] at hlines
  unfold Layout.closeLayer
  cases hcurrent : l.current with
  | none =>
      rw [hcurrent, Option.map_none, Option.getD_none, List.append_nil] at hlines
      exact ⟨hcurrent, hlines, h.layers⟩
  | some d =>
      obtain ⟨hentry, hclosable⟩ := h.current d hcurrent
      rw [hcurrent, Option.map_some, Option.getD_some] at hlines
      cases hempty : d.isEmpty with
      | true =>
          rw [LayerDraft.linesOf_eq_nil_of_isEmpty hempty, List.append_nil] at hlines
          simp only [hempty, if_true]
          exact ⟨trivial, hlines, h.layers⟩
      | false =>
          have hsound := LayerDraft.toLayer_sound hentry hclosable hempty (l.layers.size + 1)
            (l.layers.back?.map Layer.z)
          have hcommands := d.commands_toLayer (l.layers.size + 1) (l.layers.back?.map Layer.z)
          simp only [hempty, Bool.false_eq_true, if_false]
          refine ⟨trivial, ?_, ?_⟩
          · rw [front, Array.toList_push, List.flatMap_append, List.flatMap_singleton, hcommands,
              ← List.append_assoc]
            exact hlines
          · rw [Array.toList_push, Layer.allSound_append_iff]
            refine ⟨h.layers, ?_, trivial⟩
            rw [← Machine.run_append, Array.length_toList, Nat.add_comm]
            exact hsound

theorem frame_takeBack (l : Layout) (object : Option String) (entry : Machine) (count : Nat) :
    Frame l (l.takeBack object entry count).1 := by
  unfold takeBack
  split <;> exact ⟨rfl, rfl, rfl⟩

theorem Sound.takeBack_leadIn {seen : List Command} {l : Layout} (h : Sound seen l)
    (hopen : l.ending = none) {lead : LeadIn} (hlead : l.LeadBehind lead)
    (object : Option String) :
    ∃ front, Closing front (l.takeBack object lead.entry lead.length).1 ∧
      lead.entry = Machine.run {} front ∧
      ((l.takeBack object lead.entry lead.length).2 ≠ [] → SegmentDraft.Stack (Machine.run {} front)
        (l.takeBack object lead.entry lead.length).2.reverse) ∧
      front ++ SegmentDraft.linesOf (l.takeBack object lead.entry lead.length).2.reverse =
        seen := by
  unfold takeBack
  cases hcurrent : l.current with
  | some d =>
      obtain ⟨hentry, hstack⟩ := h.current d hcurrent
      simp only [LeadBehind, hcurrent] at hlead
      obtain ⟨kept, taken, hsplit, hclosable, htaken, hstart, htiled⟩ :=
        hstack.splitTail hlead object
      rw [← Machine.run_append] at htaken hstart
      simp only [hsplit]
      refine ⟨l.front ++ SegmentDraft.linesOf kept, ⟨rfl, h.layers, ?_⟩, hstart, fun _ => htaken,
        ?_⟩
      · intro d' hd'
        obtain rfl := Option.some.inj hd'
        exact ⟨hentry, hclosable⟩
      · rw [List.append_assoc, htiled]
        exact h.front_append_linesOf hopen hcurrent
  | none =>
      have hlayers : l.layers = #[] := h.unopened hcurrent hopen
      simp only [LeadBehind, hcurrent] at hlead
      obtain ⟨-, hentry⟩ := hlead
      have hpreamble := h.preamble_eq hopen hcurrent
      have hdrop : (l.preamble.drop (l.preamble.size - lead.length)).toList =
          l.preamble.toList.drop (l.preamble.size - lead.length) := by
        rw [Array.drop_eq_extract, Array.toList_extract, List.extract_eq_take_drop,
          List.take_of_length_le (by simp)]
      refine ⟨l.preamble.toList.take (l.preamble.size - lead.length), ⟨?_, ?_, ?_⟩, hentry, ?_, ?_⟩
      · simp [front, currentLines, hlayers]
      · simp [hlayers, Layer.AllSound]
      · simp
      · intro hne
        by_cases hzero : lead.length = 0
        · exact absurd (if_pos hzero) hne
        · simp only [if_neg hzero]
          rw [← hentry]
          exact SegmentDraft.stack_start object lead.entry _
      · rw [← hpreamble]
        by_cases hzero : lead.length = 0
        · simp only [if_pos hzero]
          rw [hzero, Nat.sub_zero, List.take_of_length_le (by simp)]
          exact List.append_nil _
        · simp only [if_neg hzero]
          rw [List.reverse_singleton, SegmentDraft.linesOf_cons, SegmentDraft.linesOf_nil,
            SegmentDraft.lines_start, hdrop, List.nil_append, List.take_append_drop]

theorem takeBack_zero (l : Layout) (object : Option String) (entry : Machine) :
    l.takeBack object entry 0 = (l, []) := by
  cases l with
  | mk detection line context preamble layers current ending warnings number top pending leadIn =>
      cases current with
      | none =>
          simp only [takeBack, Nat.sub_zero, if_true, Array.take_eq_extract, Array.extract_size]
      | some d => simp only [takeBack, SegmentDraft.splitTail_zero]

theorem Sound.takeBack {seen : List Command} {l : Layout} (h : Sound seen l)
    (hopen : l.ending = none) {lead : Option LeadIn} (hstands : ∀ x ∈ lead, l.LeadBehind x)
    (object : Option String) {before : Machine} (hbefore : before = Machine.run {} seen)
    {result : Layout × List SegmentDraft}
    (hresult : l.takeBack object ((lead.map LeadIn.entry).getD before)
      ((lead.map LeadIn.length).getD 0) = result) :
    ∃ front, Closing front result.1 ∧
      (lead.map LeadIn.entry).getD before = Machine.run {} front ∧
      (result.2 ≠ [] → SegmentDraft.Stack (Machine.run {} front) result.2.reverse) ∧
      front ++ SegmentDraft.linesOf result.2.reverse = seen := by
  subst hresult
  cases lead with
  | none =>
      rw [Option.map_none, Option.getD_none, Option.map_none, Option.getD_none, takeBack_zero]
      exact ⟨seen, h.closing hopen, hbefore, fun hne => absurd rfl hne, List.append_nil seen⟩
  | some lead => exact h.takeBack_leadIn hopen (hstands lead rfl) object

theorem openLayer_eq (l : Layout) (line : ScannedLine) (openedZ : Option Float) :
    ∃ w hintedZ, l.openLayer line openedZ =
      let entry := (l.leadIn.map LeadIn.entry).getD line.before.machine
      let result := (l.warn w).takeBack line.before.object entry
        ((l.leadIn.map LeadIn.length).getD 0)
      { result.1.closeLayer with
        leadIn := none
        pendingZ := none
        current := some
          { entry, openedZ, hintedZ
            printedZ := none
            commandedZ := none
            votes := []
            segments :=
              if result.2.isEmpty then [.start line.before.object entry #[]]
              else result.2.reverse } } := by
  unfold openLayer
  cases line.before.object with
  | none => exact ⟨none, _, rfl⟩
  | some label => exact ⟨some (.objectOpenAtLayerBoundary l.line label), _, rfl⟩

theorem frame_openLayer (l : Layout) (line : ScannedLine) (openedZ : Option Float) :
    Frame l (l.openLayer line openedZ) := by
  obtain ⟨w, hintedZ, heq⟩ := l.openLayer_eq line openedZ
  have htaken := (l.frame_warn w).trans (frame_takeBack (l.warn w) line.before.object
    ((l.leadIn.map LeadIn.entry).getD line.before.machine)
    ((l.leadIn.map LeadIn.length).getD 0))
  have hclosed := htaken.trans (frame_closeLayer _)
  rw [heq]
  exact ⟨hclosed.detection, hclosed.line, hclosed.ending⟩

theorem leadIn_openLayer (l : Layout) (line : ScannedLine) (openedZ : Option Float) :
    (l.openLayer line openedZ).leadIn = none := by
  obtain ⟨w, hintedZ, heq⟩ := l.openLayer_eq line openedZ
  rw [heq]

/-- Opening a layer closes the one before it and keeps every line. -/
theorem Sound.openLayer {seen : List Command} {l : Layout} (h : Sound seen l)
    (hopen : l.ending = none) (hstands : ∀ lead ∈ l.leadIn, l.LeadBehind lead)
    {line : ScannedLine} (hbefore : line.before.machine = Machine.run {} seen)
    (openedZ : Option Float) : Sound seen (l.openLayer line openedZ) := by
  have hending := (l.frame_openLayer line openedZ).ending.trans hopen
  obtain ⟨w, hintedZ, heq⟩ := l.openLayer_eq line openedZ
  have hwarned : ∀ lead ∈ l.leadIn, (l.warn w).LeadBehind lead := by
    rw [warn_eq]
    exact hstands
  obtain ⟨front, hclosing, hentry, hstack, htiled⟩ := (h.warn w).takeBack
    ((l.frame_warn w).ending.trans hopen) hwarned line.before.object hbefore rfl
  -- The new layer starts in the state behind `front`, whether it takes a lead-in along or not.
  rw [heq] at hending ⊢
  simp only at hending ⊢
  rw [hentry] at hclosing hstack htiled hending ⊢
  generalize (l.warn w).takeBack line.before.object (Machine.run {} front)
    ((l.leadIn.map LeadIn.length).getD 0) = result at hclosing hstack htiled hending ⊢
  obtain ⟨-, hfront, hlayers⟩ := hclosing.closeLayer
  have hsegments : SegmentDraft.Stack (Machine.run {} front)
      (if result.2.isEmpty then [.start line.before.object (Machine.run {} front) #[]]
        else result.2.reverse) ∧
      SegmentDraft.linesOf
        (if result.2.isEmpty then [.start line.before.object (Machine.run {} front) #[]]
          else result.2.reverse) = SegmentDraft.linesOf result.2.reverse := by
    cases htaken : result.2 with
    | nil => exact ⟨SegmentDraft.stack_start _ _ _, rfl⟩
    | cons s taken =>
        rw [htaken] at hstack
        exact ⟨hstack (by simp), rfl⟩
  generalize result.1.closeLayer = closed at hfront hlayers hending ⊢
  exact {
    lines := by
      simp only [Layout.front, currentLines, endingLines, hending, Option.map_some,
        Option.getD_some, Option.map_none, Option.getD_none, List.append_nil]
      rw [hsegments.2, ← htiled, ← hfront]
      rfl
    layers := hlayers
    current := by
      intro d hd
      obtain rfl := Option.some.inj hd
      rw [← hfront] at hsegments ⊢
      exact ⟨rfl, hsegments.1⟩
    unopened := by
      intro hnone
      exact absurd hnone (by simp)
    ended := by
      intro hended
      exact absurd hending hended
    ending := by
      intro tail htail
      exact absurd (hending.symm.trans htail) (by simp) }

theorem openAt_cases (l : Layout) (line : ScannedLine) :
    (∃ w, l.openAt line = l.warn w) ∨
      ∃ lastNumber topZ openedZ,
        l.openAt line = { l with lastNumber, topZ }.openLayer line openedZ ∧
          (l.detection = .zHeight → line.command.movesZ = true) := by
  unfold openAt
  cases hdetection : l.detection with
  | markers =>
      simp only
      split
      · split
        · split
          · exact Or.inl ⟨_, rfl⟩
          · exact Or.inr ⟨_, l.topZ, none, by rw [← hdetection], fun h => absurd h (by simp)⟩
        · exact Or.inr ⟨_, l.topZ, none, by rw [← hdetection], fun h => absurd h (by simp)⟩
      · exact Or.inl ⟨none, rfl⟩
  | zHeight =>
      simp only
      split
      · rename_i hmoves
        split
        · exact Or.inr ⟨l.lastNumber, _, _, by rw [← hdetection], fun _ => hmoves⟩
        · exact Or.inl ⟨none, rfl⟩
      · exact Or.inl ⟨none, rfl⟩

theorem frame_openAt (l : Layout) (line : ScannedLine) : Frame l (l.openAt line) := by
  rcases l.openAt_cases line with ⟨w, heq⟩ | ⟨lastNumber, topZ, openedZ, heq, -⟩
  · rw [heq]
    exact l.frame_warn w
  · rw [heq]
    have hopened := frame_openLayer { l with lastNumber, topZ } line openedZ
    exact ⟨hopened.detection, hopened.line, hopened.ending⟩

theorem Sound.openAt {seen : List Command} {l : Layout} (h : Sound seen l)
    (hopen : l.ending = none) (hleads : Leads False l) {line : ScannedLine}
    (hbefore : line.before.machine = Machine.run {} seen)
    (hmoves : line.command.movesZ = true → line.command.fixesTool = true) :
    Sound seen (l.openAt line) ∧ Leads (line.command.fixesTool = true) (l.openAt line) := by
  rcases l.openAt_cases line with ⟨w, heq⟩ | ⟨lastNumber, topZ, openedZ, heq, hz⟩
  · have hwarned := hleads.warn w
    rw [heq]
    exact ⟨h.warn w, hwarned.markers, hwarned.stands,
      fun hd d hcurrent s hs => Or.inl ((hwarned.alone hd d hcurrent s hs).resolve_right id)⟩
  · have hnumbered : Sound seen { l with lastNumber, topZ } :=
      ⟨h.lines, h.layers, h.current, h.unopened, h.ended, h.ending⟩
    have hnone := leadIn_openLayer { l with lastNumber, topZ } line openedZ
    have hframe := frame_openLayer { l with lastNumber, topZ } line openedZ
    rw [heq]
    refine ⟨hnumbered.openLayer hopen hleads.stands hbefore openedZ, fun _ => hnone, ?_, ?_⟩
    · intro lead hlead
      exact absurd (hnone.symm.trans hlead) (by simp)
    · intro hd d _ s _
      exact Or.inr (hmoves (hz (hframe.detection.symm.trans hd)))

theorem noteHeight_eq (l : Layout) (line : ScannedLine) :
    (l.current = none ∧ ∃ pendingZ, l.noteHeight line = { l with pendingZ }) ∨
      ∃ d hintedZ pendingZ, l.current = some d ∧
        l.noteHeight line = { l with pendingZ, current := some { d with hintedZ } } := by
  cases l with
  | mk detection index context preamble layers current ending warnings number top pending leadIn =>
      unfold noteHeight
      cases current with
      | none =>
          refine Or.inl ⟨rfl, ?_⟩
          split <;> exact ⟨_, rfl⟩
      | some d =>
          refine Or.inr ⟨d, ?_⟩
          simp only
          split
          · split
            · exact ⟨_, _, trivial, rfl⟩
            · exact ⟨d.hintedZ, _, trivial, rfl⟩
          · exact ⟨d.hintedZ, _, trivial, rfl⟩

theorem append_of_current_eq_none {l : Layout} (line : ScannedLine) (h : l.current = none) :
    ∃ pendingZ, l.append line =
      { l with leadIn := l.nextLeadIn line, pendingZ,
               preamble := l.preamble.push line.command } := by
  rcases noteHeight_eq { l with leadIn := l.nextLeadIn line } line with
    ⟨-, pendingZ, hnote⟩ | ⟨d, hintedZ, pendingZ, hcurrent, -⟩
  · refine ⟨pendingZ, ?_⟩
    unfold append
    simp only [hnote]
    simp only [h]
  · exact absurd (h.symm.trans hcurrent) (by simp)

theorem append_eq_of_current (l : Layout) (line : ScannedLine) {d : LayerDraft}
    (h : l.current = some d) :
    ∃ hintedZ pendingZ, l.append line =
      { l with leadIn := l.nextLeadIn line, pendingZ,
               current := some ({ d with hintedZ }.append line) } := by
  rcases noteHeight_eq { l with leadIn := l.nextLeadIn line } line with
    ⟨hcurrent, -⟩ | ⟨d', hintedZ, pendingZ, hcurrent, hnote⟩
  · exact absurd (h.symm.trans hcurrent) (by simp)
  · obtain rfl : d = d' := Option.some.inj (h.symm.trans hcurrent)
    refine ⟨hintedZ, pendingZ, ?_⟩
    unfold append
    simp only [hnote]

theorem append_of_current_eq_some {l : Layout} (line : ScannedLine) {d : LayerDraft}
    (h : l.current = some d) (hne : d.segments ≠ []) :
    ∃ next pendingZ, l.append line =
        { l with leadIn := l.nextLeadIn line, pendingZ, current := some next } ∧
      next.entry = d.entry ∧ SegmentDraft.Adds line d.segments next.segments := by
  obtain ⟨hintedZ, pendingZ, heq⟩ := l.append_eq_of_current line h
  exact ⟨_, pendingZ, heq, LayerDraft.entry_append _ line,
    LayerDraft.adds_append { d with hintedZ } line hne⟩

theorem place_of_ending_eq_some {l : Layout} (line : ScannedLine) {tail : EndSequence}
    (h : l.ending = some tail) :
    l.place line =
      { l with ending := some { tail with commands := tail.commands.push line.command } } := by
  unfold place
  rw [h]

theorem place_of_ending_eq_none {l : Layout} (line : ScannedLine) (h : l.ending = none) :
    (l.started = true ∧ line.marker = some .endOfPrint ∧ l.place line =
        { l.closeLayer with ending := some ⟨line.before.machine, #[line.command]⟩ }) ∨
      ((l.started = true → line.marker ≠ some .endOfPrint) ∧
        l.place line = (l.openAt line).append line) := by
  unfold place
  rw [h]
  by_cases hend : (l.started && line.marker == some .endOfPrint) = true
  · have hboth := hend
    rw [Bool.and_eq_true, beq_iff_eq] at hboth
    exact Or.inl ⟨hboth.1, hboth.2, if_pos hend⟩
  · refine Or.inr ⟨fun hstarted hmarker => hend ?_, if_neg hend⟩
    simp [hstarted, hmarker]

end Layout

end ToolBatching
