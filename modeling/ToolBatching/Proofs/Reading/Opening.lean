import ToolBatching.Proofs.Reading.Tiling

namespace ToolBatching

namespace SegmentDraft

/-- Taking lines back divides the lines of the segments, wherever the cut falls. -/
theorem linesOf_splitTail (object : Option String) (entry : Machine) {segments : List SegmentDraft}
    {front back : List Command} (taken : List SegmentDraft) (h : linesOf segments = front ++ back) :
    linesOf (LayerDraft.splitTail object entry back.length taken segments).1 = front ∧
      (LayerDraft.splitTail object entry back.length taken segments).2.flatMap lines =
        back ++ taken.flatMap lines := by
  induction segments generalizing back taken with
  | nil =>
      obtain ⟨rfl, rfl⟩ := List.append_eq_nil_iff.mp h.symm
      exact ⟨rfl, rfl⟩
  | cons last rest ih =>
      by_cases hnil : back = []
      · rw [hnil, List.length_nil, splitTail_zero, h, hnil, List.append_nil]
        exact ⟨rfl, rfl⟩
      have hpos : ¬ back.length = 0 := fun hzero => hnil (List.length_eq_zero_iff.mp hzero)
      have hsize : last.commands.size = last.lines.length := rfl
      rw [linesOf_cons] at h
      rw [LayerDraft.splitTail, if_neg hpos]
      simp only [hsize]
      rcases List.append_eq_append_iff.mp h with ⟨middle, hfront, hlast⟩ | ⟨middle, hrest, rfl⟩
      · cases middle with
        | nil =>
            rw [List.nil_append] at hlast
            rw [List.append_nil] at hfront
            rw [if_pos (Nat.le_of_eq (congrArg List.length hlast)), hlast, Nat.sub_self, splitTail_zero, List.flatMap_cons,
              hlast]
            exact ⟨hfront.symm, rfl⟩
        | cons c middle =>
            -- The cut falls inside the segment: `c :: middle` stays.
            have hlength : last.lines.length = (c :: middle).length + back.length := by
              rw [hlast, List.length_append]
            have hlong : ¬ last.lines.length ≤ back.length := by
              rw [hlength, List.length_cons]
              omega
            have hcommands : last.commands.toList = c :: middle ++ back := hlast
            rw [if_neg hlong, hlength, Nat.add_sub_cancel, List.flatMap_cons, linesOf_cons]
            constructor
            · simp [lines, hcommands, hfront]
            · rw [lines_start, Array.drop_eq_extract, Array.toList_extract, hsize, hlength,
                hcommands, List.extract_eq_take_drop, Nat.add_sub_cancel_left, List.drop_left,
                List.take_length]
      · have hcount : (middle ++ last.lines).length - last.lines.length = middle.length := by
          rw [List.length_append, Nat.add_sub_cancel]
        have hle : last.lines.length ≤ (middle ++ last.lines).length := by
          rw [List.length_append]
          omega
        obtain ⟨hkept, htaken⟩ := ih (last :: taken) hrest
        rw [if_pos hle, hcount]
        refine ⟨hkept, ?_⟩
        rw [htaken, List.flatMap_cons, List.append_assoc]

end SegmentDraft

namespace Layout

theorem takeBack_of_current_eq_none {l : Layout} (h : l.current = none) (object : Option String)
    (entry : Machine) {front back : List Command} (hlines : l.preamble.toList = front ++ back) :
    ∃ preamble, (l.takeBack object entry back.length).1 = { l with preamble } ∧
      preamble.toList = front ∧
      SegmentDraft.linesOf (l.takeBack object entry back.length).2.reverse = back := by
  have hsize : l.preamble.size = front.length + back.length := by
    rw [← Array.length_toList, hlines, List.length_append]
  unfold takeBack
  simp only [h, hsize, Nat.add_sub_cancel]
  refine ⟨_, rfl, by simp [hlines], ?_⟩
  by_cases hnil : back = []
  · simp [hnil]
  · have hpos : ¬ back.length = 0 := fun hzero => hnil (List.length_eq_zero_iff.mp hzero)
    rw [if_neg hpos, List.reverse_singleton, SegmentDraft.linesOf_cons, SegmentDraft.linesOf_nil,
      SegmentDraft.lines_start, Array.drop_eq_extract, Array.toList_extract, hsize, hlines,
      List.extract_eq_take_drop, Nat.add_sub_cancel_left, List.drop_left, List.take_length,
      List.nil_append]

theorem takeBack_of_current_eq_some {l : Layout} {d : LayerDraft} (h : l.current = some d)
    (object : Option String) (entry : Machine) {front back : List Command}
    (hlines : SegmentDraft.linesOf d.segments = front ++ back) :
    ∃ segments, (l.takeBack object entry back.length).1 =
        { l with current := some { d with segments } } ∧
      SegmentDraft.linesOf segments = front ∧
      SegmentDraft.linesOf (l.takeBack object entry back.length).2.reverse = back := by
  obtain ⟨hkept, htaken⟩ := SegmentDraft.linesOf_splitTail object entry [] hlines
  unfold takeBack
  simp only [h]
  refine ⟨_, rfl, hkept, ?_⟩
  rw [SegmentDraft.linesOf, List.reverse_reverse, htaken, List.flatMap_nil, List.append_nil]

end Layout

namespace LayerDraft

theorem isEmpty_eq_false {d : LayerDraft} (h : SegmentDraft.linesOf d.segments ≠ []) :
    d.isEmpty = false := by
  cases hempty : d.isEmpty with
  | true => exact absurd (linesOf_eq_nil_of_isEmpty hempty) h
  | false => rfl

theorem openedZ_append (d : LayerDraft) (line : ScannedLine) :
    (d.append line).openedZ = d.openedZ := by
  unfold append
  split <;> split <;> rfl

end LayerDraft

namespace Layout

theorem closeLayer_of_linesOf_ne_nil {l : Layout} {d : LayerDraft} (h : l.current = some d)
    (hne : SegmentDraft.linesOf d.segments ≠ []) :
    ∃ below, l.closeLayer =
      { l with current := none, layers := l.layers.push (d.toLayer (l.layers.size + 1) below) } := by
  unfold closeLayer
  rw [h]
  simp only [LayerDraft.isEmpty_eq_false hne, Bool.false_eq_true, if_false]
  exact ⟨_, rfl⟩

/-- A layer that has just been opened: it holds the lead-in and nothing is led in to yet. -/
structure Opened (l : Layout) (lead : List Command) (openedZ : Option Float) (next : Layout) :
    Prop where
  detection : next.detection = l.detection
  tops : next.lastNumber = l.lastNumber ∧ next.topZ = l.topZ
  ending : next.ending = l.ending
  leadIn : next.leadIn = none
  current : ∃ d, next.current = some d ∧ d.segments ≠ [] ∧
    SegmentDraft.linesOf d.segments = lead ∧ d.openedZ = openedZ

theorem opened_of_eq {l closed : Layout} {line : ScannedLine} {openedZ hintedZ : Option Float}
    {entry : Machine} {taken : List SegmentDraft} {lead : List Command} {next : Layout}
    (hclosed : closed.detection = l.detection ∧ closed.lastNumber = l.lastNumber ∧
      closed.topZ = l.topZ ∧ closed.ending = l.ending)
    (htaken : SegmentDraft.linesOf taken.reverse = lead)
    (hnext : next = { closed with
      leadIn := none
      pendingZ := none
      current := some
        { entry, openedZ, hintedZ
          printedZ := none
          commandedZ := none
          votes := []
          segments :=
            if taken.isEmpty then [.start line.before.object entry #[]] else taken.reverse } }) :
    Opened l lead openedZ next := by
  subst hnext
  refine ⟨hclosed.1, ⟨hclosed.2.1, hclosed.2.2.1⟩, hclosed.2.2.2, rfl, _, rfl, ?_, ?_, rfl⟩
  · cases taken <;> simp
  · cases taken with
    | nil => exact htaken
    | cons s taken => exact htaken

theorem openLayer_of_current_eq_none {l : Layout} (h : l.current = none) (line : ScannedLine)
    (openedZ : Option Float) {front back : List Command} (hlines : l.preamble.toList = front ++ back)
    (hlength : (l.leadIn.map LeadIn.length).getD 0 = back.length) :
    Opened l back openedZ (l.openLayer line openedZ) ∧
      (l.openLayer line openedZ).preamble.toList = front ∧
      (l.openLayer line openedZ).layers = l.layers := by
  obtain ⟨w, hintedZ, heq⟩ := l.openLayer_eq line openedZ
  have hwarned : (l.warn w).current = none ∧ (l.warn w).preamble.toList = front ++ back := by
    rw [warn_eq]
    exact ⟨h, hlines⟩
  obtain ⟨preamble, hkept, hpreamble, htaken⟩ := takeBack_of_current_eq_none hwarned.1
    line.before.object ((l.leadIn.map LeadIn.entry).getD line.before.machine) hwarned.2
  simp only [hlength] at heq
  generalize (l.warn w).takeBack line.before.object
    ((l.leadIn.map LeadIn.entry).getD line.before.machine) back.length = result
    at heq hkept htaken
  have hclosed : result.1.closeLayer =
      { l with warnings := (l.warn w).warnings, preamble } := by
    rw [closeLayer_eq_self (by rw [hkept]; exact hwarned.1), hkept, warn_eq]
  refine ⟨opened_of_eq (by simp only [hclosed, and_self]) htaken heq, ?_, ?_⟩
  · rw [heq, hclosed]
    exact hpreamble
  · rw [heq, hclosed]

theorem openLayer_of_current_eq_some {l : Layout} {d : LayerDraft} (h : l.current = some d)
    (line : ScannedLine) (openedZ : Option Float) {front back : List Command}
    (hlines : SegmentDraft.linesOf d.segments = front ++ back) (hne : front ≠ [])
    (hlength : (l.leadIn.map LeadIn.length).getD 0 = back.length) :
    Opened l back openedZ (l.openLayer line openedZ) ∧
      (l.openLayer line openedZ).preamble = l.preamble ∧
      ∃ segments below, SegmentDraft.linesOf segments = front ∧
        (l.openLayer line openedZ).layers =
          l.layers.push (LayerDraft.toLayer { d with segments } (l.layers.size + 1) below) := by
  obtain ⟨w, hintedZ, heq⟩ := l.openLayer_eq line openedZ
  have hwarned : (l.warn w).current = some d := by
    rw [warn_eq]
    exact h
  obtain ⟨segments, hkept, hfront, htaken⟩ := takeBack_of_current_eq_some hwarned
    line.before.object ((l.leadIn.map LeadIn.entry).getD line.before.machine) hlines
  simp only [hlength] at heq
  generalize (l.warn w).takeBack line.before.object
    ((l.leadIn.map LeadIn.entry).getD line.before.machine) back.length = result
    at heq hkept htaken
  have hcurrent : result.1.current = some { d with segments } := by rw [hkept]
  obtain ⟨below, hclosed⟩ := closeLayer_of_linesOf_ne_nil hcurrent (by rw [hfront]; exact hne)
  have hparts : result.1.closeLayer =
      { l with
        warnings := (l.warn w).warnings
        current := none
        layers := l.layers.push (LayerDraft.toLayer { d with segments } (l.layers.size + 1) below) } := by
    rw [hclosed, hkept, warn_eq]
  refine ⟨opened_of_eq (by simp only [hparts, and_self]) htaken heq, ?_, segments, below,
    hfront, ?_⟩
  · rw [heq, hparts]
  · rw [heq, hparts]

theorem ending_append (l : Layout) (line : ScannedLine) : (l.append line).ending = l.ending := by
  cases hcurrent : l.current with
  | none =>
      obtain ⟨pendingZ, heq⟩ := append_of_current_eq_none line hcurrent
      rw [heq]
  | some d =>
      obtain ⟨hintedZ, pendingZ, heq⟩ := l.append_eq_of_current line hcurrent
      rw [heq]

theorem append_open {l : Layout} {d : LayerDraft} (h : l.current = some d)
    (hne : d.segments ≠ []) (line : ScannedLine) :
    ∃ next pendingZ, l.append line =
        { l with leadIn := l.nextLeadIn line, pendingZ, current := some next } ∧
      SegmentDraft.linesOf next.segments = SegmentDraft.linesOf d.segments ++ [line.command] ∧
      next.openedZ = d.openedZ := by
  obtain ⟨hintedZ, pendingZ, heq⟩ := l.append_eq_of_current line h
  exact ⟨_, pendingZ, heq, (LayerDraft.adds_append { d with hintedZ } line hne).linesOf,
    LayerDraft.openedZ_append { d with hintedZ } line⟩

end Layout

end ToolBatching
