import ToolBatching.Proofs.Reading.Draft

/-!
Lead-ins: the last lines of a layer, from the opener of a tool change on, that the next
layer takes along. Taking them back leaves segments that can be closed and a stack for
the next layer. A lead-in that begins inside a segment cuts it, and the part in front
keeps a tool that may be the opener's; it deposits nothing then and is not the first of
its layer, so it never stands for a unit.
-/

namespace ToolBatching

namespace SegmentDraft

/-- Where a lead-in of `count` lines stands in the segments of a layer: behind the lines
`front` of the segment `first`, with the segments `newer` after it. A lead-in that begins
inside a segment has only its opener there. -/
structure LeadStands (m entry : Machine) (count : Nat) (newer : List SegmentDraft)
    (first : SegmentDraft) (older : List SegmentDraft) (front back : List Command) : Prop where
  lines : first.lines = front ++ back
  begun : back ≠ []
  count : (linesOf newer).length + back.length = count
  entry : entry = m.run (linesOf older ++ front)
  opener : front ≠ [] → newer ≠ [] ∧ (∃ c, back = [c] ∧ c.inToolChange = true) ∧
    (older = [] → first.settled = true)

/-- Some lead-in of `count` lines ends the segments of a layer. -/
def EndsInLead (m entry : Machine) (count : Nat) (segments : List SegmentDraft) : Prop :=
  ∃ newer first older front back, segments = newer ++ first :: older ∧
    LeadStands m entry count newer first older front back

/-- A lead-in grows with every line added behind it. -/
theorem EndsInLead.adds {m entry : Machine} {count : Nat} {line : ScannedLine}
    {segments next : List SegmentDraft} (h : EndsInLead m entry count segments)
    (hadds : Adds line segments next) : EndsInLead m entry (count + 1) next := by
  obtain ⟨newer, first, older, front, back, rfl, hlead⟩ := h
  -- Lines go to the newest segment, so it matters only whether that is still the first one
  -- of the lead-in.
  cases newer with
  | nil =>
      have hfront : front = [] := by
        refine Classical.byContradiction fun hne => ?_
        exact (hlead.opener hne).1 rfl
      subst hfront
      have hcount : back.length = count := by simpa using hlead.count
      cases hadds with
      | inside _ =>
          refine ⟨[], first.append line, older, [], back ++ [line.command], rfl, ?_, by simp,
            by simpa using hcount, hlead.entry, by simp⟩
          rw [lines_append, hlead.lines, List.nil_append, List.nil_append]
      | replacing _ hlast =>
          rw [hlead.lines] at hlast
          exact absurd hlast hlead.begun
      | before _ _ =>
          refine ⟨[(start line.next.object line.before.machine #[]).append line], first, older, [],
            back, rfl, hlead.lines, hlead.begun, ?_, hlead.entry, by simp⟩
          simp only [linesOf_cons, linesOf_nil, lines_append, lines_start, List.nil_append,
            List.length_singleton]
          omega
      | after _ =>
          refine ⟨[start line.next.object line.next.machine #[]], first.append line, older, [],
            back ++ [line.command], rfl, ?_, by simp, ?_, hlead.entry, by simp⟩
          · rw [lines_append, hlead.lines, List.nil_append, List.nil_append]
          · simpa [lines_start] using hcount
  | cons last newer =>
      have hgrown : ∃ grown, next = grown ++ first :: older ∧ grown ≠ [] ∧
          (linesOf grown).length = (linesOf (last :: newer)).length + 1 := by
        cases hadds with
        | inside _ => exact ⟨last.append line :: newer, rfl, by simp, by simp [lines_append]; omega⟩
        | replacing _ hlast =>
            exact ⟨_ :: newer, rfl, by simp, by simp [lines_append, lines_start, hlast]⟩
        | before _ _ =>
            exact ⟨_ :: last :: newer, rfl, by simp,
              by simp [lines_append, lines_start, Nat.add_assoc]⟩
        | after _ =>
            exact ⟨_ :: last.append line :: newer, rfl, by simp,
              by simp [lines_append, lines_start]; omega⟩
      obtain ⟨grown, rfl, hne, hlength⟩ := hgrown
      refine ⟨grown, first, older, front, back, rfl, hlead.lines, hlead.begun, ?_, hlead.entry,
        fun hfront => ⟨hne, (hlead.opener hfront).2⟩⟩
      rw [hlength, ← hlead.count]
      omega

theorem endsInLead_of_adds {m : Machine} {line : ScannedLine} {segments next : List SegmentDraft}
    (hadds : Adds line segments next) (hbefore : line.before.machine = m.run (linesOf segments))
    (hboundary : line.boundary ≠ .none) (htag : line.command.inToolChange = true)
    (halone : ∀ s, segments = [s] → s.settled = true) :
    EndsInLead m line.before.machine 1 next := by
  cases hadds with
  | inside hnone => exact absurd hnone hboundary
  | @replacing last rest _ hlast =>
      refine ⟨[], _, rest, [], [line.command], rfl, lines_append _ _, by simp, rfl, ?_, by simp⟩
      rw [hbefore, linesOf_cons, hlast]
  | @before last rest _ _ =>
      refine ⟨[], _, last :: rest, [], [line.command], rfl, lines_append _ _, by simp, rfl, ?_,
        by simp⟩
      rw [hbefore, List.append_nil]
  | @after last rest _ =>
      -- The opener ends the segment in front of it: the lead-in begins inside that segment.
      refine ⟨[_], last.append line, rest, last.lines, [line.command], rfl, lines_append _ _,
        by simp, rfl, ?_, fun _ => ⟨by simp, ⟨line.command, rfl, htag⟩, fun hrest => ?_⟩⟩
      · rw [hbefore, linesOf_cons]
      · subst hrest
        simp [SegmentDraft.append, halone last rfl]

theorem settled_of_adds {m : Machine} {line : ScannedLine} {segments : List SegmentDraft}
    {s : SegmentDraft} (hadds : Adds line segments [s]) (hstack : Stack m segments)
    (h : ∀ t, segments = [t] → t.settled = true ∨ line.command.fixesTool = true) :
    s.settled = true := by
  cases hadds with
  | @inside last rest _ =>
      rcases h last rfl with hsettled | hfixes
      · rw [settled_append, hsettled, Bool.true_or]
      · rw [settled_append, hfixes, Bool.or_true]
  | @replacing last rest _ hlast =>
      rcases h last rfl with hsettled | hfixes
      · exact absurd hlast ((hstack.tracked last (by simp)).fixed hsettled).lines_ne_nil
      · rw [settled_append, hfixes, Bool.or_true]

/-- Segments that can be closed, the newest first. The tool of a segment that prints,
and that of the first one, is active at some moment of it. -/
structure Closable (m : Machine) (segments : List SegmentDraft) : Prop where
  full : ∀ s ∈ segments.tail, s.lines ≠ []
  chained : Chained entry lines m segments.reverse
  printed : ∀ s ∈ segments, 0 < s.printMoves → s.entry.Shows s.lines s.tool
  first : ∀ s ∈ segments.getLast?, s.entry.Shows s.lines s.tool

theorem Stack.closable {m : Machine} {segments : List SegmentDraft} (h : Stack m segments) :
    Closable m segments where
  full := h.full
  chained := h.chained
  printed := by
    intro s hs _
    exact (h.tracked s hs).shows
  first := by
    intro s hs
    exact (h.tracked s (List.mem_of_getLast? hs)).shows

theorem Stack.closable_of_append {m : Machine} {newer older : List SegmentDraft}
    (h : Stack m (newer ++ older)) : Closable m older where
  full := by
    intro s hs
    cases newer with
    | nil => exact h.full s hs
    | cons last newer =>
        exact h.full s (List.mem_append_right newer (List.mem_of_mem_tail hs))
  chained := by
    have hchained := h.chained
    rw [List.reverse_append, Chained.append_iff] at hchained
    exact hchained.1
  printed := by
    intro s hs _
    exact (h.tracked s (List.mem_append_right newer hs)).shows
  first := by
    intro s hs
    exact (h.tracked s (List.mem_append_right newer (List.mem_of_getLast? hs))).shows

theorem Stack.of_append {m : Machine} {newer older : List SegmentDraft}
    (h : Stack m (newer ++ older)) (hne : newer ≠ []) : Stack (m.run (linesOf older)) newer where
  nonempty := hne
  full := by
    intro s hs
    refine h.full s ?_
    rw [List.tail_append_of_ne_nil hne]
    exact List.mem_append_left older hs
  chained := by
    have hchained := h.chained
    rw [List.reverse_append, Chained.append_iff] at hchained
    exact hchained.2
  tracked := by
    intro s hs
    exact h.tracked s (List.mem_append_left older hs)

theorem Stack.append_oldest {m : Machine} {newer : List SegmentDraft} {s : SegmentDraft}
    (h : Stack (m.run s.lines) newer) (hentry : s.entry = m) (hlines : s.lines ≠ [])
    (hs : s.Tracked) : Stack m (newer ++ [s]) where
  nonempty := by simp
  full := by
    intro t ht
    rw [List.tail_append_of_ne_nil h.nonempty] at ht
    rcases List.mem_append.mp ht with ht | ht
    · exact h.full t ht
    · obtain rfl := List.mem_singleton.mp ht
      exact hlines
  chained := by
    rw [List.reverse_append, Chained.append_iff]
    refine ⟨Chained.singleton_iff.mpr hentry, ?_⟩
    simpa using h.chained
  tracked := by
    intro t ht
    rcases List.mem_append.mp ht with ht | ht
    · exact h.tracked t ht
    · obtain rfl := List.mem_singleton.mp ht
      exact hs

theorem splitTail_newer (object : Option String) (entry : Machine) {count : Nat}
    (hcount : 0 < count) (newer older taken : List SegmentDraft) :
    LayerDraft.splitTail object entry ((linesOf newer).length + count) taken (newer ++ older) =
      LayerDraft.splitTail object entry count (newer.reverse ++ taken) older := by
  induction newer generalizing taken with
  | nil => simp
  | cons s newer ih =>
      have hsize : s.commands.size = s.lines.length := rfl
      have hleft : (linesOf (s :: newer)).length + count - s.lines.length =
          (linesOf newer).length + count := by
        rw [linesOf_cons, List.length_append]
        omega
      have hne : ¬ (linesOf (s :: newer)).length + count = 0 := by omega
      have hle : s.lines.length ≤ (linesOf (s :: newer)).length + count := by
        rw [linesOf_cons, List.length_append]
        omega
      rw [List.cons_append, LayerDraft.splitTail, if_neg hne]
      simp only [hsize]
      rw [if_pos hle, hleft, ih, List.reverse_cons, List.append_assoc, List.singleton_append]

theorem splitTail_zero (object : Option String) (entry : Machine)
    (taken segments : List SegmentDraft) :
    LayerDraft.splitTail object entry 0 taken segments = (segments, taken) := by
  cases segments with
  | nil => rfl
  | cons s rest => rw [LayerDraft.splitTail, if_pos rfl]

theorem splitTail_of_leadStands {m start : Machine} {count : Nat} {newer older : List SegmentDraft}
    {first : SegmentDraft} {front back : List Command} (object : Option String)
    (entry : Machine) (h : LeadStands m start count newer first older front back) :
    LayerDraft.splitTail object entry count [] (newer ++ first :: older) =
      if front = [] then (older, first :: newer.reverse)
      else ({ first with commands := first.commands.take front.length } :: older,
        .start object entry (first.commands.drop front.length) :: newer.reverse) := by
  have hpos : 0 < back.length := List.length_pos_iff.mpr h.begun
  have hsize : first.commands.size = front.length + back.length := by
    rw [← List.length_append, ← h.lines]
    rfl
  have hne : ¬ back.length = 0 := by omega
  rw [← h.count, splitTail_newer object entry hpos, List.append_nil, LayerDraft.splitTail,
    if_neg hne]
  simp only [hsize]
  by_cases hfront : front = []
  · subst hfront
    simp only [List.length_nil, Nat.zero_add, Nat.le_refl, if_true, Nat.sub_self]
    exact splitTail_zero object entry _ older
  · have hlong : ¬ front.length + back.length ≤ back.length := by
      have := List.length_pos_iff.mpr hfront
      omega
    rw [if_neg hlong, if_neg hfront, Nat.add_sub_cancel]

theorem LeadStands.linesOf_eq {m entry : Machine} {count : Nat} {newer older : List SegmentDraft}
    {first : SegmentDraft} {front back : List Command}
    (h : LeadStands m entry count newer first older front back) :
    linesOf (newer ++ first :: older) =
      (linesOf older ++ front) ++ (back ++ linesOf newer) := by
  rw [linesOf_append, linesOf_cons, h.lines]
  simp only [List.append_assoc]

theorem Tracked.shows_front {s : SegmentDraft} (h : s.Tracked) {front : List Command} {c : Command}
    (hlines : s.lines = front ++ [c]) (htag : c.inToolChange = true)
    (hprinted : s.settled = true ∨ 0 < s.printMoves) : s.entry.Shows front s.tool := by
  have hsettled : s.settled = true := by
    rcases hprinted with hsettled | hpos
    · exact hsettled
    · cases hs : s.settled with
      | true => rfl
      | false =>
          have := h.silent hs
          omega
  exact (h.fixed hsettled).shows_front hlines htag

theorem closable_cut {m : Machine} {first cut : SegmentDraft} {older : List SegmentDraft}
    {front : List Command} {c : Command} (h : Closable m (first :: older))
    (hfirst : first.Tracked) (hlines : first.lines = front ++ [c]) (htag : c.inToolChange = true)
    (hsettled : older = [] → first.settled = true)
    (hcut : cut.lines = front ∧ cut.entry = first.entry ∧ cut.tool = first.tool ∧
      cut.printMoves = first.printMoves) : Closable m (cut :: older) := by
  obtain ⟨hfront, hentry, htool, hmoves⟩ := hcut
  have hshows (hprinted : first.settled = true ∨ 0 < first.printMoves) :
      cut.entry.Shows cut.lines cut.tool := by
    rw [hentry, hfront, htool]
    exact hfirst.shows_front hlines htag hprinted
  refine ⟨h.full, ?_, ?_, ?_⟩
  · obtain ⟨hrest, hstart⟩ := chained_cons_iff.mp h.chained
    exact chained_cons_iff.mpr ⟨hrest, hentry.trans hstart⟩
  · intro s hs hpos
    rcases List.mem_cons.mp hs with rfl | hs
    · exact hshows (Or.inr (hmoves ▸ hpos))
    · exact h.printed s (List.mem_cons_of_mem first hs) hpos
  · intro s hs
    cases older with
    | nil =>
        obtain rfl : cut = s := by simpa using hs
        exact hshows (Or.inl (hsettled rfl))
    | cons next older =>
        refine h.first s ?_
        rw [List.getLast?_cons_cons] at hs ⊢
        exact hs

/-- Taking a lead-in back leaves segments that can be closed and a stack behind them. -/
theorem Stack.splitTail {m entry : Machine} {count : Nat} {segments : List SegmentDraft}
    (h : Stack m segments) (hlead : EndsInLead m entry count segments) (object : Option String) :
    ∃ kept taken, LayerDraft.splitTail object entry count [] segments = (kept, taken) ∧
      Closable m kept ∧ Stack (m.run (linesOf kept)) taken.reverse ∧ entry = m.run (linesOf kept) ∧
      linesOf kept ++ linesOf taken.reverse = linesOf segments := by
  obtain ⟨newer, first, older, front, back, rfl, hstands⟩ := hlead
  have hsplit := splitTail_of_leadStands object entry hstands
  have hlines := hstands.linesOf_eq
  by_cases hfront : front = []
  · subst hfront
    rw [if_pos rfl] at hsplit
    rw [List.append_cons] at h
    refine ⟨older, first :: newer.reverse, hsplit, h.closable_of_append, ?_, ?_, ?_⟩
    · rw [List.reverse_cons, List.reverse_reverse]
      exact h.of_append (by simp)
    · rw [hstands.entry, List.append_nil]
    · rw [List.reverse_cons, List.reverse_reverse, ← linesOf_append, ← List.append_cons]
  · -- The first segment is cut: `front` stays, and the opener begins a segment of its own.
    rw [if_neg hfront] at hsplit
    obtain ⟨hne, ⟨c, rfl, htag⟩, hsettled⟩ := hstands.opener hfront
    have hfirst : first.Tracked := h.tracked first (by simp)
    have hcommands : first.commands.toList = front ++ [c] := hstands.lines
    have hkept : SegmentDraft.lines
        { first with commands := first.commands.take front.length } = front := by
      simp [SegmentDraft.lines, hcommands]
    have hsize : first.commands.size = front.length + 1 := by
      rw [← Array.length_toList, hcommands, List.length_append, List.length_singleton]
    have htaken : (start object entry (first.commands.drop front.length)).lines = [c] := by
      simp [lines_start, hcommands, hsize]
    have hstart : entry = m.run (linesOf ({ first with
        commands := first.commands.take front.length } :: older)) := by
      rw [linesOf_cons, hkept, hstands.entry]
    have hbehind : Stack (entry.run (start object entry
        (first.commands.drop front.length)).lines) newer := by
      rw [htaken, hstands.entry, ← Machine.run_append, List.append_assoc, ← hstands.lines,
        ← linesOf_cons]
      exact h.of_append hne
    refine ⟨_, _, hsplit, closable_cut h.closable_of_append hfirst hstands.lines htag hsettled
      ⟨hkept, rfl, rfl, rfl⟩, ?_, hstart, ?_⟩
    · rw [List.reverse_cons, List.reverse_reverse, ← hstart]
      exact hbehind.append_oldest rfl (by simp [htaken]) (tracked_start object entry _)
    · rw [List.reverse_cons, List.reverse_reverse, linesOf_append, linesOf_cons, linesOf_cons,
        linesOf_nil, hkept, htaken, hlines]
      simp

end SegmentDraft

end ToolBatching
