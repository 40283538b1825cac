import ToolBatching.Program.Draft
import ToolBatching.Proofs.Reading.Scan

/-!
Segments while lines are added. A `Stack` holds the segments of an open layer, the
newest first: each one knows the machine state in front of it, and its tool is active at
some moment of it. `Adds` says what one line does to the segments, and it keeps a stack.
-/

namespace ToolBatching

namespace SegmentDraft

def lines (s : SegmentDraft) : List Command :=
  s.commands.toList

/-- Lines of segments given the newest first. -/
def linesOf (segments : List SegmentDraft) : List Command :=
  segments.reverse.flatMap lines

@[simp]
theorem linesOf_nil : linesOf [] = [] :=
  rfl

@[simp]
theorem linesOf_cons (s : SegmentDraft) (rest : List SegmentDraft) :
    linesOf (s :: rest) = linesOf rest ++ s.lines := by
  simp only [linesOf, List.reverse_cons, List.flatMap_append, List.flatMap_cons,
    List.flatMap_nil, List.append_nil]

@[simp]
theorem linesOf_append (newer older : List SegmentDraft) :
    linesOf (newer ++ older) = linesOf older ++ linesOf newer := by
  simp only [linesOf, List.reverse_append, List.flatMap_append]

theorem lines_start (object : Option String) (entry : Machine) (commands : Array Command) :
    (start object entry commands).lines = commands.toList :=
  rfl

theorem lines_append (s : SegmentDraft) (line : ScannedLine) :
    (s.append line).lines = s.lines ++ [line.command] :=
  Array.toList_push

theorem settled_append (s : SegmentDraft) (line : ScannedLine) :
    (s.append line).settled = (s.settled || line.command.fixesTool) :=
  rfl

theorem isEmpty_commands_iff (s : SegmentDraft) : s.commands.isEmpty = true ↔ s.lines = [] := by
  rw [Array.isEmpty_iff, lines, Array.toList_eq_nil_iff]

/-- The tool of the segment is the one behind a line that fixes it. -/
def Fixed (s : SegmentDraft) : Prop :=
  ∃ front c back, s.lines = front ++ c :: back ∧ c.fixesTool = true ∧
    (s.entry.run (front ++ [c])).tool = s.tool

/-- What the fields of a segment say about its lines. -/
structure Tracked (s : SegmentDraft) : Prop where
  shows : s.entry.Shows s.lines s.tool
  fixed : s.settled = true → s.Fixed
  silent : s.settled = false → s.printMoves = 0

theorem tracked_start (object : Option String) (entry : Machine) (commands : Array Command) :
    (start object entry commands).Tracked where
  shows := Machine.shows_start entry commands.toList
  fixed := by
    intro h
    simp [start] at h
  silent := fun _ => rfl

theorem Fixed.lines_ne_nil {s : SegmentDraft} (h : s.Fixed) : s.lines ≠ [] := by
  obtain ⟨front, c, back, hlines, -, -⟩ := h
  rw [hlines]
  simp

theorem Fixed.shows {s : SegmentDraft} (h : s.Fixed) : s.entry.Shows s.lines s.tool := by
  obtain ⟨front, c, back, hlines, -, htool⟩ := h
  refine ⟨front ++ [c], ?_, htool⟩
  rw [hlines]
  exact ⟨back, by simp⟩

theorem Fixed.shows_front {s : SegmentDraft} (h : s.Fixed) {front : List Command} {c : Command}
    (hlines : s.lines = front ++ [c]) (htag : c.inToolChange = true) :
    s.entry.Shows front s.tool := by
  obtain ⟨before, d, back, hsplit, hfixes, htool⟩ := h
  refine ⟨before ++ [d], ?_, htool⟩
  rw [hlines] at hsplit
  rcases List.eq_nil_or_concat back with rfl | ⟨back, e, rfl⟩
  · obtain ⟨-, hlast⟩ := List.append_inj' hsplit rfl
    obtain rfl : c = d := by simpa using hlast
    simp [Command.fixesTool, htag] at hfixes
  · have hsplit' : front ++ [c] = (before ++ d :: back) ++ [e] := by simpa using hsplit
    obtain ⟨hfront, -⟩ := List.append_inj' hsplit' rfl
    exact ⟨back, by simp [hfront]⟩

theorem Tracked.append {s : SegmentDraft} (h : s.Tracked) {line : ScannedLine}
    (hmachine : line.next.machine = (s.entry.run s.lines).step line.command)
    (hprint : line.isPrintMove = true → line.command.fixesTool = true) :
    (s.append line).Tracked := by
  have hrun : s.entry.run (s.lines ++ [line.command]) = line.next.machine := by
    rw [Machine.run_append, hmachine]
    rfl
  -- A settled segment keeps the moment at which its tool was active; an open one has the
  -- tool behind its last line.
  cases hsettled : s.settled with
  | true =>
      have htool : (s.append line).tool = s.tool := by simp [SegmentDraft.append, hsettled]
      have hfixed : (s.append line).Fixed := by
        obtain ⟨front, c, back, hlines, hfixes, hfront⟩ := h.fixed hsettled
        refine ⟨front, c, back ++ [line.command], ?_, hfixes, ?_⟩
        · rw [lines_append, hlines]
          simp
        · rw [htool]
          exact hfront
      refine ⟨hfixed.shows, fun _ => hfixed, fun hopen => ?_⟩
      simp [SegmentDraft.append, hsettled] at hopen
  | false =>
      have htool : (s.append line).tool = line.next.machine.tool := by
        simp [SegmentDraft.append, hsettled]
      have hfixes : (s.append line).settled = line.command.fixesTool := by
        rw [settled_append, hsettled, Bool.false_or]
      have hend : ((s.append line).entry.run (s.append line).lines).tool =
          (s.append line).tool := by
        rw [lines_append, htool]
        exact congrArg Machine.tool hrun
      refine ⟨?_, fun hnow => ?_, fun hopen => ?_⟩
      · have hshows := Machine.shows_end (s.append line).entry (s.append line).lines
        rwa [hend] at hshows
      · rw [lines_append] at hend
        exact ⟨s.lines, line.command, [], lines_append s line, hfixes ▸ hnow, hend⟩
      · have hquiet : line.isPrintMove = false := by
          cases hmoves : line.isPrintMove with
          | false => rfl
          | true =>
              rw [hfixes, hprint hmoves] at hopen
              exact absurd hopen (by simp)
        simpa [SegmentDraft.append, hquiet] using h.silent hsettled

/-- Segments of an open layer, the newest first, behind a machine state. Only the newest
may be without lines. -/
structure Stack (m : Machine) (segments : List SegmentDraft) : Prop where
  nonempty : segments ≠ []
  full : ∀ s ∈ segments.tail, s.lines ≠ []
  chained : Chained entry lines m segments.reverse
  tracked : ∀ s ∈ segments, s.Tracked

theorem chained_cons_iff {m : Machine} {s : SegmentDraft} {rest : List SegmentDraft} :
    Chained entry lines m (s :: rest).reverse ↔
      Chained entry lines m rest.reverse ∧ s.entry = m.run (linesOf rest) := by
  rw [List.reverse_cons, Chained.append_iff, Chained.singleton_iff]
  rfl

theorem stack_start (object : Option String) (entry : Machine) (commands : Array Command) :
    Stack entry [start object entry commands] where
  nonempty := by simp
  full := by simp
  chained := ⟨rfl, trivial⟩
  tracked := by simpa using tracked_start object entry commands

/-- What adding a line does to the segments of a layer. -/
inductive Adds (line : ScannedLine) : List SegmentDraft → List SegmentDraft → Prop where
  | inside {last : SegmentDraft} {rest : List SegmentDraft} :
      line.boundary = .none → Adds line (last :: rest) (last.append line :: rest)
  /-- A segment without lines gives way to the one that begins. -/
  | replacing {last : SegmentDraft} {rest : List SegmentDraft} :
      line.boundary = .before → last.lines = [] →
        Adds line (last :: rest)
          ((start line.next.object line.before.machine #[]).append line :: rest)
  | before {last : SegmentDraft} {rest : List SegmentDraft} :
      line.boundary = .before → last.lines ≠ [] →
        Adds line (last :: rest)
          ((start line.next.object line.before.machine #[]).append line :: last :: rest)
  | after {last : SegmentDraft} {rest : List SegmentDraft} :
      line.boundary = .after →
        Adds line (last :: rest)
          (start line.next.object line.next.machine #[] :: last.append line :: rest)

theorem Adds.linesOf {line : ScannedLine} {segments next : List SegmentDraft}
    (h : Adds line segments next) :
    SegmentDraft.linesOf next = SegmentDraft.linesOf segments ++ [line.command] := by
  cases h with
  | inside _ => simp only [linesOf_cons, lines_append, List.append_assoc]
  | replacing _ hlast =>
      simp only [linesOf_cons, lines_append, lines_start, hlast, List.append_nil, List.nil_append]
  | before _ _ => simp only [linesOf_cons, lines_append, lines_start, List.nil_append]
  | after _ =>
      simp only [linesOf_cons, lines_append, lines_start, List.append_assoc, List.append_nil]

/-- A line in its context keeps a stack. -/
theorem Stack.adds {m : Machine} {line : ScannedLine} {segments next : List SegmentDraft}
    (h : Stack m segments) (hadds : Adds line segments next)
    (hbefore : line.before.machine = m.run (linesOf segments))
    (hmachine : line.next.machine = line.before.machine.step line.command)
    (hprint : line.isPrintMove = true → line.command.fixesTool = true) : Stack m next := by
  have hline (s : SegmentDraft) : (s.append line).lines ≠ [] := by
    rw [lines_append]
    simp
  have hfresh : ((start line.next.object line.before.machine #[]).append line).Tracked :=
    (tracked_start _ _ _).append hmachine hprint
  cases hadds with
  | @inside last rest _ =>
      obtain ⟨hrest, hentry⟩ := chained_cons_iff.mp h.chained
      have hlast : (last.append line).Tracked := by
        refine (h.tracked last List.mem_cons_self).append ?_ hprint
        rw [hmachine, hbefore, hentry, linesOf_cons, Machine.run_append]
      exact {
        nonempty := by simp
        full := h.full
        chained := chained_cons_iff.mpr ⟨hrest, hentry⟩
        tracked := List.forall_mem_cons.mpr ⟨hlast, (List.forall_mem_cons.mp h.tracked).2⟩ }
  | @replacing last rest _ hlast =>
      obtain ⟨hrest, -⟩ := chained_cons_iff.mp h.chained
      rw [linesOf_cons, hlast, List.append_nil] at hbefore
      exact {
        nonempty := by simp
        full := h.full
        chained := chained_cons_iff.mpr ⟨hrest, hbefore⟩
        tracked := List.forall_mem_cons.mpr ⟨hfresh, (List.forall_mem_cons.mp h.tracked).2⟩ }
  | @before last rest _ hlast =>
      exact {
        nonempty := by simp
        full := List.forall_mem_cons.mpr ⟨hlast, h.full⟩
        chained := chained_cons_iff.mpr ⟨h.chained, hbefore⟩
        tracked := List.forall_mem_cons.mpr ⟨hfresh, h.tracked⟩ }
  | @after last rest _ =>
      obtain ⟨hrest, hentry⟩ := chained_cons_iff.mp h.chained
      have hstate : line.next.machine =
          ((m.run (linesOf rest)).run last.lines).step line.command := by
        rw [hmachine, hbefore, linesOf_cons, Machine.run_append]
      have hlast : (last.append line).Tracked :=
        (h.tracked last List.mem_cons_self).append (by rw [hstate, hentry]) hprint
      exact {
        nonempty := by simp
        full := List.forall_mem_cons.mpr ⟨hline last, h.full⟩
        chained := by
          apply chained_cons_iff.mpr
          constructor
          · exact chained_cons_iff.mpr ⟨hrest, hentry⟩
          · rw [linesOf_cons, lines_append, Machine.run_append, Machine.run_append]
            exact hstate
        tracked := by
          refine List.forall_mem_cons.mpr ⟨tracked_start _ _ _, ?_⟩
          exact List.forall_mem_cons.mpr ⟨hlast, (List.forall_mem_cons.mp h.tracked).2⟩ }

end SegmentDraft

end ToolBatching
