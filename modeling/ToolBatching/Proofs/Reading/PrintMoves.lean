import ToolBatching.Proofs.Reading.Program

namespace ToolBatching

namespace Machine

/-- How many commands of a list deposit material. -/
def printCount (m : Machine) : List Command → Nat
  | [] => 0
  | c :: cs => (if m.prints c then 1 else 0) + (m.step c).printCount cs

/-- All commands of a list that deposit material do so with one tool. -/
def PrintsWith (tool : Option Tool) (m : Machine) : List Command → Prop
  | [] => True
  | c :: cs => (m.prints c = true → m.tool = tool) ∧ (m.step c).PrintsWith tool cs

theorem printCount_append (m : Machine) (cs ds : List Command) :
    m.printCount (cs ++ ds) = m.printCount cs + (m.run cs).printCount ds := by
  induction cs generalizing m with
  | nil => simp [printCount]
  | cons c cs ih => rw [List.cons_append, printCount, printCount, ih, run_cons, Nat.add_assoc]

theorem printsWith_append_iff {tool : Option Tool} {m : Machine} {cs ds : List Command} :
    m.PrintsWith tool (cs ++ ds) ↔ m.PrintsWith tool cs ∧ (m.run cs).PrintsWith tool ds := by
  induction cs generalizing m with
  | nil => simp [PrintsWith]
  | cons c cs ih => simp only [List.cons_append, PrintsWith, ih, run_cons, and_assoc]

theorem printCount_pos_of_prints {m : Machine} {front back : List Command} {c : Command}
    (h : (m.run front).prints c = true) : 0 < m.printCount (front ++ c :: back) := by
  rw [printCount_append, printCount, if_pos h]
  omega

theorem PrintsWith.tool {tool : Option Tool} {m : Machine} {front back : List Command}
    {c : Command} (h : m.PrintsWith tool (front ++ c :: back))
    (hprints : (m.run front).prints c = true) : (m.run front).tool = tool :=
  (printsWith_append_iff.mp h).2.1 hprints

theorem printsWith_of_printCount_eq_zero {m : Machine} {cs : List Command}
    (h : m.printCount cs = 0) (tool : Option Tool) : m.PrintsWith tool cs := by
  induction cs generalizing m with
  | nil => trivial
  | cons c cs ih =>
      rw [printCount, Nat.add_eq_zero_iff] at h
      refine ⟨fun hprints => ?_, ih h.2⟩
      rw [if_pos hprints] at h
      exact absurd h.1 (by decide)

theorem printCount_eq_zero {m : Machine} {cs : List Command}
    (h : ∀ c ∈ cs, ∀ m : Machine, m.prints c = false) : m.printCount cs = 0 := by
  induction cs generalizing m with
  | nil => rfl
  | cons c cs ih =>
      obtain ⟨hc, hcs⟩ := List.forall_mem_cons.mp h
      rw [printCount, hc m, ih hcs]
      rfl

theorem prints_eq_false_of_inToolChange (m : Machine) {c : Command} (h : c.inToolChange = true) :
    m.prints c = false := by
  simp [prints, h]

theorem prints_eq_false_of_extruded_eq_zero {m : Machine} {c : Command} (h : m.extruded c = 0) :
    m.prints c = false := by
  have hzero : decide ((0 : Float) < 0) = false := by decide +kernel
  rw [prints, h, hzero, Bool.false_and, Bool.false_and]

theorem tool_eq_none_of_prints {m : Machine} {c : Command} (h : m.prints c = true) :
    c.tool = none := by
  cases htool : c.tool with
  | none => rfl
  | some t =>
      rw [prints_eq_false_of_extruded_eq_zero (by simp [extruded, htool])] at h
      exact absurd h (by simp)

theorem prints_eq_false_of_not_movesAxis (m : Machine) {c : Command} (h : c.movesAxis = false) :
    m.prints c = false := by
  cases hmotion : c.isMotion with
  | false => simp [prints, hmotion]
  | true =>
      refine prints_eq_false_of_extruded_eq_zero ?_
      simp only [Command.movesAxis, hmotion, Bool.true_and, Bool.or_eq_false_iff,
        Option.isSome_eq_false_iff, Option.isNone_iff_eq_none] at h
      simp [extruded, h.2]

end Machine

namespace ScannedLine

/-- What a line in its context says about the tool: its segment goes on behind it without
a sequence or a select unless a segment begins there. -/
structure Regular (line : ScannedLine) : Prop where
  prints : line.isPrintMove = line.before.machine.prints line.command
  next : line.next.machine = line.before.machine.step line.command
  outside : line.command.inToolChange = false →
    line.next.sequence = none ∧ line.command.tool = none
  inside : line.boundary = .none → line.before.sequence = none →
    line.next.sequence = none ∧ line.command.tool = none
  opens : line.opens = true → line.command.inToolChange = true

end ScannedLine

namespace Context

theorem nextSequence_eq_none {ctx : Context} {marker : Option Marker} (line : Nat)
    (hsequence : ctx.sequence = none) (hmarker : ∀ slot, marker ≠ some (.toolChangeOpen slot)) :
    ctx.nextSequence marker line = none := by
  unfold nextSequence
  split
  · rename_i slot
    exact absurd rfl (hmarker slot)
  · rfl
  · exact hsequence

theorem isPrintMove_scan (ctx : Context) (n : Nat) (text : String) :
    (ctx.scan n text).isPrintMove = ctx.machine.prints (ctx.scan n text).command := by
  simp only [scan]
  generalize Command.parse n text = c
  rfl

theorem next_sequence_scan (ctx : Context) (n : Nat) (text : String) :
    (ctx.scan n text).next.sequence =
      ctx.nextSequence (Marker.ofCommand (Command.parse n text)) n := by
  simp only [scan, advance]

theorem regular_scan (ctx : Context) (n : Nat) (text : String) : (ctx.scan n text).Regular where
  prints := by
    rw [before_scan]
    exact ctx.isPrintMove_scan n text
  next := by
    rw [before_scan]
    exact ctx.machine_scan n text
  outside := by
    rw [next_sequence_scan, command_scan]
    generalize Command.parse n text = c
    generalize Marker.ofCommand c = marker
    intro h
    change ctx.isMember marker c = false at h
    unfold isMember at h
    split at h
    · exact absurd h (by simp)
    · rename_i hmarker
      simp only [Bool.or_eq_false_iff, Option.isSome_eq_false_iff, Option.isNone_iff_eq_none] at h
      exact ⟨nextSequence_eq_none n h.1 hmarker, h.2⟩
  inside := by
    intro hboundary hsequence
    rw [before_scan] at hsequence
    have hopens : (ctx.scan n text).opens = false := by
      cases hopens : (ctx.scan n text).opens with
      | false => rfl
      | true =>
          rcases ctx.boundary_of_opens n text hopens with h | h
          · exact absurd (h.symm.trans hboundary) (by simp)
          · exact absurd (h.symm.trans hboundary) (by simp)
    rw [opens_scan] at hopens
    rw [next_sequence_scan, command_scan]
    generalize Command.parse n text = c at hopens ⊢
    generalize Marker.ofCommand c = marker at hopens ⊢
    unfold opensSequence at hopens
    rw [hsequence] at hopens
    split at hopens
    · exact absurd hopens (by simp)
    · rename_i hmarker
      refine ⟨nextSequence_eq_none n hsequence hmarker, ?_⟩
      simpa using hopens
    · rename_i hsome
      exact absurd hsome (by simp)
  opens := ctx.inToolChange_of_opens n text

end Context

namespace SegmentDraft

/-- A segment counts its print moves, and they are made with its tool. -/
structure Owned (s : SegmentDraft) : Prop where
  printMoves : s.printMoves = s.entry.printCount s.lines
  tool : s.entry.PrintsWith s.tool s.lines

/-- A settled segment goes on outside sequences with its tool active. -/
def Follows (ctx : Context) (s : SegmentDraft) : Prop :=
  s.settled = true → ctx.sequence = none ∧ ctx.machine.tool = s.tool

theorem owned_start (object : Option String) (entry : Machine) {commands : Array Command}
    (h : ∀ c ∈ commands.toList, ∀ m : Machine, m.prints c = false) :
    (start object entry commands).Owned where
  printMoves := (Machine.printCount_eq_zero h).symm
  tool := Machine.printsWith_of_printCount_eq_zero (Machine.printCount_eq_zero h) entry.tool

theorem follows_start (object : Option String) (entry : Machine) (commands : Array Command)
    (ctx : Context) : (start object entry commands).Follows ctx := by
  intro h
  exact absurd h (by simp [start])

theorem Owned.append {s : SegmentDraft} (h : s.Owned) (htracked : s.Tracked)
    {line : ScannedLine} (hline : line.Regular) (hfollows : s.Follows line.before)
    (hbefore : line.before.machine = s.entry.run s.lines) : (s.append line).Owned where
  printMoves := by
    have hcount : (s.append line).printMoves =
        s.printMoves + if line.isPrintMove then 1 else 0 := by
      simp only [SegmentDraft.append]
      split <;> rfl
    rw [hcount, lines_append, h.printMoves, hline.prints, hbefore]
    exact (Machine.printCount_append s.entry s.lines [line.command]).symm
  tool := by
    rw [lines_append]
    refine Machine.printsWith_append_iff.mpr ⟨?_, ?_, trivial⟩
    · cases hsettled : s.settled with
      | true =>
          rw [show (s.append line).tool = s.tool by simp [SegmentDraft.append, hsettled]]
          exact h.tool
      | false =>
          have hnone : s.entry.printCount s.lines = 0 :=
            h.printMoves.symm.trans (htracked.silent hsettled)
          exact Machine.printsWith_of_printCount_eq_zero hnone _
    · -- A print move selects no tool, so the one behind it was active in front of it.
      intro hprints
      have hstate : (s.append line).entry.run s.lines = line.before.machine := hbefore.symm
      rw [hstate] at hprints ⊢
      have hkeeps : line.next.machine.tool = line.before.machine.tool := by
        rw [hline.next, Machine.tool_step, Machine.tool_eq_none_of_prints hprints, Option.none_or]
      cases hsettled : s.settled with
      | true =>
          rw [show (s.append line).tool = s.tool by simp [SegmentDraft.append, hsettled]]
          exact (hfollows hsettled).2
      | false =>
          rw [show (s.append line).tool = line.next.machine.tool by
            simp [SegmentDraft.append, hsettled], hkeeps]

theorem Follows.append {s : SegmentDraft} {line : ScannedLine} (h : s.Follows line.before)
    (hline : line.Regular) (hboundary : s.settled = true → line.boundary = .none) :
    (s.append line).Follows line.next := by
  intro hnow
  cases hsettled : s.settled with
  | true =>
      obtain ⟨hsequence, htool⟩ := h hsettled
      obtain ⟨hnext, hselect⟩ := hline.inside (hboundary hsettled) hsequence
      refine ⟨hnext, ?_⟩
      rw [hline.next, Machine.tool_step, hselect, Option.none_or, htool]
      simp [SegmentDraft.append, hsettled]
  | false =>
      rw [settled_append, hsettled, Bool.false_or, Command.fixesTool, Bool.and_eq_true,
        Bool.not_eq_true'] at hnow
      refine ⟨(hline.outside hnow.1).1, ?_⟩
      simp [SegmentDraft.append, hsettled]

/-- One line keeps the segments of a layer owned, and the newest one follows the line. -/
theorem Stack.owned_adds {m : Machine} {line : ScannedLine} {segments next : List SegmentDraft}
    (hstack : Stack m segments) (hadds : Adds line segments next) (hline : line.Regular)
    (hbefore : line.before.machine = m.run (linesOf segments))
    (howned : ∀ s ∈ segments, s.Owned) (hnewest : ∀ s ∈ segments.head?, s.Follows line.before) :
    (∀ s ∈ next, s.Owned) ∧ ∀ s ∈ next.head?, s.Follows line.next := by
  have hfresh : ((start line.next.object line.before.machine #[]).append line).Owned :=
    (owned_start _ _ (by simp)).append (tracked_start _ _ _) hline
      (follows_start _ _ _ _) rfl
  have hbegins : ((start line.next.object line.before.machine #[]).append line).Follows
      line.next :=
    (follows_start _ _ _ _).append hline fun hsettled => absurd hsettled (by simp [start])
  have happend {last : SegmentDraft} {rest : List SegmentDraft} (heq : segments = last :: rest) :
      (last.append line).Owned := by
    subst heq
    obtain ⟨-, hentry⟩ := chained_cons_iff.mp hstack.chained
    refine (howned last List.mem_cons_self).append (hstack.tracked last List.mem_cons_self)
      hline (hnewest last rfl) ?_
    rw [hbefore, hentry, linesOf_cons, Machine.run_append]
  cases hadds with
  | @inside last rest hboundary =>
      refine ⟨List.forall_mem_cons.mpr ⟨happend rfl, (List.forall_mem_cons.mp howned).2⟩, ?_⟩
      intro s hs
      obtain rfl := Option.some.inj hs
      exact (hnewest last rfl).append hline fun _ => hboundary
  | @replacing last rest _ _ =>
      refine ⟨List.forall_mem_cons.mpr ⟨hfresh, (List.forall_mem_cons.mp howned).2⟩, ?_⟩
      intro s hs
      obtain rfl := Option.some.inj hs
      exact hbegins
  | @before last rest _ _ =>
      refine ⟨List.forall_mem_cons.mpr ⟨hfresh, howned⟩, ?_⟩
      intro s hs
      obtain rfl := Option.some.inj hs
      exact hbegins
  | @after last rest _ =>
      refine ⟨List.forall_mem_cons.mpr ⟨owned_start _ _ (by simp),
        List.forall_mem_cons.mpr ⟨happend rfl, (List.forall_mem_cons.mp howned).2⟩⟩, ?_⟩
      intro s hs
      obtain rfl := Option.some.inj hs
      exact follows_start _ _ _ _

theorem Owned.cut {s cut : SegmentDraft} (h : s.Owned) {front : List Command} {c : Command}
    (hlines : s.lines = front ++ [c]) (htag : c.inToolChange = true)
    (hcut : cut.lines = front ∧ cut.entry = s.entry ∧ cut.tool = s.tool ∧
      cut.printMoves = s.printMoves) : cut.Owned := by
  obtain ⟨hfront, hentry, htool, hmoves⟩ := hcut
  constructor
  · rw [hmoves, hfront, hentry, h.printMoves, hlines, Machine.printCount_append,
      Machine.printCount, Machine.prints_eq_false_of_inToolChange _ htag]
    rfl
  · have hprints := h.tool
    rw [hlines, Machine.printsWith_append_iff] at hprints
    rw [hfront, hentry, htool]
    exact hprints.1

/-- Taking a lead-in back leaves owned segments on both sides, and the newest one stays
where it is. -/
theorem owned_splitTail {m entry : Machine} {count : Nat} {segments : List SegmentDraft}
    (hlead : EndsInLead m entry count segments) (object : Option String)
    (howned : ∀ s ∈ segments, s.Owned) :
    (∀ s ∈ (LayerDraft.splitTail object entry count [] segments).1, s.Owned) ∧
      (∀ s ∈ (LayerDraft.splitTail object entry count [] segments).2, s.Owned) ∧
      (LayerDraft.splitTail object entry count [] segments).2.reverse.head? =
        segments.head? := by
  obtain ⟨newer, first, older, front, back, rfl, hstands⟩ := hlead
  rw [List.forall_mem_append, List.forall_mem_cons] at howned
  obtain ⟨hnewer, hfirst, holder⟩ := howned
  rw [splitTail_of_leadStands object entry hstands]
  by_cases hfront : front = []
  · rw [if_pos hfront]
    refine ⟨holder, List.forall_mem_cons.mpr ⟨hfirst, ?_⟩, ?_⟩
    · intro s hs
      exact hnewer s (List.mem_reverse.mp hs)
    · rw [List.reverse_cons, List.reverse_reverse]
      cases newer <;> rfl
  · rw [if_neg hfront]
    obtain ⟨hne, ⟨c, rfl, htag⟩, -⟩ := hstands.opener hfront
    have hcommands : first.commands.toList = front ++ [c] := hstands.lines
    have hsize : first.commands.size = front.length + 1 := by
      rw [← Array.length_toList, hcommands, List.length_append, List.length_singleton]
    have hkept : SegmentDraft.lines
        { first with commands := first.commands.take front.length } = front := by
      simp [SegmentDraft.lines, hcommands]
    have htaken : (first.commands.drop front.length).toList = [c] := by
      simp [hcommands, hsize]
    refine ⟨List.forall_mem_cons.mpr
      ⟨hfirst.cut hstands.lines htag ⟨hkept, rfl, rfl, rfl⟩, holder⟩,
      List.forall_mem_cons.mpr ⟨owned_start object entry ?_, ?_⟩, ?_⟩
    · rw [htaken, List.forall_mem_singleton]
      intro m
      exact m.prints_eq_false_of_inToolChange htag
    · intro s hs
      exact hnewer s (List.mem_reverse.mp hs)
    · obtain ⟨last, rest, rfl⟩ := List.exists_cons_of_ne_nil hne
      rw [List.reverse_cons, List.reverse_reverse]
      rfl

end SegmentDraft

end ToolBatching
