import ToolBatching.Proofs.Reading.Tiling

namespace ToolBatching

/-- Machine state in front of the line with an index. -/
def stateAt (lines : List String) (n : Nat) : Machine :=
  Machine.run {} ((lines.mapIdx Command.parse).take n)

/-- Commands begin with some line of the program and record the state in front of it. -/
def EntersAt (lines : List String) (entry : Machine) (commands : List Command) : Prop :=
  ∃ first rest n, commands = first :: rest ∧ first.line = some n ∧ entry = stateAt lines n

namespace Machine

theorem run_untagged (m : Machine) (cs : List Command) :
    m.run (cs.map Command.untagged) = m.run cs := by
  induction cs generalizing m with
  | nil => rfl
  | cons c cs ih => rw [List.map_cons, run_cons, run_cons, ih, Command.untagged, step_tagged]

end Machine

namespace Layer

theorem AllSound.chained_layers {index : Nat} {m : Machine} {layers : List Layer}
    (h : AllSound index m layers) : Chained Layer.entry Layer.commands m layers := by
  induction layers generalizing index m with
  | nil => trivial
  | cons l rest ih => exact ⟨h.1.entry, ih h.2⟩

theorem commands_ne_nil {l : Layer} (hne : l.segments ≠ [])
    (hlines : ∀ s ∈ l.segments, s.commands ≠ []) : l.commands ≠ [] := by
  obtain ⟨s, rest, hsegments⟩ := List.exists_cons_of_ne_nil hne
  rw [hsegments] at hlines
  rw [commands, hsegments, List.flatMap_cons]
  exact List.append_ne_nil_of_left_ne_nil (hlines s List.mem_cons_self) _

end Layer

namespace Segment

theorem Tiles.commands_ne_nil {first last : Nat} {segments : List Segment}
    (h : Tiles first last segments) : ∀ s ∈ segments, s.commands ≠ [] := by
  induction segments generalizing first with
  | nil => simp
  | cons s rest ih =>
      obtain ⟨-, hlt, hrest⟩ := h
      refine List.forall_mem_cons.mpr ⟨?_, ih hrest⟩
      rw [stop] at hlt
      exact List.ne_nil_of_length_pos (by omega)

end Segment

theorem line_scanLines (ctx : Context) (start : Nat) {lines : List String}
    {front back : List Command} {c : Command}
    (h : (scanLines ctx start lines).map ScannedLine.command = front ++ c :: back) :
    c.line = some (start + front.length) := by
  have hlines := map_line_scanLines ctx start lines
  rw [← Function.comp_def, ← List.map_map, h, List.map_append, List.map_cons] at hlines
  have hplace := congrArg (·[front.length]?) hlines
  have hshort : front.length < lines.length := by
    have hlength := congrArg List.length hlines
    simp only [List.length_append, List.length_map, List.length_cons, List.length_range'] at hlength
    omega
  simpa [hshort] using hplace

theorem run_prefix_scanLines {lines : List String} {front : List Command}
    (h : front <+: (scanLines {} 0 lines).map ScannedLine.command) :
    Machine.run {} front = stateAt lines front.length := by
  obtain ⟨back, hback⟩ := h
  have huntagged := untagged_scanLines {} 0 lines
  simp only [Nat.zero_add] at huntagged
  rw [← Function.comp_def, ← List.map_map, ← hback] at huntagged
  rw [stateAt, ← Machine.run_untagged]
  have hfront := congrArg (List.take front.length) huntagged
  rw [List.map_append, List.take_left' (List.length_map _)] at hfront
  exact congrArg _ hfront

namespace Program

variable {lines : List String} {p : Program}

theorem Read.stateAt_of_mem {α : Type} {entry : α → Machine} {commands : α → List Command}
    (h : Read ((scanLines {} 0 lines).map ScannedLine.command) p) {items : List α}
    (hchained : Chained entry commands p.preambleState items)
    (hitems : items.flatMap commands = p.bodyCommands) {a : α} (ha : a ∈ items)
    {front back : List Command} {c : Command} (hcommands : commands a = front ++ c :: back) :
    ∃ n, c.line = some n ∧ (entry a).run front = stateAt lines n := by
  obtain ⟨before, hentry, hprefix⟩ := hchained.exists_run ha
  rw [hitems, hcommands] at hprefix
  obtain ⟨rest, hrest⟩ := hprefix
  have hfile : (scanLines {} 0 lines).map ScannedLine.command =
      (p.preamble ++ before ++ front) ++ c :: (back ++ rest ++ p.postamble) := by
    rw [← h.commands, Program.commands, ← hrest]
    simp
  refine ⟨(p.preamble ++ before ++ front).length, ?_, ?_⟩
  · simpa using line_scanLines {} 0 hfile
  · rw [hentry, h.preambleState, ← Machine.run_append, ← Machine.run_append, ← List.append_assoc]
    exact run_prefix_scanLines ⟨_, hfile.symm⟩

theorem Read.entersAt {α : Type} {entry : α → Machine} {commands : α → List Command}
    (h : Read ((scanLines {} 0 lines).map ScannedLine.command) p) {items : List α}
    (hchained : Chained entry commands p.preambleState items)
    (hitems : items.flatMap commands = p.bodyCommands) {a : α} (ha : a ∈ items)
    (hne : commands a ≠ []) : EntersAt lines (entry a) (commands a) := by
  obtain ⟨first, rest, hcommands⟩ := List.exists_cons_of_ne_nil hne
  have hsplit : commands a = [] ++ first :: rest := hcommands
  obtain ⟨n, hn, hstate⟩ := h.stateAt_of_mem hchained hitems ha hsplit
  exact ⟨first, rest, n, hcommands, hn, hstate⟩

/-- Every entry that a program records is the state in front of its first command, also
where a lead-in was taken back; so are the states behind the preamble and the layers. -/
theorem ofLines_entries (lines : List String) (lineEnding : LineEnding) :
    (∀ l ∈ (ofLines lines lineEnding).layers, EntersAt lines l.entry l.commands) ∧
      (∀ s ∈ (ofLines lines lineEnding).segments, EntersAt lines s.entry s.commands) ∧
      (ofLines lines lineEnding).preambleState =
        stateAt lines (ofLines lines lineEnding).preamble.length ∧
      (ofLines lines lineEnding).exit =
        stateAt lines ((ofLines lines lineEnding).preamble ++
          (ofLines lines lineEnding).bodyCommands).length := by
  have hread := read_ofLines lines lineEnding
  have hlines : ∀ l ∈ (ofLines lines lineEnding).layers, ∀ s ∈ l.segments, s.commands ≠ [] :=
    fun l hl => (tiles_of_mem_layers lines lineEnding hl).commands_ne_nil
  refine ⟨fun l hl => ?_, fun s hs => ?_, ?_, ?_⟩
  · obtain ⟨m, hsound⟩ := hread.layers.of_mem hl
    exact hread.entersAt hread.layers.chained_layers rfl hl
      (Layer.commands_ne_nil hsound.nonempty (hlines l hl))
  · obtain ⟨l, hl, hin⟩ := List.mem_flatMap.mp hs
    exact hread.entersAt hread.chained (commands_segments _) hs (hlines l hl s hin)
  · rw [hread.preambleState]
    refine run_prefix_scanLines ?_
    rw [← hread.commands, Program.commands, List.append_assoc]
    exact List.prefix_append _ _
  · rw [hread.exit]
    refine run_prefix_scanLines ?_
    rw [← hread.commands, Program.commands]
    exact List.prefix_append _ _

end Program

end ToolBatching
