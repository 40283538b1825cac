import ToolBatching.Optimization
import ToolBatching.Proofs.Scheduling.Partition
import ToolBatching.Proofs.Writing.Body

namespace ToolBatching

theorem filter_key_eq_singleton {α β : Type} [DecidableEq β] {key : α → β} {items : List α}
    (hnodup : (items.map key).Nodup) {a : α} (ha : a ∈ items) :
    items.filter (fun b => decide (key b = key a)) = [a] := by
  induction items with
  | nil => exact absurd ha (by simp)
  | cons first rest ih =>
      rw [List.map_cons, List.nodup_cons] at hnodup
      obtain ⟨hfirst, hrest⟩ := hnodup
      rcases List.mem_cons.mp ha with rfl | hin
      · rw [List.filter_cons_of_pos (by simp), List.filter_eq_nil_iff.mpr]
        intro b hb
        have hne : key b ≠ key a := by
          intro heq
          exact hfirst (heq ▸ List.mem_map_of_mem hb)
        simpa using hne
      · have hne : key first ≠ key a := by
          intro heq
          exact hfirst (heq ▸ List.mem_map_of_mem hin)
        rw [List.filter_cons_of_neg (by simpa using hne)]
        exact ih hrest hin

namespace Program

variable {lines : List Command} {p : Program}

theorem Read.filterMap_segmentIds (h : Read lines p) :
    p.segmentIds.filterMap p.segment? = p.segments := by
  have hfound : ∀ segments : List Segment, (∀ s ∈ segments, s ∈ p.segments) →
      (segments.map Segment.id).filterMap p.segment? = segments := by
    intro segments hsegments
    induction segments with
    | nil => rfl
    | cons s rest ih =>
        obtain ⟨hs, hrest⟩ := List.forall_mem_cons.mp hsegments
        rw [List.map_cons, List.filterMap_cons_some (h.segment?_id hs), ih hrest]
  exact hfound p.segments fun s hs => hs

theorem kept_segments (p : Program) :
    p.segments.flatMap Segment.kept = p.bodyCommands.filter Writer.keeps := by
  rw [← commands_segments, List.filter_flatMap]
  rfl

theorem lines_bodyCommands_nodup (text : String) :
    ((ofText text).bodyCommands.map Command.line).Nodup := by
  have hnodup : ((readCommands text).map Command.line).Nodup := by
    rw [map_line_readCommands]
    exact List.nodup_range.map (Option.some_injective Nat)
  rw [← (read_ofText text).commands, Program.commands] at hnodup
  refine hnodup.sublist (List.Sublist.map Command.line ?_)
  exact (List.sublist_append_right _ _).trans (List.sublist_append_left _ _)

theorem exists_synthesize (text : String) {plan : Plan}
    (hplan : ∀ id ∈ plan.members, id ∈ (ofText text).segmentIds) (settings : Settings) :
    ∃ body, (ofText text).synthesize plan settings = .ok body ∧
      body.commands.filter (fun c => c.line.isSome) =
        (plan.members.filterMap (ofText text).segment?).flatMap Segment.kept := by
  obtain ⟨jobs, hjobs, -, hprinted, hscanned, -⟩ := exists_jobs text hplan
  obtain ⟨selects, changes, hemits⟩ := Writer.emits_jobs { machine := (ofText text).preambleState }
    { program := ofText text, settings, total := plan.visitCount } hscanned
  obtain ⟨body, hbody, hown, -, -⟩ := synthesize_eq_ok hjobs settings hemits
  rw [hprinted] at hown
  exact ⟨body, hbody, hown⟩

/-- Every kept command of the layers occurs once in the body of the schedule. -/
theorem filter_line_of_schedule (text : String) (settings : Settings) {body : Body}
    (hbody : (ofText text).synthesize ((ofText text).schedule settings) settings = .ok body)
    {c : Command} (hc : c ∈ (ofText text).bodyCommands) (hkeeps : Writer.keeps c = true) :
    body.commands.filter (fun d => decide (d.line = c.line)) = [c] := by
  have h : Read (readCommands text) (ofText text) := read_ofText text
  have hperm : ((ofText text).schedule settings).members.Perm (ofText text).segmentIds :=
    h.members_schedule_perm
      (Clearance.ofProgram (ofText text) settings.nozzle settings.clearance)
      settings.maxBatchLayers
  obtain ⟨body', hbody', hown⟩ := exists_synthesize text
    (fun id hid => hperm.mem_iff.mp hid) settings
  obtain rfl : body = body' := Except.ok.inj (hbody.symm.trans hbody')
  -- The schedule permutes the segments, and segments in program order tile the layers.
  have hkept : (body.commands.filter fun c => c.line.isSome).Perm
      ((ofText text).bodyCommands.filter Writer.keeps) := by
    rw [hown, ← kept_segments, ← h.filterMap_segmentIds]
    exact (hperm.filterMap (ofText text).segment?).flatMap_right Segment.kept
  have hmem : c ∈ (ofText text).bodyCommands.filter Writer.keeps :=
    List.mem_filter.mpr ⟨hc, hkeeps⟩
  have hline : c.line.isSome = true := by
    have hin : c ∈ body.commands.filter fun c => c.line.isSome := hkept.mem_iff.mpr hmem
    exact (List.mem_filter.mp hin).2
  have hsource : body.commands.filter (fun d => decide (d.line = c.line)) =
      (body.commands.filter fun c => c.line.isSome).filter
        (fun d => decide (d.line = c.line)) := by
    rw [List.filter_filter]
    refine List.filter_congr fun d _ => ?_
    by_cases heq : d.line = c.line
    · simp [heq, hline]
    · simp [heq]
  -- Line numbers tell the commands of the layers apart.
  have hnodup : (((ofText text).bodyCommands.filter Writer.keeps).map Command.line).Nodup :=
    (lines_bodyCommands_nodup text).sublist (List.filter_sublist.map Command.line)
  rw [hsource, ← List.perm_singleton, ← filter_key_eq_singleton hnodup hmem]
  exact hkept.filter _

/-- No line is lost and none is written twice: the source lines of a body are the kept
commands of the plan's segments in the order of the plan, and under the schedule every
kept command of the layers occurs exactly once. -/
theorem synthesize_source_lines (text : String) (settings : Settings) :
    let p := ofText text
    (∀ plan : Plan, (∀ id ∈ plan.members, id ∈ p.segmentIds) →
      ∃ body, p.synthesize plan settings = .ok body ∧
        body.commands.filter (fun c => c.line.isSome) =
          (plan.members.filterMap p.segment?).flatMap fun s =>
            s.commands.filter Writer.keeps) ∧
    ∃ body, p.synthesize (p.schedule settings) settings = .ok body ∧
      ∀ c ∈ p.bodyCommands, Writer.keeps c = true →
        body.commands.filter (fun d => decide (d.line = c.line)) = [c] := by
  intro p
  refine ⟨fun plan hplan => exists_synthesize text hplan settings, ?_⟩
  have hperm : (p.schedule settings).members.Perm p.segmentIds :=
    (read_ofText text).members_schedule_perm
      (Clearance.ofProgram p settings.nozzle settings.clearance) settings.maxBatchLayers
  obtain ⟨body, hbody, -⟩ := exists_synthesize text (fun id hid => hperm.mem_iff.mp hid) settings
  refine ⟨body, hbody, ?_⟩
  intro c hc hkeeps
  exact filter_line_of_schedule text settings hbody hc hkeeps

/-- Printing the upper of two layers first puts its line first. The layer markers and the
tool-change sequence are stripped. -/
theorem synthesize_source_lines_upper_first :
    let p := ofText ("; layer num/total_layer_count: 1/2\nM620 S1A\nT1\nM621 S1A\nG1 Z1\n" ++
      "; layer num/total_layer_count: 2/2\nG1 Z2\n")
    (p.bodyCommands.filter fun c => !Writer.keeps c).map Command.raw =
        ["; layer num/total_layer_count: 1/2", "M620 S1A", "T1", "M621 S1A",
          "; layer num/total_layer_count: 2/2"] ∧
      (∃ body, p.synthesize
          ⟨[⟨some 1, 2, 2, [⟨2, 0⟩]⟩, ⟨some 1, 1, 1, [⟨1, 0⟩, ⟨1, 1⟩]⟩]⟩ {} = .ok body ∧
        (body.commands.filter fun c => c.line.isSome).map Command.raw = ["G1 Z2", "G1 Z1"]) ∧
      ∃ body, p.synthesize (p.schedule {}) {} = .ok body ∧
        body.commands.filter (fun d => decide (d.line = some 4)) = [Command.parse 4 "G1 Z1"] := by
  intro p
  obtain ⟨hplans, body, hbody, honce⟩ := synthesize_source_lines
    ("; layer num/total_layer_count: 1/2\nM620 S1A\nT1\nM621 S1A\nG1 Z1\n" ++
      "; layer num/total_layer_count: 2/2\nG1 Z2\n") {}
  refine ⟨by decide +kernel, ?_, body, hbody, ?_⟩
  · obtain ⟨body, hbody, hown⟩ := hplans
      ⟨[⟨some 1, 2, 2, [⟨2, 0⟩]⟩, ⟨some 1, 1, 1, [⟨1, 0⟩, ⟨1, 1⟩]⟩]⟩ (by decide +kernel)
    refine ⟨body, hbody, ?_⟩
    rw [hown]
    decide +kernel
  · exact honce (Command.parse 4 "G1 Z1") (by decide +kernel) (by decide +kernel)

end Program

end ToolBatching
