import ToolBatching.Optimization
import ToolBatching.Proofs.Scheduling.Partition
import ToolBatching.Proofs.ToolTimeline
import ToolBatching.Proofs.Writing.Body

namespace ToolBatching

/-- The tools in a row that change the active one. -/
def switches (active : Option Tool) : List Tool → List Tool
  | [] => []
  | t :: rest => if active = some t then switches active rest else t :: switches (some t) rest

theorem length_switches (active : Option Tool) (tools : List Tool) :
    (switches active tools).length = countToolChanges.go active tools := by
  induction tools generalizing active with
  | nil => rfl
  | cons t rest ih =>
      rw [switches, countToolChanges.go]
      by_cases hsame : active = some t
      · rw [if_pos hsame, if_pos hsame, ih, hsame, Nat.zero_add]
      · rw [if_neg hsame, if_neg hsame, List.length_cons, ih, Nat.add_comm]

theorem go_switches (active : Option Tool) (tools : List Tool) :
    countToolChanges.go active (switches active tools) = countToolChanges.go active tools := by
  induction tools generalizing active with
  | nil => rfl
  | cons t rest ih =>
      rw [switches, countToolChanges.go]
      by_cases hsame : active = some t
      · rw [if_pos hsame, if_pos hsame, ih, hsame, Nat.zero_add]
      · rw [if_neg hsame, if_neg hsame, countToolChanges.go, if_neg hsame, ih]

theorem filterMap_eq_of_map_eq {α β γ : Type} {f : α → Option γ} {g : β → Option γ} {xs : List α}
    {ys : List β} (h : xs.map f = ys.map g) : xs.filterMap f = ys.filterMap g := by
  have hids := congrArg (List.filterMap id) h
  simpa [List.filterMap_map] using hids

namespace Writer

theorem dueSelects_dueChange (w : Writer) (p : BodyPlan) (layer : Layer) {tool : Option Tool}
    (htool : ∀ t : Nat, tool = some t → t < 10) :
    w.dueSelects p layer (w.dueChange tool) = switches w.machine.tool tool.toList := by
  cases tool with
  | none => rfl
  | some t =>
      by_cases hsame : w.machine.tool = some t
      · simp only [dueChange, if_pos hsame, dueSelects, Option.toList_some, switches]
      · have hblock := p.settings.toolChange.flavor.filterMap_tool_render
          (v := { source := w.machine.tool, tool := t,
                  temperature := p.settings.toolChange.temperature t,
                  ceiling := (w.mark p layer).ensureAbsolute.ceiling }) rfl (htool t rfl)
        simp only [dueChange, if_neg hsame, dueSelects, ToolChange.block, hblock,
          Option.toList_some, switches]

theorem emits_job_switches (w : Writer) (p : BodyPlan) {j : Job}
    (hscanned : ∀ s ∈ j.segments, s.Scanned) (hvisits : j.visits ≠ [])
    (htool : ∀ t : Nat, j.tool = some t → t < 10) :
    Emits w (j.segments.flatMap Segment.kept) (switches w.machine.tool j.tool.toList)
      (switches w.machine.tool j.tool.toList).length (w.job p j) := by
  have hjob := w.emits_job p hscanned
  obtain ⟨first, rest, hfirst⟩ := List.exists_cons_of_ne_nil hvisits
  have hselects : w.jobSelects p j = switches w.machine.tool j.tool.toList := by
    rw [jobSelects, hfirst]
    exact w.dueSelects_dueChange p first.layer htool
  have hchanges : w.jobChanges j = (switches w.machine.tool j.tool.toList).length := by
    rw [jobChanges, hfirst]
    cases hj : j.tool with
    | none => rfl
    | some t =>
        by_cases hsame : w.machine.tool = some t
        · simp [dueChange, hsame, switches]
        · simp [dueChange, hsame, switches]
  rwa [hselects, hchanges] at hjob

theorem switches_append_option (active tool : Option Tool) (tools : List Tool) :
    switches active (tool.toList ++ tools) =
      switches active tool.toList ++
        switches ((switches active tool.toList).getLast?.or active) tools := by
  cases tool with
  | none => rfl
  | some t =>
      rw [Option.toList_some, List.singleton_append, switches, switches]
      by_cases hsame : active = some t
      · rw [if_pos hsame, if_pos hsame]
        rfl
      · rw [if_neg hsame, if_neg hsame]
        rfl

theorem emits_jobs_switches (w : Writer) (p : BodyPlan) {jobs : List Job}
    (hscanned : ∀ j ∈ jobs, ∀ s ∈ j.segments, s.Scanned) (hvisits : ∀ j ∈ jobs, j.visits ≠ [])
    (htools : ∀ j ∈ jobs, ∀ t : Nat, j.tool = some t → t < 10) :
    Emits w ((jobs.flatMap Job.segments).flatMap Segment.kept)
      (switches w.machine.tool (jobs.filterMap Job.tool))
      (switches w.machine.tool (jobs.filterMap Job.tool)).length
      (jobs.foldl (fun w j => w.job p j) w) := by
  induction jobs generalizing w with
  | nil => exact .refl w
  | cons j jobs ih =>
      obtain ⟨hj, hscanned⟩ := List.forall_mem_cons.mp hscanned
      obtain ⟨hjVisits, hvisits⟩ := List.forall_mem_cons.mp hvisits
      obtain ⟨hjTool, htools⟩ := List.forall_mem_cons.mp htools
      have hfirst := w.emits_job_switches p hj hjVisits hjTool
      have hrest := ih (w.job p j) hscanned hvisits htools
      rw [hfirst.tool] at hrest
      have hcons : (j :: jobs).filterMap Job.tool = j.tool.toList ++ jobs.filterMap Job.tool := by
        cases htool : j.tool with
        | none => rw [List.filterMap_cons_none htool]; rfl
        | some t => rw [List.filterMap_cons_some htool]; rfl
      rw [List.flatMap_cons, List.flatMap_append, hcons, switches_append_option,
        List.length_append]
      exact hfirst.trans hrest

end Writer

namespace Program

variable {lines : List Command} {p : Program}

theorem Read.mem_tool_of_shows (h : Read lines p) {s : Segment} (hs : s ∈ p.segments) {t : Tool}
    (hshows : s.entry.Shows s.commands (some t)) : ∃ c ∈ lines, c.tool = some t := by
  obtain ⟨before, hentry, hprefix⟩ := h.chained.exists_run hs
  obtain ⟨front, hfront, htool⟩ := hshows
  rw [hentry, h.preambleState, ← Machine.run_append, ← Machine.run_append,
    Machine.tool_run] at htool
  have hselected : t ∈ (p.preamble ++ before ++ front).filterMap Command.tool := by
    refine List.mem_of_getLast? ?_
    simpa using htool
  obtain ⟨c, hc, ht⟩ := List.mem_filterMap.mp hselected
  refine ⟨c, ?_, ht⟩
  rw [← h.commands, Program.commands]
  refine List.mem_append_left _ ?_
  rw [List.append_assoc] at hc
  rcases List.mem_append.mp hc with hc | hc
  · exact List.mem_append_left _ hc
  · refine List.mem_append_right _ ?_
    rw [← commands_segments]
    exact (((List.prefix_append_right_inj before).mpr hfront).trans hprefix).subset hc

theorem Read.exists_picked (h : Read lines p) (c : Clearance) (cap : Nat) :
    ∃ picked : List Segment, picked.Sublist p.segments ∧
      (c.schedule cap p.units).batches.map Batch.tool = picked.map Segment.tool ∧
      ∀ s ∈ picked, s.entry.Shows s.commands s.tool := by
  obtain ⟨groups, hgroups, hbatches⟩ := h.exists_groups c cap
  obtain ⟨anchors, hanchors, -, htools, hshows⟩ := h.cover_units.anchors
  have hstarts : (groups.filterMap List.head?).map PrintUnit.tool =
      (groups.map Batch.ofUnits).map Batch.tool := by
    rw [← List.forall₂_eq_eq_eq, List.forall₂_map_left_iff, List.forall₂_map_right_iff]
    exact (starts_ofUnits hgroups.ne_nil).imp fun _ _ hstart => hstart.2
  have hsub := hgroups.starts_sublist.map PrintUnit.tool
  rw [htools] at hsub
  obtain ⟨picked, hpicked, heq⟩ := List.sublist_map_iff.mp hsub
  refine ⟨picked, hpicked.trans hanchors, ?_, fun s hs => hshows s (hpicked.subset hs)⟩
  rw [hbatches, ← hstarts, heq]

theorem Read.toolSwitches_le (h : Read lines p) (c : Clearance) (cap : Nat) :
    (c.schedule cap p.units).toolSwitches p.preambleState.tool ≤ p.toolChangeCount := by
  obtain ⟨picked, hsub, htools, hshows⟩ := h.exists_picked c cap
  rw [Plan.toolSwitches_eq, filterMap_eq_of_map_eq htools, toolChangeCount, countToolChanges,
    ← commands_segments]
  exact countToolChanges.go_filterMap_le_of_sublist hsub h.chained hshows

/-- Batching never adds tool changes: the tool-change blocks that are written, the changes
of the body and the switches of the schedule are equally many, and no more than the layers
of the text have. -/
theorem toolChanges_schedule_le (text : String) (settings : Settings) :
    let p := ofText text
    let plan := p.schedule settings
    let initial := p.preambleState.tool
    ∃ body, p.synthesize plan settings = .ok body ∧
      body.counts.toolChanges = plan.toolSwitches initial ∧
      countToolChanges initial body.commands = plan.toolSwitches initial ∧
      plan.toolSwitches initial ≤ p.toolChangeCount := by
  intro p plan initial
  have h : Read (readCommands text) p := read_ofText text
  have hperm : plan.members.Perm p.segmentIds :=
    h.members_schedule_perm (Clearance.ofProgram p settings.nozzle settings.clearance)
      settings.maxBatchLayers
  obtain ⟨jobs, hjobs, htools, -, hscanned, hvisits⟩ :=
    exists_jobs text fun id hid => hperm.mem_iff.mp hid
  have hmembers : ∀ b ∈ plan.batches, b.members ≠ [] := by
    intro b hb
    exact (h.wellFormed_of_mem_schedule settings.nozzle settings.clearance
      settings.maxBatchLayers hb).nonempty
  -- A block selects its tool by one digit, and tools of batches come from selects.
  have hdigits : ∀ j ∈ jobs, ∀ t : Nat, j.tool = some t → t < 10 := by
    intro j hj t ht
    obtain ⟨picked, hsub, hpicked, hshows⟩ :=
      h.exists_picked (Clearance.ofProgram p settings.nozzle settings.clearance)
        settings.maxBatchLayers
    have hmem : j.tool ∈ jobs.map Job.tool := List.mem_map_of_mem hj
    rw [htools, show plan.batches.map Batch.tool = picked.map Segment.tool from hpicked] at hmem
    obtain ⟨s, hs, hsame⟩ := List.mem_map.mp hmem
    have hmoment := hshows s hs
    rw [hsame, ht] at hmoment
    obtain ⟨c, hc, hselect⟩ := h.mem_tool_of_shows (hsub.subset hs) hmoment
    exact (tool_of_mem_readCommands text hc hselect).2
  have hemits := Writer.emits_jobs_switches { machine := p.preambleState }
    { program := p, settings, total := plan.visitCount } hscanned (hvisits hmembers) hdigits
  rw [filterMap_eq_of_map_eq htools] at hemits
  obtain ⟨body, hbody, -, hselects, hchanges⟩ := synthesize_eq_ok hjobs settings hemits
  refine ⟨body, hbody, ?_, ?_, h.toolSwitches_le _ settings.maxBatchLayers⟩
  · rw [hchanges, length_switches, Plan.toolSwitches_eq]
  · rw [countToolChanges, hselects, go_switches, Plan.toolSwitches_eq]

end Program

end ToolBatching
