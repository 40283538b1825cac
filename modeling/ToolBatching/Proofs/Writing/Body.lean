import ToolBatching.Proofs.Reading.Program
import ToolBatching.Proofs.Writing.Emission

namespace ToolBatching

/-- Segments of a job in the order they are printed. -/
def Job.segments (j : Job) : List Segment :=
  j.visits.flatMap Visit.segments

namespace Program

variable {lines : List Command} {p : Program}

theorem mapM_findSegment {ids : List SegmentId}
    (hids : ∀ id ∈ ids, (p.segment? id).isSome = true) :
    ids.mapM p.findSegment = .ok (ids.filterMap p.segment?) := by
  induction ids with
  | nil => rfl
  | cons id ids ih =>
      obtain ⟨hid, hrest⟩ := List.forall_mem_cons.mp hids
      obtain ⟨s, hs⟩ := Option.isSome_iff_exists.mp hid
      have hfind : p.findSegment id = .ok s := by
        rw [findSegment, hs]
      rw [List.mapM_cons, hfind, ih hrest, List.filterMap_cons_some hs]
      rfl

theorem resolveVisit_eq_ok {first : SegmentId} {rest : List SegmentId}
    (hids : ∀ id ∈ first :: rest, (p.segment? id).isSome = true) :
    ∃ v, p.resolveVisit first rest = .ok v ∧
      v.segments = (first :: rest).filterMap p.segment? := by
  obtain ⟨s, hs⟩ := Option.isSome_iff_exists.mp (hids first List.mem_cons_self)
  obtain ⟨l, hl, -⟩ := Option.bind_eq_some_iff.mp hs
  refine ⟨⟨l, (first :: rest).filterMap p.segment?⟩, ?_, rfl⟩
  rw [resolveVisit, hl]
  simp only [mapM_findSegment hids]
  rfl

theorem resolveVisits_eq_ok {runs : List (List SegmentId)}
    (hids : ∀ id ∈ runs.flatten, (p.segment? id).isSome = true) :
    ∃ visits, p.resolveVisits runs = .ok visits ∧
      visits.flatMap Visit.segments = runs.flatten.filterMap p.segment? := by
  induction runs with
  | nil => exact ⟨[], rfl, rfl⟩
  | cons run runs ih =>
      rw [List.flatten_cons] at hids ⊢
      obtain ⟨visits, hvisits, hsegments⟩ := ih fun id hid => hids id (List.mem_append_right _ hid)
      cases run with
      | nil => exact ⟨visits, hvisits, hsegments⟩
      | cons first rest =>
          obtain ⟨v, hv, hfirst⟩ := resolveVisit_eq_ok
            fun id hid => hids id (List.mem_append_left _ hid)
          refine ⟨v :: visits, ?_, ?_⟩
          · rw [resolveVisits, hv, hvisits]
            rfl
          · rw [List.flatMap_cons, hfirst, hsegments, List.filterMap_append]

theorem resolve_eq_ok {plan : Plan} (hids : ∀ id ∈ plan.members, (p.segment? id).isSome = true) :
    ∃ jobs, p.resolve plan = .ok jobs ∧ jobs.map Job.tool = plan.batches.map Batch.tool ∧
      jobs.map Job.segments = plan.batches.map fun b => b.members.filterMap p.segment? := by
  rw [resolve]
  rw [Plan.members] at hids
  generalize plan.batches = batches at hids ⊢
  induction batches with
  | nil => exact ⟨[], rfl, rfl, rfl⟩
  | cons b batches ih =>
      rw [List.flatMap_cons] at hids
      obtain ⟨jobs, hjobs, htools, hsegments⟩ :=
        ih fun id hid => hids id (List.mem_append_right _ hid)
      have hflatten : b.visits.flatten = b.members := List.flatten_splitBy _ b.members
      have hvisited : ∀ id ∈ b.visits.flatten, (p.segment? id).isSome = true := by
        intro id hid
        exact hids id (List.mem_append_left _ (hflatten ▸ hid))
      obtain ⟨visits, hvisits, hmembers⟩ := resolveVisits_eq_ok hvisited
      rw [hflatten] at hmembers
      refine ⟨⟨b.tool, visits⟩ :: jobs, ?_, ?_, ?_⟩
      · rw [List.mapM_cons, hvisits, hjobs]
        rfl
      · rw [List.map_cons, List.map_cons, htools]
      · rw [List.map_cons, List.map_cons, hsegments, Job.segments, hmembers]

theorem Read.isSome_segment? (h : Read lines p) {id : SegmentId} (hid : id ∈ p.segmentIds) :
    (p.segment? id).isSome = true := by
  obtain ⟨s, -, -, hs⟩ := h.exists_of_mem_segmentIds hid
  rw [hs]
  rfl

theorem isSome_line_of_mem_bodyCommands (text : String) {c : Command}
    (hc : c ∈ (ofText text).bodyCommands) : c.line.isSome = true := by
  have hline : c.line ∈ (readCommands text).map Command.line :=
    List.mem_map_of_mem ((read_ofText text).mem_of_mem_bodyCommands hc)
  rw [map_line_readCommands] at hline
  obtain ⟨n, -, hn⟩ := List.mem_map.mp hline
  rw [← hn]
  rfl

theorem scanned_of_mem_segments (text : String) {s : Segment}
    (hs : s ∈ (ofText text).segments) : s.Scanned := by
  intro c hc
  have hbody : c ∈ (ofText text).bodyCommands := by
    rw [← commands_segments]
    exact List.mem_flatMap.mpr ⟨s, hs, hc⟩
  refine ⟨isSome_line_of_mem_bodyCommands text hbody, ?_⟩
  intro htool
  obtain ⟨t, ht⟩ := Option.isSome_iff_exists.mp htool
  exact (tool_of_mem_readCommands text ((read_ofText text).mem_of_mem_bodyCommands hbody) ht).1

/-- A plan of segments of a text has jobs: their tools are those of the batches, their
segments those of the plan, and a batch with members has something to visit. -/
theorem exists_jobs (text : String) {plan : Plan}
    (hids : ∀ id ∈ plan.members, id ∈ (ofText text).segmentIds) :
    ∃ jobs, (ofText text).resolve plan = .ok jobs ∧
      jobs.map Job.tool = plan.batches.map Batch.tool ∧
      jobs.flatMap Job.segments = plan.members.filterMap (ofText text).segment? ∧
      (∀ j ∈ jobs, ∀ s ∈ j.segments, s.Scanned) ∧
      ((∀ b ∈ plan.batches, b.members ≠ []) → ∀ j ∈ jobs, j.visits ≠ []) := by
  have h := read_ofText text
  obtain ⟨jobs, hjobs, htools, hsegments⟩ :=
    resolve_eq_ok fun id hid => h.isSome_segment? (hids id hid)
  have hbatch : ∀ j ∈ jobs, ∃ b ∈ plan.batches,
      b.members.filterMap (ofText text).segment? = j.segments := by
    intro j hj
    have hmem : j.segments ∈ jobs.map Job.segments := List.mem_map_of_mem hj
    rw [hsegments] at hmem
    exact List.mem_map.mp hmem
  have hlookup : ∀ b ∈ plan.batches, ∀ id ∈ b.members,
      ∃ s ∈ (ofText text).segments, (ofText text).segment? id = some s := by
    intro b hb id hid
    obtain ⟨s, hs, -, hfound⟩ :=
      h.exists_of_mem_segmentIds (hids id (List.mem_flatMap.mpr ⟨b, hb, hid⟩))
    exact ⟨s, hs, hfound⟩
  refine ⟨jobs, hjobs, htools, ?_, ?_, ?_⟩
  · rw [Plan.members, List.filterMap_flatMap, List.flatMap_def, hsegments, ← List.flatMap_def]
  · intro j hj s hs
    obtain ⟨b, hb, hmembers⟩ := hbatch j hj
    rw [← hmembers] at hs
    obtain ⟨id, hid, hfound⟩ := List.mem_filterMap.mp hs
    obtain ⟨s', hs', hsame⟩ := hlookup b hb id hid
    obtain rfl : s' = s := Option.some.inj (hsame.symm.trans hfound)
    exact scanned_of_mem_segments text hs'
  · intro hne j hj hvisits
    obtain ⟨b, hb, hmembers⟩ := hbatch j hj
    obtain ⟨id, hid⟩ := List.exists_mem_of_ne_nil _ (hne b hb)
    obtain ⟨s, -, hfound⟩ := hlookup b hb id hid
    have hin : s ∈ j.segments := by
      rw [← hmembers]
      exact List.mem_filterMap.mpr ⟨id, hid, hfound⟩
    rw [Job.segments, hvisits] at hin
    exact absurd hin (by simp)

end Program

namespace Writer

theorem emits_visits (w : Writer) (p : BodyPlan) {visits : List Visit}
    (h : ∀ s ∈ visits.flatMap Visit.segments, s.Scanned) :
    Emits w ((visits.flatMap Visit.segments).flatMap Segment.kept) [] 0
      (visits.foldl (fun w v => w.visit p none v) w) := by
  induction visits generalizing w with
  | nil => exact .refl w
  | cons v visits ih =>
      rw [List.flatMap_cons] at h ⊢
      rw [List.flatMap_append]
      exact (w.emits_visit p none fun s hs => h s (List.mem_append_left _ hs)).trans
        (ih _ fun s hs => h s (List.mem_append_right _ hs))

/-- The tools that a job selects: those of the change due in front of its first visit. -/
def jobSelects (w : Writer) (p : BodyPlan) (j : Job) : List Tool :=
  match j.visits with
  | [] => []
  | first :: _ => w.dueSelects p first.layer (w.dueChange j.tool)

def jobChanges (w : Writer) (j : Job) : Nat :=
  match j.visits with
  | [] => 0
  | _ :: _ => if (w.dueChange j.tool).isSome then 1 else 0

theorem emits_job (w : Writer) (p : BodyPlan) {j : Job} (h : ∀ s ∈ j.segments, s.Scanned) :
    Emits w (j.segments.flatMap Segment.kept) (w.jobSelects p j) (w.jobChanges j)
      (w.job p j) := by
  unfold job jobSelects jobChanges
  rw [Job.segments] at h ⊢
  cases hvisits : j.visits with
  | nil => exact .refl w
  | cons first rest =>
      rw [hvisits, List.flatMap_cons] at h
      have hfirst := w.emits_visit p (w.dueChange j.tool)
        fun s hs => h s (List.mem_append_left _ hs)
      have hrest := emits_visits (w.visit p (w.dueChange j.tool) first) p
        fun s hs => h s (List.mem_append_right _ hs)
      have hboth := hfirst.trans hrest
      rw [List.append_nil, Nat.add_zero, ← List.flatMap_append] at hboth
      exact hboth

theorem emits_jobs (w : Writer) (p : BodyPlan) {jobs : List Job}
    (h : ∀ j ∈ jobs, ∀ s ∈ j.segments, s.Scanned) :
    ∃ selects changes, Emits w ((jobs.flatMap Job.segments).flatMap Segment.kept) selects changes
      (jobs.foldl (fun w j => w.job p j) w) := by
  induction jobs generalizing w with
  | nil => exact ⟨[], 0, .refl w⟩
  | cons j jobs ih =>
      obtain ⟨hj, hjobs⟩ := List.forall_mem_cons.mp h
      obtain ⟨selects, changes, hrest⟩ := ih (w.job p j) hjobs
      rw [List.flatMap_cons, List.flatMap_append]
      exact ⟨_, _, (w.emits_job p hj).trans hrest⟩

end Writer

theorem Program.synthesize_eq_ok {p : Program} {plan : Plan} {jobs : List Job}
    (h : p.resolve plan = .ok jobs) (settings : Settings) {own : List Command}
    {selects : List Tool} {changes : Nat}
    (hjobs : Writer.Emits { machine := p.preambleState } own selects changes
      (jobs.foldl (fun w j => w.job { program := p, settings, total := plan.visitCount } j)
        { machine := p.preambleState })) :
    ∃ body, p.synthesize plan settings = .ok body ∧
      body.commands.filter (fun c => c.line.isSome) = own ∧
      body.commands.filterMap Command.tool = selects ∧ body.counts.toolChanges = changes := by
  have hfinished := hjobs.quiet
    (Writer.emits_finish _ { program := p, settings, total := plan.visitCount })
  obtain ⟨added, hbody, -, hown, hselects⟩ := hfinished.commands
  have hchanges := hfinished.changes
  rw [List.nil_append] at hbody
  rw [Nat.zero_add] at hchanges
  refine ⟨⟨_, _⟩, by rw [synthesize, h]; rfl, ?_, ?_, hchanges⟩
  · simp only [hbody, hown]
  · simp only [hbody, hselects]

end ToolBatching
