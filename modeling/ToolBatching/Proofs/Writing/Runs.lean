import ToolBatching.Proofs.Writing.ToolChanges
import ToolBatching.Proofs.Writing.Visits

namespace ToolBatching

namespace Writer

variable {w next last : Writer}

/-- A writer goes on behind another one: each source line that it adds has a property of
the commands in front of it. -/
def Extends (holds : List Command → Command → Prop) (w next : Writer) : Prop :=
  ∃ added, next.body.toList = w.body.toList ++ added ∧ next.machine = w.machine.run added ∧
    ∀ front c back, added = front ++ c :: back → c.line.isSome = true →
      holds (w.body.toList ++ front) c

namespace Extends

variable {holds : List Command → Command → Prop}

theorem refl (w : Writer) : Extends holds w w := by
  refine ⟨[], by simp, rfl, ?_⟩
  intro front c back heq
  simp at heq

theorem trans (h : Extends holds w next) (h' : Extends holds next last) :
    Extends holds w last := by
  obtain ⟨added, hbody, hmachine, hadded⟩ := h
  obtain ⟨added', hbody', hmachine', hadded'⟩ := h'
  refine ⟨added ++ added', by rw [hbody', hbody, List.append_assoc],
    by rw [hmachine', hmachine, Machine.run_append], ?_⟩
  intro front c back heq hline
  rcases List.append_eq_append_iff.mp heq with ⟨more, rfl, heq'⟩ | ⟨more, rfl, heq'⟩
  · have hholds := hadded' more c back heq' hline
    rwa [hbody, List.append_assoc] at hholds
  · cases more with
    | nil =>
        have hholds := hadded' [] c back heq'.symm hline
        simpa [hbody] using hholds
    | cons d more =>
        obtain ⟨rfl, -⟩ := List.cons.inj heq'
        exact hadded front c more rfl hline

theorem of_eq (h : Extends holds w next) (hbody : last.body = next.body)
    (hmachine : last.machine = next.machine) : Extends holds w last := by
  rw [Extends, hbody, hmachine]
  exact h

theorem mono {implied : List Command → Command → Prop} (h : Extends holds w next)
    (himplied : ∀ front c, holds front c → implied front c) : Extends implied w next := by
  obtain ⟨added, hbody, hmachine, hadded⟩ := h
  refine ⟨added, hbody, hmachine, ?_⟩
  intro front c back heq hline
  exact himplied _ c (hadded front c back heq hline)

theorem machine (h : Extends holds w next) {m : Machine} (hw : w.machine = m.run w.body.toList) :
    next.machine = m.run next.body.toList := by
  obtain ⟨added, hbody, hmachine, -⟩ := h
  rw [hbody, hmachine, hw, Machine.run_append]

end Extends

theorem Emits.extends {holds : List Command → Command → Prop} {selects : List Tool} {changes : Nat}
    (h : Emits w [] selects changes next) : Extends holds w next := by
  obtain ⟨added, hbody, hmachine, hown, -⟩ := h.commands
  refine ⟨added, hbody, hmachine, ?_⟩
  rintro front c back rfl hline
  exact absurd hline (List.filter_eq_nil_iff.mp hown c (by simp))

/-- A source line is reached in a run of a visit: a writer with the given tool has entered
the run, and the commands in front of the line are what it wrote and what is kept of the
run up to the line. -/
def Reaches (p : BodyPlan) (start : Machine) (tool : Option Tool) (v : Visit)
    (front : List Command) (c : Command) : Prop :=
  ∃ (w : Writer) (first : Segment) (rest : List Segment) (kept more : List Command),
    first :: rest ∈ v.runs ∧ w.machine = start.run w.body.toList ∧ w.machine.tool = tool ∧
      ((first :: rest).flatMap Segment.commands).filter keeps = kept ++ c :: more ∧
      front = (w.enter p v.layer first ((first :: rest).flatMap Segment.commands)).body.toList ++
        kept

variable {start : Machine} {tool : Option Tool}

theorem extends_run (p : BodyPlan) {v : Visit} {run : List Segment} (hrun : run ∈ v.runs)
    (hmachine : w.machine = start.run w.body.toList) (htool : w.machine.tool = tool) :
    Extends (Reaches p start tool v) w (w.run p v.layer run) := by
  cases run with
  | nil => exact .refl w
  | cons first rest =>
      apply (w.emits_enter p v.layer first _).extends.trans
      obtain ⟨hbody, hrun', -⟩ := writeAll_spec
        (w.enter p v.layer first ((first :: rest).flatMap Segment.commands))
        (((first :: rest).flatMap Segment.commands).filter keeps)
      refine ⟨_, hbody, hrun', ?_⟩
      intro front c back heq _
      exact ⟨w, first, rest, front, back, hrun, hmachine, htool, heq, rfl⟩

theorem extends_runs (p : BodyPlan) {v : Visit} (hscanned : ∀ s ∈ v.segments, s.Scanned)
    {runs : List (List Segment)} (hruns : ∀ run ∈ runs, run ∈ v.runs)
    (hmachine : w.machine = start.run w.body.toList) (htool : w.machine.tool = tool) :
    Extends (Reaches p start tool v) w (runs.foldl (fun w run => w.run p v.layer run) w) := by
  induction runs generalizing w with
  | nil => exact .refl w
  | cons run runs ih =>
      obtain ⟨hrun, hruns⟩ := List.forall_mem_cons.mp hruns
      have hfirst := extends_run p hrun hmachine htool
      have hquiet := (w.emits_run p v.layer
        fun s hs => hscanned s (v.mem_segments_of_mem_run hrun hs)).tool
      exact hfirst.trans (ih hruns (hfirst.machine hmachine) (hquiet.trans htool))

theorem extends_visit (p : BodyPlan) {v : Visit} (hscanned : ∀ s ∈ v.segments, s.Scanned)
    (due : Option (Option Tool × Tool)) (hmachine : w.machine = start.run w.body.toList)
    (htool : (w.dueSelects p v.layer due).getLast?.or w.machine.tool = tool) :
    Extends (Reaches p start tool v) w (w.visit p due v) := by
  have hcaught := (w.emits_due p v.layer due).quiet (emits_catchUp _ p v.layer.index)
  have hfront : Extends (Reaches p start tool v) w _ := hcaught.extends
  have hruns := extends_runs p hscanned (fun run hrun => hrun) (hfront.machine hmachine)
    (hcaught.tool.trans htool)
  exact (hfront.trans hruns).of_eq rfl rfl

def activeTool (active : Option Tool) (jobs : List Job) : Option Tool :=
  (jobs.filterMap Job.tool).getLast?.or active

theorem activeTool_append_singleton (active : Option Tool) (jobs : List Job) (j : Job) :
    activeTool active (jobs ++ [j]) = j.tool.or (activeTool active jobs) := by
  unfold activeTool
  rw [List.filterMap_append]
  cases hj : j.tool with
  | none => simp [hj]
  | some t => simp [hj]

theorem extends_visits (p : BodyPlan) {visits : List Visit}
    (hscanned : ∀ s ∈ visits.flatMap Visit.segments, s.Scanned)
    (hmachine : w.machine = start.run w.body.toList) (htool : w.machine.tool = tool) :
    Extends (fun front c => ∃ v ∈ visits, Reaches p start tool v front c) w
      (visits.foldl (fun w v => w.visit p none v) w) := by
  induction visits generalizing w with
  | nil => exact .refl w
  | cons v visits ih =>
      rw [List.flatMap_cons, List.forall_mem_append] at hscanned
      have hv := extends_visit p hscanned.1 none hmachine htool
      have hquiet := (w.emits_visit p none hscanned.1).tool.trans htool
      have hrest := ih hscanned.2 (hv.machine hmachine) hquiet
      refine (hv.mono ?_).trans (hrest.mono ?_)
      · intro front c hreaches
        exact ⟨v, List.mem_cons_self, hreaches⟩
      · rintro front c ⟨v', hv', hreaches⟩
        exact ⟨v', List.mem_cons_of_mem v hv', hreaches⟩

theorem getLast?_switches_or (active : Option Tool) (tools : List Tool) :
    (switches active tools).getLast?.or active = tools.getLast?.or active := by
  induction tools generalizing active with
  | nil => rfl
  | cons t tools ih =>
      have hlast (ts : List Tool) : (t :: ts).getLast?.or active = ts.getLast?.or (some t) := by
        rw [List.getLast?_cons]
        cases ts.getLast? <;> rfl
      rw [switches]
      split
      · rename_i hsame
        rw [ih, hlast, hsame]
      · rw [hlast, ih, hlast]

theorem getLast?_switches (active tool : Option Tool) :
    (switches active tool.toList).getLast?.or active = tool.or active := by
  rw [getLast?_switches_or]
  cases tool <;> rfl

theorem extends_job (p : BodyPlan) {j : Job} (hscanned : ∀ s ∈ j.segments, s.Scanned)
    (hvisits : j.visits ≠ []) (hdigit : ∀ t : Nat, j.tool = some t → t < 10)
    (hmachine : w.machine = start.run w.body.toList) :
    Extends (fun front c => ∃ v ∈ j.visits,
        Reaches p start (j.tool.or w.machine.tool) v front c) w (w.job p j) ∧
      (w.job p j).machine.tool = j.tool.or w.machine.tool := by
  have htool := (w.emits_job_switches p hscanned hvisits hdigit).tool
  rw [getLast?_switches] at htool
  refine ⟨?_, htool⟩
  obtain ⟨first, rest, hfirst⟩ := List.exists_cons_of_ne_nil hvisits
  rw [Job.segments, hfirst, List.flatMap_cons, List.forall_mem_append] at hscanned
  have hselects : (w.dueSelects p first.layer (w.dueChange j.tool)).getLast?.or w.machine.tool =
      j.tool.or w.machine.tool := by
    rw [w.dueSelects_dueChange p first.layer hdigit, getLast?_switches]
  have hv := extends_visit p hscanned.1 (w.dueChange j.tool) hmachine hselects
  have hbehind := (w.emits_visit p (w.dueChange j.tool) hscanned.1).tool.trans hselects
  have hrest := extends_visits p hscanned.2 (hv.machine hmachine) hbehind
  unfold job
  rw [hfirst]
  refine (hv.mono ?_).trans (hrest.mono ?_)
  · intro front c hreaches
    exact ⟨first, List.mem_cons_self, hreaches⟩
  · rintro front c ⟨v, hv, hreaches⟩
    exact ⟨v, List.mem_cons_of_mem first hv, hreaches⟩

/-- A source line is reached in a job of a plan, with the tool active that the jobs up to
this one leave. -/
def ReachesIn (p : BodyPlan) (start : Machine) (active : Option Tool) (jobs : List Job)
    (front : List Command) (c : Command) : Prop :=
  ∃ done j left, jobs = done ++ j :: left ∧
    ∃ v ∈ j.visits, Reaches p start (activeTool active (done ++ [j])) v front c

theorem extends_jobs (p : BodyPlan) {jobs : List Job}
    (hscanned : ∀ j ∈ jobs, ∀ s ∈ j.segments, s.Scanned) (hvisits : ∀ j ∈ jobs, j.visits ≠ [])
    (hdigits : ∀ j ∈ jobs, ∀ t : Nat, j.tool = some t → t < 10)
    (hmachine : w.machine = start.run w.body.toList) :
    Extends (ReachesIn p start w.machine.tool jobs) w
      (jobs.foldl (fun w j => w.job p j) w) := by
  induction jobs generalizing w with
  | nil => exact .refl w
  | cons j jobs ih =>
      obtain ⟨hj, hscanned⟩ := List.forall_mem_cons.mp hscanned
      obtain ⟨hjVisits, hvisits⟩ := List.forall_mem_cons.mp hvisits
      obtain ⟨hjDigit, hdigits⟩ := List.forall_mem_cons.mp hdigits
      obtain ⟨hfirst, htool⟩ := extends_job p hj hjVisits hjDigit hmachine
      have hrest := ih hscanned hvisits hdigits (hfirst.machine hmachine)
      rw [htool] at hrest
      refine (hfirst.mono ?_).trans (hrest.mono ?_)
      · rintro front c ⟨v, hv, hreaches⟩
        refine ⟨[], j, jobs, rfl, v, hv, ?_⟩
        rwa [activeTool_append_singleton]
      · rintro front c ⟨done, j', left, rfl, v, hv, hreaches⟩
        refine ⟨j :: done, j', left, rfl, v, hv, ?_⟩
        have hactive : activeTool w.machine.tool (j :: done ++ [j']) =
            activeTool (j.tool.or w.machine.tool) (done ++ [j']) := by
          rw [activeTool_append_singleton, activeTool_append_singleton]
          simp only [activeTool]
          cases htool : j.tool with
          | none => simp [htool]
          | some t => simp [htool, List.getLast?_cons]
        rwa [hactive]

end Writer

namespace Program

/-- What stays fixed while the body of a schedule is written. -/
def bodyPlan (p : Program) (settings : Settings) : BodyPlan where
  program := p
  settings := settings
  total := (p.schedule settings).visitCount

/-- What a schedule makes of a text: jobs with the tools and the segments of the batches,
and a body whose source lines are reached in them. -/
structure Written (p : Program) (settings : Settings) (jobs : List Job) (body : Body) : Prop where
  resolved : p.resolve (p.schedule settings) = .ok jobs
  synthesized : p.synthesize (p.schedule settings) settings = .ok body
  tools : jobs.map Job.tool = (p.schedule settings).batches.map Batch.tool
  segments : jobs.map Job.segments =
    (p.schedule settings).batches.map fun b => b.members.filterMap p.segment?
  reaches : ∀ front c back, body.commands = front ++ c :: back → c.line.isSome = true →
    Writer.ReachesIn (p.bodyPlan settings) p.preambleState p.preambleState.tool jobs front c

theorem tool_lt_of_mem_schedule (text : String) (settings : Settings) {b : Batch}
    (hb : b ∈ ((ofText text).schedule settings).batches) {t : Nat} (ht : b.tool = some t) :
    t < 10 := by
  have h := read_ofText text
  obtain ⟨picked, hsub, hpicked, hshows⟩ :=
    h.exists_picked (Clearance.ofProgram (ofText text) settings.nozzle settings.clearance)
      settings.maxBatchLayers
  have hmem : b.tool ∈ ((ofText text).schedule settings).batches.map Batch.tool :=
    List.mem_map_of_mem hb
  rw [show ((ofText text).schedule settings).batches.map Batch.tool = picked.map Segment.tool
    from hpicked] at hmem
  obtain ⟨s, hs, hsame⟩ := List.mem_map.mp hmem
  have hmoment := hshows s hs
  rw [hsame, ht] at hmoment
  obtain ⟨c, hc, hselect⟩ := h.mem_tool_of_shows (hsub.subset hs) hmoment
  exact (tool_of_mem_readCommands text hc hselect).2

theorem exists_schedule_jobs (text : String) (settings : Settings) :
    ∃ jobs, (ofText text).resolve ((ofText text).schedule settings) = .ok jobs ∧
      jobs.map Job.tool = ((ofText text).schedule settings).batches.map Batch.tool ∧
      jobs.map Job.segments = ((ofText text).schedule settings).batches.map
        (fun b => b.members.filterMap (ofText text).segment?) ∧
      (∀ j ∈ jobs, ∀ s ∈ j.segments, s.Scanned) ∧ (∀ j ∈ jobs, j.visits ≠ []) ∧
      ∀ j ∈ jobs, ∀ t : Nat, j.tool = some t → t < 10 := by
  have h := read_ofText text
  have hperm : ((ofText text).schedule settings).members.Perm (ofText text).segmentIds :=
    h.members_schedule_perm (Clearance.ofProgram (ofText text) settings.nozzle settings.clearance)
      settings.maxBatchLayers
  obtain ⟨jobs, hjobs, htools, -, hscanned, hvisits⟩ :=
    exists_jobs text fun id hid => hperm.mem_iff.mp hid
  obtain ⟨jobs', hjobs', -, hsegments⟩ :=
    resolve_eq_ok fun id hid => h.isSome_segment? (hperm.mem_iff.mp hid)
  obtain rfl : jobs = jobs' := Except.ok.inj (hjobs.symm.trans hjobs')
  have hmembers : ∀ b ∈ ((ofText text).schedule settings).batches, b.members ≠ [] := by
    intro b hb
    exact (h.wellFormed_of_mem_schedule settings.nozzle settings.clearance
      settings.maxBatchLayers hb).nonempty
  refine ⟨jobs, hjobs, htools, hsegments, hscanned, hvisits hmembers, ?_⟩
  intro j hj t ht
  have hmem : j.tool ∈ jobs.map Job.tool := List.mem_map_of_mem hj
  rw [htools] at hmem
  obtain ⟨b, hb, hsame⟩ := List.mem_map.mp hmem
  exact tool_lt_of_mem_schedule text settings hb (hsame.trans ht)

theorem exists_written (text : String) (settings : Settings) :
    ∃ jobs body, (ofText text).Written settings jobs body := by
  obtain ⟨jobs, hjobs, htools, hsegments, hscanned, hvisits, hdigits⟩ :=
    exists_schedule_jobs text settings
  have hextends : Writer.Extends (Writer.ReachesIn ((ofText text).bodyPlan settings)
      (ofText text).preambleState (ofText text).preambleState.tool jobs)
      { machine := (ofText text).preambleState } _ :=
    Writer.extends_jobs ((ofText text).bodyPlan settings) hscanned hvisits hdigits rfl
  have hfinished := hextends.trans (Writer.emits_finish _ ((ofText text).bodyPlan settings)).extends
  obtain ⟨added, hbody, -, hadded⟩ := hfinished
  refine ⟨jobs, ⟨_, _⟩, ⟨hjobs, by rw [synthesize, hjobs]; rfl, htools, hsegments, ?_⟩⟩
  intro front c back heq hline
  refine hadded front c back ?_ hline
  rw [← heq]
  exact hbody.symm

end Program

end ToolBatching
