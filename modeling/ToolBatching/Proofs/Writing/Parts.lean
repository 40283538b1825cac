import Mathlib.Data.List.ModifyLast
import ToolBatching.Proofs.Writing.ActiveTools
import ToolBatching.Proofs.Writing.Blocks
import ToolBatching.Proofs.Writing.OneTool

namespace ToolBatching

namespace Writer

variable {w next : Writer} {p : BodyPlan}

/-- The lines that a later writer has added. -/
def linesTo (w next : Writer) : List Command :=
  next.body.toList.drop w.body.toList.length

theorem linesTo_eq {added : List Command} (h : next.body.toList = w.body.toList ++ added) :
    w.linesTo next = added := by
  rw [linesTo, h, List.drop_left]

/-- Write visits in a row; a tool change that is due goes to the first of them. -/
def visitAll (w : Writer) (p : BodyPlan) (due : Option (Option Tool × Tool)) : List Visit → Writer
  | [] => w
  | v :: rest => (w.visit p due v).visitAll p none rest

/-- The lines that are written for each of visits in a row. -/
def visitParts (w : Writer) (p : BodyPlan) (due : Option (Option Tool × Tool)) :
    List Visit → List (List Command)
  | [] => []
  | v :: rest => w.linesTo (w.visit p due v) :: (w.visit p due v).visitParts p none rest

/-- The lines that are written for each visit of jobs. -/
def parts (w : Writer) (p : BodyPlan) : List Job → List (List Command)
  | [] => []
  | j :: rest => w.visitParts p (w.dueChange j.tool) j.visits ++ (w.job p j).parts p rest

theorem job_eq_visitAll (w : Writer) (p : BodyPlan) (j : Job) :
    w.job p j = w.visitAll p (w.dueChange j.tool) j.visits := by
  have hfold (w : Writer) (visits : List Visit) :
      w.visitAll p none visits = visits.foldl (fun w v => w.visit p none v) w := by
    induction visits generalizing w with
    | nil => rfl
    | cons v rest ih => exact ih (w.visit p none v)
  unfold job
  cases j.visits with
  | nil => rfl
  | cons first rest => exact (hfold _ rest).symm

section Laid

variable {done : List Visit} {blocks : List Block}

theorem Laid.visitAll (h : Laid p done blocks w) {visits : List Visit}
    (hvisits : ∀ v ∈ visits, ∀ s ∈ v.segments, s ∈ p.program.segments)
    (due : Option (Option Tool × Tool)) :
    ∃ more, w.visitParts p due visits = more.map (Block.commands p.total) ∧
      Laid p (done ++ visits) (blocks ++ more) (w.visitAll p due visits) := by
  induction visits generalizing done blocks w due with
  | nil => exact ⟨[], rfl, by simpa [Writer.visitAll] using h⟩
  | cons v rest ih =>
      obtain ⟨hv, hrest⟩ := List.forall_mem_cons.mp hvisits
      obtain ⟨b, -, hbody, hlaid⟩ := h.visit hv due
      obtain ⟨more, hparts, hlaid⟩ := ih hlaid hrest none
      refine ⟨b :: more, ?_, ?_⟩
      · rw [visitParts, linesTo_eq hbody, hparts, List.map_cons]
      · rwa [List.append_assoc, List.append_assoc] at hlaid

theorem Laid.jobs (h : Laid p done blocks w) {jobs : List Job}
    (hjobs : ∀ j ∈ jobs, ∀ v ∈ j.visits, ∀ s ∈ v.segments, s ∈ p.program.segments) :
    ∃ more, w.parts p jobs = more.map (Block.commands p.total) ∧
      Laid p (done ++ jobs.flatMap Job.visits) (blocks ++ more)
        (jobs.foldl (fun w j => w.job p j) w) := by
  induction jobs generalizing done blocks w with
  | nil => exact ⟨[], rfl, by simpa using h⟩
  | cons j rest ih =>
      obtain ⟨hj, hrest⟩ := List.forall_mem_cons.mp hjobs
      obtain ⟨first, hfirst, hlaid⟩ := h.visitAll hj (w.dueChange j.tool)
      rw [← job_eq_visitAll] at hlaid
      obtain ⟨more, hparts, hlaid⟩ := ih hlaid hrest
      refine ⟨first ++ more, ?_, ?_⟩
      · rw [parts, hfirst, hparts, List.map_append]
      · rwa [List.append_assoc, List.append_assoc] at hlaid

end Laid

end Writer

namespace Command

variable {active tool : Option Tool} {tools : List (Option Tool)} {parts : List (List Command)}

/-- Commands in a row that print with one tool each. -/
def WorksInRow : Option Tool → List (Option Tool) → List (List Command) → Prop
  | _, [], [] => True
  | active, tool :: tools, cs :: parts => WorksWith active tool cs ∧ WorksInRow tool tools parts
  | _, _, _ => False

theorem WorksInRow.modifyLast (h : WorksInRow active tools parts) {closing : List Command}
    (hclosing : closing.filterMap Command.tool = []) :
    WorksInRow active tools (parts.modifyLast (· ++ closing)) := by
  induction parts generalizing active tools with
  | nil => exact h
  | cons cs parts ih =>
      cases tools with
      | nil => exact h.elim
      | cons tool tools =>
          obtain ⟨hfirst, hrest⟩ := h
          cases parts with
          | nil => exact ⟨hfirst.append_quiet hclosing, hrest⟩
          | cons cs' parts =>
              have hlast := List.modifyLast_append_of_right_ne_nil (· ++ closing) [cs] (cs' :: parts)
                (by simp)
              rw [List.singleton_append] at hlast
              rw [hlast]
              exact ⟨hfirst, ih hrest⟩

theorem WorksInRow.of_alike (h : WorksInRow active tools parts) {again : List (List Command)}
    (halike : List.Forall₂ (List.Forall₂ Alike) parts again) : WorksInRow active tools again := by
  induction halike generalizing active tools with
  | nil => exact h
  | cons hfirst _ ih =>
      cases tools with
      | nil => exact h.elim
      | cons tool tools => exact ⟨h.1.of_alike hfirst, ih h.2⟩

end Command

theorem Layer.map_tool_eq {m : Machine} {layers : List Layer} {tools : List (Option Tool)}
    (hchained : Chained Layer.entry Layer.commands m layers)
    (hworks : Command.WorksInRow m.tool tools (layers.map Layer.commands))
    (hdecided : ∀ l ∈ layers, l.Decided)
    (hstops : ∀ l ∈ layers, ∀ c ∈ l.commands, c.StopsOnly) : layers.map Layer.tool = tools := by
  induction layers generalizing m tools with
  | nil =>
      cases tools with
      | nil => rfl
      | cons tool tools => exact hworks.elim
  | cons l layers ih =>
      cases tools with
      | nil => exact hworks.elim
      | cons tool tools =>
          obtain ⟨hentry, hchained⟩ := hchained
          obtain ⟨hfirst, hworks⟩ := hworks
          obtain ⟨hl, hdecided⟩ := List.forall_mem_cons.mp hdecided
          obtain ⟨hlStops, hstops⟩ := List.forall_mem_cons.mp hstops
          obtain ⟨hprints, hbehind⟩ := hfirst.prints (m := l.entry) (by rw [hentry])
          have htool := hl.tool_eq (fun c hc => hlStops c (List.mem_of_getLast? hc)) hprints hbehind
          rw [hentry] at hbehind
          rw [List.map_cons, htool, ih hchained (by rw [hbehind]; exact hworks) hdecided hstops]

namespace Writer

variable {w : Writer} {p : BodyPlan}

theorem worksInRow_visitParts {tool : Option Tool} {due : Option (Option Tool × Tool)}
    (hdue : ∀ change ∈ due, ∃ t : Nat, change.2 = t ∧ t < 10)
    (htool : (due.map Prod.snd).or w.machine.tool = tool) {v : Visit} {rest : List Visit}
    (hscanned : ∀ v' ∈ v :: rest, ∀ s ∈ v'.segments, s.Scanned) {tools : List (Option Tool)}
    {behind : List (List Command)}
    (hbehind : (w.visitAll p due (v :: rest)).machine.tool = tool →
      Command.WorksInRow tool tools behind) :
    Command.WorksInRow w.machine.tool ((v :: rest).map (fun _ => tool) ++ tools)
      (w.visitParts p due (v :: rest) ++ behind) := by
  induction rest generalizing w due v with
  | nil =>
      have hworks := w.works_visit p hdue (hscanned v List.mem_cons_self)
      rw [htool] at hworks
      have hlast := hbehind hworks.machine_tool
      obtain ⟨added, hbody, -, hadded⟩ := hworks
      refine ⟨?_, hlast⟩
      rwa [linesTo_eq hbody]
  | cons v' rest ih =>
      obtain ⟨hv, hrest⟩ := List.forall_mem_cons.mp hscanned
      have hworks := w.works_visit p hdue hv
      rw [htool] at hworks
      have hnext := hworks.machine_tool
      obtain ⟨added, hbody, -, hadded⟩ := hworks
      have hmore := @ih (w.visit p due v) none (by simp) hnext v' hrest hbehind
      rw [hnext] at hmore
      refine ⟨?_, hmore⟩
      rwa [linesTo_eq hbody]

theorem snd_dueChange (w : Writer) (tool : Option Tool) :
    ((w.dueChange tool).map Prod.snd).or w.machine.tool = tool.or w.machine.tool := by
  cases tool with
  | none => rfl
  | some t =>
      by_cases hsame : w.machine.tool = some t
      · simp [dueChange, hsame]
      · simp [dueChange, hsame]

/-- The tools of jobs, one for each visit. -/
def visitTools (jobs : List Job) : List (Option Tool) :=
  jobs.flatMap fun j => j.visits.map fun _ => j.tool

/-- Whether a job without a tool comes in front of all that have one. -/
def Settles : Option Tool → List Job → Prop
  | _, [] => True
  | active, j :: rest => j.tool.or active = j.tool ∧ Settles j.tool rest

theorem worksInRow_parts {jobs : List Job} (hsettles : Settles w.machine.tool jobs)
    (hvisits : ∀ j ∈ jobs, j.visits ≠ [])
    (hdigits : ∀ j ∈ jobs, ∀ t : Nat, j.tool = some t → t < 10)
    (hscanned : ∀ j ∈ jobs, ∀ v ∈ j.visits, ∀ s ∈ v.segments, s.Scanned) :
    Command.WorksInRow w.machine.tool (visitTools jobs) (w.parts p jobs) := by
  induction jobs generalizing w with
  | nil => trivial
  | cons j jobs ih =>
      obtain ⟨hj, hsettles⟩ := hsettles
      obtain ⟨hjVisits, hvisits⟩ := List.forall_mem_cons.mp hvisits
      obtain ⟨hjDigits, hdigits⟩ := List.forall_mem_cons.mp hdigits
      obtain ⟨hjScanned, hscanned⟩ := List.forall_mem_cons.mp hscanned
      obtain ⟨v, rest, hfirst⟩ := List.exists_cons_of_ne_nil hjVisits
      rw [visitTools, List.flatMap_cons, parts, job_eq_visitAll]
      rw [hfirst] at hjScanned ⊢
      refine worksInRow_visitParts (fun change hchange => ?_)
        ((w.snd_dueChange j.tool).trans hj) hjScanned fun hbehind => ?_
      · exact ⟨change.2, rfl, hjDigits change.2 (tool_of_mem_dueChange hchange)⟩
      · have hrest := ih (w := w.visitAll p (w.dueChange j.tool) (v :: rest)) (by rwa [hbehind])
          hvisits hdigits hscanned
        rwa [hbehind] at hrest

theorem settles_of_activeTool {active : Option Tool} {jobs : List Job}
    (h : ∀ done j left, jobs = done ++ j :: left → activeTool active (done ++ [j]) = j.tool) :
    Settles active jobs := by
  induction jobs generalizing active with
  | nil => trivial
  | cons j jobs ih =>
      have hj := h [] j jobs rfl
      rw [activeTool_append_singleton] at hj
      refine ⟨hj, ih fun done j' left hjobs => ?_⟩
      have hlater := h (j :: done) j' left (by rw [hjobs]; rfl)
      rw [activeTool_append_singleton] at hlater ⊢
      cases htool : j'.tool with
      | some t => rfl
      | none =>
          -- Behind a job with a tool no later one is without.
          rw [htool, Option.none_or] at hlater
          rw [Option.none_or]
          unfold activeTool at hlater ⊢
          rw [Option.or_eq_none_iff] at hlater
          have hnone : (j :: done).filterMap Job.tool = [] := List.getLast?_eq_none_iff.mp hlater.1
          cases hfirst : j.tool with
          | none =>
              rw [List.filterMap_cons_none hfirst] at hnone
              rw [hnone]
              rfl
          | some t =>
              rw [List.filterMap_cons_some hfirst] at hnone
              exact absurd hnone (by simp)

end Writer

namespace Program

/-- The lines that are written for each visit of a plan, and those that close the body. -/
def parts (p : Program) (plan : Plan) (settings : Settings) :
    Except Fault (List (List Command) × List Command) := do
  let jobs ← p.resolve plan
  let context : BodyPlan := { program := p, settings, total := plan.visitCount }
  let start : Writer := { machine := p.preambleState }
  let w := jobs.foldl (fun w j => w.job context j) start
  pure (start.parts context jobs, w.linesTo (w.finish context))

theorem visitTools_of_resolve {p : Program} {plan : Plan} {jobs : List Job}
    (h : p.resolve plan = .ok jobs) :
    Writer.visitTools jobs = plan.batches.flatMap fun b => b.visits.map fun _ => b.tool := by
  rw [eq_comm, Writer.visitTools, ← List.forall₂_eq_eq_eq]
  refine List.rel_flatMap (forall₂_of_mapM h) fun b j hj => ?_
  dsimp only at hj
  cases hvisits : p.resolveVisits b.visits with
  | error fault => simp [hvisits, bind, Except.bind] at hj
  | ok visits =>
      rw [hvisits] at hj
      obtain rfl : ⟨b.tool, visits⟩ = j := Except.ok.inj hj
      have hlength : b.visits.length = visits.length :=
        (forall₂_of_resolveVisits (List.nil_notMem_splitBy _ _) hvisits).length_eq
      rw [List.forall₂_eq_eq_eq, List.map_const', List.map_const', hlength]

/-- The parts of the body of a schedule: they are the blocks of its visits, and each one prints
with the tool of its batch. -/
theorem Written.exists_parts {text : String} {settings : Settings} {jobs : List Job} {body : Body}
    (h : (ofText text).Written settings jobs body) {plan : Plan}
    (hplan : plan = (ofText text).schedule settings) {context : BodyPlan}
    (hcontext : context = { program := ofText text, settings, total := plan.visitCount })
    {w : Writer} (hw : w = jobs.foldl (fun w j => w.job context j)
      { machine := (ofText text).preambleState }) :
    ∃ parts closing blocks, (ofText text).parts plan settings = .ok (parts, closing) ∧
      body.commands = parts.flatten ++ closing ∧ parts = blocks.map (Block.commands plan.visitCount) ∧
      Writer.Laid context (jobs.flatMap Job.visits) blocks w ∧
      (w.finish context).body.toList = w.body.toList ++ closing ∧
      Command.WorksInRow (ofText text).preambleState.tool
        (plan.batches.flatMap fun b => b.visits.map fun _ => b.tool) parts := by
  have hresolved := h.resolved
  rw [← hplan] at hresolved
  obtain ⟨jobs', hjobs', -, -, hscanned, hvisits, hdigits⟩ := exists_schedule_jobs text settings
  obtain rfl : jobs = jobs' := Except.ok.inj (h.resolved.symm.trans hjobs')
  have hsegments : ∀ j ∈ jobs, ∀ v ∈ j.visits, ∀ s ∈ v.segments, s ∈ context.program.segments := by
    intro j hj v hv
    rw [hcontext]
    exact (mem_of_resolve hresolved hj hv).2
  obtain ⟨blocks, hparts, hlaid⟩ :=
    (Writer.laid_nil (p := context) (ofText text).preambleState).jobs hsegments
  rw [List.nil_append, List.nil_append] at hlaid
  rw [← hw] at hlaid
  obtain ⟨closing, hclosing, -⟩ := (Writer.writes_finish (p := context) w).commands
  have htotal : context.total = plan.visitCount := by rw [hcontext]
  rw [htotal] at hparts
  have hsettles := Writer.settles_of_activeTool fun _ _ _ =>
    h.activeTool_eq text
  have hworks := Writer.worksInRow_parts (p := context)
    (w := { machine := (ofText text).preambleState }) hsettles hvisits hdigits
    fun j hj v hv s hs => hscanned j hj s (List.mem_flatMap.mpr ⟨v, hv, hs⟩)
  rw [visitTools_of_resolve hresolved, hparts] at hworks
  have hsynthesized := h.synthesized
  rw [← hplan, synthesize, hresolved] at hsynthesized
  obtain rfl := Except.ok.inj hsynthesized
  refine ⟨_, closing, blocks, ?_, ?_, rfl, hlaid, hclosing, hworks⟩
  · have hlast := Writer.linesTo_eq hclosing
    rw [Program.parts, hresolved, ← hparts, ← hlast, hw, hcontext]
    rfl
  · have hbody := hlaid.body
    rw [htotal] at hbody
    rw [← List.flatMap_def, ← hbody, ← hclosing, hw, hcontext]

end Program

end ToolBatching
