import ToolBatching.Proofs.Writing.Body
import ToolBatching.Proofs.Writing.SafeTravel
import ToolBatching.Proofs.Writing.Visits

/-!
Induction over the stages of writing. What holds of a fresh writer and is kept by every
visit holds where the last batch is written. Such a property may speak of the visits that
have been made.
-/

namespace ToolBatching

/-- The commands of a tower layer behind the travel to the tower. -/
def BodyPlan.towerCommands (p : BodyPlan) (m : Machine) (tool : Tool) (layer : Layer)
    (index : Nat) : List Command :=
  (if m.extrusion = .relative then [] else [.synthesized "M83"])
    ++ .commentLine s!"prime tower T{tool} layer {index}"
    :: p.settings.primeTower.layerMoves tool (p.towerHeight index layer.z)

def BodyPlan.towerTravel (p : BodyPlan) (tool : Tool) (layer : Layer) (ceiling : Float) : Travel :=
  { x := (p.settings.primeTower.position tool).1, y := (p.settings.primeTower.position tool).2,
    z := layer.z, ceiling, outOfOrder := false }

theorem BodyPlan.ofTower_of_mem {p : BodyPlan} {m : Machine} {tool : Tool} {layer : Layer}
    {index : Nat} {c : Command} (h : c ∈ p.towerCommands m tool layer index) :
    p.OfTower tool index c := by
  rcases List.mem_append.mp h with h | h
  · obtain ⟨-, h⟩ := List.mem_ite_nil_left.mp h
    rw [List.mem_singleton.mp h]
    exact .relative
  · rcases List.mem_cons.mp h with rfl | h
    · exact .comment
    · exact .move h

namespace Writer

variable {w : Writer} {p : BodyPlan} {tool : Tool} {layer : Layer} {index : Nat}

theorem towerLayer_eq_self (h : p.program.layer? index = none) : w.towerLayer p tool index = w := by
  unfold towerLayer
  rw [h]

def countTower (w : Writer) : Writer :=
  { w with counts := { w.counts with towerLayers := w.counts.towerLayers + 1 } }

theorem countTower_writeAll (w : Writer) (cs : List Command) :
    { w.writeAll cs with counts := { w.counts with towerLayers := w.counts.towerLayers + 1 } } =
      (w.writeAll cs).countTower := by
  rw [countTower, (w.writeAll_spec cs).2.2]

theorem towerLayer_eq (h : p.program.layer? index = some layer) {traveled : Writer}
    (htraveled : w.travel p.settings.hop (p.towerTravel tool layer w.ceiling) = traveled) :
    w.towerLayer p tool index =
      (traveled.writeAll (p.towerCommands traveled.machine tool layer index)).countTower := by
  have hif : (if traveled.machine.extrusion = .relative then traveled
      else traveled.write (.synthesized "M83")) =
        traveled.writeAll
          (if traveled.machine.extrusion = .relative then [] else [.synthesized "M83"]) := by
    split <;> rfl
  rw [BodyPlan.towerCommands, writeAll_append, ← hif, writeAll_cons, ← countTower_writeAll]
  unfold towerLayer
  simp only [h]
  rw [BodyPlan.towerTravel] at htraveled
  rw [htraveled]

/-- A property of the body, of the state it leads to and of the ceiling that is kept whatever
is written. -/
structure KeptByWrites (holds : Writer → Prop) : Prop where
  write : ∀ w c, holds w → holds (w.write c)
  of_eq : ∀ w next, holds w → next.body = w.body → next.machine = w.machine →
    next.ceiling = w.ceiling → holds next

namespace KeptByWrites

variable {holds : Writer → Prop}

theorem writeAll (h : KeptByWrites holds) (hw : holds w) (cs : List Command) :
    holds (w.writeAll cs) :=
  List.foldlRecOn cs Writer.write hw fun v hv c _ => h.write v c hv

theorem ensureAbsolute (h : KeptByWrites holds) (hw : holds w) : holds w.ensureAbsolute := by
  unfold Writer.ensureAbsolute
  split
  · exact h.write w _ hw
  · exact hw

theorem travel (h : KeptByWrites holds) (hw : holds w) (s : HopSettings) (t : Travel) :
    holds (w.travel s t) := by
  have hwritten := h.writeAll (h.ensureAbsolute hw) (t.plan s w.ensureAbsolute.machine).commands
  exact h.of_eq _ _ hwritten rfl rfl rfl

theorem change (h : KeptByWrites holds) (hw : holds w) (s : ToolChange) (source : Option Tool)
    (tool : Tool) : holds (w.change s source tool) := by
  have hwritten := h.writeAll (h.ensureAbsolute hw) (s.block source tool w.ensureAbsolute.ceiling)
  exact h.of_eq _ _ hwritten rfl rfl rfl

theorem catchUp (h : KeptByWrites holds) (hw : holds w) (p : BodyPlan) (index : Nat) :
    holds (w.catchUp p index) := by
  unfold Writer.catchUp
  split
  · split
    · rename_i tool _
      have hmarked : holds { w with progress := w.progress.catchUp tool index } :=
        h.of_eq w _ hw rfl rfl rfl
      refine List.foldlRecOn _ _ hmarked fun w hw j _ => ?_
      exact towerLayer_induction hw (fun _ _ => h.travel hw _ _) (fun v c _ => h.write v c)
        fun v _ hv => h.of_eq v _ hv rfl rfl rfl
    · exact hw
  · exact hw

theorem mark (h : KeptByWrites holds) (hw : holds w) (p : BodyPlan) (layer : Layer) :
    holds (w.mark p layer) := by
  have hcounted : holds { w with counts := { w.counts with visits := w.counts.visits + 1 } } :=
    h.of_eq w _ hw rfl rfl rfl
  exact h.writeAll hcounted _

theorem run (h : KeptByWrites holds) (hw : holds w) (p : BodyPlan) (layer : Layer)
    (run : List Segment) : holds (w.run p layer run) := by
  cases run with
  | nil => exact hw
  | cons first rest => exact h.writeAll (h.writeAll (h.travel hw _ _) _) _

theorem visit (h : KeptByWrites holds) (hw : holds w) (p : BodyPlan)
    (due : Option (Option Tool × Tool)) (v : Visit) : holds (w.visit p due v) := by
  apply visit_induction (h.mark hw p v.layer)
  · intro w source tool _ hw
    exact h.change hw p.settings.toolChange source tool
  · intro w hw
    exact h.catchUp hw p v.layer.index
  · intro w run _ hw
    exact h.run hw p v.layer run
  · intro w last hw
    exact h.of_eq w _ hw rfl rfl rfl

end KeptByWrites

variable {motive : List Visit → Writer → Prop}

theorem visits_induction {done visits : List Visit} (h : motive done w)
    (hvisit : ∀ done w, ∀ v ∈ visits, motive done w → motive (done ++ [v]) (w.visit p none v)) :
    motive (done ++ visits) (visits.foldl (fun w v => w.visit p none v) w) := by
  induction visits generalizing done w with
  | nil => simpa using h
  | cons v visits ih =>
      have hfirst := hvisit done w v List.mem_cons_self h
      have hrest := ih hfirst fun done w v' hv' => hvisit done w v' (List.mem_cons_of_mem v hv')
      rwa [List.append_assoc] at hrest

theorem tool_of_mem_dueChange {tool : Option Tool} {change : Option Tool × Tool}
    (h : change ∈ w.dueChange tool) : tool = some change.2 := by
  unfold dueChange at h
  cases tool with
  | none => exact absurd h (by simp)
  | some t =>
      obtain ⟨-, hchange⟩ := Option.mem_ite_none_left.mp h
      rw [← Option.some.inj hchange]

theorem job_induction {done : List Visit} {j : Job} (h : motive done w)
    (hvisit : ∀ done w due, (∀ change ∈ due, j.tool = some change.2) → ∀ v ∈ j.visits,
      motive done w → motive (done ++ [v]) (w.visit p due v)) :
    motive (done ++ j.visits) (w.job p j) := by
  unfold job
  cases hvisits : j.visits with
  | nil => simpa using h
  | cons first rest =>
      rw [hvisits] at hvisit
      have hfirst := hvisit done w (w.dueChange j.tool) (fun _ => tool_of_mem_dueChange) first
        List.mem_cons_self h
      have hrest := visits_induction hfirst fun done w v (hv : v ∈ rest) =>
        hvisit done w none (by simp) v (List.mem_cons_of_mem first hv)
      rwa [List.append_assoc] at hrest

theorem jobs_induction {done : List Visit} {jobs : List Job} (h : motive done w)
    (hvisit : ∀ done w due, ∀ j ∈ jobs, (∀ change ∈ due, j.tool = some change.2) →
      ∀ v ∈ j.visits, motive done w → motive (done ++ [v]) (w.visit p due v)) :
    motive (done ++ jobs.flatMap Job.visits) (jobs.foldl (fun w j => w.job p j) w) := by
  induction jobs generalizing done w with
  | nil => simpa using h
  | cons j jobs ih =>
      have hfirst := job_induction h fun done w due => hvisit done w due j List.mem_cons_self
      have hrest := ih hfirst fun done w due j' hj' => hvisit done w due j' (List.mem_cons_of_mem j hj')
      rwa [List.append_assoc] at hrest

end Writer

namespace Program

theorem synthesize_induction {p : Program} {plan : Plan} {settings : Settings} {jobs : List Job}
    (hjobs : p.resolve plan = .ok jobs) {context : BodyPlan}
    (hcontext : context = { program := p, settings, total := plan.visitCount })
    {motive : List Visit → Writer → Prop} (hstart : motive [] { machine := p.preambleState })
    (hvisit : ∀ done w due, ∀ j ∈ jobs, (∀ change ∈ due, j.tool = some change.2) →
      ∀ v ∈ j.visits, motive done w → motive (done ++ [v]) (w.visit context due v)) :
    ∃ w body, motive (jobs.flatMap Job.visits) w ∧ p.synthesize plan settings = .ok body ∧
      body.commands = (w.finish context).body.toList ∧
      body.counts = (w.finish context).counts := by
  refine ⟨_, ⟨_, _⟩, Writer.jobs_induction hstart hvisit, ?_, rfl, rfl⟩
  rw [synthesize, hjobs, hcontext]
  rfl

end Program

end ToolBatching
