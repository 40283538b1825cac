import ToolBatching.Proofs.Writing.Arriving
import ToolBatching.Proofs.Writing.Closing

namespace ToolBatching

open Number

namespace Machine

variable {m target : Machine} {c : Command}

theorem extruded_restoration (hc : c ∈ m.restoration target) (n : Machine) : n.extruded c = 0 := by
  rcases List.mem_append.mp hc with hc | hc
  · simp [extruded, isMotion_of_mem_restoration hc]
  · obtain ⟨f, rfl⟩ := mem_restoreFeedrate hc
    have hword : (Move.build { f := some f }).e = none :=
      Move.along_build_eq_none (a := .e) rfl rfl
    simp [extruded, hword]

theorem isNaN_restoration (htarget : target.extrusion = .absolute)
    (hfinite : target.e.isFinite = true) (hnumber : m.e.isNaN = false) :
    (m.run (m.restoration target)).e.isNaN = false := by
  have hplace := e_restoreModes m target
  have hmode : (m.run (m.restorePositioning target ++ m.restoreExtrusion target)).mode .e =
      .absolute := (mode_restoreModes m target).trans htarget
  rw [restoration, run_append, e_restoreFeedrate, run_append, restorePosition_eq m htarget]
  generalize m.run (m.restorePositioning target ++ m.restoreExtrusion target) = switched
    at hplace hmode ⊢
  split
  · rw [run_cons, run_nil]
    exact isNaN_of_isFinite (within_extruder hmode hfinite).1
  · rw [run_nil, hplace]
    exact hnumber

theorem tool_restoration (m target : Machine) : (m.run (m.restoration target)).tool = m.tool := by
  have hnone : (m.restoration target).filterMap Command.tool = [] :=
    List.filterMap_eq_nil_iff.mpr fun c hc => (quiet_restoration m target c hc).tool
  rw [tool_run, hnone]
  rfl

end Machine

namespace Writer

variable {w next : Writer} {target : Machine}

/-- A writer whose machine has come back to a state, apart from the place of the nozzle and
the tool, and in which nothing else has changed. -/
structure Restores (w next : Writer) (target : Machine) : Prop where
  positioning : next.machine.positioning = target.positioning
  extrusion : next.machine.extrusion = target.extrusion
  extruder : target.extrusion = .absolute → Within (1 / 10 ^ 5) next.machine.e target.e
  feedrate : ∀ f ∈ target.feedrate, ∃ r, next.machine.feedrate = some r ∧ r.isFinite = true ∧
    (value r = value f ∨ ∃ n : ℤ, value r = n ∧ RoundsToWhole (value f) n)
  place : next.machine.x = w.machine.x ∧ next.machine.y = w.machine.y ∧
    next.machine.z = w.machine.z
  tool : next.machine.tool = w.machine.tool
  ceiling : next.ceiling = w.ceiling
  /-- Nothing is extruded on the way. -/
  dry : ∃ cs, next = w.writeAll cs ∧ w.machine.Meets (fun n c => n.extruded c = 0) cs

theorem machine_restore (w : Writer) (target : Machine) :
    (w.restore target).machine = w.machine.run (w.machine.restoration target) :=
  (writeAll_spec _ _).2.1

theorem restores_restore (he : w.machine.e.isFinite = true) (htarget : target.e.isFinite = true)
    (hspeed : ∀ f ∈ target.feedrate, f.isFinite = true) : w.Restores (w.restore target) target := by
  refine ⟨?_, ?_, ?_, ?_, ?_, ?_, ceiling_restore w target, _, rfl,
    Machine.meets_of_forall fun n c hc => Machine.extruded_restoration hc n⟩
  all_goals rw [machine_restore]
  · exact Machine.positioning_restoration _ _
  · exact Machine.mode_restoration _ _
  · intro habsolute
    exact Machine.within_restoration habsolute htarget
      (Machine.isNaN_restoration habsolute htarget (isNaN_of_isFinite he))
  · intro f hf
    exact Machine.feedrate_restoration hf (hspeed f hf)
  · exact ⟨Machine.along_restoration (a := .x) _ _ (by decide),
      Machine.along_restoration (a := .y) _ _ (by decide),
      Machine.along_restoration (a := .z) _ _ (by decide)⟩
  · exact Machine.tool_restoration _ _

/-- A writer goes on behind another one. -/
abbrev Follows (w next : Writer) : Prop :=
  Extends (fun _ _ => True) w next

theorem follows_writeAll (w : Writer) (cs : List Command) : w.Follows (w.writeAll cs) := by
  obtain ⟨hbody, hmachine, -⟩ := writeAll_spec w cs
  exact ⟨cs, hbody, hmachine, fun _ _ _ _ _ => trivial⟩

theorem follows_enter (w : Writer) (p : BodyPlan) (layer : Layer) (first : Segment)
    (commands : List Command) : w.Follows (w.enter p layer first commands) :=
  (w.emits_enter p layer first commands).extends

theorem follows_run (w : Writer) (p : BodyPlan) (layer : Layer) (run : List Segment) :
    w.Follows (w.run p layer run) := by
  cases run with
  | nil => exact .refl w
  | cons first rest => exact (w.follows_enter p layer first _).trans (follows_writeAll _ _)

theorem follows_runs (p : BodyPlan) (layer : Layer) (runs : List (List Segment)) (w : Writer) :
    w.Follows (runs.foldl (fun w run => w.run p layer run) w) := by
  induction runs generalizing w with
  | nil => exact .refl w
  | cons run runs ih => exact (w.follows_run p layer run).trans (ih _)

/-- The run that starts with a segment is replayed by a visit from the modes of the text in
front of that segment. -/
structure Replays (w : Writer) (p : BodyPlan) (due : Option (Option Tool × Tool)) (v : Visit)
    (first : Segment) (rest : List Segment) (entered : Writer) : Prop where
  follows : w.Follows entered
  continues : (entered.writeAll (((first :: rest).flatMap Segment.commands).filter keeps)).Follows
    (w.visit p due v)
  positioning : entered.machine.positioning = first.entry.positioning
  extrusion : entered.machine.extrusion = first.entry.extrusion

theorem exists_replays (w : Writer) (p : BodyPlan) (due : Option (Option Tool × Tool)) (v : Visit)
    {first : Segment} {rest : List Segment} (hrun : first :: rest ∈ v.runs) :
    ∃ entered, w.Replays p due v first rest entered := by
  obtain ⟨front, hfront, hbody, hmachine⟩ : ∃ front, w.Follows front ∧
      (w.visit p due v).body =
        (v.runs.foldl (fun w run => w.run p v.layer run) front).body ∧
      (w.visit p due v).machine =
        (v.runs.foldl (fun w run => w.run p v.layer run) front).machine :=
    ⟨_, ((w.emits_due p v.layer due).quiet (emits_catchUp _ p v.layer.index)).extends, rfl, rfl⟩
  obtain ⟨before, after, hruns⟩ := List.append_of_mem hrun
  have hbefore := follows_runs p v.layer before front
  have hafter := follows_runs p v.layer after
    ((before.foldl (fun w run => w.run p v.layer run) front).run p v.layer (first :: rest))
  rw [hruns, List.foldl_append, List.foldl_cons] at hbody hmachine
  generalize before.foldl (fun w run => w.run p v.layer run) front = reached
    at hbefore hafter hbody hmachine
  refine ⟨reached.enter p v.layer first ((first :: rest).flatMap Segment.commands),
    hfront.trans (hbefore.trans (follows_enter _ _ _ _ _)), hafter.of_eq hbody hmachine, ?_, ?_⟩
  · rw [machine_enter]
    exact Machine.positioning_restoration _ _
  · rw [machine_enter]
    exact Machine.mode_restoration _ _

/-- Restoring a state restores it and moves nothing, so that runs are replayed from the modes
in front of them. -/
theorem restore_moves_nothing (w : Writer) (target : Machine) (he : w.machine.e.isFinite = true)
    (htarget : target.e.isFinite = true) (hspeed : ∀ f ∈ target.feedrate, f.isFinite = true) :
    w.Restores (w.restore target) target ∧
      ∀ p due v first rest, first :: rest ∈ v.runs →
        ∃ entered, w.Replays p due v first rest entered :=
  ⟨restores_restore he htarget hspeed, fun p due v _ _ hrun => w.exists_replays p due v hrun⟩

/-- All four corrections at once. -/
theorem restore_moves_nothing_four_corrections :
    let w : Writer := { machine := { x := 3, e := 5, extrusion := .relative }, ceiling := 2 }
    let target : Machine := { e := 1.25, feedrate := some 1500.5, positioning := .relative }
    (w.machine.restoration target).length = 4 ∧ w.Restores (w.restore target) target := by
  intro w target
  have hrestores := (restore_moves_nothing w target (by decide +kernel) (by decide +kernel)
    (by decide +kernel)).1
  exact ⟨by decide +kernel, hrestores⟩

end Writer

end ToolBatching
