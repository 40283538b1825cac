import ToolBatching.Optimization
import ToolBatching.Proofs.Writing.Crossings

namespace ToolBatching

open Number

/-- Whether the hops work, the heights of layers and entries fit below a hop, and the
segments hold source lines only. -/
structure BodyPlan.Clears (p : BodyPlan) : Prop where
  works : p.settings.hop.Works
  layers : ∀ l ∈ p.program.layers, p.settings.hop.Fits l.z
  entries : ∀ s ∈ p.program.segments, p.settings.hop.Fits s.entry.z
  lines : ∀ s ∈ p.program.segments, ∀ c ∈ s.commands, c.line.isSome = true

namespace Writer

namespace Guarded

variable {p : BodyPlan} {start : Machine} {w : Writer}

theorem restore (h : Guarded p.settings start w) (target : Machine) :
    Guarded p.settings start (w.restore target) :=
  h.writeAll_idle (Settings.not_crosses_restoration w.machine target)

theorem change (h : Guarded p.settings start w) (source : Option Tool) (tool : Tool) :
    Guarded p.settings start (w.change p.settings.toolChange source tool) := by
  exact (h.ensureAbsolute.block w.positioning_ensureAbsolute source tool).of_eq rfl rfl rfl

theorem towerLayer (h : Guarded p.settings start w) (hp : p.Clears) (tool : Tool) (index : Nat) :
    Guarded p.settings start (w.towerLayer p tool index) := by
  apply towerLayer_induction h
  · intro layer hlayer
    exact h.travel hp.works rfl (hp.layers layer (Program.mem_layers_of_layer? hlayer))
  · intro v c hc hv
    exact hv.write_idle (Settings.not_crosses_ofTower hc)
  · intro v n hv
    exact hv.of_eq rfl rfl rfl

theorem catchUp (h : Guarded p.settings start w) (hp : p.Clears) (index : Nat) :
    Guarded p.settings start (w.catchUp p index) := by
  unfold Writer.catchUp
  split
  · split
    · rename_i tool _
      have hmarked : Guarded p.settings start
          { w with progress := w.progress.catchUp tool index } := h.of_eq rfl rfl rfl
      exact List.foldlRecOn _ _ hmarked fun w hw j _ => hw.towerLayer hp tool j
    · exact h
  · exact h

theorem mark (h : Guarded p.settings start w) (layer : Layer) :
    Guarded p.settings start (w.mark p layer) := by
  have hcounted : Guarded p.settings start
      { w with counts := { w.counts with visits := w.counts.visits + 1 } } := h.of_eq rfl rfl rfl
  apply hcounted.writeAll_idle
  intro c hc
  simp only [List.mem_cons, List.not_mem_nil, or_false] at hc
  rcases hc with rfl | rfl
  · exact Settings.not_crosses_commentLine _
  · exact Settings.not_crosses_commentLine _

theorem enter (h : Guarded p.settings start w) (hp : p.Clears) {layer : Layer}
    (hlayer : layer ∈ p.program.layers) {first : Segment} (hfirst : first ∈ p.program.segments)
    (commands : List Command) :
    Guarded p.settings start (w.enter p layer first commands) := by
  unfold Writer.enter
  apply Guarded.restore
  exact h.travel hp.works rfl ((hp.entries first hfirst).greater (hp.layers layer hlayer))

theorem run (h : Guarded p.settings start w) (hp : p.Clears) {layer : Layer}
    (hlayer : layer ∈ p.program.layers) {run : List Segment}
    (hrun : ∀ s ∈ run, s ∈ p.program.segments) :
    Guarded p.settings start (w.run p layer run) := by
  cases run with
  | nil => exact h
  | cons first rest =>
      apply (h.enter hp hlayer (hrun first List.mem_cons_self) _).writeAll_idle
      intro c hc
      obtain ⟨s, hs, hc⟩ := List.mem_flatMap.mp (List.mem_of_mem_filter hc)
      exact Settings.not_crosses_of_line (hp.lines s (hrun s hs) c hc)

theorem visit (h : Guarded p.settings start w) (hp : p.Clears) {v : Visit}
    (hv : v.layer ∈ p.program.layers ∧ ∀ s ∈ v.segments, s ∈ p.program.segments)
    (due : Option (Option Tool × Tool)) :
    Guarded p.settings start (w.visit p due v) := by
  apply visit_induction (h.mark v.layer)
  · intro w source tool _ hw
    exact hw.change source tool
  · intro w hw
    exact hw.catchUp hp v.layer.index
  · intro w run hrun hw
    exact hw.run hp hv.1 fun s hs => hv.2 s (v.mem_segments_of_mem_run hrun hs)
  · intro w last hw
    exact hw.of_eq rfl rfl rfl

theorem job (h : Guarded p.settings start w) (hp : p.Clears) {j : Job}
    (hj : ∀ v ∈ j.visits, v.layer ∈ p.program.layers ∧ ∀ s ∈ v.segments, s ∈ p.program.segments) :
    Guarded p.settings start (w.job p j) := by
  unfold Writer.job
  cases hvisits : j.visits with
  | nil => exact h
  | cons first rest =>
      rw [hvisits] at hj
      obtain ⟨hfirst, hrest⟩ := List.forall_mem_cons.mp hj
      exact List.foldlRecOn _ _ (h.visit hp hfirst _) fun w hw v hv => hw.visit hp (hrest v hv) none

theorem finish (h : Guarded p.settings start w) : Guarded p.settings start (w.finish p) := by
  unfold Writer.finish
  apply Guarded.restore
  split
  · exact h.vertical _
  · exact h

end Guarded

end Writer

namespace Program

/-- Where hops work, no travel into a run or to a tower and no tool-change block carries the
nozzle sideways in relative coordinates or below the print moves in front of it, as long as
no height overflows when the height of a hop is added. -/
theorem travels_clear_prints (p : Program) (plan : Plan) (settings : Settings)
    (hlines : ∀ c ∈ p.bodyCommands, c.line.isSome = true)
    (hmembers : ∀ id ∈ plan.members, (p.segment? id).isSome = true)
    (hworks : settings.hop.Works)
    (hlayers : ∀ l ∈ p.layers, settings.hop.Fits l.z)
    (hentries : ∀ s ∈ p.segments, settings.hop.Fits s.entry.z) :
    ∃ body, p.synthesize plan settings = .ok body ∧
      (p.preambleState.Fits settings.hop body.commands →
        p.preambleState.CrossesAbove settings body.commands) := by
  obtain ⟨jobs, hjobs, -⟩ := resolve_eq_ok hmembers
  let context : BodyPlan := { program := p, settings, total := plan.visitCount }
  have hclears : context.Clears := by
    refine ⟨hworks, hlayers, hentries, ?_⟩
    intro s hs c hc
    apply hlines
    rw [← commands_segments]
    exact List.mem_flatMap.mpr ⟨s, hs, hc⟩
  have hstart : Writer.Guarded context.settings p.preambleState { machine := p.preambleState } :=
    Writer.guarded_start p.preambleState hworks.height
  have hwritten := (List.foldlRecOn jobs (fun w j => w.job context j) hstart
    fun w hw j hj => hw.job hclears fun v hv => mem_of_resolve hjobs hj hv).finish
  refine ⟨⟨_, _⟩, by rw [synthesize, hjobs]; rfl, ?_⟩
  intro hfits
  exact (hwritten.tops hfits).crossings

/-- A plan that prints the lower of two layers last. -/
theorem travels_clear_prints_upper_first :
    let text := "; layer num/total_layer_count: 1/2\nG1 X1 Z0.2 E1\n" ++
      "; layer num/total_layer_count: 2/2\nG1 X9 Z0.4 E2\n"
    let p := ofText text
    let plan : Plan := { batches := [⟨none, 1, 2, [⟨2, 0⟩, ⟨1, 0⟩]⟩] }
    ∃ body, p.synthesize plan {} = .ok body ∧
      p.preambleState.Fits ({} : Settings).hop body.commands ∧
      p.preambleState.CrossesAbove {} body.commands := by
  intro text p plan
  obtain ⟨hlines, hmembers, hheight, hnonneg, hspeed, hlayers, hentries, hbody⟩ :
      (∀ c ∈ p.bodyCommands, c.line.isSome = true) ∧
      (∀ id ∈ plan.members, (p.segment? id).isSome = true) ∧
      ({} : HopSettings).height.isFinite = true ∧ 0 ≤ value ({} : HopSettings).height ∧
      ({} : HopSettings).zFeedrate.isFinite = true ∧
      (∀ l ∈ p.layers, ({} : HopSettings).Fits l.z) ∧
      (∀ s ∈ p.segments, ({} : HopSettings).Fits s.entry.z) ∧
      ∀ body ∈ (p.synthesize plan {}).toOption,
        p.preambleState.Fits ({} : Settings).hop body.commands := by
    decide +kernel
  obtain ⟨body, hsynthesized, hcrosses⟩ := travels_clear_prints p plan {} hlines hmembers
    ⟨rfl, hheight, hnonneg, hspeed⟩ hlayers hentries
  have hfits := hbody body (by rw [hsynthesized]; rfl)
  exact ⟨body, hsynthesized, hfits, hcrosses hfits⟩

/-- A line that rises to a height with 308 zeros. -/
def farRise : String :=
  "G1 Z1" ++ String.ofList (List.replicate 308 '0')

def farCommand (n : Nat) : Command :=
  { line := some n, raw := farRise, mnemonic := "G1", x := none, y := none, z := some 1e308
    e := none, f := none, tool := none, comment := none, inToolChange := false }

theorem toList_farRise : farRise.toList = "G1 Z1".toList ++ List.replicate 308 '0' := by
  simp only [farRise, String.toList_append, String.toList_ofList]

theorem parse_farRise (n : Nat) : Command.parse n farRise = farCommand n := by
  have hline : Text.IsLine farRise.toList := by
    apply Text.isLine_of_forall
    rw [toList_farRise, List.forall_mem_append]
    refine ⟨by simp, ?_⟩
    intro c hc
    rw [(List.mem_replicate.mp hc).2]
    decide
  rw [Command.parse_of_isLine n hline, Command.ofText]
  simp only [Command.codeOf, toList_farRise, farCommand, Command.mk.injEq]
  decide +kernel

theorem ofCommand_farCommand (n : Nat) : Marker.ofCommand (farCommand n) = none := by
  have hcode : (farCommand n).code =
      Text.trim (Command.splitComment ("G1 Z1".toList ++ List.replicate 308 '0')).1 := by
    rw [← toList_farRise]
    rfl
  have hdigits : ∀ name ∈ ["M620 S", "M621 S"], Marker.sequenceDigits name
      (Text.trim (Command.splitComment ("G1 Z1".toList ++ List.replicate 308 '0')).1) = none := by
    decide +kernel
  rw [Marker.ofCommand, hcode, hdigits "M620 S" (by simp), hdigits "M621 S" (by simp)]
  rfl

/-- A program that begins at that height and then prints on the bed. -/
def farProgram : Program :=
  ofLines [farRise, "; layer num/total_layer_count: 1/2", "; Z_HEIGHT: 0.2", "G1 X5 E1", "G1 Z0",
    "; layer num/total_layer_count: 2/2", "G1 X7", "G1 X9 E2"] .lf

theorem farProgram_eq :
    farProgram = (["; layer num/total_layer_count: 1/2", "; Z_HEIGHT: 0.2", "G1 X5 E1", "G1 Z0",
      "; layer num/total_layer_count: 2/2", "G1 X7", "G1 X9 E2"].foldl Layout.read
        (({ detection := .markers } : Layout).push
          { command := farCommand 0, marker := none, before := {}
            next := { machine := ({} : Machine).step (farCommand 0) }
            extrusion := ({} : Machine).extruded (farCommand 0)
            opens := false, boundary := .none, warning := none })).finish .lf := by
  have hscan : ({} : Context).scan 0 farRise =
      { command := farCommand 0, marker := none, before := {}
        next := { machine := ({} : Machine).step (farCommand 0) }
        extrusion := ({} : Machine).extruded (farCommand 0)
        opens := false, boundary := .none, warning := none } := by
    simp only [Context.scan, Context.advance, parse_farRise, ofCommand_farCommand]
    rfl
  have hmarkers : Marker.anyLayer [farRise, "; layer num/total_layer_count: 1/2",
      "; Z_HEIGHT: 0.2", "G1 X5 E1", "G1 Z0", "; layer num/total_layer_count: 2/2", "G1 X7",
      "G1 X9 E2"] = true := by
    rw [Marker.anyLayer, List.any_cons, Bool.or_eq_true]
    exact Or.inr (by decide +kernel)
  rw [farProgram, ofLines, hmarkers, List.foldl_cons, if_pos rfl, Layout.read, hscan]

theorem not_crossesAbove_of_drop {p : Program} {plan : Plan} {settings : Settings} {x y : Float}
    (m n : Nat) (hcrosses : settings.Crosses (Travel.lateral settings.hop x y))
    (h : ∃ body ∈ (p.synthesize plan settings).toOption,
      (body.commands.drop n).head? = some (Travel.lateral settings.hop x y) ∧
      ∃ c ∈ ((body.commands.take n).drop m).head?,
        (p.preambleState.run ((body.commands.take n).take m)).prints c = true ∧
        value (p.preambleState.run (body.commands.take n)).z <
          value (p.preambleState.run ((body.commands.take n).take m ++ [c])).z - 1 / 1000) :
    ∃ body, p.synthesize plan settings = .ok body ∧
      ¬ p.preambleState.CrossesAbove settings body.commands := by
  obtain ⟨body, hbody, hlateral, c, hc, hprints, hbelow⟩ := h
  refine ⟨body, eq_ok_of_mem_toOption hbody, ?_⟩
  intro habove
  have hheight := (habove _ _ (Machine.concat_prefix_of_drop hlateral) hcrosses).2 _
    ⟨_, c, Machine.concat_prefix_of_drop hc, hprints, rfl⟩
  exact absurd hheight (not_le.mpr hbelow)

/-- Where the height of a hop overflows, the hop is not read as a move, and the nozzle
crosses at the height where it stood. -/
theorem travels_meet_prints :
    let plan : Plan := { batches := [⟨none, 1, 2, [⟨1, 0⟩, ⟨2, 0⟩]⟩] }
    let settings : Settings := { hop := { height := 1e308 } }
    settings.validate = .ok () ∧ settings.hop.Works ∧
      (∀ c ∈ farProgram.bodyCommands, c.line.isSome = true) ∧
      (∀ id ∈ plan.members, (farProgram.segment? id).isSome = true) ∧
      (∀ c ∈ farProgram.commands, ∀ a ∈ [Axis.x, .y, .z, .e], ∀ v ∈ c.along a,
        v.isFinite = true) ∧
      ∃ body, farProgram.synthesize plan settings = .ok body ∧
        ¬ farProgram.preambleState.CrossesAbove settings body.commands := by
  intro plan settings
  rw [farProgram_eq]
  have hworks : settings.hop.height.isFinite = true ∧ 0 ≤ value settings.hop.height ∧
      settings.hop.zFeedrate.isFinite = true := by decide +kernel
  have hcrosses : settings.Crosses (Travel.lateral settings.hop 7 0) :=
    ⟨Settings.carries_lateral rfl 7 0, by decide +kernel⟩
  refine ⟨by decide +kernel, ⟨rfl, hworks.1, hworks.2.1, hworks.2.2⟩, ?_⟩
  refine And.imp_right (And.imp_right (And.imp_right (not_crossesAbove_of_drop 3 8 hcrosses))) ?_
  decide +kernel

end Program

end ToolBatching
