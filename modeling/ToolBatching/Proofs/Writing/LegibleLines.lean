import ToolBatching.Proofs.Writing.Closing
import ToolBatching.Proofs.Writing.TowerLines

namespace ToolBatching

open Number

theorem Program.le_of_layer? {p : Program} {index : Nat} {l : Layer} (h : p.layer? index = some l) :
    index ≤ p.layers.length := by
  unfold layer? at h
  split at h
  · exact absurd h (by simp)
  · obtain ⟨hlt, -⟩ := List.getElem?_eq_some_iff.mp h
    omega

/-- Every number of the state is finite. -/
structure Machine.Finite (m : Machine) : Prop where
  x : m.x.isFinite = true
  y : m.y.isFinite = true
  z : m.z.isFinite = true
  e : m.e.isFinite = true
  feedrate : ∀ f ∈ m.feedrate, f.isFinite = true

instance (m : Machine) : Decidable m.Finite :=
  decidable_of_iff (m.x.isFinite = true ∧ m.y.isFinite = true ∧ m.z.isFinite = true ∧
      m.e.isFinite = true ∧ ∀ f ∈ m.feedrate, f.isFinite = true)
    ⟨fun h => ⟨h.1, h.2.1, h.2.2.1, h.2.2.2.1, h.2.2.2.2⟩,
      fun h => ⟨h.x, h.y, h.z, h.e, h.feedrate⟩⟩

/-- The numbers from which a body is written are finite, and stay so on their way into its
lines. -/
structure BodyPlan.Writable (p : BodyPlan) : Prop where
  zSpeed : p.settings.hop.zFeedrate.isFinite = true
  travelSpeed : p.settings.hop.travelFeedrate.isFinite = true
  words : ∀ c ∈ p.program.bodyCommands, ∀ a ∈ [Axis.x, .y], ∀ v ∈ c.along a, v.isFinite = true
  layers : ∀ l ∈ p.program.layers, p.settings.hop.Fits l.z
  entries : ∀ s ∈ p.program.segments, p.settings.hop.Fits s.entry.z ∧ s.entry.Finite
  exit : p.program.exit.Finite
  towers : p.hasTowers = true → p.settings.primeTower.Moderate ∧
    ∀ index ≤ p.program.layers.length, ∀ l ∈ p.program.layer? index,
      AtMost 400 (p.settings.primeTower.extrusionPerMm (p.towerHeight index l.z))

theorem Command.tool_ofText_lt {line : Option Nat} {raw : String} {t : Nat}
    (h : (ofText line raw).tool = some t) : t < 10 :=
  selectedTool_lt h

theorem BodyPlan.Surrounds.tool_lt {p : BodyPlan} {c : Command} (h : p.Surrounds c) :
    ∀ t : Nat, c.tool = some t → t < 10 := by
  intro t ht
  cases h with
  | tower tool index => exact Command.tool_ofText_lt ht
  | move _ => exact Command.tool_ofText_lt ht
  | absolute => exact Command.tool_ofText_lt ht
  | positioning _ => exact Command.tool_ofText_lt ht
  | extrusion _ => exact Command.tool_ofText_lt ht
  | extruder e => exact Command.tool_ofText_lt ht
  | block hc =>
      obtain ⟨n, tag, line, -, rfl⟩ := Flavor.exists_of_mem_render hc
      dsimp only at ht
      unfold Command.parse at ht
      exact Command.tool_ofText_lt ht

theorem BodyPlan.Composes.tool_lt {p : BodyPlan} {c : Command} (h : p.Composes c)
    (hbody : ∀ d ∈ p.program.bodyCommands, ∀ t : Nat, d.tool = some t → t < 10) :
    ∀ t : Nat, c.tool = some t → t < 10 := by
  intro t ht
  cases h with
  | kept hc _ => exact hbody c hc t ht
  | marker number => exact Command.tool_ofText_lt ht
  | height z => exact Command.tool_ofText_lt ht
  | tower tool index => exact Command.tool_ofText_lt ht
  | move _ => exact Command.tool_ofText_lt ht
  | absolute => exact Command.tool_ofText_lt ht
  | positioning _ => exact Command.tool_ofText_lt ht
  | extrusion _ => exact Command.tool_ofText_lt ht
  | extruder e => exact Command.tool_ofText_lt ht
  | block hc => exact (BodyPlan.Surrounds.block hc).tool_lt t ht

namespace Travel

variable {s : HopSettings} {t : Travel} {m : Machine} {x y z : Float}

theorem legible_vertical (hs : s.zFeedrate.isFinite = true) (hz : z.isFinite = true) :
    (vertical s z).Legible := by
  apply Move.legible_build _ rfl
  constructor <;> simp [hs, hz]

theorem legible_lateral (hs : s.travelFeedrate.isFinite = true) (hx : x.isFinite = true)
    (hy : y.isFinite = true) : (lateral s x y).Legible := by
  apply Move.legible_build _ rfl
  constructor <;> simp [hs, hx, hy]

theorem mem_direct {c : Command} (h : c ∈ t.direct s m) :
    c = vertical s t.z ∨ c = lateral s t.x t.y := by
  by_cases hrises : m.z ≤ t.z
  · rw [show t.direct s m = _ from if_pos hrises] at h
    rcases List.mem_append.mp h with h | h
    · exact Or.inl (List.mem_singleton.mp (List.mem_ite_nil_right.mp h).2)
    · exact Or.inr (List.mem_singleton.mp (List.mem_ite_nil_right.mp h).2)
  · rw [show t.direct s m = _ from if_neg hrises] at h
    rcases List.mem_append.mp h with h | h
    · exact Or.inr (List.mem_singleton.mp (List.mem_ite_nil_right.mp h).2)
    · exact Or.inl (List.mem_singleton.mp (List.mem_ite_nil_right.mp h).2)

theorem legible_plan (hz : s.zFeedrate.isFinite = true) (ht : s.travelFeedrate.isFinite = true)
    (hx : t.x.isFinite = true) (hy : t.y.isFinite = true) (hend : s.Fits t.z) (hm : s.Fits m.z)
    (hceiling : s.Fits t.ceiling) : ∀ c ∈ (t.plan s m).commands, c.Legible := by
  have htop : (t.hopZ s m).isFinite = true := ((hm.greater hceiling).greater hend).raised
  have hrise := legible_vertical hz htop
  have hslide := legible_lateral ht hx hy
  have hfall := legible_vertical hz hend.height
  unfold plan
  split
  · simp only [hop, List.forall_mem_cons, List.not_mem_nil, false_imp_iff, implies_true, and_true]
    exact ⟨hrise, hslide, hfall⟩
  · intro c hc
    rcases mem_direct hc with rfl | rfl
    · exact hfall
    · exact hslide

end Travel

namespace Machine

theorem legible_restoration {target : Machine} (h : target.Finite) (m : Machine) :
    ∀ c ∈ m.restoration target, c.Legible := by
  intro c hc
  simp only [restoration, List.mem_append] at hc
  rcases hc with ((hc | hc) | hc) | hc
  · obtain ⟨-, hc⟩ := List.mem_ite_nil_left.mp hc
    rw [List.mem_singleton.mp hc]
    cases target.positioning <;> decide
  · obtain ⟨-, hc⟩ := List.mem_ite_nil_left.mp hc
    rw [List.mem_singleton.mp hc]
    cases target.extrusion <;> decide
  · obtain ⟨-, hc⟩ := List.mem_ite_nil_right.mp hc
    rw [List.mem_singleton.mp hc]
    exact Command.legible_extruder h.e
  · unfold restoreFeedrate at hc
    split at hc
    · rename_i f hf
      obtain ⟨-, hc⟩ := List.mem_ite_nil_left.mp hc
      rw [List.mem_singleton.mp hc]
      apply Move.legible_build _ rfl
      constructor <;> simp [h.feedrate f hf]
    · exact absurd hc (by simp)

theorem isFinite_along_step {m : Machine} {a : Axis} (h : (m.along a).isFinite = true) {c : Command}
    (hc : ∀ v ∈ c.along a, v.isFinite = true)
    (hmode : m.mode a = .relative → c.isMotion = true → c.along a = none) :
    ((m.step c).along a).isFinite = true := by
  apply along_step_holds (fun v => v.isFinite = true) (by decide +kernel) h hc
  intro hrelative hmotion v hv
  rw [hmode hrelative hmotion] at hv
  exact absurd hv (by simp)

end Machine

namespace Writer

/-- Where a run is entered is finite, also if the words in front of that place were written
for relative coordinates: there is no such place once X or Y has been moved so. -/
theorem isFinite_descentPoint {m : Machine} (hx : m.x.isFinite = true) (hy : m.y.isFinite = true)
    {cs : List Command} (hcs : ∀ c ∈ cs, ∀ a ∈ [Axis.x, .y], ∀ v ∈ c.along a, v.isFinite = true)
    {point : Float × Float} (h : descentPoint m cs = some point) :
    point.1.isFinite = true ∧ point.2.isFinite = true := by
  induction cs generalizing m with
  | nil => exact absurd h (by simp [descentPoint])
  | cons c cs ih =>
      obtain ⟨hc, hcs⟩ := List.forall_mem_cons.mp hcs
      have hstep (hmode : m.positioning = .relative → c.isMotion = true → c.x = none ∧ c.y = none) :
          (m.step c).x.isFinite = true ∧ (m.step c).y.isFinite = true :=
        ⟨Machine.isFinite_along_step (a := .x) hx (hc .x (by simp)) fun hm hmotion =>
            (hmode hm hmotion).1,
          Machine.isFinite_along_step (a := .y) hy (hc .y (by simp)) fun hm hmotion =>
            (hmode hm hmotion).2⟩
      unfold descentPoint at h
      split at h
      · exact ih hx hy hcs h
      · dsimp only at h
        split at h
        · split at h
          · exact absurd h (by simp)
          · rename_i habsolute
            obtain ⟨hx', hy'⟩ := hstep fun hm => absurd hm habsolute
            split at h
            · rw [← Option.some.inj h]
              exact ⟨hx, hy⟩
            · rw [← Option.some.inj h]
              exact ⟨hx', hy'⟩
        · rename_i hslides
          obtain ⟨hx', hy'⟩ := hstep fun _ hmotion => by
            simpa [hmotion] using hslides
          exact ih hx' hy' hcs h

variable {p : BodyPlan} {start : Machine} {w : Writer} {c : Command}

/-- The body leads to the state of the writer, its ceiling is above the print moves, the active
tool has one digit, and no written line is opaque as long as the heights fit. -/
structure Legible (p : BodyPlan) (start : Machine) (w : Writer) : Prop extends
    Bounded p.settings.hop start w where
  tool : ∀ t : Nat, w.machine.tool = some t → t < 10
  lines : start.Fits p.settings.hop w.body.toList →
    ∀ c ∈ w.body.toList, c.line = none → c.Legible

namespace Legible

theorem of_eq (h : Legible p start w) {next : Writer} (hbody : next.body = w.body)
    (hmachine : next.machine = w.machine) (hceiling : next.ceiling = w.ceiling) :
    Legible p start next where
  toBounded :=
    (keptByWrites_bounded p.settings.hop start).of_eq w next h.toBounded hbody hmachine hceiling
  tool := by rw [hmachine]; exact h.tool
  lines := by rw [hbody]; exact h.lines

theorem write (h : Legible p start w) (htool : ∀ t : Nat, c.tool = some t → t < 10)
    (hc : start.Fits p.settings.hop w.body.toList → c.line = none → c.Legible) :
    Legible p start (w.write c) where
  toBounded := (keptByWrites_bounded p.settings.hop start).write w c h.toBounded
  tool t ht := by
    rw [machine_write, Machine.tool_step] at ht
    cases hselect : c.tool with
    | none =>
        rw [hselect, Option.none_or] at ht
        exact h.tool t ht
    | some t' =>
        rw [hselect, Option.some_or] at ht
        exact htool t (hselect.trans ht)
  lines hfits := by
    rw [toList_body_write] at hfits ⊢
    rw [List.forall_mem_append, List.forall_mem_singleton]
    exact ⟨h.lines hfits.of_prefix, hc hfits.of_prefix⟩

theorem writeAll (h : Legible p start w) {cs : List Command}
    (htools : ∀ c ∈ cs, ∀ t : Nat, c.tool = some t → t < 10)
    (hcs : start.Fits p.settings.hop w.body.toList → ∀ c ∈ cs, c.line = none → c.Legible) :
    Legible p start (w.writeAll cs) := by
  induction cs generalizing w with
  | nil => exact h
  | cons c cs ih =>
      obtain ⟨htool, htools⟩ := List.forall_mem_cons.mp htools
      refine ih (h.write htool fun hfits => hcs hfits c List.mem_cons_self) htools ?_
      intro hfits d hd
      rw [toList_body_write] at hfits
      exact hcs hfits.of_prefix d (List.mem_cons_of_mem c hd)

theorem surrounding (h : Legible p start w) {cs : List Command} (hcs : ∀ c ∈ cs, p.Surrounds c)
    (hlegible : start.Fits p.settings.hop w.body.toList → ∀ c ∈ cs, c.Legible) :
    Legible p start (w.writeAll cs) :=
  h.writeAll (fun c hc => (hcs c hc).tool_lt) fun hfits c hc _ => hlegible hfits c hc

theorem ensureAbsolute (h : Legible p start w) : Legible p start w.ensureAbsolute := by
  unfold Writer.ensureAbsolute
  split
  · exact h.write (BodyPlan.Surrounds.absolute (p := p)).tool_lt fun _ _ => by decide
  · exact h

theorem travel (h : Legible p start w) (hp : p.Writable) {t : Travel} (hceiling : t.ceiling = w.ceiling)
    (hx : t.x.isFinite = true) (hy : t.y.isFinite = true) (hend : p.settings.hop.Fits t.z) :
    Legible p start (w.travel p.settings.hop t) := by
  have habsolute := h.ensureAbsolute
  have hplan : Legible p start
      (w.ensureAbsolute.writeAll (t.plan p.settings.hop w.ensureAbsolute.machine).commands) := by
    apply habsolute.surrounding (p.surrounds_plan t _ _)
    intro hfits
    have hm : p.settings.hop.Fits w.ensureAbsolute.machine.z := by
      rw [habsolute.machine]
      exact hfits _ List.prefix_rfl
    have htop := (habsolute.capped hfits).ceiling
    rw [ceiling_ensureAbsolute, ← hceiling] at htop
    exact Travel.legible_plan hp.zSpeed hp.travelSpeed hx hy hend hm htop
  exact hplan.of_eq rfl rfl rfl

theorem restore (h : Legible p start w) {target : Machine} (hrestores : p.Restores target)
    (htarget : target.Finite) : Legible p start (w.restore target) :=
  h.surrounding (BodyPlan.surrounds_restoration hrestores w.machine)
    fun _ => Machine.legible_restoration htarget w.machine

theorem change (h : Legible p start w) (source : Option Tool) (tool : Tool) :
    Legible p start (w.change p.settings.toolChange source tool) := by
  have habsolute := h.ensureAbsolute
  have hblock : Legible p start (w.ensureAbsolute.writeAll
      (p.settings.toolChange.block source tool w.ensureAbsolute.ceiling)) := by
    refine habsolute.surrounding (fun c hc => .block hc) fun hfits c hc => ?_
    have hceiling := (habsolute.capped hfits).ceiling.height
    refine Flavor.legible_of_mem_render ?_ hc
    exact ChangeValues.finite_of_ceiling hceiling
  exact hblock.of_eq rfl rfl rfl

theorem towerLayer (h : Legible p start w) (hp : p.Writable) (hprints : p.hasTowers = true)
    {tool : Nat} (htool : tool < 10) (index : Nat) :
    Legible p start (w.towerLayer p tool index) := by
  obtain ⟨hmoderate, hper⟩ := hp.towers hprints
  cases hlayer : p.program.layer? index with
  | none =>
      rw [towerLayer_eq_self hlayer]
      exact h
  | some layer =>
      have hmem := Program.mem_layers_of_layer? hlayer
      obtain ⟨hx, hy⟩ := hmoderate.position htool
      have htraveled : Legible p start
          (w.travel p.settings.hop (p.towerTravel tool layer w.ceiling)) :=
        h.travel hp rfl hx.isFinite hy.isFinite (hp.layers layer hmem)
      rw [towerLayer_eq hlayer rfl]
      generalize w.travel p.settings.hop (p.towerTravel tool layer w.ceiling) = traveled
        at htraveled ⊢
      have hwritten : Legible p start
          (traveled.writeAll (p.towerCommands traveled.machine tool layer index)) := by
        refine htraveled.surrounding (fun c hc => (BodyPlan.ofTower_of_mem hc).surrounds) ?_
        intro _ c hc
        rcases List.mem_append.mp hc with hc | hc
        · obtain ⟨-, hc⟩ := List.mem_ite_nil_left.mp hc
          rw [List.mem_singleton.mp hc]
          decide
        · rcases List.mem_cons.mp hc with rfl | hc
          · exact Command.legible_commentLine _
          · exact PrimeTower.legible_layerMoves hmoderate htool
              (hper index (Program.le_of_layer? hlayer) layer hlayer) c hc
      exact hwritten.of_eq rfl rfl rfl

theorem catchUp (h : Legible p start w) (hp : p.Writable) (index : Nat) :
    Legible p start (w.catchUp p index) := by
  unfold Writer.catchUp
  split
  · rename_i hprints
    split
    · rename_i tool htool
      have hmarked : Legible p start
          { w with progress := w.progress.catchUp tool index } := h.of_eq rfl rfl rfl
      exact List.foldlRecOn _ _ hmarked fun w hw j _ =>
        hw.towerLayer hp hprints (h.tool tool htool) j
    · exact h
  · exact h

theorem mark (h : Legible p start w) (layer : Layer) : Legible p start (w.mark p layer) := by
  have hcounted : Legible p start
      { w with counts := { w.counts with visits := w.counts.visits + 1 } } := h.of_eq rfl rfl rfl
  apply hcounted.writeAll
  · intro c hc
    simp only [List.mem_cons, List.not_mem_nil, or_false] at hc
    rcases hc with rfl | rfl
    · exact fun t => Command.tool_ofText_lt
    · exact fun t => Command.tool_ofText_lt
  · intro _ c hc _
    simp only [List.mem_cons, List.not_mem_nil, or_false] at hc
    rcases hc with rfl | rfl
    · exact Command.legible_commentLine _
    · exact Command.legible_commentLine _

theorem enter (h : Legible p start w) (hp : p.Writable) {layer : Layer}
    (hlayer : layer ∈ p.program.layers) {first : Segment} (hfirst : first ∈ p.program.segments)
    {commands : List Command} (hcommands : ∀ c ∈ commands, c ∈ p.program.bodyCommands) :
    Legible p start (w.enter p layer first commands) := by
  obtain ⟨hfits, hentry⟩ := hp.entries first hfirst
  have hpoint : ((descentPoint first.entry commands).getD (first.entry.x, first.entry.y)).1.isFinite
        = true ∧
      ((descentPoint first.entry commands).getD (first.entry.x, first.entry.y)).2.isFinite
        = true := by
    cases hdescent : descentPoint first.entry commands with
    | none => exact ⟨hentry.x, hentry.y⟩
    | some point =>
        exact isFinite_descentPoint hentry.x hentry.y (fun c hc => hp.words c (hcommands c hc))
          hdescent
  unfold Writer.enter
  refine restore ?_ (.entry hfirst) hentry
  exact h.travel hp rfl hpoint.1 hpoint.2 (hfits.greater (hp.layers layer hlayer))

theorem run (h : Legible p start w) (hp : p.Writable)
    (hlines : ∀ c ∈ p.program.bodyCommands, c.line.isSome = true ∧
      ∀ t : Nat, c.tool = some t → t < 10) {layer : Layer} (hlayer : layer ∈ p.program.layers)
    {run : List Segment} (hrun : ∀ s ∈ run, s ∈ p.program.segments) :
    Legible p start (w.run p layer run) := by
  cases run with
  | nil => exact h
  | cons first rest =>
      have hcommands : ∀ c ∈ (first :: rest).flatMap Segment.commands,
          c ∈ p.program.bodyCommands := by
        intro c hc
        obtain ⟨s, hs, hc⟩ := List.mem_flatMap.mp hc
        rw [← Program.commands_segments]
        exact List.mem_flatMap.mpr ⟨s, hrun s hs, hc⟩
      refine (h.enter hp hlayer (hrun first List.mem_cons_self) hcommands).writeAll ?_ ?_
      · intro c hc
        exact (hlines c (hcommands c (List.mem_of_mem_filter hc))).2
      · intro _ c hc hline
        have hsource := (hlines c (hcommands c (List.mem_of_mem_filter hc))).1
        rw [hline] at hsource
        exact absurd hsource (by simp)

theorem visit (h : Legible p start w) (hp : p.Writable)
    (hlines : ∀ c ∈ p.program.bodyCommands, c.line.isSome = true ∧
      ∀ t : Nat, c.tool = some t → t < 10) {v : Visit}
    (hv : v.layer ∈ p.program.layers ∧ ∀ s ∈ v.segments, s ∈ p.program.segments)
    (due : Option (Option Tool × Tool)) : Legible p start (w.visit p due v) := by
  apply visit_induction (h.mark v.layer)
  · intro w source tool _ hw
    exact hw.change source tool
  · intro w hw
    exact hw.catchUp hp v.layer.index
  · intro w run hrun hw
    exact hw.run hp hlines hv.1 fun s hs => hv.2 s (v.mem_segments_of_mem_run hrun hs)
  · intro w last hw
    exact hw.of_eq rfl rfl rfl

theorem finish (h : Legible p start w) (hp : p.Writable) : Legible p start (w.finish p) := by
  rw [finish_eq]
  refine restore ?_ .exit hp.exit
  apply h.surrounding
  · intro c hc
    obtain ⟨-, hc⟩ := List.mem_ite_nil_right.mp hc
    rw [List.mem_singleton.mp hc]
    exact .move rfl
  · intro hfits c hc
    obtain ⟨-, hc⟩ := List.mem_ite_nil_right.mp hc
    rw [List.mem_singleton.mp hc]
    exact Travel.legible_vertical hp.zSpeed (h.capped hfits).ceiling.raised

end Legible

end Writer

namespace Program

theorem lines_of_mem_bodyCommands (text : String) {c : Command}
    (hc : c ∈ (ofText text).bodyCommands) :
    c.line.isSome = true ∧ ∀ t : Nat, c.tool = some t → t < 10 :=
  ⟨isSome_line_of_mem_bodyCommands text hc, fun _ ht =>
    (tool_of_mem_readCommands text ((read_ofText text).mem_of_mem_bodyCommands hc) ht).2⟩

theorem tool_preambleState_lt (text : String) {t : Nat}
    (ht : (ofText text).preambleState.tool = some t) : t < 10 := by
  rw [(read_ofText text).preambleState, Machine.tool_run, Option.or_eq_some_iff] at ht
  rcases ht with ht | ⟨-, ht⟩
  · obtain ⟨c, hc, hselect⟩ := List.mem_filterMap.mp (List.mem_of_getLast? ht)
    exact (tool_of_mem_readCommands text ((read_ofText text).mem_of_mem_preamble hc) hselect).2
  · exact absurd ht (by simp)

theorem tool_run_lt (text : String) {plan : Plan} {settings : Settings} {body : Body}
    (hbody : (ofText text).synthesize plan settings = .ok body) {front : List Command}
    (hfront : front <+: body.commands) {t : Nat}
    (ht : ((ofText text).preambleState.run front).tool = some t) : t < 10 := by
  rw [Machine.tool_run, Option.or_eq_some_iff] at ht
  rcases ht with ht | ⟨-, ht⟩
  · obtain ⟨c, hc, hselect⟩ := List.mem_filterMap.mp (List.mem_of_getLast? ht)
    exact ((read_ofText text).composes hbody c (hfront.subset hc)).tool_lt
      (fun d hd => (lines_of_mem_bodyCommands text hd).2) t hselect
  · exact tool_preambleState_lt text ht

/-- The body of a schedule has no opaque line but those of the text, as long as the numbers
from which it is written are finite and no height overflows. -/
theorem written_lines_legible (text : String) {settings : Settings}
    (hvalid : settings.validate = .ok ()) (h : ((ofText text).bodyPlan settings).Writable) :
    let p := ofText text
    ∃ body, p.synthesize (p.schedule settings) settings = .ok body ∧
      (p.preambleState.Fits settings.hop body.commands →
        ∀ c ∈ body.commands, c.line = none → c.isCommentOrBlank = true ∨ c.mnemonic ≠ "") := by
  intro p
  obtain ⟨jobs, hjobs, -⟩ := exists_schedule_jobs text settings
  obtain ⟨hheight, -⟩ := HopSettings.height_of_validate hvalid
  have hstart : Writer.Legible (p.bodyPlan settings) p.preambleState
      { machine := p.preambleState } :=
    ⟨⟨rfl, fun _ => Writer.capped_start p.preambleState hheight⟩,
      fun _ ht => tool_preambleState_lt text ht, by simp⟩
  obtain ⟨w, body, hw, hbody, hcommands, -⟩ := synthesize_induction hjobs rfl
    (motive := fun _ => Writer.Legible (p.bodyPlan settings) p.preambleState) hstart
    fun _ w due j hj _ v hv hw =>
      hw.visit h (fun _ => lines_of_mem_bodyCommands text) (mem_of_resolve hjobs hj hv) due
  refine ⟨body, hbody, ?_⟩
  rw [hcommands]
  exact (hw.finish h).lines

/-- Two tools with towers of one loop. -/
theorem written_lines_legible_two_towers :
    let text := "; layer num/total_layer_count: 1/1\nT0\nG1 X1 Z0.2 E1 F1800\nT1\nG1 X9 E2\n"
    let p := ofText text
    let settings : Settings :=
      { primeTower := { wallThickness := 0.4 }, toolChange := { flavor := .generic } }
    ∃ body, p.synthesize (p.schedule settings) settings = .ok body ∧
      (body.counts.towerLayers = 2 ∧ p.preambleState.Fits settings.hop body.commands) ∧
      ∀ c ∈ body.commands, c.line = none → c.isCommentOrBlank = true ∨ c.mnemonic ≠ "" := by
  intro text p settings
  have hvalid : settings.validate = .ok () := by decide +kernel
  have hwritable : (p.bodyPlan settings).Writable := by
    obtain ⟨hz, ht, hwords, hlayers, hentries, hexit, htowers⟩ :
        settings.hop.zFeedrate.isFinite = true ∧ settings.hop.travelFeedrate.isFinite = true ∧
        (∀ c ∈ p.bodyCommands, ∀ a ∈ [Axis.x, .y], ∀ v ∈ c.along a, v.isFinite = true) ∧
        (∀ l ∈ p.layers, settings.hop.Fits l.z) ∧
        (∀ s ∈ p.segments, settings.hop.Fits s.entry.z ∧ s.entry.Finite) ∧ p.exit.Finite ∧
        settings.primeTower.Moderate ∧ ∀ index ≤ p.layers.length, ∀ l ∈ p.layer? index,
          AtMost 400 (settings.primeTower.extrusionPerMm
            ((p.bodyPlan settings).towerHeight index l.z)) := by
      decide +kernel
    exact ⟨hz, ht, hwords, hlayers, hentries, hexit, fun _ => htowers⟩
  have hcounts : ∀ body ∈ (p.synthesize (p.schedule settings) settings).toOption,
      body.counts.towerLayers = 2 ∧ p.preambleState.Fits settings.hop body.commands := by
    decide +kernel
  obtain ⟨body, hbody, hlegible⟩ := written_lines_legible text hvalid hwritable
  have hfacts := hcounts body (by rw [hbody]; rfl)
  exact ⟨body, hbody, hfacts, hlegible hfacts.2⟩

/-- An infinite speed is accepted, and every move of the nozzle in Z is an opaque line. -/
theorem infinite_speed_hides_moves :
    let text := "; layer num/total_layer_count: 1/1\nT0\nG1 X5 Z0.2 E1\n"
    let p := ofText text
    let settings : Settings := { hop := { zSpeed := 1e400 }, toolChange := { flavor := .generic } }
    settings.validate = .ok () ∧
      (∀ c ∈ readCommands text, ∀ a ∈ [Axis.x, .y, .z, .e], ∀ v ∈ c.along a, v.isFinite = true) ∧
      ∃ body, p.synthesize (p.schedule settings) settings = .ok body ∧
        ∃ c ∈ body.commands, c.line = none ∧ c.raw = "G1 Z0.200 Finf" ∧
          c.isCommentOrBlank = false ∧ c.mnemonic = "" := by
  intro text p settings
  have hbody : settings.validate = .ok () ∧
      (∀ c ∈ readCommands text, ∀ a ∈ [Axis.x, .y, .z, .e], ∀ v ∈ c.along a, v.isFinite = true) ∧
      ∃ body ∈ (p.synthesize (p.schedule settings) settings).toOption,
        ∃ c ∈ body.commands, c.line = none ∧ c.raw = "G1 Z0.200 Finf" ∧
          c.isCommentOrBlank = false ∧ c.mnemonic = "" := by
    decide +kernel
  obtain ⟨hvalid, hfinite, body, hbody, hline⟩ := hbody
  exact ⟨hvalid, hfinite, body, eq_ok_of_mem_toOption hbody, hline⟩

end Program

end ToolBatching
