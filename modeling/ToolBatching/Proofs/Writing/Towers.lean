import Mathlib.Algebra.BigOperators.Group.Finset.Piecewise
import ToolBatching.Proofs.Writing.Anchored
import ToolBatching.Proofs.Writing.Blocks
import ToolBatching.Proofs.Writing.TowerMarks
import ToolBatching.Proofs.Writing.TowerSquares

namespace ToolBatching

theorem lookup_filter_ne {α β : Type} [DecidableEq α] {key other : α} (h : other ≠ key)
    (entries : List (α × β)) :
    (entries.filter fun entry => entry.1 != key).lookup other = entries.lookup other := by
  induction entries with
  | nil => rfl
  | cons entry rest ih =>
      obtain ⟨k, v⟩ := entry
      rw [List.filter_cons, List.lookup_cons]
      split
      · rw [List.lookup_cons, ih]
      · rename_i hkey
        obtain rfl : k = key := by simpa using hkey
        rw [ih, beq_eq_false_iff_ne.mpr h]

theorem TowerProgress.printed_catchUp (progress : TowerProgress) (tool other : Tool)
    (layer : Nat) :
    (progress.catchUp tool layer).printed other =
      if tool = other then max (progress.printed tool) layer else progress.printed other := by
  unfold catchUp
  split
  · rename_i hlow
    split
    · rename_i hsame
      rw [max_eq_right hlow.le, ← hsame, printed, List.lookup_cons, beq_self_eq_true]
      rfl
    · rename_i hother
      have hne : other ≠ tool := fun heq => hother heq.symm
      rw [printed, List.lookup_cons, beq_eq_false_iff_ne.mpr hne, lookup_filter_ne hne, printed]
  · rename_i hhigh
    split
    · rename_i hsame
      rw [hsame, max_eq_left (not_lt.mp (hsame ▸ hhigh))]
    · rfl

theorem BodyPlan.towerCommands_eq (p : BodyPlan) (m : Machine) (tool : Tool) (layer : Layer)
    (index : Nat) :
    p.towerCommands m tool layer index =
      (if m.extrusion = .relative then [] else [.synthesized "M83"]) ++ towerMark tool index ::
        p.settings.primeTower.layerMoves tool (p.towerHeight index layer.z) :=
  rfl

/-- What holds where the comment of a tower layer is written: the tool is active, coordinates are
absolute and extrusion is relative, and the nozzle stands at the height of the layer as far as the
numbers fit. -/
structure BodyPlan.Poised (p : BodyPlan) (start : Machine) (front : List Command) (tool : Tool)
    (layer : Layer) : Prop where
  tool : (start.run front).tool = some tool
  modes : (start.run front).TowerModes
  height : p.settings.hop.zFeedrate.isFinite = true → layer.z.isFinite = true →
    start.Fits p.settings.hop front → Number.Within (1 / 1000) (start.run front).z layer.z

/-- Whether all layers of towers among commands are printed: behind each comment stand the moves of
its layer. -/
def BodyPlan.PrintsLayers (p : BodyPlan) (start : Machine) (cs : List Command) : Prop :=
  ∀ front tool index back, cs = front ++ towerMark tool index :: back →
    ∃ layer, p.program.layer? index = some layer ∧ p.Poised start front tool layer ∧
      p.settings.primeTower.layerMoves tool (p.towerHeight index layer.z) <+: back

namespace BodyPlan.PrintsLayers

variable {p : BodyPlan} {start : Machine} {cs : List Command}

theorem append_unmarked (h : p.PrintsLayers start cs) {added : List Command}
    (hadded : ∀ c ∈ added, c.Unmarked) : p.PrintsLayers start (cs ++ added) := by
  intro front tool index back heq
  have hother : towerMark tool index ∉ added := fun hmem =>
    Command.not_unmarked_towerMark tool index (hadded _ hmem)
  rcases List.append_eq_append_iff.mp heq with ⟨more, -, rfl⟩ | ⟨more, rfl, hmore⟩
  · exact absurd (by simp) hother
  · cases more with
    | nil =>
        rw [List.nil_append] at hmore
        exact absurd (by simp [← hmore]) hother
    | cons c more =>
        obtain ⟨rfl, rfl⟩ := List.cons.inj hmore
        obtain ⟨layer, hlayer, hpoised, hmoves⟩ := h front tool index more rfl
        exact ⟨layer, hlayer, hpoised, hmoves.trans (List.prefix_append more added)⟩

theorem append_layer (h : p.PrintsLayers start cs) {tool : Tool} {index : Nat} {layer : Layer}
    (hpoised : p.Poised start cs tool layer) (hlayer : p.program.layer? index = some layer) :
    p.PrintsLayers start (cs ++ towerMark tool index ::
      p.settings.primeTower.layerMoves tool (p.towerHeight index layer.z)) := by
  have hmoves := p.settings.primeTower.unmarked_layerMoves tool (p.towerHeight index layer.z)
  generalize hrest : p.settings.primeTower.layerMoves tool (p.towerHeight index layer.z) = rest
    at hmoves ⊢
  intro front other height back heq
  rcases List.append_eq_append_iff.mp heq with ⟨more, rfl, hmore⟩ | ⟨more, rfl, hmore⟩
  · cases more with
    | nil =>
        obtain ⟨hmark, rfl⟩ := List.cons.inj hmore
        obtain ⟨rfl, rfl⟩ := towerMark_inj hmark
        rw [List.append_nil]
        exact ⟨layer, hlayer, hpoised, by rw [hrest]⟩
    | cons c more =>
        obtain ⟨-, rfl⟩ := List.cons.inj hmore
        exact absurd (hmoves _ (by simp)) (Command.not_unmarked_towerMark other height)
  · cases more with
    | nil =>
        obtain ⟨hmark, rfl⟩ := List.cons.inj hmore
        obtain ⟨rfl, rfl⟩ := towerMark_inj hmark
        rw [List.append_nil] at hpoised
        exact ⟨layer, hlayer, hpoised, by rw [hrest]⟩
    | cons c more =>
        obtain ⟨rfl, rfl⟩ := List.cons.inj hmore
        obtain ⟨below, hbelow, hready, hprinted⟩ := h front other height more rfl
        exact ⟨below, hbelow, hready, hprinted.trans (List.prefix_append more _)⟩

end BodyPlan.PrintsLayers

namespace Writer

variable {p : BodyPlan} {start : Machine} {reach : Tool → Nat} {w next last : Writer} {tool : Tool}

theorem progress_writeAll (w : Writer) (cs : List Command) :
    (w.writeAll cs).progress = w.progress :=
  List.foldlRecOn (motive := fun v => v.progress = w.progress) cs Writer.write rfl
    fun v (hv : v.progress = w.progress) _ _ => hv

/-- A step that prints no layer of a tower. -/
structure Steady (w next : Writer) : Prop where
  commands : ∃ added, next.body.toList = w.body.toList ++ added ∧
    next.machine = w.machine.run added ∧ ∀ c ∈ added, c.Unmarked
  progress : next.progress = w.progress
  towerLayers : next.counts.towerLayers = w.counts.towerLayers

namespace Steady

theorem refl (w : Writer) : Steady w w :=
  ⟨⟨[], by simp, rfl, by simp⟩, rfl, rfl⟩

theorem trans (h : Steady w next) (h' : Steady next last) : Steady w last where
  commands := by
    obtain ⟨added, hbody, hmachine, hadded⟩ := h.commands
    obtain ⟨added', hbody', hmachine', hadded'⟩ := h'.commands
    refine ⟨added ++ added', ?_, ?_, ?_⟩
    · rw [hbody', hbody, List.append_assoc]
    · rw [hmachine', hmachine, Machine.run_append]
    · rw [List.forall_mem_append]
      exact ⟨hadded, hadded'⟩
  progress := h'.progress.trans h.progress
  towerLayers := h'.towerLayers.trans h.towerLayers

theorem of_eq (h : Steady w next) (hbody : last.body = next.body)
    (hmachine : last.machine = next.machine) (hprogress : last.progress = next.progress)
    (hlayers : last.counts.towerLayers = next.counts.towerLayers) : Steady w last where
  commands := by
    rw [hbody, hmachine]
    exact h.commands
  progress := hprogress.trans h.progress
  towerLayers := hlayers.trans h.towerLayers

end Steady

theorem steady_writeAll (w : Writer) {cs : List Command} (h : ∀ c ∈ cs, c.Unmarked) :
    Steady w (w.writeAll cs) := by
  obtain ⟨hbody, hmachine, hcounts⟩ := w.writeAll_spec cs
  exact ⟨⟨cs, hbody, hmachine, h⟩, w.progress_writeAll cs, by rw [hcounts]⟩

theorem steady_ensureAbsolute (w : Writer) : Steady w w.ensureAbsolute := by
  have habsolute : ∀ c ∈ [Command.synthesized "G90"], c.Unmarked :=
    List.forall_mem_singleton.mpr (Command.unmarked_code (by decide))
  unfold ensureAbsolute
  split
  · exact w.steady_writeAll habsolute
  · exact .refl w

theorem steady_travel (w : Writer) (s : HopSettings) (t : Travel) :
    Steady w (w.travel s t) := by
  have hmoves : ∀ c ∈ (t.plan s w.ensureAbsolute.machine).commands, c.Unmarked := by
    intro c hc
    obtain ⟨move, -, rfl⟩ := Travel.exists_move hc
    exact move.unmarked_build
  have hwritten := w.ensureAbsolute.steady_writeAll hmoves
  exact (w.steady_ensureAbsolute.trans hwritten).of_eq rfl rfl rfl hwritten.towerLayers.symm

theorem steady_restore (w : Writer) (target : Machine) : Steady w (w.restore target) :=
  w.steady_writeAll fun _ hc => Machine.unmarked_restoration hc

theorem steady_change (w : Writer) (s : ToolChange) (source : Option Tool) (tool : Tool) :
    Steady w (w.change s source tool) := by
  have hblock : ∀ c ∈ s.block source tool w.ensureAbsolute.ceiling, c.Unmarked :=
    fun _ hc => Flavor.unmarked_of_mem_render hc
  have hwritten := w.ensureAbsolute.steady_writeAll hblock
  exact (w.steady_ensureAbsolute.trans hwritten).of_eq rfl rfl rfl hwritten.towerLayers.symm

theorem steady_mark (w : Writer) (p : BodyPlan) (layer : Layer) : Steady w (w.mark p layer) := by
  have hcounted : Steady w { w with counts := { w.counts with visits := w.counts.visits + 1 } } :=
    (Steady.refl w).of_eq rfl rfl rfl rfl
  apply hcounted.trans
  apply steady_writeAll
  intro c hc
  simp only [List.mem_cons, List.not_mem_nil, or_false] at hc
  rcases hc with rfl | rfl
  · exact Command.unmarked_layerText _ _
  · exact Command.unmarked_heightText _

theorem steady_run (w : Writer) (p : BodyPlan) (layer : Layer) {run : List Segment}
    (h : ∀ s ∈ run, s.Scanned) : Steady w (w.run p layer run) := by
  cases run with
  | nil => exact .refl w
  | cons first rest =>
      refine ((w.steady_travel _ _).trans (steady_restore _ first.entry)).trans (steady_writeAll _ ?_)
      intro c hc
      obtain ⟨s, hs, hc⟩ := List.mem_flatMap.mp (List.mem_of_mem_filter hc)
      exact Command.unmarked_of_line (h s hs c hc).1

theorem steady_runs (w : Writer) (p : BodyPlan) (layer : Layer) {runs : List (List Segment)}
    (h : ∀ run ∈ runs, ∀ s ∈ run, s.Scanned) :
    Steady w (runs.foldl (fun w run => w.run p layer run) w) :=
  List.foldlRecOn runs _ (Steady.refl w) fun _ hv run hrun =>
    hv.trans (steady_run _ p layer (h run hrun))

section AtTower

theorem machine_travel_eq (w : Writer) (s : HopSettings) (t : Travel) :
    (w.travel s t).machine =
      w.ensureAbsolute.machine.run (t.plan s w.ensureAbsolute.machine).commands :=
  (w.ensureAbsolute.writeAll_spec _).2.1

theorem positioning_travel (w : Writer) (s : HopSettings) (t : Travel) :
    (w.travel s t).machine.positioning = .absolute := by
  rw [machine_travel_eq]
  refine (Machine.mode_run_eq_self (a := .x) fun c hc => ?_).trans w.positioning_ensureAbsolute
  obtain ⟨move, -, rfl⟩ := Travel.exists_move hc
  exact move.switches_build .x

theorem z_ensureAbsolute (w : Writer) : w.ensureAbsolute.machine.z = w.machine.z := by
  unfold ensureAbsolute
  split
  · exact Machine.along_step_eq_self (a := .z) (by decide) w.machine
  · rfl

/-- The writer behind the travel to a tower and the switch of the extruder to relative. -/
def atTower (w : Writer) (p : BodyPlan) (tool : Tool) (layer : Layer) : Writer :=
  let traveled := w.travel p.settings.hop (p.towerTravel tool layer w.ceiling)
  traveled.writeAll (if traveled.machine.extrusion = .relative then [] else [.synthesized "M83"])

theorem towerLayer_eq_atTower {index : Nat} {layer : Layer} (h : p.program.layer? index = some layer) :
    w.towerLayer p tool index = ((w.atTower p tool layer).writeAll (towerMark tool index ::
      p.settings.primeTower.layerMoves tool (p.towerHeight index layer.z))).countTower := by
  rw [towerLayer_eq h rfl, BodyPlan.towerCommands_eq, writeAll_append]
  rfl

theorem mem_switch {m : Machine} {c : Command}
    (h : c ∈ if m.extrusion = .relative then [] else [Command.synthesized "M83"]) :
    c = .synthesized "M83" := by
  obtain ⟨-, hc⟩ := List.mem_ite_nil_left.mp h
  exact List.mem_singleton.mp hc

theorem steady_atTower (w : Writer) (p : BodyPlan) (tool : Tool) (layer : Layer) :
    Steady w (w.atTower p tool layer) := by
  refine (w.steady_travel _ _).trans (steady_writeAll _ fun c hc => ?_)
  rw [mem_switch hc]
  exact Command.unmarked_code (by decide)

theorem tool_atTower (w : Writer) (p : BodyPlan) (tool : Tool) (layer : Layer) :
    (w.atTower p tool layer).machine.tool = w.machine.tool := by
  refine ((emits_quiet _ fun c hc => ?_).tool).trans (w.emits_travel _ _).tool
  rw [mem_switch hc]
  exact Command.quiet_synthesized (by decide)

theorem towerModes_atTower (w : Writer) (p : BodyPlan) (tool : Tool) (layer : Layer) :
    (w.atTower p tool layer).machine.TowerModes := by
  have habsolute := w.positioning_travel p.settings.hop (p.towerTravel tool layer w.ceiling)
  unfold atTower
  generalize w.travel p.settings.hop (p.towerTravel tool layer w.ceiling) = traveled
    at habsolute ⊢
  rw [(traveled.writeAll_spec _).2.1]
  by_cases hrelative : traveled.machine.extrusion = .relative
  · rw [if_pos hrelative]
    exact ⟨habsolute, hrelative⟩
  · rw [if_neg hrelative, Machine.run_cons, Machine.run_nil]
    constructor
    · exact (Machine.mode_step _ _ .x).trans habsolute
    · exact Machine.mode_step _ _ .e

theorem within_atTower (w : Writer) {p : BodyPlan} (tool : Tool) {layer : Layer}
    (hnumber : w.machine.z.isNaN = false) (hspeed : p.settings.hop.zFeedrate.isFinite = true)
    (hz : layer.z.isFinite = true) :
    Number.Within (1 / 1000) (w.atTower p tool layer).machine.z layer.z := by
  have hplan := (Travel.within_plan (s := p.settings.hop) w.positioning_ensureAbsolute
    (p.towerTravel tool layer w.ceiling)).2 (by rw [z_ensureAbsolute]; exact hnumber) hspeed hz
  rw [← machine_travel_eq] at hplan
  unfold atTower
  generalize w.travel p.settings.hop (p.towerTravel tool layer w.ceiling) = traveled at hplan ⊢
  have hkeeps : (traveled.machine.run (if traveled.machine.extrusion = .relative then []
      else [.synthesized "M83"])).z = traveled.machine.z :=
    Machine.along_run_eq_self (a := .z) fun c hc => by rw [mem_switch hc]; decide
  rw [(traveled.writeAll_spec _).2.1, hkeeps]
  exact hplan

end AtTower

/-- The body leads to the state of the writer, and the layers of each tool's tower in it are
those up to the one that the tower has reached. -/
structure Towers (p : BodyPlan) (start : Machine) (reach : Tool → Nat) (w : Writer) : Prop where
  machine : w.machine = start.run w.body.toList
  marks : ∀ tool, towerMarks tool w.body.toList =
    (List.range' 1 (reach tool)).map (towerMark tool)
  layers : p.PrintsLayers start w.body.toList

namespace Towers

theorem steady (h : Towers p start reach w) (hsteady : Steady w next) :
    Towers p start reach next := by
  obtain ⟨added, hbody, hmachine, hadded⟩ := hsteady.commands
  refine ⟨?_, ?_, ?_⟩
  · rw [hmachine, hbody, Machine.run_append, h.machine]
  · intro tool
    rw [hbody, towerMarks_append, towerMarks_of_unmarked hadded, List.append_nil, h.marks]
  · rw [hbody]
    exact h.layers.append_unmarked hadded

theorem layer (h : Towers p start reach w) {layer : Layer}
    (hpoised : p.Poised start w.body.toList tool layer)
    (hlayer : p.program.layer? (reach tool + 1) = some layer) :
    Towers p start (Function.update reach tool (reach tool + 1))
      (w.writeAll (towerMark tool (reach tool + 1) ::
        p.settings.primeTower.layerMoves tool (p.towerHeight (reach tool + 1) layer.z))) := by
  have hmoves := p.settings.primeTower.unmarked_layerMoves tool
    (p.towerHeight (reach tool + 1) layer.z)
  obtain ⟨hbody, hmachine, -⟩ := w.writeAll_spec (towerMark tool (reach tool + 1) ::
    p.settings.primeTower.layerMoves tool (p.towerHeight (reach tool + 1) layer.z))
  refine ⟨?_, ?_, ?_⟩
  · rw [hmachine, hbody, Machine.run_append, h.machine]
  · intro other
    rw [hbody, towerMarks_append, towerMarks_cons_towerMark hmoves, h.marks]
    split
    · rename_i hsame
      subst hsame
      rw [Function.update_self, List.range'_1_concat, List.map_append, Nat.add_comm 1]
      rfl
    · rename_i hother
      rw [Function.update_of_ne (fun heq => hother heq.symm), List.append_nil]
  · rw [hbody]
    exact h.layers.append_layer hpoised hlayer

theorem towerLayers_countTower (w : Writer) :
    w.countTower.counts.towerLayers = w.counts.towerLayers + 1 :=
  rfl

theorem countTower (h : Towers p start reach w) : Towers p start reach w.countTower :=
  ⟨h.machine, h.marks, h.layers⟩

theorem poised (h : Towers p start reach w) (htool : w.machine.tool = some tool) (layer : Layer) :
    p.Poised start (w.atTower p tool layer).body.toList tool layer := by
  obtain ⟨added, hbody, hmachine, -⟩ := (w.steady_atTower p tool layer).commands
  have hbehind : start.run (w.atTower p tool layer).body.toList =
      (w.atTower p tool layer).machine := by
    rw [hbody, Machine.run_append, ← h.machine, hmachine]
  constructor
  · rw [hbehind, tool_atTower, htool]
  · rw [hbehind]
    exact w.towerModes_atTower p tool layer
  · intro hspeed hz hfits
    rw [hbody] at hfits
    have hfinite := (hfits.of_prefix _ List.prefix_rfl).height
    rw [← h.machine] at hfinite
    rw [hbehind]
    exact w.within_atTower tool (Number.isNaN_of_isFinite hfinite) hspeed hz

theorem towerLayer (h : Towers p start reach w) (htool : w.machine.tool = some tool)
    (hlayer : (p.program.layer? (reach tool + 1)).isSome = true) :
    Towers p start (Function.update reach tool (reach tool + 1))
      (w.towerLayer p tool (reach tool + 1)) ∧
      (w.towerLayer p tool (reach tool + 1)).progress = w.progress ∧
      (w.towerLayer p tool (reach tool + 1)).counts.towerLayers = w.counts.towerLayers + 1 := by
  obtain ⟨layer, hlayer⟩ := Option.isSome_iff_exists.mp hlayer
  have hready := w.steady_atTower p tool layer
  have hpoised := h.poised htool layer
  rw [towerLayer_eq_atTower hlayer]
  generalize w.atTower p tool layer = ready at hready hpoised ⊢
  have hlayers := (h.steady hready).layer hpoised hlayer
  generalize towerMark tool (reach tool + 1) ::
    p.settings.primeTower.layerMoves tool (p.towerHeight (reach tool + 1) layer.z) = cs
    at hlayers ⊢
  refine ⟨hlayers.countTower, ?_, ?_⟩
  · exact (ready.progress_writeAll cs).trans hready.progress
  · rw [towerLayers_countTower, (ready.writeAll_spec cs).2.2, hready.towerLayers]

theorem layersFrom {n : Nat} (h : Towers p start reach w) (htool : w.machine.tool = some tool)
    (hlayers : ∀ j, reach tool < j → j ≤ reach tool + n → (p.program.layer? j).isSome = true) :
    let next := (List.range' (reach tool + 1) n).foldl (fun w j => w.towerLayer p tool j) w
    Towers p start (Function.update reach tool (reach tool + n)) next ∧
      next.progress = w.progress ∧ next.counts.towerLayers = w.counts.towerLayers + n := by
  induction n generalizing w reach with
  | zero =>
      have hsame : Function.update reach tool (reach tool + 0) = reach := by
        rw [Nat.add_zero, Function.update_eq_self]
      rw [hsame]
      exact ⟨h, rfl, rfl⟩
  | succ n ih =>
      have hsome := hlayers (reach tool + 1) (by omega) (by omega)
      obtain ⟨hnext, hprogress, hcount⟩ := h.towerLayer htool hsome
      have hactive := (w.emits_towerLayer p tool (reach tool + 1)).tool.trans htool
      have hself : Function.update reach tool (reach tool + 1) tool = reach tool + 1 :=
        Function.update_self _ _ _
      have hrest := ih hnext hactive (by
        intro j hlow hhigh
        rw [hself] at hlow hhigh
        exact hlayers j (by omega) (by omega))
      rw [hself, Function.update_idem, hprogress, hcount] at hrest
      rw [List.range'_succ, List.foldl_cons, show reach tool + (n + 1) = reach tool + 1 + n by omega,
        show w.counts.towerLayers + (n + 1) = w.counts.towerLayers + 1 + n by omega]
      exact hrest

end Towers

theorem printed_catchUp_eq (progress : TowerProgress) (tool : Tool) (index : Nat) :
    (progress.catchUp tool index).printed =
      Function.update progress.printed tool (progress.printed tool + progress.lacking tool index) := by
  funext other
  rw [TowerProgress.printed_catchUp, Function.update_apply, TowerProgress.lacking]
  by_cases hsame : tool = other
  · rw [if_pos hsame, if_pos hsame.symm]
    omega
  · rw [if_neg hsame, if_neg fun heq => hsame heq.symm]

/-- Layers that the tower of the active tool lacks. -/
def lacking (w : Writer) (index : Nat) : Nat :=
  (w.machine.tool.map fun tool => w.progress.lacking tool index).getD 0

/-- Catching up raises the tower of the active tool to a layer, if it is not as high yet. -/
theorem Towers.catchUp (h : Towers p start w.progress.printed w) (htowers : p.hasTowers = true)
    {index : Nat} (hlayers : ∀ j, 0 < j → j ≤ index → (p.program.layer? j).isSome = true) :
    Towers p start (w.catchUp p index).progress.printed (w.catchUp p index) ∧
      (∀ tool, (w.catchUp p index).progress.printed tool =
        if w.machine.tool = some tool then max (w.progress.printed tool) index
        else w.progress.printed tool) ∧
      (w.catchUp p index).counts.towerLayers = w.counts.towerLayers + w.lacking index := by
  cases htool : w.machine.tool with
  | none =>
      have hsame : w.catchUp p index = w := by
        rw [Writer.catchUp, if_pos htowers, htool]
      rw [hsame, lacking, htool]
      exact ⟨h, by simp, rfl⟩
  | some tool =>
      obtain ⟨marked, hmarked⟩ : ∃ marked : Writer,
        marked = { w with progress := w.progress.catchUp tool index } := ⟨_, rfl⟩
      have hstart : Towers p start w.progress.printed marked := by
        rw [hmarked]
        exact ⟨h.machine, h.marks, h.layers⟩
      have hactive : marked.machine.tool = some tool := by rw [hmarked, htool]
      have hcaught : w.catchUp p index = (w.progress.missing tool index).foldl
          (fun w j => w.towerLayer p tool j) marked := by
        rw [Writer.catchUp, if_pos htowers, htool, hmarked]
      obtain ⟨hraised, hprogress, hcount⟩ := hstart.layersFrom hactive
        (n := w.progress.lacking tool index) (by
          intro j hlow hhigh
          rw [TowerProgress.lacking] at hhigh
          exact hlayers j (by omega) (by omega))
      rw [← TowerProgress.missing, ← hcaught] at hraised hprogress hcount
      have hprinted : (w.catchUp p index).progress.printed = Function.update w.progress.printed tool
          (w.progress.printed tool + w.progress.lacking tool index) := by
        rw [hprogress, hmarked, printed_catchUp_eq]
      rw [lacking, htool, hprinted]
      refine ⟨hraised, ?_, ?_⟩
      · intro other
        rw [← printed_catchUp_eq, TowerProgress.printed_catchUp]
        by_cases hsame : tool = other
        · subst hsame
          rw [if_pos rfl, if_pos rfl]
        · rw [if_neg hsame, if_neg fun heq => hsame (Option.some.inj heq)]
      · rw [hcount, hmarked]
        rfl

end Writer

end ToolBatching
