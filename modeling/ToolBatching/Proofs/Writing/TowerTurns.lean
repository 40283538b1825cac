import Mathlib.Algebra.BigOperators.Group.Finset.Piecewise
import ToolBatching.Proofs.Writing.LegibleLines
import ToolBatching.Proofs.Writing.SourceLines
import ToolBatching.Proofs.Writing.Towers

/-!
Towers along the visits of a body. A turn is the tool of a visit and the layer that it
prints: the tower of a tool ends at the highest layer of its turns, and behind each visit
the tower of its tool has reached the layer of the visit.
-/

namespace ToolBatching

namespace Block

/-- The tool that is active behind each block, and the layer that its visit prints. -/
def turns (total : Nat) : Machine → List Block → List (Option Tool × Nat)
  | _, [] => []
  | m, b :: rest =>
      ((m.run (b.commands total)).tool, b.visit.layer.index)
        :: turns total (m.run (b.commands total)) rest

theorem turns_concat (total : Nat) (m : Machine) (blocks : List Block) (b : Block) :
    turns total m (blocks ++ [b]) = turns total m blocks ++
      [((m.run ((blocks ++ [b]).flatMap (commands total))).tool, b.visit.layer.index)] := by
  induction blocks generalizing m with
  | nil => simp [turns]
  | cons first blocks ih =>
      rw [List.cons_append, turns, turns, ih, List.cons_append, List.flatMap_cons,
        Machine.run_append]

end Block

/-- The highest layer among the turns of a tool, zero without any. -/
def reached (tool : Tool) : List (Option Tool × Nat) → Nat
  | [] => 0
  | (active, index) :: rest =>
      if active = some tool then max index (reached tool rest) else reached tool rest

theorem reached_concat (tool : Tool) (turns : List (Option Tool × Nat)) (active : Option Tool)
    (index : Nat) :
    reached tool (turns ++ [(active, index)]) =
      if active = some tool then max (reached tool turns) index else reached tool turns := by
  induction turns with
  | nil =>
      simp only [List.nil_append, reached]
      split
      · rw [max_comm]
      · rfl
  | cons turn turns ih =>
      obtain ⟨first, height⟩ := turn
      simp only [List.cons_append, reached, ih]
      split <;> split <;> simp [max_assoc]

theorem reached_eq_zero {tool : Tool} {turns : List (Option Tool × Nat)}
    (h : tool ∉ turns.filterMap Prod.fst) : reached tool turns = 0 := by
  induction turns with
  | nil => rfl
  | cons turn turns ih =>
      obtain ⟨active, index⟩ := turn
      have hactive : active ≠ some tool := by
        rintro rfl
        exact h (by simp)
      rw [reached, if_neg hactive]
      apply ih
      intro hmem
      obtain ⟨turn, hturn, htool⟩ := List.mem_filterMap.mp hmem
      exact h (List.mem_filterMap.mpr ⟨turn, List.mem_cons_of_mem _ hturn, htool⟩)

def reachedTotal (turns : List (Option Tool × Nat)) : Nat :=
  ∑ tool ∈ (turns.filterMap Prod.fst).toFinset, reached tool turns

theorem reachedTotal_concat (turns : List (Option Tool × Nat)) (active : Option Tool)
    (index : Nat) :
    reachedTotal (turns ++ [(active, index)]) =
      reachedTotal turns + (active.map fun tool => index - reached tool turns).getD 0 := by
  cases active with
  | none => simp [reachedTotal, reached_concat]
  | some tool =>
      have htools : ((turns ++ [(some tool, index)]).filterMap Prod.fst).toFinset =
          insert tool (turns.filterMap Prod.fst).toFinset := by
        ext other
        simp
      have hupdate : (fun other => reached other (turns ++ [(some tool, index)])) =
          Function.update (fun other => reached other turns) tool
            (max (reached tool turns) index) := by
        funext other
        rw [reached_concat, Function.update_apply]
        by_cases hsame : tool = other
        · rw [if_pos (congrArg some hsame), if_pos hsame.symm, hsame]
        · rw [if_neg fun heq => hsame (Option.some.inj heq), if_neg fun heq => hsame heq.symm]
      have hbefore : reachedTotal turns =
          ∑ other ∈ insert tool (turns.filterMap Prod.fst).toFinset, reached other turns := by
        rw [reachedTotal]
        refine (Finset.sum_insert_of_eq_zero_if_notMem ?_).symm
        intro hmem
        exact reached_eq_zero fun hin => hmem (List.mem_toFinset.mpr hin)
      rw [hbefore, reachedTotal, htools, hupdate,
        Finset.sum_update_of_mem (Finset.mem_insert_self tool _),
        Finset.sum_eq_add_sum_sdiff_singleton_of_mem (Finset.mem_insert_self tool _),
        Option.map_some, Option.getD_some]
      omega

namespace Writer

variable {p : BodyPlan} {start : Machine} {w next : Writer}

theorem exists_changed (w : Writer) (p : BodyPlan) (due : Option (Option Tool × Tool))
    (v : Visit) :
    ∃ changed, Steady w changed ∧ (∃ selects changes, Emits w [] selects changes changed) ∧
      w.visit p due v =
        { v.runs.foldl (fun w run => w.run p v.layer run)
            (changed.catchUp p v.layer.index) with lastLayer := some v.layer.index } := by
  cases due with
  | none =>
      exact ⟨w.mark p v.layer, w.steady_mark p v.layer, ⟨_, _, w.emits_mark p v.layer⟩, rfl⟩
  | some change =>
      refine ⟨(w.mark p v.layer).change p.settings.toolChange change.1 change.2,
        (w.steady_mark p v.layer).trans (steady_change _ _ _ _), ?_, rfl⟩
      exact ⟨_, _, (emits_change _ _ change.1 change.2).after (w.emits_mark p v.layer)⟩

/-- A step that prints a visit: it raises the tower of the tool that is active behind it to
the layer of the visit, in front of the first source line. -/
structure Raises (p : BodyPlan) (start : Machine) (v : Visit) (w next : Writer) : Prop where
  towers : Towers p start next.progress.printed next
  printed : ∀ tool, next.progress.printed tool =
    if next.machine.tool = some tool then max (w.progress.printed tool) v.layer.index
    else w.progress.printed tool
  layers : next.counts.towerLayers = w.counts.towerLayers +
    (next.machine.tool.map fun tool => v.layer.index - w.progress.printed tool).getD 0
  lines : ∀ front c, front ++ [c] <+: next.body.toList → c.line.isSome = true →
    front ++ [c] <+: w.body.toList ∨ (∃ s ∈ v.segments, c ∈ s.kept) ∧
      (start.run front).tool = next.machine.tool ∧
      ∀ tool, towerMarks tool front =
        (List.range' 1 (next.progress.printed tool)).map (towerMark tool)

theorem Towers.lines {reach : Tool → Nat} (h : Towers p start reach w) (hsteady : Steady w next)
    {own : List Command} {changes : Nat} (hemits : Emits w own [] changes next)
    {front : List Command} {c : Command} (hfront : front ++ [c] <+: next.body.toList)
    (hline : c.line.isSome = true) :
    front ++ [c] <+: w.body.toList ∨ c ∈ own ∧ (start.run front).tool = w.machine.tool ∧
      ∀ tool, towerMarks tool front = (List.range' 1 (reach tool)).map (towerMark tool) := by
  obtain ⟨added, hbody, -, hunmarked⟩ := hsteady.commands
  obtain ⟨added', hbody', -, hown, hselects⟩ := hemits.commands
  obtain rfl : added = added' := List.append_cancel_left (hbody.symm.trans hbody')
  rw [hbody] at hfront
  rcases prefix_append_cases hfront with hbefore | ⟨more, rfl, hmore⟩
  · exact Or.inl hbefore
  · have hsubset : ∀ d ∈ more, d ∈ added := fun d hd => hmore.subset (List.mem_append_left _ hd)
    refine Or.inr ⟨?_, ?_, ?_⟩
    · rw [← hown]
      exact List.mem_filter.mpr ⟨hmore.subset (by simp), hline⟩
    · have hquiet : more.filterMap Command.tool = [] := by
        rw [List.filterMap_eq_nil_iff] at hselects ⊢
        exact fun d hd => hselects d (hsubset d hd)
      rw [Machine.run_append, ← h.machine, Machine.tool_run, hquiet]
      rfl
    · intro tool
      rw [towerMarks_append, towerMarks_of_unmarked fun d hd => hunmarked d (hsubset d hd),
        List.append_nil, h.marks]

theorem Towers.visit (h : Towers p start w.progress.printed w) (htowers : p.hasTowers = true)
    {v : Visit} (hscanned : ∀ s ∈ v.segments, s.Scanned)
    (hlayers : ∀ j, 0 < j → j ≤ v.layer.index → (p.program.layer? j).isSome = true)
    (due : Option (Option Tool × Tool)) : Raises p start v w (w.visit p due v) := by
  obtain ⟨changed, hchanged, ⟨selects, changes, hselects⟩, hvisit⟩ := w.exists_changed p due v
  have hstart : Towers p start changed.progress.printed changed := by
    rw [hchanged.progress]
    exact h.steady hchanged
  obtain ⟨hcaught, hprogress, hlayerCount⟩ := hstart.catchUp htowers hlayers
  have hquiet := changed.emits_catchUp p v.layer.index
  have htool : (changed.catchUp p v.layer.index).machine.tool = changed.machine.tool := hquiet.tool
  have hfront := hselects.quiet hquiet
  generalize changed.catchUp p v.layer.index = caught at hvisit hcaught hprogress hlayerCount htool hfront
  have hruns : ∀ run ∈ v.runs, ∀ s ∈ run, s.Scanned := fun run hrun s hs =>
    hscanned s (v.mem_segments_of_mem_run hrun hs)
  have hsteady := caught.steady_runs p v.layer hruns
  have hflat : ∀ s ∈ v.runs.flatten, s.Scanned := by
    rw [v.flatten_runs]
    exact hscanned
  have hemits := caught.emits_runs p v.layer hflat
  rw [v.flatten_runs] at hemits
  have hbehind : (v.runs.foldl (fun w run => w.run p v.layer run) caught).machine.tool =
      caught.machine.tool := hemits.tool
  generalize v.runs.foldl (fun w run => w.run p v.layer run) caught = done
    at hvisit hsteady hemits hbehind
  have hprinted : ∀ tool, done.progress.printed tool =
      if done.machine.tool = some tool then max (w.progress.printed tool) v.layer.index
      else w.progress.printed tool := by
    intro tool
    rw [hsteady.progress, hbehind, htool, hprogress, hchanged.progress]
  have hcount : done.counts.towerLayers = w.counts.towerLayers +
      (done.machine.tool.map fun tool => v.layer.index - w.progress.printed tool).getD 0 := by
    rw [hsteady.towerLayers, hlayerCount, hchanged.towerLayers, lacking, hbehind, htool,
      hchanged.progress]
    rfl
  rw [hvisit]
  refine ⟨?_, hprinted, hcount, ?_⟩
  · have hdone := hcaught.steady hsteady
    rw [← hsteady.progress] at hdone
    exact ⟨hdone.machine, hdone.marks, hdone.layers⟩
  · intro front c hprefixed hline
    rcases hcaught.lines hsteady hemits hprefixed hline with hbefore | ⟨hown, hactive, hmarks⟩
    · -- Up to the catching up of the tower the visit writes no source line.
      left
      obtain ⟨added, hbody, -, hlines, -⟩ := hfront.commands
      rw [hbody] at hbefore
      rcases prefix_append_cases hbefore with hsource | ⟨more, -, hmore⟩
      · exact hsource
      · have hmem : c ∈ added.filter fun d => d.line.isSome :=
          List.mem_filter.mpr ⟨hmore.subset (by simp), hline⟩
        rw [hlines] at hmem
        exact absurd hmem List.not_mem_nil
    · right
      refine ⟨List.mem_flatMap.mp hown, hactive.trans hbehind.symm, ?_⟩
      rw [hsteady.progress]
      exact hmarks

end Writer

/-- Wherever a source line stands in a block, the tool of the block is active, the towers are
as high as the turns up to this block make them, and the tower of the tool is as high as the
layer of the visit. -/
def Block.FindsTowers (total : Nat) (start : Machine) (blocks : List Block) : Prop :=
  ∀ done b left, blocks = done ++ b :: left →
    ∀ front c, front ++ [c] <+: b.commands total → c.line.isSome = true →
      (∃ s ∈ b.visit.segments, c ∈ s.kept) ∧
      (start.run (done.flatMap (commands total) ++ front)).tool =
        (start.run ((done ++ [b]).flatMap (commands total))).tool ∧
      ∀ tool, towerMarks tool (done.flatMap (commands total) ++ front) =
          (List.range' 1 (reached tool (turns total start (done ++ [b])))).map (towerMark tool) ∧
        ((start.run (done.flatMap (commands total) ++ front)).tool = some tool →
          b.visit.layer.index ≤ reached tool (turns total start (done ++ [b])))

namespace Writer

variable {p : BodyPlan} {start : Machine} {w next : Writer}

/-- What is known of the towers behind some blocks. -/
structure Towered (p : BodyPlan) (start : Machine) (blocks : List Block) (w : Writer) : Prop where
  towers : Towers p start w.progress.printed w
  heights : ∀ tool, w.progress.printed tool = reached tool (Block.turns p.total start blocks)
  layers : w.counts.towerLayers = reachedTotal (Block.turns p.total start blocks)
  finds : Block.FindsTowers p.total start blocks

theorem towered_nil (p : BodyPlan) (start : Machine) : Towered p start [] { machine := start } := by
  refine ⟨⟨rfl, fun _ => rfl, ?_⟩, fun _ => rfl, rfl, ?_⟩
  · intro front tool index back heq
    exact absurd heq (by simp)
  · intro done b left heq
    exact absurd heq (by simp)

theorem Towered.visit {blocks : List Block} (h : Towered p start blocks w) {b : Block}
    (hraises : Raises p start b.visit w next)
    (hbody : w.body.toList = blocks.flatMap (Block.commands p.total))
    (hnext : next.body.toList = w.body.toList ++ b.commands p.total) :
    Towered p start (blocks ++ [b]) next := by
  have hblocks : next.body.toList = (blocks ++ [b]).flatMap (Block.commands p.total) := by
    rw [hnext, hbody, List.flatMap_append, List.flatMap_singleton]
  have hturns : Block.turns p.total start (blocks ++ [b]) =
      Block.turns p.total start blocks ++ [(next.machine.tool, b.visit.layer.index)] := by
    rw [Block.turns_concat, hraises.towers.machine, hblocks]
  have hheights : ∀ tool, next.progress.printed tool =
      reached tool (Block.turns p.total start (blocks ++ [b])) := by
    intro tool
    rw [hraises.printed, h.heights, hturns, reached_concat]
  refine ⟨hraises.towers, hheights, ?_, ?_⟩
  · rw [hraises.layers, h.layers, hturns, reachedTotal_concat]
    simp only [h.heights]
  · intro done other left heq front c hfront hline
    rcases List.eq_nil_or_concat left with rfl | ⟨left, last, rfl⟩
    · obtain ⟨rfl, hsame⟩ := List.append_inj' heq rfl
      obtain rfl := (List.cons.inj hsame).1
      rw [← hbody, ← hblocks, ← hraises.towers.machine]
      have hwhole : (w.body.toList ++ front) ++ [c] <+: next.body.toList := by
        rw [hnext, List.append_assoc]
        exact (List.prefix_append_right_inj _).mpr hfront
      rcases hraises.lines _ c hwhole hline with hbefore | ⟨hsource, htool, hmarks⟩
      · have hlength := hbefore.length_le
        simp only [List.length_append, List.length_singleton] at hlength
        omega
      · refine ⟨hsource, htool, ?_⟩
        intro tool
        rw [← hheights, htool]
        refine ⟨hmarks tool, ?_⟩
        intro hactive
        rw [hraises.printed, if_pos hactive]
        exact le_max_right _ _
    · rw [List.concat_eq_append, ← List.cons_append, ← List.append_assoc] at heq
      obtain ⟨rfl, -⟩ := List.append_inj' heq rfl
      exact h.finds done other left rfl front c hfront hline

theorem steady_finish (w : Writer) (p : BodyPlan) : Steady w (w.finish p) := by
  have hlift : ∀ c ∈ w.lift p, c.Unmarked := by
    intro c hc
    obtain ⟨-, hc⟩ := List.mem_ite_nil_right.mp hc
    rw [List.mem_singleton.mp hc]
    exact Move.unmarked_build _
  rw [finish_eq]
  exact (w.steady_writeAll hlift).trans (steady_restore _ _)

end Writer

theorem Machine.step_commentLine (m : Machine) (text : String) :
    m.step (.commentLine text) = m := by
  have hcode : Command.codeOf ("; " ++ text) = [] := Command.code_commentText none text
  have hmnemonic : (Command.commentLine text).mnemonic = "" := by
    unfold Command.commentLine Command.synthesized Command.ofText
    rw [hcode]
    rfl
  have htool := (Command.quiet_commentLine text).tool
  generalize Command.commentLine text = c at hmnemonic htool ⊢
  unfold step
  simp [htool, hmnemonic, Command.isMotion]

/-- Whether behind each comment of a tower layer the layer is printed: the tool of the tower is
active, the nozzle stands at the height of the layer, and the squares of the layer follow. -/
def BodyPlan.BuildsTowers (p : BodyPlan) (start : Machine) (cs : List Command) : Prop :=
  ∀ front tool index back, cs = front ++ towerMark tool index :: back →
    let m := start.run (front ++ [towerMark tool index])
    let t := p.settings.primeTower
    m.tool = some tool ∧ ∃ layer, p.program.layer? index = some layer ∧
      Number.Within (1 / 1000) m.z layer.z ∧ ∃ squares : List (List Command),
        squares.flatten <+: back ∧
        t.PrintsLayer m tool (t.extrusionPerMm (p.towerHeight index layer.z)) squares

theorem BodyPlan.PrintsLayers.builds {p : BodyPlan} {start : Machine} {cs : List Command}
    (h : p.PrintsLayers start cs) (hvalid : p.settings.validate = .ok ()) (hp : p.Writable)
    (htowers : p.hasTowers = true) (hfits : start.Fits p.settings.hop cs)
    (htools : ∀ front, front <+: cs → ∀ t : Nat, (start.run front).tool = some t → t < 10) :
    p.BuildsTowers start cs := by
  intro front tool index back heq
  obtain ⟨layer, hlayer, hpoised, hmoves⟩ := h front tool index back heq
  obtain ⟨hmoderate, hper⟩ := hp.towers htowers
  have hmem := Program.mem_layers_of_layer? hlayer
  have hfront : front <+: cs := heq ▸ List.prefix_append _ _
  have henabled : p.settings.primeTower.enabled = true := (Bool.and_eq_true_iff.mp htowers).1
  obtain ⟨squares, hsquares, hprinted⟩ := PrimeTower.exists_squares_layerMoves hpoised.modes
    (Settings.validate_primeTower hvalid henabled) hmoderate (htools front hfront tool hpoised.tool)
    (hper index (Program.le_of_layer? hlayer) layer hlayer)
  have hbehind : start.run (front ++ [towerMark tool index]) = start.run front := by
    rw [Machine.run_append, Machine.run_cons, Machine.run_nil, towerMark,
      Machine.step_commentLine]
  dsimp only
  rw [hbehind]
  refine ⟨hpoised.tool, layer, hlayer, ?_, squares, hsquares ▸ hmoves, hprinted⟩
  rw [heq] at hfits
  exact hpoised.height hp.zSpeed (hp.layers layer hmem).height hfits.of_prefix

namespace Program

variable {lines : List Command} {p : Program}

theorem Read.isSome_layer? (h : Read lines p) {layer : Layer} (hlayer : layer ∈ p.layers) {j : Nat}
    (hpos : 0 < j) (hle : j ≤ layer.index) : (p.layer? j).isSome = true := by
  obtain ⟨i, hi⟩ := List.getElem?_of_mem hlayer
  obtain ⟨m, hsound⟩ := h.layers.getElem? hi
  have hbound := (List.getElem?_eq_some_iff.mp hi).1
  rw [hsound.index] at hle
  have hlow : j - 1 < p.layers.length := by omega
  rw [layer?, if_neg (by omega), List.getElem?_eq_getElem hlow]
  rfl

/-- In every body with towers, whatever the plan, the layers of a tool's tower stand in order
from the first one up to the highest layer that is visited while the tool is active, each
with the moves of its layer, and a visit finds the tower of its tool as high as its layer. If the
settings are accepted and the numbers fit, these moves print the squares of the layer at its
height. -/
theorem towers_complete (text : String) {plan : Plan} {settings : Settings}
    (henabled : settings.primeTower.enabled = true) (htools : 1 < (ofText text).tools.length)
    (hmembers : ∀ id ∈ plan.members, id ∈ (ofText text).segmentIds) :
    let p := ofText text
    let total := plan.visitCount
    ∃ jobs body blocks closing, p.resolve plan = .ok jobs ∧ p.synthesize plan settings = .ok body ∧
      body.commands = blocks.flatMap (Block.commands total) ++ closing ∧
      (∀ c ∈ closing, c.line = none) ∧
      blocks.map Block.visit = jobs.flatMap Job.visits ∧
      blocks.map Block.number = List.range' 1 (jobs.flatMap Job.visits).length ∧
      let turns := Block.turns total p.preambleState blocks
      (∀ tool, towerMarks tool body.commands =
        (List.range' 1 (reached tool turns)).map (towerMark tool)) ∧
      BodyPlan.PrintsLayers { program := p, settings, total } p.preambleState body.commands ∧
      Block.FindsTowers total p.preambleState blocks ∧
      body.counts.towerLayers = reachedTotal turns ∧
      (settings.validate = .ok () → BodyPlan.Writable { program := p, settings, total } →
        p.preambleState.Fits settings.hop body.commands →
        BodyPlan.BuildsTowers { program := p, settings, total } p.preambleState body.commands) := by
  intro p total
  have hread := read_ofText text
  obtain ⟨jobs, hjobs, -⟩ := resolve_eq_ok fun id hid => hread.isSome_segment? (hmembers id hid)
  obtain ⟨context, hcontext⟩ : ∃ context : BodyPlan,
      context = { program := p, settings, total := plan.visitCount } := ⟨_, rfl⟩
  have htowers : context.hasTowers = true := by
    rw [hcontext, BodyPlan.hasTowers, henabled, Bool.true_and]
    exact decide_eq_true htools
  have hprogram : context.program = p := by rw [hcontext]
  have htotal : context.total = total := by rw [hcontext]
  obtain ⟨blocks, w, body, hlaid, hw, hbody, hcommands, hcounts⟩ := blocks_induction hjobs hcontext
    (Writer.towered_nil context p.preambleState) (by
      intro blocks w due b j hj _ hb hw hbody hnext
      obtain ⟨hlayer, hsegments⟩ := mem_of_resolve hjobs hj hb
      have hlayers : ∀ i, 0 < i → i ≤ b.visit.layer.index →
          (context.program.layer? i).isSome = true := by
        intro i hpos hle
        rw [hprogram]
        exact hread.isSome_layer? hlayer hpos hle
      have hscanned : ∀ s ∈ b.visit.segments, s.Scanned := fun s hs =>
        scanned_of_mem_segments text (hsegments s hs)
      exact hw.visit (hw.towers.visit htowers hscanned hlayers due) hbody hnext)
  have hfinished := hw.towers.steady (w.steady_finish context)
  have hblocks := hlaid.body
  obtain ⟨-, hheights, hlayers, hfinds⟩ := hw
  rw [htotal] at hblocks hheights hlayers hfinds
  refine ⟨jobs, body, blocks, w.closing context, hjobs, hbody, ?_, ?_, hlaid.printed,
    hlaid.numbers, ?_, ?_, hfinds, ?_, ?_⟩
  · rw [hcommands, w.toList_body_finish, hblocks]
  · intro c hc
    exact Writer.line_of_mem_closing hc
  · intro tool
    rw [hcommands, hfinished.marks, hheights]
  · rw [hcommands, ← hcontext]
    exact hfinished.layers
  · rw [hcounts, (w.steady_finish context).towerLayers, hlayers]
  · intro hvalid hwritable hfits
    rw [← hcontext] at hwritable ⊢
    have hlaidLayers := hfinished.layers
    rw [← hcommands] at hlaidLayers
    refine hlaidLayers.builds ?_ hwritable htowers ?_ fun front hfront t =>
      tool_run_lt text hbody hfront
    · rw [hcontext]
      exact hvalid
    · rw [hcontext]
      exact hfits

/-- A plan that prints two layers with the second tool and goes back to the lower one, with towers
of two loops. -/
theorem towers_complete_upper_first :
    let text := "T0\n; layer num/total_layer_count: 1/2\nG1 X1 Z0.2 E1\nT1\nG1 X2 E2\n" ++
      "; layer num/total_layer_count: 2/2\nG1 X3 Z0.4 E3\nT0\nG1 X4 E4\n"
    let p := ofText text
    let plan : Plan :=
      { batches := [⟨some 1, 1, 2, [⟨2, 0⟩, ⟨1, 1⟩]⟩, ⟨some 0, 1, 2, [⟨1, 0⟩, ⟨2, 1⟩]⟩] }
    let settings : Settings := { toolChange := { flavor := .generic } }
    let total := plan.visitCount
    let context : BodyPlan := { program := p, settings, total }
    (settings.primeTower.enabled = true ∧ 1 < p.tools.length ∧
      (∀ id ∈ plan.members, id ∈ p.segmentIds) ∧ settings.validate = .ok () ∧ context.Writable ∧
      settings.primeTower.loops = 2) ∧
    ∃ jobs body blocks closing, p.resolve plan = .ok jobs ∧ p.synthesize plan settings = .ok body ∧
      body.commands = blocks.flatMap (Block.commands total) ++ closing ∧
      (∀ c ∈ closing, c.line = none) ∧
      blocks.map Block.visit = jobs.flatMap Job.visits ∧
      blocks.map Block.number = List.range' 1 (jobs.flatMap Job.visits).length ∧
      let turns := Block.turns total p.preambleState blocks
      (∀ tool, towerMarks tool body.commands =
        (List.range' 1 (reached tool turns)).map (towerMark tool)) ∧
      context.PrintsLayers p.preambleState body.commands ∧
      Block.FindsTowers total p.preambleState blocks ∧
      body.counts.towerLayers = reachedTotal turns ∧
      p.preambleState.Fits settings.hop body.commands ∧ body.counts.towerLayers = 4 ∧
      context.BuildsTowers p.preambleState body.commands := by
  intro text p plan settings total context
  have hplan : settings.primeTower.enabled = true ∧ 1 < p.tools.length ∧
      ∀ id ∈ plan.members, id ∈ p.segmentIds := by
    decide +kernel
  have hvalid : settings.validate = .ok () := by decide +kernel
  have hloops : settings.primeTower.loops = 2 := by decide +kernel
  have hwritable : context.Writable := by
    obtain ⟨hz, ht, hwords, hlayers, hentries, hexit, htowers⟩ :
        settings.hop.zFeedrate.isFinite = true ∧ settings.hop.travelFeedrate.isFinite = true ∧
        (∀ c ∈ p.bodyCommands, ∀ a ∈ [Axis.x, .y], ∀ v ∈ c.along a, v.isFinite = true) ∧
        (∀ l ∈ p.layers, settings.hop.Fits l.z) ∧
        (∀ s ∈ p.segments, settings.hop.Fits s.entry.z ∧ s.entry.Finite) ∧ p.exit.Finite ∧
        settings.primeTower.Moderate ∧ ∀ index ≤ p.layers.length, ∀ l ∈ p.layer? index,
          Number.AtMost 400 (settings.primeTower.extrusionPerMm (context.towerHeight index l.z)) := by
      decide +kernel
    exact ⟨hz, ht, hwords, hlayers, hentries, hexit, fun _ => htowers⟩
  have hfits : ∀ body ∈ (p.synthesize plan settings).toOption,
      p.preambleState.Fits settings.hop body.commands ∧ body.counts.towerLayers = 4 := by
    decide +kernel
  obtain ⟨henabled, htools, hmembers⟩ := hplan
  obtain ⟨jobs, body, blocks, closing, hjobs, hbody, hcommands, hclosing, hvisits, hnumbers, hmarks,
    hprints, hfinds, hcount, hbuilds⟩ := towers_complete text henabled htools hmembers
  obtain ⟨hfits, hfour⟩ := hfits body (by rw [hbody]; rfl)
  exact ⟨⟨henabled, htools, hmembers, hvalid, hwritable, hloops⟩, jobs, body, blocks, closing, hjobs,
    hbody, hcommands, hclosing, hvisits, hnumbers, hmarks, hprints, hfinds, hcount, hfits, hfour,
    hbuilds hvalid hwritable hfits⟩

end Program

end ToolBatching
