import ToolBatching.Proofs.Reading.LayerTools
import ToolBatching.Proofs.Reading.Tags
import ToolBatching.Proofs.Writing.BlockHeights
import ToolBatching.Proofs.Writing.Runs

namespace ToolBatching

namespace Command

/-- A command that extrudes nothing in any state. -/
def Dry (c : Command) : Prop :=
  c.isMotion = true → c.e = none

/-- Commands that print with a tool which is active behind them. In front of their selects they
print nothing. -/
def WorksWith (active tool : Option Tool) (cs : List Command) : Prop :=
  ∃ idle rest, cs = idle ++ rest ∧ (∀ c ∈ idle, c.Dry) ∧
    (idle.filterMap Command.tool).getLast?.or active = tool ∧ rest.filterMap Command.tool = []

variable {c : Command} {cs ds : List Command} {active tool : Option Tool}

theorem Dry.prints (h : c.Dry) (m : Machine) : m.prints c = false := by
  apply Machine.prints_eq_false_of_extruded_eq_zero
  unfold Machine.extruded
  split
  · rename_i hmoves
    rw [Bool.and_eq_true] at hmoves
    rw [h hmoves.2]
  · rfl

theorem dry_of_mnemonic (h : c.mnemonic ≠ "G0" ∧ c.mnemonic ≠ "G1" ∧ c.mnemonic ≠ "G2" ∧
    c.mnemonic ≠ "G3") : c.Dry := by
  intro hmotion
  simp [isMotion, h] at hmotion

theorem Dry.tagged (h : c.Dry) (tag : Bool) : { c with inToolChange := tag }.Dry :=
  h

theorem dry_commentLine (text : String) : (commentLine text).Dry := by
  have hcode : codeOf ("; " ++ text) = [] := code_commentText none text
  have hmnemonic : (commentLine text).mnemonic = "" := mnemonic_ofText_of_codeOf_nil none hcode
  apply dry_of_mnemonic
  rw [hmnemonic]
  decide

theorem worksWith_of_quiet (h : cs.filterMap Command.tool = []) : WorksWith active active cs :=
  ⟨[], cs, rfl, by simp, rfl, h⟩

theorem WorksWith.append_quiet (h : WorksWith active tool cs) (hds : ds.filterMap Command.tool = []) :
    WorksWith active tool (cs ++ ds) := by
  obtain ⟨idle, rest, rfl, hdry, htool, hrest⟩ := h
  refine ⟨idle, rest ++ ds, List.append_assoc .., hdry, htool, ?_⟩
  rw [List.filterMap_append, hrest, hds, List.append_nil]

theorem WorksWith.dry_append (h : WorksWith active tool ds) (hdry : ∀ c ∈ cs, c.Dry)
    (hcs : cs.filterMap Command.tool = []) : WorksWith active tool (cs ++ ds) := by
  obtain ⟨idle, rest, rfl, hidle, htool, hrest⟩ := h
  refine ⟨cs ++ idle, rest, (List.append_assoc ..).symm, ?_, ?_, hrest⟩
  · rw [List.forall_mem_append]
    exact ⟨hdry, hidle⟩
  · rw [List.filterMap_append, hcs, List.nil_append]
    exact htool

theorem WorksWith.of_alike (h : WorksWith active tool cs) (halike : List.Forall₂ Alike cs ds) :
    WorksWith active tool ds := by
  obtain ⟨idle, rest, rfl, hdry, htool, hrest⟩ := h
  have htools {as bs : List Command} (hsame : List.Forall₂ Alike as bs) :
      bs.filterMap Command.tool = as.filterMap Command.tool := by
    induction hsame with
    | nil => rfl
    | cons hab _ ih => rw [List.filterMap_cons, List.filterMap_cons, hab.tool, ih]
  have hfront := List.forall₂_take idle.length halike
  have hback := List.forall₂_drop idle.length halike
  rw [List.take_left] at hfront
  rw [List.drop_left] at hback
  refine ⟨_, _, (List.take_append_drop idle.length ds).symm, ?_, ?_, ?_⟩
  · intro d hd
    obtain ⟨c, hc, hcd⟩ := exists_of_mem_forall₂ hfront hd
    intro hmotion
    rw [hcd] at hmotion ⊢
    exact hdry c hc hmotion
  · rw [htools hfront]
    exact htool
  · rw [htools hback]
    exact hrest

theorem WorksWith.prints (h : WorksWith active tool cs) {m : Machine} (hm : m.tool = active) :
    m.PrintsWith tool cs ∧ (m.run cs).tool = tool := by
  obtain ⟨idle, rest, rfl, hdry, htool, hrest⟩ := h
  have hbehind : (m.run idle).tool = tool := by rw [Machine.tool_run, hm, htool]
  have hselected (n : Machine) (hn : n.tool = tool) (ds : List Command)
      (hds : ds.filterMap Command.tool = []) : n.PrintsWith tool ds := by
    induction ds generalizing n with
    | nil => trivial
    | cons d ds ih =>
        obtain ⟨hd, hds⟩ := List.forall_mem_cons.mp (List.filterMap_eq_nil_iff.mp hds)
        refine ⟨fun _ => hn, ih _ ?_ (List.filterMap_eq_nil_iff.mpr hds)⟩
        rw [Machine.tool_step, hd, Option.none_or, hn]
  refine ⟨Machine.printsWith_append_iff.mpr ⟨?_, hselected _ hbehind rest hrest⟩, ?_⟩
  · refine Machine.printsWith_of_printCount_eq_zero ?_ tool
    exact Machine.printCount_eq_zero fun c hc n => (hdry c hc).prints n
  · rw [Machine.run_append, Machine.tool_run, hrest, hbehind]
    rfl

end Command

namespace TemplatePiece

open Command

variable {line : List TemplatePiece}

/-- Whether a template line selects no tool and extrudes nothing. -/
def isIdle (line : List TemplatePiece) : Bool :=
  isQuiet line && (lacks 'E' line ||
    excludes "G0" line && excludes "G1" line && excludes "G2" line && excludes "G3" line)

theorem dry_command (h : (lacks 'E' line || excludes "G0" line && excludes "G1" line &&
    excludes "G2" line && excludes "G3" line) = true) (v : ChangeValues) (tag : Bool) :
    { command v line with inToolChange := tag }.Dry := by
  refine Dry.tagged (c := command v line) ?_ tag
  rw [Bool.or_eq_true] at h
  rcases h with hlacks | hother
  · intro _
    have halong := Command.along_ofText none (String.join (line.map (render v))) .e
    rw [Axis.letter, Command.addressed_eq_none _ (notMem_join (by decide) hlacks v)] at halong
    exact halong
  · simp only [Bool.and_eq_true] at hother
    exact dry_of_mnemonic ⟨mnemonic_command_ne hother.1.1.1 v, mnemonic_command_ne hother.1.1.2 v,
      mnemonic_command_ne hother.1.2 v, mnemonic_command_ne hother.2 v⟩

theorem tool_command (h : isQuiet line = true) (v : ChangeValues) (tag : Bool) :
    { command v line with inToolChange := tag }.tool = none := by
  dsimp only
  rw [command, synthesized]
  exact tool_ofText_eq_none none (beginsQuiet_join h v)

theorem tool_command_select {v : ChangeValues} {t : Nat} (hv : v.tool = t) (ht : t < 10)
    (tag : Bool) : { command v select with inToolChange := tag }.tool = some v.tool := by
  have hplain : isPlain select = true := by decide
  have hselected := tool_parse_select hv ht
  rw [parse_of_isLine 0 (plain_join hplain v).isLine] at hselected
  rw [← hselected, command, synthesized]
  simp only [ofText]

theorem filterMap_tool_commands {lines : List (List TemplatePiece)}
    (h : ∀ line ∈ lines, isPlain line = true ∧ isQuiet line = true) (v : ChangeValues)
    (ctx : Context) (n : Nat) : (commands v ctx n lines).filterMap Command.tool = [] := by
  induction lines generalizing ctx n with
  | nil => rfl
  | cons line lines ih =>
      obtain ⟨⟨hplain, hquiet⟩, hlines⟩ := List.forall_mem_cons.mp h
      obtain ⟨tag, next, hcommands⟩ := exists_commands_cons hplain v ctx n lines
      rw [hcommands, List.filterMap_cons_none (tool_command hquiet v tag), ih hlines]

theorem worksWith_commands {front back : List (List TemplatePiece)}
    (hfront : ∀ line ∈ front, isPlain line = true ∧ isIdle line = true)
    (hback : ∀ line ∈ back, isPlain line = true ∧ isQuiet line = true) {v : ChangeValues} {t : Nat}
    (hv : v.tool = t) (ht : t < 10) (active : Option Tool) (ctx : Context) (n : Nat) :
    WorksWith active (some v.tool) (commands v ctx n (front ++ select :: back)) := by
  induction front generalizing ctx n with
  | nil =>
      have hplain : isPlain select = true := by decide
      obtain ⟨tag, next, hcommands⟩ := exists_commands_cons hplain v ctx n back
      rw [List.nil_append, hcommands]
      refine ⟨[_], _, rfl, List.forall_mem_singleton.mpr (dry_command (by decide) v tag), ?_,
        filterMap_tool_commands hback v next (n + 1)⟩
      rw [List.filterMap_cons_some (tool_command_select hv ht tag)]
      rfl
  | cons line front ih =>
      obtain ⟨⟨hplain, hidle⟩, hfront⟩ := List.forall_mem_cons.mp hfront
      rw [isIdle, Bool.and_eq_true] at hidle
      obtain ⟨tag, next, hcommands⟩ := exists_commands_cons hplain v ctx n (front ++ select :: back)
      rw [List.cons_append, hcommands]
      have hdry := List.forall_mem_singleton.mpr (dry_command hidle.2 v tag)
      refine (ih hfront next (n + 1)).dry_append hdry ?_
      rw [List.filterMap_cons_none (tool_command hidle.1 v tag)]
      rfl

end TemplatePiece

namespace Flavor

open TemplatePiece

theorem exists_select (f : Flavor) : ∃ front back, f.template = front ++ select :: back ∧
    (∀ line ∈ front, isIdle line = true) ∧ ∀ line ∈ back, isQuiet line = true := by
  cases f with
  | generic =>
      exact ⟨generic.template.take 1, generic.template.drop 2, by decide, by decide, by decide⟩
  | bambu =>
      refine ⟨bambu.template.take 22, bambu.template.drop 23, rfl, ?_, ?_⟩
      · decide +kernel
      · decide +kernel

theorem worksWith_render (f : Flavor) {v : ChangeValues} {t : Nat} (hv : v.tool = t) (ht : t < 10)
    (active : Option Tool) : Command.WorksWith active (some v.tool) (f.render v) := by
  obtain ⟨front, back, htemplate, hfront, hback⟩ := f.exists_select
  have hplain := f.isPlain_template
  rw [htemplate, List.forall_mem_append, List.forall_mem_cons] at hplain
  have hworks := worksWith_commands (fun line hline => ⟨hplain.1 line hline, hfront line hline⟩)
    (fun line hline => ⟨hplain.2.2 line hline, hback line hline⟩) hv ht active {} 0
  rwa [← htemplate] at hworks

end Flavor

namespace Writer

variable {w next last : Writer} {p : BodyPlan} {active tool : Option Tool}

/-- A step that prints with one tool. -/
def Works (tool : Option Tool) (w next : Writer) : Prop :=
  ∃ added, next.body.toList = w.body.toList ++ added ∧ next.machine = w.machine.run added ∧
    Command.WorksWith w.machine.tool tool added

namespace Works

theorem quiet (h : Works tool w next) {own : List Command} {changes : Nat}
    (h' : Emits next own [] changes last) : Works tool w last := by
  obtain ⟨added, hbody, hmachine, hworks⟩ := h
  obtain ⟨added', hbody', hmachine', -, hselects⟩ := h'.commands
  refine ⟨added ++ added', ?_, ?_, hworks.append_quiet hselects⟩
  · rw [hbody', hbody, List.append_assoc]
  · rw [hmachine', hmachine, Machine.run_append]

theorem machine_tool (h : Works tool w next) : next.machine.tool = tool := by
  obtain ⟨added, -, hmachine, hworks⟩ := h
  rw [hmachine]
  exact (hworks.prints rfl).2

end Works

theorem works_refl (w : Writer) : Works w.machine.tool w w :=
  ⟨[], by simp, rfl, Command.worksWith_of_quiet rfl⟩

theorem works_mark (w : Writer) (p : BodyPlan) (layer : Layer) :
    Works w.machine.tool w (w.mark p layer) :=
  w.works_refl.quiet (w.emits_mark p layer)

/-- Behind lines that extrude nothing a tool change prints with the new tool. -/
theorem works_change (w : Writer) (p : BodyPlan) (layer : Layer) (source : Option Tool)
    {tool : Tool} {t : Nat} (htool : tool = t) (ht : t < 10) :
    Works (some tool) w ((w.mark p layer).change p.settings.toolChange source tool) := by
  let marks : List Command := [.commentLine (Marker.layerText (w.counts.visits + 1) p.total),
    .commentLine (Marker.heightText layer.z)]
  have hmarked : (w.mark p layer).body.toList = w.body.toList ++ marks ∧
      (w.mark p layer).machine = w.machine.run marks := by
    obtain ⟨hbody, hmachine, -⟩ := writeAll_spec
      { w with counts := { w.counts with visits := w.counts.visits + 1 } } marks
    exact ⟨hbody, hmachine⟩
  generalize w.mark p layer = marked at hmarked ⊢
  obtain ⟨front, hfront, hrun, hdry, hselects⟩ : ∃ front,
      marked.ensureAbsolute.body.toList = marked.body.toList ++ front ∧
      marked.ensureAbsolute.machine = marked.machine.run front ∧
      (∀ c ∈ front, c.Dry) ∧ front.filterMap Command.tool = [] := by
    unfold ensureAbsolute
    split
    · exact ⟨[.synthesized "G90"], Array.toList_push, rfl,
        List.forall_mem_singleton.mpr (Command.dry_of_mnemonic (by decide)), by decide⟩
    · exact ⟨[], (List.append_nil _).symm, rfl, by simp, rfl⟩
  have hblock := p.settings.toolChange.flavor.worksWith_render
    (v := { source, tool, temperature := p.settings.toolChange.temperature tool,
            ceiling := marked.ensureAbsolute.ceiling }) htool ht w.machine.tool
  obtain ⟨hbody, hmachine, -⟩ := marked.ensureAbsolute.writeAll_spec
    (p.settings.toolChange.block source tool marked.ensureAbsolute.ceiling)
  refine ⟨(marks ++ front) ++ p.settings.toolChange.block source tool
    marked.ensureAbsolute.ceiling, ?_, ?_, hblock.dry_append ?_ ?_⟩
  · rw [change, hbody, hfront, hmarked.1]
    simp only [List.append_assoc]
  · rw [change, hmachine, hrun, hmarked.2, Machine.run_append, Machine.run_append]
  · rw [List.forall_mem_append]
    refine ⟨List.forall_mem_cons.mpr ⟨Command.dry_commentLine _, ?_⟩, hdry⟩
    exact List.forall_mem_singleton.mpr (Command.dry_commentLine _)
  · rw [List.filterMap_append, hselects, List.append_nil,
      List.filterMap_cons_none (Command.quiet_commentLine _).tool,
      List.filterMap_cons_none (Command.quiet_commentLine _).tool]
    rfl

theorem works_visit (w : Writer) (p : BodyPlan) {due : Option (Option Tool × Tool)}
    (hdue : ∀ change ∈ due, ∃ t : Nat, change.2 = t ∧ t < 10) {v : Visit}
    (hscanned : ∀ s ∈ v.segments, s.Scanned) :
    Works ((due.map Prod.snd).or w.machine.tool) w (w.visit p due v) := by
  rw [← v.flatten_runs] at hscanned
  have hrest {next : Writer} {tool : Option Tool} (h : Works tool w next) : Works tool w
      { v.runs.foldl (fun w run => w.run p v.layer run) (next.catchUp p v.layer.index) with
        lastLayer := some v.layer.index } := by
    have hcaught := h.quiet (next.emits_catchUp p v.layer.index)
    have hruns := hcaught.quiet (emits_runs _ p v.layer hscanned)
    exact hruns
  cases due with
  | none => exact hrest (w.works_mark p v.layer)
  | some change =>
      obtain ⟨t, htool, ht⟩ := hdue change rfl
      exact hrest (w.works_change p v.layer change.1 htool ht)

end Writer

end ToolBatching
