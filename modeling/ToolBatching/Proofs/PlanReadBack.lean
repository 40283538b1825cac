import ToolBatching.Proofs.CleanOutput
import ToolBatching.Proofs.Reading.Recut
import ToolBatching.Proofs.Writing.Ongoing
import ToolBatching.Proofs.Writing.Parts
import ToolBatching.Proofs.Writing.Standstill
import ToolBatching.Proofs.Writing.TaggedBody

/-!
Outputs that give their plan back. Behind layer markers no line of a body but the openers of the
visits carries a layer number, and none ends the print, so the output is cut into what was written
for the visits. The lines of a visit print with the tool of its batch, and this tool is what its
layer elects. Only behind a text whose layer markers open no layer, and which leaves the nozzle
below the bed, is a line written that belongs to no layer.
-/

namespace ToolBatching

section ModifyLast

variable {α β : Type}

theorem map_modifyLast {f : α → β} {g : α → α} {h : β → β} (hcomm : ∀ a, f (g a) = h (f a))
    (l : List α) : (l.modifyLast g).map f = (l.map f).modifyLast h := by
  rcases List.eq_nil_or_concat' l with rfl | ⟨front, last, rfl⟩
  · rfl
  · rw [List.modifyLast_concat, List.map_append, List.map_append, List.map_singleton,
      List.map_singleton, List.modifyLast_concat, hcomm]

theorem flatten_modifyLast_append {parts : List (List α)} (hne : parts ≠ []) (closing : List α) :
    (parts.modifyLast (· ++ closing)).flatten = parts.flatten ++ closing := by
  rcases List.eq_nil_or_concat' parts with rfl | ⟨front, last, rfl⟩
  · exact absurd rfl hne
  · rw [List.modifyLast_concat, List.flatten_append, List.flatten_append, List.flatten_singleton,
      List.flatten_singleton, List.append_assoc]

theorem length_modifyLast (f : α → α) (l : List α) : (l.modifyLast f).length = l.length := by
  rcases List.eq_nil_or_concat' l with rfl | ⟨front, last, rfl⟩
  · rfl
  · rw [List.modifyLast_concat, List.length_append, List.length_append]
    rfl

end ModifyLast

namespace BodyPlan

variable {p : BodyPlan} {c : Command} {text : String}

theorem Composes.stopsOnly (hp : p.program = Program.ofText text) (h : p.Composes c) :
    c.StopsOnly := by
  have hplain (hsurrounds : p.Surrounds c) : c.StopsOnly := by
    intro label hmarker
    have hcolon := hsurrounds.plain.colon_notMem
    rw [hsurrounds.ofCommand_raw] at hmarker
    unfold Marker.ofCommand at hmarker
    split at hmarker
    · rename_i slot _
      cases hslot : Marker.readCount slot <;> simp [hslot] at hmarker
    · split at hmarker
      · exact absurd hmarker (by simp)
      · obtain ⟨comment, hcomment, hstop⟩ := Option.bind_eq_some_iff.mp hmarker
        rw [Marker.ofComment_of_colon_notMem fun hmem =>
          hcolon (Command.mem_of_mem_comment hcomment hmem)] at hstop
        split at hstop <;> exact absurd hstop (by simp)
  cases h with
  | kept h hkeeps =>
      intro _ _
      rw [hp] at h
      refine Option.eq_none_iff_forall_ne_some.mpr fun t ht => ?_
      have htag := (Program.tool_of_mem_readCommands text
        ((Program.read_ofText text).mem_of_mem_bodyCommands h) ht).1
      simp [Writer.keeps, htag] at hkeeps
  | marker number => exact fun _ _ => (Command.quiet_commentLine _).tool
  | height z => exact fun _ _ => (Command.quiet_commentLine _).tool
  | tower tool index => exact hplain (.tower tool index)
  | move h => exact hplain (.move h)
  | absolute => exact hplain .absolute
  | positioning h => exact hplain (.positioning h)
  | extrusion mode => exact hplain (.extrusion mode)
  | extruder e => exact hplain (.extruder e)
  | block h => exact hplain (.block h)

theorem Composes.goesOn (hp : p.program = Program.ofText text)
    (hmarkers : (Program.ofText text).detection = .markers) (h : p.Composes c) : c.GoesOn := by
  have hsurrounds (h : p.Surrounds c) : c.GoesOn := h.goesOn
  cases h with
  | kept h _ => exact Program.goesOn_of_mem_bodyCommands hmarkers (hp ▸ h)
  | marker number => exact Marker.goesOn_layerText number p.total
  | height z => exact Marker.goesOn_heightText z
  | tower tool index => exact hsurrounds (.tower tool index)
  | move h => exact hsurrounds (.move h)
  | absolute => exact hsurrounds .absolute
  | positioning h => exact hsurrounds (.positioning h)
  | extrusion mode => exact hsurrounds (.extrusion mode)
  | extruder e => exact hsurrounds (.extruder e)
  | block h => exact hsurrounds (.block h)

end BodyPlan

namespace Command

theorem forall₂_alike_lists {parts again : List (List Command)}
    (hparts : ∀ cs ∈ parts, ∀ c ∈ cs, c.Told) (hagain : ∀ ds ∈ again, ∀ d ∈ ds, d.Told)
    (h : again.map (fun ds => ds.map Command.raw) = parts.map fun cs => cs.map Command.raw) :
    List.Forall₂ (List.Forall₂ Alike) parts again := by
  induction parts generalizing again with
  | nil =>
      obtain rfl := List.map_eq_nil_iff.mp h
      exact .nil
  | cons cs parts ih =>
      obtain ⟨ds, again, rfl, hraws, hrest⟩ := List.map_eq_cons_iff.mp h
      obtain ⟨hcs, hparts⟩ := List.forall_mem_cons.mp hparts
      obtain ⟨hds, hagain⟩ := List.forall_mem_cons.mp hagain
      exact .cons (forall₂_alike hcs hds hraws) (ih hparts hagain hrest)

theorem Alike.stopsOnly {c d : Command} (h : c.Alike d) (hc : c.StopsOnly) : d.StopsOnly := by
  intro label hmarker
  rw [h.marker] at hmarker
  rw [h.tool]
  exact hc label hmarker

end Command

namespace Program

theorem told_of_mem_readCommands {text : String} {c : Command} (hc : c ∈ readCommands text) :
    c.Told :=
  exists_of_mem_readCommands hc

/-- A program with the ends of another one, whose layers hold what was written for visits, the
last one with what closes the body. -/
structure KeepsLines (p : Program) (parts : List (List Command)) (closing : List Command)
    (q : Program) : Prop where
  preamble : q.preamble.map Command.raw = p.preamble.map Command.raw
  postamble : q.postamble.map Command.raw = p.postamble.map Command.raw
  layers : q.layers.map (fun l => l.commands.map Command.raw) =
    (parts.modifyLast (· ++ closing)).map fun cs => cs.map Command.raw

/-- A program that gives a plan back: it keeps the lines of the source and of the visits, and has
one layer for each visit, with the tool of its batch. Unless a sequence is open behind the
preamble, the lines of the layers are tagged as they were in the body. -/
structure GivesBack (p : Program) (plan : Plan) (parts : List (List Command))
    (closing : List Command) (q : Program) : Prop extends p.KeepsLines parts closing q where
  count : q.layers.length = plan.visitCount
  tools : q.layers.map Layer.tool = plan.batches.flatMap fun b => b.visits.map fun _ => b.tool
  tags : (({} : Context).behind p.preamble).sequence = none →
    q.bodyCommands.map (fun c => (c.raw, c.inToolChange)) =
      (parts.flatten ++ closing).map fun c => (c.raw, c.inToolChange)

section GivesBack

variable {text gcode : String} {plan : Plan} {parts : List (List Command)} {closing : List Command}

theorem map_tool_of_alike (hmarkers : (ofText gcode).detection = .markers)
    {tools : List (Option Tool)}
    (hworks : Command.WorksInRow (ofText text).preambleState.tool tools parts)
    (hpreamble : List.Forall₂ Command.Alike (ofText text).preamble (ofText gcode).preamble)
    (hlayers : List.Forall₂ (List.Forall₂ Command.Alike) parts
      ((ofText gcode).layers.map Layer.commands))
    (hstops : ∀ cs ∈ parts, ∀ c ∈ cs, c.StopsOnly) :
    (ofText gcode).layers.map Layer.tool = tools := by
  have hread := read_ofText gcode
  have hstate : (ofText gcode).preambleState = (ofText text).preambleState := by
    rw [hread.preambleState, (read_ofText text).preambleState]
    exact Command.run_eq_of_alike hpreamble {}
  refine Layer.map_tool_eq hread.layers.chained_layers ?_
    (fun l hl => decided_of_mem_ofLines hmarkers hl) ?_
  · rw [hstate]
    exact hworks.of_alike hlayers
  · intro l hl d hd
    obtain ⟨cs, hcs, halike⟩ := exists_of_mem_forall₂ hlayers (List.mem_map_of_mem hl)
    obtain ⟨c, hc, hcd⟩ := exists_of_mem_forall₂ halike hd
    exact hcd.stopsOnly (hstops cs hcs c hc)

theorem map_tags_of_alike
    (hpreamble : List.Forall₂ Command.Alike (ofText text).preamble (ofText gcode).preamble)
    {body : List Command} (hbody : List.Forall₂ Command.Alike body (ofText gcode).bodyCommands)
    (hclosed : Command.Closed body)
    (hsequence : (({} : Context).behind (ofText text).preamble).sequence = none) :
    (ofText gcode).bodyCommands.map (fun c => (c.raw, c.inToolChange)) =
      body.map fun c => (c.raw, c.inToolChange) := by
  have hopen : ((({} : Context).behind (ofText gcode).preamble).sequence.isSome) = false := by
    rw [Context.isSome_sequence_behind, (Command.tagsOf_eq_of_alike hpreamble _).2,
      ← Context.isSome_sequence_behind, hsequence]
    rfl
  have htags : (ofText gcode).bodyCommands.map Command.inToolChange =
      body.map Command.inToolChange := by
    have hread := map_inToolChange_bodyCommands ((Text.lines gcode.toList).map String.ofList)
      (LineEnding.ofText gcode.toList)
    rw [← ofText, hopen, (Command.tagsOf_eq_of_alike hbody false).1, hclosed.tags] at hread
    exact hread
  have hraws : (ofText gcode).bodyCommands.map Command.raw = body.map Command.raw :=
    map_eq_map_of_forall₂ hbody fun _ _ h => h.raw
  rw [← List.zip_map', ← List.zip_map', hraws, htags]

/-- The lines of an output that is layered into the blocks of its visits are cut there again. -/
theorem keepsLines_of_layered {body : List Command} (hcommands : body = parts.flatten ++ closing)
    (hgoes : ∀ c ∈ body, c.Told ∧ c.GoesOn) {total : Nat} {blocks : List Block}
    (hparts : parts = blocks.map (Block.commands total)) (hne : blocks ≠ [])
    (hlayered : Layered total blocks (closing.map Command.raw)
      (((ofText text).preamble ++ body ++ (ofText text).postamble).map Command.raw))
    (hsilent : ∀ raw ∈ closing.map Command.raw, Marker.numberOf raw = none)
    (hgcode : gcode = Command.unlines (ofText text).lineEnding
      ((ofText text).preamble ++ body ++ (ofText text).postamble)) :
    (ofText text).KeepsLines parts closing (ofText gcode) := by
  have hitems : (blocks.map (Block.texts total)).map (fun item => item.1 :: item.2) =
      parts.map fun cs => cs.map Command.raw := by
    rw [hparts, List.map_map, List.map_map]
    rfl
  have hraws : pieces (blocks.map (Block.texts total)) ++ closing.map Command.raw =
      body.map Command.raw := by
    rw [Block.pieces_texts, hcommands, hparts, List.map_append, List.flatMap_def]
  have hlines : ((ofText text).preamble ++ body ++ (ofText text).postamble).map Command.raw =
      (ofText text).preamble.map Command.raw ++ (pieces (blocks.map (Block.texts total)) ++
        (closing.map Command.raw ++ (ofText text).postamble.map Command.raw)) := by
    rw [← List.append_assoc (pieces _), hraws]
    simp only [List.map_append, List.append_assoc]
  have hisLine := hlayered.isLine
  have hagain := ofText_unlines (ofText text).lineEnding hisLine
  rw [← hgcode, hlines] at hagain
  rw [hlines] at hisLine
  have hends := ofLines_ends ((Text.lines text.toList).map String.ofList)
    (LineEnding.ofText text.toList)
  have hstays : ∀ raw ∈ pieces (blocks.map (Block.texts total)) ++ closing.map Command.raw,
      Marker.ofCommand (Command.ofText none raw) ≠ some .endOfPrint := by
    rw [hraws]
    refine List.forall_mem_map.mpr fun c hc => ?_
    obtain ⟨htold, hgoesOn⟩ := hgoes c hc
    rw [← ((Command.told_ofText none c.raw).alike htold rfl).marker]
    exact hgoesOn
  obtain ⟨hpreamble, hlayers, hpostamble⟩ := ofLines_pieces (by simpa using hne) hisLine
    (List.forall_mem_map.mpr hends.1)
    (List.forall_mem_map.mpr fun b hb => ⟨_, hlayered.numberOf_texts hb⟩) hlayered.ascends
    hlayered.keyless hsilent hstays (by
      rw [List.head?_map]
      rintro raw hraw
      obtain ⟨c, hc, rfl⟩ := Option.map_eq_some_iff.mp hraw
      exact hends.2 c hc) hagain
  refine ⟨hpreamble, hpostamble, ?_⟩
  rw [hlayers, hitems]
  exact (map_modifyLast (fun _ => List.map_append) parts).symm

theorem KeepsLines.alike (h : (ofText text).KeepsLines parts closing (ofText gcode))
    (hne : parts ≠ []) (htold : ∀ c ∈ parts.flatten ++ closing, c.Told) :
    List.Forall₂ Command.Alike (ofText text).preamble (ofText gcode).preamble ∧
      List.Forall₂ (List.Forall₂ Command.Alike) (parts.modifyLast (· ++ closing))
        ((ofText gcode).layers.map Layer.commands) := by
  have hread := read_ofText text
  have hreadAgain := read_ofText gcode
  constructor
  · refine Command.forall₂_alike (fun c hc => ?_) (fun c hc => ?_) h.preamble
    · exact told_of_mem_readCommands (hread.mem_of_mem_preamble hc)
    · exact told_of_mem_readCommands (hreadAgain.mem_of_mem_preamble hc)
  · refine Command.forall₂_alike_lists (fun cs hcs c hc => htold c ?_) ?_ ?_
    · rw [← flatten_modifyLast_append hne closing]
      exact List.mem_flatten_of_mem hcs hc
    · refine List.forall_mem_map.mpr fun l hl c hc => ?_
      have hmem : c ∈ (ofText gcode).bodyCommands := List.mem_flatMap.mpr ⟨l, hl, hc⟩
      exact told_of_mem_readCommands (hreadAgain.mem_of_mem_bodyCommands hmem)
    · rw [List.map_map]
      exact h.layers

/-- Lines that are cut into the blocks of the visits give the plan back. -/
theorem givesBack_of_layered (hmarkers : (ofText text).detection = .markers)
    {settings : Settings} {jobs : List Job} {body : Body}
    (hwritten : (ofText text).Written settings jobs body)
    (hcommands : body.commands = parts.flatten ++ closing)
    {blocks : List Block} (hparts : parts = blocks.map (Block.commands plan.visitCount))
    (hlayered : Layered plan.visitCount blocks (closing.map Command.raw)
      (((ofText text).preamble ++ body.commands ++ (ofText text).postamble).map Command.raw))
    (hworks : Command.WorksInRow (ofText text).preambleState.tool
      (plan.batches.flatMap fun b => b.visits.map fun _ => b.tool) parts)
    (hsilent : ∀ raw ∈ closing.map Command.raw, Marker.numberOf raw = none)
    (hquiet : closing.filterMap Command.tool = []) (hne : blocks ≠ [])
    (hgcode : gcode = Command.unlines (ofText text).lineEnding
      ((ofText text).preamble ++ body.commands ++ (ofText text).postamble)) :
    (ofText text).GivesBack plan parts closing (ofText gcode) := by
  have hcomposes := (read_ofText text).composes hwritten.synthesized
  have htold : ∀ c ∈ body.commands, c.Told := fun c hc => (hcomposes c hc).told rfl
  have hkeeps := keepsLines_of_layered hcommands
    (fun c hc => ⟨htold c hc, (hcomposes c hc).goesOn rfl hmarkers⟩) hparts hne hlayered hsilent
    hgcode
  have hpartsNe : parts ≠ [] := by
    rw [hparts]
    simpa using hne
  have hall : (parts.modifyLast (· ++ closing)).flatten = body.commands := by
    rw [hcommands]
    exact flatten_modifyLast_append hpartsNe closing
  obtain ⟨hpreamble, hlayers⟩ := hkeeps.alike hpartsNe (hcommands ▸ htold)
  have hbody : List.Forall₂ Command.Alike body.commands (ofText gcode).bodyCommands := by
    have hflat := List.rel_flatten hlayers
    rw [hall] at hflat
    exact hflat
  have hmarked : (ofText gcode).detection = .markers := by
    rw [hgcode, ofText_unlines _ hlayered.isLine, detection_ofLines, hlayered.anyLayer hne,
      if_pos rfl]
  refine ⟨hkeeps, ?_, ?_, ?_⟩
  · have hlength := congrArg List.length hkeeps.layers
    rw [List.length_map, List.length_map, length_modifyLast, hparts, List.length_map,
      hlayered.length] at hlength
    exact hlength
  · refine map_tool_of_alike hmarked (hworks.modifyLast hquiet) hpreamble hlayers ?_
    intro cs hcs c hc
    refine (hcomposes c ?_).stopsOnly rfl
    rw [← hall]
    exact List.mem_flatten_of_mem hcs hc
  · rw [← hcommands]
    obtain ⟨jobs', hjobs', -, -, -, -, htools⟩ := exists_schedule_jobs text settings
    obtain rfl : jobs = jobs' := Except.ok.inj (hwritten.resolved.symm.trans hjobs')
    exact map_tags_of_alike hpreamble hbody
      (closed_body text hwritten.resolved htools hwritten.synthesized)

theorem ofText_text_of_ne (hne : Text.lines text.toList ≠ []) :
    ofText (ofText text).text = ofText text := by
  nth_rewrite 2 [ofText]
  rw [text_ofLines, ofText_unlines_trimmed, ← ofText]
  · simpa using hne
  · refine List.forall_mem_map.mpr fun line hline => ?_
    rw [String.toList_ofList]
    exact Text.feed_notMem_of_mem_lines hline

theorem givesBack_of_no_layers (hmarkers : (ofText text).detection = .markers)
    (hlayers : (ofText text).layers = []) (hcount : plan.visitCount = 0)
    (htools : (plan.batches.flatMap fun b => b.visits.map fun _ => b.tool) = [])
    (hgcode : gcode = Command.unlines (ofText text).lineEnding
      ((ofText text).preamble ++ [] ++ (ofText text).postamble)) :
    (ofText text).GivesBack plan [] [] (ofText gcode) := by
  have hbody : (ofText text).bodyCommands = [] := by rw [bodyCommands, hlayers, List.flatMap_nil]
  have hsame : gcode = (ofText text).text := by rw [hgcode, Program.text, commands, hbody]
  have hne : Text.lines text.toList ≠ [] := by
    intro hnil
    rw [ofText, detection_ofLines, hnil] at hmarkers
    exact absurd hmarkers (by decide)
  rw [hsame, ofText_text_of_ne hne]
  exact ⟨⟨rfl, rfl, by rw [hlayers]; rfl⟩, by rw [hlayers, hcount, List.length_nil],
    by rw [hlayers, htools, List.map_nil], fun _ => by rw [hbody]; rfl⟩

end GivesBack

end Program

/-- The output for a text with layer markers is read back as the program that its plan describes,
unless no layer is found behind the markers and the nozzle stands below the bed there. The count
in a marker is read as a number of 32 bits. -/
theorem optimize_gives_back (text : String) (settings : Settings) (h : settings.validate = .ok ())
    (hmarkers : (Program.ofText text).detection = .markers)
    (hlift : (Program.ofText text).layers = [] →
      ¬ (Program.ofText text).exit.z < 0 - tolerance) :
    ∃ out body parts closing, optimize text settings = .ok out ∧
      (Program.ofText text).synthesize out.plan settings = .ok body ∧
      (Program.ofText text).parts out.plan settings = .ok (parts, closing) ∧
      body.commands = parts.flatten ++ closing ∧
      (out.plan.visitCount < 2 ^ 32 →
        (Program.ofText text).GivesBack out.plan parts closing (Program.ofText out.gcode)) := by
  obtain ⟨jobs, body, hwritten⟩ := Program.exists_written text settings
  obtain ⟨out, hout, hplan, hgcode⟩ := hwritten.exists_optimized h
  have hjobs := hwritten.resolved
  have hbody := hwritten.synthesized
  rw [← hplan] at hjobs hbody
  obtain ⟨parts, closing, blocks, hparts, hcommands, hblocks, hlaid, hclosing, hworks⟩ :=
    hwritten.exists_parts hplan rfl rfl
  refine ⟨out, body, parts, closing, hout, hbody, hparts, hcommands, fun hsmall => ?_⟩
  obtain ⟨closing', hclosing', hsurrounds⟩ := (Writer.writes_finish (p :=
    { program := Program.ofText text, settings, total := out.plan.visitCount }) _).commands
  obtain rfl : closing = closing' := List.append_cancel_left (hclosing.symm.trans hclosing')
  obtain ⟨added, hadded, -, -, hselects⟩ := (Writer.emits_finish _
    { program := Program.ofText text, settings, total := out.plan.visitCount }).commands
  obtain rfl : closing = added := List.append_cancel_left (hclosing.symm.trans hadded)
  have hlayered := Program.layered_of_laid text hjobs rfl hlaid hsurrounds hsmall
  have hlaidBody : body.commands = blocks.flatMap (Block.commands out.plan.visitCount) ++ closing := by
    rw [hcommands, hblocks, List.flatMap_def]
  rw [hlaid.body, ← hlaidBody] at hlayered
  rcases eq_or_ne blocks [] with rfl | hne
  · have hcount : out.plan.visitCount = 0 := hlayered.length.symm
    have hlayers : (Program.ofText text).layers = [] :=
      Program.layers_eq_nil_of_visitCount (hplan ▸ hcount)
    have hnone : jobs = [] := by
      obtain ⟨jobs', hjobs', -, -, -, hvisits, -⟩ := Program.exists_schedule_jobs text settings
      obtain rfl : jobs = jobs' := Except.ok.inj (hwritten.resolved.symm.trans hjobs')
      by_contra hsome
      obtain ⟨j, hj⟩ := List.exists_mem_of_ne_nil jobs hsome
      exact hvisits j hj (List.flatMap_eq_nil_iff.mp hlaid.printed.symm j hj)
    subst hnone
    have hclosed : closing = [] := by
      rw [List.foldl_nil, Program.finish_eq_self hlayers (hlift hlayers) rfl] at hclosing
      simpa using hclosing
    subst hclosed hblocks
    have htools := Program.visitTools_of_resolve hjobs
    rw [hcommands] at hgcode
    exact Program.givesBack_of_no_layers hmarkers hlayers hcount htools.symm hgcode
  · exact Program.givesBack_of_layered hmarkers hwritten hcommands hblocks hlayered hworks
      (List.forall_mem_map.mpr fun c hc => Marker.numberOf_of_plain (hsurrounds c hc).plain)
      hselects hne hgcode

/-- Two tools print in one layer, which is read back as two layers with one tool each. -/
theorem optimize_gives_back_two_tools :
    let text := "; layer num/total_layer_count: 1/1\nT0\nG1 Z1 E1\nT1\nG1 X50 E2\n" ++
      "; MACHINE_END_GCODE_START\n"
    let settings : Settings :=
      { toolChange := { flavor := .generic }, primeTower := { enabled := false } }
    (settings.validate = .ok () ∧ (Program.ofText text).detection = .markers ∧
      (Program.ofText text).layers ≠ []) ∧
    ∃ out body parts closing, optimize text settings = .ok out ∧
      (Program.ofText text).synthesize out.plan settings = .ok body ∧
      (Program.ofText text).parts out.plan settings = .ok (parts, closing) ∧
      body.commands = parts.flatten ++ closing ∧ out.plan.visitCount = 2 ∧
      (Program.ofText text).GivesBack out.plan parts closing (Program.ofText out.gcode) := by
  intro text settings
  have hinput : settings.validate = .ok () ∧ (Program.ofText text).detection = .markers ∧
      (Program.ofText text).layers ≠ [] := by
    decide +kernel
  obtain ⟨out, body, parts, closing, hout, hbody, hparts, hcommands, hgives⟩ :=
    optimize_gives_back text settings hinput.1 hinput.2.1 fun hnone => absurd hnone hinput.2.2
  have hmade : ∃ made ∈ (optimize text settings).toOption, made.plan.visitCount = 2 := by
    decide +kernel
  rw [hout] at hmade
  obtain ⟨made, hmem, hvisits⟩ := hmade
  obtain rfl : out = made := Option.some.inj hmem
  exact ⟨hinput, out, body, parts, closing, hout, hbody, hparts, hcommands, hvisits,
    hgives (by rw [hvisits]; decide)⟩

/-- The number of a layer marker does not fit, so no layer opens, and the nozzle is lifted off a
print that there is not: the lift is read back as one more line in front of the layers. -/
theorem optimize_lengthens_preamble :
    let text := "; layer num/total_layer_count: 9999999999/1\nG1 Z-1\n"
    let settings : Settings := { toolChange := { flavor := .generic } }
    settings.validate = .ok () ∧ (Program.ofText text).detection = .markers ∧
      ∃ out ∈ (optimize text settings).toOption, out.plan.visitCount = 0 ∧
        (Program.ofText out.gcode).preamble.map Command.raw =
          (Program.ofText text).preamble.map Command.raw ++ ["G1 Z0.500 F600"] := by
  decide +kernel

end ToolBatching
