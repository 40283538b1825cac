import ToolBatching.Proofs.Reading.CleanReading
import ToolBatching.Proofs.Rereading
import ToolBatching.Proofs.Writing.Nested

namespace ToolBatching

namespace Marker

open Text

theorem anyLayer_append_of_plain {raws plain : List String} (h : ∀ raw ∈ plain, Plain raw) :
    anyLayer (raws ++ plain) = anyLayer raws := by
  have hnone : anyLayer plain = false := by
    rw [anyLayer, List.any_eq_false]
    intro raw hraw
    split
    · rename_i comment hcomment
      have hmem : ':' ∉ comment := fun hc =>
        (h raw hraw).colon_notMem ((Command.suffix_of_splitComment hcomment).subset hc)
      simp [firstMatch_layerDigits_eq_none hmem]
    · simp
  rw [anyLayer, List.any_append]
  change (anyLayer raws || anyLayer plain) = anyLayer raws
  rw [hnone, Bool.or_false]

end Marker

namespace BodyPlan

theorem Surrounds.ofCommand_raw {p : BodyPlan} {c : Command} (h : p.Surrounds c) :
    Marker.ofCommand c = Marker.ofCommand (Command.ofText none c.raw) := by
  cases h with
  | block h =>
      obtain ⟨n, tag, line, hline, rfl⟩ := Flavor.exists_of_mem_render h
      obtain ⟨raw, hparse, -⟩ :=
        Command.exists_parse n (String.join (line.map (TemplatePiece.render _)))
      rw [Marker.ofCommand_tagged, hparse]
      exact Marker.ofCommand_ofText (some n) raw
  | _ => rfl

end BodyPlan

namespace Block

/-- Behind its markers a block opens and closes what the lines that are kept of its visit do. -/
def Nests (b : Block) : Prop :=
  ∀ n : Nesting, n.sequence = false →
    n.read b.more = n.read (b.visit.segments.flatMap Segment.kept)

end Block

namespace Program

theorem stays_kept (text : String) {v : Visit} (hv : v.OfLayer (ofText text)) :
    Nesting.Stays (v.segments.flatMap Segment.kept) := by
  intro c hc slot hmarker
  obtain ⟨s, hs, hc⟩ := List.mem_flatMap.mp hc
  obtain ⟨hmem, hkeeps⟩ := (read_ofText text).mem_of_mem_kept hv hs hc
  have htag := inToolChange_of_opener hmem hmarker
  simp [Writer.keeps, htag] at hkeeps

theorem exists_nested_blocks (text : String) {plan : Plan} {settings : Settings} {jobs : List Job}
    (hjobs : (ofText text).resolve plan = .ok jobs)
    (htools : ∀ j ∈ jobs, ∀ t : Nat, j.tool = some t → t < 10) {context : BodyPlan}
    (hcontext : context = { program := ofText text, settings, total := plan.visitCount }) :
    ∃ blocks w body, Writer.Laid context (jobs.flatMap Job.visits) blocks w ∧
      (∀ b ∈ blocks, b.Nests) ∧ (ofText text).synthesize plan settings = .ok body ∧
      body.commands = (w.finish context).body.toList := by
  obtain ⟨blocks, w, body, hlaid, hnests, hbody, hcommands, -⟩ := blocks_induction hjobs hcontext
    (motive := fun blocks _ => ∀ b ∈ blocks, b.Nests) (by simp) (by
      intro blocks w due b j hj hdue hb hblocks _ hnext
      rw [List.forall_mem_append, List.forall_mem_singleton]
      refine ⟨hblocks, fun n hn => ?_⟩
      have hvisit := (read_ofText text).ofLayer_of_resolve hjobs hj hb
      have hsegments : ∀ s ∈ b.visit.segments, s ∈ context.program.segments := by
        rw [hcontext]
        exact fun s hs => hvisit.mem_segments hs
      have hdigit : ∀ change ∈ due, ∃ t : Nat, change.2 = t ∧ t < 10 := fun change hchange =>
        ⟨change.2, rfl, htools j hj change.2 (hdue change hchange)⟩
      obtain ⟨added, hadded, hread⟩ :=
        (w.nests_visit context hdigit hsegments (stays_kept text hvisit)).commands
      have hmarked : (w.mark context b.visit.layer).body.toList = w.body.toList ++
          [.commentLine (Marker.layerText (w.counts.visits + 1) context.total),
            .commentLine (Marker.heightText b.visit.layer.z)] :=
        (Writer.writeAll_spec _ _).1
      rw [hnext, hmarked, List.append_assoc, Block.commands, List.append_cancel_left_eq] at hadded
      obtain ⟨-, hadded⟩ := List.cons.inj hadded
      obtain ⟨-, rfl⟩ := List.cons.inj hadded
      exact hread n hn)
  exact ⟨blocks, w, body, hlaid, hnests, hbody, hcommands⟩

theorem ofCommand_raw_of_holds (text : String) {plan : BodyPlan} {v : Visit}
    (hv : v.OfLayer (ofText text)) {c : Command} (hc : Block.Holds plan v c) :
    Marker.ofCommand c = Marker.ofCommand (Command.ofText none c.raw) := by
  rcases hc with hsurrounds | ⟨s, hs, hkept⟩
  · exact hsurrounds.ofCommand_raw
  · exact ofCommand_of_mem_readCommands ((read_ofText text).mem_of_mem_kept hv hs hkept).1

end Program

namespace Nesting

variable {cs : List Command}

theorem read_raw (h : ∀ c ∈ cs, Marker.ofCommand c = Marker.ofCommand (Command.ofText none c.raw))
    (n : Nesting) : n.read ((cs.map Command.raw).map (Command.ofText none)) = n.read cs := by
  refine read_congr ?_ n
  rw [List.map_map, List.map_map]
  exact List.map_congr_left fun c hc => (h c hc).symm

end Nesting

namespace Program

/-- No visit leaves an object open that it starts or stops one that it does not start, and in
front of the layers and behind them nothing is open. -/
structure Untorn (p : Program) (jobs : List Job) : Prop where
  preamble : ({} : Nesting).read p.preamble = some {}
  body : ({} : Nesting).read (p.preamble ++ p.bodyCommands) = some {}
  visits : ∀ j ∈ jobs, ∀ v ∈ j.visits,
    ({} : Nesting).read (v.segments.flatMap Segment.kept) = some {}

theorem Untorn.read_postamble {text : String} {jobs : List Job}
    (h : (ofText text).Untorn jobs) (hclean : (ofText text).warnings = []) :
    ∃ n, ({} : Nesting).read (ofText text).postamble = some n ∧ n.sequence = false := by
  obtain ⟨n, hread, hn⟩ := nesting_of_warnings_eq_nil hclean
  rw [← (read_ofText text).commands, commands, Nesting.read_append_of_eq h.body] at hread
  exact ⟨n, hread, hn⟩

theorem layers_eq_nil_of_visitCount {text : String} {settings : Settings}
    (h : ((ofText text).schedule settings).visitCount = 0) : (ofText text).layers = [] := by
  have hread := read_ofText text
  have hperm : ((ofText text).schedule settings).members.Perm (ofText text).segmentIds :=
    hread.members_schedule_perm
      (Clearance.ofProgram (ofText text) settings.nozzle settings.clearance) settings.maxBatchLayers
  have hmembers : ((ofText text).schedule settings).members = [] := by
    rw [Plan.visitCount, List.length_eq_zero_iff, List.flatMap_eq_nil_iff] at h
    rw [Plan.members, List.flatMap_eq_nil_iff]
    intro b hb
    have hflatten : b.visits.flatten = b.members := List.flatten_splitBy _ b.members
    rw [← hflatten, h b hb, List.flatten_nil]
  rw [hmembers, List.nil_perm, segmentIds, List.map_eq_nil_iff] at hperm
  rw [List.eq_nil_iff_forall_not_mem]
  intro l hl
  obtain ⟨m, hsound⟩ := hread.layers.of_mem hl
  exact hsound.nonempty (List.flatMap_eq_nil_iff.mp hperm l hl)

theorem exists_closing (w : Writer) (context : BodyPlan) :
    ∃ closing, (w.finish context).body.toList = w.body.toList ++ closing ∧
      (∀ c ∈ closing, context.Surrounds c) ∧
      ∀ c ∈ closing, Nesting.isCalm (Marker.ofCommand c) = true := by
  obtain ⟨closing, hbody, hsurrounds⟩ := (w.writes_finish (p := context)).commands
  obtain ⟨closing', hbody', hbare⟩ := (w.writes_finish (p := context.bare)).commands
  have hsame : closing = closing' := List.append_cancel_left (hbody.symm.trans hbody')
  refine ⟨closing, hbody, hsurrounds, fun c hc => ?_⟩
  rw [hsame] at hc
  exact BodyPlan.isCalm_of_surrounds (hbare c hc)

theorem closed_preamble {text : String} {jobs : List Job} (h : (ofText text).Untorn jobs) :
    Layout.Closed ((ofText text).preamble.map Command.raw) where
  silent := List.forall_mem_map.mpr (ofLines_ends _ _).1
  read := by
    rw [Nesting.read_raw fun c hc =>
      ofCommand_of_mem_readCommands ((read_ofText text).mem_of_mem_preamble hc)]
    exact h.preamble

theorem closed_surrounds {context : BodyPlan} {cs : List Command}
    (hsurrounds : ∀ c ∈ cs, context.Surrounds c)
    (hcalm : ∀ c ∈ cs, Nesting.isCalm (Marker.ofCommand c) = true) :
    Layout.Closed (cs.map Command.raw) where
  silent := List.forall_mem_map.mpr fun c hc => Marker.numberOf_of_plain (hsurrounds c hc).plain
  read := by
    rw [Nesting.read_raw fun c hc => (hsurrounds c hc).ofCommand_raw]
    exact Nesting.read_of_isCalm hcalm {}

theorem closed_texts (text : String) {context : BodyPlan} {b : Block}
    (hvisit : b.visit.OfLayer (ofText text)) (hholds : ∀ c ∈ b.more, Block.Holds context b.visit c)
    (hnests : b.Nests)
    (hkept : ({} : Nesting).read (b.visit.segments.flatMap Segment.kept) = some {}) (total : Nat) :
    Layout.Closed (b.texts total).2 where
  silent := by
    refine List.forall_mem_cons.mpr ⟨Marker.numberOf_heightText _, ?_⟩
    exact List.forall_mem_map.mpr fun c hc => (of_holds text hvisit (hholds c hc)).2
  read := by
    have hheight : Nesting.isCalm (Marker.ofCommand
        (Command.ofText none ("; " ++ Marker.heightText b.visit.layer.z))) = true := by
      rcases Marker.ofCommand_heightText_cases b.visit.layer.z with hnone | ⟨r, hsome⟩
      · rw [hnone]
        rfl
      · rw [hsome]
        rfl
    rw [Block.texts, List.map_cons, Nesting.read_cons, Nesting.step_of_isCalm hheight,
      Option.bind_some, Nesting.read_raw fun c hc =>
        ofCommand_raw_of_holds text hvisit (hholds c hc), hnests {} rfl]
    exact hkept

/-- An output with layers is read without a warning where nothing is torn. -/
theorem warnings_of_laid {text : String} (hclean : (ofText text).warnings = []) {plan : Plan}
    {settings : Settings} {jobs : List Job} (hjobs : (ofText text).resolve plan = .ok jobs)
    (huntorn : (ofText text).Untorn jobs) (hsmall : plan.visitCount < 2 ^ 32)
    {context : BodyPlan}
    (hcontext : context = { program := ofText text, settings, total := plan.visitCount })
    {blocks : List Block} {w : Writer}
    (hlaid : Writer.Laid context (jobs.flatMap Job.visits) blocks w)
    (hnests : ∀ b ∈ blocks, b.Nests) (hne : blocks ≠ []) (lineEnding : LineEnding) :
    (ofLines (((ofText text).preamble ++ (w.finish context).body.toList ++
      (ofText text).postamble).map Command.raw) lineEnding).warnings = [] := by
  obtain ⟨closing, hbody, hsurrounds, hcalm⟩ := exists_closing w context
  have hlayered := layered_of_laid text hjobs hcontext hlaid hsurrounds hsmall
  obtain ⟨n, hread, hn⟩ := huntorn.read_postamble hclean
  have hlines := hlayered.isLine
  rw [map_raw_laid hlaid] at hlines
  rw [hbody, map_raw_laid hlaid]
  refine warnings_pieces (by simpa using hne) ?_ hlines (closed_preamble huntorn) ?_
    (closed_surrounds hsurrounds hcalm) ?_ (n := n) ?_ hn lineEnding
  · rw [hcontext]
    exact hlayered.numberOf_items
  · refine List.forall_mem_map.mpr fun b hb => ?_
    obtain ⟨j, hj, hv⟩ := List.mem_flatMap.mp (hlaid.visit_mem hb)
    exact closed_texts text ((read_ofText text).ofLayer_of_resolve hjobs hj hv)
      (hlaid.holds b hb) (hnests b hb) (huntorn.visits j hj b.visit hv) context.total
  · rw [List.head?_map]
    rintro raw hraw
    obtain ⟨c, hc, rfl⟩ := Option.map_eq_some_iff.mp hraw
    exact (ofLines_ends _ _).2 c hc
  · rw [Nesting.read_raw fun c hc =>
      ofCommand_of_mem_readCommands ((read_ofText text).mem_of_mem_postamble hc)]
    exact hread

/-- An output without layers is the text and what closes it. -/
theorem warnings_without_layers {text : String} (hclean : (ofText text).warnings = [])
    (hlayers : (ofText text).layers = []) {jobs : List Job} (huntorn : (ofText text).Untorn jobs)
    {closing : List Command} {context : BodyPlan} (hsurrounds : ∀ c ∈ closing, context.Surrounds c)
    (hcalm : ∀ c ∈ closing, Nesting.isCalm (Marker.ofCommand c) = true) (lineEnding : LineEnding) :
    (ofLines (((ofText text).preamble ++ closing ++ (ofText text).postamble).map Command.raw)
      lineEnding).warnings = [] := by
  have hread := huntorn.body
  have hpostamble : (ofText text).postamble = [] := postamble_eq_nil hlayers
  have hbody : (ofText text).bodyCommands = [] := by rw [bodyCommands, hlayers, List.flatMap_nil]
  have hcommands : (ofText text).preamble = readCommands text := by
    rw [← (read_ofText text).commands, commands, hbody, hpostamble, List.append_nil,
      List.append_nil]
  rw [hbody, List.append_nil, hcommands] at hread
  have hraws : (ofText text).preamble.map Command.raw =
      ((Text.lines text.toList).map String.ofList).map Command.trimmed := by
    rw [hcommands, readCommands, List.map_map]
    exact map_raw_scanLines {} 0 _
  rw [hpostamble, List.append_nil, List.map_append, hraws]
  have hplain : ∀ raw ∈ closing.map Command.raw, Text.Plain raw :=
    List.forall_mem_map.mpr fun c hc => (hsurrounds c hc).plain
  unfold ofText ofLines at hclean
  rw [warnings_finish, List.append_eq_nil_iff] at hclean
  unfold readCommands at hread
  have htrimmed (l : Layout) (lines : List String) :
      (lines.map Command.trimmed).foldl Layout.read l = lines.foldl Layout.read l := by
    rw [List.foldl_map]
    simp only [Layout.read_trimmed]
  rw [ofLines, Marker.anyLayer_append_of_plain hplain, Marker.anyLayer_trimmed, List.foldl_append,
    htrimmed]
  generalize (if Marker.anyLayer ((Text.lines text.toList).map String.ofList) = true then
    Detection.markers else Detection.zHeight) = detection at hclean ⊢
  obtain ⟨-, hnesting⟩ := Layout.nesting_foldl hclean.1
  rw [show Context.nesting ({ detection } : Layout).context = {} from rfl, hread] at hnesting
  generalize ((Text.lines text.toList).map String.ofList).foldl Layout.read { detection } = l
    at hclean hnesting ⊢
  have hstart : Layout.Clean (l.lastNumber.getD 0 + 1) {} l := by
    refine ⟨hclean.1, (Option.some.inj hnesting).symm, ?_⟩
    intro previous hprevious
    rw [Option.mem_def.mp hprevious]
    exact Nat.lt_succ_self previous
  have hcalm' : ∀ raw ∈ closing.map Command.raw,
      Nesting.isCalm (Marker.ofCommand (.ofText none raw)) = true := by
    refine List.forall_mem_map.mpr fun c hc => ?_
    rw [← (hsurrounds c hc).ofCommand_raw]
    exact hcalm c hc
  have hclosed := hstart.foldl_calm rfl (fun raw hraw => (hplain raw hraw).isLine)
    (fun raw hraw => Marker.numberOf_of_plain (hplain raw hraw)) hcalm'
  exact hclosed.warnings_finish rfl lineEnding

end Program

/-- The output for a text that is read without a warning is read without one as well, as long as
no visit tears an object apart and nothing is open in front of the layers and behind them. The
count in a marker is read as a number of 32 bits. -/
theorem optimize_clean (text : String) (settings : Settings) (h : settings.validate = .ok ())
    (hclean : (Program.ofText text).warnings = []) :
    ∃ out jobs, optimize text settings = .ok out ∧
      (Program.ofText text).resolve out.plan = .ok jobs ∧
      (out.plan.visitCount < 2 ^ 32 → (Program.ofText text).Untorn jobs →
        (Program.ofText out.gcode).warnings = []) := by
  obtain ⟨jobs, body, hwritten⟩ := Program.exists_written text settings
  obtain ⟨out, hout, hplan, hgcode⟩ := hwritten.exists_optimized h
  have hjobs := hwritten.resolved
  have hbody := hwritten.synthesized
  obtain ⟨jobs', hjobs', -, -, -, -, htools⟩ := Program.exists_schedule_jobs text settings
  obtain rfl : jobs = jobs' := Except.ok.inj (hjobs.symm.trans hjobs')
  obtain ⟨blocks, w, body', hlaid, hnests, hbody', hcommands⟩ :=
    Program.exists_nested_blocks text hjobs htools rfl
  obtain rfl : body' = body := Except.ok.inj (hbody'.symm.trans hbody)
  refine ⟨out, jobs, hout, hplan ▸ hjobs, fun hsmall huntorn => ?_⟩
  rw [hplan] at hsmall
  obtain ⟨closing, hclosing, hsurrounds, hcalm⟩ := Program.exists_closing w
    { program := Program.ofText text, settings,
      total := ((Program.ofText text).schedule settings).visitCount }
  have hlayered := Program.layered_of_laid text hjobs rfl hlaid hsurrounds hsmall
  rw [← hclosing, ← hcommands] at hlayered
  rw [hgcode, Program.ofText_unlines _ hlayered.isLine, hcommands]
  rcases eq_or_ne blocks [] with rfl | hne
  · have hnone : w.body.toList = [] := hlaid.body
    rw [hclosing, hnone, List.nil_append]
    exact Program.warnings_without_layers hclean
      (Program.layers_eq_nil_of_visitCount hlayered.length.symm) huntorn hsurrounds hcalm _
  · exact Program.warnings_of_laid hclean hjobs huntorn hsmall rfl hlaid hnests hne _

/-- The object is printed before the tool changes within its layer. -/
theorem optimize_clean_object_first :
    let text := "G1 Z1\n; start printing object, unique label id: 1\nG1 X1 E1\n" ++
      "; stop printing object, unique label id: 1\nT1\nG1 X50 E2\n"
    let settings : Settings :=
      { toolChange := { flavor := .generic }, primeTower := { enabled := false } }
    (settings.validate = .ok () ∧ (Program.ofText text).warnings = []) ∧
    ∃ out jobs, optimize text settings = .ok out ∧
      (Program.ofText text).resolve out.plan = .ok jobs ∧
      (out.plan.visitCount = 2 ∧ (Program.ofText text).Untorn jobs) ∧
      (Program.ofText out.gcode).warnings = [] := by
  intro text settings
  have hinput : settings.validate = .ok () ∧ (Program.ofText text).warnings = [] := by
    decide +kernel
  obtain ⟨out, jobs, hout, hjobs, hclean⟩ := optimize_clean text settings hinput.1 hinput.2
  have hmade : ∃ made ∈ (optimize text settings).toOption, made.plan.visitCount = 2 ∧
      ∃ found ∈ ((Program.ofText text).resolve made.plan).toOption,
        (({} : Nesting).read (Program.ofText text).preamble = some {} ∧
          ({} : Nesting).read ((Program.ofText text).preamble ++
            (Program.ofText text).bodyCommands) = some {}) ∧
        ∀ j ∈ found, ∀ v ∈ j.visits,
          ({} : Nesting).read (v.segments.flatMap Segment.kept) = some {} := by
    decide +kernel
  rw [hout] at hmade
  obtain ⟨made, hmem, hvisits, hfound⟩ := hmade
  obtain rfl : out = made := Option.some.inj hmem
  rw [hjobs] at hfound
  obtain ⟨found, hmem, ⟨hpreamble, hbody⟩, hkept⟩ := hfound
  obtain rfl : jobs = found := Option.some.inj hmem
  have huntorn : (Program.ofText text).Untorn jobs := ⟨hpreamble, hbody, hkept⟩
  exact ⟨hinput, out, jobs, hout, hjobs, ⟨hvisits, huntorn⟩,
    hclean (by rw [hvisits]; decide) huntorn⟩

/-- An object that is printed with two tools is torn: its start is written in the visit of the
first one and its stop in that of the second one. -/
theorem optimize_tears_object :
    let text := "G1 Z1\n; start printing object, unique label id: 1\nG1 X1 E1\n" ++
      "T1\nG1 X50 E2\n; stop printing object, unique label id: 1\n"
    let settings : Settings :=
      { toolChange := { flavor := .generic }, primeTower := { enabled := false } }
    settings.validate = .ok () ∧ (Program.ofText text).warnings = [] ∧
      ∃ out ∈ (optimize text settings).toOption,
        (Program.ofText out.gcode).warnings = [.objectOpenAtLayerBoundary 6 "1"] := by
  intro text settings
  let lines := ["; layer num/total_layer_count: 1/2", "; Z_HEIGHT: 1.000", "G1 Z1.000 F600",
    "G1 Z1", "; start printing object, unique label id: 1", "G1 X1 E1",
    "; layer num/total_layer_count: 2/2", "; Z_HEIGHT: 1.000", "; tool change none -> T1", "T1",
    "M109 S220 ; wait for nozzle temp", "G1 X50 E2",
    "; stop printing object, unique label id: 1"]
  have hoptimize : settings.validate = .ok () ∧ (Program.ofText text).warnings = [] ∧
      ∃ out ∈ (optimize text settings).toOption,
        out.gcode = Text.unlines .lf (lines.map Command.trimmed) := by
    decide +kernel
  obtain ⟨hvalid, hclean, out, hout, hgcode⟩ := hoptimize
  refine ⟨hvalid, hclean, out, hout, ?_⟩
  have hfeed : ∀ line ∈ lines, '\n' ∉ line.toList := by decide +kernel
  rw [hgcode, Program.ofText_unlines_trimmed .lf (List.cons_ne_nil _ _) hfeed]
  decide +kernel

end ToolBatching
