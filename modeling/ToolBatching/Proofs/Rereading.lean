import ToolBatching.Optimization
import ToolBatching.Proofs.Reading.Pieces
import ToolBatching.Proofs.RoundTrip
import ToolBatching.Proofs.Writing.Output

namespace ToolBatching

namespace Block

/-- The texts of a block, opened by its layer mark. -/
def texts (total : Nat) (b : Block) : String × List String :=
  ("; " ++ Marker.layerText b.number total,
    ("; " ++ Marker.heightText b.visit.layer.z) :: b.more.map Command.raw)

theorem pieces_texts (total : Nat) (blocks : List Block) :
    pieces (blocks.map (texts total)) = (blocks.flatMap (commands total)).map Command.raw := by
  rw [pieces, List.flatMap_map, List.map_flatMap]
  rfl

end Block

/-- The lines of an output: blocks with the numbers from one on, what closes them, and what
stands in front and behind. Up to the end sequence, which begins with the marker that ends
the print, only the first line of a block carries a layer marker. -/
structure Layered (total : Nat) (blocks : List Block) (closing raws : List String) : Prop where
  lines : ∃ front ending,
    raws = front ++ (pieces (blocks.map (Block.texts total)) ++ (closing ++ ending)) ∧
      (∀ raw ∈ front, Marker.numberOf raw = none) ∧
      ∀ raw ∈ ending.head?, Marker.ofCommand (Command.ofText none raw) = some .endOfPrint
  isLine : ∀ raw ∈ raws, Text.IsLine raw.toList
  more : ∀ b ∈ blocks, ∀ c ∈ b.more, Marker.numberOf c.raw = none
  numbers : blocks.map Block.number = List.range' 1 total
  small : total < 2 ^ 32

namespace Layered

variable {total : Nat} {blocks : List Block} {closing raws : List String}

theorem length (h : Layered total blocks closing raws) : blocks.length = total := by
  rw [← List.length_map Block.number, h.numbers, List.length_range']

theorem numberOf_texts (h : Layered total blocks closing raws) {b : Block} (hb : b ∈ blocks) :
    Marker.numberOf (b.texts total).1 = some b.number := by
  refine Marker.numberOf_layerText ?_ h.small
  have hmem : b.number ∈ List.range' 1 total := by
    rw [← h.numbers]
    exact List.mem_map_of_mem hb
  have hsmall := h.small
  have hle := (List.mem_range'_1.mp hmem).2
  omega

theorem numberOf_items (h : Layered total blocks closing raws) :
    (blocks.map (Block.texts total)).map (fun item => Marker.numberOf item.1) =
      (List.range' 1 (blocks.map (Block.texts total)).length).map some := by
  rw [List.length_map, h.length, ← h.numbers, List.map_map, List.map_map]
  refine List.map_congr_left fun b hb => ?_
  rw [Function.comp_apply, Function.comp_apply, h.numberOf_texts hb]

theorem ascends (h : Layered total blocks closing raws) :
    Ascends Marker.numberOf (blocks.map (Block.texts total)) := by
  have hnumbers : (blocks.map Block.number).Pairwise (· < ·) := by
    rw [h.numbers]
    exact List.pairwise_lt_range'
  refine List.pairwise_map.mpr ((List.pairwise_map.mp hnumbers).imp_of_mem ?_)
  intro b b' hb hb' hlt
  exact ⟨_, h.numberOf_texts hb, _, h.numberOf_texts hb', hlt⟩

theorem keyless (h : Layered total blocks closing raws) :
    ∀ b ∈ blocks.map (Block.texts total), ∀ raw ∈ b.2, Marker.numberOf raw = none := by
  refine List.forall_mem_map.mpr fun b hb => List.forall_mem_cons.mpr ?_
  exact ⟨Marker.numberOf_heightText _, List.forall_mem_map.mpr (h.more b hb)⟩

theorem anyLayer (h : Layered total blocks closing raws) (hne : blocks ≠ []) :
    Marker.anyLayer raws = true := by
  obtain ⟨b, hb⟩ := List.exists_mem_of_ne_nil blocks hne
  obtain ⟨front, ending, rfl, -⟩ := h.lines
  have hmem : (b.texts total).1 ∈ pieces (blocks.map (Block.texts total)) :=
    mem_pieces (List.mem_map_of_mem hb)
  exact Marker.anyLayer_of_mem (List.mem_append_right front (List.mem_append_left _ hmem))
    List.prefix_rfl (h.numberOf_texts hb)

/-- Where reading back finds as many layers as there are blocks, they are the blocks; the last
one may lose its end to the end sequence or take on what closes the blocks. -/
theorem forall₂_layers (h : Layered total blocks closing raws) (hne : blocks ≠ [])
    (lineEnding : LineEnding)
    (hlength : (Program.ofLines raws lineEnding).layers.length = blocks.length) :
    List.Forall₂ (fun (b : Block) (l : Layer) => ∃ more,
      l.commands.map Command.raw = ("; " ++ Marker.layerText b.number total) ::
        ("; " ++ Marker.heightText b.visit.layer.z) :: more ∧
      more <+: b.more.map Command.raw ++ closing)
      blocks (Program.ofLines raws lineEnding).layers := by
  obtain ⟨front, ending, hraws, hfront, hending⟩ := h.lines
  obtain ⟨before, slices, behind, hcut⟩ :=
    Program.exists_cutBy Rule.markers raws lineEnding (if_pos (h.anyLayer hne))
  have hcount : slices.length = blocks.length := hcut.layers.length_eq.trans hlength
  have htexts := hcut.texts h.isLine
  have hpieces : pieces (slices.map Slice.texts) ++ behind.map (fun line => line.command.raw) =
      pieces (blocks.map (Block.texts total)) ++ (closing ++ ending) := by
    obtain ⟨b, blocks', rfl⟩ := List.exists_cons_of_ne_nil hne
    obtain ⟨s, slices', rfl⟩ := List.exists_cons_of_length_eq_add_one hcount
    have hsame := htexts.lines.trans hraws
    rw [List.map_cons, List.map_cons, pieces_cons, pieces_cons, List.cons_append,
      List.cons_append] at hsame ⊢
    refine (append_cons_inj_of (p := fun raw => ∃ k, Marker.numberOf raw = some k) hsame
      ?_ ?_ (htexts.keyed _ List.mem_cons_self)
      ⟨b.number, h.numberOf_texts List.mem_cons_self⟩).2
    · intro raw hraw
      simp [htexts.front raw hraw]
    · intro raw hraw
      simp [hfront raw hraw]
  have hheight : ∀ b ∈ blocks, Marker.ofCommand
      (Command.ofText none ("; " ++ Marker.heightText b.visit.layer.z)) ≠ some .endOfPrint := by
    intro b hb
    rcases Marker.ofCommand_heightText_cases b.visit.layer.z with hnone | ⟨r, hheight⟩
    · simp [hnone]
    · simp [hheight]
  have hpaired := forall₂_of_pieces_eq hpieces (by simpa using hcount) htexts.ascends h.ascends
    htexts.quiet h.keyless htexts.ends htexts.tail hending
    (List.forall_mem_map.mpr fun b hb => ⟨_, _, rfl, hheight b hb⟩)
  rw [List.forall₂_map_left_iff, List.forall₂_map_right_iff] at hpaired
  refine forall₂_trans hpaired htexts.layers fun b _ s _ l ⟨hopener, hmore, hprefix⟩ hl => ?_
  obtain ⟨first, more, hrest⟩ := List.exists_cons_of_ne_nil hmore
  rw [hrest, Block.texts, List.cons_append, List.cons_prefix_cons] at hprefix
  obtain ⟨rfl, hprefix⟩ := hprefix
  exact ⟨more, by rw [hl, hrest, hopener]; rfl, hprefix⟩

end Layered

/-- A visit keeps a line with the text of a command, and it states the same height. -/
def Visit.Keeps (v : Visit) (c : Command) : Prop :=
  ∃ s ∈ v.segments, ∃ d ∈ s.kept, d.raw = c.raw ∧ Marker.heightOf d = Marker.heightOf c

namespace Program

theorem keeps_of_holds (text : String) {plan : BodyPlan} {v : Visit} (hv : v.OfLayer (ofText text))
    {c : Command} (hc : Block.Holds plan v c)
    (hstates : Marker.heightOf (Command.ofText none c.raw) ≠ none) :
    v.Keeps (Command.ofText none c.raw) := by
  rcases hc with hsurrounds | ⟨s, hs, hkept⟩
  · exact absurd (Marker.ofCommand_of_colon_notMem hsurrounds.plain.colon_notMem).2 hstates
  · obtain ⟨hmem, -⟩ := (read_ofText text).mem_of_mem_kept hv hs hkept
    exact ⟨s, hs, c, hkept, rfl, heightOf_of_mem_readCommands hmem⟩

theorem map_raw_laid {context : BodyPlan} {visits : List Visit} {blocks : List Block} {w : Writer}
    (h : Writer.Laid context visits blocks w) (front closing ending : List Command) :
    (front ++ (w.body.toList ++ closing) ++ ending).map Command.raw = front.map Command.raw ++
      (pieces (blocks.map (Block.texts context.total)) ++
        (closing.map Command.raw ++ ending.map Command.raw)) := by
  rw [h.body, Block.pieces_texts]
  simp only [List.map_append, List.append_assoc]

/-- Blocks that are written between the ends of a program layer the lines of the output. -/
theorem layered_of_laid (text : String) {plan : Plan} {settings : Settings} {jobs : List Job}
    (hjobs : (ofText text).resolve plan = .ok jobs) {context : BodyPlan}
    (hcontext : context = { program := ofText text, settings, total := plan.visitCount })
    {blocks : List Block} {w : Writer}
    (h : Writer.Laid context (jobs.flatMap Job.visits) blocks w) {closing : List Command}
    (hclosing : ∀ c ∈ closing, context.Surrounds c) (hsmall : plan.visitCount < 2 ^ 32) :
    Layered plan.visitCount blocks (closing.map Command.raw)
      (((ofText text).preamble ++ (w.body.toList ++ closing) ++ (ofText text).postamble).map
        Command.raw) := by
  have hvisit : ∀ b ∈ blocks, b.visit.OfLayer (ofText text) := by
    intro b hb
    obtain ⟨j, hj, hv⟩ := List.mem_flatMap.mp (h.visit_mem hb)
    exact (read_ofText text).ofLayer_of_resolve hjobs hj hv
  refine ⟨?_, ?_, ?_, ?_, hsmall⟩
  · obtain ⟨hpreamble, hpostamble⟩ := ofLines_ends ((Text.lines text.toList).map String.ofList)
      (LineEnding.ofText text.toList)
    refine ⟨(ofText text).preamble.map Command.raw, (ofText text).postamble.map Command.raw, ?_,
      List.forall_mem_map.mpr hpreamble, ?_⟩
    · rw [map_raw_laid h, hcontext]
    · rw [List.head?_map]
      rintro raw hraw
      obtain ⟨c, hc, rfl⟩ := Option.map_eq_some_iff.mp hraw
      exact hpostamble c hc
  · rw [List.forall_mem_map, h.body, List.forall_mem_append, List.forall_mem_append,
      List.forall_mem_append, List.forall_mem_flatMap]
    refine ⟨⟨fun c hc => ?_, fun b hb => ?_, fun c hc => (hclosing c hc).plain.isLine⟩,
      fun c hc => ?_⟩
    · exact isLine_of_mem_readCommands ((read_ofText text).mem_of_mem_preamble hc)
    · rw [Block.commands, List.forall_mem_cons, List.forall_mem_cons]
      exact ⟨Text.isLine_of_forall (Text.unbroken_layerText _ _),
        Text.isLine_of_forall (Text.unbroken_heightText _),
        fun c hc => (of_holds text (hvisit b hb) (h.holds b hb c hc)).1⟩
    · exact isLine_of_mem_readCommands ((read_ofText text).mem_of_mem_postamble hc)
  · exact fun b hb c hc => (of_holds text (hvisit b hb) (h.holds b hb c hc)).2
  · rw [h.numbers, (forall₂_of_resolve hjobs).length_eq.symm]
    rfl

theorem exists_layered (text : String) {plan : Plan} {settings : Settings} {jobs : List Job}
    (hjobs : (ofText text).resolve plan = .ok jobs) {body : Body}
    (hbody : (ofText text).synthesize plan settings = .ok body)
    (hsmall : plan.visitCount < 2 ^ 32) :
    ∃ (blocks : List Block) (closing : List String),
      Layered plan.visitCount blocks closing
        (((ofText text).preamble ++ body.commands ++ (ofText text).postamble).map Command.raw) ∧
      blocks.map Block.visit = jobs.flatMap Job.visits ∧
      ∀ b ∈ blocks, ∀ raw ∈ b.more.map Command.raw ++ closing,
        Marker.heightOf (Command.ofText none raw) ≠ none →
          b.visit.Keeps (Command.ofText none raw) := by
  obtain ⟨blocks, w, body', hlaid, -, hbody', hcommands, -⟩ := blocks_induction hjobs rfl
    (motive := fun _ _ => True) trivial fun _ _ _ _ _ _ _ _ _ _ _ => trivial
  obtain rfl : body' = body := Except.ok.inj (hbody'.symm.trans hbody)
  obtain ⟨closing, hclosing, hsurrounds⟩ := (w.writes_finish
    (p := { program := ofText text, settings, total := plan.visitCount })).commands
  refine ⟨blocks, closing.map Command.raw, ?_, hlaid.printed, ?_⟩
  · rw [hcommands, hclosing]
    exact layered_of_laid text hjobs rfl hlaid hsurrounds hsmall
  · intro b hb
    obtain ⟨j, hj, hv⟩ := List.mem_flatMap.mp (hlaid.visit_mem hb)
    have hvisit := (read_ofText text).ofLayer_of_resolve hjobs hj hv
    rw [List.forall_mem_append, List.forall_mem_map, List.forall_mem_map]
    constructor
    · exact fun c hc => keeps_of_holds text hvisit (hlaid.holds b hb c hc)
    · exact fun c hc => keeps_of_holds text hvisit (Or.inl (hsurrounds c hc))

theorem heightAhead_of_mem_readCommands {text comment : String} {c : Command}
    (hc : c ∈ readCommands text) (hraw : c.raw = "; " ++ comment) (m : Machine)
    (cs : List Command) :
    m.heightAhead (c :: cs) =
      (m.heightAhead cs).or (Marker.heightOf (Command.ofText none ("; " ++ comment))) := by
  have hcode : Command.codeOf c.raw = [] := by
    rw [hraw]
    exact Command.code_commentText none comment
  obtain ⟨hstep, hprints⟩ := idle_of_mem_readCommands hc hcode m
  rw [Machine.heightAhead, hprints, hstep, heightOf_of_mem_readCommands hc, hraw]
  rfl

end Program

/-- How a layer that is read back stands to the visit it was written for. Behind its two
markers only lines that are kept of the visit state heights. The last height they state in
front of the first print move is that of the layer; where they state none, the layer has the
height that its marker was written for. -/
structure Layer.RetellsHeight (v : Visit) (l : Layer) : Prop where
  markers : ∃ mark height, l.commands = mark :: height :: l.commands.drop 2 ∧
    height.raw = "; " ++ Marker.heightText v.layer.z
  source : ∀ c ∈ l.commands.drop 2, Marker.heightOf c ≠ none → v.Keeps c
  stated : ∀ z ∈ l.entry.heightAhead (l.commands.drop 2), l.z = z
  silent : v.layer.z.isFinite = true → l.entry.heightAhead (l.commands.drop 2) = none →
    Number.readPlain (coordinate axisPlaces v.layer.z).toList = some l.z ∧
      Number.Within (1 / 10 ^ axisPlaces) l.z v.layer.z

theorem Machine.heightAhead_eq_none (m : Machine) {cs : List Command}
    (h : ∀ c ∈ cs, Marker.heightOf c = none) : m.heightAhead cs = none := by
  induction cs generalizing m with
  | nil => rfl
  | cons c cs ih =>
      obtain ⟨hc, hcs⟩ := List.forall_mem_cons.mp h
      rw [heightAhead, hc, ih _ hcs]
      exact ite_self none

theorem Layer.RetellsHeight.readPlain_eq {v : Visit} {l : Layer} (h : l.RetellsHeight v)
    (hkept : ∀ s ∈ v.segments, ∀ c ∈ s.kept, Marker.heightOf c = none)
    (hfinite : v.layer.z.isFinite = true) :
    Number.readPlain (coordinate axisPlaces v.layer.z).toList = some l.z ∧
      Number.Within (1 / 10 ^ axisPlaces) l.z v.layer.z := by
  refine h.silent hfinite (l.entry.heightAhead_eq_none fun c hc => ?_)
  by_contra hstates
  obtain ⟨s, hs, d, hd, -, hsame⟩ := h.source c hc hstates
  exact hstates (hsame.symm.trans (hkept s hs d hd))

namespace Program

theorem retellsHeight {gcode : String} (h : (ofText gcode).detection = .markers) {l : Layer}
    (hl : l ∈ (ofText gcode).layers) {v : Visit} {number total : Nat} {more : List String}
    (hraws : l.commands.map Command.raw = ("; " ++ Marker.layerText number total) ::
      ("; " ++ Marker.heightText v.layer.z) :: more)
    (hmore : ∀ raw ∈ more, Marker.heightOf (Command.ofText none raw) ≠ none →
      v.Keeps (Command.ofText none raw)) : l.RetellsHeight v := by
  have hread : ∀ c ∈ l.commands, c ∈ readCommands gcode := fun c hc =>
    (read_ofText gcode).mem_of_mem_bodyCommands (List.mem_flatMap.mpr ⟨l, hl, hc⟩)
  obtain ⟨mark, behind, hcommands, hmark, hbehind⟩ := List.map_eq_cons_iff.mp hraws
  obtain ⟨height, rest, rfl, hheight, rfl⟩ := List.map_eq_cons_iff.mp hbehind
  have hdrop : l.commands.drop 2 = rest := by
    rw [hcommands]
    rfl
  rw [hcommands] at hread
  obtain ⟨hmarkRead, hread⟩ := List.forall_mem_cons.mp hread
  obtain ⟨hheightRead, hrestRead⟩ := List.forall_mem_cons.mp hread
  -- Neither marker moves or prints, so what lies behind them is read from the entry state.
  have hahead : l.entry.heightAhead l.commands = ((l.entry.heightAhead rest).or
      (Marker.heightOf (Command.ofText none ("; " ++ Marker.heightText v.layer.z)))).or
        (Marker.heightOf (Command.ofText none ("; " ++ Marker.layerText number total))) := by
    rw [hcommands, heightAhead_of_mem_readCommands hmarkRead hmark,
      heightAhead_of_mem_readCommands hheightRead hheight]
  constructor
  · exact ⟨mark, height, by rw [hdrop, hcommands], hheight⟩
  · rw [hdrop]
    intro c hc hstates
    rw [heightOf_of_mem_readCommands (hrestRead c hc)] at hstates
    obtain ⟨s, hs, d, hd, hraw, hsame⟩ := hmore c.raw (List.mem_map_of_mem hc) hstates
    refine ⟨s, hs, d, hd, hraw, ?_⟩
    rw [hsame, heightOf_of_mem_readCommands (hrestRead c hc)]
  · rw [hdrop]
    intro z hz
    refine z_eq_of_heightAhead h hl ?_
    rw [hahead, hz]
    rfl
  · rw [hdrop]
    intro hfinite hnone
    obtain ⟨z, hz, hzFinite, hclose⟩ :=
      @read_coordinate axisPlaces (by decide) (by decide) _ hfinite
    have hstated : Marker.heightOf (Command.ofText none ("; " ++ Marker.heightText v.layer.z)) =
        some z := by
      rw [Marker.heightOf, Marker.ofCommand_heightText none hfinite hz]
    have heq : l.z = z := by
      refine z_eq_of_heightAhead h hl ?_
      rw [hahead, hnone, hstated]
      rfl
    rw [heq]
    exact ⟨hz, hzFinite, hfinite, hclose⟩

/-- A visit of a plan and the layer that it is read back as. -/
def RetellsVisit (p : Program) (ids : List SegmentId) (l : Layer) : Prop :=
  ∃ first rest v, ids = first :: rest ∧ p.resolveVisit first rest = .ok v ∧ l.RetellsHeight v

/-- A visit of a plan and the layer that it is read back as, which has the height of the visit's
layer to three decimals where the visit keeps no line that states a height. -/
def RereadsVisit (p : Program) (ids : List SegmentId) (l : Layer) : Prop :=
  ∃ first rest v, ids = first :: rest ∧ p.resolveVisit first rest = .ok v ∧
    ((∀ s ∈ v.segments, ∀ c ∈ s.kept, Marker.heightOf c = none) → v.layer.z.isFinite = true →
      Number.readPlain (coordinate axisPlaces v.layer.z).toList = some l.z ∧
        Number.Within (1 / 10 ^ axisPlaces) l.z v.layer.z)

theorem RetellsVisit.rereads {p : Program} {ids : List SegmentId} {l : Layer}
    (h : p.RetellsVisit ids l) : p.RereadsVisit ids l := by
  obtain ⟨first, rest, v, hids, hv, hretells⟩ := h
  exact ⟨first, rest, v, hids, hv, hretells.readPlain_eq⟩

theorem RereadsVisit.z_eq {p : Program} {id : SegmentId} {l : Layer} {z z' : Float}
    (h : p.RereadsVisit [id] l) (hvisit : ∀ v ∈ (p.resolveVisit id []).toOption, v.layer.z = z ∧
      ∀ s ∈ v.segments, ∀ c ∈ s.kept, Marker.heightOf c = none)
    (hfinite : z.isFinite = true)
    (hread : Number.readPlain (coordinate axisPlaces z).toList = some z') : l.z = z' := by
  obtain ⟨first, rest, v, hids, hv, hheight⟩ := h
  obtain ⟨rfl, rfl⟩ := List.cons_eq_cons.mp hids
  obtain ⟨rfl, hunstated⟩ := hvisit v (by rw [hv]; rfl)
  obtain ⟨hsame, -⟩ := hheight hunstated hfinite
  exact Option.some.inj (hsame.symm.trans hread)

theorem forall₂_retellsVisit {text gcode : String} {plan : Plan} {jobs : List Job}
    (hjobs : (ofText text).resolve plan = .ok jobs) {blocks : List Block}
    {closing raws : List String} (h : Layered plan.visitCount blocks closing raws)
    (hvisits : blocks.map Block.visit = jobs.flatMap Job.visits)
    (hstates : ∀ b ∈ blocks, ∀ raw ∈ b.more.map Command.raw ++ closing,
      Marker.heightOf (Command.ofText none raw) ≠ none →
        b.visit.Keeps (Command.ofText none raw))
    {lineEnding : LineEnding} (hread : ofText gcode = ofLines raws lineEnding)
    (hlength : (ofText gcode).layers.length = plan.visitCount) :
    List.Forall₂ (ofText text).RetellsVisit (plan.batches.flatMap Batch.visits)
      (ofText gcode).layers := by
  have hfound := forall₂_of_resolve hjobs
  rw [← hvisits, List.forall₂_map_right_iff] at hfound
  rcases eq_or_ne blocks [] with rfl | hne
  · have hempty : (ofText gcode).layers.length = 0 := hlength.trans h.length.symm
    rw [List.length_eq_zero_iff.mp hempty, List.forall₂_nil_right_iff.mp hfound]
    exact .nil
  · have hmarked : (ofText gcode).detection = .markers := by
      rw [hread, detection_ofLines, h.anyLayer hne, if_pos rfl]
    have hpaired := h.forall₂_layers hne lineEnding (by rw [← hread, hlength, h.length])
    rw [← hread] at hpaired
    refine forall₂_trans hfound hpaired ?_
    rintro ids b hb l hl ⟨first, rest, hids, hvisit⟩ ⟨more, hraws, hmore⟩
    exact ⟨first, rest, b.visit, hids, hvisit, retellsHeight hmarked hl hraws
      fun raw hraw => hstates b hb raw (hmore.subset hraw)⟩

end Program

theorem Program.Written.exists_optimized {text : String} {settings : Settings} {jobs : List Job}
    {body : Body} (hwritten : (ofText text).Written settings jobs body)
    (h : settings.validate = .ok ()) :
    ∃ out, ToolBatching.optimize text settings = .ok out ∧
      out.plan = (ofText text).schedule settings ∧
      out.gcode = Command.unlines (ofText text).lineEnding
        ((ofText text).preamble ++ body.commands ++ (ofText text).postamble) := by
  unfold ToolBatching.optimize Program.optimize
  simp only [h, hwritten.synthesized]
  exact ⟨_, rfl, rfl, rfl⟩

/-- An output that is read back with one layer for each visit is read back with the heights of
the layers that the visits print, to three decimals, as far as no comment that is kept of the
source states another one in front of the first print move. The count in a marker is read as
a number of 32 bits. -/
theorem optimize_heights (text : String) (settings : Settings) (h : settings.validate = .ok ()) :
    ∃ out, optimize text settings = .ok out ∧
      (out.plan.visitCount < 2 ^ 32 →
        (Program.ofText out.gcode).layers.length = out.plan.visitCount →
        List.Forall₂ (Program.ofText text).RetellsVisit (out.plan.batches.flatMap Batch.visits)
            (Program.ofText out.gcode).layers ∧
          List.Forall₂ (Program.ofText text).RereadsVisit (out.plan.batches.flatMap Batch.visits)
            (Program.ofText out.gcode).layers) := by
  obtain ⟨jobs, body, hwritten⟩ := Program.exists_written text settings
  obtain ⟨out, hout, hplan, hgcode⟩ := hwritten.exists_optimized h
  have hjobs := hwritten.resolved
  have hbody := hwritten.synthesized
  rw [← hplan] at hjobs hbody
  refine ⟨out, hout, fun hsmall hlength => ?_⟩
  obtain ⟨blocks, closing, hlayered, hvisits, hstates⟩ :=
    Program.exists_layered text hjobs hbody hsmall
  have hread := Program.ofText_unlines (Program.ofText text).lineEnding hlayered.isLine
  rw [← hgcode] at hread
  have hretells := Program.forall₂_retellsVisit hjobs hlayered hvisits hstates hread hlength
  exact ⟨hretells, hretells.imp fun _ _ => Program.RetellsVisit.rereads⟩

/-- The first of three visits keeps a height comment of the source behind its markers; the
heights of the others are rounded. -/
theorem optimize_heights_of_kept_comment :
    let text := "; layer num/total_layer_count: 1/2\n; Z_HEIGHT: 1\nG1 Z1 E1\n" ++
      "; layer num/total_layer_count: 2/2\nG1 Z2.0004 E2\nT1\nG1 X9 E3\n"
    let settings : Settings :=
      { toolChange := { flavor := .generic }, primeTower := { enabled := false } }
    ∃ out, optimize text settings = .ok out ∧
      out.plan.batches.flatMap Batch.visits = [[⟨1, 0⟩], [⟨2, 0⟩], [⟨2, 1⟩]] ∧
      (Program.ofText out.gcode).layers.map Layer.z = [1, 2, 2] := by
  intro text settings
  obtain ⟨out, hout, hheights⟩ := optimize_heights text settings (by decide +kernel)
  let lines := ["; layer num/total_layer_count: 1/3", "; Z_HEIGHT: 1.000", "G1 Z1.000 F600",
    "; Z_HEIGHT: 1", "G1 Z1 E1", "; layer num/total_layer_count: 2/3", "; Z_HEIGHT: 2.000",
    "G1 Z2.000 F600", "G1 Z2.0004 E2", "; layer num/total_layer_count: 3/3", "; Z_HEIGHT: 2.000",
    "; tool change none -> T1", "T1", "M109 S220 ; wait for nozzle temp", "G1 X9 E3"]
  have hmade : ∃ made ∈ (optimize text settings).toOption,
      made.plan.visitCount = 3 ∧
      made.plan.batches.flatMap Batch.visits = [[⟨1, 0⟩], [⟨2, 0⟩], [⟨2, 1⟩]] ∧
      made.gcode = Text.unlines .lf (lines.map Command.trimmed) := by
    decide +kernel
  rw [hout] at hmade
  obtain ⟨made, hmade, hcount, hvisits, hgcode⟩ := hmade
  obtain rfl : out = made := Option.some.inj hmade
  have hfeed : ∀ line ∈ lines, '\n' ∉ line.toList := by decide +kernel
  have hahead : (Program.ofText out.gcode).layers.map
      (fun l => l.entry.heightAhead (l.commands.drop 2)) = [some 1, none, none] := by
    rw [hgcode, Program.ofText_unlines_trimmed .lf (List.cons_ne_nil _ _) hfeed]
    decide +kernel
  have hlength : (Program.ofText out.gcode).layers.length = 3 := by
    simpa using congrArg List.length hahead
  obtain ⟨hretells, hrereads⟩ := hheights (by rw [hcount]; decide) (by rw [hlength, hcount])
  refine ⟨out, hout, hvisits, ?_⟩
  rw [hvisits] at hretells hrereads
  obtain ⟨l₁, ls, hlayers, hahead₁, -⟩ := List.map_eq_cons_iff.mp hahead
  rw [hlayers] at hretells hrereads ⊢
  -- The first layer has the height of the comment that its visit keeps.
  obtain ⟨⟨-, -, v, -, -, hcomment⟩, -⟩ := List.forall₂_cons.mp hretells
  obtain ⟨-, hrereads⟩ := List.forall₂_cons.mp hrereads
  -- The other visits keep no line that states a height, so their own markers decide.
  obtain ⟨l₂, l₃, rfl⟩ : ∃ l₂ l₃, ls = [l₂, l₃] := by
    rw [hlayers] at hlength
    exact List.length_eq_two.mp (Nat.succ.inj hlength)
  obtain ⟨hsecond, hrereads⟩ := List.forall₂_cons.mp hrereads
  obtain ⟨hthird, -⟩ := List.forall₂_cons.mp hrereads
  have hunstated : ∀ id ∈ [(⟨2, 0⟩ : SegmentId), ⟨2, 1⟩],
      ∀ v ∈ ((Program.ofText text).resolveVisit id []).toOption, v.layer.z = 2.0004 ∧
        ∀ s ∈ v.segments, ∀ c ∈ s.kept, Marker.heightOf c = none := by
    decide +kernel
  have hshown : (2.0004 : Float).isFinite = true ∧
      Number.readPlain (coordinate axisPlaces 2.0004).toList = some 2 := by
    decide +kernel
  have h₂ := hsecond.z_eq (hunstated _ (by simp)) hshown.1 hshown.2
  have h₃ := hthird.z_eq (hunstated _ (by simp)) hshown.1 hshown.2
  rw [List.map_cons, List.map_cons, List.map_singleton, hcomment.stated 1 (by rw [hahead₁]; rfl),
    h₂, h₃]

/-- Where moves open the layers no comment decides a height; written behind a layer marker,
the same comment does. -/
theorem optimize_restates_height :
    ∃ out, optimize "G1 Z1\n; Z_HEIGHT: 5\n" { toolChange := { flavor := .generic } } = .ok out ∧
      out.plan.batches.flatMap Batch.visits = [[⟨1, 0⟩]] ∧
      (Program.ofText "G1 Z1\n; Z_HEIGHT: 5\n").layers.map Layer.z = [1] ∧
      (Program.ofText out.gcode).layers.map Layer.z = [5] ∧
      ¬ Number.Within (1 / 10 ^ axisPlaces) 5 1 := by
  have hmade : ∃ made ∈ (optimize "G1 Z1\n; Z_HEIGHT: 5\n"
      { toolChange := { flavor := .generic } }).toOption,
      made.plan.batches.flatMap Batch.visits = [[⟨1, 0⟩]] ∧
        (Program.ofText made.gcode).layers.map Layer.z = [5] := by
    decide +kernel
  obtain ⟨made, hmade, hvisits, hheights⟩ := hmade
  exact ⟨made, eq_ok_of_mem_toOption hmade, hvisits, by decide +kernel, hheights,
    by decide +kernel⟩

end ToolBatching
