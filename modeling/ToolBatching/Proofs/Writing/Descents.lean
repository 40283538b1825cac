import ToolBatching.Proofs.Clearance.PrintEnds
import ToolBatching.Proofs.Writing.ClearTravel
import ToolBatching.Proofs.Writing.Closing
import ToolBatching.Proofs.Writing.Nested

/-!
Where the nozzle comes down. Between the source lines of a body only the last move of a hop
lowers the nozzle, so it comes down either on a tower or where a run is entered.
`Writer.Landed` is kept by every step of writing, and says which segments have been printed in
front of each descent.
-/

namespace ToolBatching

open Number

/-- A state in which a command lowers the nozzle, and by more than the places of a written
coordinate: a motion that is not in the source, with no X or Y word, outside tool-change
sequences. -/
structure Machine.Descends (m : Machine) (c : Command) : Prop where
  line : c.line = none
  outside : c.inToolChange = false
  motion : c.isMotion = true
  x : c.x = none
  y : c.y = none
  lowers : value (m.step c).z + 1 / 500 < value m.z

/-- A command that lowers the nozzle nowhere outside tool-change sequences, or comes from the
source. -/
def Command.Level (c : Command) : Prop :=
  c.line.isSome = true ∨ c.inToolChange = true ∨ c.target .z = none

theorem Command.Level.not_descends {c : Command} (h : c.Level) (m : Machine) :
    ¬ m.Descends c := by
  intro hdescends
  rcases h with hline | htag | htarget
  · rw [hdescends.line] at hline
    exact absurd hline (by simp)
  · rw [hdescends.outside] at htag
    exact absurd htag (by simp)
  · have hlowers := hdescends.lowers
    have hsame : (m.step c).z = m.z := Machine.along_step_eq_self (a := .z) htarget m
    rw [hsame] at hlowers
    linarith

theorem Command.level_tagged (c : Command) {tag : Bool} (h : tag = true) :
    Level { c with inToolChange := tag } :=
  Or.inr (Or.inl h)

theorem Context.inToolChange_of_open {ctx : Context} (h : ctx.sequence.isSome = true) (n : Nat)
    (text : String) : (ctx.scan n text).command.inToolChange = true := by
  rw [ctx.command_scan]
  generalize Command.parse n text = c
  generalize Marker.ofCommand c = marker
  change ctx.isMember marker c = true
  unfold isMember
  split
  · rfl
  · rw [h, Bool.true_or]

theorem Context.sequence_scan_of_isCalm (ctx : Context) (n : Nat) {text : String}
    (h : Nesting.isCalm (Marker.ofCommand (Command.parse n text)) = true) :
    (ctx.scan n text).next.sequence = ctx.sequence := by
  simp only [scan, advance]
  generalize Marker.ofCommand (Command.parse n text) = marker at h ⊢
  exact ctx.nextSequence_of_isCalm n h

theorem Context.scan_opener (ctx : Context) (n : Nat) {text : String} {slot : Nat}
    (h : Marker.ofCommand (Command.parse n text) = some (.toolChangeOpen slot)) :
    (ctx.scan n text).command.inToolChange = true ∧
      (ctx.scan n text).next.sequence.isSome = true := by
  simp only [scan, advance, h, isMember, nextSequence, true_and]
  cases ctx.sequence <;> rfl

namespace TemplatePiece

variable {v : ChangeValues} {ctx : Context} {n : Nat}

theorem level_commands {lines : List (List TemplatePiece)}
    (h : ∀ line ∈ lines, isPlain line = true ∧ fixes .z line = true) (v : ChangeValues)
    (ctx : Context) (n : Nat) : ∀ c ∈ commands v ctx n lines, c.Level := by
  induction lines generalizing ctx n with
  | nil => simp [commands, scanLines]
  | cons line lines ih =>
      obtain ⟨⟨hplain, hfixes⟩, hlines⟩ := List.forall_mem_cons.mp h
      rw [commands_cons hplain]
      exact List.forall_mem_cons.mpr
        ⟨Or.inr (Or.inr (target_command_tagged hfixes v _)), ih hlines _ _⟩

theorem level_commands_inside {inside behind : List (List TemplatePiece)}
    (hplain : ∀ line ∈ inside ++ closer :: behind, isPlain line = true)
    (hinside : ∀ line ∈ inside, beginsCalm line = true)
    (hbehind : ∀ line ∈ behind, fixes .z line = true) (v : ChangeValues)
    (hctx : ctx.sequence.isSome = true) (n : Nat) :
    ∀ c ∈ commands v ctx n (inside ++ closer :: behind), c.Level := by
  induction inside generalizing ctx n with
  | nil =>
      obtain ⟨hcloser, hrest⟩ := List.forall_mem_cons.mp hplain
      rw [List.nil_append, commands_cons hcloser]
      exact List.forall_mem_cons.mpr ⟨Command.level_tagged _ (Context.inToolChange_of_open hctx n _),
        level_commands (fun line hline => ⟨hrest line hline, hbehind line hline⟩) v _ _⟩
  | cons line inside ih =>
      rw [List.cons_append] at hplain ⊢
      obtain ⟨hline, hrest⟩ := List.forall_mem_cons.mp hplain
      obtain ⟨hcalm, hinside⟩ := List.forall_mem_cons.mp hinside
      have hopen : (ctx.scan n (String.join (line.map (render v)))).next.sequence.isSome = true := by
        rw [ctx.sequence_scan_of_isCalm n (isCalm_parse hcalm hline v n)]
        exact hctx
      rw [commands_cons hline]
      exact List.forall_mem_cons.mpr ⟨Command.level_tagged _ (Context.inToolChange_of_open hctx n _),
        ih hrest hinside hopen _⟩

end TemplatePiece

namespace Flavor

theorem template_levels (f : Flavor) :
    (∀ line ∈ f.template, TemplatePiece.fixes .z line = true) ∨
      ∃ inside behind, f.template =
          TemplatePiece.opener :: (inside ++ TemplatePiece.closer :: behind) ∧
        (∀ line ∈ inside, TemplatePiece.beginsCalm line = true) ∧
        ∀ line ∈ behind, TemplatePiece.fixes .z line = true := by
  cases f with
  | generic => exact Or.inl (by decide)
  | bambu =>
      refine Or.inr ⟨bambuApproach.tail ++ bambuPurge.take 32, bambuPurge.drop 33, ?_, ?_, ?_⟩
      · rfl
      · decide
      · decide

theorem level_of_mem_render (f : Flavor) {v : ChangeValues} {t : Nat} (hv : v.tool = t)
    (ht : t < 10) : ∀ c ∈ f.render v, c.Level := by
  change ∀ c ∈ TemplatePiece.commands v {} 0 f.template, c.Level
  have hplain := f.isPlain_template
  rcases f.template_levels with hfixes | ⟨inside, behind, htemplate, hinside, hbehind⟩
  · exact TemplatePiece.level_commands (fun line hline => ⟨hplain line hline, hfixes line hline⟩)
      v {} 0
  · rw [htemplate] at hplain ⊢
    obtain ⟨hopener, hplain⟩ := List.forall_mem_cons.mp hplain
    obtain ⟨htag, hopen⟩ :=
      Context.scan_opener {} 0 (TemplatePiece.ofCommand_parse_opener hv ht)
    rw [TemplatePiece.commands_cons hopener]
    exact List.forall_mem_cons.mpr ⟨Command.level_tagged _ htag,
      TemplatePiece.level_commands_inside hplain hinside hbehind v hopen 1⟩

end Flavor

theorem Command.level_of_target {c : Command} (h : c.target .z = none) : c.Level :=
  Or.inr (Or.inr h)

theorem Command.level_commentLine (text : String) : (commentLine text).Level :=
  level_of_target (target_of_not_isMotion
    (mnemonic_ofText_of_codeOf_nil none (code_commentText none text)) (by decide))

theorem Machine.level_of_mem_restoration {m target : Machine} {c : Command}
    (h : c ∈ m.restoration target) : c.Level :=
  Command.level_of_target (target_restoration h (by decide))

theorem BodyPlan.OfTower.level {p : BodyPlan} {tool : Tool} {index : Nat} {c : Command}
    (h : p.OfTower tool index c) : c.Level := by
  cases h with
  | relative => exact Command.level_of_target (Machine.target_extrusion .relative .z).1
  | comment => exact Command.level_commentLine _
  | move h =>
      refine PrimeTower.forall_layerMoves ?_ tool _ c h
      intro perMm x y side c hc
      simp only [PrimeTower.loop, List.mem_cons, List.not_mem_nil, or_false] at hc
      rcases hc with rfl | rfl | rfl | rfl | rfl <;>
        exact Command.level_of_target (Move.target_build_eq_none rfl rfl)

namespace Travel

variable {s : HopSettings} {m : Machine} {x y z : Float}

theorem level_lateral (s : HopSettings) (x y : Float) : (lateral s x y).Level :=
  Command.level_of_target (Move.target_build_eq_none rfl rfl)

theorem line_vertical (s : HopSettings) (z : Float) : (vertical s z).line = none :=
  rfl

theorem line_lateral (s : HopSettings) (x y : Float) : (lateral s x y).line = none :=
  rfl

theorem switches_vertical_ne (s : HopSettings) (z : Float) :
    (vertical s z).switches .x ≠ some .relative := by
  rw [vertical, Move.switches_build]
  simp

theorem not_descends_vertical (hm : m.positioning = .absolute) (hs : s.zFeedrate.isFinite = true)
    (hz : z.isFinite = true) (hle : value m.z - 1 / 2 ^ 18 ≤ value z) :
    ¬ m.Descends (vertical s z) := by
  intro hdescends
  have hclose := (abs_le.mp (within_vertical hm hs hz).2.2).1
  have hlowers := hdescends.lowers
  norm_num at hle
  linarith

theorem not_descends_vertical_relative (hm : m.positioning = .relative)
    (hs : s.zFeedrate.isFinite = true) (hz : z.isFinite = true) (hnonneg : 0 ≤ value z)
    (hheight : m.z.isFinite = true) (hnext : (m.step (vertical s z)).z.isFinite = true) :
    ¬ m.Descends (vertical s z) := by
  have hmove : Move.Finite { z := some z, f := some s.zFeedrate } :=
    ⟨by simp, by simp, by simpa using hz, by simp, by simpa using hs⟩
  obtain ⟨r, hread, hrfinite, -, hclose⟩ := Move.exists_readBack .z hz
  have hword : (vertical s z).z = some r := (Move.along_build hmove rfl .z).trans hread
  have hmotion : (vertical s z).isMotion = true := by
    rw [Command.isMotion, show (vertical s z).mnemonic = "G1" from Move.mnemonic_build hmove rfl]
    decide
  have hstep : (m.step (vertical s z)).z = m.z + r := by
    have htool : (vertical s z).tool = none := (Move.quiet_build _).tool
    rw [Machine.step_of_isMotion htool hmotion, Machine.move, hword, hm]
    rfl
  rw [hstep] at hnext
  have hnearest := (rounds_add hheight hrfinite).nearest hnext
  have hlow := (abs_le.mp hclose).1
  norm_num [Axis.places, axisPlaces] at hlow
  intro hdescends
  have hlowers := hdescends.lowers
  rw [hstep] at hlowers
  rcases le_or_gt 0 (value r) with hrises | hfalls
  · have hhigher := hnearest.le_of_grid_le (grid_value hheight) (by linarith)
    linarith
  · have hback := (abs_le.mp (hnearest.closest _ (grid_value hheight))).1
    rw [sub_add_cancel_left, abs_neg, abs_of_neg hfalls] at hback
    linarith

end Travel

/-- Whether two points are the same up to the places of a written coordinate. -/
structure Point.Near (a b : Point) : Prop where
  x : Within (1 / 1000) a.x b.x
  y : Within (1 / 1000) a.y b.y

def Machine.point (m : Machine) : Point :=
  ⟨m.x, m.y⟩

theorem Point.near_vertical {m : Machine} {a : Point} (h : m.point.Near a) (s : HopSettings)
    (z : Float) : (m.step (Travel.vertical s z)).point.Near a := by
  have hkeepsX := Travel.along_vertical (s := s) (a := .x) m (by decide) z
  have hkeepsY := Travel.along_vertical (s := s) (a := .y) m (by decide) z
  simp only [Machine.along] at hkeepsX hkeepsY
  rw [Machine.point, hkeepsX, hkeepsY]
  exact h

/-- Where a run of segments is entered, seen from above. -/
def Writer.landingPoint (first : Segment) (commands : List Command) : Point :=
  let point := (descentPoint first.entry commands).getD (first.entry.x, first.entry.y)
  ⟨point.1, point.2⟩

namespace Settings

/-- A place of a body in front of a run of the segments that it prints: the source lines in
front are those of the segments in front, and the nozzle comes down where the run is entered. -/
structure EntersRun (s : Settings) (printed : List Segment) (front : List Command) (low : Machine)
    (done : List Segment) (first : Segment) (rest : List Segment) : Prop where
  segments : done ++ first :: rest <+: printed
  lines : front.filter (fun c => c.line.isSome) = done.flatMap Segment.kept
  lands : s.hop.travelFeedrate.isFinite = true →
    (Writer.landingPoint first ((first :: rest).flatMap Segment.commands)).Finite →
      low.point.Near (Writer.landingPoint first ((first :: rest).flatMap Segment.commands))

/-- Whether the nozzle comes down behind a sideways move to a tower, or where a run is
entered. -/
def ComesDown (s : Settings) (printed : List Segment) (front : List Command) (low : Machine) :
    Prop :=
  (∃ tool, front.getLast? = some (Travel.lateral s.hop (s.primeTower.position tool).1
    (s.primeTower.position tool).2)) ∨
  ∃ done first rest, s.EntersRun printed front low done first rest

variable {s : Settings} {printed : List Segment} {front : List Command} {low : Machine}

theorem ComesDown.append (h : s.ComesDown printed front low) (more : List Segment) :
    s.ComesDown (printed ++ more) front low := by
  refine h.imp_right ?_
  rintro ⟨done, first, rest, hsegments, hlines, hlands⟩
  exact ⟨done, first, rest, hsegments.trans (List.prefix_append printed more), hlines, hlands⟩

end Settings

namespace Writer

variable {s : Settings} {start : Machine} {w next : Writer} {p : BodyPlan}
  {printed done : List Segment}

/-- The nozzle has come down on towers and where runs were entered only, as long as the heights
of the body fit. -/
structure Landed (s : Settings) (start : Machine) (printed : List Segment) (w : Writer) : Prop where
  bounded : Bounded s.hop start w
  lands : start.Fits s.hop w.body.toList → ∀ front c, front ++ [c] <+: w.body.toList →
    (start.run front).Descends c → s.ComesDown printed front (start.run (front ++ [c]))

/-- Whether the nozzle may come down where a travel ends, behind what has been written. -/
def Admits (s : Settings) (printed : List Segment) (w : Writer) (t : Travel) : Prop :=
  ∀ front low, front.filter (fun c => c.line.isSome) =
      w.body.toList.filter (fun c => c.line.isSome) →
    front.getLast? = some (Travel.lateral s.hop t.x t.y) →
    (s.hop.travelFeedrate.isFinite = true → Point.Finite ⟨t.x, t.y⟩ →
      low.point.Near ⟨t.x, t.y⟩) →
    s.ComesDown printed front low

theorem filter_line_write {c : Command} (hc : c.line = none) (w : Writer) :
    (w.write c).body.toList.filter (fun c => c.line.isSome) =
      w.body.toList.filter (fun c => c.line.isSome) := by
  rw [toList_body_write, List.filter_append, List.filter_cons_of_neg (by simp [hc]),
    List.filter_nil, List.append_nil]

namespace Landed

theorem of_eq (h : Landed s start printed w) (hbody : next.body = w.body)
    (hmachine : next.machine = w.machine) (hceiling : next.ceiling = w.ceiling) :
    Landed s start printed next where
  bounded := (keptByWrites_bounded s.hop start).of_eq w next h.bounded hbody hmachine hceiling
  lands := by
    rw [hbody]
    exact h.lands

theorem append (h : Landed s start printed w) (more : List Segment) :
    Landed s start (printed ++ more) w where
  bounded := h.bounded
  lands hfits front c hprefix hdescends := (h.lands hfits front c hprefix hdescends).append more

theorem fits (h : Landed s start printed w) (hfits : start.Fits s.hop w.body.toList) :
    s.hop.Fits w.machine.z := by
  rw [h.bounded.machine]
  exact hfits _ List.prefix_rfl

theorem write (h : Landed s start printed w) {c : Command}
    (hc : start.Fits s.hop (w.write c).body.toList → w.machine.Descends c →
      s.ComesDown printed w.body.toList (w.machine.step c)) :
    Landed s start printed (w.write c) where
  bounded := (keptByWrites_bounded s.hop start).write w c h.bounded
  lands := by
    intro hfits front d hprefix hdescends
    have hfront := hfits
    rw [toList_body_write] at hprefix hfront
    rcases Machine.prefix_concat_cases hprefix with ⟨rfl, rfl⟩ | hprefix
    · rw [← h.bounded.machine] at hdescends
      rw [Machine.run_append, ← h.bounded.machine]
      exact hc hfits hdescends
    · exact h.lands hfront.of_prefix front d hprefix hdescends

theorem write_level (h : Landed s start printed w) {c : Command} (hc : c.Level) :
    Landed s start printed (w.write c) :=
  h.write fun _ hdescends => absurd hdescends (hc.not_descends _)

theorem writeAll_level (h : Landed s start printed w) {cs : List Command}
    (hcs : ∀ c ∈ cs, c.Level) : Landed s start printed (w.writeAll cs) :=
  List.foldlRecOn cs Writer.write h fun _ hv c hc => hv.write_level (hcs c hc)

theorem rise (h : Landed s start printed w) (hs : s.hop.Works)
    (hw : w.machine.positioning = .absolute) {z : Float} (hz : z.isFinite = true)
    (hle : start.Fits s.hop w.body.toList → value w.machine.z - 1 / 2 ^ 18 ≤ value z)
    (rises : Prop) [Decidable rises] :
    Landed s start printed (w.writeAll (if rises then [Travel.vertical s.hop z] else [])) := by
  split
  · refine h.write fun hfits hdescends => ?_
    rw [toList_body_write] at hfits
    exact absurd hdescends
      (Travel.not_descends_vertical hw hs.zFeedrate hz (hle hfits.of_prefix))
  · exact h

theorem slide (h : Landed s start printed w) (slides : Prop) [Decidable slides] (x y : Float) :
    Landed s start printed (w.writeAll (if slides then [Travel.lateral s.hop x y] else [])) := by
  split
  · exact h.write_level (Travel.level_lateral s.hop x y)
  · exact h

theorem direct (h : Landed s start printed w) (hs : s.hop.Works)
    (hw : w.machine.positioning = .absolute) {t : Travel} (ht : s.hop.Fits t.z)
    (hneeds : t.needsHop w.machine = false) :
    Landed s start printed (w.writeAll (t.direct s.hop w.machine)) := by
  simp only [Travel.needsHop, Bool.or_eq_false_iff, decide_eq_false_iff_not] at hneeds
  obtain ⟨⟨-, hlevel⟩, -⟩ := hneeds
  have hle (hfits : start.Fits s.hop w.body.toList) :
      value w.machine.z - 1 / 2 ^ 18 ≤ value t.z :=
    le_of_not_lt_sub_tolerance (h.fits hfits).height ht.height hlevel
  by_cases hrises : w.machine.z ≤ t.z
  · rw [show t.direct s.hop w.machine = _ from if_pos hrises, writeAll_append]
    exact (h.rise hs hw ht.height hle _).slide _ t.x t.y
  · rw [show t.direct s.hop w.machine = _ from if_neg hrises, writeAll_append]
    obtain ⟨hmode, hsame⟩ := Travel.run_slide (s := s.hop) hw
      ((decide (tolerance < (w.machine.x - t.x).abs) ||
        decide (tolerance < (w.machine.y - t.y).abs)) = true) t.x t.y
    have hslid := h.slide ((decide (tolerance < (w.machine.x - t.x).abs) ||
      decide (tolerance < (w.machine.y - t.y).abs)) = true) t.x t.y
    generalize (if (decide (tolerance < (w.machine.x - t.x).abs) ||
      decide (tolerance < (w.machine.y - t.y).abs)) = true then
        [Travel.lateral s.hop t.x t.y] else []) = slide at hmode hsame hslid ⊢
    obtain ⟨hbody, hmachine, -⟩ := w.writeAll_spec slide
    rw [← hmachine] at hmode hsame
    refine hslid.rise hs hmode ht.height (fun hfits => ?_) _
    rw [hbody] at hfits
    rw [hsame]
    exact hle hfits.of_prefix

/-- A hop comes down at its end only. -/
theorem hop (h : Landed s start printed w) (hs : s.hop.Works)
    (hw : w.machine.positioning = .absolute) {t : Travel} (hceiling : t.ceiling = w.ceiling)
    (ht : s.hop.Fits t.z) (hadmits : Admits s printed w t) :
    Landed s start printed (w.writeAll (t.hop s.hop w.machine)) := by
  have hrisen : Landed s start printed
      (w.write (Travel.vertical s.hop (t.hopZ s.hop w.machine))) := by
    refine h.write fun hfits hdescends => absurd hdescends ?_
    rw [toList_body_write] at hfits
    obtain ⟨hfinite, hle, -⟩ := Travel.value_hopZ (h.fits hfits.of_prefix)
      (hceiling ▸ (h.bounded.capped hfits.of_prefix).ceiling) ht hs.height hs.nonneg
    exact Travel.not_descends_vertical hw hs.zFeedrate hfinite (by linarith)
  have hmode : (w.write (Travel.vertical s.hop (t.hopZ s.hop w.machine))).machine.positioning =
      .absolute := positioning_write hw (Travel.switches_vertical_ne s.hop _)
  have hfront : (w.write (Travel.vertical s.hop (t.hopZ s.hop w.machine))).body.toList.filter
      (fun c => c.line.isSome) = w.body.toList.filter (fun c => c.line.isSome) :=
    filter_line_write (Travel.line_vertical s.hop _) w
  change Landed s start printed (((w.write (Travel.vertical s.hop (t.hopZ s.hop w.machine))).write
    (Travel.lateral s.hop t.x t.y)).write (Travel.vertical s.hop t.z))
  generalize w.write (Travel.vertical s.hop (t.hopZ s.hop w.machine)) = risen
    at hrisen hmode hfront ⊢
  have hslid : Landed s start printed (risen.write (Travel.lateral s.hop t.x t.y)) :=
    hrisen.write_level (Travel.level_lateral s.hop t.x t.y)
  refine hslid.write fun _ _ => hadmits _ _ ?_ ?_ ?_
  · exact (filter_line_write (Travel.line_lateral s.hop t.x t.y) risen).trans hfront
  · rw [toList_body_write, List.getLast?_concat]
  · intro hspeed hfinite
    obtain ⟨hx, hy⟩ := Travel.within_lateral hmode hspeed hfinite.x hfinite.y
    rw [machine_write]
    generalize risen.machine.step (Travel.lateral s.hop t.x t.y) = slid at hx hy ⊢
    exact Point.near_vertical ⟨hx, hy⟩ s.hop t.z

theorem ensureAbsolute (h : Landed s start printed w) :
    Landed s start printed w.ensureAbsolute := by
  have hlevel : (Command.synthesized "G90").Level := Command.level_of_target (by decide)
  unfold Writer.ensureAbsolute
  split
  · exact h.write_level hlevel
  · exact h

theorem travel (h : Landed s start printed w) (hs : s.hop.Works) {t : Travel}
    (hceiling : t.ceiling = w.ceiling) (ht : s.hop.Fits t.z) (hadmits : Admits s printed w t) :
    Landed s start printed (w.travel s.hop t) := by
  have hlines : w.ensureAbsolute.body.toList.filter (fun c => c.line.isSome) =
      w.body.toList.filter (fun c => c.line.isSome) := by
    unfold Writer.ensureAbsolute
    split
    · exact filter_line_write rfl w
    · rfl
  have hthere : Admits s printed w.ensureAbsolute t := fun front low hfront =>
    hadmits front low (hfront.trans hlines)
  have hplan : Landed s start printed
      (w.ensureAbsolute.writeAll (t.plan s.hop w.ensureAbsolute.machine).commands) := by
    unfold Travel.plan
    rw [hs.enabled, Bool.true_and]
    split
    · exact h.ensureAbsolute.hop hs w.positioning_ensureAbsolute
        (hceiling.trans w.ceiling_ensureAbsolute.symm) ht hthere
    · rename_i hneeds
      exact h.ensureAbsolute.direct hs w.positioning_ensureAbsolute ht (by simpa using hneeds)
  exact hplan.of_eq rfl rfl rfl

theorem restore (h : Landed s start printed w) (target : Machine) :
    Landed s start printed (w.restore target) :=
  h.writeAll_level fun _ hc => Machine.level_of_mem_restoration hc

theorem change (h : Landed s start printed w) (source : Option Tool) {tool : Tool} {t : Nat}
    (htool : tool = t) (ht : t < 10) :
    Landed s start printed (w.change s.toolChange source tool) := by
  have hblock : Landed s start printed (w.ensureAbsolute.writeAll
      (s.toolChange.block source tool w.ensureAbsolute.ceiling)) :=
    h.ensureAbsolute.writeAll_level (s.toolChange.flavor.level_of_mem_render htool ht)
  exact hblock.of_eq rfl rfl rfl

theorem towerLayer (h : Landed p.settings start printed w) (hp : p.Clears) (tool : Tool)
    (index : Nat) : Landed p.settings start printed (w.towerLayer p tool index) := by
  apply towerLayer_induction h
  · intro layer hlayer
    exact h.travel hp.works rfl (hp.layers layer (Program.mem_layers_of_layer? hlayer))
      fun _ _ _ hlast _ => Or.inl ⟨tool, hlast⟩
  · intro v c hc hv
    exact hv.write_level hc.level
  · intro v n hv
    exact hv.of_eq rfl rfl rfl

theorem catchUp (h : Landed p.settings start printed w) (hp : p.Clears) (index : Nat) :
    Landed p.settings start printed (w.catchUp p index) := by
  unfold Writer.catchUp
  split
  · split
    · rename_i tool _
      have hmarked : Landed p.settings start printed
          { w with progress := w.progress.catchUp tool index } := h.of_eq rfl rfl rfl
      exact List.foldlRecOn _ _ hmarked fun w hw j _ => hw.towerLayer hp tool j
    · exact h
  · exact h

theorem mark (h : Landed s start printed w) (p : BodyPlan) (layer : Layer) :
    Landed s start printed (w.mark p layer) := by
  have hcounted : Landed s start printed
      { w with counts := { w.counts with visits := w.counts.visits + 1 } } := h.of_eq rfl rfl rfl
  apply hcounted.writeAll_level
  intro c hc
  simp only [List.mem_cons, List.not_mem_nil, or_false] at hc
  rcases hc with rfl | rfl
  · exact Command.level_commentLine _
  · exact Command.level_commentLine _

theorem enter (h : Landed p.settings start printed w) (hp : p.Clears) {layer : Layer}
    (hlayer : layer ∈ p.program.layers) {first : Segment} (hfirst : first ∈ p.program.segments)
    {rest : List Segment} (hprinted : done ++ first :: rest <+: printed)
    (hlines : w.body.toList.filter (fun c => c.line.isSome) = done.flatMap Segment.kept) :
    Landed p.settings start printed
      (w.enter p layer first ((first :: rest).flatMap Segment.commands)) := by
  rw [enter_eq]
  refine (h.travel hp.works rfl ((hp.entries first hfirst).greater (hp.layers layer hlayer))
    fun front low hfront _ hlands => ?_).restore first.entry
  exact Or.inr ⟨done, first, rest, hprinted, hfront.trans hlines, hlands⟩

theorem lift (h : Landed p.settings start printed w) (hs : p.settings.hop.Works) :
    Landed p.settings start printed (w.writeAll (w.lift p)) := by
  unfold Writer.lift
  split
  · rename_i hlow
    refine h.write fun hfits hdescends => absurd hdescends ?_
    have hfront := hfits
    rw [toList_body_write] at hfront
    obtain ⟨⟨hceiling, hraised⟩, hpos, -⟩ := h.bounded.capped hfront.of_prefix
    have hz := (h.fits hfront.of_prefix).height
    have hle := value_le_add hceiling hs.height hs.nonneg hraised
    cases hmode : w.machine.positioning with
    | absolute =>
        refine Travel.not_descends_vertical hmode hs.zFeedrate hraised ?_
        have hbelow : value w.machine.z < value w.ceiling := by
          by_contra habove
          refine (le_iff_not_lt.mp ?_).2.2 hlow
          exact sub_le_of_sub_le (le_refl_float (isNaN_of_isFinite hceiling)) hceiling hz
            tolerance_lt.1 (by linarith [show 0 ≤ value tolerance by decide +kernel])
        linarith
    | relative =>
        refine Travel.not_descends_vertical_relative hmode hs.zFeedrate hraised (by linarith) hz ?_
        have hlast := (hfront _ List.prefix_rfl).height
        rw [Machine.run_append, ← h.bounded.machine, Machine.run_cons, Machine.run_nil] at hlast
        exact hlast
  · exact h

theorem finish (h : Landed p.settings start printed w) (hs : p.settings.hop.Works) :
    Landed p.settings start printed (w.finish p) := by
  rw [finish_eq]
  exact (h.lift hs).restore p.program.exit

end Landed

/-- A writer that has landed and written what is kept of segments. -/
structure Printed (s : Settings) (start : Machine) (printed : List Segment) (w : Writer) : Prop
    extends Landed s start printed w where
  lines : w.body.toList.filter (fun c => c.line.isSome) = printed.flatMap Segment.kept

theorem Emits.lines {own : List Command} {selects : List Tool} {changes : Nat}
    (h : Emits w own selects changes next) :
    next.body.toList.filter (fun c => c.line.isSome) =
      w.body.toList.filter (fun c => c.line.isSome) ++ own := by
  obtain ⟨added, hbody, -, hown, -⟩ := h.commands
  rw [hbody, List.filter_append, hown]

namespace Printed

theorem quiet {selects : List Tool} {changes : Nat} (h : Printed s start printed w)
    (hlanded : Landed s start printed next) (hemits : Emits w [] selects changes next) :
    Printed s start printed next where
  toLanded := hlanded
  lines := by rw [hemits.lines, List.append_nil, h.lines]

theorem run (h : Printed p.settings start done w) (hp : p.Clears) {layer : Layer}
    (hlayer : layer ∈ p.program.layers) {run : List Segment}
    (hrun : ∀ s ∈ run, s ∈ p.program.segments ∧ s.Scanned) :
    Printed p.settings start (done ++ run) (w.run p layer run) where
  toLanded := by
    cases run with
    | nil =>
        rw [List.append_nil]
        exact h.toLanded
    | cons first rest =>
        refine ((h.toLanded.append (first :: rest)).enter hp hlayer
          (hrun first List.mem_cons_self).1 List.prefix_rfl h.lines).writeAll_level ?_
        intro c hc
        obtain ⟨s, hs, hc⟩ := List.mem_flatMap.mp (List.mem_of_mem_filter hc)
        exact Or.inl ((hrun s hs).2 c hc).1
  lines := by
    rw [(w.emits_run p layer fun s hs => (hrun s hs).2).lines, h.lines, List.flatMap_append]

theorem runs (h : Printed p.settings start done w) (hp : p.Clears) {layer : Layer}
    (hlayer : layer ∈ p.program.layers) {runs : List (List Segment)}
    (hruns : ∀ s ∈ runs.flatten, s ∈ p.program.segments ∧ s.Scanned) :
    Printed p.settings start (done ++ runs.flatten)
      (runs.foldl (fun w run => w.run p layer run) w) := by
  induction runs generalizing done w with
  | nil =>
      rw [List.flatten_nil, List.append_nil]
      exact h
  | cons run runs ih =>
      rw [List.flatten_cons, List.forall_mem_append] at hruns
      rw [List.flatten_cons, ← List.append_assoc]
      exact ih (h.run hp hlayer hruns.1) hruns.2

theorem visit (h : Printed p.settings start done w) (hp : p.Clears) {v : Visit}
    (hlayer : v.layer ∈ p.program.layers)
    (hsegments : ∀ s ∈ v.segments, s ∈ p.program.segments ∧ s.Scanned)
    {due : Option (Option Tool × Tool)} (hdue : ∀ change ∈ due, ∃ t : Nat, change.2 = t ∧ t < 10) :
    Printed p.settings start (done ++ v.segments) (w.visit p due v) := by
  have hmarked : Printed p.settings start done (w.mark p v.layer) :=
    h.quiet (h.toLanded.mark p v.layer) (w.emits_mark p v.layer)
  have hrest {w : Writer} (h : Printed p.settings start done w) :
      Printed p.settings start (done ++ v.segments)
        { v.runs.foldl (fun w run => w.run p v.layer run) (w.catchUp p v.layer.index) with
          lastLayer := some v.layer.index } := by
    have hcaught : Printed p.settings start done (w.catchUp p v.layer.index) :=
      h.quiet (h.toLanded.catchUp hp v.layer.index) (w.emits_catchUp p v.layer.index)
    rw [← v.flatten_runs] at hsegments ⊢
    have hruns := hcaught.runs hp hlayer hsegments
    exact ⟨hruns.toLanded.of_eq rfl rfl rfl, hruns.lines⟩
  cases due with
  | none => exact hrest hmarked
  | some change =>
      obtain ⟨t, htool, ht⟩ := hdue change rfl
      exact hrest (hmarked.quiet (hmarked.toLanded.change change.1 htool ht)
        (emits_change _ p.settings.toolChange change.1 change.2))

end Printed

theorem printed_start (start : Machine) (hheight : s.hop.height.isFinite = true) :
    Printed s start [] { machine := start } where
  bounded := ⟨rfl, fun _ => capped_start start hheight⟩
  lands := by
    intro _ front c hprefix
    simp at hprefix
  lines := rfl

end Writer

/-- Where the nozzle comes down in the body of a schedule: behind a sideways move to a tower, or
where a run is entered, with the segments in front of the run printed. -/
theorem Program.exists_comesDown (text : String) {settings : Settings}
    (hworks : settings.hop.Works) (hlayers : ∀ l ∈ (ofText text).layers, settings.hop.Fits l.z)
    (hentries : ∀ s ∈ (ofText text).segments, settings.hop.Fits s.entry.z) :
    let p := ofText text
    ∃ body, p.synthesize (p.schedule settings) settings = .ok body ∧
      (p.preambleState.Fits settings.hop body.commands →
        ∀ front c, front ++ [c] <+: body.commands → (p.preambleState.run front).Descends c →
          settings.ComesDown ((p.schedule settings).members.filterMap p.segment?) front
            (p.preambleState.run (front ++ [c]))) := by
  intro p
  obtain ⟨jobs, hjobs, -, hsegments, -, -, hdigits⟩ := exists_schedule_jobs text settings
  obtain ⟨context, hcontext⟩ : ∃ context : BodyPlan, context =
      { program := p, settings, total := (p.schedule settings).visitCount } := ⟨_, rfl⟩
  have hsettings : context.settings = settings := by rw [hcontext]
  have hclears : context.Clears := by
    rw [hcontext]
    exact ⟨hworks, hlayers, hentries, fun s hs c hc => (scanned_of_mem_segments text hs c hc).1⟩
  have hstart := Writer.printed_start (s := settings) p.preambleState hworks.height
  obtain ⟨w, body, hw, hbody, hcommands, -⟩ := synthesize_induction hjobs hcontext
    (motive := fun visits => Writer.Printed settings p.preambleState
      (visits.flatMap Visit.segments)) hstart fun done w due j hj hdue v hv hw => by
        obtain ⟨hlayer, hmem⟩ := mem_of_resolve hjobs hj hv
        rw [List.flatMap_append, List.flatMap_singleton]
        rw [← hsettings] at hw ⊢
        refine hw.visit hclears (by rwa [hcontext]) (fun s hs => ?_) fun change hchange => ?_
        · rw [hcontext]
          exact ⟨hmem s hs, scanned_of_mem_segments text (hmem s hs)⟩
        · exact ⟨change.2, rfl, hdigits j hj _ (hdue change hchange)⟩
  have hplanned : (jobs.flatMap Job.visits).flatMap Visit.segments =
      (p.schedule settings).members.filterMap p.segment? := by
    rw [Plan.members, List.filterMap_flatMap, List.flatMap_def (l := Plan.batches _), ← hsegments,
      ← List.flatMap_def, List.flatMap_assoc]
    rfl
  refine ⟨body, hbody, ?_⟩
  rw [hplanned, ← hsettings] at hw
  have hlanded := hw.toLanded.finish (p := context) (hsettings ▸ hworks)
  rw [hsettings] at hlanded
  rw [hcommands]
  exact hlanded.lands

end ToolBatching
