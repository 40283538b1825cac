import ToolBatching.Proofs.Number.Comparing
import ToolBatching.Proofs.Validation
import ToolBatching.Proofs.Writing.Anchored
import ToolBatching.Proofs.Writing.FiniteWords
import ToolBatching.Proofs.Writing.Runs

namespace ToolBatching

open Number

theorem Move.f_build {m : Move} (h : m.Finite) (hcomment : m.comment = none) :
    m.build.f = readBack 0 m.f := by
  have hscan := scan_build h hcomment
  simp [build, Command.synthesized, Command.ofText, hscan, fields, addressed_append,
    addressed_field]

theorem Command.isMotion_extruder (e : Float) : (extruder e).isMotion = false := by
  have hcode {code : String} (h : excludes code "G92 E" = true) :
      (extruder e).mnemonic ≠ code := mnemonic_ofText_ne none h _
  simp only [isMotion, Bool.or_eq_false_iff, beq_eq_false_iff_ne]
  exact ⟨⟨⟨hcode (by decide), hcode (by decide)⟩, hcode (by decide)⟩, hcode (by decide)⟩

namespace Machine

variable {m target : Machine} {c : Command}

/-- A state in which the end sequence of a text runs as behind its layers, but for the tool
and the place of the nozzle. -/
structure Resumes (m target : Machine) : Prop where
  positioning : m.positioning = target.positioning
  extrusion : m.extrusion = target.extrusion
  feedrate : ∀ f ∈ target.feedrate, f.isFinite = true →
    ∃ r, m.feedrate = some r ∧ Within (1 / 2) r f
  extruder : target.extrusion = .absolute → target.e.isFinite = true →
    Within (1 / 10 ^ 5) m.e target.e

theorem step_of_isMotion (htool : c.tool = none) (hmotion : c.isMotion = true) (m : Machine) :
    m.step c = m.move c := by
  obtain ⟨t, hsome, -⟩ | ⟨-, hcases⟩ := m.step_cases c
  · rw [htool] at hsome
    exact absurd hsome (by simp)
  · rcases hcases with ⟨hcode, -⟩ | ⟨hcode, -⟩ | ⟨hcode, -⟩ | ⟨hcode, -⟩ | ⟨hcode, -⟩ |
      ⟨hcode, -⟩ | ⟨-, heq⟩
    all_goals try simp [Command.isMotion, hcode] at hmotion
    rw [heq, if_pos hmotion]

theorem feedrate_step (h : c.isMotion = false) (m : Machine) :
    (m.step c).feedrate = m.feedrate := by
  obtain ⟨t, -, heq⟩ | ⟨-, hcases⟩ := m.step_cases c
  · rw [heq]
  · rcases hcases with ⟨-, heq⟩ | ⟨-, heq⟩ | ⟨-, heq⟩ | ⟨-, heq⟩ | ⟨-, heq⟩ | ⟨-, heq⟩ | ⟨-, heq⟩
    · rw [heq]
    · rw [heq]
    · rw [heq]
    · rw [heq]
    · rw [heq, setPosition]
      split <;> rfl
    · rw [heq]
      rfl
    · rw [heq, h]
      rfl

theorem feedrate_run {cs : List Command} (h : ∀ c ∈ cs, c.isMotion = false) :
    (m.run cs).feedrate = m.feedrate := by
  induction cs generalizing m with
  | nil => rfl
  | cons c cs ih =>
      rw [List.forall_mem_cons] at h
      rw [run_cons, ih h.2, feedrate_step h.1]

theorem isMotion_of_mem_restoration (h : c ∈ m.restorePositioning target ++
    m.restoreExtrusion target ++ m.restorePosition target) : c.isMotion = false := by
  rcases List.mem_append.mp h with h | h
  · rcases List.mem_append.mp h with h | h
    · rw [mem_restorePositioning h]
      cases target.positioning <;> decide
    · rw [mem_restoreExtrusion h]
      cases target.extrusion <;> decide
  · rw [mem_restorePosition h]
    exact Command.isMotion_extruder target.e

/-- Behind the corrections the speed is that of the target or rounded to a whole number. -/
theorem feedrate_restoration {f : Float} (htarget : target.feedrate = some f)
    (hfinite : f.isFinite = true) :
    ∃ r, (m.run (m.restoration target)).feedrate = some r ∧ r.isFinite = true ∧
      (value r = value f ∨ ∃ n : ℤ, value r = n ∧ RoundsToWhole (value f) n) := by
  have hsame : (m.run (m.restorePositioning target ++ m.restoreExtrusion target ++
      m.restorePosition target)).feedrate = m.feedrate :=
    feedrate_run fun _ hc => isMotion_of_mem_restoration hc
  rw [restoration, run_append]
  generalize m.run (m.restorePositioning target ++ m.restoreExtrusion target ++
    m.restorePosition target) = n at hsame ⊢
  rw [restoreFeedrate, htarget]
  simp only
  split
  · rename_i hequal
    cases hspeed : m.feedrate with
    | none =>
        rw [hspeed] at hequal
        exact absurd hequal (by simp)
    | some r =>
        rw [hspeed] at hequal
        obtain ⟨hr, hvalue⟩ := value_eq_of_beq hequal hfinite
        exact ⟨r, hsame.trans hspeed, hr, Or.inl hvalue⟩
  · have hmove : Move.Finite { f := some f } :=
      ⟨by simp, by simp, by simp, by simp, by simpa using hfinite⟩
    have hmotion : (Move.build { f := some f }).isMotion = true := by
      rw [Command.isMotion, Move.mnemonic_build hmove rfl]
      rfl
    obtain ⟨r, hread, hr, hrounded⟩ := read_rounded hfinite
    refine ⟨r, ?_, hr, Or.inr hrounded⟩
    rw [run_cons, run_nil, step_of_isMotion (Move.quiet_build _).tool hmotion, move,
      Move.f_build hmove rfl, Move.readBack, Option.bind_some, hread]
    rfl

theorem positioning_restorePositioning (m target : Machine) :
    (m.run (m.restorePositioning target)).positioning = target.positioning := by
  have hswitches (mode : Mode) :
      (Command.synthesized (positioningCode mode)).switches .x = some mode := by
    cases mode <;> decide
  unfold restorePositioning
  split
  · rename_i hsame
    exact hsame
  · have hmode := mode_step m (.synthesized (positioningCode target.positioning)) .x
    rw [hswitches, Option.getD_some] at hmode
    exact hmode

theorem positioning_restoration (m target : Machine) :
    (m.run (m.restoration target)).positioning = target.positioning := by
  have hswitches (mode : Mode) :
      (Command.synthesized (extrusionCode mode)).switches .x = none := by
    cases mode <;> decide
  rw [← positioning_restorePositioning m target, restoration, List.append_assoc, List.append_assoc,
    run_append]
  apply mode_run_eq_self (a := .x)
  intro c hc
  rcases List.mem_append.mp hc with hc | hc
  · rw [mem_restoreExtrusion hc]
    exact hswitches target.extrusion
  · rcases List.mem_append.mp hc with hc | hc
    · rw [mem_restorePosition hc]
      exact Command.switches_extruder target.e .x
    · obtain ⟨f, rfl⟩ := mem_restoreFeedrate hc
      exact Move.switches_build _ .x

theorem resumes_restoration (hnumber : (m.run (m.restoration target)).e.isNaN = false) :
    (m.run (m.restoration target)).Resumes target where
  positioning := positioning_restoration m target
  extrusion := mode_restoration m target
  feedrate f htarget hfinite := by
    obtain ⟨r, hr, hrfinite, hvalue | ⟨n, hvalue, hrounded⟩⟩ :=
      feedrate_restoration (m := m) htarget hfinite
    · refine ⟨r, hr, hrfinite, hfinite, ?_⟩
      rw [hvalue, sub_self, abs_zero]
      norm_num
    · exact ⟨r, hr, hrfinite, hfinite, hvalue ▸ hrounded.close⟩
  extruder htarget hfinite := within_restoration htarget hfinite hnumber

theorem prints_restoration (h : c ∈ m.restoration target) (n : Machine) : n.prints c = false := by
  rcases List.mem_append.mp h with h | h
  · simp [prints, isMotion_of_mem_restoration h]
  · obtain ⟨f, rfl⟩ := mem_restoreFeedrate h
    have hword : (Move.build { f := some f }).e = none :=
      Move.along_build_eq_none (a := .e) rfl rfl
    apply prints_eq_false_of_extruded_eq_zero
    simp [extruded, hword]

end Machine

theorem Travel.places_vertical {s : HopSettings} (hs : s.zFeedrate.isFinite = true) {z : Float}
    (hz : z.isFinite = true) : (vertical s z).places = true := by
  have hmove : Move.Finite { z := some z, f := some s.zFeedrate } :=
    ⟨by simp, by simp, by simpa using hz, by simp, by simpa using hs⟩
  have hcode : (vertical s z).mnemonic = "G1" := Move.mnemonic_build hmove rfl
  have hword : (vertical s z).along .z = Move.readBack axisPlaces (some z) :=
    Move.along_build hmove rfl .z
  obtain ⟨r, hread, -⟩ := Move.exists_readBack .z hz
  have hsome : (vertical s z).z = some r := hword.trans hread
  simp [Command.places, Command.isMotion, hcode, hsome]

namespace Writer

variable {s : HopSettings} {start : Machine} {w : Writer} {p : BodyPlan}

/-- The body leads to the state of the writer, and the ceiling is above its print moves as
long as its heights fit. -/
structure Bounded (s : HopSettings) (start : Machine) (w : Writer) : Prop where
  machine : w.machine = start.run w.body.toList
  capped : start.Fits s w.body.toList → Capped s start w

theorem keptByWrites_bounded (s : HopSettings) (start : Machine) :
    KeptByWrites (Bounded s start) where
  write w c h := by
    refine ⟨?_, fun hfits => ?_⟩
    · rw [toList_body_write, Machine.run_append, ← h.machine]
      rfl
    · have hfront := hfits
      rw [toList_body_write] at hfront
      exact (h.capped hfront.of_prefix).write h.machine hfits
  of_eq w next h hbody hmachine hceiling := by
    refine ⟨by rw [hbody, hmachine, h.machine], fun hfits => ?_⟩
    rw [hbody] at hfits
    obtain ⟨hceil, hnonneg, hdeposits⟩ := h.capped hfits
    exact ⟨hceiling ▸ hceil, hceiling ▸ hnonneg, by rwa [hbody, hceiling]⟩

theorem ceiling_restore (w : Writer) (target : Machine) : (w.restore target).ceiling = w.ceiling :=
  List.foldlRecOn (motive := fun v => v.ceiling = w.ceiling) _ Writer.write rfl fun _ hv _ hc =>
    (ceiling_write (Machine.prints_restoration hc _)).trans hv

theorem Bounded.height_lift (h : Bounded p.settings.hop start w)
    (hfits : start.Fits p.settings.hop w.body.toList)
    (hheight : p.settings.hop.height.isFinite = true) (hnonneg : 0 ≤ value p.settings.hop.height)
    (hspeed : p.settings.hop.zFeedrate.isFinite = true)
    (hplaces : start.PlacesAbsolute (w.body.toList ++ w.lift p)) :
    value (w.writeAll (w.lift p)).ceiling - 1 / 1000 ≤
      value (w.writeAll (w.lift p)).machine.z := by
  obtain ⟨⟨hceiling, hraised⟩, hpos, -⟩ := h.capped hfits
  unfold lift at hplaces ⊢
  split
  · rename_i hlow
    rw [if_pos hlow] at hplaces
    have hpositioning : w.machine.positioning = .absolute := by
      rw [h.machine]
      exact hplaces _ _ List.prefix_rfl rfl (Travel.places_vertical hspeed hraised)
    have hle := value_le_add hceiling hheight hnonneg hraised
    exact (aloft_vertical (s := p.settings) hpositioning hceiling hpos hspeed hraised
      (by linarith)).height
  · rename_i hhigh
    have hz : w.machine.z.isFinite = true := by
      rw [h.machine]
      exact (hfits _ List.prefix_rfl).height
    have hle := le_of_not_lt_sub_tolerance hceiling hz hhigh
    change value w.ceiling - 1 / 1000 ≤ value w.machine.z
    norm_num at hle ⊢
    linarith

theorem machine_finish (w : Writer) (p : BodyPlan) :
    (w.finish p).machine = (w.writeAll (w.lift p)).machine.run
      ((w.writeAll (w.lift p)).machine.restoration p.program.exit) := by
  rw [finish_eq, restore, (writeAll_spec _ _).2.1]

theorem Bounded.finished (h : Bounded s start w) : Bounded s start (w.finish p) := by
  have hkept := keptByWrites_bounded s start
  rw [finish_eq]
  exact hkept.writeAll (hkept.writeAll h _) _

theorem Bounded.height_finish (h : Bounded p.settings.hop start w)
    (hfits : start.Fits p.settings.hop (w.finish p).body.toList)
    (hraise : p.settings.hop.height.isFinite = true) (hnonneg : 0 ≤ value p.settings.hop.height)
    (hspeed : p.settings.hop.zFeedrate.isFinite = true)
    (hplaces : start.PlacesAbsolute (w.finish p).body.toList) {z : Float}
    (hz : start.Deposits (w.finish p).body.toList z) :
    value z - 1 / 1000 ≤ value (w.finish p).machine.z := by
  have hbelow := (h.finished.capped hfits).deposits z hz
  have hheight : (w.finish p).machine.z = (w.writeAll (w.lift p)).machine.z := by
    rw [machine_finish]
    exact Machine.along_restoration (a := .z) _ _ (by decide)
  rw [finish_eq, ceiling_restore] at hbelow
  rw [toList_body_finish, closing, ← List.append_assoc] at hfits hplaces
  have hlift := h.height_lift hfits.of_prefix.of_prefix hraise hnonneg hspeed hplaces.of_prefix
  rw [hheight]
  linarith

end Writer

namespace Program

variable {p : Program}

theorem Read.isNaN_preamble {lines : List Command} (h : Read lines p)
    (hfinite : ∀ c ∈ lines, ∀ v ∈ c.along .e, v.isFinite = true) :
    p.preambleState.e.isNaN = false := by
  have hzero : (({} : Machine).along .e).isNaN = false := by decide +kernel
  rw [h.preambleState]
  apply Machine.isNaN_along_run (a := .e) hzero
  intro c hc
  apply hfinite c
  rw [← h.commands, Program.commands]
  exact List.mem_append_left _ (List.mem_append_left _ hc)

theorem Read.isNaN_run {lines : List Command} (h : Read lines p)
    (hfinite : ∀ c ∈ lines, ∀ v ∈ c.along .e, v.isFinite = true) {plan : Plan}
    {settings : Settings} {body : Body} (hbody : p.synthesize plan settings = .ok body) :
    (p.preambleState.run body.commands).e.isNaN = false := by
  apply Machine.isNaN_along_run (a := .e) (h.isNaN_preamble hfinite)
  intro c hc
  apply (h.composes hbody c hc).isFinite_e
  intro d hd
  apply hfinite d
  rw [← h.commands, Program.commands]
  exact List.mem_append_left _ (List.mem_append_right _ hd)

theorem tool_schedule (text : String) (settings : Settings) :
    let p := ofText text
    ∃ body, p.synthesize (p.schedule settings) settings = .ok body ∧
      (p.preambleState.run body.commands).tool =
        ((p.schedule settings).batches.filterMap Batch.tool).getLast?.or p.preambleState.tool := by
  intro p
  obtain ⟨jobs, hjobs, htools, -, hscanned, hvisits, hdigits⟩ := exists_schedule_jobs text settings
  have hemits := Writer.emits_jobs_switches { machine := p.preambleState } (p.bodyPlan settings)
    hscanned hvisits hdigits
  obtain ⟨body, hbody, -, hselects, -⟩ := synthesize_eq_ok hjobs settings hemits
  refine ⟨body, hbody, ?_⟩
  rw [Machine.tool_run, hselects, filterMap_eq_of_map_eq htools]
  exact Writer.getLast?_switches_or _ _

theorem exists_bounded {p : Program} {plan : Plan} {jobs : List Job}
    (hjobs : p.resolve plan = .ok jobs) {settings : Settings}
    (hheight : settings.hop.height.isFinite = true) {context : BodyPlan}
    (hcontext : context = { program := p, settings, total := plan.visitCount }) :
    ∃ w body, Writer.Bounded settings.hop p.preambleState w ∧
      p.synthesize plan settings = .ok body ∧
      body.commands = (w.finish context).body.toList := by
  have hkept := Writer.keptByWrites_bounded settings.hop p.preambleState
  have hstart : Writer.Bounded settings.hop p.preambleState { machine := p.preambleState } :=
    ⟨rfl, fun _ => Writer.capped_start p.preambleState hheight⟩
  obtain ⟨w, body, hw, hbody, hcommands, -⟩ := synthesize_induction hjobs hcontext
    (motive := fun _ => Writer.Bounded settings.hop p.preambleState) hstart
    fun _ w due _ _ _ v _ hw => hkept.visit hw context due v
  exact ⟨w, body, hw, hbody, hcommands⟩

/-- The body of a schedule ends in a state in which the end sequence runs as behind the
layers: with the modes, the speed and the extruder position of their end, and with the
nozzle above the print, as long as no height overflows and the lift is read as absolute.
Only the tool is that of the last batch. -/
theorem body_resumes_exit (text : String) {settings : Settings}
    (hvalid : settings.validate = .ok ())
    (hfinite : ∀ c ∈ readCommands text, ∀ v ∈ c.along .e, v.isFinite = true) :
    let p := ofText text
    ∃ body, p.synthesize (p.schedule settings) settings = .ok body ∧
      (p.preambleState.run body.commands).Resumes p.exit ∧
      (p.preambleState.run body.commands).tool =
        ((p.schedule settings).batches.filterMap Batch.tool).getLast?.or p.preambleState.tool ∧
      (settings.hop.zFeedrate.isFinite = true →
        p.preambleState.Fits settings.hop body.commands →
        p.preambleState.PlacesAbsolute body.commands →
        ∀ z, p.preambleState.Deposits body.commands z →
          value z - 1 / 1000 ≤ value (p.preambleState.run body.commands).z) := by
  intro p
  obtain ⟨jobs, hjobs, -⟩ := exists_schedule_jobs text settings
  obtain ⟨hheight, hnonneg⟩ := HopSettings.height_of_validate hvalid
  obtain ⟨context, hcontext⟩ : ∃ context : BodyPlan,
      context = { program := p, settings, total := (p.schedule settings).visitCount } := ⟨_, rfl⟩
  have hhop : settings.hop = context.settings.hop := by rw [hcontext]
  have hexit : p.exit = context.program.exit := by rw [hcontext]
  obtain ⟨w, body, hw, hbody, hcommands⟩ := exists_bounded hjobs hheight hcontext
  obtain ⟨body', hbody', htool⟩ := tool_schedule text settings
  obtain rfl := Except.ok.inj (hbody.symm.trans hbody')
  have hrun : p.preambleState.run body.commands = (w.finish context).machine := by
    rw [hcommands]
    exact hw.finished.machine.symm
  have hnumber := (read_ofText text).isNaN_run hfinite hbody
  refine ⟨body, hbody, ?_, htool, ?_⟩
  · rw [hrun, Writer.machine_finish] at hnumber
    rw [hrun, hexit, Writer.machine_finish]
    exact Machine.resumes_restoration hnumber
  · intro hspeed hfits hplaces z hz
    rw [hcommands] at hfits hplaces hz
    rw [hhop] at hw hheight hnonneg hspeed hfits
    rw [hrun]
    exact hw.height_finish hfits hheight hnonneg hspeed hplaces hz

/-- A body whose last line reads E as relative, below the highest print. -/
theorem body_resumes_exit_lower_last :
    let text := "; layer num/total_layer_count: 1/2\nM83\nG1 X1 Z0.2 E1 F1200\n" ++
      "; layer num/total_layer_count: 2/2\nM82\nG92 E0\nG1 X9 Z0.4 E2 F900\nG1 Z0.2\n"
    let p := ofText text
    let settings : Settings := {}
    ∃ body, p.synthesize (p.schedule settings) settings = .ok body ∧
      (p.preambleState.run body.commands).Resumes p.exit ∧
      (p.preambleState.run body.commands).tool = none ∧
      ∀ z, p.preambleState.Deposits body.commands z →
        value z - 1 / 1000 ≤ value (p.preambleState.run body.commands).z := by
  intro text p settings
  have hvalid : settings.validate = .ok () := by decide +kernel
  have hfinite : ∀ c ∈ readCommands text, ∀ v ∈ c.along .e, v.isFinite = true := by decide +kernel
  obtain ⟨hbatches, hspeed, hfits⟩ :
      ((p.schedule settings).batches.filterMap Batch.tool).getLast?.or p.preambleState.tool = none ∧
      settings.hop.zFeedrate.isFinite = true ∧
      ∀ body ∈ (p.synthesize (p.schedule settings) settings).toOption,
        p.preambleState.Fits settings.hop body.commands ∧
          p.preambleState.PlacesAbsolute body.commands := by
    decide +kernel
  obtain ⟨body, hbody, hresumes, htool, hheight⟩ := body_resumes_exit text hvalid hfinite
  have hmember : body ∈ (p.synthesize (p.schedule settings) settings).toOption := by
    rw [hbody]
    rfl
  refine ⟨body, hbody, hresumes, htool.trans hbatches, ?_⟩
  exact hheight hspeed (hfits body hmember).1 (hfits body hmember).2

/-- A text that ends with the first of two tools is printed with the second one last, and the
end sequence is left to run with it. -/
theorem body_ends_with_other_tool :
    let text := "; layer num/total_layer_count: 1/2\nT0\nG1 X0 Z0.2 E1\nT1\nG1 X50 E2\n" ++
      "; layer num/total_layer_count: 2/2\nT0\nG1 X0 Z0.4 E3\n"
    let p := ofText text
    let settings : Settings :=
      { toolChange := { flavor := .generic }, primeTower := { enabled := false } }
    settings.validate = .ok () ∧
      (∀ c ∈ readCommands text, ∀ a ∈ [Axis.x, .y, .z, .e], ∀ v ∈ c.along a, v.isFinite = true) ∧
      ∃ body, p.synthesize (p.schedule settings) settings = .ok body ∧
        (p.preambleState.run body.commands).tool = some 1 ∧ p.exit.tool = some 0 := by
  intro text p settings
  have hbody : settings.validate = .ok () ∧
      (∀ c ∈ readCommands text, ∀ a ∈ [Axis.x, .y, .z, .e], ∀ v ∈ c.along a, v.isFinite = true) ∧
      ∃ body ∈ (p.synthesize (p.schedule settings) settings).toOption,
        (p.preambleState.run body.commands).tool = some 1 ∧ p.exit.tool = some 0 := by
    decide +kernel
  obtain ⟨hvalid, hfinite, body, hbody, htools⟩ := hbody
  exact ⟨hvalid, hfinite, body, eq_ok_of_mem_toOption hbody, htools⟩

end Program

end ToolBatching
