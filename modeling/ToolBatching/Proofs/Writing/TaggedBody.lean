import ToolBatching.Proofs.Reading.Tags
import ToolBatching.Proofs.Writing.MarkerRoundTrip
import ToolBatching.Proofs.Writing.Nested
import ToolBatching.Proofs.Writing.Output
import ToolBatching.Proofs.Writing.Stages

namespace ToolBatching

namespace Nesting

variable {n next : Nesting}

theorem opensBehind_of_step {c : Command} (h : n.step (Marker.ofCommand c) = some next) :
    c.opensBehind n.sequence = next.sequence := by
  unfold Command.opensBehind
  generalize Marker.ofCommand c = marker at h ⊢
  unfold step at h
  split at h
  · obtain ⟨-, hnext⟩ := Option.mem_ite_none_left.mp h
    rw [← Option.some.inj hnext]
  · obtain ⟨-, hnext⟩ := Option.mem_ite_none_right.mp h
    rw [← Option.some.inj hnext]
  · obtain rfl := Option.some.inj h
    rfl
  · obtain ⟨-, hnext⟩ := Option.mem_ite_none_right.mp h
    rw [← Option.some.inj hnext]
  · rename_i hopen hclose _ _
    obtain rfl := Option.some.inj h
    split
    · exact absurd rfl (hopen _)
    · exact absurd rfl hclose
    · rfl

theorem foldl_opensBehind {cs : List Command} (h : n.read cs = some next) :
    cs.foldl Command.opensBehind n.sequence = next.sequence := by
  induction cs generalizing n with
  | nil =>
      obtain rfl := Option.some.inj h
      rfl
  | cons c cs ih =>
      rw [read_cons] at h
      obtain ⟨between, hstep, hread⟩ := Option.bind_eq_some_iff.mp h
      rw [List.foldl_cons, opensBehind_of_step hstep, ih hread]

end Nesting

namespace Command

variable {cs : List Command}

theorem opensBehind_of_isCalm {c : Command} (h : Nesting.isCalm (Marker.ofCommand c) = true)
    (opened : Bool) :
    c.opensBehind opened = opened ∧ c.belongs opened = (opened || c.tool.isSome) := by
  unfold opensBehind belongs
  generalize Marker.ofCommand c = marker at h
  cases marker with
  | none => exact ⟨rfl, rfl⟩
  | some marker =>
      cases marker <;> first | exact ⟨rfl, rfl⟩ | exact absurd h (by simp [Nesting.isCalm])

theorem tagsOf_of_isCalm (h : ∀ c ∈ cs, Nesting.isCalm (Marker.ofCommand c) = true) :
    tagsOf false cs = cs.map fun c => c.tool.isSome := by
  induction cs with
  | nil => rfl
  | cons c cs ih =>
      obtain ⟨hc, hcs⟩ := List.forall_mem_cons.mp h
      obtain ⟨hbehind, hbelongs⟩ := opensBehind_of_isCalm hc false
      rw [tagsOf, hbehind, hbelongs, ih hcs, Bool.false_or, List.map_cons]

theorem closed_of_isCalm (h : ∀ c ∈ cs, Nesting.isCalm (Marker.ofCommand c) = true ∧
    c.inToolChange = c.tool.isSome) : Closed cs := by
  refine closed_of_forall fun c hc => ?_
  obtain ⟨hcalm, htag⟩ := h c hc
  obtain ⟨hbehind, hbelongs⟩ := opensBehind_of_isCalm hcalm false
  exact ⟨hbelongs.trans htag.symm, hbehind⟩

theorem closed_of_untagged (h : ∀ c ∈ cs, c.inToolChange = false ∧ c.tool = none ∧
    ∀ slot, Marker.ofCommand c ≠ some (.toolChangeOpen slot)) : Closed cs := by
  refine closed_of_forall fun c hc => ?_
  obtain ⟨htag, htool, hopener⟩ := h c hc
  unfold belongs opensBehind
  rw [htag, htool]
  split
  · rename_i slot hmarker
    exact absurd hmarker (hopener slot)
  · refine ⟨rfl, ?_⟩
    split
    · rename_i slot hmarker
      exact absurd hmarker (hopener slot)
    · rfl
    · rfl

end Command

namespace Flavor

open Command

theorem tagsOf_render (f : Flavor) (v : ChangeValues) :
    tagsOf false (f.render v) = (f.render v).map inToolChange := by
  have halike : List.Forall₂ Alike ((scanLines {} 0 (f.lines v)).map ScannedLine.command)
      (f.render v) := by
    rw [render, List.forall₂_map_left_iff, List.forall₂_map_right_iff, List.forall₂_same]
    exact fun _ _ => rfl
  have htags := map_inToolChange_scanLines {} 0 (f.lines v)
  rw [(tagsOf_eq_of_alike halike false).1, render, List.map_map]
  exact htags.symm

theorem closed_render (f : Flavor) {v : ChangeValues} {t : Nat} (hv : v.tool = t) (ht : t < 10) :
    Closed (f.render v) where
  tags := f.tagsOf_render v
  behind := Nesting.foldl_opensBehind (f.read_render (n := {}) hv ht rfl)

theorem told_of_mem_render {f : Flavor} {v : ChangeValues} {c : Command} (h : c ∈ f.render v) :
    c.Told := by
  obtain ⟨n, tag, line, -, rfl⟩ := exists_of_mem_render h
  obtain ⟨raw, hparse, -⟩ := exists_parse n (String.join (line.map (TemplatePiece.render v)))
  rw [hparse]
  exact ⟨none, tag, rfl⟩

end Flavor

namespace BodyPlan

variable {p : BodyPlan} {c : Command}

theorem Composes.told {text : String} (hp : p.program = Program.ofText text) (h : p.Composes c) :
    c.Told := by
  cases h with
  | kept h _ =>
      rw [hp] at h
      obtain ⟨line, tag, heq⟩ := Program.exists_of_mem_readCommands
        ((Program.read_ofText text).mem_of_mem_bodyCommands h)
      exact ⟨line, tag, heq⟩
  | block h => exact Flavor.told_of_mem_render h
  | _ => exact Command.told_ofText none _

theorem inToolChange_of_surrounds (h : p.bare.Surrounds c) :
    c.inToolChange = c.tool.isSome := by
  cases h with
  | tower tool index => exact (congrArg Option.isSome (Command.quiet_commentLine _).tool).symm
  | @move m _ => exact (congrArg Option.isSome m.quiet_build.tool).symm
  | absolute => decide
  | @positioning m _ => cases m.positioning <;> decide
  | extrusion mode => cases mode <;> decide
  | extruder e =>
      have hbegins : Command.beginsQuiet ("G92 E" ++ coordinate extrusionPlaces e) = true :=
        Command.beginsQuiet_append (by decide) _
      exact (congrArg Option.isSome (Command.quiet_synthesized hbegins).tool).symm
  | @block source tool ceiling _ h =>
      have htags := Command.tagsOf_of_isCalm
        (fun d (hd : d ∈ p.bare.settings.toolChange.block source tool ceiling) =>
          isCalm_of_surrounds (.block hd))
      rw [ToolChange.block, Flavor.tagsOf_render] at htags
      exact List.map_inj_left.mp htags c h

end BodyPlan

namespace Writer

variable {p : BodyPlan} {w next last : Writer}

/-- A step that writes lines which are tagged the way they are read. -/
def Seals (w next : Writer) : Prop :=
  ∃ added, next.body.toList = w.body.toList ++ added ∧ Command.Closed added

namespace Seals

theorem refl (w : Writer) : Seals w w :=
  ⟨[], by simp, Command.closed_nil⟩

theorem trans (h : Seals w next) (h' : Seals next last) : Seals w last := by
  obtain ⟨added, hbody, hadded⟩ := h
  obtain ⟨added', hbody', hadded'⟩ := h'
  exact ⟨added ++ added', by rw [hbody', hbody, List.append_assoc], hadded.append hadded'⟩

theorem of_body_eq (h : Seals w next) (hbody : last.body = next.body) : Seals w last := by
  rw [Seals, hbody]
  exact h

end Seals

theorem seals_writeAll (w : Writer) {cs : List Command} (h : Command.Closed cs) :
    Seals w (w.writeAll cs) :=
  ⟨cs, (w.writeAll_spec cs).1, h⟩

theorem Writes.seals (h : Writes p.bare.Surrounds w next) : Seals w next := by
  obtain ⟨added, hbody, hadded⟩ := h.commands
  refine ⟨added, hbody, Command.closed_of_isCalm fun c hc => ?_⟩
  exact ⟨BodyPlan.isCalm_of_surrounds (hadded c hc),
    BodyPlan.inToolChange_of_surrounds (hadded c hc)⟩

theorem seals_mark (w : Writer) (p : BodyPlan) (layer : Layer) : Seals w (w.mark p layer) := by
  refine seals_writeAll { w with counts := { w.counts with visits := w.counts.visits + 1 } }
    (Command.closed_of_isCalm ?_)
  have hquiet (text : String) :
      (Command.commentLine text).inToolChange = (Command.commentLine text).tool.isSome :=
    (congrArg Option.isSome (Command.quiet_commentLine text).tool).symm
  have hheight : Nesting.isCalm (Marker.ofCommand
      (.commentLine (Marker.heightText layer.z))) = true := by
    have hcases : Marker.ofCommand (.commentLine (Marker.heightText layer.z)) = none ∨
        ∃ r, Marker.ofCommand (.commentLine (Marker.heightText layer.z)) = some (.zHeight r) :=
      Marker.ofCommand_heightText_cases layer.z
    rcases hcases with hnone | ⟨r, hsome⟩
    · rw [hnone]
      rfl
    · rw [hsome]
      rfl
  refine List.forall_mem_cons.mpr ⟨⟨?_, hquiet _⟩, List.forall_mem_singleton.mpr
    ⟨hheight, hquiet _⟩⟩
  rcases Marker.ofCommand_layerText_cases (w.counts.visits + 1) p.total with hnone | ⟨k, m, hsome⟩
  · rw [hnone]
    rfl
  · rw [hsome]
    rfl

theorem seals_change (w : Writer) (p : BodyPlan) (source : Option Tool) {tool : Tool} {t : Nat}
    (htool : tool = t) (ht : t < 10) : Seals w (w.change p.settings.toolChange source tool) := by
  have hclosed : Command.Closed (p.settings.toolChange.block source tool w.ensureAbsolute.ceiling) :=
    p.settings.toolChange.flavor.closed_render htool ht
  have hblock := w.ensureAbsolute.seals_writeAll hclosed
  exact ((w.writes_ensureAbsolute (p := p.bare)).seals.trans hblock).of_body_eq rfl

theorem seals_run (w : Writer) {p : BodyPlan} {text : String}
    (hp : p.program = Program.ofText text) (layer : Layer) {run : List Segment}
    (hsegments : ∀ s ∈ run, s ∈ p.program.segments) : Seals w (w.run p layer run) := by
  cases run with
  | nil => exact .refl w
  | cons first rest =>
      have hfirst : first ∈ p.program.segments := hsegments first List.mem_cons_self
      have hentered := (w.writes_enter (p := p.bare) layer hfirst
        ((first :: rest).flatMap Segment.commands)).seals
      refine hentered.trans (seals_writeAll _ (Command.closed_of_untagged ?_))
      intro c hc
      obtain ⟨hc, hkeeps⟩ := List.mem_filter.mp hc
      obtain ⟨s, hs, hc⟩ := List.mem_flatMap.mp hc
      have hread : c ∈ Program.readCommands text := by
        refine (Program.read_ofText text).mem_of_mem_bodyCommands ?_
        rw [← hp, ← Program.commands_segments]
        exact List.mem_flatMap.mpr ⟨s, hsegments s hs, hc⟩
      obtain ⟨huntagged, -⟩ := keeps_iff.mp hkeeps
      refine ⟨huntagged, ?_, fun slot hopener => ?_⟩
      · refine Option.eq_none_iff_forall_ne_some.mpr fun t ht => ?_
        have htag := (Program.tool_of_mem_readCommands text hread ht).1
        exact absurd (htag.symm.trans huntagged) (by simp)
      · have htag := Program.inToolChange_of_opener hread hopener
        exact absurd (htag.symm.trans huntagged) (by simp)

theorem seals_visit (w : Writer) {p : BodyPlan} {text : String}
    (hp : p.program = Program.ofText text) {due : Option (Option Tool × Tool)}
    (hdue : ∀ change ∈ due, ∃ t : Nat, change.2 = t ∧ t < 10) {v : Visit}
    (hsegments : ∀ s ∈ v.segments, s ∈ p.program.segments) : Seals w (w.visit p due v) := by
  apply visit_induction (w.seals_mark p v.layer)
  · intro next source tool hchange hnext
    obtain ⟨t, htool, ht⟩ := hdue _ hchange
    exact hnext.trans (next.seals_change p source htool ht)
  · intro next hnext
    exact hnext.trans (next.writes_catchUp (p := p.bare) v.layer.index).seals
  · intro next run hrun hnext
    exact hnext.trans (next.seals_run hp v.layer
      fun s hs => hsegments s (v.mem_segments_of_mem_run hrun hs))
  · intro next last hnext
    exact hnext.of_body_eq rfl

end Writer

namespace Program

theorem closed_body (text : String) {plan : Plan} {settings : Settings} {jobs : List Job}
    (hjobs : (ofText text).resolve plan = .ok jobs)
    (htools : ∀ j ∈ jobs, ∀ t : Nat, j.tool = some t → t < 10) {body : Body}
    (hbody : (ofText text).synthesize plan settings = .ok body) : Command.Closed body.commands := by
  obtain ⟨w, body', hwritten, hbody', hcommands, -⟩ := synthesize_induction hjobs
    (rfl : ({ program := ofText text, settings, total := plan.visitCount } : BodyPlan) = _)
    (motive := fun _ w => Command.Closed w.body.toList) Command.closed_nil
    (by
      intro done w due j hj hdue v hv hclosed
      obtain ⟨added, hadded, hseals⟩ := w.seals_visit
        (p := { program := ofText text, settings, total := plan.visitCount }) rfl (v := v)
        (fun change hchange => ⟨change.2, rfl, htools j hj change.2 (hdue change hchange)⟩)
        (mem_of_resolve hjobs hj hv).2
      rw [hadded]
      exact hclosed.append hseals)
  obtain rfl : body' = body := Except.ok.inj (hbody'.symm.trans hbody)
  obtain ⟨added, hadded, hseals⟩ := (w.writes_finish (p := BodyPlan.bare
    { program := ofText text, settings, total := plan.visitCount })).seals
  have hsame : (w.finish (BodyPlan.bare
      { program := ofText text, settings, total := plan.visitCount })).body =
    (w.finish { program := ofText text, settings, total := plan.visitCount }).body := rfl
  rw [hcommands, ← hsame, hadded]
  exact hwritten.append hseals

end Program

end ToolBatching
