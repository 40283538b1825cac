import ToolBatching.Proofs.Number.ReadNumber
import ToolBatching.Proofs.Writing.Body
import ToolBatching.Proofs.Writing.MoveText
import ToolBatching.Proofs.Writing.Surrounds
import ToolBatching.Proofs.Writing.Visits

namespace ToolBatching

namespace BodyPlan

/-- The commands that a body is made of. -/
inductive Composes (p : BodyPlan) : Command → Prop
  | kept {c : Command} (h : c ∈ p.program.bodyCommands) (hkeeps : Writer.keeps c = true) :
      p.Composes c
  | marker (number : Nat) : p.Composes (.commentLine (Marker.layerText number p.total))
  | height (z : Float) : p.Composes (.commentLine (Marker.heightText z))
  | tower (tool : Tool) (index : Nat) :
      p.Composes (.commentLine s!"prime tower T{tool} layer {index}")
  | move {m : Move} (h : m.comment = none) : p.Composes m.build
  | absolute : p.Composes (.synthesized "G90")
  | positioning {m : Machine} (h : p.Restores m) :
      p.Composes (.synthesized (Machine.positioningCode m.positioning))
  | extrusion (mode : Mode) : p.Composes (.synthesized (Machine.extrusionCode mode))
  | extruder (e : Float) :
      p.Composes (.synthesized ("G92 E" ++ coordinate extrusionPlaces e))
  | block {source : Option Tool} {tool : Tool} {ceiling : Float} {c : Command}
      (h : c ∈ p.settings.toolChange.block source tool ceiling) : p.Composes c

theorem Surrounds.composes {p : BodyPlan} {c : Command} (h : p.Surrounds c) : p.Composes c := by
  cases h with
  | tower tool index => exact .tower tool index
  | move h => exact .move h
  | absolute => exact .absolute
  | positioning h => exact .positioning h
  | extrusion mode => exact .extrusion mode
  | extruder e => exact .extruder e
  | block h => exact .block h

end BodyPlan

namespace Writer

variable {w next last : Writer} {p : BodyPlan}

/-- All commands that a step adds to the body are such as a body is made of. -/
def Adds (p : BodyPlan) (w next : Writer) : Prop :=
  ∃ added, next.body.toList = w.body.toList ++ added ∧ ∀ c ∈ added, p.Composes c

namespace Adds

theorem refl (w : Writer) : Adds p w w :=
  ⟨[], by simp, by simp⟩

theorem trans (h : Adds p w next) (h' : Adds p next last) : Adds p w last := by
  obtain ⟨added, hbody, hadded⟩ := h
  obtain ⟨added', hbody', hadded'⟩ := h'
  refine ⟨added ++ added', ?_, ?_⟩
  · rw [hbody', hbody, List.append_assoc]
  · rw [List.forall_mem_append]
    exact ⟨hadded, hadded'⟩

theorem of_eq (h : Adds p w next) (hbody : last.body = next.body) : Adds p w last := by
  rw [Adds, hbody]
  exact h

theorem foldl {α : Type} {step : Writer → α → Writer} {items : List α}
    (h : ∀ w, ∀ a ∈ items, Adds p w (step w a)) (w : Writer) :
    Adds p w (items.foldl step w) := by
  induction items generalizing w with
  | nil => exact refl w
  | cons a items ih =>
      exact (h w a List.mem_cons_self).trans
        (ih (fun w b hb => h w b (List.mem_cons_of_mem a hb)) (step w a))

end Adds

theorem adds_writeAll (w : Writer) {cs : List Command} (h : ∀ c ∈ cs, p.Composes c) :
    Adds p w (w.writeAll cs) :=
  ⟨cs, (w.writeAll_spec cs).1, h⟩

theorem Writes.adds (h : Writes p.Surrounds w next) : Adds p w next := by
  obtain ⟨added, hbody, hadded⟩ := h.commands
  exact ⟨added, hbody, fun c hc => (hadded c hc).composes⟩

theorem adds_mark (w : Writer) (layer : Layer) : Adds p w (w.mark p layer) := by
  have hcounted : Adds p w
      { w with counts := { w.counts with visits := w.counts.visits + 1 } } :=
    (Adds.refl w).of_eq rfl
  apply hcounted.trans
  apply adds_writeAll
  intro c hc
  simp only [List.mem_cons, List.not_mem_nil, or_false] at hc
  rcases hc with rfl | rfl
  · exact .marker _
  · exact .height layer.z

theorem adds_run (w : Writer) (layer : Layer) {run : List Segment}
    (h : ∀ s ∈ run, s ∈ p.program.segments) : Adds p w (w.run p layer run) := by
  cases run with
  | nil => exact .refl w
  | cons first rest =>
      refine (w.writes_enter layer (h first List.mem_cons_self) _).adds.trans (adds_writeAll _ ?_)
      intro c hc
      obtain ⟨hc, hkeeps⟩ := List.mem_filter.mp hc
      obtain ⟨s, hs, hc⟩ := List.mem_flatMap.mp hc
      refine .kept ?_ hkeeps
      rw [← Program.commands_segments]
      exact List.mem_flatMap.mpr ⟨s, h s hs, hc⟩

theorem adds_visit (w : Writer) (due : Option (Option Tool × Tool)) {v : Visit}
    (h : ∀ s ∈ v.segments, s ∈ p.program.segments) : Adds p w (w.visit p due v) := by
  apply visit_induction (w.adds_mark v.layer)
  · intro next source tool _ hnext
    exact hnext.trans (writes_change next source tool).adds
  · intro next hnext
    exact hnext.trans (writes_catchUp next v.layer.index).adds
  · intro next run hrun hnext
    exact hnext.trans
      (next.adds_run v.layer fun s hs => h s (v.mem_segments_of_mem_run hrun hs))
  · intro next last hnext
    exact hnext.of_eq rfl

theorem adds_job (w : Writer) {j : Job} (h : ∀ s ∈ j.segments, s ∈ p.program.segments) :
    Adds p w (w.job p j) := by
  unfold job
  rw [Job.segments] at h
  cases hvisits : j.visits with
  | nil => exact .refl w
  | cons first rest =>
      rw [hvisits, List.flatMap_cons, List.forall_mem_append] at h
      refine (w.adds_visit (w.dueChange j.tool) h.1).trans (Adds.foldl ?_ _)
      intro w v hv
      apply w.adds_visit none
      intro s hs
      exact h.2 s (List.mem_flatMap.mpr ⟨v, hv, hs⟩)

end Writer

namespace Program

variable {lines : List Command} {p : Program}

theorem Read.composes (h : Read lines p) {plan : Plan} {settings : Settings} {body : Body}
    (hbody : p.synthesize plan settings = .ok body) :
    ∀ c ∈ body.commands,
      ({ program := p, settings, total := plan.visitCount } : BodyPlan).Composes c := by
  unfold synthesize at hbody
  cases hjobs : p.resolve plan with
  | error fault => simp [hjobs, bind, Except.bind] at hbody
  | ok jobs =>
      rw [hjobs] at hbody
      obtain rfl := Except.ok.inj hbody
      have hadds := (Writer.Adds.foldl (p := { program := p, settings, total := plan.visitCount })
        (fun w j hj => w.adds_job fun s hs => by
          obtain ⟨v, hv, hs⟩ := List.mem_flatMap.mp hs
          exact (h.ofLayer_of_resolve hjobs hj hv).mem_segments hs)
        { machine := p.preambleState }).trans (Writer.writes_finish _).adds
      obtain ⟨added, hadded, hcomposes⟩ := hadds
      intro c hc
      apply hcomposes
      rw [List.nil_append] at hadded
      rw [← hadded]
      exact hc

end Program

namespace Command

theorem isNaN_ofText {line : Option Nat} {raw : String} {a : Axis} {v : Float}
    (h : (ofText line raw).along a = some v) : v.isNaN = false := by
  rw [along_ofText] at h
  exact isNaN_addressed h

theorem along_tagged (c : Command) (line : Option Nat) (tag : Bool) (a : Axis) :
    along { c with line, inToolChange := tag } a = c.along a := by
  cases a <;> rfl

theorem switches_ne_relative {c : Command} (h : c.mnemonic ≠ "G91") :
    c.switches .x ≠ some .relative := by
  unfold switches positioningMode
  split
  · simp
  · rw [if_neg (by decide)]
    split
    · simp
    · contradiction
    · simp

end Command

theorem Program.isNaN_of_mem_readCommands (text : String) {c : Command}
    (hc : c ∈ readCommands text) {a : Axis} {v : Float} (hv : c.along a = some v) :
    v.isNaN = false := by
  obtain ⟨line, hline, rfl⟩ := List.mem_map.mp hc
  obtain ⟨ctx, n, text, -, rfl⟩ := exists_of_mem_scanLines hline
  rw [ctx.command_scan, Command.along_tagged (Command.parse n text)] at hv
  exact Command.isNaN_ofText hv

namespace TemplatePiece

/-- Whether a template line begins with a text that excludes a mnemonic. -/
def excludes (code : String) : List TemplatePiece → Bool
  | text s :: _ => Command.excludes code s
  | _ => false

theorem mnemonic_parse_ne {code : String} {line : List TemplatePiece}
    (h : excludes code line = true) (v : ChangeValues) (n : Nat) :
    (Command.parse n (String.join (line.map (render v)))).mnemonic ≠ code := by
  unfold excludes at h
  split at h
  · rw [List.map_cons, String.join_cons]
    exact Command.mnemonic_parse_ne n h _
  · exact absurd h (by simp)

end TemplatePiece

theorem Flavor.excludes_template (f : Flavor) :
    ∀ line ∈ f.template, TemplatePiece.excludes "G91" line = true := by
  cases f <;> decide +kernel

theorem Flavor.exists_of_mem_render {f : Flavor} {v : ChangeValues} {c : Command}
    (h : c ∈ f.render v) : ∃ n tag, ∃ line ∈ f.template,
      c = { Command.parse n (String.join (line.map (TemplatePiece.render v))) with
        line := none, inToolChange := tag } := by
  obtain ⟨scanned, hscanned, rfl⟩ := List.mem_map.mp h
  obtain ⟨ctx, n, text, htext, rfl⟩ := exists_of_mem_scanLines hscanned
  obtain ⟨line, hline, rfl⟩ := List.mem_map.mp htext
  exact ⟨n, _, line, hline, by rw [ctx.command_scan]⟩

theorem Flavor.switches_ne_of_mem_render {f : Flavor} {v : ChangeValues} {c : Command}
    (h : c ∈ f.render v) : c.switches .x ≠ some .relative := by
  obtain ⟨n, tag, line, hline, rfl⟩ := exists_of_mem_render h
  apply Command.switches_ne_relative
  dsimp only
  exact TemplatePiece.mnemonic_parse_ne (f.excludes_template line hline) v n

theorem Command.switches_commentLine_ne (text : String) :
    (commentLine text).switches .x ≠ some .relative :=
  switches_ne_relative (mnemonic_ofText_ne none (by decide) _)

namespace BodyPlan

variable {p : BodyPlan} {c : Command}

theorem Composes.switches_ne (h : p.Composes c)
    (hbody : ∀ d ∈ p.program.bodyCommands, d.switches .x ≠ some .relative)
    (hmodes : ∀ m, p.Restores m → m.positioning = .absolute) :
    c.switches .x ≠ some .relative := by
  cases h with
  | kept hc _ => exact hbody c hc
  | marker number => exact Command.switches_commentLine_ne _
  | height z => exact Command.switches_commentLine_ne _
  | tower tool index => exact Command.switches_commentLine_ne _
  | move _ =>
      rw [Move.switches_build]
      simp
  | absolute => decide
  | positioning hm =>
      rw [hmodes _ hm]
      decide
  | extrusion mode => cases mode <;> decide
  | extruder e =>
      exact Command.switches_ne_relative (Command.mnemonic_ofText_ne none (by decide) _)
  | block hc => exact Flavor.switches_ne_of_mem_render hc

theorem Composes.isNaN_along (h : p.Composes c)
    (hbody : ∀ d ∈ p.program.bodyCommands, ∀ a, ∀ v ∈ d.along a, v.isNaN = false) {a : Axis}
    {v : Float} (hv : c.along a = some v) : v.isNaN = false := by
  cases h with
  | kept hc _ => exact hbody c hc a v hv
  | marker number => exact Command.isNaN_ofText hv
  | height z => exact Command.isNaN_ofText hv
  | tower tool index => exact Command.isNaN_ofText hv
  | move _ => exact Command.isNaN_ofText hv
  | absolute => exact Command.isNaN_ofText hv
  | positioning _ => exact Command.isNaN_ofText hv
  | extrusion _ => exact Command.isNaN_ofText hv
  | extruder e => exact Command.isNaN_ofText hv
  | block hc =>
      obtain ⟨n, tag, line, -, rfl⟩ := Flavor.exists_of_mem_render hc
      rw [Command.along_tagged] at hv
      exact Command.isNaN_ofText hv

end BodyPlan

end ToolBatching
