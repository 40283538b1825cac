import ToolBatching.Optimization
import ToolBatching.Proofs.Writing.Crossings
import ToolBatching.Proofs.Writing.Stages

namespace ToolBatching

/-- Whether a command is a motion along X, Y or Z. -/
def Command.places (c : Command) : Bool :=
  c.isMotion && (c.x.isSome || c.y.isSome || c.z.isSome)

/-- A replay reads the places of all motions that are not in the source as absolute. -/
def Machine.PlacesAbsolute (m : Machine) (cs : List Command) : Prop :=
  ∀ front c, front ++ [c] <+: cs → c.line = none → c.places = true →
    (m.run front).positioning = .absolute

namespace Machine

variable {m : Machine} {c : Command} {cs : List Command}

theorem placesAbsolute_nil (m : Machine) : m.PlacesAbsolute [] := by
  simp [PlacesAbsolute]

theorem placesAbsolute_cons_iff : m.PlacesAbsolute (c :: cs) ↔
    (c.line = none → c.places = true → m.positioning = .absolute) ∧
      (m.step c).PlacesAbsolute cs := by
  constructor
  · intro h
    refine ⟨h [] c (by simp), ?_⟩
    intro front d hfront
    exact h (c :: front) d ((List.prefix_cons_inj c).mpr hfront)
  · rintro ⟨hfirst, hrest⟩ front d hfront
    cases front with
    | nil =>
        obtain rfl : d = c := by simpa using hfront
        exact hfirst
    | cons first front =>
        rw [List.cons_append, List.cons_prefix_cons] at hfront
        obtain ⟨rfl, hfront⟩ := hfront
        exact hrest front d hfront

theorem PlacesAbsolute.of_prefix {more : List Command} (h : m.PlacesAbsolute (cs ++ more)) :
    m.PlacesAbsolute cs :=
  fun front d hfront => h front d (hfront.trans (List.prefix_append cs more))

/-- How places are read is found by one replay. -/
instance decidablePlacesAbsolute : (m : Machine) → (cs : List Command) →
    Decidable (m.PlacesAbsolute cs)
  | m, [] => isTrue m.placesAbsolute_nil
  | m, c :: cs =>
      have := decidablePlacesAbsolute (m.step c) cs
      decidable_of_iff ((c.line = none → c.places = true → m.positioning = .absolute) ∧
        (m.step c).PlacesAbsolute cs) placesAbsolute_cons_iff.symm

end Machine

namespace Command

theorem places_eq_false_of_target {c : Command} (htool : c.tool = none)
    (h : ∀ a ≠ .e, c.target a = none) : c.places = false := by
  cases hmotion : c.isMotion with
  | false => rw [places, hmotion, Bool.false_and]
  | true =>
      have hcode : c.mnemonic ≠ "G92" ∧ c.mnemonic ≠ "G28" := by
        constructor <;> intro hcode <;> simp [isMotion, hcode] at hmotion
      have hword {a : Axis} (ha : a ≠ .e) : c.along a = none := by
        have hlead := h a ha
        rw [target_of_mnemonic_ne hcode.1 hcode.2, htool, hmotion] at hlead
        exact hlead
      have hx : c.x = none := hword (a := .x) (by decide)
      have hy : c.y = none := hword (a := .y) (by decide)
      have hz : c.z = none := hword (a := .z) (by decide)
      rw [places, hx, hy, hz]
      exact Bool.and_false _

theorem places_commentLine (text : String) : (commentLine text).places = false :=
  places_eq_false_of_target (quiet_commentLine text).tool fun _ _ =>
    target_of_not_isMotion (mnemonic_ofText_of_codeOf_nil none (code_commentText none text))
      (by decide)

end Command

theorem Machine.places_restoration {m target : Machine} {c : Command}
    (h : c ∈ m.restoration target) : c.places = false :=
  Command.places_eq_false_of_target (m.quiet_restoration target c h).tool fun _ ha =>
    target_restoration h ha

theorem BodyPlan.OfTower.switches_ne {p : BodyPlan} {tool : Tool} {index : Nat} {c : Command}
    (h : p.OfTower tool index c) : c.switches .x ≠ some .relative := by
  cases h with
  | relative => decide
  | comment => exact Command.switches_commentLine_ne _
  | move h =>
      have hloop : ∀ perMm x y side, ∀ c ∈ p.settings.primeTower.loop perMm x y side,
          c.switches .x ≠ some .relative := by
        intro perMm x y side c hc
        simp only [PrimeTower.loop, List.mem_cons, List.not_mem_nil, or_false] at hc
        rcases hc with rfl | rfl | rfl | rfl | rfl <;> simp [Move.switches_build]
      exact PrimeTower.forall_layerMoves hloop tool _ c h

namespace Writer

variable {start : Machine} {w : Writer} {p : BodyPlan}

/-- The body leads to the state of the writer and reads places as absolute. -/
structure Anchored (start : Machine) (w : Writer) : Prop where
  machine : w.machine = start.run w.body.toList
  places : start.PlacesAbsolute w.body.toList

namespace Anchored

theorem of_eq (h : Anchored start w) {next : Writer} (hbody : next.body = w.body)
    (hmachine : next.machine = w.machine) : Anchored start next where
  machine := by rw [hbody, hmachine, h.machine]
  places := by rw [hbody]; exact h.places

theorem write (h : Anchored start w) {c : Command}
    (hc : c.line = none → c.places = true → w.machine.positioning = .absolute) :
    Anchored start (w.write c) where
  machine := by
    rw [toList_body_write, Machine.run_append, ← h.machine]
    rfl
  places := by
    rw [toList_body_write]
    intro front d hprefix hline hplaces
    rcases Machine.prefix_concat_cases hprefix with ⟨rfl, rfl⟩ | hprefix
    · rw [← h.machine]
      exact hc hline hplaces
    · exact h.places front d hprefix hline hplaces

theorem writeAll_idle (h : Anchored start w) {cs : List Command}
    (hcs : ∀ c ∈ cs, c.line = none → c.places = false) : Anchored start (w.writeAll cs) :=
  List.foldlRecOn cs Writer.write h fun v hv c hc => hv.write fun hline hplaces => by
    rw [hcs c hc hline] at hplaces
    exact absurd hplaces (by simp)

theorem writeAll (h : Anchored start w) (hw : w.machine.positioning = .absolute)
    {cs : List Command} (hcs : ∀ c ∈ cs, c.switches .x ≠ some .relative) :
    Anchored start (w.writeAll cs) ∧ (w.writeAll cs).machine.positioning = .absolute := by
  apply List.foldlRecOn cs Writer.write (motive := fun v =>
    Anchored start v ∧ v.machine.positioning = .absolute) ⟨h, hw⟩
  rintro v ⟨hv, hpositioning⟩ c hc
  exact ⟨hv.write fun _ _ => hpositioning, positioning_write hpositioning (hcs c hc)⟩

theorem ensureAbsolute (h : Anchored start w) : Anchored start w.ensureAbsolute := by
  unfold Writer.ensureAbsolute
  split
  · exact h.write fun _ hplaces => absurd hplaces (by decide)
  · exact h

theorem travel (h : Anchored start w) (s : HopSettings) (t : Travel) :
    Anchored start (w.travel s t) ∧ (w.travel s t).machine.positioning = .absolute := by
  have habsolute := w.positioning_ensureAbsolute
  have hmoves : ∀ c ∈ (t.plan s w.ensureAbsolute.machine).commands,
      c.switches .x ≠ some .relative := by
    intro c hc
    obtain ⟨move, -, rfl⟩ := Travel.exists_move hc
    rw [Move.switches_build]
    simp
  obtain ⟨hmoved, hend⟩ := h.ensureAbsolute.writeAll habsolute hmoves
  exact ⟨hmoved.of_eq rfl rfl, hend⟩

theorem restore (h : Anchored start w) (target : Machine) : Anchored start (w.restore target) :=
  h.writeAll_idle fun _ hc _ => Machine.places_restoration hc

theorem change (h : Anchored start w) (s : ToolChange) (source : Option Tool) (tool : Tool) :
    Anchored start (w.change s source tool) := by
  have hblock : ∀ c ∈ s.block source tool w.ensureAbsolute.ceiling,
      c.switches .x ≠ some .relative := fun c hc => Flavor.switches_ne_of_mem_render hc
  exact (h.ensureAbsolute.writeAll w.positioning_ensureAbsolute hblock).1.of_eq rfl rfl

theorem towerLayer (h : Anchored start w) (tool : Tool) (index : Nat) :
    Anchored start (w.towerLayer p tool index) := by
  cases hlayer : p.program.layer? index with
  | none =>
      rw [towerLayer_eq_self hlayer]
      exact h
  | some layer =>
      obtain ⟨htraveled, habsolute⟩ :=
        h.travel p.settings.hop (p.towerTravel tool layer w.ceiling)
      generalize htravel : w.travel p.settings.hop (p.towerTravel tool layer w.ceiling) = traveled
        at htraveled habsolute
      have hcommands : ∀ c ∈ p.towerCommands traveled.machine tool layer index,
          c.switches .x ≠ some .relative := fun c hc => (BodyPlan.ofTower_of_mem hc).switches_ne
      rw [towerLayer_eq hlayer htravel]
      exact (htraveled.writeAll habsolute hcommands).1.of_eq rfl rfl

theorem catchUp (h : Anchored start w) (index : Nat) : Anchored start (w.catchUp p index) := by
  unfold Writer.catchUp
  split
  · split
    · rename_i tool _
      have hmarked : Anchored start
          { w with progress := w.progress.catchUp tool index } := h.of_eq rfl rfl
      exact List.foldlRecOn _ _ hmarked fun w hw j _ => hw.towerLayer tool j
    · exact h
  · exact h

theorem mark (h : Anchored start w) (layer : Layer) : Anchored start (w.mark p layer) := by
  have hcounted : Anchored start
      { w with counts := { w.counts with visits := w.counts.visits + 1 } } := h.of_eq rfl rfl
  apply hcounted.writeAll_idle
  intro c hc _
  simp only [List.mem_cons, List.not_mem_nil, or_false] at hc
  rcases hc with rfl | rfl
  · exact Command.places_commentLine _
  · exact Command.places_commentLine _

theorem run (h : Anchored start w) (layer : Layer) {run : List Segment}
    (hrun : ∀ s ∈ run, s.Scanned) : Anchored start (w.run p layer run) := by
  cases run with
  | nil => exact h
  | cons first rest =>
      have hentered : Anchored start
          (w.enter p layer first ((first :: rest).flatMap Segment.commands)) :=
        (h.travel _ _).1.restore first.entry
      apply hentered.writeAll_idle
      intro c hc hline
      obtain ⟨s, hs, hc⟩ := List.mem_flatMap.mp (List.mem_of_mem_filter hc)
      have hsource := (hrun s hs c hc).1
      rw [hline] at hsource
      exact absurd hsource (by simp)

theorem visit (h : Anchored start w) {v : Visit} (hv : ∀ s ∈ v.segments, s.Scanned)
    (due : Option (Option Tool × Tool)) : Anchored start (w.visit p due v) := by
  apply visit_induction (h.mark v.layer)
  · intro w source tool _ hw
    exact hw.change p.settings.toolChange source tool
  · intro w hw
    exact hw.catchUp v.layer.index
  · intro w run hrun hw
    exact hw.run v.layer fun s hs => hv s (v.mem_segments_of_mem_run hrun hs)
  · intro w last hw
    exact hw.of_eq rfl rfl

end Anchored

/-- The lift that closes a body, where one is due. -/
def lift (w : Writer) (p : BodyPlan) : List Command :=
  if w.machine.z < w.ceiling - tolerance then
    [Travel.vertical p.settings.hop (w.ceiling + p.settings.hop.height)]
  else []

theorem finish_eq (w : Writer) (p : BodyPlan) :
    w.finish p = (w.writeAll (w.lift p)).restore p.program.exit := by
  unfold finish lift
  split
  · rfl
  · rfl

def closing (w : Writer) (p : BodyPlan) : List Command :=
  w.lift p ++ (w.writeAll (w.lift p)).machine.restoration p.program.exit

theorem toList_body_finish (w : Writer) (p : BodyPlan) :
    (w.finish p).body.toList = w.body.toList ++ w.closing p := by
  rw [finish_eq, restore, (writeAll_spec _ _).1, (writeAll_spec _ _).1, closing, List.append_assoc]

theorem line_of_mem_closing {c : Command} (h : c ∈ w.closing p) : c.line = none := by
  rcases List.mem_append.mp h with h | h
  · obtain ⟨-, h⟩ := List.mem_ite_nil_right.mp h
    rw [List.mem_singleton.mp h]
    exact (Move.quiet_build _).line
  · exact (Machine.quiet_restoration _ _ c h).line

theorem prefix_append_cases {front xs ys : List Command} {c : Command}
    (h : front ++ [c] <+: xs ++ ys) :
    front ++ [c] <+: xs ∨ ∃ more, front = xs ++ more ∧ more ++ [c] <+: ys := by
  obtain ⟨back, hback⟩ := h
  rcases List.append_eq_append_iff.mp hback with ⟨more, rfl, -⟩ | ⟨more, hmore, rfl⟩
  · exact Or.inl (List.prefix_append _ more)
  · rcases List.eq_nil_or_concat more with rfl | ⟨more, d, rfl⟩
    · rw [List.append_nil] at hmore
      rw [hmore]
      exact Or.inl List.prefix_rfl
    · rw [List.concat_eq_append, ← List.append_assoc] at hmore
      obtain ⟨rfl, hlast⟩ := List.append_inj' hmore rfl
      obtain rfl := (List.cons.inj hlast).1
      refine Or.inr ⟨more, rfl, ?_⟩
      rw [List.concat_eq_append]
      exact List.prefix_append _ back

theorem Anchored.finish (h : Anchored start w) {front : List Command} {c : Command}
    (hfront : front ++ [c] <+: w.body.toList ++ w.closing p) (hline : c.line = none)
    (hplaces : c.places = true) :
    (start.run front).positioning = .absolute ∨
      front = w.body.toList ∧ ∃ z, c = Travel.vertical p.settings.hop z := by
  rcases prefix_append_cases hfront with hbefore | ⟨more, rfl, hclosing⟩
  · exact Or.inl (h.places front c hbefore hline hplaces)
  · right
    rw [closing] at hclosing
    rcases prefix_append_cases hclosing with hlift | ⟨behind, rfl, hrestored⟩
    · unfold lift at hlift
      split at hlift
      · have hmore := hlift.length_le
        obtain rfl : more = [] := by simpa using hmore
        obtain rfl : c = _ := by simpa using hlift
        exact ⟨List.append_nil _, _, rfl⟩
      · simp at hlift
    · have hc := hrestored.subset (List.mem_append_right behind (List.mem_singleton_self c))
      rw [Machine.places_restoration hc] at hplaces
      exact absurd hplaces (by simp)

end Writer

namespace Program

theorem exists_anchored {p : Program} (hscanned : ∀ s ∈ p.segments, s.Scanned) {plan : Plan}
    {settings : Settings} (hmembers : ∀ id ∈ plan.members, (p.segment? id).isSome = true)
    {context : BodyPlan} (hcontext : context = { program := p, settings, total := plan.visitCount }) :
    ∃ w body, Writer.Anchored p.preambleState w ∧ p.synthesize plan settings = .ok body ∧
      body.commands = w.body.toList ++ w.closing context := by
  obtain ⟨jobs, hjobs, -⟩ := resolve_eq_ok hmembers
  have hstart : Writer.Anchored p.preambleState { machine := p.preambleState } :=
    ⟨rfl, Machine.placesAbsolute_nil _⟩
  obtain ⟨w, body, hw, hbody, hcommands, -⟩ := synthesize_induction hjobs hcontext
    (motive := fun _ => Writer.Anchored p.preambleState) hstart fun _ w due j hj _ v hv hw =>
      hw.visit (fun s hs => hscanned s ((mem_of_resolve hjobs hj hv).2 s hs)) due
  exact ⟨w, body, hw, hbody, hcommands.trans (w.toList_body_finish _)⟩

/-- Wherever the source lines switch between absolute and relative positioning, the places
that are written between the source lines of a body are read as absolute. Behind the last
source line one motion may be read as relative: the lift out of the print. -/
theorem written_places_absolute (text : String) {plan : Plan} (settings : Settings)
    (hmembers : ∀ id ∈ plan.members, id ∈ (ofText text).segmentIds) :
    let p := ofText text
    ∃ body written closing, p.synthesize plan settings = .ok body ∧
      body.commands = written ++ closing ∧ (∀ c ∈ closing, c.line = none) ∧
      ∀ front c, front ++ [c] <+: body.commands → c.line = none → c.places = true →
        (p.preambleState.run front).positioning = .absolute ∨
          front = written ∧ ∃ z, c = Travel.vertical settings.hop z := by
  intro p
  obtain ⟨context, hcontext⟩ : ∃ context : BodyPlan,
      context = { program := p, settings, total := plan.visitCount } := ⟨_, rfl⟩
  obtain ⟨w, body, hw, hbody, hcommands⟩ := exists_anchored
    (fun s hs => scanned_of_mem_segments text hs)
    (fun id hid => (read_ofText text).isSome_segment? (hmembers id hid)) hcontext
  have hsettings : context.settings.hop = settings.hop := by rw [hcontext]
  refine ⟨body, w.body.toList, w.closing context, hbody, hcommands, ?_, ?_⟩
  · intro c hc
    exact Writer.line_of_mem_closing hc
  · intro front c hprefix hline hplaces
    rw [hcommands] at hprefix
    rw [← hsettings]
    exact hw.finish hprefix hline hplaces

/-- A plan that prints the lower of two layers last, which ends in relative positioning. -/
theorem written_places_absolute_upper_first :
    let text := "; layer num/total_layer_count: 1/2\nG1 X1 Z0.2 E1\nG91\n" ++
      "; layer num/total_layer_count: 2/2\nG90\nG1 X9 Z0.4 E2\n"
    let p := ofText text
    let plan : Plan := { batches := [⟨none, 1, 2, [⟨2, 0⟩, ⟨1, 0⟩]⟩] }
    (∀ id ∈ plan.members, id ∈ p.segmentIds) ∧
    ∃ body written closing, p.synthesize plan {} = .ok body ∧
      body.commands = written ++ closing ∧ (∀ c ∈ closing, c.line = none) ∧
      ∀ front c, front ++ [c] <+: body.commands → c.line = none → c.places = true →
        (p.preambleState.run front).positioning = .absolute ∨
          front = written ∧ ∃ z, c = Travel.vertical ({} : Settings).hop z := by
  intro text p plan
  have hmembers : ∀ id ∈ plan.members, id ∈ p.segmentIds := by decide +kernel
  exact ⟨hmembers, written_places_absolute text {} hmembers⟩

/-- Behind a last line that switches to relative positioning the lift adds the height above
the print to the height of the nozzle. -/
theorem lift_read_as_relative :
    let text := "; layer num/total_layer_count: 1/1\nG1 Z1 E1\nG1 Z0.5\nG91\n"
    let p := ofText text
    ({} : Settings).validate = .ok () ∧
      ∃ body, p.synthesize (p.schedule {}) {} = .ok body ∧
        ¬ p.preambleState.PlacesAbsolute body.commands := by
  intro text p
  have hbody : ({} : Settings).validate = .ok () ∧
      ∃ body ∈ (p.synthesize (p.schedule {}) {}).toOption, ∃ c ∈ (body.commands.drop 6).head?,
        c.line = none ∧ c.places = true ∧
          (p.preambleState.run (body.commands.take 6)).positioning = .relative := by
    decide +kernel
  obtain ⟨hvalid, body, hbody, c, hc, hline, hplaces, hrelative⟩ := hbody
  refine ⟨hvalid, body, eq_ok_of_mem_toOption hbody, ?_⟩
  intro habsolute
  have hpositioning := habsolute _ c (Machine.concat_prefix_of_drop hc) hline hplaces
  rw [hrelative] at hpositioning
  exact absurd hpositioning (by decide)

end Program

end ToolBatching
