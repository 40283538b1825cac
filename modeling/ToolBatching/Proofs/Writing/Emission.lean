import Mathlib.Data.List.SplitBy
import ToolBatching.Proofs.Replay
import ToolBatching.Proofs.Writing.ToolBlock

/-!
What each step of writing a body emits. `Writer.Emits` says which source lines a step adds
to the body, which tools the added commands select and how many tool-change blocks there
are among them; steps compose, and everything but a tool change and a run of segments is
quiet.
-/

namespace ToolBatching

/-- Commands of a segment that go to the body. -/
def Segment.kept (s : Segment) : List Command :=
  s.commands.filter Writer.keeps

/-- Commands of a segment come from the source, and those that select a tool are marked
as members of a tool-change sequence. -/
def Segment.Scanned (s : Segment) : Prop :=
  ∀ c ∈ s.commands, c.line.isSome = true ∧ (c.tool.isSome = true → c.inToolChange = true)

/-- The commands that are written of a tower layer once the nozzle is there. -/
inductive BodyPlan.OfTower (p : BodyPlan) (tool : Tool) (index : Nat) : Command → Prop
  | relative : p.OfTower tool index (.synthesized "M83")
  | comment : p.OfTower tool index (.commentLine s!"prime tower T{tool} layer {index}")
  | move {layerHeight : Float} {c : Command}
      (h : c ∈ p.settings.primeTower.layerMoves tool layerHeight) : p.OfTower tool index c

theorem BodyPlan.OfTower.quiet {p : BodyPlan} {tool : Tool} {index : Nat} {c : Command}
    (h : p.OfTower tool index c) : c.Quiet := by
  cases h with
  | relative => exact Command.quiet_synthesized (by decide)
  | comment => exact Command.quiet_commentLine _
  | move h => exact p.settings.primeTower.quiet_layerMoves tool _ c h

namespace Writer

theorem keeps_iff {c : Command} : keeps c = true ↔ c.inToolChange = false ∧
    ¬ ∃ number total, Marker.ofCommand c = some (.layer number total) := by
  rw [← Marker.isLayer_iff, Bool.not_eq_true, keeps, Bool.and_eq_true, Bool.not_eq_true',
    Bool.not_eq_true']

/-- A step of writing that adds commands to the body: the source lines among them, the
tools they select, and how many tool-change blocks they make up. -/
structure Emits (w : Writer) (own : List Command) (selects : List Tool) (changes : Nat)
    (next : Writer) : Prop where
  commands : ∃ added, next.body.toList = w.body.toList ++ added ∧
    next.machine = w.machine.run added ∧ added.filter (fun c => c.line.isSome) = own ∧
    added.filterMap Command.tool = selects
  changes : next.counts.toolChanges = w.counts.toolChanges + changes

namespace Emits

variable {w next last : Writer} {own own' : List Command} {selects selects' : List Tool}
  {changes changes' : Nat}

theorem refl (w : Writer) : Emits w [] [] 0 w where
  commands := ⟨[], by simp, rfl, rfl, rfl⟩
  changes := rfl

theorem trans (h : Emits w own selects changes next) (h' : Emits next own' selects' changes' last) :
    Emits w (own ++ own') (selects ++ selects') (changes + changes') last where
  commands := by
    obtain ⟨added, hbody, hmachine, hown, hselects⟩ := h.commands
    obtain ⟨added', hbody', hmachine', hown', hselects'⟩ := h'.commands
    refine ⟨added ++ added', ?_, ?_, ?_, ?_⟩
    · rw [hbody', hbody, List.append_assoc]
    · rw [hmachine', hmachine, Machine.run_append]
    · rw [List.filter_append, hown, hown']
    · rw [List.filterMap_append, hselects, hselects']
  changes := by rw [h'.changes, h.changes, Nat.add_assoc]

theorem quiet (h : Emits w own selects changes next) (h' : Emits next [] [] 0 last) :
    Emits w own selects changes last := by
  have hboth := h.trans h'
  rwa [List.append_nil, List.append_nil] at hboth

theorem after (h' : Emits next own selects changes last) (h : Emits w [] [] 0 next) :
    Emits w own selects changes last := by
  have hboth := h.trans h'
  rwa [List.nil_append, List.nil_append, Nat.zero_add] at hboth

theorem of_eq (h : Emits w own selects changes next) (hbody : last.body = next.body)
    (hmachine : last.machine = next.machine)
    (hcount : last.counts.toolChanges = next.counts.toolChanges) :
    Emits w own selects changes last where
  commands := by
    rw [hbody, hmachine]
    exact h.commands
  changes := hcount.trans h.changes

theorem tool (h : Emits w own selects changes next) :
    next.machine.tool = selects.getLast?.or w.machine.tool := by
  obtain ⟨added, -, hmachine, -, hselects⟩ := h.commands
  rw [hmachine, Machine.tool_run, hselects]

theorem foldl {α : Type} {step : Writer → α → Writer} {items : List α}
    (h : ∀ w, ∀ a ∈ items, Emits w [] [] 0 (step w a)) (w : Writer) :
    Emits w [] [] 0 (items.foldl step w) := by
  induction items generalizing w with
  | nil => exact refl w
  | cons a items ih =>
      exact (h w a List.mem_cons_self).quiet
        (ih (fun w b hb => h w b (List.mem_cons_of_mem a hb)) (step w a))

end Emits

theorem writeAll_spec (w : Writer) (cs : List Command) :
    (w.writeAll cs).body.toList = w.body.toList ++ cs ∧
      (w.writeAll cs).machine = w.machine.run cs ∧ (w.writeAll cs).counts = w.counts := by
  unfold writeAll
  induction cs generalizing w with
  | nil => simp
  | cons c cs ih =>
      obtain ⟨hbody, hmachine, hcounts⟩ := ih (w.write c)
      refine ⟨?_, hmachine, hcounts⟩
      rw [List.foldl_cons, hbody, write, Array.toList_push, List.append_assoc,
        List.singleton_append]

theorem toolChanges_writeAll (w : Writer) (cs : List Command) :
    (w.writeAll cs).counts.toolChanges = w.counts.toolChanges := by
  rw [(w.writeAll_spec cs).2.2]

theorem emits_writeAll (w : Writer) (cs : List Command) :
    Emits w (cs.filter fun c => c.line.isSome) (cs.filterMap Command.tool) 0 (w.writeAll cs) := by
  obtain ⟨hbody, hmachine, hcounts⟩ := w.writeAll_spec cs
  exact ⟨⟨cs, hbody, hmachine, rfl, rfl⟩, by rw [hcounts, Nat.add_zero]⟩

theorem emits_quiet (w : Writer) {cs : List Command} (h : ∀ c ∈ cs, c.Quiet) :
    Emits w [] [] 0 (w.writeAll cs) := by
  have hall := w.emits_writeAll cs
  have hown : cs.filter (fun c => c.line.isSome) = [] := by
    rw [List.filter_eq_nil_iff]
    intro c hc
    rw [(h c hc).line]
    simp
  have hselects : cs.filterMap Command.tool = [] := by
    rw [List.filterMap_eq_nil_iff]
    intro c hc
    exact (h c hc).tool
  rwa [hown, hselects] at hall

theorem emits_write (w : Writer) {c : Command} (h : c.Quiet) : Emits w [] [] 0 (w.write c) :=
  w.emits_quiet (List.forall_mem_singleton.mpr h)

theorem emits_ensureAbsolute (w : Writer) : Emits w [] [] 0 w.ensureAbsolute := by
  unfold ensureAbsolute
  split
  · exact w.emits_write (Command.quiet_synthesized (by decide))
  · exact .refl w

theorem emits_travel (w : Writer) (s : HopSettings) (t : Travel) :
    Emits w [] [] 0 (w.travel s t) :=
  ((w.emits_ensureAbsolute).quiet
    (w.ensureAbsolute.emits_quiet (t.quiet_plan s w.ensureAbsolute.machine))).of_eq rfl rfl
      (w.ensureAbsolute.toolChanges_writeAll (t.plan s w.ensureAbsolute.machine).commands).symm

theorem emits_restore (w : Writer) (target : Machine) : Emits w [] [] 0 (w.restore target) :=
  w.emits_quiet (w.machine.quiet_restoration target)

/-- What holds behind the travel to a tower and is kept by the commands of a tower layer and
by counting it holds behind the layer. -/
theorem towerLayer_induction {holds : Writer → Prop} {w : Writer} {p : BodyPlan} {tool : Tool}
    {index : Nat} (hstart : holds w)
    (htravel : ∀ layer, p.program.layer? index = some layer → holds (w.travel p.settings.hop
      { x := (p.settings.primeTower.position tool).1, y := (p.settings.primeTower.position tool).2,
        z := layer.z, ceiling := w.ceiling, outOfOrder := false }))
    (hwrite : ∀ v c, p.OfTower tool index c → holds v → holds (v.write c))
    (hcount : ∀ v n, holds v → holds { v with counts := { v.counts with towerLayers := n } }) :
    holds (w.towerLayer p tool index) := by
  unfold towerLayer
  split
  · exact hstart
  · rename_i layer hlayer
    -- Each intermediate writer is replaced by what is known of it, or the terms nest.
    have htraveled := htravel layer hlayer
    simp only
    generalize w.travel p.settings.hop
      { x := (p.settings.primeTower.position tool).1, y := (p.settings.primeTower.position tool).2,
        z := layer.z, ceiling := w.ceiling, outOfOrder := false } = traveled at htraveled ⊢
    have hrelative : holds (if traveled.machine.extrusion = .relative then traveled
        else traveled.write (.synthesized "M83")) := by
      split
      · exact htraveled
      · exact hwrite traveled _ .relative htraveled
    generalize (if traveled.machine.extrusion = .relative then traveled
      else traveled.write (.synthesized "M83")) = relative at hrelative ⊢
    have hcomment := hwrite relative _ .comment hrelative
    generalize relative.write (.commentLine s!"prime tower T{tool} layer {index}") = commented
      at hcomment ⊢
    have hmoves : holds (commented.writeAll
        (p.settings.primeTower.layerMoves tool (p.towerHeight index layer.z))) :=
      List.foldlRecOn _ _ hcomment fun v hv c hc => hwrite v c (.move hc) hv
    rw [← (commented.writeAll_spec _).2.2]
    exact hcount _ _ hmoves

theorem emits_towerLayer (w : Writer) (p : BodyPlan) (tool : Tool) (index : Nat) :
    Emits w [] [] 0 (w.towerLayer p tool index) := by
  apply towerLayer_induction (.refl w) fun layer _ => w.emits_travel p.settings.hop _
  · intro v c hc hv
    exact hv.quiet (v.emits_write hc.quiet)
  · intro v n hv
    exact hv.of_eq rfl rfl rfl

theorem emits_catchUp (w : Writer) (p : BodyPlan) (index : Nat) :
    Emits w [] [] 0 (w.catchUp p index) := by
  unfold catchUp
  split
  · split
    · rename_i tool _
      refine Emits.after (Emits.foldl (fun w j _ => w.emits_towerLayer p tool j) _) ?_
      exact (Emits.refl w).of_eq rfl rfl rfl
    · exact .refl w
  · exact .refl w

theorem emits_mark (w : Writer) (p : BodyPlan) (layer : Layer) :
    Emits w [] [] 0 (w.mark p layer) := by
  unfold mark
  refine Emits.after (emits_quiet _ ?_) ((Emits.refl w).of_eq rfl rfl rfl)
  intro c hc
  simp only [List.mem_cons, List.not_mem_nil, or_false] at hc
  rcases hc with rfl | rfl <;> exact Command.quiet_commentLine _

theorem emits_enter (w : Writer) (p : BodyPlan) (layer : Layer) (first : Segment)
    (commands : List Command) : Emits w [] [] 0 (w.enter p layer first commands) := by
  unfold enter
  exact (emits_travel w _ _).quiet (emits_restore _ first.entry)

theorem emits_finish (w : Writer) (p : BodyPlan) : Emits w [] [] 0 (w.finish p) := by
  unfold finish
  refine Emits.quiet ?_ (emits_restore _ p.program.exit)
  split
  · exact w.emits_write (Move.quiet_build _)
  · exact .refl w

theorem emits_change (w : Writer) (s : ToolChange) (source : Option Tool) (tool : Tool) :
    Emits w [] ((s.block source tool w.ensureAbsolute.ceiling).filterMap Command.tool) 1
      (w.change s source tool) where
  commands := by
    have hblock := w.emits_ensureAbsolute.trans
      (w.ensureAbsolute.emits_writeAll (s.block source tool w.ensureAbsolute.ceiling))
    have hown : (s.block source tool w.ensureAbsolute.ceiling).filter (fun c => c.line.isSome) =
        [] := by
      rw [List.filter_eq_nil_iff]
      intro c hc
      rw [s.flavor.line_of_mem_render _ c hc]
      simp
    rw [hown] at hblock
    exact hblock.commands
  changes := congrArg (· + 1) w.emits_ensureAbsolute.changes

theorem emits_kept (w : Writer) {segments : List Segment} (h : ∀ s ∈ segments, s.Scanned) :
    Emits w (segments.flatMap Segment.kept) [] 0
      (w.writeAll ((segments.flatMap Segment.commands).filter keeps)) := by
  have hkept : (segments.flatMap Segment.commands).filter keeps =
      segments.flatMap Segment.kept := by
    rw [List.filter_flatMap]
    rfl
  have hmem : ∀ c ∈ segments.flatMap Segment.kept, c.line.isSome = true ∧ c.tool = none := by
    intro c hc
    obtain ⟨s, hs, hc⟩ := List.mem_flatMap.mp hc
    obtain ⟨hc, hkeeps⟩ := List.mem_filter.mp hc
    obtain ⟨hline, htool⟩ := h s hs c hc
    refine ⟨hline, Option.eq_none_iff_forall_ne_some.mpr fun t ht => ?_⟩
    have hmember := htool (by rw [ht]; rfl)
    exact absurd (hmember.symm.trans (keeps_iff.mp hkeeps).1) (by simp)
  have hall := w.emits_writeAll (segments.flatMap Segment.kept)
  rw [List.filter_eq_self.mpr fun c hc => (hmem c hc).1,
    List.filterMap_eq_nil_iff.mpr fun c hc => (hmem c hc).2] at hall
  rwa [hkept]

theorem emits_run (w : Writer) (p : BodyPlan) (layer : Layer) {run : List Segment}
    (h : ∀ s ∈ run, s.Scanned) :
    Emits w (run.flatMap Segment.kept) [] 0 (w.run p layer run) := by
  cases run with
  | nil => exact .refl w
  | cons first rest => exact (emits_kept _ h).after (w.emits_enter p layer first _)

theorem emits_runs (w : Writer) (p : BodyPlan) (layer : Layer) {runs : List (List Segment)}
    (h : ∀ s ∈ runs.flatten, s.Scanned) :
    Emits w (runs.flatten.flatMap Segment.kept) [] 0
      (runs.foldl (fun w run => w.run p layer run) w) := by
  induction runs generalizing w with
  | nil => exact .refl w
  | cons run runs ih =>
      rw [List.flatten_cons, List.flatMap_append]
      exact (w.emits_run p layer fun s hs => h s (List.mem_append_left _ hs)).trans
        (ih _ fun s hs => h s (List.mem_append_right run hs))

/-- The tools that the change due in front of a visit selects. -/
def dueSelects (w : Writer) (p : BodyPlan) (layer : Layer) :
    Option (Option Tool × Tool) → List Tool
  | some (source, tool) =>
      (p.settings.toolChange.block source tool
        (w.mark p layer).ensureAbsolute.ceiling).filterMap Command.tool
  | none => []

theorem emits_due (w : Writer) (p : BodyPlan) (layer : Layer)
    (due : Option (Option Tool × Tool)) :
    Emits w [] (w.dueSelects p layer due) (if due.isSome then 1 else 0)
      (match due with
        | some (source, tool) => (w.mark p layer).change p.settings.toolChange source tool
        | none => w.mark p layer) := by
  cases due with
  | none => exact w.emits_mark p layer
  | some change => exact (emits_change _ _ change.1 change.2).after (w.emits_mark p layer)

theorem emits_visit (w : Writer) (p : BodyPlan) (due : Option (Option Tool × Tool)) {v : Visit}
    (h : ∀ s ∈ v.segments, s.Scanned) :
    Emits w (v.segments.flatMap Segment.kept) (w.dueSelects p v.layer due)
      (if due.isSome then 1 else 0) (w.visit p due v) := by
  have hflatten : v.runs.flatten = v.segments := List.flatten_splitBy _ v.segments
  have hruns := ((w.emits_due p v.layer due).quiet (emits_catchUp _ p v.layer.index)).trans
    (emits_runs _ p v.layer (hflatten.symm ▸ h))
  rw [hflatten, List.nil_append, List.append_nil, Nat.add_zero] at hruns
  exact hruns.of_eq rfl rfl rfl

end Writer

end ToolBatching
