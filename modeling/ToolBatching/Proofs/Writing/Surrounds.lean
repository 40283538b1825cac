import ToolBatching.Proofs.Writing.Emission

namespace ToolBatching

namespace BodyPlan

/-- The states whose modes are restored while a body is written. -/
inductive Restores (p : BodyPlan) : Machine → Prop
  | entry {s : Segment} (h : s ∈ p.program.segments) : p.Restores s.entry
  | exit : p.Restores p.program.exit

/-- The commands that are written between the markers and the source lines of a body. -/
inductive Surrounds (p : BodyPlan) : Command → Prop
  | tower (tool : Tool) (index : Nat) :
      p.Surrounds (.commentLine s!"prime tower T{tool} layer {index}")
  | move {m : Move} (h : m.comment = none) : p.Surrounds m.build
  | absolute : p.Surrounds (.synthesized "G90")
  | positioning {m : Machine} (h : p.Restores m) :
      p.Surrounds (.synthesized (Machine.positioningCode m.positioning))
  | extrusion (mode : Mode) : p.Surrounds (.synthesized (Machine.extrusionCode mode))
  | extruder (e : Float) :
      p.Surrounds (.synthesized ("G92 E" ++ coordinate extrusionPlaces e))
  | block {source : Option Tool} {tool : Tool} {ceiling : Float} {c : Command}
      (h : c ∈ p.settings.toolChange.block source tool ceiling) : p.Surrounds c

theorem surrounds_restoration {p : BodyPlan} {target : Machine} (h : p.Restores target)
    (m : Machine) : ∀ c ∈ m.restoration target, p.Surrounds c := by
  intro c hc
  simp only [Machine.restoration, List.mem_append] at hc
  rcases hc with ((hc | hc) | hc) | hc
  · obtain ⟨-, hc⟩ := List.mem_ite_nil_left.mp hc
    obtain rfl := List.mem_singleton.mp hc
    exact .positioning h
  · obtain ⟨-, hc⟩ := List.mem_ite_nil_left.mp hc
    obtain rfl := List.mem_singleton.mp hc
    exact .extrusion target.extrusion
  · obtain ⟨-, hc⟩ := List.mem_ite_nil_right.mp hc
    obtain rfl := List.mem_singleton.mp hc
    exact .extruder target.e
  · unfold Machine.restoreFeedrate at hc
    split at hc
    · obtain ⟨-, hc⟩ := List.mem_ite_nil_left.mp hc
      obtain rfl := List.mem_singleton.mp hc
      exact .move rfl
    · exact absurd hc (by simp)

theorem surrounds_plan (p : BodyPlan) (t : Travel) (s : HopSettings) (m : Machine) :
    ∀ c ∈ (t.plan s m).commands, p.Surrounds c := by
  intro c hc
  obtain ⟨move, hcomment, rfl⟩ := Travel.exists_move hc
  exact .move hcomment

theorem OfTower.surrounds {p : BodyPlan} {tool : Tool} {index : Nat} {c : Command}
    (h : p.OfTower tool index c) : p.Surrounds c := by
  cases h with
  | relative => exact .extrusion .relative
  | comment => exact .tower tool index
  | move h =>
      refine PrimeTower.forall_layerMoves ?_ tool _ c h
      intro perMm x y side c hc
      simp only [PrimeTower.loop, List.mem_cons, List.not_mem_nil, or_false] at hc
      rcases hc with rfl | rfl | rfl | rfl | rfl <;> exact .move rfl

end BodyPlan

namespace Writer

variable {w next last : Writer} {holds : Command → Prop} {p : BodyPlan}

/-- A step that begins no visit: all commands that it adds to the body have a property. -/
structure Writes (holds : Command → Prop) (w next : Writer) : Prop where
  commands : ∃ added, next.body.toList = w.body.toList ++ added ∧ ∀ c ∈ added, holds c
  visits : next.counts.visits = w.counts.visits

namespace Writes

theorem refl (w : Writer) : Writes holds w w where
  commands := ⟨[], by simp, by simp⟩
  visits := rfl

theorem trans (h : Writes holds w next) (h' : Writes holds next last) : Writes holds w last where
  commands := by
    obtain ⟨added, hbody, hadded⟩ := h.commands
    obtain ⟨added', hbody', hadded'⟩ := h'.commands
    refine ⟨added ++ added', ?_, ?_⟩
    · rw [hbody', hbody, List.append_assoc]
    · rw [List.forall_mem_append]
      exact ⟨hadded, hadded'⟩
  visits := h'.visits.trans h.visits

theorem of_eq (h : Writes holds w next) (hbody : last.body = next.body)
    (hvisits : last.counts.visits = next.counts.visits) : Writes holds w last where
  commands := by
    rw [hbody]
    exact h.commands
  visits := hvisits.trans h.visits

theorem mono {implied : Command → Prop} (h : Writes holds w next)
    (himplied : ∀ c, holds c → implied c) : Writes implied w next where
  commands := by
    obtain ⟨added, hbody, hadded⟩ := h.commands
    exact ⟨added, hbody, fun c hc => himplied c (hadded c hc)⟩
  visits := h.visits

theorem foldl {α : Type} {step : Writer → α → Writer} {items : List α}
    (h : ∀ w, ∀ a ∈ items, Writes holds w (step w a)) (w : Writer) :
    Writes holds w (items.foldl step w) := by
  induction items generalizing w with
  | nil => exact refl w
  | cons a items ih =>
      exact (h w a List.mem_cons_self).trans
        (ih (fun w b hb => h w b (List.mem_cons_of_mem a hb)) (step w a))

end Writes

theorem writes_writeAll (w : Writer) {cs : List Command} (h : ∀ c ∈ cs, holds c) :
    Writes holds w (w.writeAll cs) where
  commands := ⟨cs, (w.writeAll_spec cs).1, h⟩
  visits := congrArg BodyCounts.visits (w.writeAll_spec cs).2.2

theorem writes_write (w : Writer) {c : Command} (h : holds c) : Writes holds w (w.write c) :=
  w.writes_writeAll (List.forall_mem_singleton.mpr h)

theorem writes_ensureAbsolute (w : Writer) : Writes p.Surrounds w w.ensureAbsolute := by
  unfold ensureAbsolute
  split
  · exact w.writes_write .absolute
  · exact .refl w

theorem writes_travel (w : Writer) (s : HopSettings) (t : Travel) :
    Writes p.Surrounds w (w.travel s t) := by
  have hmoves := w.ensureAbsolute.writes_writeAll (p.surrounds_plan t s w.ensureAbsolute.machine)
  exact (w.writes_ensureAbsolute.trans hmoves).of_eq rfl hmoves.visits.symm

theorem writes_restore (w : Writer) {target : Machine} (h : p.Restores target) :
    Writes p.Surrounds w (w.restore target) :=
  w.writes_writeAll (BodyPlan.surrounds_restoration h w.machine)

theorem writes_change (w : Writer) (source : Option Tool) (tool : Tool) :
    Writes p.Surrounds w (w.change p.settings.toolChange source tool) := by
  have hblock : Writes p.Surrounds w.ensureAbsolute (w.ensureAbsolute.writeAll
      (p.settings.toolChange.block source tool w.ensureAbsolute.ceiling)) :=
    w.ensureAbsolute.writes_writeAll fun _ hc => .block hc
  exact (w.writes_ensureAbsolute.trans hblock).of_eq rfl hblock.visits.symm

theorem writes_towerLayer (w : Writer) (tool : Tool) (index : Nat) :
    Writes p.Surrounds w (w.towerLayer p tool index) := by
  apply towerLayer_induction (.refl w) fun layer _ => w.writes_travel p.settings.hop _
  · intro v c hc hv
    exact hv.trans (v.writes_write hc.surrounds)
  · intro v n hv
    exact hv.of_eq rfl rfl

theorem writes_catchUp (w : Writer) (index : Nat) :
    Writes p.Surrounds w (w.catchUp p index) := by
  unfold catchUp
  split
  · split
    · rename_i tool _
      refine Writes.trans ?_ (Writes.foldl (fun w j _ => w.writes_towerLayer tool j) _)
      exact (Writes.refl w).of_eq rfl rfl
    · exact .refl w
  · exact .refl w

theorem writes_enter (w : Writer) (layer : Layer) {first : Segment}
    (h : first ∈ p.program.segments) (commands : List Command) :
    Writes p.Surrounds w (w.enter p layer first commands) :=
  (writes_travel w _ _).trans (writes_restore _ (.entry h))

theorem writes_finish (w : Writer) : Writes p.Surrounds w (w.finish p) := by
  unfold finish
  refine Writes.trans ?_ (writes_restore _ .exit)
  split
  · exact w.writes_write (.move rfl)
  · exact .refl w

end Writer

end ToolBatching
