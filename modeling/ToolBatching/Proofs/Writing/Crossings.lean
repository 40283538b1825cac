import ToolBatching.Proofs.MarkerText
import ToolBatching.Proofs.Writing.BlockHeights

namespace ToolBatching

/-- Whether the text of a command has the letters of a move of a tower. -/
structure Command.Outlines (c : Command) : Prop where
  x : 'X' ∈ c.raw.toList
  y : 'Y' ∈ c.raw.toList
  speed : 'F' ∈ c.raw.toList → 'E' ∈ c.raw.toList

namespace PrimeTower

theorem outlines_loop (t : PrimeTower) (perMm x y side : Float) :
    ∀ c ∈ t.loop perMm x y side, c.Outlines := by
  have hletters {m : Move} {x y : Float} (hx : m.x = some x) (hy : m.y = some y)
      (hf : 'F' ∈ m.text.toList → 'E' ∈ m.text.toList) : m.build.Outlines := by
    have hX : 'X' ∈ (Move.word "X" axisPlaces (some x)).toList := Move.mem_word (by decide) _ x
    have hY : 'Y' ∈ (Move.word "Y" axisPlaces (some y)).toList := Move.mem_word (by decide) _ y
    refine ⟨?_, ?_, hf⟩
    · change 'X' ∈ m.text.toList
      simp only [Move.text, hx, String.toList_append, List.mem_append, hX, or_true, true_or]
    · change 'Y' ∈ m.text.toList
      simp only [Move.text, hy, String.toList_append, List.mem_append, hY, or_true, true_or]
  have hcorner (x y : Float) : (Move.build { x := some x, y := some y }).Outlines := by
    refine hletters rfl rfl fun hspeed => absurd hspeed ?_
    exact Move.notMem_text rfl (by decide) (by decide) (Or.inr (by decide)) (Or.inr (by decide))
      (Or.inr (by decide)) (Or.inr (by decide)) (Or.inl rfl)
  have hedge (x y e f : Float) :
      (Move.build { x := some x, y := some y, e := some e, f := some f }).Outlines := by
    have hE : 'E' ∈ (Move.word "E" extrusionPlaces (some e)).toList :=
      Move.mem_word (by decide) _ e
    refine hletters rfl rfl fun _ => ?_
    simp only [Move.text, String.toList_append, List.mem_append, hE, or_true, true_or]
  intro c hc
  simp only [loop, List.mem_cons, List.not_mem_nil, or_false] at hc
  rcases hc with rfl | rfl | rfl | rfl | rfl
  · exact hcorner _ _
  · exact hedge _ _ _ _
  · exact hedge _ _ _ _
  · exact hedge _ _ _ _
  · exact hedge _ _ _ _

end PrimeTower

namespace TemplatePiece

variable {line : List TemplatePiece}

theorem mem_join {letter : Char} (h : lacks letter line = false) (v : ChangeValues) :
    letter ∈ (String.join (line.map (render v))).toList := by
  unfold lacks at h
  induction line with
  | nil => exact absurd h (by simp)
  | cons piece line ih =>
      rw [List.all_cons, Bool.and_eq_false_iff] at h
      rw [List.map_cons, String.join_cons, String.toList_append, List.mem_append]
      rcases h with hpiece | hline
      · cases piece with
        | text s => exact Or.inl (by simpa [render] using hpiece)
        | _ => exact absurd hpiece (by simp)
      · exact Or.inr (ih hline)

/-- Whether a template line is told by its letters from the moves of a tower. -/
def strays (line : List TemplatePiece) : Bool :=
  lacks 'X' line || lacks 'Y' line || !lacks 'F' line && lacks 'E' line

theorem not_outlines {c : Command} (h : strays line = true) {v : ChangeValues}
    (hc : c.raw = String.join (line.map (render v))) : ¬ c.Outlines := by
  rintro ⟨hx, hy, hspeed⟩
  rw [hc] at hx hy hspeed
  rw [strays, Bool.or_eq_true, Bool.or_eq_true, Bool.and_eq_true, Bool.not_eq_true'] at h
  rcases h with (hlacks | hlacks) | ⟨hf, hlacks⟩
  · exact notMem_join (by decide) hlacks v hx
  · exact notMem_join (by decide) hlacks v hy
  · exact notMem_join (by decide) hlacks v (hspeed (mem_join hf v))

end TemplatePiece

theorem Flavor.strays_template (f : Flavor) :
    ∀ line ∈ f.template, TemplatePiece.strays line = true := by
  cases f <;> decide +kernel

theorem Flavor.not_outlines_of_mem_render {f : Flavor} {v : ChangeValues} {c : Command}
    (h : c ∈ f.render v) : ¬ c.Outlines := by
  obtain ⟨n, tag, line, hline, rfl⟩ := exists_of_mem_render h
  apply TemplatePiece.not_outlines (f.strays_template line hline) (v := v)
  rw [Command.parse_of_isLine n (TemplatePiece.plain_join (f.isPlain_template line hline) v).isLine]
  rfl

theorem Travel.not_outlines_lateral (s : HopSettings) (x y : Float) :
    ¬ (lateral s x y).Outlines := by
  rintro ⟨-, -, hspeed⟩
  have hF : 'F' ∈ (Move.word "F" 0 (some s.travelFeedrate)).toList := Move.mem_word (by decide) _ _
  have hE : 'E' ∉ (lateral s x y).raw.toList :=
    Move.notMem_text rfl (by decide) (by decide) (Or.inr (by decide)) (Or.inr (by decide))
      (Or.inr (by decide)) (Or.inl rfl) (Or.inr (by decide))
  apply hE
  apply hspeed
  change 'F' ∈ (Move.text _).toList
  simp only [Move.text, String.toList_append, List.mem_append, hF, or_true, true_or]

namespace Settings

variable {s : Settings} {c : Command}

theorem carries_lateral (h : s.hop.enabled = true) (x y : Float) :
    s.Carries (Travel.lateral s.hop x y) := by
  refine .travel (t := ⟨x, y, 0, 0, true⟩) (m := {}) ?_
  simp [Travel.plan, Travel.needsHop, Travel.hop, h]

theorem Crosses.not_outlines (h : s.Crosses c) : ¬ c.Outlines := by
  cases h.carries with
  | travel hc =>
      rcases Travel.mem_plan hc with ⟨z, rfl⟩ | ⟨x, y, rfl⟩
      · have hshifts := h.shifts
        rw [Travel.shifts_vertical] at hshifts
        exact absurd hshifts (by simp)
      · exact Travel.not_outlines_lateral _ x y
  | block hc => exact Flavor.not_outlines_of_mem_render hc

theorem not_crosses_of_target (hx : c.target .x = none) (hy : c.target .y = none) :
    ¬ s.Crosses c := by
  rintro ⟨-, hshifts⟩
  rw [Command.shifts, hx, hy] at hshifts
  exact absurd hshifts (by simp)

theorem not_crosses_of_line (h : c.line.isSome = true) : ¬ s.Crosses c := by
  rintro ⟨hcarries, -⟩
  rw [hcarries.line] at h
  exact absurd h (by simp)

theorem not_crosses_commentLine (text : String) : ¬ s.Crosses (.commentLine text) := by
  have htarget (a : Axis) : (Command.commentLine text).target a = none :=
    Command.target_of_not_isMotion
      (Command.mnemonic_ofText_of_codeOf_nil none (Command.code_commentText none text)) (by decide)
  exact not_crosses_of_target (htarget .x) (htarget .y)

theorem not_crosses_ofTower {p : BodyPlan} {tool : Tool} {index : Nat}
    (h : p.OfTower tool index c) : ¬ s.Crosses c := by
  cases h with
  | relative =>
      exact not_crosses_of_target (Machine.target_extrusion .relative .x).1
        (Machine.target_extrusion .relative .y).1
  | comment => exact not_crosses_commentLine _
  | move h =>
      intro hcrosses
      exact hcrosses.not_outlines
        (PrimeTower.forall_layerMoves p.settings.primeTower.outlines_loop tool _ c h)

theorem not_crosses_restoration (m target : Machine) :
    ∀ c ∈ m.restoration target, ¬ s.Crosses c := by
  intro c hc
  exact not_crosses_of_target (Machine.target_restoration hc (by decide))
    (Machine.target_restoration hc (by decide))

end Settings

end ToolBatching
