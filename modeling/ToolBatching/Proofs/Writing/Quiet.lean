import ToolBatching.Body.Writer
import ToolBatching.Proofs.CommandText

namespace ToolBatching

namespace Command

/-- How lines begin that are written outside tool-change blocks. -/
def quietHeads : List Char :=
  [';', 'G', 'M']

theorem forall_quietHeads {P : Char → Prop} (hcomment : P ';') (hmotion : P 'G')
    (hmachine : P 'M') : ∀ d ∈ quietHeads, P d := by
  intro d hd
  simp only [quietHeads, List.mem_cons, List.not_mem_nil, or_false] at hd
  rcases hd with rfl | rfl | rfl
  · exact hcomment
  · exact hmotion
  · exact hmachine

def beginsQuiet (text : String) : Bool :=
  text.toList.head?.any quietHeads.contains

theorem beginsQuiet_append {text : String} (h : beginsQuiet text = true) (more : String) :
    beginsQuiet (text ++ more) = true := by
  unfold beginsQuiet at h ⊢
  rw [String.toList_append]
  cases htext : text.toList with
  | nil =>
      rw [htext] at h
      exact absurd h (by simp)
  | cons c rest =>
      rw [htext] at h
      exact h

theorem exists_of_beginsQuiet {text : String} (h : beginsQuiet text = true) :
    ∃ c rest, text.toList = c :: rest ∧ c ∈ quietHeads := by
  unfold beginsQuiet at h
  cases htext : text.toList with
  | nil =>
      rw [htext] at h
      exact absurd h (by simp)
  | cons c rest =>
      rw [htext] at h
      exact ⟨c, rest, rfl, by simpa using h⟩

theorem selectedTool_eq_none {words : List Word} (h : ∀ w ∈ words.head?, w.letter ≠ 'T') :
    selectedTool words = none := by
  unfold selectedTool
  split
  · exact absurd rfl (h _ rfl)
  · rfl

theorem tool_ofText_eq_none (line : Option Nat) {raw : String} (h : beginsQuiet raw = true) :
    (ofText line raw).tool = none := by
  obtain ⟨c, rest, hraw, hc⟩ := exists_of_beginsQuiet h
  have hletters : ∀ d ∈ quietHeads, Text.isBlank d = false ∧ d ≠ 'T' :=
    forall_quietHeads (by decide) (by decide) (by decide)
  obtain ⟨hblank, hother⟩ := hletters c hc
  apply selectedTool_eq_none
  intro w hw
  have hfront := prefix_of_head_words hraw hblank w hw
  rw [hraw, Word.text, List.cons_prefix_cons] at hfront
  rw [hfront.1]
  exact hother

theorem tool_parse_eq_none (line : Nat) {text : String} (h : beginsQuiet text = true) :
    (parse line text).tool = none := by
  obtain ⟨c, rest, htext, hc⟩ := exists_of_beginsQuiet h
  have hend : ∀ d ∈ quietHeads, (d == '\r' || d == '\n') = false :=
    forall_quietHeads (by decide) (by decide) (by decide)
  obtain ⟨rest', hraw⟩ : ∃ rest', Text.dropEndWhile (fun d => d == '\r' || d == '\n')
      (c :: rest) = c :: rest' :=
    Text.dropEndWhile_cons (hend c hc) rest
  refine tool_ofText_eq_none (some line) ?_
  rw [htext, hraw, beginsQuiet, String.toList_ofList]
  simpa using hc

/-- A command that is not in the source and selects no tool. -/
structure Quiet (c : Command) : Prop where
  line : c.line = none
  tool : c.tool = none

theorem quiet_synthesized {text : String} (h : beginsQuiet text = true) :
    (synthesized text).Quiet :=
  ⟨rfl, tool_ofText_eq_none none h⟩

theorem quiet_commentLine (text : String) : (commentLine text).Quiet :=
  quiet_synthesized (beginsQuiet_append (by decide) text)

end Command

theorem Move.quiet_build (m : Move) : m.build.Quiet := by
  refine Command.quiet_synthesized ?_
  unfold Move.text
  repeat refine Command.beginsQuiet_append ?_ _
  decide

namespace Machine

theorem quiet_restoration (m target : Machine) : ∀ c ∈ m.restoration target, c.Quiet := by
  intro c hc
  simp only [restoration, List.mem_append] at hc
  rcases hc with ((hc | hc) | hc) | hc
  · unfold restorePositioning at hc
    split at hc
    · exact absurd hc (by simp)
    · obtain rfl := List.mem_singleton.mp hc
      exact Command.quiet_synthesized (by cases target.positioning <;> decide)
  · unfold restoreExtrusion at hc
    split at hc
    · exact absurd hc (by simp)
    · obtain rfl := List.mem_singleton.mp hc
      exact Command.quiet_synthesized (by cases target.extrusion <;> decide)
  · unfold restorePosition at hc
    split at hc
    · obtain rfl := List.mem_singleton.mp hc
      exact Command.quiet_synthesized (Command.beginsQuiet_append (by decide) _)
    · exact absurd hc (by simp)
  · unfold restoreFeedrate at hc
    split at hc
    · split at hc
      · exact absurd hc (by simp)
      · obtain rfl := List.mem_singleton.mp hc
        exact Move.quiet_build _
    · exact absurd hc (by simp)

end Machine

namespace Travel

theorem mem_plan {t : Travel} {s : HopSettings} {m : Machine} {c : Command}
    (hc : c ∈ (t.plan s m).commands) : (∃ z, c = vertical s z) ∨ ∃ x y, c = lateral s x y := by
  unfold plan at hc
  split at hc
  · simp only [hop, List.mem_cons, List.not_mem_nil, or_false] at hc
    rcases hc with rfl | rfl | rfl
    · exact Or.inl ⟨_, rfl⟩
    · exact Or.inr ⟨_, _, rfl⟩
    · exact Or.inl ⟨_, rfl⟩
  · by_cases hrises : m.z ≤ t.z
    · simp only [direct, if_pos hrises] at hc
      rcases List.mem_append.mp hc with hrise | hslide
      · exact Or.inl ⟨_, List.mem_singleton.mp (List.mem_ite_nil_right.mp hrise).2⟩
      · exact Or.inr ⟨_, _, List.mem_singleton.mp (List.mem_ite_nil_right.mp hslide).2⟩
    · simp only [direct, if_neg hrises] at hc
      rcases List.mem_append.mp hc with hslide | hrise
      · exact Or.inr ⟨_, _, List.mem_singleton.mp (List.mem_ite_nil_right.mp hslide).2⟩
      · exact Or.inl ⟨_, List.mem_singleton.mp (List.mem_ite_nil_right.mp hrise).2⟩

theorem exists_move {t : Travel} {s : HopSettings} {m : Machine} {c : Command}
    (hc : c ∈ (t.plan s m).commands) : ∃ move : Move, move.comment = none ∧ c = move.build := by
  rcases mem_plan hc with ⟨z, rfl⟩ | ⟨x, y, rfl⟩
  · exact ⟨_, rfl, rfl⟩
  · exact ⟨_, rfl, rfl⟩

theorem quiet_plan (t : Travel) (s : HopSettings) (m : Machine) :
    ∀ c ∈ (t.plan s m).commands, c.Quiet := by
  intro c hc
  obtain ⟨move, -, rfl⟩ := exists_move hc
  exact move.quiet_build

end Travel

namespace PrimeTower

theorem quiet_loop (t : PrimeTower) (perMm x y side : Float) :
    ∀ c ∈ t.loop perMm x y side, c.Quiet := by
  intro c hc
  simp only [loop, List.mem_cons, List.not_mem_nil, or_false] at hc
  rcases hc with rfl | rfl | rfl | rfl | rfl <;> exact Move.quiet_build _

theorem forall_layerMoves {t : PrimeTower} {holds : Command → Prop}
    (h : ∀ perMm x y side, ∀ c ∈ t.loop perMm x y side, holds c) (tool : Tool)
    (layerHeight : Float) : ∀ c ∈ t.layerMoves tool layerHeight, holds c := by
  have hloops (perMm x y : Float) (left i : Nat) :
      ∀ c ∈ t.loopsFrom perMm x y left i, holds c := by
    induction left generalizing i with
    | zero => simp [loopsFrom]
    | succ left ih =>
        intro c hc
        simp only [loopsFrom] at hc
        split at hc
        · exact absurd hc (by simp)
        · rcases List.mem_append.mp hc with hc | hc
          · exact h _ _ _ _ c hc
          · exact ih (i + 1) c hc
  exact hloops _ _ _ _ 0

theorem quiet_layerMoves (t : PrimeTower) (tool : Tool) (layerHeight : Float) :
    ∀ c ∈ t.layerMoves tool layerHeight, c.Quiet :=
  forall_layerMoves t.quiet_loop tool layerHeight

end PrimeTower

end ToolBatching
