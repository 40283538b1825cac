import ToolBatching.Proofs.Number.Raising
import ToolBatching.Proofs.Writing.Composed

namespace ToolBatching

open Number

namespace Number

theorem within_of_not_lt {x y : Float} (hx : x.isNaN = false) (hy : y.isFinite = true)
    (h : ¬ tolerance < (x - y).abs) : Within (1 / 10 ^ 5) x y := by
  have hpower : (2 : ℚ) ^ (-19 : ℤ) = 1 / 2 ^ 19 := by norm_num
  have hsmall : value tolerance < 2 ^ (-19 : ℤ) := by
    rw [hpower]
    exact tolerance_lt.2
  obtain ⟨hfinite, hclose⟩ :=
    abs_sub_lt_of_not_lt tolerance_lt.1 (by decide) hsmall hx hy h
  refine ⟨hfinite, hy, hclose.le.trans ?_⟩
  norm_num

end Number

theorem mem_coordinate_of_not_isFinite (places : Nat) {x : Float} (h : x.isFinite = false) :
    'a' ∈ (coordinate places x).toList ∨ 'i' ∈ (coordinate places x).toList := by
  rw [coordinate, String.toList_ofList, fixedPoint, String.toList_ofList]
  cases hnumber : x.isNaN with
  | true =>
      left
      simp only [magnitudeText, hnumber, if_true, Bool.not_true, Bool.and_false,
        Bool.false_eq_true, if_false]
      decide
  | false =>
      right
      simp only [magnitudeText, hnumber, h, Bool.false_eq_true, if_false, Bool.not_false,
        Bool.and_true]
      split <;> decide

namespace Command

/-- The command that sets the extruder position. -/
def extruder (e : Float) : Command :=
  .synthesized ("G92 E" ++ coordinate extrusionPlaces e)

theorem toList_extruder (e : Float) :
    ("G92 E" ++ coordinate extrusionPlaces e).toList =
      (Word.mk 'G' ['9', '2']).text ++
        (Move.field 'E' extrusionPlaces (some e)).flatMap fun w => ' ' :: w.text := by
  have hword : "E".toList = ['E'] := rfl
  rw [← Move.toList_word hword, Move.word, String.toList_append, String.toList_append,
    String.toList_append]
  rfl

theorem codeOf_extruder (e : Float) :
    codeOf ("G92 E" ++ coordinate extrusionPlaces e) =
      ("G92 E" ++ coordinate extrusionPlaces e).toList := by
  apply codeOf_spaced (toList_extruder e)
  rw [List.forall_mem_cons]
  exact ⟨Text.unspaced_of_all (by decide), Move.chars_field (by decide)⟩

theorem scan_extruder {e : Float} (h : e.isFinite = true) :
    Word.scan (codeOf ("G92 E" ++ coordinate extrusionPlaces e)) =
      some (⟨'G', ['9', '2']⟩ :: Move.field 'E' extrusionPlaces (some e)) := by
  rw [codeOf_extruder, toList_extruder]
  apply Word.scan_spaced
  rw [List.forall_mem_cons]
  exact ⟨by decide, Move.wellFormed_field (by decide) (by simpa using h)⟩

theorem scan_extruder_eq_none {e : Float} (h : e.isFinite = false) :
    Word.scan (codeOf ("G92 E" ++ coordinate extrusionPlaces e)) = none := by
  rw [codeOf_extruder, String.toList_append]
  rcases mem_coordinate_of_not_isFinite extrusionPlaces h with hname | hname
  · exact Word.scan_eq_none (List.mem_append_right _ hname) (by decide) (by decide) (by decide)
  · exact Word.scan_eq_none (List.mem_append_right _ hname) (by decide) (by decide) (by decide)

theorem target_extruder (e : Float) (a : Axis) :
    (extruder e).target a =
      if a = .e ∧ e.isFinite = true then Move.readBack extrusionPlaces (some e) else none := by
  cases hfinite : e.isFinite with
  | false =>
      have hscan := scan_extruder_eq_none hfinite
      have hcode : (extruder e).mnemonic = "" := by
        simp only [extruder, synthesized, ofText, hscan]
        rfl
      rw [target_of_not_isMotion hcode (by decide), if_neg (by simp)]
  | true =>
      obtain ⟨r, hread, -⟩ := Move.exists_readBack .e hfinite
      rw [show Axis.e.places = extrusionPlaces from rfl] at hread
      have halong (b : Axis) : (extruder e).along b = if b = .e then some r else none := by
        rw [extruder, synthesized, along_ofText, scan_extruder hfinite, Option.getD_some,
          List.tail_cons, Move.addressed_field, hread]
        cases b <;> rfl
      have hcode : (extruder e).mnemonic = "G92" := by
        simp only [extruder, synthesized, ofText, scan_extruder hfinite]
        rfl
      have hquiet : (extruder e).tool = none :=
        (quiet_synthesized (beginsQuiet_append (by decide) _)).tool
      have hset : (extruder e).e = some r := halong .e
      unfold target
      rw [hquiet, hcode]
      simp [hset, halong, hread]

theorem switches_extruder (e : Float) (a : Axis) : (extruder e).switches a = none := by
  apply switches_eq_none
  simp only [List.mem_cons, List.not_mem_nil, or_false, not_or]
  exact ⟨mnemonic_ofText_ne none (by decide) _, mnemonic_ofText_ne none (by decide) _,
    mnemonic_ofText_ne none (by decide) _, mnemonic_ofText_ne none (by decide) _⟩

end Command

namespace Machine

variable {m target : Machine} {a : Axis}

theorem target_positioning (mode : Mode) (a : Axis) :
    (Command.synthesized (positioningCode mode)).target a = none ∧
      (Command.synthesized (positioningCode mode)).switches .e = none := by
  cases mode <;> cases a <;> decide

theorem target_extrusion (mode : Mode) (a : Axis) :
    (Command.synthesized (extrusionCode mode)).target a = none ∧
      (Command.synthesized (extrusionCode mode)).switches .e = some mode := by
  cases mode <;> cases a <;> decide

theorem mem_restorePositioning {c : Command} (h : c ∈ m.restorePositioning target) :
    c = .synthesized (positioningCode target.positioning) := by
  obtain ⟨-, hc⟩ := List.mem_ite_nil_left.mp h
  exact List.mem_singleton.mp hc

theorem mem_restoreExtrusion {c : Command} (h : c ∈ m.restoreExtrusion target) :
    c = .synthesized (extrusionCode target.extrusion) := by
  obtain ⟨-, hc⟩ := List.mem_ite_nil_left.mp h
  exact List.mem_singleton.mp hc

theorem mem_restorePosition {c : Command} (h : c ∈ m.restorePosition target) :
    c = .extruder target.e := by
  obtain ⟨-, hc⟩ := List.mem_ite_nil_right.mp h
  exact List.mem_singleton.mp hc

theorem mem_restoreFeedrate {c : Command} (h : c ∈ m.restoreFeedrate target) :
    ∃ f, c = Move.build { f := some f } := by
  unfold restoreFeedrate at h
  split at h
  · obtain ⟨-, hc⟩ := List.mem_ite_nil_left.mp h
    exact ⟨_, List.mem_singleton.mp hc⟩
  · exact absurd h (by simp)

theorem target_feedrate (f : Float) (a : Axis) :
    (Move.build { f := some f }).target a = none := by
  apply Move.target_build_eq_none _ rfl
  cases a <;> rfl

theorem target_restoration {c : Command} (hc : c ∈ m.restoration target) (ha : a ≠ .e) :
    c.target a = none := by
  simp only [restoration, List.mem_append] at hc
  rcases hc with ((hc | hc) | hc) | hc
  · rw [mem_restorePositioning hc]
    exact (target_positioning _ a).1
  · rw [mem_restoreExtrusion hc]
    exact (target_extrusion _ a).1
  · rw [mem_restorePosition hc, Command.target_extruder, if_neg (by simp [ha])]
  · obtain ⟨f, rfl⟩ := mem_restoreFeedrate hc
    exact target_feedrate f a

theorem along_restoration (m target : Machine) (ha : a ≠ .e) :
    (m.run (m.restoration target)).along a = m.along a :=
  along_run_eq_self fun _ hc => target_restoration hc ha

theorem mode_restoreExtrusion (m target : Machine) :
    (m.run (m.restoreExtrusion target)).mode .e = target.mode .e := by
  unfold restoreExtrusion
  split
  · rename_i hsame
    exact hsame
  · rw [run_cons, run_nil, mode_step, (target_extrusion _ .e).2, Option.getD_some]
    rfl

theorem mode_restoreModes (m target : Machine) :
    (m.run (m.restorePositioning target ++ m.restoreExtrusion target)).mode .e =
      target.mode .e := by
  have hsame : (m.run (m.restorePositioning target)).mode .e = m.mode .e := by
    apply mode_run_eq_self
    intro c hc
    rw [mem_restorePositioning hc]
    exact (target_positioning _ .e).2
  have hextrusion : m.restoreExtrusion target =
      (m.run (m.restorePositioning target)).restoreExtrusion target := by
    unfold restoreExtrusion
    rw [show (m.run (m.restorePositioning target)).extrusion = m.extrusion from hsame]
  rw [run_append, hextrusion, mode_restoreExtrusion]

theorem mode_restoration (m target : Machine) :
    (m.run (m.restoration target)).mode .e = target.mode .e := by
  rw [restoration, List.append_assoc, run_append, mode_run_eq_self, mode_restoreModes]
  intro c hc
  rcases List.mem_append.mp hc with hc | hc
  · rw [mem_restorePosition hc]
    exact Command.switches_extruder target.e .e
  · obtain ⟨f, rfl⟩ := mem_restoreFeedrate hc
    exact Move.switches_build _ _

theorem e_restoreModes (m target : Machine) :
    (m.run (m.restorePositioning target ++ m.restoreExtrusion target)).e = m.e := by
  apply along_run_eq_self (a := .e)
  intro c hc
  rcases List.mem_append.mp hc with hc | hc
  · rw [mem_restorePositioning hc]
    exact (target_positioning _ .e).1
  · rw [mem_restoreExtrusion hc]
    exact (target_extrusion _ .e).1

theorem e_restoreFeedrate (m n target : Machine) : (n.run (m.restoreFeedrate target)).e = n.e := by
  apply along_run_eq_self (a := .e)
  intro c hc
  obtain ⟨f, rfl⟩ := mem_restoreFeedrate hc
  exact target_feedrate f .e

theorem restorePosition_eq (m : Machine) (h : target.extrusion = .absolute) :
    m.restorePosition target =
      if tolerance < (m.e - target.e).abs then [.extruder target.e] else [] := by
  simp [restorePosition, h, Command.extruder]

theorem within_extruder {n : Machine} (h : n.mode .e = .absolute) {e : Float}
    (he : e.isFinite = true) : Within (1 / 10 ^ 5) (n.step (.extruder e)).e e := by
  obtain ⟨r, hread, hclose⟩ := Move.exists_readBack .e he
  have hstep : (n.step (.extruder e)).e = r := by
    have halong := along_step h (.extruder e)
    rw [Command.target_extruder, if_pos ⟨rfl, he⟩,
      show extrusionPlaces = Axis.e.places from rfl, hread, Option.getD_some] at halong
    exact halong
  rw [hstep]
  exact hclose

theorem within_restoration (htarget : target.extrusion = .absolute)
    (hfinite : target.e.isFinite = true)
    (hnumber : (m.run (m.restoration target)).e.isNaN = false) :
    Within (1 / 10 ^ 5) (m.run (m.restoration target)).e target.e := by
  have hplace := e_restoreModes m target
  have hmode : (m.run (m.restorePositioning target ++ m.restoreExtrusion target)).mode .e =
      .absolute := (mode_restoreModes m target).trans htarget
  rw [restoration, run_append, e_restoreFeedrate, run_append, restorePosition_eq m htarget]
    at hnumber ⊢
  generalize m.run (m.restorePositioning target ++ m.restoreExtrusion target) = switched
    at hplace hmode hnumber ⊢
  split at hnumber
  · rename_i hfar
    rw [if_pos hfar, run_cons, run_nil]
    exact within_extruder hmode hfinite
  · rename_i hnear
    rw [run_nil, hplace] at hnumber
    rw [if_neg hnear, run_nil, hplace]
    exact within_of_not_lt hnumber hfinite hnear

end Machine

end ToolBatching
