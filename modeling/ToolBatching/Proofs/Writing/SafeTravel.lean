import ToolBatching.Proofs.Writing.Aloft

namespace ToolBatching

open Number

theorem Command.tagged_self {c : Command} {tag : Bool} (h : c.inToolChange = tag) :
    { c with inToolChange := tag } = c := by
  rw [← h]

theorem Move.nearest_build {m : Machine} {move : Move} {a : Axis} (hmode : m.mode a = .absolute)
    (h : move.Finite) (hcomment : move.comment = none) {v : Float} (hv : move.along a = some v) :
    ∃ q, |q - value v| ≤ 1 / 2 / 10 ^ a.places ∧
      Nearest q (value ((m.step move.build).along a)) := by
  obtain ⟨r, hread, -, q, hclose, hnearest⟩ := nearest_readBack a (h.along hv)
  refine ⟨q, hclose, ?_⟩
  rw [Machine.along_step hmode, target_build h hcomment, hv, hread, Option.getD_some]
  exact hnearest

theorem HopSettings.Fits.greater {s : HopSettings} {x y : Float} (hx : s.Fits x) (hy : s.Fits y) :
    s.Fits (Number.greater x y) := by
  unfold Number.greater
  split
  · exact hx
  · exact hy

namespace Travel

variable {s : HopSettings}

theorem vertical_tagged (s : HopSettings) (z : Float) :
    { Move.build { z := some z, f := some s.zFeedrate } with inToolChange := false } =
      vertical s z :=
  Command.tagged_self rfl

theorem shifts_vertical (s : HopSettings) (z : Float) : (vertical s z).shifts = false := by
  have htarget {a : Axis} (ha : a ≠ .z) : (vertical s z).target a = none := by
    apply Move.target_build_eq_none _ rfl
    cases a with
    | z => exact absurd rfl ha
    | _ => rfl
  rw [Command.shifts, htarget (by decide), htarget (by decide)]
  rfl

theorem value_hopZ {t : Travel} {m : Machine} (hm : s.Fits m.z) (hceiling : s.Fits t.ceiling)
    (ht : s.Fits t.z) (hheight : s.height.isFinite = true) (hnonneg : 0 ≤ value s.height) :
    (t.hopZ s m).isFinite = true ∧ value m.z ≤ value (t.hopZ s m) ∧
      value t.ceiling ≤ value (t.hopZ s m) := by
  have htop := (hm.greater hceiling).greater ht
  have hhigher : max (value m.z) (value t.ceiling) ≤ value (t.hopZ s m) := by
    calc
      max (value m.z) (value t.ceiling) = value (greater m.z t.ceiling) :=
        (value_greater hm.height hceiling.height).2.symm
      _ ≤ value (greater (greater m.z t.ceiling) t.z) := by
        rw [(value_greater (hm.greater hceiling).height ht.height).2]
        exact le_max_left _ _
      _ ≤ value (t.hopZ s m) := value_le_add htop.height hheight hnonneg htop.raised
  exact ⟨htop.raised, max_le_iff.mp hhigher⟩

end Travel

/-- Settings with hops whose height and speed in Z can be written. -/
structure HopSettings.Works (s : HopSettings) : Prop where
  enabled : s.enabled = true
  height : s.height.isFinite = true
  nonneg : 0 ≤ value s.height
  zFeedrate : s.zFeedrate.isFinite = true

namespace Writer

variable {s : Settings} {start : Machine} {w : Writer}

theorem aloft_of_not_lt (hw : w.machine.positioning = .absolute)
    (hceiling : w.ceiling.isFinite = true) (hz : w.machine.z.isFinite = true)
    (h : ¬ w.machine.z < w.ceiling - tolerance) : w.Aloft where
  positioning := hw
  height := by
    have hle := le_of_not_lt_sub_tolerance hceiling hz h
    norm_num at hle ⊢
    linarith

theorem aloft_build (hw : w.machine.positioning = .absolute) (hceiling : w.ceiling.isFinite = true)
    (hnonneg : 0 ≤ value w.ceiling) {z f : Float} (hz : z.isFinite = true)
    (hf : f.isFinite = true) (hle : value w.ceiling - 1 / 2 ^ 18 ≤ value z) (tag : Bool) :
    (w.write { Move.build { z := some z, f := some f } with inToolChange := tag }).Aloft := by
  have hfinite : Move.Finite { z := some z, f := some f } :=
    ⟨by simp, by simp, by simpa using hz, by simp, by simpa using hf⟩
  have hword : (Move.build { z := some z, f := some f }).e = none :=
    Move.along_build_eq_none (a := .e) rfl rfl
  obtain ⟨q, hclose, hnearest⟩ := Move.nearest_build (a := .z) hw hfinite rfl rfl
  have hmode := Move.mode_build w.machine { z := some z, f := some f } .x
  simp only [Machine.along, Machine.mode] at hnearest hmode
  generalize Move.build { z := some z, f := some f } = c at hword hnearest hmode ⊢
  have hprints : w.machine.prints { c with inToolChange := tag } = false := by
    apply Machine.prints_eq_false_of_extruded_eq_zero
    simp [Machine.extruded, hword]
  constructor
  · rw [machine_write, Machine.step_tagged, hmode]
    exact hw
  · rw [machine_write, Machine.step_tagged, ceiling_write hprints]
    refine le_of_written hceiling hnonneg hz hle ?_ hnearest
    norm_num [Axis.places, axisPlaces] at hclose
    norm_num
    exact hclose

theorem aloft_vertical (hw : w.machine.positioning = .absolute)
    (hceiling : w.ceiling.isFinite = true) (hnonneg : 0 ≤ value w.ceiling)
    (hs : s.hop.zFeedrate.isFinite = true) {z : Float} (hz : z.isFinite = true)
    (hle : value w.ceiling - 1 / 2 ^ 18 ≤ value z) :
    (w.write (Travel.vertical s.hop z)).Aloft := by
  rw [← Travel.vertical_tagged]
  exact aloft_build hw hceiling hnonneg hz hs hle false

theorem writeAll_cons (w : Writer) (c : Command) (cs : List Command) :
    w.writeAll (c :: cs) = (w.write c).writeAll cs :=
  rfl

theorem writeAll_append (w : Writer) (cs ds : List Command) :
    w.writeAll (cs ++ ds) = (w.writeAll cs).writeAll ds :=
  List.foldl_append

theorem positioning_ensureAbsolute (w : Writer) :
    w.ensureAbsolute.machine.positioning = .absolute := by
  have hswitches : (Command.synthesized "G90").switches .x = some .absolute := by decide
  unfold ensureAbsolute
  split
  · have hmode := Machine.mode_step w.machine (.synthesized "G90") .x
    rw [hswitches] at hmode
    exact hmode
  · rename_i hrelative
    cases hmode : w.machine.positioning with
    | absolute => rfl
    | relative => exact absurd hmode hrelative

theorem ceiling_ensureAbsolute (w : Writer) : w.ensureAbsolute.ceiling = w.ceiling := by
  unfold ensureAbsolute
  split
  · exact ceiling_write (Machine.prints_eq_false_of_not_movesAxis _ (by decide))
  · rfl

namespace Guarded

theorem vertical (h : Guarded s start w) (z : Float) :
    Guarded s start (w.write (Travel.vertical s.hop z)) := by
  apply h.write_idle
  rintro ⟨-, hshifts⟩
  rw [Travel.shifts_vertical] at hshifts
  exact absurd hshifts (by simp)

theorem hop (h : Guarded s start w) (hs : s.hop.Works) {t : Travel}
    (hw : w.machine.positioning = .absolute) (hceiling : t.ceiling = w.ceiling)
    (ht : s.hop.Fits t.z) : Guarded s start (w.writeAll (t.hop s.hop w.machine)) := by
  refine Guarded.vertical (Guarded.write (h.vertical _) ?_) t.z
  intro hfits _ _
  rw [toList_body_write] at hfits
  have htops := h.tops hfits.of_prefix
  obtain ⟨hfinite, -, hle⟩ := Travel.value_hopZ (h.fits hfits.of_prefix) (hceiling ▸ htops.ceiling) ht
    hs.height hs.nonneg
  rw [hceiling] at hle
  exact aloft_vertical hw htops.ceiling.height htops.nonneg hs.zFeedrate hfinite (by linarith)

theorem slide (h : Guarded s start w)
    (haloft : start.Fits s.hop w.body.toList → Tops s start w → w.Aloft) (slides : Prop)
    [Decidable slides] (x y : Float) :
    Guarded s start (w.writeAll (if slides then [Travel.lateral s.hop x y] else [])) := by
  split
  · exact h.write fun hfits htops _ => haloft hfits htops
  · exact h

theorem rise (h : Guarded s start w) (rises : Prop) [Decidable rises] (z : Float) :
    Guarded s start (w.writeAll (if rises then [Travel.vertical s.hop z] else [])) := by
  split
  · exact h.vertical z
  · exact h

theorem direct (h : Guarded s start w) (hs : s.hop.Works) {t : Travel}
    (hw : w.machine.positioning = .absolute) (hceiling : t.ceiling = w.ceiling)
    (ht : s.hop.Fits t.z) (hneeds : t.needsHop w.machine = false) :
    Guarded s start (w.writeAll (t.direct s.hop w.machine)) := by
  simp only [Travel.needsHop, hceiling, Bool.or_eq_false_iff, decide_eq_false_iff_not] at hneeds
  obtain ⟨⟨⟨hleft, hreached⟩, -⟩, -⟩ := hneeds
  have haloft (hfits : start.Fits s.hop w.body.toList) (htops : Tops s start w) : w.Aloft :=
    aloft_of_not_lt hw htops.ceiling.height (h.fits hfits).height hleft
  by_cases hrises : w.machine.z ≤ t.z
  · rw [show t.direct s.hop w.machine = _ from if_pos hrises, writeAll_append]
    refine Guarded.slide (h.rise _ t.z) ?_ _ t.x t.y
    split
    · intro hfits _
      change start.Fits s.hop (w.write _).body.toList at hfits
      rw [toList_body_write] at hfits
      have htops := h.tops hfits.of_prefix
      exact aloft_vertical hw htops.ceiling.height htops.nonneg hs.zFeedrate ht.height
        (le_of_not_lt_sub_tolerance htops.ceiling.height ht.height hreached)
    · exact haloft
  · rw [show t.direct s.hop w.machine = _ from if_neg hrises, writeAll_append]
    exact Guarded.rise (h.slide haloft _ t.x t.y) _ t.z

theorem ensureAbsolute (h : Guarded s start w) : Guarded s start w.ensureAbsolute := by
  have hshifts : (Command.synthesized "G90").shifts = false := by decide
  unfold Writer.ensureAbsolute
  split
  · apply h.write_idle
    rintro ⟨-, hcrosses⟩
    rw [hshifts] at hcrosses
    exact absurd hcrosses (by simp)
  · exact h

theorem travel (h : Guarded s start w) (hs : s.hop.Works) {t : Travel}
    (hceiling : t.ceiling = w.ceiling) (ht : s.hop.Fits t.z) :
    Guarded s start (w.travel s.hop t) := by
  have hguarded := h.ensureAbsolute
  have habsolute := w.positioning_ensureAbsolute
  have hsame := w.ceiling_ensureAbsolute
  have hplan : Guarded s start
      (w.ensureAbsolute.writeAll (t.plan s.hop w.ensureAbsolute.machine).commands) := by
    unfold Travel.plan
    rw [hs.enabled, Bool.true_and]
    split
    · exact hguarded.hop hs habsolute (hceiling.trans hsame.symm) ht
    · rename_i hneeds
      exact hguarded.direct hs habsolute (hceiling.trans hsame.symm) ht (by simpa using hneeds)
  exact hplan.of_eq rfl rfl rfl

end Guarded

end Writer

end ToolBatching
