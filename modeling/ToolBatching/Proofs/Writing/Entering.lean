import ToolBatching.Proofs.Writing.Restored

namespace ToolBatching

open Number

namespace Move

variable {m : Machine} {move : Move} {a : Axis}

theorem within_build (hmode : m.mode a = .absolute) (h : move.Finite)
    (hcomment : move.comment = none) {v : Float} (hv : move.along a = some v) :
    Within (1 / 10 ^ a.places) ((m.step move.build).along a) v := by
  obtain ⟨r, hread, hclose⟩ := exists_readBack a (h.along hv)
  rw [Machine.along_step hmode, target_build h hcomment, hv, hread, Option.getD_some]
  exact hclose

end Move

/-- The feedrate of the moves of a travel along an axis. -/
def HopSettings.feedrate (s : HopSettings) : Axis → Float
  | .z => s.zFeedrate
  | _ => s.travelFeedrate

namespace Travel

variable {s : HopSettings} {m n : Machine} {a : Axis}

theorem along_vertical (m : Machine) (ha : a ≠ .z) (z : Float) :
    (m.step (vertical s z)).along a = m.along a := by
  apply Machine.along_step_eq_self
  apply Move.target_build_eq_none _ rfl
  cases a with
  | x => rfl
  | y => rfl
  | z => exact absurd rfl ha
  | e => rfl

theorem along_lateral (m : Machine) (x y : Float) : (m.step (lateral s x y)).z = m.z :=
  Machine.along_step_eq_self (a := .z) (Move.target_build_eq_none rfl rfl) m

theorem within_vertical (h : m.positioning = .absolute) (hs : s.zFeedrate.isFinite = true)
    {z : Float} (hz : z.isFinite = true) :
    Within (1 / 1000) (m.step (vertical s z)).z z := by
  have hfinite : Move.Finite { z := some z, f := some s.zFeedrate } :=
    ⟨by simp, by simp, by simpa using hz, by simp, by simpa using hs⟩
  have hclose := Move.within_build (a := .z) h hfinite rfl rfl
  norm_num [Axis.places, axisPlaces] at hclose
  norm_num
  exact hclose

theorem within_lateral (h : m.positioning = .absolute) (hs : s.travelFeedrate.isFinite = true)
    {x y : Float} (hx : x.isFinite = true) (hy : y.isFinite = true) :
    Within (1 / 1000) (m.step (lateral s x y)).x x ∧
      Within (1 / 1000) (m.step (lateral s x y)).y y := by
  have hfinite : Move.Finite { x := some x, y := some y, f := some s.travelFeedrate } :=
    ⟨by simpa using hx, by simpa using hy, by simp, by simp, by simpa using hs⟩
  have hcloseX := Move.within_build (a := .x) h hfinite rfl rfl
  have hcloseY := Move.within_build (a := .y) h hfinite rfl rfl
  norm_num [Axis.places, axisPlaces] at hcloseX hcloseY
  norm_num
  exact ⟨hcloseX, hcloseY⟩

theorem within_hop (h : n.positioning = .absolute) (t : Travel) :
    (s.travelFeedrate.isFinite = true → t.x.isFinite = true → t.y.isFinite = true →
      Within (1 / 1000) (n.run (t.hop s m)).x t.x ∧
        Within (1 / 1000) (n.run (t.hop s m)).y t.y) ∧
    (s.zFeedrate.isFinite = true → t.z.isFinite = true →
      Within (1 / 1000) (n.run (t.hop s m)).z t.z) := by
  simp only [hop, Machine.run_cons, Machine.run_nil]
  have hrisen : (n.step (vertical s (t.hopZ s m))).positioning = .absolute :=
    (Move.mode_build n _ .x).trans h
  generalize n.step (vertical s (t.hopZ s m)) = risen at hrisen ⊢
  have hslid : (risen.step (lateral s t.x t.y)).positioning = .absolute :=
    (Move.mode_build risen _ .x).trans hrisen
  have hlateral (hs : s.travelFeedrate.isFinite = true) (hx : t.x.isFinite = true)
      (hy : t.y.isFinite = true) := within_lateral hrisen hs hx hy
  generalize risen.step (lateral s t.x t.y) = slid at hslid hlateral ⊢
  constructor
  · intro hs hx hy
    have hkeepsX := along_vertical (s := s) (a := .x) slid (by decide) t.z
    have hkeepsY := along_vertical (s := s) (a := .y) slid (by decide) t.z
    simp only [Machine.along] at hkeepsX hkeepsY
    rw [hkeepsX, hkeepsY]
    exact hlateral hs hx hy
  · intro hs hz
    exact within_vertical hslid hs hz

theorem within_rise (h : n.positioning = .absolute) (hsame : n.z = m.z)
    (hnumber : m.z.isNaN = false) {z : Float} (hs : s.zFeedrate.isFinite = true)
    (hz : z.isFinite = true) :
    Within (1 / 1000)
      (n.run (if tolerance < (m.z - z).abs then [vertical s z] else [])).z z := by
  split
  · rw [Machine.run_cons, Machine.run_nil]
    exact within_vertical h hs hz
  · rename_i hnear
    rw [Machine.run_nil, hsame]
    exact (within_of_not_lt hnumber hz hnear).mono (by norm_num)

theorem within_slide (h : n.positioning = .absolute) (hsameX : n.x = m.x) (hsameY : n.y = m.y)
    (hnumberX : m.x.isNaN = false) (hnumberY : m.y.isNaN = false) {x y : Float}
    (hs : s.travelFeedrate.isFinite = true) (hx : x.isFinite = true) (hy : y.isFinite = true) :
    Within (1 / 1000)
      (n.run (if tolerance < (m.x - x).abs || tolerance < (m.y - y).abs then [lateral s x y]
        else [])).x x ∧
    Within (1 / 1000)
      (n.run (if tolerance < (m.x - x).abs || tolerance < (m.y - y).abs then [lateral s x y]
        else [])).y y := by
  split
  · rw [Machine.run_cons, Machine.run_nil]
    exact within_lateral h hs hx hy
  · rename_i hnear
    rw [Bool.or_eq_true, decide_eq_true_eq, decide_eq_true_eq, not_or] at hnear
    rw [Machine.run_nil, hsameX, hsameY]
    exact ⟨(within_of_not_lt hnumberX hx hnear.1).mono (by norm_num),
      (within_of_not_lt hnumberY hy hnear.2).mono (by norm_num)⟩

theorem run_rise (h : n.positioning = .absolute) (rises : Prop) [Decidable rises] (z : Float) :
    (n.run (if rises then [vertical s z] else [])).positioning = .absolute ∧
      (n.run (if rises then [vertical s z] else [])).x = n.x ∧
      (n.run (if rises then [vertical s z] else [])).y = n.y := by
  split
  · rw [Machine.run_cons, Machine.run_nil]
    exact ⟨(Move.mode_build n _ .x).trans h, along_vertical (a := .x) n (by decide) z,
      along_vertical (a := .y) n (by decide) z⟩
  · exact ⟨h, rfl, rfl⟩

theorem run_slide (h : n.positioning = .absolute) (slides : Prop) [Decidable slides]
    (x y : Float) :
    (n.run (if slides then [lateral s x y] else [])).positioning = .absolute ∧
      (n.run (if slides then [lateral s x y] else [])).z = n.z := by
  split
  · rw [Machine.run_cons, Machine.run_nil]
    exact ⟨(Move.mode_build n _ .x).trans h, along_lateral n x y⟩
  · exact ⟨h, rfl⟩

theorem within_direct (h : m.positioning = .absolute) (t : Travel) :
    (m.x.isNaN = false → m.y.isNaN = false → s.travelFeedrate.isFinite = true →
      t.x.isFinite = true → t.y.isFinite = true →
      Within (1 / 1000) (m.run (t.direct s m)).x t.x ∧
        Within (1 / 1000) (m.run (t.direct s m)).y t.y) ∧
    (m.z.isNaN = false → s.zFeedrate.isFinite = true → t.z.isFinite = true →
      Within (1 / 1000) (m.run (t.direct s m)).z t.z) := by
  by_cases hrises : m.z ≤ t.z
  · rw [show t.direct s m = _ from if_pos hrises, Machine.run_append]
    obtain ⟨hmode, hsameX, hsameY⟩ := run_rise (s := s) h (tolerance < (m.z - t.z).abs) t.z
    have hrise (hz : m.z.isNaN = false) (hs : s.zFeedrate.isFinite = true)
      (htz : t.z.isFinite = true) := within_rise h rfl hz hs htz
    generalize m.run (if tolerance < (m.z - t.z).abs then [vertical s t.z] else []) = risen
      at hmode hsameX hsameY hrise ⊢
    constructor
    · intro hx hy hs htx hty
      exact within_slide hmode hsameX hsameY hx hy hs htx hty
    · intro hz hs htz
      rw [(run_slide hmode _ t.x t.y).2]
      exact hrise hz hs htz
  · rw [show t.direct s m = _ from if_neg hrises, Machine.run_append]
    obtain ⟨hmode, hsame⟩ := run_slide (s := s) h
      ((decide (tolerance < (m.x - t.x).abs) || decide (tolerance < (m.y - t.y).abs)) = true)
      t.x t.y
    have hslide (hx : m.x.isNaN = false) (hy : m.y.isNaN = false)
      (hs : s.travelFeedrate.isFinite = true) (htx : t.x.isFinite = true)
      (hty : t.y.isFinite = true) := within_slide h rfl rfl hx hy hs htx hty
    generalize m.run (if tolerance < (m.x - t.x).abs || tolerance < (m.y - t.y).abs then
      [lateral s t.x t.y] else []) = slid at hmode hsame hslide ⊢
    constructor
    · intro hx hy hs htx hty
      obtain ⟨-, hsameX, hsameY⟩ := run_rise (s := s) hmode (tolerance < (m.z - t.z).abs) t.z
      rw [hsameX, hsameY]
      exact hslide hx hy hs htx hty
    · intro hz hs htz
      exact within_rise hmode hsame hz hs htz

theorem within_plan (h : m.positioning = .absolute) (t : Travel) :
    (m.x.isNaN = false → m.y.isNaN = false → s.travelFeedrate.isFinite = true →
      t.x.isFinite = true → t.y.isFinite = true →
      Within (1 / 1000) (m.run (t.plan s m).commands).x t.x ∧
        Within (1 / 1000) (m.run (t.plan s m).commands).y t.y) ∧
    (m.z.isNaN = false → s.zFeedrate.isFinite = true → t.z.isFinite = true →
      Within (1 / 1000) (m.run (t.plan s m).commands).z t.z) := by
  unfold plan
  split
  · obtain ⟨hsideways, hvertical⟩ := within_hop (s := s) (m := m) h t
    exact ⟨fun _ _ => hsideways, fun _ => hvertical⟩
  · exact within_direct h t

end Travel

/-- Whether a command moves sideways outside tool-change sequences. -/
def Command.slides (c : Command) : Bool :=
  !c.inToolChange && (c.isMotion && (c.x.isSome || c.y.isSome))

namespace Writer

/-- The point at which a run of segments is entered. -/
def landing (layer : Layer) (first : Segment) (commands : List Command) : Axis → Float
  | .x => ((descentPoint first.entry commands).getD (first.entry.x, first.entry.y)).1
  | .y => ((descentPoint first.entry commands).getD (first.entry.x, first.entry.y)).2
  | .z => greater first.entry.z layer.z
  | .e => first.entry.e

/-- A descent point is passed by the commands up to the first one that moves sideways. -/
theorem exists_of_descentPoint {m : Machine} {cs : List Command} {point : Float × Float}
    (h : descentPoint m cs = some point) :
    ∃ front c back passed, cs = front ++ c :: back ∧ c.slides = true ∧
      (∀ d ∈ front, d.slides = false) ∧ passed.Sublist (front ++ [c]) ∧
      point = ((m.run passed).x, (m.run passed).y) := by
  induction cs generalizing m with
  | nil => exact absurd h (by simp [descentPoint])
  | cons c rest ih =>
      unfold descentPoint at h
      cases htag : c.inToolChange with
      | true =>
          simp only [htag, if_true] at h
          obtain ⟨front, d, back, passed, rfl, hslides, hfront, hpassed, hpoint⟩ := ih h
          refine ⟨c :: front, d, back, passed, rfl, hslides, ?_, hpassed.cons c, hpoint⟩
          exact List.forall_mem_cons.mpr ⟨by simp [Command.slides, htag], hfront⟩
      | false =>
          simp only [htag, Bool.false_eq_true, if_false] at h
          cases hmoves : c.isMotion && (c.x.isSome || c.y.isSome) with
          | true =>
              have hslides : c.slides = true := by simp only [Command.slides, htag, hmoves]; rfl
              simp only [hmoves, if_true] at h
              split at h
              · exact absurd h (by simp)
              · split at h
                · exact ⟨[], c, rest, [], rfl, hslides, by simp, by simp,
                    (Option.some.inj h).symm⟩
                · exact ⟨[], c, rest, [c], rfl, hslides, by simp, by simp,
                    (Option.some.inj h).symm⟩
          | false =>
              simp only [hmoves, Bool.false_eq_true, if_false] at h
              obtain ⟨front, d, back, passed, rfl, hslides, hfront, hpassed, hpoint⟩ := ih h
              refine ⟨c :: front, d, back, c :: passed, rfl, hslides, ?_, hpassed.cons_cons c,
                hpoint⟩
              exact List.forall_mem_cons.mpr ⟨by simp [Command.slides, hmoves], hfront⟩

theorem machine_travel {w : Writer} (hw : w.machine.positioning = .absolute) (s : HopSettings)
    (t : Travel) :
    (w.travel s t).machine = w.machine.run (t.plan s w.machine).commands := by
  have habsolute : w.ensureAbsolute = w := by
    unfold ensureAbsolute
    rw [if_neg (by simp [hw])]
  unfold travel
  simp only [habsolute, (writeAll_spec _ _).2.1]

def approach (w : Writer) (layer : Layer) (first : Segment) (commands : List Command) :
    Travel where
  x := landing layer first commands .x
  y := landing layer first commands .y
  z := landing layer first commands .z
  ceiling := w.ceiling
  outOfOrder := match w.lastLayer with
    | some last => layer.index != last && layer.index != last + 1
    | none => false

theorem enter_eq (w : Writer) (p : BodyPlan) (layer : Layer) (first : Segment)
    (commands : List Command) :
    w.enter p layer first commands =
      (w.travel p.settings.hop (w.approach layer first commands)).restore first.entry :=
  rfl

theorem machine_enter (w : Writer) (p : BodyPlan) (layer : Layer) (first : Segment)
    (commands : List Command) :
    (w.enter p layer first commands).machine =
      (w.travel p.settings.hop (w.approach layer first commands)).machine.run
        ((w.travel p.settings.hop (w.approach layer first commands)).machine.restoration
          first.entry) := by
  rw [enter_eq, restore, (writeAll_spec _ _).2.1]

theorem within_enter {w : Writer} (hw : w.machine.positioning = .absolute)
    (hx : w.machine.x.isNaN = false) (hy : w.machine.y.isNaN = false)
    (hz : w.machine.z.isNaN = false) (p : BodyPlan) (layer : Layer) (first : Segment)
    (commands : List Command) :
    (p.settings.hop.travelFeedrate.isFinite = true →
      (landing layer first commands .x).isFinite = true →
      (landing layer first commands .y).isFinite = true →
      Within (1 / 1000) (w.enter p layer first commands).machine.x
          (landing layer first commands .x) ∧
        Within (1 / 1000) (w.enter p layer first commands).machine.y
          (landing layer first commands .y)) ∧
    (p.settings.hop.zFeedrate.isFinite = true →
      (landing layer first commands .z).isFinite = true →
      Within (1 / 1000) (w.enter p layer first commands).machine.z
        (landing layer first commands .z)) := by
  have hplan := Travel.within_plan (s := p.settings.hop) hw (w.approach layer first commands)
  rw [machine_enter, machine_travel hw]
  generalize w.machine.run
    ((w.approach layer first commands).plan p.settings.hop w.machine).commands = traveled
    at hplan ⊢
  have hkeepsX := Machine.along_restoration (a := .x) traveled first.entry (by decide)
  have hkeepsY := Machine.along_restoration (a := .y) traveled first.entry (by decide)
  have hkeepsZ := Machine.along_restoration (a := .z) traveled first.entry (by decide)
  simp only [Machine.along] at hkeepsX hkeepsY hkeepsZ
  rw [hkeepsX, hkeepsY, hkeepsZ]
  exact ⟨hplan.1 hx hy, hplan.2 hz⟩

end Writer

end ToolBatching
