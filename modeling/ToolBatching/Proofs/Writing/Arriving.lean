import ToolBatching.Proofs.Number.RoundingError
import ToolBatching.Proofs.Writing.SafeTravel

namespace ToolBatching

open Number

namespace Machine

/-- Whether a condition holds of every command of a replay and the state in front of it. -/
def Meets (m : Machine) (holds : Machine → Command → Prop) : List Command → Prop
  | [] => True
  | c :: rest => holds m c ∧ (m.step c).Meets holds rest

variable {m : Machine} {holds : Machine → Command → Prop} {cs ds : List Command}

theorem meets_append_iff :
    m.Meets holds (cs ++ ds) ↔ m.Meets holds cs ∧ (m.run cs).Meets holds ds := by
  induction cs generalizing m with
  | nil => simp [Meets]
  | cons c cs ih => simp [Meets, ih, and_assoc]

theorem meets_of_forall (h : ∀ n, ∀ c ∈ cs, holds n c) : m.Meets holds cs := by
  induction cs generalizing m with
  | nil => trivial
  | cons c cs ih =>
      exact ⟨h m c List.mem_cons_self, ih fun n d hd => h n d (List.mem_cons_of_mem c hd)⟩

end Machine

/-- Finite, and at most a kilometre in mm. -/
structure Number.Modest (x : Float) : Prop where
  isFinite : x.isFinite = true
  le : |value x| ≤ 10 ^ 6

instance (x : Float) : Decidable (Modest x) :=
  decidable_of_iff (x.isFinite = true ∧ |value x| ≤ 10 ^ 6)
    ⟨fun h => ⟨h.1, h.2⟩, fun h => ⟨h.isFinite, h.le⟩⟩

namespace Travel

variable {s : HopSettings} {m n : Machine} {t : Travel}

/-- A travel between modest places with settings that can be written. -/
structure Modest (t : Travel) (s : HopSettings) (m : Machine) : Prop where
  positioning : m.positioning = .absolute
  start : Number.Modest m.x ∧ Number.Modest m.y ∧ Number.Modest m.z
  stop : Number.Modest t.x ∧ Number.Modest t.y ∧ Number.Modest t.z
  ceiling : Number.Modest t.ceiling
  height : Number.Modest s.height
  nonneg : 0 ≤ value s.height
  feedrates : s.zFeedrate.isFinite = true ∧ s.travelFeedrate.isFinite = true

/-- A height at which a travel may move sideways: not more than a thousandth below its ends, and
in a hop not more than a thousandth below its clearance above the ceiling. -/
structure Clears (t : Travel) (s : HopSettings) (m : Machine) (z : Float) : Prop where
  isFinite : z.isFinite = true
  ends : max (value m.z) (value t.z) - 1 / 1000 ≤ value z
  hop : (t.plan s m).hopped = true → value t.ceiling + value s.height - 1 / 1000 ≤ value z

/-- A sideways move keeps a height that clears the way. -/
def Sideways (t : Travel) (s : HopSettings) (m n : Machine) (c : Command) : Prop :=
  c.x.isSome = true ∨ c.y.isSome = true → t.Clears s m n.z ∧ (n.step c).z = n.z

/-- A travel that arrives, in Z and sideways by turns, without extruding anything. -/
structure Arrives (t : Travel) (s : HopSettings) (m : Machine) : Prop where
  straight : ∀ c ∈ (t.plan s m).commands, c.z.isSome = true → c.x = none ∧ c.y = none
  x : Within (1 / 1000) (m.run (t.plan s m).commands).x t.x
  y : Within (1 / 1000) (m.run (t.plan s m).commands).y t.y
  z : Within (1 / 1000) (m.run (t.plan s m).commands).z t.z
  sideways : m.Meets (t.Sideways s m) (t.plan s m).commands
  dry : m.Meets (fun n c => n.extruded c = 0) (t.plan s m).commands

theorem x_vertical (s : HopSettings) (z : Float) :
    (vertical s z).x = none ∧ (vertical s z).y = none :=
  ⟨Move.along_build_eq_none (a := .x) rfl rfl, Move.along_build_eq_none (a := .y) rfl rfl⟩

theorem z_lateral (s : HopSettings) (x y : Float) : (lateral s x y).z = none :=
  Move.along_build_eq_none (a := .z) rfl rfl

theorem extruded_eq_zero {c : Command} (hc : c ∈ (t.plan s m).commands) (n : Machine) :
    n.extruded c = 0 := by
  have hword : c.e = none := by
    rcases mem_plan hc with ⟨z, rfl⟩ | ⟨x, y, rfl⟩
    · exact Move.along_build_eq_none (a := .e) rfl rfl
    · exact Move.along_build_eq_none (a := .e) rfl rfl
  simp [Machine.extruded, hword]

theorem abs_sub_vertical_le (h : n.positioning = .absolute) (hs : s.zFeedrate.isFinite = true)
    {z : Float} (hz : z.isFinite = true) (hle : |value z| ≤ 2 ^ 22 - 1) :
    (n.step (vertical s z)).z.isFinite = true ∧
      |value (n.step (vertical s z)).z - value z| ≤ 1 / 2000 + 1 / 2 ^ 32 := by
  have hfinite : Move.Finite { z := some z, f := some s.zFeedrate } :=
    ⟨by simp, by simp, by simpa using hz, by simp, by simpa using hs⟩
  obtain ⟨q, hclose, hnearest⟩ := Move.nearest_build (a := .z) h hfinite rfl rfl
  refine ⟨(within_vertical h hs hz).1, ?_⟩
  change Nearest q (value (n.step (vertical s z)).z) at hnearest
  generalize value (n.step (vertical s z)).z = r at hnearest
  have hplace : |q - value z| ≤ 1 / 2000 := by
    norm_num [Axis.places, axisPlaces] at hclose
    norm_num
    exact hclose
  have hq : |q| ≤ 2 ^ (22 : ℤ) := by
    have htriangle := abs_sub_abs_le_abs_sub q (value z)
    norm_num at hle ⊢
    linarith
  have hround := hnearest.abs_sub_le_two_zpow (by norm_num) hq
  calc
    |r - value z| ≤ |r - q| + |q - value z| := abs_sub_le r q (value z)
    _ ≤ 1 / 2000 + 1 / 2 ^ 32 := by
      norm_num at hround hplace ⊢
      linarith

/-- The height of a hop is the height of what it clears and its clearance, up to rounding. -/
theorem Modest.hopZ (h : t.Modest s m) : (t.hopZ s m).isFinite = true ∧
    |value (t.hopZ s m)| ≤ 2 ^ 22 - 1 ∧
      max (max (value m.z) (value t.ceiling)) (value t.z) + value s.height - 1 / 2 ^ 32 ≤
        value (t.hopZ s m) := by
  obtain ⟨-, -, hstart⟩ := h.start
  obtain ⟨-, -, hstop⟩ := h.stop
  obtain ⟨hlower, hlowerValue⟩ := value_greater hstart.isFinite h.ceiling.isFinite
  obtain ⟨htop, htopValue⟩ := value_greater hlower hstop.isFinite
  rw [hlowerValue] at htopValue
  have hrounds := rounds_add htop h.height.isFinite
  rw [htopValue] at hrounds
  have hbound : |max (max (value m.z) (value t.ceiling)) (value t.z)| ≤ 10 ^ 6 :=
    abs_max_le_max_abs_abs.trans
      (max_le (abs_max_le_max_abs_abs.trans (max_le hstart.le h.ceiling.le)) hstop.le)
  generalize max (max (value m.z) (value t.ceiling)) (value t.z) = top at hrounds hbound ⊢
  have hsum : |top + value s.height| ≤ 2 * 10 ^ 6 := by
    have htriangle := abs_add_le top (value s.height)
    have hheight := h.height.le
    linarith
  have hroom : |top + value s.height| ≤ 2 ^ 21 := hsum.trans (by norm_num)
  obtain ⟨hfinite, hround⟩ := hrounds.abs_sub_le hroom (by norm_num)
    (pow_le_pow_right₀ (by norm_num) (by norm_num))
  change (t.hopZ s m).isFinite = true at hfinite
  change |value (t.hopZ s m) - (top + value s.height)| ≤ 2 ^ 21 / 2 ^ 53 at hround
  refine ⟨hfinite, ?_, ?_⟩
  · have htriangle := abs_sub_abs_le_abs_sub (value (t.hopZ s m)) (top + value s.height)
    norm_num at hround hsum ⊢
    linarith
  · have hbelow := (abs_le.mp hround).1
    norm_num at hbelow ⊢
    linarith

theorem sideways_vertical (z : Float) : t.Sideways s m n (vertical s z) := by
  obtain ⟨hx, hy⟩ := x_vertical s z
  rintro (hsome | hsome)
  · simp [hx] at hsome
  · simp [hy] at hsome

theorem sideways_lateral (h : t.Clears s m n.z) (x y : Float) :
    t.Sideways s m n (lateral s x y) :=
  fun _ => ⟨h, along_lateral n x y⟩

theorem meets_rise (rises : Prop) [Decidable rises] (z : Float) :
    n.Meets (t.Sideways s m) (if rises then [vertical s z] else []) := by
  split
  · exact ⟨sideways_vertical z, trivial⟩
  · trivial

theorem meets_slide (h : t.Clears s m n.z) (slides : Prop) [Decidable slides] (x y : Float) :
    n.Meets (t.Sideways s m) (if slides then [lateral s x y] else []) := by
  split
  · exact ⟨sideways_lateral h x y, trivial⟩
  · trivial

theorem Modest.meets_hop (h : t.Modest s m) : m.Meets (t.Sideways s m) (t.hop s m) := by
  obtain ⟨hfinite, hmodest, hclears⟩ := h.hopZ
  obtain ⟨hrisen, hclose⟩ := abs_sub_vertical_le h.positioning h.feedrates.1 hfinite hmodest
  have hbelow := (abs_le.mp hclose).1
  have hclearance := h.nonneg
  have hceiling : value t.ceiling ≤ max (max (value m.z) (value t.ceiling)) (value t.z) :=
    (le_max_right _ _).trans (le_max_left _ _)
  have hends : max (value m.z) (value t.z) ≤
      max (max (value m.z) (value t.ceiling)) (value t.z) :=
    max_le_max_right _ (le_max_left _ _)
  generalize max (max (value m.z) (value t.ceiling)) (value t.z) = top at hclears hceiling hends
  norm_num only at hbelow hclears
  refine ⟨sideways_vertical _, sideways_lateral ⟨hrisen, ?_, fun _ => ?_⟩ t.x t.y,
    sideways_vertical _, trivial⟩
  · linarith
  · linarith

theorem Modest.meets_direct (h : t.Modest s m) (hplan : (t.plan s m).hopped = false) :
    m.Meets (t.Sideways s m) (t.direct s m) := by
  obtain ⟨-, -, hstart⟩ := h.start
  obtain ⟨-, -, hstop⟩ := h.stop
  have hhop {z : Float} : (t.plan s m).hopped = true →
      value t.ceiling + value s.height - 1 / 1000 ≤ value z := by
    simp [hplan]
  by_cases hrises : m.z ≤ t.z
  · rw [show t.direct s m = _ from if_pos hrises, Machine.meets_append_iff]
    refine ⟨meets_rise _ t.z, meets_slide ⟨?_, ?_, hhop⟩ _ t.x t.y⟩
    · exact (within_rise h.positioning rfl (isNaN_of_isFinite hstart.isFinite) h.feedrates.1
        hstop.isFinite).1
    · have hclose := (within_rise h.positioning rfl (isNaN_of_isFinite hstart.isFinite)
        h.feedrates.1 hstop.isFinite).2.2
      rw [max_eq_right ((le_iff_value_le hstart.isFinite hstop.isFinite).mp hrises)]
      linarith [(abs_le.mp hclose).1]
  · rw [show t.direct s m = _ from if_neg hrises, Machine.meets_append_iff]
    refine ⟨meets_slide ⟨hstart.isFinite, ?_, hhop⟩ _ t.x t.y, meets_rise _ t.z⟩
    rw [le_iff_value_le hstart.isFinite hstop.isFinite, not_le] at hrises
    rw [max_eq_left hrises.le]
    linarith

/-- A travel between modest places arrives, with or without a hop. -/
theorem Modest.arrives (h : t.Modest s m) : t.Arrives s m := by
  obtain ⟨hx, hy, hz⟩ := h.start
  obtain ⟨htx, hty, htz⟩ := h.stop
  obtain ⟨hsideways, hvertical⟩ := within_plan (s := s) h.positioning t
  obtain ⟨hreachedX, hreachedY⟩ := hsideways (isNaN_of_isFinite hx.isFinite)
    (isNaN_of_isFinite hy.isFinite) h.feedrates.2 htx.isFinite hty.isFinite
  have hreachedZ := hvertical (isNaN_of_isFinite hz.isFinite) h.feedrates.1 htz.isFinite
  refine ⟨?_, hreachedX, hreachedY, hreachedZ, ?_,
    Machine.meets_of_forall fun n c hc => extruded_eq_zero hc n⟩
  · intro c hc hword
    rcases mem_plan hc with ⟨z, rfl⟩ | ⟨x, y, rfl⟩
    · exact x_vertical s z
    · simp [z_lateral] at hword
  · cases hplan : s.enabled && t.needsHop m with
    | true =>
        rw [show t.plan s m = ⟨t.hop s m, true⟩ by simp [plan, hplan]]
        exact h.meets_hop
    | false =>
        have hdirect : t.plan s m = ⟨t.direct s m, false⟩ := by simp [plan, hplan]
        rw [hdirect]
        exact h.meets_direct (by rw [hdirect])

/-- A hop between two places below the ceiling. -/
theorem arrives_below_ceiling :
    let m : Machine := { z := 0.2 }
    let t : Travel := { x := 10, y := 5, z := 0.4, ceiling := 3, outOfOrder := false }
    (t.plan {} m).hopped = true ∧ t.Modest {} m ∧ t.Arrives {} m := by
  intro m t
  have hmodest : t.Modest {} m := by
    refine ⟨rfl, ?_, ?_, ?_, ?_, ?_, ?_⟩ <;> decide +kernel
  exact ⟨by decide +kernel, hmodest, hmodest.arrives⟩

end Travel

end ToolBatching
