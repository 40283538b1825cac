import ToolBatching.Number.Hypotenuse
import ToolBatching.Proofs.Number.Magnitudes
import ToolBatching.Proofs.Number.Monotone
import ToolBatching.Proofs.Number.RoundingError
import ToolBatching.Proofs.Number.SquareRoot

namespace ToolBatching.Number

variable {x y h : Float} {c d s t q : ℚ}

/-- Finite, and in magnitude at most a multiple of a scale. -/
structure Below (c s : ℚ) (x : Float) : Prop where
  isFinite : x.isFinite = true
  le : |value x| ≤ c * s

/-- A scale at which rounding loses next to nothing and nothing is too large. -/
structure Scale (s : ℚ) : Prop where
  low : 1 ≤ s
  high : s ≤ 2 ^ 200

theorem Rounds.near (h : Rounds q x) (hs : Scale s) (hq : |q| ≤ 8 * s) :
    x.isFinite = true ∧ |Number.value x - q| ≤ s / 1000 := by
  have hlow := hs.low
  have hhigh : 8 * s ≤ 2 ^ 1000 := by
    calc
      8 * s ≤ 2 ^ 3 * 2 ^ 200 := by linarith [hs.high]
      _ ≤ 2 ^ 1000 := by
        rw [← pow_add]
        exact pow_le_pow_right₀ (by norm_num) (by norm_num)
  obtain ⟨hfinite, herror⟩ := h.abs_sub_le hq (by linarith) hhigh
  exact ⟨hfinite, herror.trans (by linarith)⟩

theorem Rounds.below (h : Rounds q x) (hs : Scale s) (hq : |q| ≤ c * s) (hc : c ≤ 8) :
    Below (c + 1 / 1000) s x := by
  have hlow := hs.low
  obtain ⟨hfinite, herror⟩ := h.near hs (hq.trans (mul_le_mul_of_nonneg_right hc (by linarith)))
  refine ⟨hfinite, ?_⟩
  calc
    |Number.value x| = |Number.value x - q + q| := by rw [sub_add_cancel]
    _ ≤ |Number.value x - q| + |q| := abs_add_le _ _
    _ ≤ (c + 1 / 1000) * s := by linarith

theorem Rounds.nonneg (h : Rounds q x) (hx : x.isFinite = true) (hq : 0 ≤ q) :
    0 ≤ Number.value x :=
  (nonneg_iff hx).mp (h.ge isFinite_zero.1 (by rwa [isFinite_zero.2]))

namespace Below

theorem mono (hx : Below c s x) (hs : Scale s) (hcd : c ≤ d) : Below d s x :=
  ⟨hx.isFinite, hx.le.trans (mul_le_mul_of_nonneg_right hcd (zero_le_one.trans hs.low))⟩

theorem add (hx : Below c s x) (hy : Below d s y) (hs : Scale s) (hcd : c + d ≤ 8) :
    Below (c + d + 1 / 1000) s (x + y) := by
  refine (rounds_add hx.isFinite hy.isFinite).below hs ((abs_add_le _ _).trans ?_) hcd
  linarith [hx.le, hy.le]

theorem sub (hx : Below c s x) (hy : Below d s y) (hs : Scale s) (hcd : c + d ≤ 8) :
    Below (c + d + 1 / 1000) s (x - y) := by
  refine (rounds_sub hx.isFinite hy.isFinite).below hs ((abs_sub _ _).trans ?_) hcd
  linarith [hx.le, hy.le]

theorem mul (hx : Below c s x) (hy : Below d t y) (hst : Scale (s * t)) (hcd : c * d ≤ 8) :
    Below (c * d + 1 / 1000) (s * t) (x * y) := by
  refine (rounds_mul hx.isFinite hy.isFinite).below hst ?_ hcd
  rw [abs_mul, mul_mul_mul_comm]
  exact mul_le_mul hx.le hy.le (abs_nonneg _) ((abs_nonneg _).trans hx.le)

end Below

theorem Below.two_mul (hx : Below c s x) (hs : Scale s) (hc : 2 * c ≤ 8) :
    Below (2 * c + 1 / 1000) s (2 * x) := by
  have htwo : Below 2 1 2 := ⟨by decide +kernel, by decide +kernel⟩
  simpa using htwo.mul hx (by simpa using hs) hc

theorem Below.four_mul (hx : Below c s x) (hs : Scale s) (hc : 4 * c ≤ 8) :
    Below (4 * c + 1 / 1000) s (4 * x) := by
  have hfour : Below 4 1 4 := ⟨by decide +kernel, by decide +kernel⟩
  simpa using hfour.mul hx (by simpa using hs) hc

/-- Two legs, the second not the longer one, with a hypotenuse whose square is close to the
sum of their squares. -/
structure Spans (x y h : Float) : Prop where
  isFinite : x.isFinite = true ∧ y.isFinite = true ∧ h.isFinite = true
  ordered : 0 ≤ value y ∧ value y ≤ value x
  low : 1 ≤ value h
  high : value h ≤ 2 ^ 100
  squares : |value h ^ 2 - (value x ^ 2 + value y ^ 2)| ≤ value h ^ 2 / 1000

namespace Spans

theorem scale (hspans : Spans x y h) : Scale (value h) :=
  ⟨hspans.low, hspans.high.trans (pow_le_pow_right₀ (by norm_num) (by norm_num))⟩

theorem scale_mul (hspans : Spans x y h) : Scale (value h * value h) := by
  refine ⟨one_le_mul_of_one_le_of_one_le hspans.low hspans.low, ?_⟩
  calc
    value h * value h ≤ 2 ^ 100 * 2 ^ 100 :=
      mul_le_mul hspans.high hspans.high (by linarith [hspans.low]) (by positivity)
    _ = 2 ^ 200 := by rw [← pow_add]

theorem legs (hspans : Spans x y h) :
    value x ≤ 1001 / 1000 * value h ∧ value y ≤ 708 / 1000 * value h := by
  obtain ⟨hlow, hhigh⟩ := abs_le.mp hspans.squares
  have hpos := hspans.low
  have hordered := pow_le_pow_left₀ hspans.ordered.1 hspans.ordered.2 2
  constructor
  · exact le_of_sq_le_sq (by linarith [sq_nonneg (value h), sq_nonneg (value y)]) (by linarith)
  · exact le_of_sq_le_sq (by linarith [sq_nonneg (value h)]) (by linarith)

theorem below (hspans : Spans x y h) :
    Below (1001 / 1000) (value h) x ∧ Below (708 / 1000) (value h) y := by
  obtain ⟨hx, hy⟩ := hspans.legs
  have hordered := hspans.ordered
  refine ⟨⟨hspans.isFinite.1, ?_⟩, hspans.isFinite.2.1, ?_⟩
  · rwa [abs_of_nonneg (hordered.1.trans hordered.2)]
  · rwa [abs_of_nonneg hordered.1]

theorem near_two_mul (hspans : Spans x y h) :
    (2 * y).isFinite = true ∧ |value (2 * y) - 2 * value y| ≤ value h / 1000 := by
  have htwo : (2 : Float).isFinite = true ∧ value 2 = 2 := by decide +kernel
  have hrounds := rounds_mul htwo.1 hspans.isFinite.2.1
  rw [htwo.2] at hrounds
  refine hrounds.near hspans.scale ?_
  rw [abs_of_nonneg (by linarith [hspans.ordered.1])]
  linarith [hspans.legs.2, hspans.low]

/-- The excess where the root is not above twice the shorter leg: the longer leg is at most
about `√3 / 2` times the root. -/
theorem below_excess_of_le (hspans : Spans x y h) (hle : h ≤ 2 * y) :
    Below (8 / 5) (value h * value h)
      (x * (2 * (h - y) - x) + (h - y - 2 * (x - y)) * (h - y)) := by
  obtain ⟨hx, hy, hh⟩ := hspans.isFinite
  have hs := hspans.scale
  have hpos := hspans.low
  obtain ⟨hnonneg, hordered⟩ := hspans.ordered
  obtain ⟨htwo, herror⟩ := hspans.near_two_mul
  rw [le_iff_value_le hh htwo] at hle
  have hhalf : 499 / 1000 * value h ≤ value y := by linarith [(abs_le.mp herror).2]
  have hlonger : value x ≤ 868 / 1000 * value h := by
    have hsquare := pow_le_pow_left₀ (by linarith) hhalf 2
    refine le_of_sq_le_sq ?_ (by linarith)
    linarith [(abs_le.mp hspans.squares).1, sq_nonneg (value h)]
  have hbelow : Below (868 / 1000) (value h) x :=
    ⟨hx, by rwa [abs_of_nonneg (by linarith)]⟩
  have hshorter := hspans.legs.2
  -- What the root is longer than the shorter leg, and twice that.
  have hrounds := rounds_sub hh hy
  have hd := hrounds.below (c := 501 / 1000) hs
    (by rw [abs_of_nonneg (by linarith)]; linarith) (by norm_num)
  have hdpos := hrounds.nonneg hd.isFinite (by linarith)
  have hdd := hd.two_mul hs (by norm_num)
  have hddpos : 0 ≤ value (2 * (h - y)) := by
    refine (rounds_mul (by decide +kernel) hd.isFinite).nonneg hdd.isFinite (mul_nonneg ?_ hdpos)
    decide +kernel
  have hddle := (le_abs_self _).trans hdd.le
  have hleft := (rounds_sub hdd.isFinite hx).below (c := 1005 / 1000) hs
    (abs_le.mpr ⟨by linarith, by linarith⟩) (by norm_num)
  have hgap := (rounds_sub hx hy).below (c := 370 / 1000) hs
    (by rw [abs_of_nonneg (by linarith)]; linarith) (by norm_num)
  have hright := hd.sub (hgap.two_mul hs (by norm_num)) hs (by norm_num)
  have hproduct := hbelow.mul hleft hspans.scale_mul (by norm_num)
  have hproduct' := hright.mul hd hspans.scale_mul (by norm_num)
  exact (hproduct.add hproduct' hspans.scale_mul (by norm_num)).mono hspans.scale_mul (by norm_num)

theorem below_excess_of_lt (hspans : Spans x y h) (hlt : ¬ h ≤ 2 * y) :
    Below (8 / 5) (value h * value h)
      (2 * (h - x) * (x - 2 * y) + ((4 * (h - x) - y) * y + (h - x) * (h - x))) := by
  obtain ⟨hx, hy, hh⟩ := hspans.isFinite
  have hs := hspans.scale
  have hpos := hspans.low
  obtain ⟨hnonneg, hordered⟩ := hspans.ordered
  obtain ⟨htwo, herror⟩ := hspans.near_two_mul
  rw [le_iff_value_le hh htwo, not_le] at hlt
  have hhalf : value y ≤ 501 / 1000 * value h := by linarith [(abs_le.mp herror).1]
  have hlonger : 864 / 1000 * value h ≤ value x := by
    have hsquare := pow_le_pow_left₀ hnonneg hhalf 2
    refine le_of_sq_le_sq ?_ (by linarith)
    linarith [(abs_le.mp hspans.squares).2, sq_nonneg (value h)]
  have hlonger' := hspans.legs.1
  have hbelow : Below (501 / 1000) (value h) y := ⟨hy, by rwa [abs_of_nonneg hnonneg]⟩
  have hd := (rounds_sub hh hx).below (c := 136 / 1000) hs
    (abs_le.mpr ⟨by linarith, by linarith⟩) (by norm_num)
  have hleft := (hd.two_mul hs (by norm_num)).mul
    (hspans.below.1.sub (hbelow.two_mul hs (by norm_num)) hs (by norm_num))
    hspans.scale_mul (by norm_num)
  have hmiddle := ((hd.four_mul hs (by norm_num)).sub hbelow hs (by norm_num)).mul hbelow
    hspans.scale_mul (by norm_num)
  have hright := hmiddle.add (hd.mul hd hspans.scale_mul (by norm_num)) hspans.scale_mul
    (by norm_num)
  exact (hleft.add hright hspans.scale_mul (by norm_num)).mono hspans.scale_mul (by norm_num)

theorem below_squareExcess (hspans : Spans x y h) :
    Below (8 / 5) (value h * value h) (squareExcess x y h) := by
  unfold squareExcess
  split
  · rename_i hle
    exact hspans.below_excess_of_le hle
  · rename_i hlt
    exact hspans.below_excess_of_lt hlt

theorem step_nonneg (hspans : Spans x y h) :
    (h - squareExcess x y h / (2 * h)).isFinite = true ∧
      0 ≤ value (h - squareExcess x y h / (2 * h)) := by
  obtain ⟨-, -, hh⟩ := hspans.isFinite
  have hs := hspans.scale
  have hpos := hspans.low
  have hexcess := hspans.below_squareExcess
  have hone : Below 1 (value h) h := ⟨hh, by rw [abs_of_nonneg (by linarith), one_mul]⟩
  have htwo : (2 : Float).isFinite = true ∧ value 2 = 2 := by decide +kernel
  have hrounds := rounds_mul htwo.1 hh
  rw [htwo.2] at hrounds
  obtain ⟨hdouble, herror⟩ := hrounds.near hs
    (by rw [abs_of_nonneg (by linarith)]; linarith)
  have hlow : 1999 / 1000 * value h ≤ value (2 * h) := by linarith [(abs_le.mp herror).1]
  have hquotient : |value (squareExcess x y h) / value (2 * h)| ≤ 1 * value h := by
    rw [abs_div, abs_of_pos (by linarith : 0 < value (2 * h)), div_le_iff₀ (by linarith), one_mul]
    refine hexcess.le.trans ?_
    have hproduct := mul_le_mul_of_nonneg_left hlow (by linarith : 0 ≤ value h)
    linarith [mul_pos (by linarith : 0 < value h) (by linarith : 0 < value h)]
  have hstep := rounds_div hexcess.isFinite hdouble (by linarith)
  have hbelow := hstep.below hs hquotient (by norm_num)
  have hle := hstep.le hh (by linarith [(abs_le.mp hquotient).2])
  rw [le_iff_value_le hbelow.isFinite hh] at hle
  have hfinite := (hone.sub hbelow hs (by norm_num)).isFinite
  exact ⟨hfinite, (rounds_sub hh hbelow.isFinite).nonneg hfinite (by linarith)⟩

end Spans

theorem Rounds.near_self (h : Rounds q x) (hlow : 1 ≤ q) (hhigh : q ≤ 2 ^ 200) :
    x.isFinite = true ∧ |Number.value x - q| ≤ q / 10000 := by
  have hbound : q ≤ 2 ^ 1000 := hhigh.trans (pow_le_pow_right₀ (by norm_num) (by norm_num))
  obtain ⟨hfinite, herror⟩ := h.abs_sub_le (abs_of_pos (by linarith)).le hlow hbound
  exact ⟨hfinite, herror.trans (by linarith)⟩

/-- The rounded root of the sum of the squares of two legs. -/
theorem spans_sqrt (hx : x.isFinite = true) (hy : y.isFinite = true) (hlow : 1 ≤ value y)
    (hordered : value y ≤ value x) (hhigh : value x ≤ 2 ^ 64) :
    Spans x y (x * x + y * y).sqrt := by
  have hsquare {z : ℚ} (hz : 1 ≤ z) (hz' : z ≤ 2 ^ 64) : 1 ≤ z * z ∧ z * z ≤ 2 ^ 128 := by
    refine ⟨one_le_mul_of_one_le_of_one_le hz hz, ?_⟩
    calc
      z * z ≤ 2 ^ 64 * 2 ^ 64 := mul_le_mul hz' hz' (by linarith) (by positivity)
      _ = 2 ^ 128 := by rw [← pow_add]
  obtain ⟨hxlow, hxhigh⟩ := hsquare (hlow.trans hordered) hhigh
  obtain ⟨hylow, hyhigh⟩ := hsquare hlow (hordered.trans hhigh)
  obtain ⟨hxx, hxerror⟩ := (rounds_mul hx hx).near_self hxlow (hxhigh.trans (by norm_num))
  obtain ⟨hyy, hyerror⟩ := (rounds_mul hy hy).near_self hylow (hyhigh.trans (by norm_num))
  rw [abs_le] at hxerror hyerror
  obtain ⟨hsum, herror⟩ := (rounds_add hxx hyy).near_self (by linarith) (by linarith)
  rw [abs_le] at herror
  obtain ⟨r, hrounds, hr, hroot⟩ := rounds_sqrt hsum (by linarith)
  rw [abs_le] at hroot
  have hrlow : 1 ≤ r := le_of_sq_le_sq (by linarith) hr.le
  have hrhigh : r ≤ 2 ^ 70 := le_of_sq_le_sq (by linarith) (by positivity)
  obtain ⟨hh, hherror⟩ := hrounds.near_self hrlow (hrhigh.trans (by norm_num))
  have hone : (1 : Float).isFinite = true ∧ value 1 = 1 := by decide +kernel
  have hge := hrounds.ge hone.1 (by rwa [hone.2])
  rw [le_iff_value_le hone.1 hh, hone.2] at hge
  rw [abs_le] at hherror
  refine ⟨⟨hx, hy, hh⟩, ⟨by linarith, hordered⟩, hge, by linarith, ?_⟩
  have hbelow : (9999 / 10000 * r) ^ 2 ≤ value (x * x + y * y).sqrt ^ 2 :=
    pow_le_pow_left₀ (by linarith) (by linarith) 2
  have habove : value (x * x + y * y).sqrt ^ 2 ≤ (10001 / 10000 * r) ^ 2 :=
    pow_le_pow_left₀ (by linarith) (by linarith) 2
  rw [abs_le]
  constructor <;> linarith

theorem ofNat_le_ofNat {m n : Nat} (h : m ≤ n) : Float.ofNat m ≤ Float.ofNat n := by
  rcases Nat.eq_or_lt_of_le h with rfl | hlt
  · exact le_refl_float (rounds_natural m).isNaN
  · exact (rounds_natural m).le_of_lt (rounds_natural n) (by exact_mod_cast hlt)

theorem zero_le_part (hx : x.isFinite = true) (hnonneg : 0 ≤ value x) :
    Float.ofNat 0 ≤ x * powerOfTwo (-54) := by
  have hpower : (powerOfTwo (-54)).isFinite = true ∧ 0 ≤ value (powerOfTwo (-54)) := by
    decide +kernel
  have hzero : (Float.ofNat 0).isFinite = true ∧ value (Float.ofNat 0) = 0 := by decide +kernel
  refine (rounds_mul hx hpower.1).ge hzero.1 ?_
  rw [hzero.2]
  exact mul_nonneg hnonneg hpower.2

theorem hypotenuse_nonneg {m n : Nat} (hm : m ≤ 2 ^ 64) (hn : n ≤ 2 ^ 64) :
    (hypotenuse m n).isFinite = true ∧ 0 ≤ value (hypotenuse m n) := by
  have hx := atMost_ofNat (k := 64) (max_le hm hn) (by norm_num)
  have hy := atMost_ofNat (k := 64) ((min_le_left m n).trans hm) (by norm_num)
  have hordered := ofNat_le_ofNat (min_le_max : min m n ≤ max m n)
  rw [le_iff_value_le hy.isFinite hx.isFinite] at hordered
  have hnonneg (k : Nat) (hk : (Float.ofNat k).isFinite = true) : 0 ≤ value (Float.ofNat k) :=
    (rounds_natural k).nonneg hk (Nat.cast_nonneg k)
  unfold hypotenuse hypotenuseOver
  split
  · have hfinite := (hx.add hy (by norm_num)).isFinite
    exact ⟨hfinite, (rounds_add hx.isFinite hy.isFinite).nonneg hfinite
      (add_nonneg (hnonneg _ hx.isFinite) (hnonneg _ hy.isFinite))⟩
  · rename_i hlong
    have hsome : min m n ≠ 0 := by
      intro hnone
      rw [hnone] at hlong
      exact hlong (zero_le_part hx.isFinite (hnonneg _ hx.isFinite))
    have hone : (1 : Float).isFinite = true ∧ value 1 = 1 := by decide +kernel
    have hge : 1 ≤ Float.ofNat (min m n) := (rounds_natural (min m n)).ge hone.1
      (by rw [hone.2]; exact_mod_cast Nat.one_le_iff_ne_zero.mpr hsome)
    rw [le_iff_value_le hone.1 hy.isFinite, hone.2] at hge
    have hspans := spans_sqrt hx.isFinite hy.isFinite hge hordered ((le_abs_self _).trans hx.le)
    exact hspans.step_nonneg

end ToolBatching.Number
