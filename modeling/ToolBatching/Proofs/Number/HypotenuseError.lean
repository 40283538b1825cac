import ToolBatching.Proofs.Number.Hypotenuse

/-!
How far a computed hypotenuse can be from the length. Errors are followed through a step of the
iteration in units of the last places of the scale at which its operands lie, and the excess of
the square of the rounded root comes out as a tiny part of that square. So the step adds next to
nothing to the root, which is next to nothing too long or too short itself.
-/

namespace ToolBatching.Number

variable {x y h : Float} {b c d k l q r s t v : ℚ}

/-- A float that is close to a number, by a multiple of the last place of a scale, where the number
is at most a multiple of the scale. -/
structure Tracks (c k s q : ℚ) (x : Float) : Prop where
  isFinite : x.isFinite = true
  close : |value x - q| ≤ k * (s / 2 ^ 50)
  le : |q| ≤ c * s

theorem Rounds.tracks (h : Rounds v x) (hs : Scale s) (hclose : |v - q| ≤ k * (s / 2 ^ 50))
    (hle : |q| ≤ c * s) (hk : k ≤ 1000) (hc : c ≤ 4) : Tracks c (k + 1) s q x := by
  have hlow := hs.low
  have herror : k * (s / 2 ^ 50) ≤ s := by
    calc
      k * (s / 2 ^ 50) ≤ 1000 * (s / 2 ^ 50) := mul_le_mul_of_nonneg_right hk (by positivity)
      _ ≤ s := by linarith
  have hbound : |v| ≤ 8 * s := by
    have htriangle := abs_sub_abs_le_abs_sub v q
    have hscaled := mul_le_mul_of_nonneg_right hc (zero_le_one.trans hlow)
    linarith
  have hroom : 8 * s ≤ 2 ^ 1000 := by
    calc
      8 * s ≤ 2 ^ 3 * 2 ^ 200 := by linarith [hs.high]
      _ ≤ 2 ^ 1000 := by
        rw [← pow_add]
        exact pow_le_pow_right₀ (by norm_num) (by norm_num)
  obtain ⟨hfinite, hrounded⟩ := h.abs_sub_le hbound (by linarith) hroom
  refine ⟨hfinite, ?_, hle⟩
  calc
    |Number.value x - q| = |(Number.value x - v) + (v - q)| := by rw [sub_add_sub_cancel]
    _ ≤ |Number.value x - v| + |v - q| := abs_add_le _ _
    _ ≤ (k + 1) * (s / 2 ^ 50) := by linarith

namespace Tracks

theorem self (hx : x.isFinite = true) (hle : |value x| ≤ c * s) : Tracks c 0 s (value x) x :=
  ⟨hx, by simp, hle⟩

theorem mono (hx : Tracks c k s q x) (hs : Scale s) (hkl : k ≤ l) : Tracks c l s q x := by
  refine ⟨hx.isFinite, hx.close.trans (mul_le_mul_of_nonneg_right hkl ?_), hx.le⟩
  have hlow := hs.low
  positivity

theorem add (hx : Tracks c k s q x) (hy : Tracks d l s r y) (hs : Scale s)
    (hle : |q + r| ≤ b * s) (hb : b ≤ 4) (hkl : k + l ≤ 1000) :
    Tracks b (k + l + 1) s (q + r) (x + y) := by
  refine (rounds_add hx.isFinite hy.isFinite).tracks hs ?_ hle hkl hb
  calc
    |value x + value y - (q + r)| = |(value x - q) + (value y - r)| := by ring_nf
    _ ≤ |value x - q| + |value y - r| := abs_add_le _ _
    _ ≤ (k + l) * (s / 2 ^ 50) := by linarith [hx.close, hy.close]

theorem sub (hx : Tracks c k s q x) (hy : Tracks d l s r y) (hs : Scale s)
    (hle : |q - r| ≤ b * s) (hb : b ≤ 4) (hkl : k + l ≤ 1000) :
    Tracks b (k + l + 1) s (q - r) (x - y) := by
  refine (rounds_sub hx.isFinite hy.isFinite).tracks hs ?_ hle hkl hb
  calc
    |value x - value y - (q - r)| = |(value x - q) - (value y - r)| := by ring_nf
    _ ≤ |value x - q| + |value y - r| := abs_sub _ _
    _ ≤ (k + l) * (s / 2 ^ 50) := by linarith [hx.close, hy.close]

theorem mul (hx : Tracks c k s q x) (hy : Tracks d l t r y) (hs : Scale s) (ht : Scale t)
    (hst : Scale (s * t)) (hnonneg : 0 ≤ c ∧ 0 ≤ k ∧ 0 ≤ l) (hk : k ≤ 100) (hl : l ≤ 100)
    (hcd : c * d ≤ 4) (hkl : k * d + c * l + 1 ≤ 1000) :
    Tracks (c * d) (k * d + c * l + 2) (s * t) (q * r) (x * y) := by
  have hspos := zero_le_one.trans hs.low
  have htpos := zero_le_one.trans ht.low
  refine Tracks.mono (k := k * d + c * l + 1 + 1) ?_ hst (by linarith)
  refine (rounds_mul hx.isFinite hy.isFinite).tracks hst ?_ ?_ hkl hcd
  · have hyle : |value y| ≤ d * t + l * (t / 2 ^ 50) := by
      linarith [abs_sub_abs_le_abs_sub (value y) r, hy.close, hy.le]
    have hsmall : k * l ≤ 2 ^ 50 :=
      (mul_le_mul hk hl hnonneg.2.2 (by norm_num)).trans (by norm_num)
    calc
      |value x * value y - q * r| = |(value x - q) * value y + q * (value y - r)| := by ring_nf
      _ ≤ |value x - q| * |value y| + |q| * |value y - r| := by
        rw [← abs_mul, ← abs_mul]
        exact abs_add_le _ _
      _ ≤ k * (s / 2 ^ 50) * (d * t + l * (t / 2 ^ 50)) + c * s * (l * (t / 2 ^ 50)) := by
        refine add_le_add (mul_le_mul hx.close hyle (abs_nonneg _) ?_)
          (mul_le_mul hx.le hy.close (abs_nonneg _) ?_)
        · exact mul_nonneg hnonneg.2.1 (by positivity)
        · exact mul_nonneg hnonneg.1 hspos
      _ = (k * d + c * l) * (s * t / 2 ^ 50) + k * l / 2 ^ 50 * (s * t / 2 ^ 50) := by ring
      _ ≤ (k * d + c * l + 1) * (s * t / 2 ^ 50) := by
        rw [add_mul _ 1, one_mul]
        refine add_le_add_right ?_ _
        have hpart : k * l / 2 ^ 50 ≤ 1 := (div_le_one (by norm_num)).mpr hsmall
        exact mul_le_of_le_one_left (by positivity) hpart
  · rw [abs_mul]
    calc
      |q| * |r| ≤ (c * s) * (d * t) :=
        mul_le_mul hx.le hy.le (abs_nonneg _) (mul_nonneg hnonneg.1 hspos)
      _ = c * d * (s * t) := by ring

theorem scaled (hx : Tracks c k s q x) (hs : Scale s) {n : Float} {m : ℚ}
    (hn : n.isFinite = true ∧ value n = m) (hm : 0 ≤ m) (hc : m * c ≤ 4) (hk : m * k ≤ 1000) :
    Tracks (m * c) (m * k + 1) s (m * q) (n * x) := by
  have hrounds := rounds_mul hn.1 hx.isFinite
  rw [hn.2] at hrounds
  refine hrounds.tracks hs ?_ ?_ hk hc
  · rw [← mul_sub, abs_mul, abs_of_nonneg hm, mul_assoc]
    exact mul_le_mul_of_nonneg_left hx.close hm
  · rw [abs_mul, abs_of_nonneg hm, mul_assoc]
    exact mul_le_mul_of_nonneg_left hx.le hm

end Tracks

namespace Spans

theorem le_longer (hspans : Spans x y h) : 7 / 10 * value h ≤ value x := by
  have hpos := hspans.low
  have hordered := pow_le_pow_left₀ hspans.ordered.1 hspans.ordered.2 2
  refine le_of_sq_le_sq ?_ (hspans.ordered.1.trans hspans.ordered.2)
  linarith [(abs_le.mp hspans.squares).2, sq_nonneg (value h)]

/-- The excess of the square of a root is computed up to a few last places of the square. -/
theorem tracks_squareExcess (hspans : Spans x y h) :
    Tracks 1 22 (value h * value h) (value h ^ 2 - (value x ^ 2 + value y ^ 2))
      (squareExcess x y h) := by
  obtain ⟨hx, hy, hh⟩ := hspans.isFinite
  have hs := hspans.scale
  have hss := hspans.scale_mul
  have hpos := hspans.low
  have htwo : (2 : Float).isFinite = true ∧ value 2 = 2 := by decide +kernel
  have hfour : (4 : Float).isFinite = true ∧ value 4 = 4 := by decide +kernel
  obtain ⟨hnonneg, hordered⟩ := hspans.ordered
  obtain ⟨hlonger, hshorter⟩ := hspans.legs
  have hhalf := hspans.le_longer
  have hX : Tracks (1001 / 1000) 0 (value h) (value x) x :=
    .self hx (by rwa [abs_of_nonneg (hnonneg.trans hordered)])
  have hY : Tracks (708 / 1000) 0 (value h) (value y) y :=
    .self hy (by rwa [abs_of_nonneg hnonneg])
  have hH : Tracks 1 0 (value h) (value h) h :=
    .self hh (by rw [abs_of_nonneg (by linarith), one_mul])
  have hsquares : |value h ^ 2 - (value x ^ 2 + value y ^ 2)| ≤ 1 * (value h * value h) := by
    refine hspans.squares.trans ?_
    rw [one_mul, ← pow_two]
    linarith [sq_nonneg (value h)]
  unfold squareExcess
  split
  · have hD : Tracks 1 (0 + 0 + 1) (value h) (value h - value y) (h - y) :=
      hH.sub hY hs (by rw [abs_le]; constructor <;> linarith) (by norm_num) (by norm_num)
    have hleft := (hD.scaled hs htwo (by norm_num) (by norm_num) (by norm_num)).sub hX hs (b := 2)
      (by rw [abs_le]; constructor <;> linarith) (by norm_num) (by norm_num)
    have hgap : Tracks (1001 / 1000) (0 + 0 + 1) (value h) (value x - value y) (x - y) :=
      hX.sub hY hs (by rw [abs_le]; constructor <;> linarith) (by norm_num) (by norm_num)
    have hright := hD.sub (hgap.scaled hs htwo (by norm_num) (by norm_num) (by norm_num)) hs (b := 2002 / 1000)
      (by rw [abs_le]; constructor <;> linarith) (by norm_num) (by norm_num)
    have hproduct := hX.mul hleft hs hs hss (by norm_num) (by norm_num) (by norm_num) (by norm_num)
      (by norm_num)
    have hproduct' := hright.mul hD hs hs hss (by norm_num) (by norm_num) (by norm_num)
      (by norm_num) (by norm_num)
    have hexact : value x * (2 * (value h - value y) - value x) +
        (value h - value y - 2 * (value x - value y)) * (value h - value y) =
          value h ^ 2 - (value x ^ 2 + value y ^ 2) := by ring
    have hsum := hproduct.add hproduct' hss (b := 1) (by rw [hexact]; exact hsquares) (by norm_num)
      (by norm_num)
    rw [hexact] at hsum
    exact hsum.mono hss (by norm_num)
  · have hD : Tracks (3 / 10) (0 + 0 + 1) (value h) (value h - value x) (h - x) :=
      hH.sub hX hs (by rw [abs_le]; constructor <;> linarith) (by norm_num) (by norm_num)
    have htimes := hD.scaled hs hfour (by norm_num) (by norm_num) (by norm_num)
    have hgap := hX.sub (hY.scaled hs htwo (by norm_num) (by norm_num) (by norm_num)) hs (b := 1416 / 1000)
      (by rw [abs_le]; constructor <;> linarith) (by norm_num) (by norm_num)
    have hleft := (hD.scaled hs htwo (by norm_num) (by norm_num) (by norm_num)).mul hgap hs hs hss (by norm_num)
      (by norm_num) (by norm_num) (by norm_num) (by norm_num)
    have hmiddle := (htimes.sub hY hs (b := 2) (by rw [abs_le]; constructor <;> linarith)
      (by norm_num) (by norm_num)).mul hY hs hs hss (by norm_num) (by norm_num) (by norm_num)
      (by norm_num) (by norm_num)
    have hsquare := hD.mul hD hs hs hss (by norm_num) (by norm_num) (by norm_num) (by norm_num)
      (by norm_num)
    have hright := hmiddle.add hsquare hss (b := 2) ((abs_add_le _ _).trans (by
      linarith [hmiddle.le, hsquare.le, mul_self_nonneg (value h)])) (by norm_num) (by norm_num)
    have hexact : 2 * (value h - value x) * (value x - 2 * value y) +
        ((4 * (value h - value x) - value y) * value y +
          (value h - value x) * (value h - value x)) =
          value h ^ 2 - (value x ^ 2 + value y ^ 2) := by ring
    have hsum := hleft.add hright hss (b := 1) (by rw [hexact]; exact hsquares) (by norm_num)
      (by norm_num)
    rw [hexact] at hsum
    exact hsum.mono hss (by norm_num)

end Spans

theorem Rounds.near_unit (h : Rounds q x) (hlow : 1 ≤ q) (hhigh : q ≤ 2 ^ 200) :
    x.isFinite = true ∧ |Number.value x - q| ≤ q / 2 ^ 53 :=
  h.abs_sub_le (abs_of_pos (by linarith)).le hlow
    (hhigh.trans (pow_le_pow_right₀ (by norm_num) (by norm_num)))

theorem close_square_sqrt (hx : x.isFinite = true) (hy : y.isFinite = true) (hlow : 1 ≤ value y)
    (hordered : value y ≤ value x) (hhigh : value x ≤ 2 ^ 64) :
    |value (x * x + y * y).sqrt ^ 2 - (value x ^ 2 + value y ^ 2)| ≤
      value (x * x + y * y).sqrt ^ 2 / 2 ^ 47 := by
  have hsquare {z : ℚ} (hz : 1 ≤ z) (hz' : z ≤ 2 ^ 64) : 1 ≤ z ^ 2 ∧ z ^ 2 ≤ 2 ^ 128 := by
    refine ⟨one_le_pow₀ hz, ?_⟩
    calc
      z ^ 2 ≤ (2 ^ 64) ^ 2 := pow_le_pow_left₀ (by linarith) hz' 2
      _ = 2 ^ 128 := by rw [← pow_mul]
  obtain ⟨hxlow, hxhigh⟩ := hsquare (hlow.trans hordered) hhigh
  obtain ⟨hylow, hyhigh⟩ := hsquare hlow (hordered.trans hhigh)
  have hxx := rounds_mul hx hx
  have hyy := rounds_mul hy hy
  rw [← pow_two] at hxx hyy
  obtain ⟨hxx, hxerror⟩ := hxx.near_unit hxlow (hxhigh.trans (by norm_num))
  obtain ⟨hyy, hyerror⟩ := hyy.near_unit hylow (hyhigh.trans (by norm_num))
  rw [abs_le] at hxerror hyerror
  obtain ⟨hsum, herror⟩ := (rounds_add hxx hyy).near_unit (by linarith) (by linarith)
  rw [abs_le] at herror
  obtain ⟨r, hrounds, hr, hroot⟩ := rounds_sqrt hsum (by linarith)
  rw [abs_le] at hroot
  have hrlow : 1 ≤ r := le_of_sq_le_sq (by linarith) hr.le
  have hrhigh : r ≤ 2 ^ 70 := le_of_sq_le_sq (by linarith) (by positivity)
  obtain ⟨hh, hherror⟩ := hrounds.near_unit hrlow (hrhigh.trans (by norm_num))
  have hdistance : |value (x * x + y * y).sqrt ^ 2 - r ^ 2| ≤ r ^ 2 / 2 ^ 51 := by
    rw [sq_sub_sq, abs_mul]
    calc
      |value (x * x + y * y).sqrt + r| * |value (x * x + y * y).sqrt - r| ≤
          4 * r * (r / 2 ^ 53) := by
        refine mul_le_mul ?_ hherror (abs_nonneg _) (by linarith)
        rw [abs_le] at hherror ⊢
        constructor <;> linarith
      _ = r ^ 2 / 2 ^ 51 := by ring
  rw [abs_le] at hdistance ⊢
  constructor <;> linarith

theorem Rounds.eq_natural {n : Nat} (h : Rounds n x) (hn : n < 2 ^ 53) :
    x.isFinite = true ∧ Number.value x = n := by
  refine h.eq_of_grid (grid_natCast hn.le) ?_
  have hcast : (n : ℚ) < 2 ^ 53 := by exact_mod_cast hn
  rw [Nat.abs_cast]
  exact hcast.trans (pow_lt_pow_right₀ (by norm_num) (by norm_num))

theorem value_ofNat {n : Nat} (h : n < 2 ^ 53) :
    (Float.ofNat n).isFinite = true ∧ value (Float.ofNat n) = n :=
  (rounds_natural n).eq_natural h

theorem Spans.abs_step_sub_le (hspans : Spans x y h)
    (hclose : |value h ^ 2 - (value x ^ 2 + value y ^ 2)| ≤ value h ^ 2 / 2 ^ 47) :
    |value (h - squareExcess x y h / (2 * h)) - value h| ≤ value h / 2 ^ 44 := by
  obtain ⟨-, -, hh⟩ := hspans.isFinite
  have hs := hspans.scale
  have hpos := hspans.low
  have htwo : (2 : Float).isFinite = true ∧ value 2 = 2 := by decide +kernel
  have hexcess := hspans.tracks_squareExcess
  have hsmall : |value (squareExcess x y h)| ≤ value h ^ 2 / 2 ^ 45 := by
    have htriangle := abs_sub_abs_le_abs_sub (value (squareExcess x y h))
      (value h ^ 2 - (value x ^ 2 + value y ^ 2))
    have herror := hexcess.close
    rw [← pow_two] at herror
    linarith [sq_nonneg (value h)]
  have hH : Tracks 1 0 (value h) (value h) h :=
    .self hh (by rw [abs_of_nonneg (by linarith), one_mul])
  have hdouble := hH.scaled hs htwo (by norm_num) (by norm_num) (by norm_num)
  have hlow : value h ≤ value (2 * h) := by linarith [(abs_le.mp hdouble.close).1]
  have hquotient : |value (squareExcess x y h) / value (2 * h)| ≤ value h / 2 ^ 45 := by
    rw [abs_div, abs_of_pos (by linarith : 0 < value (2 * h)), div_le_iff₀ (by linarith)]
    refine hsmall.trans ?_
    have hproduct := mul_le_mul_of_nonneg_left hlow (by positivity : 0 ≤ value h / 2 ^ 45)
    linarith [hproduct]
  have hstep : Tracks 0 33 (value h) 0 (squareExcess x y h / (2 * h)) := by
    refine Tracks.mono (k := 32 + 1) ?_ hs (by norm_num)
    refine (rounds_div hexcess.isFinite hdouble.isFinite (by linarith)).tracks hs ?_ ?_
      (by norm_num) (by norm_num)
    · rw [sub_zero]
      linarith
    · rw [abs_zero, zero_mul]
  have hstepped := hH.sub hstep hs (b := 1)
    (by rw [sub_zero, one_mul, abs_of_nonneg (by linarith)]) (by norm_num) (by norm_num)
  have herror := hstepped.close
  rw [sub_zero] at herror
  linarith

theorem Spans.step_le (hspans : Spans x y h)
    (hclose : |value h ^ 2 - (value x ^ 2 + value y ^ 2)| ≤ value h ^ 2 / 2 ^ 47) (hc : 0 ≤ c)
    (hle : value x ^ 2 + value y ^ 2 ≤ c ^ 2) :
    value (h - squareExcess x y h / (2 * h)) ≤ c + c / 2 ^ 42 := by
  have hpos := hspans.low
  have hroot : value h ≤ c + c / 2 ^ 46 := by
    refine le_of_sq_le_sq ?_ (by positivity)
    have hbelow := (abs_le.mp hclose).2
    have hsquare : (c + c / 2 ^ 46) ^ 2 = c ^ 2 * (1 + 1 / 2 ^ 46) ^ 2 := by ring
    rw [hsquare]
    norm_num at hbelow ⊢
    linarith [sq_nonneg (value h), sq_nonneg c]
  have hstep := (abs_le.mp (hspans.abs_step_sub_le hclose)).2
  norm_num at hstep hroot ⊢
  linarith

theorem Spans.sq_le_step (hspans : Spans x y h)
    (hclose : |value h ^ 2 - (value x ^ 2 + value y ^ 2)| ≤ value h ^ 2 / 2 ^ 47) :
    value x ^ 2 + value y ^ 2 ≤
      (value (h - squareExcess x y h / (2 * h)) * (1 + 1 / 2 ^ 41)) ^ 2 := by
  have hpos := hspans.low
  have habove := (abs_le.mp hclose).1
  have hstep := (abs_le.mp (hspans.abs_step_sub_le hclose)).1
  generalize value (h - squareExcess x y h / (2 * h)) = r at hstep ⊢
  have hroot : value h * (1 + 1 / 2 ^ 42) ≤ r * (1 + 1 / 2 ^ 41) := by
    norm_num at hstep ⊢
    linarith
  calc
    value x ^ 2 + value y ^ 2 ≤ value h ^ 2 * (1 + 1 / 2 ^ 47) := by linarith
    _ ≤ (value h * (1 + 1 / 2 ^ 42)) ^ 2 := by
      rw [mul_pow]
      exact mul_le_mul_of_nonneg_left (by norm_num) (sq_nonneg _)
    _ ≤ (r * (1 + 1 / 2 ^ 41)) ^ 2 := pow_le_pow_left₀ (by positivity) hroot 2

/-- A hypotenuse over a leg of no length is the other leg; any other one takes a step behind a
root. -/
theorem hypotenuse_cases {m n : Nat} (hm : m < 2 ^ 53) (hn : n < 2 ^ 53) :
    (min m n = 0 ∧ value (hypotenuse m n) = (max m n : ℕ)) ∨
      ∃ x y h, hypotenuse m n = h - squareExcess x y h / (2 * h) ∧ Spans x y h ∧
        |value h ^ 2 - (value x ^ 2 + value y ^ 2)| ≤ value h ^ 2 / 2 ^ 47 ∧
        value x ^ 2 + value y ^ 2 = (m : ℚ) ^ 2 + (n : ℚ) ^ 2 := by
  have hlongest := max_lt hm hn
  obtain ⟨hx, hxvalue⟩ := value_ofNat hlongest
  obtain ⟨hy, hyvalue⟩ := value_ofNat ((min_le_left m n).trans_lt hm)
  have hbits : ((max m n : ℕ) : ℚ) < 2 ^ 53 := by exact_mod_cast hlongest
  unfold hypotenuse hypotenuseOver
  split
  · rename_i hshort
    left
    -- The shorter leg is a natural and below one.
    have hpower : (powerOfTwo (-54)).isFinite = true ∧ value (powerOfTwo (-54)) = 1 / 2 ^ 54 := by
      decide +kernel
    have hhalf : (0.5 : Float).isFinite = true ∧ value 0.5 = 1 / 2 := by decide +kernel
    have hpart : value (Float.ofNat (max m n)) * value (powerOfTwo (-54)) ≤ value 0.5 := by
      rw [hxvalue, hpower.2, hhalf.2]
      linarith
    have hbelow := le_trans_float hshort ((rounds_mul hx hpower.1).le hhalf.1 hpart)
    rw [le_iff_value_le hy hhalf.1, hyvalue, hhalf.2] at hbelow
    have hnone : min m n = 0 := by
      have hone : ((min m n : ℕ) : ℚ) < 1 := by linarith
      exact Nat.lt_one_iff.mp (by exact_mod_cast hone)
    have hsum := rounds_add hx hy
    rw [hxvalue, hyvalue, hnone, Nat.cast_zero, add_zero] at hsum
    rw [hnone]
    exact ⟨rfl, (hsum.eq_natural hlongest).2⟩
  · rename_i hlong
    right
    have hsome : min m n ≠ 0 := by
      intro hnone
      rw [hnone] at hlong
      exact hlong (zero_le_part hx (by rw [hxvalue]; exact Nat.cast_nonneg _))
    have hlow : 1 ≤ value (Float.ofNat (min m n)) := by
      rw [hyvalue]
      exact_mod_cast Nat.one_le_iff_ne_zero.mpr hsome
    have hordered : value (Float.ofNat (min m n)) ≤ value (Float.ofNat (max m n)) := by
      rw [hxvalue, hyvalue]
      exact_mod_cast min_le_max
    have hhigh : value (Float.ofNat (max m n)) ≤ 2 ^ 64 := by
      rw [hxvalue]
      linarith
    refine ⟨_, _, _, rfl, spans_sqrt hx hy hlow hordered hhigh,
      close_square_sqrt hx hy hlow hordered hhigh, ?_⟩
    rw [hxvalue, hyvalue]
    rcases le_total m n with h | h
    · rw [max_eq_right h, min_eq_left h, add_comm]
    · rw [max_eq_left h, min_eq_right h]

theorem sq_add_sq_of_min_eq_zero {m n : Nat} (h : min m n = 0) :
    (m : ℚ) ^ 2 + (n : ℚ) ^ 2 = ((max m n : ℕ) : ℚ) ^ 2 := by
  rcases le_total m n with hle | hle
  · rw [min_eq_left hle] at h
    simp [h]
  · rw [min_eq_right hle] at h
    simp [h]

theorem hypotenuse_le {m n : Nat} (hm : m < 2 ^ 53) (hn : n < 2 ^ 53) (hc : 0 ≤ c)
    (hle : (m : ℚ) ^ 2 + (n : ℚ) ^ 2 ≤ c ^ 2) : value (hypotenuse m n) ≤ c + c / 2 ^ 42 := by
  rcases hypotenuse_cases hm hn with ⟨hnone, hvalue⟩ | ⟨x, y, h, heq, hspans, hclose, hsquares⟩
  · rw [hvalue]
    rw [sq_add_sq_of_min_eq_zero hnone] at hle
    exact (le_of_sq_le_sq hle hc).trans (le_add_of_nonneg_right (by positivity))
  · rw [heq]
    exact hspans.step_le hclose hc (hsquares ▸ hle)

theorem sq_le_hypotenuse {m n : Nat} (hm : m < 2 ^ 53) (hn : n < 2 ^ 53) :
    (m : ℚ) ^ 2 + (n : ℚ) ^ 2 ≤ (value (hypotenuse m n) * (1 + 1 / 2 ^ 41)) ^ 2 := by
  rcases hypotenuse_cases hm hn with ⟨hnone, hvalue⟩ | ⟨x, y, h, heq, hspans, hclose, hsquares⟩
  · rw [hvalue, sq_add_sq_of_min_eq_zero hnone]
    refine pow_le_pow_left₀ (Nat.cast_nonneg _) ?_ 2
    exact le_mul_of_one_le_right (Nat.cast_nonneg _) (by norm_num)
  · rw [heq, ← hsquares]
    exact hspans.sq_le_step hclose

end ToolBatching.Number
