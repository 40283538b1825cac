import ToolBatching.Proofs.Clearance.PrintEnds
import ToolBatching.Proofs.Number.HypotenuseError
import ToolBatching.Proofs.Validation

/-!
Cells and the points in them. A cell contains the points that lead to it, up to rounding, so the
distance of two cells along an axis and that of two points in them differ by no more than a cell.
Within a radius, points that are closer by one and a half cells lie in cells that are near, and cells
that are near hold no points that are farther apart by as much.
-/

namespace ToolBatching

namespace Number

theorem add_sq_add_add_sq_le {u v r e k : ℚ} (hr : 0 ≤ r) (he : 0 ≤ e)
    (hk : 0 ≤ k) (htwo : 2 ≤ k ^ 2) (h : u ^ 2 + v ^ 2 ≤ r ^ 2) :
    (u + e) ^ 2 + (v + e) ^ 2 ≤ (r + k * e) ^ 2 := by
  have hlegs : u + v ≤ k * r := by
    refine le_of_sq_le_sq ?_ (mul_nonneg hk hr)
    calc
      (u + v) ^ 2 ≤ 2 * (u ^ 2 + v ^ 2) := by linarith [sq_nonneg (u - v)]
      _ ≤ 2 * r ^ 2 := by linarith
      _ ≤ k ^ 2 * r ^ 2 := mul_le_mul_of_nonneg_right htwo (sq_nonneg r)
      _ = (k * r) ^ 2 := (mul_pow k r 2).symm
  calc
    (u + e) ^ 2 + (v + e) ^ 2 = u ^ 2 + v ^ 2 + 2 * (e * (u + v)) + 2 * e ^ 2 := by ring
    _ ≤ r ^ 2 + 2 * (e * (k * r)) + k ^ 2 * e ^ 2 := by
      have hcross := mul_le_mul_of_nonneg_left hlegs he
      have hsquare := mul_le_mul_of_nonneg_right htwo (sq_nonneg e)
      linarith
    _ = (r + k * e) ^ 2 := by ring

theorem Rounds.le_add_of_le {q : ℚ} {x y : Float} (h : Rounds q x) (hq : 0 ≤ q) (hle : x ≤ y)
    (hy : y.isFinite = true) (hbound : Number.value y ≤ 2 ^ 22) : q ≤ Number.value y + 1 / 2 ^ 30 := by
  have hsmall : q ≤ 2 ^ 23 := by
    obtain ⟨hlimit, hvalue⟩ := value_ofNat (n := 2 ^ 23) (by norm_num)
    by_contra hlarge
    rw [not_le] at hlarge
    have habove : Float.ofNat (2 ^ 23) ≤ y :=
      le_trans_float (h.ge hlimit (by rw [hvalue]; push_cast; exact hlarge.le)) hle
    rw [le_iff_value_le hlimit hy, hvalue] at habove
    norm_num at habove hbound
    linarith
  have hmagnitude : |q| ≤ 2 ^ 23 := by rwa [abs_of_nonneg hq]
  obtain ⟨hx, herror⟩ :=
    h.abs_sub_le hmagnitude (by norm_num) (pow_le_pow_right₀ (by norm_num) (by norm_num))
  have hbelow := (le_iff_value_le hx hy).mp hle
  norm_num at herror ⊢
  linarith [(abs_le.mp herror).1]

end Number

open Number

/-- Whether both coordinates are at most a kilometre in magnitude. -/
structure Point.Inside (a : Point) : Prop where
  x : AtMost 20 a.x
  y : AtMost 20 a.y

instance (a : Point) : Decidable a.Inside :=
  decidable_of_iff (AtMost 20 a.x ∧ AtMost 20 a.y) ⟨fun h => ⟨h.1, h.2⟩, fun h => ⟨h.x, h.y⟩⟩

namespace Point.Inside

variable {a b : Point}

theorem finite (h : a.Inside) : a.Finite :=
  ⟨h.x.isFinite, h.y.isFinite⟩

theorem abs_sub_le (ha : a.Inside) (hb : b.Inside) :
    |value a.x - value b.x| ≤ 2 ^ 21 ∧ |value a.y - value b.y| ≤ 2 ^ 21 := by
  have hx := abs_sub (value a.x) (value b.x)
  have hy := abs_sub (value a.y) (value b.y)
  constructor <;> linarith [ha.x.le, ha.y.le, hb.x.le, hb.y.le]

theorem sq_add_sq_le (ha : a.Inside) (hb : b.Inside) :
    (value a.x - value b.x) ^ 2 + (value a.y - value b.y) ^ 2 ≤ (2 ^ 22) ^ 2 := by
  obtain ⟨hx, hy⟩ := ha.abs_sub_le hb
  have hx := pow_le_pow_left₀ (abs_nonneg _) hx 2
  have hy := pow_le_pow_left₀ (abs_nonneg _) hy 2
  rw [sq_abs] at hx hy
  linarith

end Point.Inside

namespace Cell

/-- A cell with the points that lie in it along both axes, measured in cells and up to a part of a
cell at each side. -/
structure Contains (c : Cell) (size slack : ℚ) (a : Point) : Prop where
  column : value a.x / size ∈ Set.Icc (c.column - slack) (c.column + 1 + slack)
  row : value a.y / size ∈ Set.Icc (c.row - slack) (c.row + 1 + slack)

theorem sq_abs_div_add_sq_abs_div (u v size : ℚ) :
    (|u| / size) ^ 2 + (|v| / size) ^ 2 = (u ^ 2 + v ^ 2) / size ^ 2 := by
  rw [div_pow, div_pow, sq_abs, sq_abs, ← add_div]

theorem abs_natAbs_sub_le {u v size slack : ℚ} {m n : ℤ} (hsize : 0 < size)
    (hu : u / size ∈ Set.Icc (m - slack) (m + 1 + slack))
    (hv : v / size ∈ Set.Icc (n - slack) (n + 1 + slack)) :
    |((m - n).natAbs : ℚ) - |u - v| / size| ≤ 1 + 2 * slack := by
  have hcast : ((m - n).natAbs : ℚ) = |(m : ℚ) - n| := by
    rw [← Int.cast_sub, ← Int.cast_abs, Int.abs_eq_natAbs, Int.cast_natCast]
  have hscaled : |u - v| / size = |u / size - v / size| := by
    rw [← sub_div, abs_div, abs_of_pos hsize]
  rw [hcast, hscaled]
  refine (abs_abs_sub_abs_le _ _).trans ?_
  obtain ⟨hulow, huhigh⟩ := hu
  obtain ⟨hvlow, hvhigh⟩ := hv
  rw [abs_le]
  constructor <;> linarith

namespace Contains

variable {c d : Cell} {size slack : ℚ} {a b : Point}

theorem columnsTo (ha : c.Contains size slack a) (hb : d.Contains size slack b)
    (hsize : 0 < size) :
    |(c.columnsTo d : ℚ) - |value a.x - value b.x| / size| ≤ 1 + 2 * slack :=
  abs_natAbs_sub_le hsize ha.column hb.column

theorem rowsTo (ha : c.Contains size slack a) (hb : d.Contains size slack b) (hsize : 0 < size) :
    |(c.rowsTo d : ℚ) - |value a.y - value b.y| / size| ≤ 1 + 2 * slack :=
  abs_natAbs_sub_le hsize ha.row hb.row

end Contains

end Cell

/-- A size of cells that lets a kilometre through without loss. -/
structure Cell.Coarse (size : Float) : Prop where
  isFinite : size.isFinite = true
  le : 1 / 100 ≤ value size

theorem ClearanceSettings.coarse_of_validate {s : ClearanceSettings} (h : s.validate = .ok ()) :
    Cell.Coarse s.cellSize := by
  have hcell := require_eq_ok_iff.mp (check_eq_ok_iff.mp h).2
  rw [Bool.and_eq_true, decide_eq_true_eq] at hcell
  have hmin : minCellSize.isFinite = true ∧ 1 / 100 ≤ value minCellSize := by decide +kernel
  exact ⟨hcell.2, hmin.2.trans ((le_iff_value_le hmin.1 hcell.2).mp hcell.1)⟩

namespace Cell.Coarse

variable {size x : Float}

theorem pos (h : Coarse size) : 0 < value size :=
  lt_of_lt_of_le (by norm_num) h.le

theorem near_div (h : Coarse size) (hx : AtMost 20 x) :
    (x / size).isFinite = true ∧ |value (x / size)| ≤ 2 ^ 28 ∧
      |value (x / size) - value x / value size| ≤ 1 / 2 ^ 26 := by
  have hpos := h.pos
  have hcells : |value x / value size| ≤ 2 ^ 27 := by
    rw [abs_div, abs_of_pos hpos, div_le_iff₀ hpos]
    linarith [hx.le, h.le]
  obtain ⟨hfinite, herror⟩ := (rounds_div hx.isFinite h.isFinite hpos).abs_sub_le hcells
    (by norm_num) (pow_le_pow_right₀ (by norm_num) (by norm_num))
  have htriangle := abs_sub_abs_le_abs_sub (value (x / size)) (value x / value size)
  exact ⟨hfinite, by linarith, by linarith⟩

theorem mem_Icc_floor (h : Coarse size) (hx : AtMost 20 x) {n : ℤ}
    (hn : clamped minInt64 maxInt64 floor (x / size) = n) :
    value x / value size ∈ Set.Icc ((n : ℚ) - 1 / 2 ^ 26) ((n : ℚ) + 1 + 1 / 2 ^ 26) := by
  obtain ⟨hfinite, hbound, herror⟩ := h.near_div hx
  rw [abs_le] at hbound herror
  have hlow : (-2 ^ 28 : ℤ) ≤ ⌊value (x / size)⌋ := Int.le_floor.mpr (by push_cast; linarith)
  have hhigh : ⌊value (x / size)⌋ ≤ (2 ^ 28 : ℤ) := by
    have hcast : (⌊value (x / size)⌋ : ℚ) ≤ ((2 ^ 28 : ℤ) : ℚ) := by
      push_cast
      exact (Int.floor_le _).trans hbound.2
    exact_mod_cast hcast
  have hwhole : ⌊value (x / size)⌋ = n := by
    rw [← hn, clamped_of_isFinite _ _ _ hfinite, floor_eq]
    unfold minInt64 maxInt64
    omega
  obtain ⟨hbelow, habove⟩ := Int.floor_eq_iff.mp hwhole
  constructor <;> linarith

theorem contains_around (h : Coarse size) {a : Point} (ha : a.Inside) :
    (around size a.x a.y).Contains (value size) (1 / 2 ^ 26) a :=
  ⟨h.mem_Icc_floor ha.x rfl, h.mem_Icc_floor ha.y rfl⟩

theorem distances_lt (h : Coarse size) {a b : Point} (ha : a.Inside) (hb : b.Inside) :
    (around size a.x a.y).columnsTo (around size b.x b.y) < 2 ^ 53 ∧
      (around size a.x a.y).rowsTo (around size b.x b.y) < 2 ^ 53 := by
  have hbits {k : Nat} {u : ℚ} (hk : |(k : ℚ) - u / value size| ≤ 1 + 2 * (1 / 2 ^ 26))
      (hu : u ≤ 2 ^ 21) : k < 2 ^ 53 := by
    have hcells : u / value size ≤ 2 ^ 28 := by
      rw [div_le_iff₀ h.pos]
      linarith [h.le]
    have hcast : (k : ℚ) < ((2 ^ 53 : ℕ) : ℚ) := by
      push_cast
      linarith [(abs_le.mp hk).2]
    exact_mod_cast hcast
  obtain ⟨hx, hy⟩ := ha.abs_sub_le hb
  have hcontains := h.contains_around ha
  have hcontains' := h.contains_around hb
  exact ⟨hbits (hcontains.columnsTo hcontains' h.pos) hx,
    hbits (hcontains.rowsTo hcontains' h.pos) hy⟩

theorem le_reach (h : Coarse size) {radius : Float} (hradius : radius.isFinite = true) {n : Nat}
    (hn : n < 2 ^ 53) (hle : (n : ℚ) ≤ value radius / value size) :
    (n : Int) ≤ (Proximity.ofRadius size radius).reach := by
  obtain ⟨hfinite, hvalue⟩ := value_ofNat hn
  have hnonneg : 0 ≤ Float.ofNat n := (nonneg_iff hfinite).mpr (hvalue ▸ Nat.cast_nonneg n)
  have hquotient : Float.ofNat n ≤ radius / size :=
    (rounds_div hradius h.isFinite h.pos).ge hfinite (hvalue ▸ hle)
  have hreach : clamped minInt64 maxInt64 ceiling (Float.ofNat n) ≤
      (Proximity.ofRadius size radius).reach :=
    clamped_ceiling_le (by decide) hnonneg hquotient
  have hself : clamped minInt64 maxInt64 ceiling (Float.ofNat n) = n := by
    have hceiling : ceiling (Float.ofNat n) = n := by
      rw [ceiling_eq hfinite]
      exact (congrArg Int.ceil hvalue).trans (Int.ceil_natCast n)
    rw [clamped_of_isFinite _ _ _ hfinite, hceiling]
    unfold minInt64 maxInt64
    omega
  rwa [hself] at hreach

theorem div_le (h : Coarse size) {d : ℚ} (hd : d ≤ 2 ^ 22) : d / value size ≤ 2 ^ 29 := by
  rw [div_le_iff₀ h.pos]
  linarith [h.le]

theorem le_div_of_mul_le (h : Coarse size) {length radius : ℚ}
    (hproduct : length * value size ≤ radius + 1 / 2 ^ 30) :
    length ≤ radius / value size + 1 / 2 ^ 23 := by
  have hmargin : 1 / 2 ^ 30 ≤ 1 / 2 ^ 23 * value size := by
    norm_num
    linarith [h.le]
  have hshare : (radius / value size + 1 / 2 ^ 23) * value size =
      radius + 1 / 2 ^ 23 * value size := by
    rw [add_mul, div_mul_cancel₀ _ h.pos.ne']
  refine le_of_mul_le_mul_right ?_ h.pos
  rw [hshare]
  linarith

/-- Cells between two coordinates that are closer than a radius by one and a half cells are within
its reach. -/
theorem le_natAbs_reach (h : Coarse size) {radius : Float} (hradius : radius.isFinite = true)
    {d u : ℚ} (hd : 0 ≤ d) (hroom : d + 3 / 2 * value size ≤ value radius) (hu : u ^ 2 ≤ d ^ 2)
    {k : Nat} (hk : k < 2 ^ 53) (hcount : (k : ℚ) ≤ |u| / value size + (1 + 2 * (1 / 2 ^ 26))) :
    k ≤ (Proximity.ofRadius size radius).reach.natAbs := by
  have haxis : |u| / value size ≤ d / value size :=
    div_le_div_of_nonneg_right (abs_le_of_sq_le_sq hu hd) h.pos.le
  have hradii : d / value size + 3 / 2 ≤ value radius / value size := by
    rw [le_div_iff₀ h.pos, add_mul, div_mul_cancel₀ _ h.pos.ne']
    exact hroom
  have hreach := h.le_reach hradius hk (by linarith)
  omega

/-- Points that are closer than a radius by one and a half cells lie in cells that are near. -/
theorem near_around (h : Coarse size) {a b : Point} (ha : a.Inside) (hb : b.Inside) {radius : Float}
    (hradius : radius.isFinite = true) {d : ℚ} (hd : 0 ≤ d)
    (hclose : (value a.x - value b.x) ^ 2 + (value a.y - value b.y) ^ 2 ≤ d ^ 2)
    (hroom : d + 3 / 2 * value size ≤ value radius) :
    (Proximity.ofRadius size radius).near (around size a.x a.y) (around size b.x b.y) = true := by
  -- The points are not farther apart than the corners of the square they lie in.
  wlog hbound : d ≤ 2 ^ 22 generalizing d
  · rw [not_le] at hbound
    exact this (by norm_num) (ha.sq_add_sq_le hb) (by linarith) le_rfl
  have hpos := h.pos
  have hcolumns := (h.contains_around ha).columnsTo (h.contains_around hb) hpos
  have hrows := (h.contains_around ha).rowsTo (h.contains_around hb) hpos
  obtain ⟨hm, hn⟩ := h.distances_lt ha hb
  simp only [Proximity.near, Bool.and_eq_true, decide_eq_true_eq]
  generalize (around size a.x a.y).columnsTo (around size b.x b.y) = m at hcolumns hm ⊢
  generalize (around size a.x a.y).rowsTo (around size b.x b.y) = n at hrows hn ⊢
  have hcolumns := sub_le_iff_le_add'.mp (abs_le.mp hcolumns).2
  have hrows := sub_le_iff_le_add'.mp (abs_le.mp hrows).2
  have hscaled : (|value a.x - value b.x| / value size) ^ 2 +
      (|value a.y - value b.y| / value size) ^ 2 ≤ (d / value size) ^ 2 := by
    rw [sq_abs_div_add_sq_abs_div, div_pow]
    exact div_le_div_of_nonneg_right hclose (sq_nonneg _)
  have hgrown := add_sq_add_add_sq_le (k := 283 / 200) (e := 1 + 2 * (1 / 2 ^ 26))
    (div_nonneg hd hpos.le) (by norm_num) (by norm_num) (by norm_num) hscaled
  have hsquares : (m : ℚ) ^ 2 + (n : ℚ) ^ 2 ≤
      (d / value size + 283 / 200 * (1 + 2 * (1 / 2 ^ 26))) ^ 2 :=
    (add_le_add (pow_le_pow_left₀ (Nat.cast_nonneg m) hcolumns 2)
      (pow_le_pow_left₀ (Nat.cast_nonneg n) hrows 2)).trans hgrown
  have hlength : 0 ≤ d / value size + 283 / 200 * (1 + 2 * (1 / 2 ^ 26)) :=
    add_nonneg (div_nonneg hd hpos.le) (by norm_num)
  -- Along each axis the cells are within reach, since the points are within the length.
  have hx : (value a.x - value b.x) ^ 2 ≤ d ^ 2 := by linarith [sq_nonneg (value a.y - value b.y)]
  have hy : (value a.y - value b.y) ^ 2 ≤ d ^ 2 := by linarith [sq_nonneg (value a.x - value b.x)]
  refine ⟨⟨h.le_natAbs_reach hradius hd hroom hx hm hcolumns,
    h.le_natAbs_reach hradius hd hroom hy hn hrows⟩, ?_⟩
  obtain ⟨hfinite, -⟩ := hypotenuse_nonneg (m := m) (n := n) (by omega) (by omega)
  refine (rounds_mul hfinite h.isFinite).le hradius ?_
  have hhypotenuse := hypotenuse_le hm hn hlength hsquares
  have hcells := h.div_le hbound
  calc
    value (hypotenuse m n) * value size ≤ (d / value size + 3 / 2) * value size := by
      refine mul_le_mul_of_nonneg_right ?_ hpos.le
      linarith
    _ = d + 3 / 2 * value size := by rw [add_mul, div_mul_cancel₀ _ hpos.ne']
    _ ≤ value radius := hroom

/-- Cells that are near hold no points that are farther apart than the radius and one and a half
cells. -/
theorem sq_le_of_near (h : Coarse size) {a b : Point} (ha : a.Inside) (hb : b.Inside)
    {radius : Float} (hradius : radius.isFinite = true)
    (hnear : (Proximity.ofRadius size radius).near (around size a.x a.y)
      (around size b.x b.y) = true) :
    (value a.x - value b.x) ^ 2 + (value a.y - value b.y) ^ 2 ≤
      (value radius + 3 / 2 * value size) ^ 2 := by
  have hpos := h.pos
  rcases le_or_gt (2 ^ 22) (value radius) with hfar | hbound
  · exact (ha.sq_add_sq_le hb).trans (pow_le_pow_left₀ (by norm_num) (by linarith) 2)
  have hcolumns := (h.contains_around ha).columnsTo (h.contains_around hb) hpos
  have hrows := (h.contains_around ha).rowsTo (h.contains_around hb) hpos
  obtain ⟨hm, hn⟩ := h.distances_lt ha hb
  simp only [Proximity.near, Bool.and_eq_true, decide_eq_true_eq] at hnear
  have hlength : hypotenuse _ _ * size ≤ radius := hnear.2
  generalize (around size a.x a.y).columnsTo (around size b.x b.y) = m at hcolumns hm hlength
  generalize (around size a.x a.y).rowsTo (around size b.x b.y) = n at hrows hn hlength
  obtain ⟨hfinite, hnonneg⟩ := hypotenuse_nonneg (m := m) (n := n) (by omega) (by omega)
  have hproduct := (rounds_mul hfinite h.isFinite).le_add_of_le (mul_nonneg hnonneg hpos.le)
    hlength hradius hbound.le
  have hsquares := sq_le_hypotenuse hm hn
  generalize value (hypotenuse m n) = length at hnonneg hproduct hsquares
  have hscaled := h.le_div_of_mul_le hproduct
  have hcells := h.div_le hbound.le
  have hgrown := add_sq_add_add_sq_le (k := 283 / 200) (e := 1 + 2 * (1 / 2 ^ 26))
    (mul_nonneg hnonneg (by norm_num : (0 : ℚ) ≤ 1 + 1 / 2 ^ 41)) (by norm_num) (by norm_num)
    (by norm_num) hsquares
  have hx := pow_le_pow_left₀ (by positivity)
    (show |value a.x - value b.x| / value size ≤ m + (1 + 2 * (1 / 2 ^ 26)) by
      linarith [(abs_le.mp hcolumns).1]) 2
  have hy := pow_le_pow_left₀ (by positivity)
    (show |value a.y - value b.y| / value size ≤ n + (1 + 2 * (1 / 2 ^ 26)) by
      linarith [(abs_le.mp hrows).1]) 2
  have hwhole : length * (1 + 1 / 2 ^ 41) + 283 / 200 * (1 + 2 * (1 / 2 ^ 26)) ≤
      value radius / value size + 3 / 2 := by
    norm_num at hscaled ⊢
    linarith
  have hcellSquares : (|value a.x - value b.x| / value size) ^ 2 +
      (|value a.y - value b.y| / value size) ^ 2 ≤ (value radius / value size + 3 / 2) ^ 2 :=
    ((add_le_add hx hy).trans hgrown).trans (pow_le_pow_left₀ (by positivity) hwhole 2)
  rw [sq_abs_div_add_sq_abs_div, div_le_iff₀ (by positivity)] at hcellSquares
  calc
    (value a.x - value b.x) ^ 2 + (value a.y - value b.y) ^ 2 ≤
        (value radius / value size + 3 / 2) ^ 2 * value size ^ 2 := hcellSquares
    _ = (value radius + 3 / 2 * value size) ^ 2 := by
      rw [← mul_pow, add_mul, div_mul_cancel₀ _ hpos.ne']

end Cell.Coarse

end ToolBatching
