import ToolBatching.Proofs.Validation
import ToolBatching.Proofs.Writing.Entering
import ToolBatching.Proofs.Writing.TowerLines

namespace ToolBatching

open Number

namespace Machine

variable {m : Machine} {amount : Float}

/-- The modes in which the moves of a tower are read. -/
structure TowerModes (m : Machine) : Prop where
  positioning : m.positioning = .absolute
  extrusion : m.extrusion = .relative

theorem TowerModes.step_build (h : m.TowerModes) (move : Move) : (m.step move.build).TowerModes :=
  ⟨(Move.mode_build m move .x).trans h.positioning, (Move.mode_build m move .e).trans h.extrusion⟩

/-- A command that prints a straight line at the height of the nozzle: it has words for X, Y and the
extruder, leads to a point and pushes out an amount of filament, up to its last place. -/
structure PrintsLine (m : Machine) (x y amount : Float) (c : Command) : Prop where
  words : c.x.isSome = true ∧ c.y.isSome = true ∧ c.e.isSome = true
  x : Within (1 / 1000) (m.step c).x x
  y : Within (1 / 1000) (m.step c).y y
  z : (m.step c).z = m.z
  extruded : Within (1 / 10 ^ 5) (m.extruded c) amount
  prints : 1 / 10 ^ 5 ≤ value amount → m.prints c = true

/-- Commands that print lines from point to point. -/
inductive PrintsPath (amount : Float) : Machine → List (Float × Float) → List Command → Prop
  | stop (m : Machine) : PrintsPath amount m [] []
  | line {m : Machine} {x y : Float} {points : List (Float × Float)} {c : Command}
      {cs : List Command} (h : m.PrintsLine x y amount c)
      (rest : PrintsPath amount (m.step c) points cs) :
      PrintsPath amount m ((x, y) :: points) (c :: cs)

/-- A command that travels to a point at the height of the nozzle. -/
structure TravelsTo (m : Machine) (x y : Float) (c : Command) : Prop where
  dry : c.e = none
  x : Within (1 / 1000) (m.step c).x x
  y : Within (1 / 1000) (m.step c).y y
  z : (m.step c).z = m.z

/-- The corners of a square in the order in which they are reached from the first one. -/
def corners (x y side : Float) : List (Float × Float) :=
  [(x + side, y), (x + side, y + side), (x, y + side), (x, y)]

/-- A travel to the corner of a square, and the lines around it. -/
def PrintsSquare (m : Machine) (x y side amount : Float) (cs : List Command) : Prop :=
  ∃ c rest, cs = c :: rest ∧ m.TravelsTo x y c ∧
    PrintsPath amount (m.step c) (corners x y side) rest

end Machine

namespace Move

variable {m : Machine} {x y e f : Float}

theorem pos_of_readBack {v r : Float} (hv : v.isFinite = true)
    (hread : readBack extrusionPlaces (some v) = some r) (hle : 1 / 10 ^ 5 ≤ value v) :
    0 < r := by
  obtain ⟨s, hs, hfinite, q, hclose, hnearest⟩ := nearest_readBack .e hv
  obtain rfl : r = s := Option.some.inj (hread.symm.trans hs)
  have hlow : (2 : ℚ) ^ (-18 : ℤ) ≤ q := by
    norm_num [Axis.places, extrusionPlaces] at hclose
    norm_num at hle ⊢
    linarith [(abs_le.mp hclose).1]
  have hpos := hnearest.le_of_grid_le (grid_two_zpow (by norm_num)) hlow
  exact (pos_iff hfinite).mpr (lt_of_lt_of_le (by positivity) hpos)

theorem printsLine_build (h : m.TowerModes) (hx : x.isFinite = true) (hy : y.isFinite = true)
    (he : e.isFinite = true) (hf : f.isFinite = true) :
    m.PrintsLine x y e (Move.build { x := some x, y := some y, e := some e, f := some f }) := by
  have hfinite : Move.Finite { x := some x, y := some y, e := some e, f := some f } :=
    ⟨by simpa using hx, by simpa using hy, by simp, by simpa using he, by simpa using hf⟩
  have hreachX := within_build (m := m) (a := .x) h.positioning hfinite rfl rfl
  have hreachY := within_build (m := m) (a := .y) h.positioning hfinite rfl rfl
  have hkeepsZ := Machine.along_step_eq_self (a := .z)
    (target_build_eq_none (m := { x := some x, y := some y, e := some e, f := some f }) rfl rfl) m
  have hwordX := along_build hfinite rfl .x
  have hwordY := along_build hfinite rfl .y
  have hwordE := along_build hfinite rfl .e
  have hcode := mnemonic_build hfinite rfl
  have htool := (quiet_build { x := some x, y := some y, e := some e, f := some f }).tool
  have htag : (Move.build { x := some x, y := some y, e := some e, f := some f }).inToolChange =
      false := rfl
  generalize Move.build { x := some x, y := some y, e := some e, f := some f } = c
    at hreachX hreachY hkeepsZ hwordX hwordY hwordE hcode htool htag ⊢
  obtain ⟨u, hu, -⟩ := exists_readBack .x hx
  obtain ⟨v, hv, -⟩ := exists_readBack .y hy
  obtain ⟨r, hr, hclose⟩ := exists_readBack .e he
  have hmotion : c.isMotion = true := by simp [Command.isMotion, hcode]
  have hword : c.e = some r := hwordE.trans hr
  have hextruded : m.extruded c = r := by
    simp [Machine.extruded, htool, hmotion, hword, h.extrusion]
  refine ⟨⟨?_, ?_, ?_⟩, ?_, ?_, hkeepsZ, ?_, ?_⟩
  · rw [show c.x = some u from hwordX.trans hu, Option.isSome_some]
  · rw [show c.y = some v from hwordY.trans hv, Option.isSome_some]
  · rw [hword, Option.isSome_some]
  · norm_num [Axis.places, axisPlaces] at hreachX
    norm_num
    exact hreachX
  · norm_num [Axis.places, axisPlaces] at hreachY
    norm_num
    exact hreachY
  · rw [hextruded]
    exact hclose
  · intro hle
    have hpos := pos_of_readBack he hr hle
    simp [Machine.prints, hextruded, hpos, hmotion, htag]

theorem printsPath_map (h : m.TowerModes) (he : e.isFinite = true) (hf : f.isFinite = true)
    {points : List (Float × Float)}
    (hpoints : ∀ p ∈ points, p.1.isFinite = true ∧ p.2.isFinite = true) :
    Machine.PrintsPath e m points (points.map fun p =>
      Move.build { x := some p.1, y := some p.2, e := some e, f := some f }) := by
  induction points generalizing m with
  | nil => exact .stop m
  | cons p points ih =>
      obtain ⟨hp, hpoints⟩ := List.forall_mem_cons.mp hpoints
      exact .line (printsLine_build h hp.1 hp.2 he hf) (ih (h.step_build _) hpoints)

theorem travelsTo_build (hpositioning : m.positioning = .absolute) (hx : x.isFinite = true)
    (hy : y.isFinite = true) : m.TravelsTo x y (Move.build { x := some x, y := some y }) := by
  have hfinite : Move.Finite { x := some x, y := some y } :=
    ⟨by simpa using hx, by simpa using hy, by simp, by simp, by simp⟩
  have hreachX := within_build (m := m) (a := .x) hpositioning hfinite rfl rfl
  have hreachY := within_build (m := m) (a := .y) hpositioning hfinite rfl rfl
  norm_num [Axis.places, axisPlaces] at hreachX hreachY
  refine ⟨along_build_eq_none (a := .e) rfl rfl, ?_, ?_,
    Machine.along_step_eq_self (a := .z) (target_build_eq_none rfl rfl) m⟩
  · norm_num
    exact hreachX
  · norm_num
    exact hreachY

end Move

namespace PrimeTower

variable {t : PrimeTower} {m : Machine} {perMm x y : Float}

/-- Squares that are printed one inside the other, each of them the loop of its index. -/
inductive PrintsSquares (t : PrimeTower) (perMm x y : Float) :
    Machine → Nat → List (List Command) → Prop
  | stop (m : Machine) (i : Nat) : PrintsSquares t perMm x y m i []
  | square {m : Machine} {i : Nat} {cs : List Command} {squares : List (List Command)}
      (pos : 0 < value (t.side i))
      (h : m.PrintsSquare (x + t.inset i) (y + t.inset i) (t.side i) (t.side i * perMm) cs)
      (rest : PrintsSquares t perMm x y (m.run cs) (i + 1) squares) :
      PrintsSquares t perMm x y m i (cs :: squares)

theorem loop_eq (t : PrimeTower) (perMm x y side : Float) :
    t.loop perMm x y side = Move.build { x := some x, y := some y } ::
      (Machine.corners x y side).map fun p =>
        Move.build { x := some p.1, y := some p.2, e := some (side * perMm)
                     f := some (t.printSpeed * 60.0) } :=
  rfl

theorem printsSquare_loop {side : Float} (h : m.TowerModes) (hnumbers : t.LoopFinite perMm x y side) :
    m.PrintsSquare x y side (side * perMm) (t.loop perMm x y side) := by
  rw [loop_eq]
  refine ⟨_, _, rfl, Move.travelsTo_build h.positioning hnumbers.left hnumbers.front, ?_⟩
  refine Move.printsPath_map (h.step_build _) hnumbers.amount hnumbers.speed ?_
  simp [Machine.corners, hnumbers.left, hnumbers.front, hnumbers.right, hnumbers.back]

theorem towerModes_run_loop (h : m.TowerModes) (t : PrimeTower) (perMm x y side : Float) :
    (m.run (t.loop perMm x y side)).TowerModes := by
  have hswitches (a : Axis) : ∀ c ∈ t.loop perMm x y side, c.switches a = none := by
    simp only [loop, List.forall_mem_cons, List.not_mem_nil, false_imp_iff, implies_true, and_true]
    exact ⟨Move.switches_build _ a, Move.switches_build _ a, Move.switches_build _ a,
      Move.switches_build _ a, Move.switches_build _ a⟩
  exact ⟨(Machine.mode_run_eq_self (a := .x) (hswitches .x)).trans h.positioning,
    (Machine.mode_run_eq_self (a := .e) (hswitches .e)).trans h.extrusion⟩

theorem exists_squares_loopsFrom (h : m.TowerModes) (hmoderate : t.Moderate)
    (hper : AtMost 400 perMm) (hx : AtMost 406 x) (hy : AtMost 406 y) {left i : Nat}
    (hle : i + left ≤ 2 ^ 64) :
    ∃ squares, t.loopsFrom perMm x y left i = squares.flatten ∧ squares.length ≤ left ∧
      (squares.length < left → t.side (i + squares.length) ≤ 0) ∧
      PrintsSquares t perMm x y m i squares := by
  induction left generalizing m i with
  | zero => exact ⟨[], rfl, le_rfl, fun hlt => absurd hlt (by simp), .stop m i⟩
  | succ left ih =>
      rw [loopsFrom_succ]
      by_cases hnone : t.side i ≤ 0
      · rw [if_pos hnone]
        exact ⟨[], rfl, Nat.zero_le _, fun _ => by simpa using hnone, .stop m i⟩
      · rw [if_neg hnone]
        have hnumbers := hmoderate.loopFinite hper hx hy (i := i) (by omega)
        obtain ⟨squares, hmoves, hlength, hmaximal, hprints⟩ :=
          ih (towerModes_run_loop h t perMm (x + t.inset i) (y + t.inset i) (t.side i)) (i := i + 1)
            (by omega)
        refine ⟨_ :: squares, ?_, ?_, ?_,
          .square ?_ (printsSquare_loop h hnumbers) hprints⟩
        · rw [hmoves, List.flatten_cons]
        · simpa using hlength
        · intro hlt
          rw [List.length_cons] at hlt ⊢
          rw [show i + (squares.length + 1) = i + 1 + squares.length by omega]
          exact hmaximal (by omega)
        · rw [le_iff_value_le hnumbers.length isFinite_zero.1, isFinite_zero.2, not_le] at hnone
          exact hnone

/-- A layer of a tool's tower at the height of the nozzle: at least one square, and as many as the
wall has loops unless there is no room for another one. -/
structure PrintsLayer (t : PrimeTower) (m : Machine) (tool : Tool) (perMm : Float)
    (squares : List (List Command)) : Prop where
  printed : PrintsSquares t perMm (t.position tool).1 (t.position tool).2 m 0 squares
  some : squares ≠ []
  loops : squares.length ≤ t.loops
  room : squares.length < t.loops → t.side squares.length ≤ 0

theorem loops_pos (t : PrimeTower) : 0 < t.loops :=
  lt_of_lt_of_le Nat.one_pos (le_max_left _ _)

theorem side_zero_pos (h : t.validate = .ok ()) : 0 < value (t.side 0) := by
  obtain ⟨⟨hsize, hpos⟩, hwidth⟩ := lengths_of_validate h
  have hzero : (Float.ofNat 0).isFinite = true ∧ value (Float.ofNat 0) = 0 := by decide +kernel
  have hnothing : |(0 : ℚ)| < 2 ^ 1024 := by rw [abs_zero]; positivity
  have hinset := rounds_mul hzero.1 hwidth
  rw [hzero.2, zero_mul] at hinset
  obtain ⟨hinsetFinite, hinsetValue⟩ := hinset.eq_of_grid grid_zero hnothing
  have htwice := rounds_mul (x := 2.0) (by decide +kernel) hinsetFinite
  rw [hinsetValue, mul_zero] at htwice
  obtain ⟨htwiceFinite, htwiceValue⟩ := htwice.eq_of_grid grid_zero hnothing
  have hside := rounds_sub hsize htwiceFinite
  rw [htwiceValue, sub_zero] at hside
  exact (hside.eq_of_grid (grid_value hsize) (abs_value_lt hsize)).2.symm ▸ hpos

theorem exists_squares_layerMoves (h : m.TowerModes) (hvalid : t.validate = .ok ())
    (hmoderate : t.Moderate) {tool : Nat} (htool : tool < 10) {layerHeight : Float}
    (hper : AtMost 400 (t.extrusionPerMm layerHeight)) :
    ∃ squares, t.layerMoves tool layerHeight = squares.flatten ∧
      t.PrintsLayer m tool (t.extrusionPerMm layerHeight) squares := by
  obtain ⟨hx, hy⟩ := hmoderate.position htool
  have hle : 0 + t.loops ≤ 2 ^ 64 := by
    rw [Nat.zero_add]
    exact t.loops_le
  obtain ⟨squares, hmoves, hlength, hroom, hprinted⟩ :=
    exists_squares_loopsFrom h hmoderate hper hx hy hle
  rw [Nat.zero_add] at hroom
  refine ⟨squares, hmoves, hprinted, ?_, hlength, hroom⟩
  rintro rfl
  have hpos := side_zero_pos hvalid
  have hnone := hroom t.loops_pos
  rw [List.length_nil] at hnone
  have hfinite := (hmoderate.loopFinite hper hx hy (i := 0) (by omega)).length
  rw [le_iff_value_le hfinite isFinite_zero.1, isFinite_zero.2] at hnone
  exact absurd hpos hnone.not_gt

end PrimeTower

end ToolBatching
