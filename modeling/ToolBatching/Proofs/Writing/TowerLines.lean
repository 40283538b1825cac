import ToolBatching.Proofs.Number.Magnitudes
import ToolBatching.Proofs.Number.WholeParts
import ToolBatching.Proofs.Writing.Legible

namespace ToolBatching

open Number

namespace PrimeTower

/-- Settings of towers that leave room for the sums and products of their moves. -/
structure Moderate (t : PrimeTower) : Prop where
  positionX : AtMost 400 t.positionX
  positionY : AtMost 400 t.positionY
  size : AtMost 400 t.size
  spacing : AtMost 400 t.spacing
  extrusionWidth : AtMost 400 t.extrusionWidth
  printSpeed : AtMost 400 t.printSpeed

instance (t : PrimeTower) : Decidable t.Moderate :=
  decidable_of_iff (AtMost 400 t.positionX ∧ AtMost 400 t.positionY ∧ AtMost 400 t.size ∧
      AtMost 400 t.spacing ∧ AtMost 400 t.extrusionWidth ∧ AtMost 400 t.printSpeed)
    ⟨fun h => ⟨h.1, h.2.1, h.2.2.1, h.2.2.2.1, h.2.2.2.2.1, h.2.2.2.2.2⟩,
      fun h => ⟨h.positionX, h.positionY, h.size, h.spacing, h.extrusionWidth, h.printSpeed⟩⟩

variable {t : PrimeTower}

theorem Moderate.position (h : t.Moderate) {tool : Nat} (htool : tool < 10) :
    AtMost 406 (t.position tool).1 ∧ AtMost 406 (t.position tool).2 := by
  have hnumber : AtMost 4 (Float.ofNat tool) := atMost_ofNat (by omega) (by omega)
  have hstep : AtMost 401 (t.size + t.spacing) := h.size.add h.spacing (by omega)
  have hoffset : AtMost 405 (Float.ofNat tool * (t.size + t.spacing)) :=
    hnumber.mul hstep (by omega)
  exact ⟨(h.positionX.mono (by omega)).add hoffset (by omega), h.positionY.mono (by omega)⟩

theorem loops_le (t : PrimeTower) : t.loops ≤ 2 ^ 64 := by
  have hrange : clamped 0 maxUInt64 nearest (t.wallThickness / t.extrusionWidth) ≤ maxUInt64 :=
    (clamped_mem nearest _ le_rfl (by decide)).2
  have hmax : maxUInt64 ≤ 2 ^ 64 := by decide
  rw [loops]
  omega

/-- How far a loop of a tower layer lies inside the outermost one. -/
def inset (t : PrimeTower) (i : Nat) : Float :=
  Float.ofNat i * t.extrusionWidth

def side (t : PrimeTower) (i : Nat) : Float :=
  t.size - 2.0 * t.inset i

theorem loopsFrom_succ (t : PrimeTower) (perMm x y : Float) (left i : Nat) :
    t.loopsFrom perMm x y (left + 1) i =
      if t.side i ≤ 0 then []
      else t.loop perMm (x + t.inset i) (y + t.inset i) (t.side i) ++
        t.loopsFrom perMm x y left (i + 1) :=
  rfl

/-- A loop whose corners, amounts and speed are finite. -/
structure LoopFinite (t : PrimeTower) (perMm x y side : Float) : Prop where
  left : x.isFinite = true
  front : y.isFinite = true
  right : (x + side).isFinite = true
  back : (y + side).isFinite = true
  length : side.isFinite = true
  amount : (side * perMm).isFinite = true
  speed : (t.printSpeed * 60.0).isFinite = true

theorem Moderate.loopFinite (h : t.Moderate) {perMm x y : Float} (hper : AtMost 400 perMm)
    (hx : AtMost 406 x) (hy : AtMost 406 y) {i : Nat} (hi : i ≤ 2 ^ 64) :
    t.LoopFinite perMm (x + t.inset i) (y + t.inset i) (t.side i) := by
  have hinset : AtMost 464 (t.inset i) :=
    (atMost_ofNat (k := 64) hi (by omega)).mul h.extrusionWidth (by omega)
  have htwice : AtMost 465 (2.0 * t.inset i) :=
    AtMost.mul (j := 1) (by decide +kernel) hinset (by omega)
  have hside : AtMost 466 (t.side i) := (h.size.mono (by omega)).sub htwice (by omega)
  have hcorner {z : Float} (hz : AtMost 406 z) : AtMost 466 (z + t.inset i) :=
    ((hz.mono (by omega)).add hinset (by omega)).mono (by omega)
  have hspeed : AtMost 406 (t.printSpeed * 60.0) :=
    h.printSpeed.mul (k := 6) (by decide +kernel) (by omega)
  exact ⟨(hcorner hx).isFinite, (hcorner hy).isFinite,
    ((hcorner hx).add hside (by omega)).isFinite, ((hcorner hy).add hside (by omega)).isFinite,
    hside.isFinite, (hside.mul hper (by omega)).isFinite, hspeed.isFinite⟩

theorem legible_loop {perMm x y side : Float} (h : t.LoopFinite perMm x y side) :
    ∀ c ∈ t.loop perMm x y side, c.Legible := by
  have hedge {x y : Float} (hx : x.isFinite = true) (hy : y.isFinite = true) :
      (Move.build
        { x := some x, y := some y, e := some (side * perMm)
          f := some (t.printSpeed * 60.0) }).Legible := by
    apply Move.legible_build _ rfl
    constructor <;> simp [hx, hy, h.amount, h.speed]
  have hcorner : (Move.build { x := some x, y := some y }).Legible := by
    apply Move.legible_build _ rfl
    constructor <;> simp [h.left, h.front]
  simp only [loop, List.forall_mem_cons, List.not_mem_nil, false_imp_iff, implies_true, and_true]
  exact ⟨hcorner, hedge h.right h.front, hedge h.right h.back, hedge h.left h.back,
    hedge h.left h.front⟩

theorem legible_loopsFrom (h : t.Moderate) {perMm x y : Float} (hper : AtMost 400 perMm)
    (hx : AtMost 406 x) (hy : AtMost 406 y) {left i : Nat} (hle : i + left ≤ 2 ^ 64) :
    ∀ c ∈ t.loopsFrom perMm x y left i, c.Legible := by
  induction left generalizing i with
  | zero => simp [loopsFrom]
  | succ left ih =>
      rw [loopsFrom_succ]
      split
      · simp
      · rw [List.forall_mem_append]
        exact ⟨legible_loop (h.loopFinite hper hx hy (by omega)), ih (by omega)⟩

theorem legible_layerMoves (h : t.Moderate) {tool : Nat} (htool : tool < 10) {layerHeight : Float}
    (hper : AtMost 400 (t.extrusionPerMm layerHeight)) :
    ∀ c ∈ t.layerMoves tool layerHeight, c.Legible := by
  obtain ⟨hx, hy⟩ := h.position htool
  exact legible_loopsFrom h hper hx hy (by rw [Nat.zero_add]; exact t.loops_le)

end PrimeTower

end ToolBatching
