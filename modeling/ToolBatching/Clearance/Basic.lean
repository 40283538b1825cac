import ToolBatching.Clearance.Footprint
import ToolBatching.Clearance.Nozzle
import ToolBatching.Clearance.Proximity

/-!
Whether the nozzle can still reach a segment once another one is printed. A batch
prints segments ahead of others that are deferred; when a deferred segment is printed
later, the cone of the nozzle reaches up to the material above it, and that material
must lie outside the radius of the cone at the gap in height.
-/

namespace ToolBatching

/-- Parameters of the clearance check, in mm. -/
structure ClearanceSettings where
  safetyMargin : Float := 1.0
  /-- Edge of an occupancy cell. -/
  cellSize : Float := 0.5

def minCellSize : Float := 0.01

def ClearanceSettings.validate (s : ClearanceSettings) : Except SettingsFault Unit := do
  require (0 ≤ s.safetyMargin && s.safetyMargin.isFinite) .safetyMargin
  require (minCellSize ≤ s.cellSize && s.cellSize.isFinite) .cellSize

/-- Footprints of all segments of a program with the shape of the nozzle. -/
structure Clearance where
  cone : Cone
  settings : ClearanceSettings
  /-- Footprints by layer and ordinal. -/
  footprints : Array (Array Footprint)

/-- Outcome of a check, with the radius it used. -/
inductive Verdict where
  /-- The segments keep clear of each other. -/
  | clear (radius : Float)
  /-- The radius is not finite, so nothing is known to be clear. -/
  | unbounded (radius : Float)
  /-- These cells of the printing and the existing segment are too close. -/
  | hit (printing existing : Cell) (radius : Float)

namespace Verdict

def collides : Verdict → Bool
  | clear _ => false
  | unbounded _ => true
  | hit .. => true

/-- The cells that are too close, if they are known. -/
def cells : Verdict → Option (Cell × Cell)
  | hit printing existing _ => some (printing, existing)
  | _ => none

def radius : Verdict → Float
  | clear r => r
  | unbounded r => r
  | hit _ _ r => r

end Verdict

namespace Clearance

/-- Take the footprints of all segments of a program. -/
def ofProgram (p : Program) (nozzle : Nozzle) (settings : ClearanceSettings) : Clearance where
  cone := nozzle.cone
  settings
  footprints := (p.layers.map fun l =>
    (l.segments.map (Footprint.ofSegment settings.cellSize)).toArray).toArray

def footprint? (c : Clearance) (id : SegmentId) : Option Footprint :=
  if id.layer = 0 then none
  else (c.footprints[id.layer - 1]?).bind fun layer => layer[id.ordinal]?

def tool (c : Clearance) (id : SegmentId) : Option Tool :=
  (c.footprint? id).bind Footprint.tool

/-- Radius to keep free at a gap in height. -/
def safetyRadius (c : Clearance) (dz : Float) : Float :=
  c.cone.radiusAt dz.abs + c.settings.safetyMargin

/-- Whether the boxes around two footprints stay apart when the first grows by a
radius. -/
def boxesApart (printing existing : Footprint) (radius : Float) : Bool :=
  match printing.bounds, existing.bounds with
  | some p, some e => !(p.expand radius).intersects e
  | _, _ => false

/-- Check two footprints against each other. -/
def compare (c : Clearance) (printing existing : Footprint) : Verdict :=
  let radius := c.safetyRadius (printing.z - existing.z)
  if !radius.isFinite then .unbounded radius
  else if printing.isEmpty || existing.isEmpty then .clear radius
  else if boxesApart printing existing radius then .clear radius
  else
    match (Proximity.ofRadius c.settings.cellSize radius).search printing.cells existing.cells with
    | some (p, e) => .hit p e radius
    | none => .clear radius

/-- Check a segment about to be printed against an existing one. Segments that are
not in the program never collide. -/
def check (c : Clearance) (printing existing : SegmentId) : Verdict :=
  match c.footprint? printing, c.footprint? existing with
  | some p, some e => c.compare p e
  | _, _ => .clear 0

/-- Whether printing one segment now makes another one unreachable. -/
def tooClose (c : Clearance) (printing existing : SegmentId) : Bool :=
  (c.check printing existing).collides

/-- Whether `b` may join a batch that `a` starts. Of the pending segments in front of
`b`, those of the batch's tool behind `a` are printed with it; all others are deferred
and must stay reachable. -/
def canBatch (c : Clearance) (a b : SegmentId) (pending : List SegmentId) : Bool :=
  (pending.takeWhile fun p => decide (p < b)).all fun other =>
    other == a || (decide (a < other) && c.tool other == c.tool a) || !c.tooClose b other

/-- Segments that join a batch behind `start`, among candidates in program order: those
of the same tool up to the first that may not join or would be one layer too many. -/
def extension (c : Clearance) (start : SegmentId) (pending : List SegmentId) (cap : Nat) :
    (layers lastLayer : Nat) → List SegmentId → List SegmentId
  | _, _, [] => []
  | layers, lastLayer, candidate :: rest =>
      if c.tool candidate ≠ c.tool start then c.extension start pending cap layers lastLayer rest
      else
        let layers := if candidate.layer = lastLayer then layers else layers + 1
        if candidate.layer ≠ lastLayer && cap < layers then []
        else if !c.canBatch start candidate pending then []
        else candidate :: c.extension start pending cap layers candidate.layer rest

/-- Segments of a batch that `start` begins, in program order, over at most `cap`
layers. -/
def extendBatch (c : Clearance) (start : SegmentId) (pending : List SegmentId) (cap : Nat) :
    List SegmentId :=
  start :: c.extension start pending cap 1 start.layer
    (pending.filter fun p => decide (start < p))

/-- How many layers a batch that `start` begins covers. -/
def maxBatchSize (c : Clearance) (start : SegmentId) (pending : List SegmentId) (cap : Nat) : Nat :=
  ((c.extendBatch start pending cap).map SegmentId.layer).eraseReps.length

end Clearance

end ToolBatching
