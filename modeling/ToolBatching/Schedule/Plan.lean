import ToolBatching.Program.Basic

namespace ToolBatching

/-- Segments printed in a row with one tool. -/
structure Batch where
  tool : Option Tool
  firstLayer : Nat
  lastLayer : Nat
  /-- Segments in the order they are printed. -/
  members : List SegmentId
  deriving DecidableEq

namespace Batch

/-- A batch of segments in program order. -/
def ofMembers (tool : Option Tool) (members : List SegmentId) : Batch where
  tool
  members
  firstLayer := (members.head?.map SegmentId.layer).getD 0
  lastLayer := (members.getLast?.map SegmentId.layer).getD 0

def visits (b : Batch) : List (List SegmentId) :=
  b.members.splitBy fun s t => s.layer == t.layer

def layerCount (b : Batch) : Nat :=
  b.visits.length

end Batch

/-- Batches in the order they are printed. -/
structure Plan where
  batches : List Batch := []

namespace Plan

/-- All segments in the order they are printed. -/
def members (p : Plan) : List SegmentId :=
  p.batches.flatMap Batch.members

def segmentCount (p : Plan) : Nat :=
  p.members.length

def visitCount (p : Plan) : Nat :=
  (p.batches.flatMap Batch.visits).length

/-- How often the plan switches to another tool. A batch without a tool keeps the
active one. -/
def toolSwitches (p : Plan) (initial : Option Tool) : Nat :=
  go initial (p.batches.filterMap Batch.tool)
where
  /-- Count along the tools of the batches. -/
  go : Option Tool → List Tool → Nat
    | _, [] => 0
    | active, t :: rest => (if active = some t then 0 else 1) + go (some t) rest

/-- Whether every segment of a program is printed exactly once. -/
def isPartitionOf (plan : Plan) (p : Program) : Bool :=
  decide plan.members.Nodup && plan.members.length == p.segmentIds.length
    && p.segmentIds.all plan.members.contains

end Plan

end ToolBatching
