import ToolBatching.Fault
import ToolBatching.Schedule.Plan

namespace ToolBatching

/-- Segments of one layer that are printed in a row. -/
structure Visit where
  layer : Layer
  segments : List Segment

/-- The visits of one batch. -/
structure Job where
  tool : Option Tool
  visits : List Visit

namespace Visit

/-- Whether a segment continues another one of its layer. -/
def continues (s t : Segment) : Bool :=
  s.id.ordinal + 1 == t.id.ordinal

/-- Segments that follow each other in the program, cut where one is left out. -/
def runs (v : Visit) : List (List Segment) :=
  v.segments.splitBy continues

end Visit

namespace Program

def findSegment (p : Program) (id : SegmentId) : Except Fault Segment :=
  match p.segment? id with
  | some s => .ok s
  | none => .error (.unknownSegment id)

/-- Look up the segments of a visit, of which there is at least one. -/
def resolveVisit (p : Program) (first : SegmentId) (rest : List SegmentId) : Except Fault Visit :=
  match p.layer? first.layer with
  | none => .error (.unknownSegment first)
  | some layer => do pure { layer, segments := ← (first :: rest).mapM p.findSegment }

def resolveVisits (p : Program) : List (List SegmentId) → Except Fault (List Visit)
  | [] => .ok []
  | [] :: more => p.resolveVisits more
  | (first :: rest) :: more => do
      let visit ← p.resolveVisit first rest
      pure (visit :: (← p.resolveVisits more))

def resolve (p : Program) (plan : Plan) : Except Fault (List Job) :=
  plan.batches.mapM fun b => do pure { tool := b.tool, visits := ← p.resolveVisits b.visits }

end Program

end ToolBatching
