import ToolBatching.Clearance.Basic
import ToolBatching.Schedule.Plan
import ToolBatching.Schedule.PrintUnit

/-!
Greedy batching. Every batch starts at the earliest pending unit and takes on the
units of the same tool that may join. Batch starts move forward through the program,
so the tools of the batches are a subsequence of the tools of the program and the plan
never switches more often than the program does.
-/

namespace ToolBatching

namespace Clearance

/-- Split pending units into those of the batch that the first one begins and those
that stay pending. -/
def splitBatch (c : Clearance) (cap : Nat) (start : PrintUnit) (rest : List PrintUnit) :
    List PrintUnit × List PrintUnit :=
  let pending := start :: rest
  let anchors := c.extendBatch start.anchor (pending.map PrintUnit.anchor) cap
  let (taken, left) := rest.partition fun u => anchors.contains u.anchor
  (start :: taken, left)

theorem length_splitBatch_le (c : Clearance) (cap : Nat) (start : PrintUnit)
    (rest : List PrintUnit) : (c.splitBatch cap start rest).2.length ≤ rest.length := by
  simp only [splitBatch, List.partition_eq_filter_filter]
  exact List.length_filter_le _ _

/-- Batches for pending units, given in program order. -/
def batches (c : Clearance) (cap : Nat) : List PrintUnit → List Batch
  | [] => []
  | start :: rest =>
      let parts := c.splitBatch cap start rest
      Batch.ofMembers start.tool (parts.1.flatMap PrintUnit.members) :: c.batches cap parts.2
termination_by pending => pending.length
decreasing_by
  have := c.length_splitBatch_le cap start rest
  simp only [List.length_cons]
  omega

/-- The plan for units, with at most `cap` layers in a batch but never less than one. -/
def schedule (c : Clearance) (cap : Nat) (units : List PrintUnit) : Plan where
  batches := c.batches (max cap 1) units

end Clearance

end ToolBatching
