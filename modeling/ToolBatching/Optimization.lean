import ToolBatching.Body.Writer
import ToolBatching.Program.Layout
import ToolBatching.Schedule.Basic

/-!
The whole run: cut a program into layers, schedule tool batches that keep clear of
each other, and write the reordered program.
-/

namespace ToolBatching

/-- Statistics of a batching run. -/
structure Statistics where
  layers : Nat
  segments : Nat
  units : Nat
  batches : Nat
  visits : Nat
  /-- Tool changes in the layers of the input. -/
  toolChangesBefore : Nat
  /-- Tool changes in the body of the output. -/
  toolChangesAfter : Nat
  towerLayers : Nat
  hops : Nat
  warnings : Nat

/-- Result of a batching run. -/
structure Optimized where
  /-- Text of the output. -/
  gcode : String
  plan : Plan
  statistics : Statistics
  /-- Structural problems of the input. -/
  warnings : List Warning

namespace Program

/-- Schedule the units of a program under clearance settings. -/
def schedule (p : Program) (settings : Settings) : Plan :=
  let c := Clearance.ofProgram p settings.nozzle settings.clearance
  c.schedule settings.maxBatchLayers p.units

/-- Batch a program. -/
def optimize (p : Program) (settings : Settings) : Except Fault Optimized := do
  settings.validate.mapError Fault.invalidSettings
  let plan := p.schedule settings
  let body ← p.synthesize plan settings
  pure
    { gcode := Command.unlines p.lineEnding (p.preamble ++ body.commands ++ p.postamble)
      plan
      warnings := p.warnings
      statistics :=
        { layers := p.layers.length
          segments := p.segments.length
          units := p.units.length
          batches := plan.batches.length
          visits := body.counts.visits
          toolChangesBefore := p.toolChangeCount
          toolChangesAfter := countToolChanges p.preambleState.tool body.commands
          towerLayers := body.counts.towerLayers
          hops := body.counts.hops
          warnings := p.warnings.length } }

end Program

def optimize (text : String) (settings : Settings) : Except Fault Optimized :=
  (Program.ofText text).optimize settings

end ToolBatching
