import ToolBatching.Body.PrimeTower
import ToolBatching.Body.ToolChange
import ToolBatching.Body.Travel
import ToolBatching.Clearance.Basic

namespace ToolBatching

structure Settings where
  nozzle : Nozzle := {}
  clearance : ClearanceSettings := {}
  /-- Most layers that one batch may cover. -/
  maxBatchLayers : Nat := 10
  hop : HopSettings := {}
  primeTower : PrimeTower := {}
  toolChange : ToolChange := {}

/-- Check the settings; the towers only if they are printed. -/
def Settings.validate (s : Settings) : Except SettingsFault Unit := do
  require (0 < s.maxBatchLayers) .batchLayers
  s.nozzle.validate
  s.clearance.validate
  s.hop.validate
  if s.primeTower.enabled then s.primeTower.validate
  s.toolChange.validate

end ToolBatching
