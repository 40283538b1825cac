import ToolBatching.Program.Basic

namespace ToolBatching

/-- What is wrong with settings. -/
inductive SettingsFault where
  | batchLayers
  | tipDiameter
  | coneAngle
  | coneHeight
  | safetyMargin
  | cellSize
  | hopHeight
  | hopSpeed
  /-- The named length of the prime tower is not positive and finite. -/
  | towerLength (name : String)
  | towerSpacing
  | temperature (celsius : Nat)
  deriving DecidableEq

def SettingsFault.message : SettingsFault → String
  | .batchLayers => "max_batch_layers must be at least 1"
  | .tipDiameter => "nozzle tip_diameter must be positive"
  | .coneAngle => "nozzle cone half-angle must be between 0 and 90 degrees"
  | .coneHeight => "nozzle cone_height must be positive"
  | .safetyMargin => "safety_margin must be zero or positive"
  | .cellSize => "cell_size must be at least 0.01 mm"
  | .hopHeight => "zhop height must be zero or positive"
  | .hopSpeed => "zhop speeds must be positive"
  | .towerLength name => s!"prime_tower {name} must be positive"
  | .towerSpacing => "prime_tower spacing must be zero or positive"
  | .temperature celsius => s!"tool temperature {celsius} is out of range"

/-- Why a batching run fails. -/
inductive Fault where
  | invalidSettings (fault : SettingsFault)
  | unknownSegment (id : SegmentId)

def Fault.message : Fault → String
  | .invalidSettings fault => "invalid settings: " ++ fault.message
  | .unknownSegment id => "plan references unknown segment " ++ id.text

/-- Fail with a fault unless a condition holds. -/
def require (condition : Bool) (fault : SettingsFault) : Except SettingsFault Unit :=
  if condition then .ok ⟨⟩ else .error fault

end ToolBatching
