import ToolBatching.Command.Move
import ToolBatching.Fault
import ToolBatching.Machine

/-!
Safe travel to a point. The nozzle never moves sideways and in Z at once: it hops over
what is printed, or moves in Z first when it rises and last when it descends.
-/

namespace ToolBatching

/-- Lengths closer than this count as equal, in mm. -/
def tolerance : Float := 1e-6

/-- How the nozzle travels, in mm and mm per second. -/
structure HopSettings where
  /-- Whether unsafe travel is wrapped in a hop. -/
  enabled : Bool := true
  /-- Clearance of a hop above the highest point involved. -/
  height : Float := 0.5
  zSpeed : Float := 10.0
  travelSpeed : Float := 150.0

namespace HopSettings

def validate (s : HopSettings) : Except SettingsFault Unit := do
  require (0 ≤ s.height && s.height.isFinite) .hopHeight
  require (0 < s.zSpeed && 0 < s.travelSpeed) .hopSpeed

def zFeedrate (s : HopSettings) : Float :=
  s.zSpeed * 60.0

def travelFeedrate (s : HopSettings) : Float :=
  s.travelSpeed * 60.0

end HopSettings

/-- Where a travel ends and what it crosses. -/
structure Travel where
  x : Float
  y : Float
  z : Float
  /-- Highest Z that has been printed. -/
  ceiling : Float
  /-- Whether the end does not continue from the layer that the nozzle left. -/
  outOfOrder : Bool

structure TravelPlan where
  commands : List Command
  /-- Whether the moves form a hop. -/
  hopped : Bool

namespace Travel

/-- Whether the travel passes below the ceiling, descends, or jumps between layers. -/
def needsHop (t : Travel) (m : Machine) : Bool :=
  m.z < t.ceiling - tolerance || t.z < t.ceiling - tolerance || t.z < m.z - tolerance
    || t.outOfOrder

/-- Height of the hop above which the sideways move happens. -/
def hopZ (t : Travel) (s : HopSettings) (m : Machine) : Float :=
  Number.greater (Number.greater m.z t.ceiling) t.z + s.height

def vertical (s : HopSettings) (z : Float) : Command :=
  Move.build { z := some z, f := some s.zFeedrate }

def lateral (s : HopSettings) (x y : Float) : Command :=
  Move.build { x := some x, y := some y, f := some s.travelFeedrate }

/-- Rise, move sideways, descend. -/
def hop (t : Travel) (s : HopSettings) (m : Machine) : List Command :=
  [vertical s (t.hopZ s m), lateral s t.x t.y, vertical s t.z]

/-- Move in Z first when rising and last when descending, leaving out what changes
nothing. -/
def direct (t : Travel) (s : HopSettings) (m : Machine) : List Command :=
  let rise := if tolerance < (m.z - t.z).abs then [vertical s t.z] else []
  let slide :=
    if tolerance < (m.x - t.x).abs || tolerance < (m.y - t.y).abs then [lateral s t.x t.y] else []
  if m.z ≤ t.z then rise ++ slide else slide ++ rise

def plan (t : Travel) (s : HopSettings) (m : Machine) : TravelPlan :=
  if s.enabled && t.needsHop m then ⟨t.hop s m, true⟩ else ⟨t.direct s m, false⟩

end Travel

end ToolBatching
