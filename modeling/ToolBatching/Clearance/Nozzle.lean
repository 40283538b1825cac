import ToolBatching.Fault
import ToolBatching.Number.Tangent

/-!
The nozzle as a conical frustum standing on its tip. Its radius grows linearly with
the height above the tip.
-/

namespace ToolBatching

/-- Profile of a nozzle, in mm and degrees. -/
structure Nozzle where
  tipDiameter : Float := 0.4
  /-- Full angle of the cone. -/
  coneAngle : Float := 60.0
  coneHeight : Float := 10.0

/-- What a nozzle takes up at a height: the tip radius and what each mm of height
adds. -/
structure Cone where
  tipRadius : Float
  slope : Float

namespace Nozzle

def tipRadius (n : Nozzle) : Float :=
  n.tipDiameter / 2.0

def halfAngle (n : Nozzle) : Float :=
  n.coneAngle / 2.0 * (Number.pi / 180.0)

def cone (n : Nozzle) : Cone :=
  ⟨n.tipRadius, Number.tangent n.halfAngle⟩

def validate (n : Nozzle) : Except SettingsFault Unit := do
  let half := n.coneAngle / 2.0
  require (0 < n.tipDiameter) .tipDiameter
  require (0 < half && half < 90) .coneAngle
  require (0 < n.coneHeight) .coneHeight

end Nozzle

/-- Radius at a height above the tip; at or below the tip it is the tip radius. -/
def Cone.radiusAt (c : Cone) (height : Float) : Float :=
  if height ≤ 0 then c.tipRadius else c.tipRadius + height * c.slope

end ToolBatching
