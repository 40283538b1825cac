import ToolBatching.Body.Travel

namespace ToolBatching

namespace Machine

/-- The command that switches how X, Y and Z are read. -/
def positioningCode : Mode → String
  | .absolute => "G90"
  | .relative => "G91"

/-- The command that switches how E is read. -/
def extrusionCode : Mode → String
  | .absolute => "M82"
  | .relative => "M83"

/-- The correction of how X, Y and Z are read. -/
def restorePositioning (m target : Machine) : List Command :=
  if m.positioning = target.positioning then []
  else [.synthesized (positioningCode target.positioning)]

def restoreExtrusion (m target : Machine) : List Command :=
  if m.extrusion = target.extrusion then []
  else [.synthesized (extrusionCode target.extrusion)]

def restorePosition (m target : Machine) : List Command :=
  if target.extrusion = .absolute && tolerance < (m.e - target.e).abs then
    [.synthesized ("G92 E" ++ coordinate extrusionPlaces target.e)]
  else []

def restoreFeedrate (m target : Machine) : List Command :=
  match target.feedrate with
  | some f => if m.feedrate == some f then [] else [Move.build { f := some f }]
  | none => []

def restoration (m target : Machine) : List Command :=
  m.restorePositioning target ++ m.restoreExtrusion target ++ m.restorePosition target
    ++ m.restoreFeedrate target

end Machine

end ToolBatching
