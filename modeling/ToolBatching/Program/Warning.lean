namespace ToolBatching

/-- A structural problem found while reading a program. -/
inductive Warning where
  /-- An object stops that is not open. -/
  | strayObjectStop (line : Nat) (label : String)
  /-- A tool-change sequence closes that is not open. -/
  | strayToolChangeClose (line : Nat)
  /-- A tool-change sequence opens inside the one opened at `opened`. -/
  | nestedToolChangeOpen (line opened : Nat)
  /-- The tool-change sequence opened at the line is open at the end. -/
  | unterminatedToolChange (line : Nat)
  /-- The number of a layer marker is not above `previous`. -/
  | nonIncreasingLayerMarker (line number previous : Nat)
  /-- An object is open where a layer begins. -/
  | objectOpenAtLayerBoundary (line : Nat) (label : String)
  deriving DecidableEq

def Warning.message : Warning → String
  | .strayObjectStop line label => s!"line {line}: stop of object {label} with no open object"
  | .strayToolChangeClose line => s!"line {line}: tool-change close with no open sequence"
  | .nestedToolChangeOpen line opened =>
      s!"line {line}: tool-change open inside the sequence opened at line {opened}"
  | .unterminatedToolChange line =>
      s!"tool-change sequence opened at line {line} is never closed"
  | .nonIncreasingLayerMarker line number previous =>
      s!"line {line}: layer marker {number} does not follow {previous}"
  | .objectOpenAtLayerBoundary line label =>
      s!"line {line}: object {label} still open at layer boundary"

end ToolBatching
