import ToolBatching.CommandLine.Argument
import ToolBatching.Settings

namespace ToolBatching

/-- Settings given on the command line. -/
structure Overrides where
  maxBatchLayers : Option Nat := none
  tipDiameter : Option Float := none
  coneAngle : Option Float := none
  safetyMargin : Option Float := none
  hopHeight : Option Float := none
  noPrimeTower : Bool := false
  flavor : Option Flavor := none

/-- Put settings of the command line in place of others. -/
def Overrides.apply (o : Overrides) (s : Settings) : Settings :=
  { s with
    maxBatchLayers := o.maxBatchLayers.getD s.maxBatchLayers
    nozzle.tipDiameter := o.tipDiameter.getD s.nozzle.tipDiameter
    nozzle.coneAngle := o.coneAngle.getD s.nozzle.coneAngle
    clearance.safetyMargin := o.safetyMargin.getD s.clearance.safetyMargin
    hop.height := o.hopHeight.getD s.hop.height
    primeTower.enabled := s.primeTower.enabled && !o.noPrimeTower
    toolChange.flavor := o.flavor.getD s.toolChange.flavor }

/-- What the command line asks for. -/
inductive Request where
  /-- Batch the program of one file into another. -/
  | batch (input output : String) (config : Option String) (overrides : Overrides) (json : Bool)
  /-- Report the structure of a program. -/
  | inspect (input : String) (json : Bool)
  | sample (output : String) (layers : Nat)

namespace Request

/-- Switches for the output, known to every task. -/
def outputSwitches : List Switch :=
  [.verbose, .quiet]

def batchSwitches : List Switch :=
  [.config, .maxBatch, .nozzleDiameter, .coneAngle, .safetyMargin, .hopHeight, .noPrimeTower,
    .flavor, .json]

/-- Layers of a sample if none are asked for. -/
def defaultLayers : Nat := 20

/-- Read the name of a file, which is not empty. -/
def readFile (text : String) : Option String :=
  if text.isEmpty then none else some text

/-- Read a count below `2 ^ 64` in ASCII digits; a plus may stand in front. -/
def readCount (text : String) : Option Nat :=
  let digits := match text.toList with
    | '+' :: digits => digits
    | digits => digits
  let n := Number.ofDigits digits
  if !digits.isEmpty && digits.all Char.isDigit && n < 0x10000000000000000 then some n else none

def readFloat (text : String) : Option Float :=
  Number.readFloat text.toList

def readFlavor (text : String) : Option Flavor :=
  (Flavor.read text).toOption

/-- Arguments of a task with its own switches. -/
def taskArguments (switches : List Switch) (texts : List String) : Option (List Argument) :=
  (Argument.readAll (outputSwitches ++ switches) texts).filter Argument.consistent

def readOverrides (arguments : List Argument) : Option Overrides := do
  some
    { maxBatchLayers := ← Argument.parsed .maxBatch readCount arguments
      tipDiameter := ← Argument.parsed .nozzleDiameter readFloat arguments
      coneAngle := ← Argument.parsed .coneAngle readFloat arguments
      safetyMargin := ← Argument.parsed .safetyMargin readFloat arguments
      hopHeight := ← Argument.parsed .hopHeight readFloat arguments
      noPrimeTower := Argument.has .noPrimeTower arguments
      flavor := ← Argument.parsed .flavor readFlavor arguments }

/-- Read the arguments of the batching task. -/
def readBatch (texts : List String) : Option Request := do
  let arguments ← taskArguments batchSwitches texts
  match ← (arguments.filterMap Argument.name?).mapM readFile with
  | [input, output] =>
      let config ← Argument.parsed .config readFile arguments
      let overrides ← readOverrides arguments
      some (.batch input output config overrides (Argument.has .json arguments))
  | _ => none

/-- Read the arguments of the inspecting task. -/
def readInspect (texts : List String) : Option Request := do
  let arguments ← taskArguments [.json] texts
  match ← (arguments.filterMap Argument.name?).mapM readFile with
  | [input] => some (.inspect input (Argument.has .json arguments))
  | _ => none

/-- Read the arguments of the sample task. -/
def readSample (texts : List String) : Option Request := do
  let arguments ← taskArguments [.layers] texts
  match ← (arguments.filterMap Argument.name?).mapM readFile with
  | [output] =>
      let layers ← Argument.parsed .layers readCount arguments
      some (.sample output (layers.getD defaultLayers))
  | _ => none

/-- Read the name of a task and its arguments. -/
def readTask : List String → Option Request
  | "batch" :: texts => readBatch texts
  | "inspect" :: texts => readInspect texts
  | "sample" :: texts => readSample texts
  | _ => none

/-- Whether an argument in front of the task is a switch. -/
def leads (text : String) : Bool :=
  Argument.looksLikeSwitch text && text != "--"

/-- What the arguments ask for; `none` if they are not understood. -/
def read? (texts : List String) : Option Request := do
  let leading ← Argument.readAll outputSwitches (texts.takeWhile leads)
  if Argument.consistent leading then readTask (texts.dropWhile leads) else none

end Request

end ToolBatching
