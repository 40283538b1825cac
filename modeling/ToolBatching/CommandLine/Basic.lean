import ToolBatching.CommandLine.Disk
import ToolBatching.CommandLine.Request
import ToolBatching.Report.Batching
import ToolBatching.Report.Inspection
import ToolBatching.Sample
import ToolBatching.SettingsFile.Basic

namespace ToolBatching

inductive Failure where
  | unreadable (file : String)
  /-- The text of a settings file is not understood. -/
  | malformedSettings (file : String)
  | invalidSettings (fault : SettingsFault)
  /-- Batching fails with a fault, or because a file cannot be read or written. -/
  | batching (input output : String) (fault : Option Fault)
  | unwritable (file : String)

namespace Failure

def message : Failure → String
  | unreadable file => "reading " ++ file
  | malformedSettings file => "parsing " ++ file
  | invalidSettings _ => "invalid settings"
  | batching input output _ => "batching " ++ input ++ " into " ++ output
  | unwritable file => "writing " ++ file

/-- Wording of a file that cannot be read or written. -/
def accessFault : String := "I/O error"

/-- What went wrong, if more is known than the message says. -/
def cause? : Failure → Option String
  | unreadable _ | malformedSettings _ => none
  | invalidSettings fault => some (Fault.invalidSettings fault).message
  | batching _ _ (some fault) => some fault.message
  | batching _ _ none | unwritable _ => some accessFault

end Failure

structure Printout where
  text : String
  /-- Lines for the error output. -/
  warnings : List String := []

/-- How a run of the command line ends. -/
inductive Outcome where
  | done (printout : Printout)
  | failed (failure : Failure)
  /-- The arguments are not understood. -/
  | misused

def Outcome.code : Outcome → Nat
  | done _ => 0
  | failed _ => 1
  | misused => 2

namespace Request

def printed (lines : List String) : String :=
  Text.unlines .lf lines

/-- A value as text, closed by a line feed. -/
def printedJson (v : Json) : String :=
  printed [v.text]

variable {m : Type → Type} [Monad m]

/-- Settings from an optional settings file and the command line, checked. -/
def loadSettings (disk : Disk m) (config : Option String) (overrides : Overrides) :
    ExceptT Failure m Settings := do
  let base ← match config with
    | none => pure {}
    | some file =>
        match ← disk.read file with
        | none => throw (.unreadable file)
        | some text =>
            match Settings.read? text with
            | none => throw (.malformedSettings file)
            | some settings => pure settings
  let settings := overrides.apply base
  match settings.validate with
  | .error fault => throw (.invalidSettings fault)
  | .ok _ => pure settings

/-- Batch the program of one file into another. -/
def batchFile (disk : Disk m) (input output : String) (settings : Settings) :
    ExceptT Failure m Optimized := do
  match ← disk.read input with
  | none => throw (.batching input output none)
  | some text =>
      match optimize text settings with
      | .error fault => throw (.batching input output (some fault))
      | .ok result =>
          if ← disk.write output result.gcode then pure result
          else throw (.batching input output none)

/-- What is printed about a batching run. Warnings are printed only for the reader. -/
def batchPrintout (result : Optimized) (json : Bool) : Printout :=
  if json then { text := printedJson result.statistics.json }
  else
    { text := printed result.statistics.lines
      warnings := result.warnings.map fun w => "warning: " ++ w.message }

/-- What is printed about a program in a file. -/
def inspectPrintout (file text : String) (json : Bool) : Printout :=
  let inspection := (Program.ofText text).inspect
  if json then { text := printedJson inspection.json }
  else { text := printed (inspection.lines file) }

def perform (disk : Disk m) : Request → ExceptT Failure m Printout
  | .batch input output config overrides json => do
      let settings ← loadSettings disk config overrides
      let result ← batchFile disk input output settings
      pure (batchPrintout result json)
  | .inspect input json => do
      match ← disk.read input with
      | none => throw (.unreadable input)
      | some text => pure (inspectPrintout input text json)
  | .sample output layers => do
      if ← disk.write output (Sample.alternatingTools layers) then
        pure { text := printed [s!"Wrote {layers} layers to {output}"] }
      else throw (.unwritable output)

end Request

def runArguments {m : Type → Type} [Monad m] (disk : Disk m) (arguments : List String) :
    m Outcome := do
  match Request.read? arguments with
  | none => pure .misused
  | some request =>
      match ← (request.perform disk).run with
      | .ok printout => pure (.done printout)
      | .error failure => pure (.failed failure)

end ToolBatching
