import ToolBatching.Main
import ToolBatching.Proofs.Number.ReadNumber
import ToolBatching.Proofs.Number.WholeText
import ToolBatching.Proofs.Writing.MoveText
import ToolBatching.Proofs.Writing.Composed
import ToolBatching.Proofs.Writing.Entering
import ToolBatching.Proofs.Reading.OwnedSegments
import ToolBatching.Proofs.Scheduling.Deferral
import ToolBatching.Proofs.Writing.SourceLines
import ToolBatching.Proofs.Writing.ActiveTools
import ToolBatching.Proofs.Writing.ToolChanges
import ToolBatching.Proofs.Writing.Restored
import ToolBatching.Proofs.Writing.Places
import ToolBatching.Proofs.Writing.Extruder
import ToolBatching.Proofs.Reading.Entries
import ToolBatching.Proofs.Reading.Cuts
import ToolBatching.Proofs.MarkerText
import ToolBatching.Proofs.TextLines
import ToolBatching.Proofs.Reading.Heights
import ToolBatching.Proofs.Writing.PlainText
import ToolBatching.Proofs.Reading.Detection
import ToolBatching.Proofs.Writing.Blocks
import ToolBatching.Proofs.Writing.Output
import ToolBatching.Proofs.Reading.Pieces
import ToolBatching.Proofs.Rereading
import ToolBatching.Proofs.Reading.Objects
import ToolBatching.Proofs.PlanReadBack
import ToolBatching.Proofs.RoundTrip
import ToolBatching.Proofs.Writing.Aloft
import ToolBatching.Proofs.Writing.BlockHeights
import ToolBatching.Proofs.Writing.ClearTravel
import ToolBatching.Proofs.Writing.ClearDescents
import ToolBatching.Proofs.Number.Comparing
import ToolBatching.Proofs.Writing.Anchored
import ToolBatching.Proofs.Writing.FiniteWords
import ToolBatching.Proofs.Writing.Closing
import ToolBatching.Proofs.Writing.TowerMarks
import ToolBatching.Proofs.Writing.Towers
import ToolBatching.Proofs.Writing.TowerTurns
import ToolBatching.Proofs.Reading.Nesting
import ToolBatching.Proofs.Reading.CleanReading
import ToolBatching.Proofs.Writing.Nested
import ToolBatching.Proofs.Number.WholeParts
import ToolBatching.Proofs.Clearance.CellSearch
import ToolBatching.Proofs.Clearance.PrintEnds
import ToolBatching.Proofs.Clearance.Verdicts
import ToolBatching.Proofs.Clearance.Shortcut
import ToolBatching.Proofs.CleanOutput
import ToolBatching.Proofs.Writing.LegibleLines
import ToolBatching.Proofs.Scheduling.LongestBatch
import ToolBatching.Proofs.Scheduling.ToolRuns
import ToolBatching.Proofs.Writing.UnknownSegments
import ToolBatching.Proofs.Reading.Votes
import ToolBatching.Proofs.Clearance.Occupancy
import ToolBatching.Proofs.Writing.Arriving
import ToolBatching.Proofs.Writing.Corrections
import ToolBatching.Proofs.Reading.Recognition
import ToolBatching.Proofs.Clearance.Margins
import ToolBatching.Proofs.Number.RoundingError
import ToolBatching.Proofs.Number.SquareRoot
import ToolBatching.Proofs.Number.Monotone
import ToolBatching.Proofs.Number.Hypotenuse
import ToolBatching.Proofs.Validation
import ToolBatching.Proofs.WordGrammar
import ToolBatching.Proofs.Scheduling.UnitLayers
import ToolBatching.Proofs.Writing.MoveRoundTrip
import ToolBatching.Proofs.Reading.Problems
import ToolBatching.Proofs.Writing.MarkerRoundTrip
