import CycleCount.Analysis.Compare
import CycleCount.Analysis.Report
import CycleCount.Analysis.Series
import CycleCount.Command.Arguments
import CycleCount.Command.Failure
import CycleCount.Command.Run
import CycleCount.Dataset.Assembly
import CycleCount.Dataset.Basic
import CycleCount.Dataset.Layout
import CycleCount.Dataset.RunRecord
import CycleCount.Dataset.Sequential
import CycleCount.Decimal.Binary
import CycleCount.Decimal.Shortest
import CycleCount.Decimal.Word
import CycleCount.Decimal.Written
import CycleCount.Disk.Basic
import CycleCount.Disk.Listing
import CycleCount.Disk.Records
import CycleCount.Error
import CycleCount.Experiment.Basic
import CycleCount.Experiment.Load
import CycleCount.Experiment.Parser
import CycleCount.Functions.Collection
import CycleCount.Functions.Report
import CycleCount.Instant.Basic
import CycleCount.Instant.Parser
import CycleCount.Json.Basic
import CycleCount.Json.Decode
import CycleCount.Json.Document
import CycleCount.Json.Encode
import CycleCount.Json.Token
import CycleCount.Main
import CycleCount.Path
import CycleCount.Proofs.Analysis
import CycleCount.Proofs.LineAccounting
import CycleCount.Proofs.Outcome
import CycleCount.Proofs.Pairing
import CycleCount.Proofs.RunRecord
import CycleCount.Proofs.Trend
import CycleCount.Records.Columns
import CycleCount.Records.Line
import CycleCount.Records.Scan
import CycleCount.Records.Writer
import CycleCount.Report.Console
import CycleCount.Report.Format
import CycleCount.Report.Json
import CycleCount.Report.Table
import CycleCount.Snapshot.Basic
import CycleCount.Snapshot.Decode
import CycleCount.Snapshot.Encode
import CycleCount.Snapshot.Store
import CycleCount.Statistics.Ecdf
import CycleCount.Statistics.Overhead
import CycleCount.Statistics.Percentile
import CycleCount.Statistics.Scalar
import CycleCount.Statistics.Summary
import CycleCount.Statistics.Window
import CycleCount.Text.Basic
import CycleCount.Toml.Basic
import CycleCount.Toml.Lexeme
import CycleCount.Toml.Parser
import CycleCount.Trials.Reshape
import CycleCount.Trials.Row
import CycleCount.Proofs.Assembly
import CycleCount.Proofs.Layout
import CycleCount.Proofs.LayoutIdentity
import CycleCount.Proofs.Regrouping
import CycleCount.Proofs.RoundTrip
import CycleCount.Proofs.Paths
import CycleCount.Proofs.Disk
import CycleCount.Proofs.Leaves
import CycleCount.Proofs.Sources
import CycleCount.Proofs.Encoding
import CycleCount.Proofs.SnapshotText
import CycleCount.Proofs.Stamps
import CycleCount.Proofs.LeafRecords
import CycleCount.Proofs.Writing
import CycleCount.Proofs.Histories
import CycleCount.Proofs.Transparency
import CycleCount.Proofs.SnapshotReuse
import CycleCount.Proofs.Binary64
import CycleCount.Proofs.Quartiles
import CycleCount.Proofs.LayoutSafety
import CycleCount.Proofs.WrittenRecords
import CycleCount.Proofs.FunctionRows
import CycleCount.Proofs.Reshaping
import CycleCount.Proofs.FunctionSnapshots
import CycleCount.Proofs.Transposition
import CycleCount.Proofs.Grouping
import CycleCount.Proofs.FunctionTransparency
import CycleCount.Proofs.PlainLines
import CycleCount.Proofs.SampleGrammar
import CycleCount.Proofs.LockStep
import CycleCount.Proofs.EmptyLines
import CycleCount.Proofs.ExactArithmetic
import CycleCount.Proofs.MiddleHalf
import CycleCount.Proofs.Retention
import CycleCount.Proofs.FloatOrder
import CycleCount.Proofs.StableMerge
import CycleCount.Proofs.Rounding
import CycleCount.Proofs.Distribution
import CycleCount.Proofs.StepFunction
import CycleCount.Proofs.DistinctValues
import CycleCount.Proofs.MeasurementOrder
import CycleCount.Proofs.PercentileRange
import CycleCount.Proofs.RefusedMeasurements
import CycleCount.Proofs.UnitChange
import CycleCount.Proofs.RepetitionNames
import CycleCount.Proofs.KeyEnumeration
import CycleCount.Proofs.TotalOrder
import CycleCount.Proofs.FunctionReports
import CycleCount.Proofs.WholeOutput
import CycleCount.Proofs.FirstInsertion
