import QubitPulse.Amplitude
import QubitPulse.Circuit.Basic
import QubitPulse.Circuit.Builder
import QubitPulse.Circuit.InPlace
import QubitPulse.Config
import QubitPulse.Decimal.Layout
import QubitPulse.Decimal.Numeral
import QubitPulse.Decimal.Reading
import QubitPulse.Decimal.Shortest
import QubitPulse.Decimal.Text
import QubitPulse.Decoherence
import QubitPulse.Decomposition
import QubitPulse.Device
import QubitPulse.Error
import QubitPulse.Evolution.Analytical
import QubitPulse.Evolution.Dissipation
import QubitPulse.Evolution.Problem
import QubitPulse.Gate.Basic
import QubitPulse.Gate.Kind
import QubitPulse.Grid
import QubitPulse.Journal
import QubitPulse.Json.Reader
import QubitPulse.Json.Record
import QubitPulse.Json.Stored
import QubitPulse.Json.Token
import QubitPulse.Json.Value
import QubitPulse.Json.Writer
import QubitPulse.Operator.Basic
import QubitPulse.Operator.Control
import QubitPulse.Operator.Distance
import QubitPulse.Operator.Embedding
import QubitPulse.Operator.Exponential
import QubitPulse.Operator.Stored
import QubitPulse.Parameter.Table
import QubitPulse.Parameter.Value
import QubitPulse.Processor.Basic
import QubitPulse.Processor.InPlace
import QubitPulse.Processor.Run
import QubitPulse.Proofs.Circuit.Building
import QubitPulse.Proofs.Circuit.Document
import QubitPulse.Proofs.Circuit.Editing
import QubitPulse.Proofs.ConfigDocument
import QubitPulse.Proofs.Decimal.Document
import QubitPulse.Proofs.Decimal.Numeral
import QubitPulse.Proofs.Double.Addition
import QubitPulse.Proofs.Double.Bounds
import QubitPulse.Proofs.Double.Canonical
import QubitPulse.Proofs.Double.Division
import QubitPulse.Proofs.Double.Length
import QubitPulse.Proofs.Double.Magnitude
import QubitPulse.Proofs.Double.Multiplication
import QubitPulse.Proofs.Double.PowersOfTwo
import QubitPulse.Proofs.Double.Rounding
import QubitPulse.Proofs.Double.SmallIntegers
import QubitPulse.Proofs.Evolution.Analytical
import QubitPulse.Proofs.Evolution.Application
import QubitPulse.Proofs.Evolution.Composition
import QubitPulse.Proofs.Evolution.Halvings
import QubitPulse.Proofs.Evolution.Hamiltonian
import QubitPulse.Proofs.Evolution.Phase
import QubitPulse.Proofs.Evolution.Scaling
import QubitPulse.Proofs.Evolution.Totality
import QubitPulse.Proofs.Exact.Dissipation
import QubitPulse.Proofs.Exact.Distance
import QubitPulse.Proofs.Exact.Embedding
import QubitPulse.Proofs.Exact.Evolution
import QubitPulse.Proofs.Exact.Exponential
import QubitPulse.Proofs.Exact.Extended
import QubitPulse.Proofs.Exact.Locality
import QubitPulse.Proofs.Exact.Norm
import QubitPulse.Proofs.Exact.Operator
import QubitPulse.Proofs.Exact.Pivot
import QubitPulse.Proofs.Exact.PureState
import QubitPulse.Proofs.Exact.Register
import QubitPulse.Proofs.Exact.Reversal
import QubitPulse.Proofs.Exact.Scalar
import QubitPulse.Proofs.Exact.Series
import QubitPulse.Proofs.Exact.Spectators
import QubitPulse.Proofs.Exact.State
import QubitPulse.Proofs.Exact.Truncation
import QubitPulse.Proofs.Exact.Unitary
import QubitPulse.Proofs.Gate.Expansion
import QubitPulse.Proofs.Gate.Forms
import QubitPulse.Proofs.Gate.Resolution
import QubitPulse.Proofs.Gate.Unitary
import QubitPulse.Proofs.Gate.Validation
import QubitPulse.Proofs.Grid
import QubitPulse.Proofs.Json.Records
import QubitPulse.Proofs.Json.RoundTrip
import QubitPulse.Proofs.Json.Scanning
import QubitPulse.Proofs.Parameter
import QubitPulse.Proofs.Processor.Composition
import QubitPulse.Proofs.Processor.Configuration
import QubitPulse.Proofs.Processor.Dispatch
import QubitPulse.Proofs.Processor.History
import QubitPulse.Proofs.Processor.InPlace
import QubitPulse.Proofs.Processor.Loading
import QubitPulse.Proofs.Processor.Meaning
import QubitPulse.Proofs.Processor.PhaseTracking
import QubitPulse.Proofs.Processor.Physical
import QubitPulse.Proofs.Processor.Reordering
import QubitPulse.Proofs.Processor.SegmentViews
import QubitPulse.Proofs.Processor.StoredTimeline
import QubitPulse.Proofs.Processor.StrengthFree
import QubitPulse.Proofs.Raster.Expansion
import QubitPulse.Proofs.Raster.Loss
import QubitPulse.Proofs.Raster.Sampling
import QubitPulse.Proofs.Result
import QubitPulse.Proofs.SpinChain.AcceptedStrengths
import QubitPulse.Proofs.SpinChain.Adjacency
import QubitPulse.Proofs.SpinChain.Build
import QubitPulse.Proofs.SpinChain.Compilation
import QubitPulse.Proofs.SpinChain.Concatenation
import QubitPulse.Proofs.SpinChain.Controls
import QubitPulse.Proofs.SpinChain.DrivableStrengths
import QubitPulse.Proofs.SpinChain.Hamiltonians
import QubitPulse.Proofs.SpinChain.Hermitian
import QubitPulse.Proofs.SpinChain.Locality
import QubitPulse.Proofs.SpinChain.Obstacles
import QubitPulse.Proofs.SpinChain.Pulses
import QubitPulse.Proofs.SpinChain.Reconfiguration
import QubitPulse.Proofs.SpinChain.Segments
import QubitPulse.Proofs.SpinChain.StoredControls
import QubitPulse.Proofs.SpinChain.StoredHamiltonian
import QubitPulse.Proofs.SpinChain.Strengths
import QubitPulse.Proofs.Storage
import QubitPulse.Proofs.Timeline.Building
import QubitPulse.Proofs.Timeline.Decomposition
import QubitPulse.Proofs.Timeline.Document
import QubitPulse.Proofs.Timeline.Segments
import QubitPulse.Proofs.Timeline.TrailingColumn
import QubitPulse.Proofs.Update
import QubitPulse.Raster
import QubitPulse.Release
import QubitPulse.Scalar
import QubitPulse.Scalar.Binary
import QubitPulse.Scalar.Double
import QubitPulse.Scalar.Fused
import QubitPulse.Scalar.Length
import QubitPulse.Scalar.RawDouble
import QubitPulse.Scalar.Rounding
import QubitPulse.SpinChain.Basic
import QubitPulse.SpinChain.Layout
import QubitPulse.SpinChain.Native
import QubitPulse.SpinChain.Pulses
import QubitPulse.SpinChain.Strengths
import QubitPulse.State
import QubitPulse.Storage
import QubitPulse.Timeline.Basic
import QubitPulse.Timeline.Builder
import QubitPulse.Timeline.InPlace
import QubitPulse.Timeline.Interpolation
import QubitPulse.Update
import QubitPulse.Word
