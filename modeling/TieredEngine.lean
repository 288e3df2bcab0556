import TieredEngine.Graph.Dump
import TieredEngine.Optimize.Phase
import TieredEngine.Options.Text
import TieredEngine.Proofs.Engine.Lifecycle
import TieredEngine.Proofs.Engine.Preservation
import TieredEngine.Proofs.Engine.Compilation
import TieredEngine.Workbench
import TieredEngine.Proofs.Graph.Decoding
import TieredEngine.Proofs.Inlining.Replay
import TieredEngine.Proofs.Specialize.Residue
import TieredEngine.Proofs.Optimize.Speculation
import TieredEngine.Proofs.Code.Readings
import TieredEngine.Proofs.Engine.Learning
import TieredEngine.Proofs.Engine.Speculation
import TieredEngine.Proofs.Code.Machine
import TieredEngine.Proofs.Code.Runs
import TieredEngine.Proofs.Code.Simulation
import TieredEngine.Proofs.Optimize.Values
import TieredEngine.Proofs.Code.Safety
import TieredEngine.Proofs.Optimize.Control
import TieredEngine.Proofs.Engine.Optimization
import TieredEngine.Proofs.Graph.Skeleton
import TieredEngine.Proofs.Graph.Counting
import TieredEngine.Proofs.Optimize.Elimination
import TieredEngine.Proofs.Optimize.Weight
import TieredEngine.Proofs.Optimize.Normalization
import TieredEngine.Proofs.Engine.Transparency
import TieredEngine.Proofs.Interpreter.Validation
import TieredEngine.Proofs.Interpreter.Refusals
import TieredEngine.Proofs.Code.Progress
import TieredEngine.Proofs.Specialize.Frames
import TieredEngine.Proofs.Specialize.Success
import TieredEngine.Proofs.Engine.HandOvers
import TieredEngine.Proofs.Engine.Refusals
import TieredEngine.Proofs.Code.Recomputation
import TieredEngine.Proofs.Code.Sides
import TieredEngine.Proofs.Json.Grammar
import TieredEngine.Proofs.Json.Reading
import TieredEngine.Proofs.Json.Writing
import TieredEngine.Proofs.Options
import TieredEngine.Proofs.Json.Acceptance
import TieredEngine.Proofs.Graph.Chains
import TieredEngine.Proofs.Lookup
import TieredEngine.Proofs.Engine.Slots
import TieredEngine.Proofs.Engine.Bounds
import TieredEngine.Proofs.Engine.Overflow
import TieredEngine.Proofs.Optimize.Termination
