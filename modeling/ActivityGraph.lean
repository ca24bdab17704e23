import ActivityGraph.Machine.Termination
import ActivityGraph.Proofs.Stride
import ActivityGraph.Record.Codec
import ActivityGraph.Scenario
import ActivityGraph.Proofs.Stride.Cascade
import ActivityGraph.Proofs.Stride.Step
import ActivityGraph.Proofs.Stride.World
import ActivityGraph.Proofs.Known
import ActivityGraph.Proofs.Registration
import ActivityGraph.Proofs.Gate
import ActivityGraph.Proofs.Delivery
import ActivityGraph.Proofs.Closing
import ActivityGraph.Proofs.Life
import ActivityGraph.Proofs.Outcome
import ActivityGraph.Proofs.Signal
import ActivityGraph.Proofs.Resolution
import ActivityGraph.Proofs.Gating
import ActivityGraph.Proofs.Accounting
import ActivityGraph.Proofs.Terminal
import ActivityGraph.Proofs.Confluence
import ActivityGraph.Proofs.Slot
import ActivityGraph.Proofs.Course
import ActivityGraph.Proofs.Course.Step
import ActivityGraph.Proofs.Once
import ActivityGraph.Proofs.Stored
import ActivityGraph.Proofs.Standstill
import ActivityGraph.Proofs.Loss
import ActivityGraph.Proofs.History
import ActivityGraph.Proofs.Refusal
import ActivityGraph.Proofs.Cell
import ActivityGraph.Proofs.Drawing
import ActivityGraph.Proofs.Independence
import ActivityGraph.Proofs.Blindness
import ActivityGraph.Proofs.Cycle
import ActivityGraph.Proofs.Entrance
import ActivityGraph.Proofs.Declared
import ActivityGraph.Proofs.Completion
import ActivityGraph.Proofs.Stall
import ActivityGraph.Proofs.Forms
import ActivityGraph.Proofs.Breakdown
import ActivityGraph.Proofs.Notice
import ActivityGraph.Proofs.Tally
import ActivityGraph.Proofs.Views
import ActivityGraph.Proofs.Decision
import ActivityGraph.Proofs.Wiring
import ActivityGraph.Proofs.Preparation
import ActivityGraph.Proofs.Preparators
import ActivityGraph.Proofs.Moves
import ActivityGraph.Proofs.Legible
import ActivityGraph.Proofs.Log
import ActivityGraph.Proofs.Deadline
import ActivityGraph.Proofs.Naming
