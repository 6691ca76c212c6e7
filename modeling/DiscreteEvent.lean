import DiscreteEvent.Components.Any
import DiscreteEvent.Execution.Setup
import DiscreteEvent.Testbed.Canonical
import DiscreteEvent.Testbed.Script
import DiscreteEvent.Testbed.Station
import DiscreteEvent.Proofs.Model.WellFormed
import DiscreteEvent.Proofs.Engine.Window
import DiscreteEvent.Proofs.Engine.Alike
import DiscreteEvent.Proofs.Engine.Refusal
import DiscreteEvent.Proofs.Engine.Timely
import DiscreteEvent.Proofs.Flat.Attribution
import DiscreteEvent.Proofs.Flat.Driven
import DiscreteEvent.Proofs.Flat.Mail
import DiscreteEvent.Proofs.Flat.Protocol
import DiscreteEvent.Proofs.Flat.Runs
import DiscreteEvent.Proofs.Flat.Workers
import DiscreteEvent.Proofs.Execution.Segments
import DiscreteEvent.Proofs.Engine.Apart
import DiscreteEvent.Proofs.Execution.Calls
import DiscreteEvent.Proofs.Execution.Rearranged
import DiscreteEvent.Proofs.Execution.Termination
import DiscreteEvent.Proofs.Execution.Transparent
import DiscreteEvent.Proofs.Engine.Course
import DiscreteEvent.Proofs.Flat.Aborted
import DiscreteEvent.Proofs.Flat.Fresh
import DiscreteEvent.Proofs.Flat.Naming
import DiscreteEvent.Proofs.Flat.Elapsed
import DiscreteEvent.Proofs.Engine.Repeated
import DiscreteEvent.Proofs.Ports.TypedMap
import DiscreteEvent.Proofs.Clock.Pace
import DiscreteEvent.Proofs.Time.Schedule
import DiscreteEvent.Proofs.Flat.Labour
import DiscreteEvent.Proofs.Flat.Flattening
