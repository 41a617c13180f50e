import TraceAutomata.Main
import TraceAutomata.Proofs.Store.Write
import TraceAutomata.Proofs.Store.Update
import TraceAutomata.Proofs.Run.Moment
import TraceAutomata.Proofs.Run.Frame
import TraceAutomata.Proofs.Run.Path
import TraceAutomata.Proofs.Run.Passage
import TraceAutomata.Proofs.Run.Call
import TraceAutomata.Proofs.Definition.Compiled
import TraceAutomata.Proofs.Run.Start
import TraceAutomata.Proofs.Run.Schedule
import TraceAutomata.Proofs.Run.Effect
import TraceAutomata.Proofs.Run.Anchor
import TraceAutomata.Proofs.Scenario.Status
import TraceAutomata.Proofs.Run.Status
import TraceAutomata.Proofs.Scenario.Record
import TraceAutomata.Proofs.Run.Changes
import TraceAutomata.Proofs.Run.Memory
import TraceAutomata.Proofs.Run.Mirror
import TraceAutomata.Proofs.Run.Faithful
import TraceAutomata.Proofs.Condition.Local
import TraceAutomata.Proofs.Run.Bystander
import TraceAutomata.Proofs.Run.Lockstep
import TraceAutomata.Proofs.Run.Unison
import TraceAutomata.Proofs.Run.Visit
import TraceAutomata.Proofs.Run.Tandem
import TraceAutomata.Proofs.Run.Alone
import TraceAutomata.Proofs.Run.Independent
import TraceAutomata.Proofs.Store.Accepted
import TraceAutomata.Proofs.Store.RoundTrip
import TraceAutomata.Proofs.Condition.Spelling
import TraceAutomata.Proofs.Run.Delivery
import TraceAutomata.Proofs.Store.InForce
import TraceAutomata.Proofs.Run.Roots
import TraceAutomata.Proofs.Run.Lookup
import TraceAutomata.Proofs.Run.Precondition
import TraceAutomata.Proofs.Run.Chain
import TraceAutomata.Proofs.Store.Within
import TraceAutomata.Proofs.Run.Isolation
import TraceAutomata.Proofs.Store.Timely
import TraceAutomata.Proofs.Run.Dispose
import TraceAutomata.Proofs.Store.Past
import TraceAutomata.Proofs.Store.Stamped
import TraceAutomata.Proofs.Run.Hindsight
import TraceAutomata.Proofs.Run.Past
import TraceAutomata.Proofs.Run.Span
import TraceAutomata.Proofs.Run.Chronicle
import TraceAutomata.Proofs.Run.Entry
import TraceAutomata.Proofs.Run.Clock
import TraceAutomata.Proofs.Run.Lifetime
import TraceAutomata.Proofs.Store.Ancestry
import TraceAutomata.Proofs.Run.Restored
import TraceAutomata.Proofs.Json.Relay
import TraceAutomata.Proofs.Definition.Document
import TraceAutomata.Proofs.Json.Text
import TraceAutomata.Proofs.Store.Saved
import TraceAutomata.Proofs.Definition.Forced
import TraceAutomata.Proofs.Time.Exact
import TraceAutomata.Proofs.Definition.Valid
import TraceAutomata.Proofs.Store.Consistent
import TraceAutomata.Proofs.Time.Elapsed
import TraceAutomata.Proofs.Value.Order
import TraceAutomata.Proofs.Store.Coalesce
import TraceAutomata.Proofs.Condition.Shape
import TraceAutomata.Proofs.Condition.Algebra
import TraceAutomata.Proofs.Definition.Meaning
import TraceAutomata.Proofs.Time.Seen
import TraceAutomata.Proofs.Condition.Descent
import TraceAutomata.Store.Shared
import TraceAutomata.Proofs.Definition.Name
import TraceAutomata.Proofs.Store.Scan
import TraceAutomata.Proofs.Time.During
import TraceAutomata.Proofs.Run.Framing
import TraceAutomata.Proofs.Run.Nanos
import TraceAutomata.Proofs.Event.Document
