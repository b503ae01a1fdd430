import LelyRtt.Conc.Wp
import LelyRtt.Conc.Threaded
import LelyRtt.Sdo.Gate
import LelyRtt.Sdo.Channels
import LelyRtt.Owner.Entry
import LelyRtt.Protocol.AppOk
import LelyRtt.Protocol.Lists
import LelyRtt.Run.Clients
import LelyRtt.Run.Completion
import LelyRtt.Run.Schedule
import LelyRtt.Run.Destroy
import LelyRtt.Run.Admission
import LelyRtt.Run.Pins
import LelyRtt.Run.Wakes
import LelyRtt.Run.Exclusive
import LelyRtt.Run.Hold
import LelyRtt.Dcf.Render
import LelyRtt.Dcf.Walk
import LelyRtt.Clock.Deadline
import LelyRtt.Can.Drain
import LelyRtt.Can.Frame
import LelyRtt.Can.Status
import LelyRtt.Remote.Observation
import LelyRtt.Lifecycle.Refs
import LelyRtt.Lifecycle.Resources
import LelyRtt.Cfg.Lifetime
import LelyRtt.Cfg.Dispatch
import LelyRtt.LocalOd.Read
import LelyRtt.LocalOd.Hooks
import LelyRtt.Msh.Number
import LelyRtt.Master.Snapshot
import LelyRtt.Clock.TimeOfDay
import LelyRtt.Master.Emcy
import LelyRtt.Pdo.Transmission
import LelyRtt.Sdev.Repair
import LelyRtt.Sdev.DomainRun
import LelyRtt.Dcf.Idempotent
import LelyRtt.Dcf.Narrow
import LelyRtt.Dcf.ReadBack
import LelyRtt.Run.Draws
import LelyRtt.Run.Unique
import LelyRtt.Run.Cancels
import LelyRtt.Wire.Agreement
import LelyRtt.Wire.Timers
import LelyRtt.Ring.Spsc
import LelyRtt.Heap.Pheap
import LelyRtt.Clock.CanTimers
import LelyRtt.Clock.Overdue
import LelyRtt.Master.Producer
