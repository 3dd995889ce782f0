import Cron.Main
import Cron.Proofs.Schedule.Advancing
import Cron.Proofs.Schedule.Description
import Cron.Proofs.Schedule.Dialects
import Cron.Proofs.Schedule.Enumeration
import Cron.Proofs.Schedule.Exclusivity
import Cron.Proofs.Schedule.Introspection
import Cron.Proofs.Schedule.NextMatch
import Cron.Proofs.Schedule.Operands
import Cron.Proofs.Schedule.RoundTrip
import Cron.Proofs.Schedule.Termination
import Cron.Proofs.Schedule.Undoing
import Cron.Proofs.Schedule.Validation
import Cron.Proofs.Schedule.Values
import Cron.Proofs.Schedule.WellShaped
import Cron.Proofs.Schedule.Zones
import Cron.Proofs.Scheduler.Earliest
import Cron.Proofs.Scheduler.Lateness
import Cron.Proofs.Scheduler.LifeCycle
import Cron.Proofs.Scheduler.Sleeping
import Cron.Proofs.Scheduler.Starting
import Cron.Proofs.Settings.Durations
import Cron.Proofs.Settings.Precedence
import Cron.Schedule.Edit
import Cron.Scheduler.Thread
