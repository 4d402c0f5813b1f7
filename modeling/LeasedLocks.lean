import LeasedLocks.Http.Access
import LeasedLocks.Main
import LeasedLocks.PriorityWatch.Session
import LeasedLocks.Proofs.Access
import LeasedLocks.Proofs.Audience
import LeasedLocks.Proofs.BareRefusals
import LeasedLocks.Proofs.Batches
import LeasedLocks.Proofs.Delivery
import LeasedLocks.Proofs.DepthFirst
import LeasedLocks.Proofs.FailedListens
import LeasedLocks.Proofs.Hearings
import LeasedLocks.Proofs.Independence
import LeasedLocks.Proofs.Leases
import LeasedLocks.Proofs.ListenerRuns
import LeasedLocks.Proofs.LongLeases
import LeasedLocks.Proofs.Notices
import LeasedLocks.Proofs.Publications
import LeasedLocks.Proofs.Releases
import LeasedLocks.Proofs.ReportedGrants
import LeasedLocks.Proofs.RequestCounts
import LeasedLocks.Proofs.Results
import LeasedLocks.Proofs.RoundTrips
import LeasedLocks.Proofs.Shutdown
import LeasedLocks.Proofs.Sweeps
import LeasedLocks.Proofs.Teardown
import LeasedLocks.Proofs.TicketAccounts
import LeasedLocks.Proofs.TimeOuts
import LeasedLocks.Proofs.Traversals
import LeasedLocks.Proofs.Verdicts
import LeasedLocks.Proofs.WakeUps
import LeasedLocks.Proofs.Withdrawals
import LeasedLocks.UnlockWatch.Session
import LeasedLocks.World
