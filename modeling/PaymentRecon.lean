import PaymentRecon.Lib.Lts
import PaymentRecon.Lib.Prog
import PaymentRecon.Lib.Protocol
import PaymentRecon.Lib.Rely
import PaymentRecon.Lib.Solo
import PaymentRecon.Lib.Sets
import PaymentRecon.Lib.Stream
import PaymentRecon.Model.Types
import PaymentRecon.Model.World
import PaymentRecon.Model.Exec
import PaymentRecon.Model.Orders
import PaymentRecon.Model.Outbox
import PaymentRecon.Model.Worker
import PaymentRecon.Model.Startup
import PaymentRecon.Model.System
import PaymentRecon.Tables.Effects
import PaymentRecon.Tables.Commit
import PaymentRecon.Tables.TableStep
import PaymentRecon.Tables.Consistent
import PaymentRecon.Tables.Growth
import PaymentRecon.Pipeline.Webhook
import PaymentRecon.Pipeline.Lawful
import PaymentRecon.Pipeline.Settlement
import PaymentRecon.Pipeline.Programs
import PaymentRecon.Pipeline.Attached
import PaymentRecon.Tables.Events
import PaymentRecon.Tables.Orders
import PaymentRecon.Pipeline.Recoverable
import PaymentRecon.Pipeline.Attribution
import PaymentRecon.Pool.Startup
import PaymentRecon.Pool.Stages
import PaymentRecon.Pool.Programs
import PaymentRecon.Pool.Linked
import PaymentRecon.Pool.Moves
import PaymentRecon.Pool.Exclusion
import PaymentRecon.Pool.Partition
import PaymentRecon.Pool.Restart
import PaymentRecon.Pool.Beside
import PaymentRecon.Relay.Claims
import PaymentRecon.Relay.Fencing
import PaymentRecon.Settle.Deal
import PaymentRecon.Settle.Agree
import PaymentRecon.Play
import PaymentRecon.Relay.Published
import PaymentRecon.Consume.Acknowledged
import PaymentRecon.Replay.Conserved
import PaymentRecon.Lib.Regex
import PaymentRecon.Model.Sms
import PaymentRecon.Intake.Validators
import PaymentRecon.Lib.Runs
import PaymentRecon.Requests.Allocate
import PaymentRecon.Requests.Retry
import PaymentRecon.Requests.Create
import PaymentRecon.Requests.Confirm
import PaymentRecon.Requests.Concurrent
import PaymentRecon.Consume.Lifecycle
import PaymentRecon.Consume.Bounded
import PaymentRecon.Requests.Delete
import PaymentRecon.Pool.Range
import PaymentRecon.Auth.Types
import PaymentRecon.Auth.World
import PaymentRecon.Auth.Refresh
import PaymentRecon.Auth.Play
import PaymentRecon.Auth.Sessions
import PaymentRecon.Auth.Lineage
import PaymentRecon.Auth.Rotation
import PaymentRecon.Auth.Revocation
import PaymentRecon.Requests.Batch
import PaymentRecon.Requests.Outbox
import PaymentRecon.Relay.Retries
import PaymentRecon.Intake.Notification
import PaymentRecon.Intake.Parsed
import PaymentRecon.Intake.Rendering
import PaymentRecon.Pool.Reading
import PaymentRecon.Replay.ById
import PaymentRecon.Auth.Alone
import PaymentRecon.Auth.Expiry
import PaymentRecon.Auth.Failure
import PaymentRecon.Auth.Extension
import PaymentRecon.Intake.Maximal
import PaymentRecon.Pool.Seeding
import PaymentRecon.Lib.Paging
import PaymentRecon.Replay.DeadLetters
import PaymentRecon.Users.Paging
import PaymentRecon.Users.Signup
import PaymentRecon.Users.Rendering
import PaymentRecon.Lib.Erase
import PaymentRecon.Settle.Duplicate
import PaymentRecon.Settle.Release
import PaymentRecon.Auth.Grace
import PaymentRecon.Auth.Retry
import PaymentRecon.Lib.Progress
import PaymentRecon.Waits.Completion
import PaymentRecon.Ledger.Book
import PaymentRecon.Ledger.Refinement
import PaymentRecon.Auth.Pairs
import PaymentRecon.Lib.Drain
import PaymentRecon.Relay.Drain
import PaymentRecon.Consume.Drain
import PaymentRecon.Auth.Access
import PaymentRecon.Users.Dashboard
import PaymentRecon.Users.Listing
import PaymentRecon.Waits.Recovery
import PaymentRecon.Settle.Applied
import PaymentRecon.Settle.Collected
import PaymentRecon.Waits.Reconciled
import PaymentRecon.Consume.Handed
import PaymentRecon.Settle.Recorded
