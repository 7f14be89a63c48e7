import Azums.Lib.OrdSet
import Azums.Lib.Pages
import Azums.Lib.System
import Azums.Lib.Prog
import Azums.Lib.Table
import Azums.Lib.ReadCommitted
import Azums.Core.Model
import Azums.Core.StreamTables
import Azums.Memory.State
import Azums.Memory.Backend
import Azums.Memory.Invariant
import Azums.Memory.Preservation
import Azums.Memory.Run
import Azums.Memory.Streams
import Azums.Memory.Effects
import Azums.Jobs.Retry
import Azums.Quickstart.ProcessBatch
import Azums.Quickstart.Records
import Azums.Postgres.Tables
import Azums.Postgres.Enqueue
import Azums.Postgres.Lease
import Azums.Postgres.LeaseLaws
import Azums.Postgres.Runner
import Azums.Postgres.Transactions
import Azums.Postgres.Cancel
import Azums.Redis.Backend
import Azums.Redis.Custody
import Azums.Redis.Terminal
import Azums.Core.Lifecycle
import Azums.Core.Listing
import Azums.Memory.Atomicity
import Azums.Memory.Lifecycle
import Azums.Lib.Serial
import Azums.Postgres.Acks
import Azums.Postgres.BatchAck
import Azums.Memory.Numbering
import Azums.Quickstart.RetryBudget
import Azums.Redis.Fencing
import Azums.Sqlite.Backend
import Azums.Sqlite.Rows
import Azums.Sqlite.Simulation
import Azums.Lib.Cursor
import Azums.Lib.Discipline
import Azums.Redis.Delivery
import Azums.Redis.Idempotency
import Azums.Redis.Offsets
import Azums.Redis.Pruning
import Azums.Sqlite.Enqueue
import Azums.Sqlite.Replay
import Azums.Sqlite.Archive
import Azums.Sqlite.Streams
import Azums.Sqlite.Delivery
import Azums.Postgres.Streams
import Azums.Postgres.Delivery
import Azums.Postgres.Reap
import Azums.Memory.Idempotency
import Azums.Quickstart.Execution
import Azums.Memory.Leasing
import Azums.Memory.Replay
import Azums.Memory.Overflow
import Azums.Memory.Recurrence
import Azums.Jobs.Backoff
import Azums.Lib.Reached
import Azums.Lib.Insert
import Azums.Redis.Progress
import Azums.Redis.Isolation
import Azums.Quickstart.Routing
import Azums.Memory.Listing
import Azums.Backends.Listing
import Azums.Quickstart.Metrics
import Azums.Backends.LeaseBound
import Azums.Memory.Batches
import Azums.Memory.Created
import Azums.Postgres.Archive
import Azums.Lib.Loop
import Azums.Quickstart.Drain
import Azums.Memory.Registry
import Azums.Lib.Patch
import Azums.Quickstart.Wakeups
import Azums.Worker.Round
import Azums.Dashboard.Enqueue
import Azums.Lib.Evolve
import Azums.Postgres.History
import Azums.Lib.Log
import Azums.Memory.Explain
import Azums.Lib.Keyset
import Azums.Postgres.Listing
import Azums.Dashboard.Listing
import Azums.Postgres.Maintenance
import Azums.Postgres.Retention
