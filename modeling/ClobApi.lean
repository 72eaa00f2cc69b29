import ClobApi.Foundation.Collections
import ClobApi.Foundation.Loop
import ClobApi.Foundation.Run
import ClobApi.Foundation.Trace
import ClobApi.Foundation.Until
import ClobApi.Foundation.Stream
import ClobApi.Foundation.Encoding
import ClobApi.Foundation.SlidingWindow
import ClobApi.Foundation.Greedy
import ClobApi.Foundation.Handover
import ClobApi.Foundation.Mirror
import ClobApi.Foundation.Records
import ClobApi.Foundation.Paging
import ClobApi.Foundation.FirstFault
import ClobApi.Foundation.Split
import ClobApi.Domain.Order
import ClobApi.Domain.CanonicalBytes
import ClobApi.Db
import ClobApi.Sequencer
import ClobApi.Engine.Matching
import ClobApi.Replay.Replay
import ClobApi.Replay.Wrapping
import ClobApi.Ops.Admin
import ClobApi.Engine.Intake
import ClobApi.Engine.Writes
import ClobApi.Engine.BooksPresent
import ClobApi.Engine.Acceptance
import ClobApi.Engine.Filing
import ClobApi.Engine.Advance
import ClobApi.Engine.Renumber
import ClobApi.Engine.Greedy
import ClobApi.Engine.Stamps
import ClobApi.Startup
import ClobApi.SnapshotFiles
import ClobApi.Risk
import ClobApi.Api.Handlers
import ClobApi.Api.Orders
import ClobApi.Api.Connection
import ClobApi.Api.PostOrders
import ClobApi.Api.Trades
import ClobApi.Guarantees.Priority
import ClobApi.Guarantees.Books
import ClobApi.Guarantees.Recovery
import ClobApi.Guarantees.Accounting
import ClobApi.Guarantees.History
import ClobApi.Guarantees.Feed
import ClobApi.Guarantees.Authorization
import ClobApi.Guarantees.Idempotency
import ClobApi.Guarantees.Retries
import ClobApi.Guarantees.Addressing
import ClobApi.Guarantees.Pauses
import ClobApi.Guarantees.Replies
import ClobApi.Guarantees.Failures
import ClobApi.Guarantees.Independence
import ClobApi.Guarantees.Forgery
import ClobApi.Guarantees.Limits
import ClobApi.Guarantees.Allotment
import ClobApi.Guarantees.Audit
import ClobApi.Guarantees.Depth
import ClobApi.Guarantees.Handover
import ClobApi.Guarantees.ForcedCancels
import ClobApi.Guarantees.ReferencePrices
import ClobApi.Guarantees.Checksums
import ClobApi.Guarantees.Snapshots
import ClobApi.Guarantees.TradeHistory
import ClobApi.Guarantees.Alignment
import ClobApi.Guarantees.ReplayErrors
import ClobApi.Guarantees.LatestSnapshot
import ClobApi.Foundation.Exchange
import ClobApi.Foundation.Countdown
import ClobApi.Engine.Ranking
import ClobApi.Api.Rest
import ClobApi.Api.Service
import ClobApi.Guarantees.Exchange
import ClobApi.Guarantees.Provenance
import ClobApi.Guarantees.Responses
import ClobApi.Guarantees.Confirmations
import ClobApi.Guarantees.OrderStates
import ClobApi.Foundation.Linear
import ClobApi.Guarantees.Linear
import ClobApi.Foundation.Json
import ClobApi.Formats
import ClobApi.PgRows
import ClobApi.Guarantees.StoredRows
import ClobApi.SnapshotTask
import ClobApi.Guarantees.SnapshotRecovery
import ClobApi.Guarantees.PublicFeed
import ClobApi.Foundation.Amortized
import ClobApi.Guarantees.Effort
import ClobApi.Cli
import ClobApi.Guarantees.Placement
import ClobApi.Foundation.Stutter
import ClobApi.Engine.Timeless
import ClobApi.Guarantees.Clocks
import ClobApi.Foundation.Credit
import ClobApi.Guarantees.Submissions
import ClobApi.Guarantees.Conversation
import ClobApi.Guarantees.RiskLimits
