import Orbit.Foundations.Table
import Orbit.Foundations.Tx
import Orbit.Foundations.Lockstep
import Orbit.Foundations.PriceTime
import Orbit.Foundations.Rooms
import Orbit.Foundations.Sequences
import Orbit.Foundations.History
import Orbit.Foundations.Lanes
import Orbit.Foundations.Batches
import Orbit.Foundations.Decimal
import Orbit.Foundations.Json
import Orbit.Foundations.Texts
import Orbit.Foundations.Conversions
import Orbit.Foundations.Pages
import Orbit.Foundations.Cursors
import Orbit.Foundations.Parties
import Orbit.Store.Schema
import Orbit.Store.Statements
import Orbit.Store.Specs
import Orbit.Store.Affords
import Orbit.Api.OrderService
import Orbit.Api.Admin
import Orbit.Api.Specs
import Orbit.Store.Outbox
import Orbit.Api.Idempotency
import Orbit.Api.IdempotencyScope
import Orbit.Api.BodyHash
import Orbit.Api.IdempotencyWindow
import Orbit.Api.OutboxBookkeeping
import Orbit.Api.WalletAudit
import Orbit.Api.WalletExact
import Orbit.Api.Acceptance
import Orbit.Api.WalletRow
import Orbit.Api.Overspend
import Orbit.Api.MarketController
import Orbit.Matcher.Engine
import Orbit.Matcher.Settler
import Orbit.Matcher.Consumer
import Orbit.Matcher.SettleSpecs
import Orbit.Matcher.Sweep
import Orbit.Matcher.CommandSpecs
import Orbit.Matcher.Published
import Orbit.Matcher.OrdersTopic
import Orbit.Matcher.Lanes
import Orbit.Matcher.Credits
import Orbit.Matcher.Supply
import Orbit.Matcher.Fees
import Orbit.Matcher.Backing
import Orbit.Matcher.Safety
import Orbit.Matcher.Rows
import Orbit.Matcher.Reservation
import Orbit.Matcher.Ledger
import Orbit.Matcher.Precision
import Orbit.Matcher.Abort
import Orbit.Matcher.Progress
import Orbit.Matcher.MarketBid
import Orbit.Matcher.Delivery
import Orbit.Matcher.Replay
import Orbit.Matcher.Agreement
import Orbit.Matcher.Restart
import Orbit.Matcher.Redelivery
import Orbit.Matcher.MatchIds
import Orbit.Matcher.Commute
import Orbit.Matcher.SnapshotSeq
import Orbit.Matcher.SnapshotService
import Orbit.Matcher.Inert
import Orbit.Matcher.CommandConsumer
import Orbit.Workers.CandleAggregator
import Orbit.Workers.CandleSpecs
import Orbit.Workers.CandleCopies
import Orbit.Workers.OutboxRelay
import Orbit.Workers.OutboxStarvation
import Orbit.Workers.Dedupe
import Orbit.Workers.DedupeOnce
import Orbit.Workers.RetryPolicy
import Orbit.Workers.RetrySpecs
import Orbit.Workers.ErrorKinds
import Orbit.Workers.AuditLogger
import Orbit.Workers.EventHandlers
import Orbit.Workers.DlqMonitor
import Orbit.Api.AdminDlq
import Orbit.Api.DlqPages
import Orbit.Workers.DlqLineage
import Orbit.Api.AdminOutbox
import Orbit.Workers.OrderbookFeed
import Orbit.Matcher.EventIds
import Orbit.Matcher.TradesTopic
import Orbit.Matcher.Executions
import Orbit.Matcher.Addressing
import Orbit.Matcher.Bystanders
import Orbit.Matcher.Requests
import Orbit.Api.OrderPages
import Orbit.Matcher.Withdrawal
import Orbit.Matcher.Priority
import Orbit.Matcher.Depth
import Orbit.Workers.Pipeline
import Orbit.Workers.Charts
import Orbit.Api.Accounts
import Orbit.Matcher.Growth
import Orbit.Api.Seed
import Orbit.Realtime.MarketDataGateway
