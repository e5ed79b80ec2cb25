import Mathlib.Data.Rat.Defs
import Mathlib.Algebra.Order.Ring.Unbundled.Rat
import Orbit.Foundations.Table

/-!
# The rows of the database

The tables of `apps/api/prisma/schema.prisma` that orders, settlement and the outbox read and
write, with the messages of `packages/shared/src/events.ts` that the outbox carries. Amounts are
exact decimals, here `ℚ`. Ids drawn from a Postgres sequence are natural numbers, and `Uuid` is what
`randomUUID` mints: the `n`-th call gives `⟨n⟩`, so that no two calls give the same one.

Columns that no modelled function reads are left out: `User.email` and `passwordHash`,
`Asset.name` and `decimals`, the timestamps of an order, and the relay's columns of an outbox row.
-/

namespace Orbit

/-- A value of `randomUUID`. -/
structure Uuid where
  n : ℕ
  deriving DecidableEq, Repr

inductive OrderSide
  | BID
  | ASK
  deriving DecidableEq, Repr

inductive OrderType
  | LIMIT
  | MARKET
  deriving DecidableEq, Repr

inductive OrderStatus
  | OPEN
  | PARTIAL
  | FILLED
  | CANCELLED
  | REJECTED
  deriving DecidableEq, Repr

structure User where
  id : String
  frozen : Bool
  deriving DecidableEq, Repr

structure Asset where
  symbol : String
  deriving DecidableEq, Repr

structure Wallet where
  userId : String
  asset : String
  balance : ℚ
  locked : ℚ
  deriving DecidableEq, Repr

structure Market where
  symbol : String
  baseAsset : String
  quoteAsset : String
  tickSize : ℚ
  stepSize : ℚ
  minNotional : ℚ
  takerFeeBp : ℤ
  makerFeeBp : ℤ
  enabled : Bool
  deriving DecidableEq, Repr

structure Order where
  id : ℕ
  userId : String
  market : String
  side : OrderSide
  type : OrderType
  price : Option ℚ
  quantity : ℚ
  leaveQty : ℚ
  filledQty : ℚ
  status : OrderStatus
  commandId : Option Uuid
  deriving DecidableEq, Repr

/-- `<commandId>#<idx>`, the identifier of a trade within the command that made it. -/
structure MatchId where
  commandId : Uuid
  matchIdx : ℕ
  deriving DecidableEq, Repr

structure Trade where
  id : ℕ
  sequence : ℕ
  market : String
  price : ℚ
  quantity : ℚ
  makerOrderId : ℕ
  takerOrderId : ℕ
  makerSide : OrderSide
  takerSide : OrderSide
  makerUserId : String
  takerUserId : String
  makerFee : ℚ
  takerFee : ℚ
  matchId : Option MatchId
  createdAt : ℕ
  deriving DecidableEq, Repr

/-! ## Messages -/

structure OrderSubmitCommand where
  commandId : Uuid
  orderId : ℕ
  userId : String
  symbol : String
  side : OrderSide
  ordType : OrderType
  price : Option ℚ
  quantity : ℚ
  ts : ℕ
  deriving DecidableEq, Repr

structure OrderCancelCommand where
  commandId : Uuid
  orderId : ℕ
  userId : String
  symbol : String
  ts : ℕ
  deriving DecidableEq, Repr

inductive OrderCommand
  | SUBMIT (cmd : OrderSubmitCommand)
  | CANCEL (cmd : OrderCancelCommand)
  deriving DecidableEq, Repr

namespace OrderCommand

/-- The market lane a command is processed in. -/
def symbol : OrderCommand → String
  | SUBMIT cmd => cmd.symbol
  | CANCEL cmd => cmd.symbol

def orderId : OrderCommand → ℕ
  | SUBMIT cmd => cmd.orderId
  | CANCEL cmd => cmd.orderId

end OrderCommand

/-- The dedupe key of an event: minted at random, or derived from the trade it reports, by its
`matchId` or, for a row without one, by its id. -/
inductive EventId
  | random (u : Uuid)
  | trade (m : MatchId)
  | taker (m : MatchId)
  | maker (m : MatchId)
  | takerOfTrade (id : ℕ)
  | makerOfTrade (id : ℕ)
  deriving DecidableEq, Repr

inductive OrderEventType
  | ORDER_ADDED
  | ORDER_CANCELLED
  deriving DecidableEq, Repr

structure OrderEvent where
  type : OrderEventType
  eventId : EventId
  orderId : ℕ
  userId : String
  market : String
  side : OrderSide
  orderType : OrderType
  price : Option ℚ
  quantity : ℚ
  leaveQty : ℚ
  filledQty : ℚ
  status : OrderStatus
  ts : ℕ
  deriving DecidableEq, Repr

structure TradeEvent where
  eventId : EventId
  id : ℕ
  sequence : ℕ
  market : String
  price : ℚ
  quantity : ℚ
  makerOrderId : ℕ
  takerOrderId : ℕ
  makerUserId : String
  takerUserId : String
  makerSide : OrderSide
  takerSide : OrderSide
  ts : ℕ
  deriving DecidableEq, Repr

inductive UserNotificationType
  | ORDER_FILLED
  | ORDER_CANCELLED
  deriving DecidableEq, Repr

structure UserEvent where
  eventId : EventId
  userId : String
  type : UserNotificationType
  orderId : ℕ
  market : String
  price : Option ℚ
  quantity : Option ℚ
  ts : ℕ
  deriving DecidableEq, Repr

/-- One price of an orderbook snapshot. -/
structure BookLevel where
  price : ℚ
  quantity : ℚ
  deriving DecidableEq, Repr

structure OrderbookEvent where
  eventId : EventId
  market : String
  seq : ℕ
  asks : List BookLevel
  bids : List BookLevel
  ts : ℕ
  deriving DecidableEq, Repr

/-- The topics the api and the matcher publish to. -/
inductive Topic
  | ORDER_COMMANDS
  | TRADES
  | ORDERS
  | ORDERBOOK
  | USER_EVENTS
  deriving DecidableEq, Repr

inductive Payload
  | command (cmd : OrderCommand)
  | order (evt : OrderEvent)
  | trade (evt : TradeEvent)
  | user (evt : UserEvent)
  | orderbook (evt : OrderbookEvent)
  deriving DecidableEq, Repr

structure OutboxEvent where
  id : ℕ
  topic : Topic
  key : String
  payload : Payload
  deriving DecidableEq, Repr

/-! ## Tables -/

instance : Table.Keyed User String := ⟨User.id⟩
instance : Table.Keyed Asset String := ⟨Asset.symbol⟩
instance : Table.Keyed Market String := ⟨Market.symbol⟩
instance : Table.Keyed Order ℕ := ⟨Order.id⟩
instance : Table.Keyed Wallet (String × String) := ⟨fun w => (w.userId, w.asset)⟩

/-- The tables. -/
structure Db where
  users : List User
  assets : List Asset
  markets : List Market
  wallets : List Wallet
  orders : List Order
  trades : List Trade
  outbox : List OutboxEvent
  deriving DecidableEq, Repr

namespace Order

/-- `OPEN` or `PARTIAL`: neither filled nor cancelled. -/
def active (o : Order) : Bool := o.status = .OPEN ∨ o.status = .PARTIAL

/-- `FILLED` or `CANCELLED`: what the settler's guards skip. -/
def terminal (o : Order) : Bool := o.status = .FILLED ∨ o.status = .CANCELLED

end Order

namespace Db

def user? (db : Db) (id : String) : Option User := Table.find? id db.users
def market? (db : Db) (symbol : String) : Option Market := Table.find? symbol db.markets
def order? (db : Db) (id : ℕ) : Option Order := Table.find? id db.orders
def wallet? (db : Db) (userId asset : String) : Option Wallet :=
  Table.find? (userId, asset) db.wallets

/-- The commands of the committed outbox rows: what the relay can ever publish to the matcher. -/
def commands (db : Db) : List OrderCommand :=
  db.outbox.filterMap fun e =>
    match e.topic, e.payload with
    | .ORDER_COMMANDS, .command cmd => some cmd
    | _, _ => none

end Db

end Orbit
