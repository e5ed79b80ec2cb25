import Orbit.Foundations.Table
import Orbit.Store.Schema

/-!
# The candle aggregator

`runCandleAggregator` of `apps/workers/src/candle-aggregator/index.ts`. Its `eachBatch` handler
folds the trades of one Kafka batch into buckets, one for each market and minute, and writes the
buckets to the `Candle` table in one transaction. The buckets are rebuilt from nothing for every
batch, and the update branch of the upsert overwrites `high`, `low`, `close` and `volume` with those
of the batch; it leaves `open` alone.

The buckets live in a map under the text `market:openTime`, the rows under the unique index
`(market, interval, openTime)`.
-/

namespace Orbit

open Table

inductive CandleInterval
  | M1
  | M5
  | M15
  | H1
  | H4
  | D1
  | W1
  deriving DecidableEq, Repr

/-- `CANDLE_INTERVAL_SECONDS`. -/
def CandleInterval.seconds : CandleInterval → ℕ
  | .M1 => 60
  | .M5 => 300
  | .M15 => 900
  | .H1 => 3600
  | .H4 => 14400
  | .D1 => 86400
  | .W1 => 604800

/-- A row of the `Candle` table; `openTime` is in seconds. -/
structure Candle where
  market : String
  interval : CandleInterval
  openTime : ℕ
  «open» : ℚ
  high : ℚ
  low : ℚ
  close : ℚ
  volume : ℚ
  deriving DecidableEq, Repr

instance : Keyed Candle (String × CandleInterval × ℕ) where
  key c := (c.market, c.interval, c.openTime)

namespace CandleAggregator

/-- The value of a Kafka message, as the handler sees it. -/
inductive MessageValue
  | null
  | unparseable
  /-- An event whose type is not `TRADE`. -/
  | other
  | trade (trade : TradeEvent)
  deriving DecidableEq, Repr

structure Message where
  offset : ℕ
  value : MessageValue
  deriving DecidableEq, Repr

/-- An entry of the map of buckets. -/
structure Bucket where
  market : String
  «open» : ℚ
  high : ℚ
  low : ℚ
  close : ℚ
  volume : ℚ
  openTime : ℕ
  deriving DecidableEq, Repr

/-- The text under which a bucket is stored. -/
def bucketKey (market : String) (openTime : ℕ) : String := market ++ ":" ++ Nat.repr openTime

instance : Keyed Bucket String where
  key b := bucketKey b.market b.openTime

/-- `Math.floor(trade.ts / 1000 / intervalSec) * intervalSec`. -/
def openTime (trade : TradeEvent) : ℕ :=
  trade.ts / 1000 / CandleInterval.M1.seconds * CandleInterval.M1.seconds

/-- The bucket of a trade that is the first of its minute. -/
def newBucket (trade : TradeEvent) : Bucket where
  market := trade.market
  «open» := trade.price
  high := trade.price
  low := trade.price
  close := trade.price
  volume := 0
  openTime := openTime trade

/-- What a trade does to its bucket. -/
def Bucket.add (b : Bucket) (trade : TradeEvent) : Bucket :=
  { b with
    high := max b.high trade.price
    low := min b.low trade.price
    close := trade.price
    volume := b.volume + trade.quantity }

/-- The trade of a turn of the loop: the bucket is fetched or made, and then updated. -/
def addTrade (buckets : List Bucket) (trade : TradeEvent) : List Bucket :=
  modify (bucketKey trade.market (openTime trade)) (·.add trade)
    (upsert (newBucket trade) id buckets)

/-- The state of the loop over the messages of a batch. -/
structure Loop where
  buckets : List Bucket
  lastResolvable : Option ℕ
  deriving DecidableEq, Repr

/-- One turn of the loop that is not cut short. -/
def turn (s : Loop) (message : Message) : Loop :=
  let s := { s with lastResolvable := some message.offset }
  match message.value with
  | .null => s
  | .unparseable => s
  | .other => s
  | .trade trade => { s with buckets := addTrade s.buckets trade }

/-- The loop. `stops i` is `!isRunning() || isStale()` at the turn `i`. -/
def loop (stops : ℕ → Bool) : ℕ → Loop → List Message → Loop
  | _, s, [] => s
  | i, s, message :: messages =>
    if stops i then s else loop stops (i + 1) (turn s message) messages

/-- The `create` branch of the upsert. -/
def Bucket.create (b : Bucket) : Candle where
  market := b.market
  interval := .M1
  openTime := b.openTime
  «open» := b.open
  high := b.high
  low := b.low
  close := b.close
  volume := b.volume

/-- The `update` branch of the upsert. -/
def Bucket.update (b : Bucket) (c : Candle) : Candle :=
  { c with high := b.high, low := b.low, close := b.close, volume := b.volume }

/-- The tables the aggregator reads and writes: the symbols of the markets, which the rows refer to,
and the candles. -/
structure Tables where
  markets : List String
  candles : List Candle
  deriving DecidableEq, Repr

/-- `candle.upsert`: a row cannot be created for a market that does not exist. -/
def candleUpsert (db : Tables) (b : Bucket) : Option Tables :=
  if (find? (key b.create) db.candles).isSome ∨ b.market ∈ db.markets then
    some { db with candles := upsert b.create b.update db.candles }
  else none

/-- `prisma.$transaction` over the upserts of the buckets. -/
def flush : Tables → List Bucket → Option Tables
  | db, [] => some db
  | db, b :: bs => do
    let db ← candleUpsert db b
    flush db bs

/-- What `eachBatch` leaves: the tables, and the offset it resolved. -/
structure Flushed where
  db : Tables
  resolved : Option ℕ
  deriving DecidableEq, Repr

/-- `eachBatch`: `none` when the transaction fails, and then the error is thrown and nothing was
written. -/
def eachBatch (stops : ℕ → Bool) (db : Tables) (messages : List Message) : Option Flushed :=
  let s := loop stops 0 ⟨[], none⟩ messages
  if s.buckets = [] then some ⟨db, s.lastResolvable⟩
  else do
    let db ← flush db s.buckets
    pure ⟨db, s.lastResolvable⟩

/-- Batches one after the other, each processed to completion. -/
def aggregate : Tables → List (List Message) → Option Tables
  | db, [] => some db
  | db, batch :: batches => do
    let s ← eachBatch (fun _ => false) db batch
    aggregate s.db batches

end CandleAggregator

end Orbit
