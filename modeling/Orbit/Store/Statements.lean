import Mathlib.Tactic.Ring
import Orbit.Foundations.Tx
import Orbit.Store.Schema

/-!
# Statements and transactions

`Store` is the database as a process sees it: the tables, the sequences that ids are drawn from, the
supply of random ids, the clock, and the statement that will fail. Every call to the database goes
through `stmt`, which fails when `faults` has counted down to it: a run with `faults = some n` loses
the connection, times out or is otherwise aborted at its statement number `n`, and one with
`faults = none` meets no such failure. The failures that come from the data itself (a missing row, a
`CHECK`, a unique index, a foreign key) are in the statements.

`transaction` is `prisma.$transaction`: it begins, runs its body and commits, and a failure at any
of these statements restores the tables. Sequences and random ids are not given back.
-/

namespace Orbit

/-- Why a call failed. `negativeResult field after` is the `BadRequestException` of `adjust`, whose
text ends in `<field>=<after>`. -/
inductive Failure
  | fault
  | recordNotFound
  | checkViolation
  | uniqueViolation
  | foreignKeyViolation
  | typeError
  | engine (msg : String)
  | badRequest (msg : String)
  | notFound (msg : String)
  | forbidden (msg : String)
  | conflict (msg : String)
  | negativeResult (field : String) (after : ℚ)
  deriving DecidableEq, Repr

/-- The sequences behind the `autoincrement` columns: the last value each gave. -/
structure Seqs where
  order : ℕ
  trade : ℕ
  outbox : ℕ
  deriving DecidableEq, Repr

structure Store where
  db : Db
  seqs : Seqs
  uuids : ℕ
  now : ℕ
  faults : Option ℕ
  deriving DecidableEq, Repr

/-- A computation over the store. -/
abbrev Stm := Tx Failure Store

namespace Stm

/-- A round trip to the database. -/
def stmt : Stm Unit := fun s =>
  match s.faults with
  | none => (.ok (), s)
  | some 0 => (.error .fault, s)
  | some (n + 1) => (.ok (), { s with faults := some n })

/-- A `SELECT`. -/
def query {α : Type} (f : Db → α) : Stm α := do
  stmt
  let s ← Tx.get
  pure (f s.db)

/-- A statement that writes, or is refused by the data. -/
def write (f : Db → Except Failure Db) : Stm Unit := do
  stmt
  let s ← Tx.get
  let db ← Tx.ofExcept (f s.db)
  Tx.modify fun s => { s with db }

def randomUUID : Stm Uuid := fun s => (.ok ⟨s.uuids⟩, { s with uuids := s.uuids + 1 })

/-- The tables as they were, and the rest as it is. -/
def rollback (s s' : Store) : Store := { s' with db := s.db }

/-- `prisma.$transaction`. -/
def transaction {α : Type} (body : Stm α) : Stm α :=
  Tx.transaction rollback do
    stmt
    let a ← body
    stmt
    pure a

end Stm

/-! ## The statements on single tables -/

/-- The `CHECK` constraints of a wallet. -/
def Wallet.NonNegative (w : Wallet) : Prop := 0 ≤ w.balance ∧ 0 ≤ w.locked

instance (w : Wallet) : Decidable w.NonNegative := inferInstanceAs (Decidable (_ ∧ _))

/-- `balance` and `locked` incremented. -/
def Wallet.increment (balance locked : ℚ) (w : Wallet) : Wallet :=
  { w with balance := w.balance + balance, locked := w.locked + locked }

namespace Db

/-- `wallet.update` with increments. -/
def walletUpdate (userId asset : String) (balance locked : ℚ) (db : Db) : Except Failure Db :=
  match db.wallet? userId asset with
  | none => .error .recordNotFound
  | some w =>
    if (w.increment balance locked).NonNegative then
      .ok { db with
        wallets := Table.modify (userId, asset) (·.increment balance locked) db.wallets }
    else .error .checkViolation

/-- `wallet.upsert` that credits `amt`, as in `creditWallet`. -/
def walletUpsert (userId asset : String) (amt : ℚ) (db : Db) : Except Failure Db :=
  match db.wallet? userId asset with
  | some _ => db.walletUpdate userId asset amt 0
  | none =>
    if (db.user? userId).isSome ∧ (Table.find? asset db.assets).isSome then
      if 0 ≤ amt then .ok { db with wallets := db.wallets ++ [⟨userId, asset, amt, 0⟩] }
      else .error .checkViolation
    else .error .foreignKeyViolation

/-- `order.update`. -/
def orderUpdate (id : ℕ) (data : Order → Order) (db : Db) : Except Failure Db :=
  match db.order? id with
  | none => .error .recordNotFound
  | some _ => .ok { db with orders := Table.modify id data db.orders }

end Db

namespace Stm

def walletUpdate (userId asset : String) (balance locked : ℚ) : Stm Unit :=
  write (Db.walletUpdate userId asset balance locked)

def walletUpsert (userId asset : String) (amt : ℚ) : Stm Unit :=
  write (Db.walletUpsert userId asset amt)

/-- `order.update`, which returns the row it wrote. -/
def orderUpdate (id : ℕ) (data : Order → Order) : Stm Order := do
  write (Db.orderUpdate id data)
  let s ← Tx.get
  let some o := s.db.order? id | Tx.fail .recordNotFound
  pure o

/-- `order.findUnique`. -/
def orderFind (id : ℕ) : Stm (Option Order) := query (·.order? id)

/-- `order.findUniqueOrThrow`. -/
def orderFindOrThrow (id : ℕ) : Stm Order := do
  let some o ← orderFind id | Tx.fail .recordNotFound
  pure o

/-- `market.findUnique`. -/
def marketFind (symbol : String) : Stm (Option Market) := query (·.market? symbol)

/-- `order.create`: the id comes from the sequence, and `commandId` and the foreign keys are
checked. -/
def orderCreate (data : ℕ → Order) : Stm Order := do
  stmt
  Tx.modify fun s => { s with seqs := { s.seqs with order := s.seqs.order + 1 } }
  let s ← Tx.get
  let o := data s.seqs.order
  if o.commandId.isSome ∧ ∃ o' ∈ s.db.orders, o'.commandId = o.commandId then
    Tx.fail .uniqueViolation
  else if (s.db.user? o.userId).isNone ∨ (s.db.market? o.market).isNone then
    Tx.fail .foreignKeyViolation
  else
    Tx.modify fun s => { s with db := { s.db with orders := s.db.orders ++ [o] } }
    pure o

/-- `trade.create`: `matchId` is unique. -/
def tradeCreate (data : ℕ → ℕ → Trade) : Stm Trade := do
  stmt
  Tx.modify fun s => { s with seqs := { s.seqs with trade := s.seqs.trade + 1 } }
  let s ← Tx.get
  let t := data s.seqs.trade s.now
  if t.matchId.isSome ∧ ∃ t' ∈ s.db.trades, t'.matchId = t.matchId then
    Tx.fail .uniqueViolation
  else
    Tx.modify fun s => { s with db := { s.db with trades := s.db.trades ++ [t] } }
    pure t

/-- `OutboxPublisherService.publish`. -/
def publish (topic : Topic) (key : String) (payload : Payload) : Stm Unit := do
  stmt
  Tx.modify fun s => { s with seqs := { s.seqs with outbox := s.seqs.outbox + 1 } }
  Tx.modify fun s => { s with db := { s.db with
    outbox := s.db.outbox ++ [⟨s.seqs.outbox, topic, key, payload⟩] } }

/-- `Date.now()`. -/
def dateNow : Stm ℕ := fun s => (.ok s.now, s)

end Stm

/-! ## A small database -/

namespace Sample

/-- A market that accepts any whole price and quantity. -/
def btcUsdt : Market where
  symbol := "BTC-USDT"
  baseAsset := "BTC"
  quoteAsset := "USDT"
  tickSize := 1
  stepSize := 1
  minNotional := 0
  takerFeeBp := 100
  makerFeeBp := 50
  enabled := true

/-- One market, `alice` with 1000 USDT and `bob` with 10 BTC. -/
def store : Store where
  db :=
    { users := [⟨"alice", false⟩, ⟨"bob", false⟩]
      assets := [⟨"BTC"⟩, ⟨"USDT"⟩]
      markets := [btcUsdt]
      wallets := [⟨"alice", "USDT", 1000, 0⟩, ⟨"bob", "BTC", 10, 0⟩]
      orders := []
      trades := []
      outbox := [] }
  seqs := ⟨0, 0, 0⟩
  uuids := 0
  now := 0
  faults := none

end Sample

end Orbit
