import Orbit.Matcher.Engine
import Orbit.Store.Statements

/-!
# Settlement

`SettlerService` of `apps/matcher/src/settler/settler.service.ts`, over the process state `Matcher`:
the store and, in memory, one book for each market and two local counters. `settleSubmit` and
`settleCancel` run the matching and the settlement inside one database transaction. The book is
changed in the middle of it and is not part of what a failed transaction restores.

`creditWallet`, `settleTrade`, `updateOrderAfterMatch` and the publishers only touch the store and
the counters. A book is reached through its market's symbol: `bookAdd`, `bookCancel` and
`getOrderbook` act on the book that `getEngine` made sure exists.

The functions on the way to `creditWallet` are defined over any statement `credit` in its place
(`settleMakerWith` and so on), and the settler is their instance at `creditWallet`.
-/

namespace Orbit

open PriceTime

/-- The state of the matcher process and of the database it talks to. -/
structure Matcher (E : Engine) where
  store : Store
  books : String → Option E.Book
  localSeq : ℕ
  orderbookSeq : ℕ

namespace Matcher

variable {E : Engine}

/-- The book of a market; one that does not exist yet is created empty. -/
def book (m : Matcher E) (symbol : String) : E.Book := (m.books symbol).getD E.new

def setBook (m : Matcher E) (symbol : String) (b : E.Book) : Matcher E :=
  { m with books := Function.update m.books symbol (some b) }

/-- The queues of the book of a market. -/
def queues (m : Matcher E) (symbol : String) : Queues := E.resting (m.book symbol)

def db (m : Matcher E) : Db := m.store.db

/-- The tables as they were, and the rest as it is: books and counters are not restored. -/
def rollback (m m' : Matcher E) : Matcher E := { m' with store := Stm.rollback m.store m'.store }

end Matcher

/-- A computation of the matcher. -/
abbrev Act (E : Engine) := Tx Failure (Matcher E)

namespace Settler

variable {E : Engine}

/-- A computation on the store. -/
def onStore {α : Type} (x : Stm α) : Act E α :=
  Tx.zoom (·.store) (fun m store => { m with store }) x

/-- `MatchingEngineService.sideToEngine`. -/
def sideToEngine : OrderSide → Side
  | .BID => .bid
  | .ASK => .ask

/-- `MatchingEngineService.getEngine`, by `ensureBook`. -/
def getEngine (symbol : String) : Act E Unit :=
  Tx.modify fun m => m.setBook symbol (m.book symbol)

/-- `book.add`. The source hands the engine the decimal texts of the price and the quantity (in
exponent form below 1e-6); they stand for their values here, which is how an `Engine` reads them. -/
def bookAdd (symbol : String) (id : ℕ) (side : Side) (price qty : ℚ) : Act E AddResult := fun m =>
  match E.add (m.book symbol) id side price qty with
  | .ok (b, r) => (.ok r, m.setBook symbol b)
  | .error msg => (.error (.engine msg), m)

/-- `try { book.cancel(id) } catch {}`. -/
def bookCancel (symbol : String) (id : ℕ) : Act E Unit := fun m =>
  match E.cancel (m.book symbol) id with
  | .ok b => (.ok (), m.setBook symbol b)
  | .error _ => (.ok (), m)

def getOrderbook (symbol : String) : Act E Snapshot := fun m =>
  (.ok (E.getOrderbook (m.book symbol)), m)

/-- `++this.localSeq`. -/
def nextSequence : Act E ℕ := fun m => (.ok (m.localSeq + 1), { m with localSeq := m.localSeq + 1 })

/-- `++orderbookSeq`. -/
def nextOrderbookSeq : Act E ℕ := fun m =>
  (.ok (m.orderbookSeq + 1), { m with orderbookSeq := m.orderbookSeq + 1 })

/-- `new Decimal(bp).div(BP)`. -/
def feeRate (bp : ℤ) : ℚ := bp / 10000

/-- `creditWallet`. -/
def creditWallet (userId asset : String) (amount : ℚ) : Stm Unit :=
  Stm.walletUpsert userId asset amount

/-- The maker's row after a fill of `qty`. -/
def makerAfter (maker : Order) (qty : ℚ) (o : Order) : Order :=
  { o with
    filledQty := maker.filledQty + qty
    leaveQty := maker.leaveQty - qty
    status := if maker.leaveQty - qty ≤ 0 then .FILLED else .PARTIAL }

/-- The fee rates of a command's trades. -/
structure FeeRates where
  maker : ℚ
  taker : ℚ
  deriving DecidableEq, Repr

/-- The row of `updateOrderAfterMatch`. -/
def orderAfterMatch (leaveQty originalQty : ℚ) (o : Order) : Order :=
  let filledQty := originalQty - leaveQty
  { o with
    filledQty
    leaveQty
    status := if leaveQty ≤ 0 then .FILLED else if 0 < filledQty then .PARTIAL else .OPEN }

/-- `updateOrderAfterMatch`. -/
def updateOrderAfterMatch (orderId : ℕ) (leaveQty originalQty : ℚ) : Stm Order :=
  Stm.orderUpdate orderId (orderAfterMatch leaveQty originalQty)

/-- `baseSweepId + sweepIdCounter`. -/
def sweepId (orderId counter : ℕ) : ℕ := orderId * 1000 + 1000000000 + counter

/-- The row of a `MARKET` order of which a quantity remains: cancelled if nothing was filled. -/
def residualAfter (order : Order) (remaining : ℚ) (o : Order) : Order :=
  { o with status := if order.quantity = remaining then .CANCELLED else .FILLED }

/-- What `executeMarketOrder` does when a quantity remains: a `MARKET` `ASK` is refunded what it
did not sell, and the order is closed. -/
def settleResidual (market : Market) (order : Order) (remaining : ℚ) : Stm Unit := do
  if order.side = .ASK then
    Stm.walletUpdate order.userId market.baseAsset remaining (-remaining)
  let _ ← Stm.orderUpdate order.id (residualAfter order remaining)

/-- The levels of a snapshot that an order trades against. -/
def oppositeLevels (side : OrderSide) (snapshot : Snapshot) : List BookLevel :=
  match side with
  | .BID => snapshot.asks
  | .ASK => snapshot.bids

/-! ## Settlement over a `creditWallet` -/

section With

variable (credit : String → String → ℚ → Stm Unit)

/-- The maker's side of a trade, in `settleTrades`. -/
def settleMakerWith (market : Market) (maker : Order) (price qty makerFeeRate : ℚ) : Stm Unit :=
  match maker.side with
  | .ASK => do
    Stm.walletUpdate maker.userId market.baseAsset 0 (-qty)
    credit maker.userId market.quoteAsset (price * qty * (1 - makerFeeRate))
  | .BID =>
    match maker.price with
    | none => Tx.fail .typeError
    | some makerLimit => do
      let reserved := makerLimit * qty
      let refund := reserved - price * qty
      Stm.walletUpdate maker.userId market.quoteAsset refund (-reserved)
      credit maker.userId market.baseAsset (qty * (1 - makerFeeRate))

/-- The taker's side of a trade, in `settleTrades`. -/
def settleTakerWith (market : Market) (takerOrder : Order) (price qty takerFeeRate : ℚ) :
    Stm Unit :=
  match takerOrder.side with
  | .BID => do
    match takerOrder.type, takerOrder.price with
    | .LIMIT, some reservedPrice =>
      let reserved := reservedPrice * qty
      let refund := reserved - price * qty
      Stm.walletUpdate takerOrder.userId market.quoteAsset refund (-reserved)
    | _, _ => Stm.walletUpdate takerOrder.userId market.quoteAsset (-(price * qty)) 0
    credit takerOrder.userId market.baseAsset (qty * (1 - takerFeeRate))
  | .ASK => do
    Stm.walletUpdate takerOrder.userId market.baseAsset 0 (-qty)
    credit takerOrder.userId market.quoteAsset (price * qty * (1 - takerFeeRate))

/-- The rest of one turn of the loop of `settleTrades`, once the maker's row is read. -/
def settleFillWith (market : Market) (takerOrder maker : Order) (t : EngineTrade) (rates : FeeRates)
    (matchId : MatchId) (sequence : ℕ) : Stm Trade := do
  let price := t.tradePrice
  let qty := t.tradeQuantity
  let tradeRow ← Stm.tradeCreate fun id createdAt =>
    { id, sequence, market := market.symbol, price, quantity := qty
      makerOrderId := t.makerOrderId, takerOrderId := takerOrder.id
      makerSide := maker.side, takerSide := takerOrder.side
      makerUserId := maker.userId, takerUserId := takerOrder.userId
      makerFee := qty * rates.maker, takerFee := qty * rates.taker
      matchId := some matchId, createdAt }
  settleMakerWith credit market maker price qty rates.maker
  settleTakerWith credit market takerOrder price qty rates.taker
  let _ ← Stm.orderUpdate maker.id (makerAfter maker qty)
  pure tradeRow

/-- One turn of the loop of `settleTrades`. -/
def settleTradeWith (market : Market) (takerOrder : Order) (rates : FeeRates) (matchId : MatchId)
    (t : EngineTrade) : Act E Trade := do
  let maker ← onStore (Stm.orderFindOrThrow t.makerOrderId)
  let sequence ← nextSequence
  onStore (settleFillWith credit market takerOrder maker t rates matchId sequence)

/-- `settleTrades`, from the match index `matchIdx` on. The index after it is
`matchIdx + trades.length`. -/
def settleTradesWith (market : Market) (takerOrder : Order) (rates : FeeRates) (commandId : Uuid) :
    ℕ → List EngineTrade → Act E (List Trade)
  | _, [] => pure []
  | matchIdx, t :: ts => do
    let row ← settleTradeWith credit market takerOrder rates ⟨commandId, matchIdx⟩ t
    let out ← settleTradesWith market takerOrder rates commandId (matchIdx + 1) ts
    pure (row :: out)

/-- The loop of `executeMarketOrder` over the levels of the snapshot. It returns the trades and what
remains of the quantity. -/
def sweepLevelsWith (symbol : String) (market : Market) (order : Order) (rates : FeeRates)
    (commandId : Uuid) : ℕ → ℕ → ℚ → List BookLevel → Act E (List Trade × ℚ)
  | _, _, remaining, [] => pure ([], remaining)
  | counter, matchIdx, remaining, lvl :: lvls =>
    if remaining ≤ 0 then pure ([], remaining)
    else do
      let take := min lvl.quantity remaining
      let sweep ← bookAdd symbol (sweepId order.id counter) (sideToEngine order.side) lvl.price take
      let fills ← settleTradesWith credit market order rates commandId matchIdx sweep.trades
      if 0 < sweep.leaveQuantity then bookCancel symbol (sweepId order.id counter)
      let (collected, rest) ← sweepLevelsWith symbol market order rates commandId (counter + 1)
        (matchIdx + sweep.trades.length) (remaining - take) lvls
      pure (fills ++ collected, rest)

/-- `executeMarketOrder`. -/
def executeMarketOrderWith (symbol : String) (market : Market) (order : Order) (rates : FeeRates)
    (commandId : Uuid) : Act E (List Trade) := do
  let snapshot ← getOrderbook symbol
  let (collected, remaining) ← sweepLevelsWith credit symbol market order rates commandId 0 0
    order.quantity (oppositeLevels order.side snapshot)
  let _ ← onStore (updateOrderAfterMatch order.id remaining order.quantity)
  if 0 < remaining then onStore (settleResidual market order remaining)
  pure collected

end With

/-! ## Outbox publishers -/

/-- The event of an order row, of either type. -/
def orderEvent (type : OrderEventType) (order : Order) (eventId : EventId) (ts : ℕ) : OrderEvent :=
  { type, eventId, orderId := order.id, userId := order.userId, market := order.market
    side := order.side, orderType := order.type, price := order.price, quantity := order.quantity
    leaveQty := order.leaveQty, filledQty := order.filledQty, status := order.status, ts }

/-- `t.matchId ?? randomUUID()`. -/
def tradeEventId (t : Trade) : Stm EventId :=
  match t.matchId with
  | some m => pure (.trade m)
  | none => do
    let u ← Stm.randomUUID
    pure (.random u)

/-- The event ids of the taker's and the maker's notification. -/
def notificationIds (t : Trade) : EventId × EventId :=
  match t.matchId with
  | some m => (.taker m, .maker m)
  | none => (.takerOfTrade t.id, .makerOfTrade t.id)

/-- The `TRADE` event and the two notifications of a trade. -/
def publishTrade (symbol : String) (t : Trade) : Stm Unit := do
  let eventId ← tradeEventId t
  Stm.publish .TRADES symbol (.trade
    { eventId, id := t.id, sequence := t.sequence, market := symbol, price := t.price
      quantity := t.quantity, makerOrderId := t.makerOrderId, takerOrderId := t.takerOrderId
      makerUserId := t.makerUserId, takerUserId := t.takerUserId, makerSide := t.makerSide
      takerSide := t.takerSide, ts := t.createdAt })
  let ts ← Stm.dateNow
  Stm.publish .USER_EVENTS t.takerUserId (.user
    { eventId := (notificationIds t).1, userId := t.takerUserId, type := .ORDER_FILLED
      orderId := t.takerOrderId, market := symbol, price := some t.price
      quantity := some t.quantity, ts })
  Stm.publish .USER_EVENTS t.makerUserId (.user
    { eventId := (notificationIds t).2, userId := t.makerUserId, type := .ORDER_FILLED
      orderId := t.makerOrderId, market := symbol, price := some t.price
      quantity := some t.quantity, ts })

def publishTrades (symbol : String) : List Trade → Stm Unit
  | [] => pure ()
  | t :: ts => do
    publishTrade symbol t
    publishTrades symbol ts

/-- The post-match orderbook snapshot. -/
def publishSnapshot (symbol : String) : Act E Unit := do
  let ob ← getOrderbook symbol
  let eventId ← onStore Stm.randomUUID
  let seq ← nextOrderbookSeq
  let ts ← onStore Stm.dateNow
  onStore (Stm.publish .ORDERBOOK symbol (.orderbook
    { eventId := .random eventId, market := symbol, seq, asks := ob.asks, bids := ob.bids, ts }))

/-- `publishSubmitEvents`. -/
def publishSubmitEvents (order : Order) (trades : List Trade) (symbol : String) : Act E Unit := do
  onStore do
    let eventId ← Stm.randomUUID
    let ts ← Stm.dateNow
    Stm.publish .ORDERS symbol (.order (orderEvent .ORDER_ADDED order (.random eventId) ts))
    publishTrades symbol trades
  publishSnapshot symbol

/-- `publishCancelEvents`. -/
def publishCancelEvents (order : Order) : Act E Unit := do
  onStore do
    let eventId ← Stm.randomUUID
    let ts ← Stm.dateNow
    Stm.publish .ORDERS order.market
      (.order (orderEvent .ORDER_CANCELLED order (.random eventId) ts))
    let userEventId ← Stm.randomUUID
    let userTs ← Stm.dateNow
    Stm.publish .USER_EVENTS order.userId (.user
      { eventId := .random userEventId, userId := order.userId, type := .ORDER_CANCELLED
        orderId := order.id, market := order.market, price := none
        quantity := none, ts := userTs })
  publishSnapshot order.market

/-! ## Commands -/

/-- `prisma.$transaction` in the matcher: the tables are restored, the books are not. -/
def transaction {α : Type} (body : Act E α) : Act E α :=
  Tx.transaction Matcher.rollback do
    onStore Stm.stmt
    let a ← body
    onStore Stm.stmt
    pure a

section With

variable (credit : String → String → ℚ → Stm Unit)

/-- The matching of `settleSubmit`, by the type of the order. -/
def matchSubmitWith (market : Market) (order : Order) (cmd : OrderSubmitCommand)
    (rates : FeeRates) : Act E (List Trade) :=
  match order.type, order.price with
  | .LIMIT, none => Tx.fail (.badRequest "limit order missing price")
  | .LIMIT, some price => do
    let res ← bookAdd cmd.symbol order.id (sideToEngine order.side) price order.leaveQty
    let trades ← settleTradesWith credit market order rates cmd.commandId 0 res.trades
    let _ ← onStore (updateOrderAfterMatch order.id res.leaveQuantity order.quantity)
    pure trades
  | .MARKET, _ => executeMarketOrderWith credit cmd.symbol market order rates cmd.commandId

/-- The body of the transaction of `settleSubmit`. -/
def submitBodyWith (market : Market) (order : Order) (cmd : OrderSubmitCommand) :
    Act E (Order × List Trade) := do
  let rates : FeeRates := ⟨feeRate market.makerFeeBp, feeRate market.takerFeeBp⟩
  let trades ← matchSubmitWith credit market order cmd rates
  let persisted ← onStore (Stm.orderFindOrThrow order.id)
  publishSubmitEvents persisted trades cmd.symbol
  pure (persisted, trades)

/-- `settleSubmit`: `none` when the command is skipped. -/
def settleSubmitWith (cmd : OrderSubmitCommand) : Act E (Option (Order × List Trade)) := do
  let some market ← onStore (Stm.marketFind cmd.symbol) | pure none
  let some order ← onStore (Stm.orderFind cmd.orderId) | pure none
  if order.commandId.isSome ∧ order.commandId ≠ some cmd.commandId then pure none
  else if order.terminal then pure none
  else do
    getEngine cmd.symbol
    let r ← transaction (submitBodyWith credit market order cmd)
    pure (some r)

end With

/-! ## The settler -/

def settleMaker : Market → Order → ℚ → ℚ → ℚ → Stm Unit := settleMakerWith creditWallet

def settleTaker : Market → Order → ℚ → ℚ → ℚ → Stm Unit := settleTakerWith creditWallet

def settleFill : Market → Order → Order → EngineTrade → FeeRates → MatchId → ℕ → Stm Trade :=
  settleFillWith creditWallet

def settleTrade : Market → Order → FeeRates → MatchId → EngineTrade → Act E Trade :=
  settleTradeWith creditWallet

def settleTrades : Market → Order → FeeRates → Uuid → ℕ → List EngineTrade → Act E (List Trade) :=
  settleTradesWith creditWallet

def sweepLevels : String → Market → Order → FeeRates → Uuid → ℕ → ℕ → ℚ → List BookLevel →
    Act E (List Trade × ℚ) :=
  sweepLevelsWith creditWallet

def executeMarketOrder : String → Market → Order → FeeRates → Uuid → Act E (List Trade) :=
  executeMarketOrderWith creditWallet

def matchSubmit : Market → Order → OrderSubmitCommand → FeeRates → Act E (List Trade) :=
  matchSubmitWith creditWallet

def submitBody : Market → Order → OrderSubmitCommand → Act E (Order × List Trade) :=
  submitBodyWith creditWallet

def settleSubmit : OrderSubmitCommand → Act E (Option (Order × List Trade)) :=
  settleSubmitWith creditWallet

section Equations

variable {market : Market} {order : Order} {rates : FeeRates} {commandId : Uuid}

theorem settleTrades_nil (idx : ℕ) :
    (settleTrades market order rates commandId idx [] : Act E (List Trade)) = pure [] := rfl

theorem settleTrades_cons (idx : ℕ) (t : EngineTrade) (ts : List EngineTrade) :
    (settleTrades market order rates commandId idx (t :: ts) : Act E (List Trade)) = (do
      let row ← settleTrade market order rates ⟨commandId, idx⟩ t
      let out ← settleTrades market order rates commandId (idx + 1) ts
      pure (row :: out)) := rfl

theorem sweepLevels_cons (symbol : String) (counter idx : ℕ) (remaining : ℚ) (lvl : BookLevel)
    (lvls : List BookLevel) :
    (sweepLevels symbol market order rates commandId counter idx remaining (lvl :: lvls) :
      Act E (List Trade × ℚ)) =
      (if remaining ≤ 0 then pure ([], remaining)
      else do
        let take := min lvl.quantity remaining
        let sweep ← bookAdd symbol (sweepId order.id counter) (sideToEngine order.side) lvl.price
          take
        let fills ← settleTrades market order rates commandId idx sweep.trades
        if 0 < sweep.leaveQuantity then bookCancel symbol (sweepId order.id counter)
        let (collected, rest) ← sweepLevels symbol market order rates commandId (counter + 1)
          (idx + sweep.trades.length) (remaining - take) lvls
        pure (fills ++ collected, rest)) := rfl

theorem executeMarketOrder_eq (symbol : String) :
    (executeMarketOrder symbol market order rates commandId : Act E (List Trade)) = (do
      let snapshot ← getOrderbook symbol
      let (collected, remaining) ← sweepLevels symbol market order rates commandId 0 0
        order.quantity (oppositeLevels order.side snapshot)
      let _ ← onStore (updateOrderAfterMatch order.id remaining order.quantity)
      if 0 < remaining then onStore (settleResidual market order remaining)
      pure collected) := rfl

variable {cmd : OrderSubmitCommand}

theorem matchSubmit_limit {price : ℚ} (ht : order.type = .LIMIT) (hp : order.price = some price) :
    (matchSubmit market order cmd rates : Act E (List Trade)) = (do
      let res ← bookAdd cmd.symbol order.id (sideToEngine order.side) price order.leaveQty
      let trades ← settleTrades market order rates cmd.commandId 0 res.trades
      let _ ← onStore (updateOrderAfterMatch order.id res.leaveQuantity order.quantity)
      pure trades) := by
  unfold matchSubmit matchSubmitWith
  rw [ht, hp]
  rfl

theorem matchSubmit_priceless (ht : order.type = .LIMIT) (hp : order.price = none) :
    (matchSubmit market order cmd rates : Act E (List Trade)) =
      Tx.fail (.badRequest "limit order missing price") := by
  unfold matchSubmit matchSubmitWith
  rw [ht, hp]

theorem matchSubmit_market (ht : order.type = .MARKET) :
    (matchSubmit market order cmd rates : Act E (List Trade)) =
      executeMarketOrder cmd.symbol market order rates cmd.commandId := by
  unfold matchSubmit matchSubmitWith
  rw [ht]
  rfl

theorem submitBody_eq : (submitBody market order cmd : Act E (Order × List Trade)) = (do
    let trades ← matchSubmit market order cmd
      ⟨feeRate market.makerFeeBp, feeRate market.takerFeeBp⟩
    let persisted ← onStore (Stm.orderFindOrThrow order.id)
    publishSubmitEvents persisted trades cmd.symbol
    pure (persisted, trades)) := rfl

end Equations

/-- What `settleCancel` gives back of the reservation. -/
def releaseReservation (market : Market) (order : Order) : Stm Unit :=
  if 0 < order.leaveQty then
    match order.side, order.price with
    | .BID, some price =>
      Stm.walletUpdate order.userId market.quoteAsset (price * order.leaveQty)
        (-(price * order.leaveQty))
    | .BID, none => pure ()
    | .ASK, _ =>
      Stm.walletUpdate order.userId market.baseAsset order.leaveQty (-order.leaveQty)
  else pure ()

/-- The body of the transaction of `settleCancel`. -/
def cancelBody (market : Market) (order : Order) : Act E Order := do
  bookCancel order.market order.id
  onStore (releaseReservation market order)
  let persisted ← onStore (Stm.orderUpdate order.id fun o => { o with status := .CANCELLED })
  publishCancelEvents persisted
  pure persisted

/-- `settleCancel`: `none` when the command is skipped. -/
def settleCancel (cmd : OrderCancelCommand) : Act E (Option Order) := do
  let some order ← onStore (Stm.orderFind cmd.orderId) | pure none
  if order.terminal then pure (some order)
  else do
    let some market ← onStore (Stm.marketFind order.market) | pure none
    getEngine order.market
    let updated ← transaction (cancelBody market order)
    pure (some updated)

end Settler

end Orbit
