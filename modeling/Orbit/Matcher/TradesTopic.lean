import Orbit.Matcher.EventIds

/-!
# What is published of the trades

Every row of the table of trades was published when it was written: the `TRADE` event on the topic
of the trades, keyed by its market, and a notification for each of its parties, keyed by the user.
`TradeMessage` is what an outbox row says of a trade, whatever its topic, without the time at which
it says so.

* `filterMap_submitContents_messages`: a committed `SUBMIT` publishes the messages of its trades,
  and no others.
* `run_tradesPublished`, `trades_topic`: in every reachable state the messages of the outbox, in the
  order of its ids, are those of the rows of the table, row by row.
-/

namespace Orbit

open PriceTime Settler Consumer

/-! ## Messages -/

/-- What an outbox row says of a trade: the trade itself, or that an order of a user was filled. -/
inductive TradeMessage
  | trade (topic : Topic) (key : String) (evt : TradeEvent)
  | filled (topic : Topic) (key : String) (eventId : EventId) (userId : String) (orderId : ℕ)
      (market : String) (price quantity : Option ℚ)
  deriving DecidableEq, Repr

/-- The message that a row of the outbox holds, on any topic, if it is about a trade. -/
def tradeMessageOf : Topic × String × Payload → Option TradeMessage
  | (topic, key, .trade evt) => some (.trade topic key evt)
  | (topic, key, .user evt) =>
    match evt.type with
    | .ORDER_FILLED => some
        (.filled topic key evt.eventId evt.userId evt.orderId evt.market evt.price evt.quantity)
    | .ORDER_CANCELLED => none
  | (_, _, .command _) | (_, _, .order _) | (_, _, .orderbook _) => none

/-- The `TRADE` event of a row of the table. -/
def Trade.event (t : Trade) (matchId : MatchId) : TradeEvent :=
  { eventId := .trade matchId, id := t.id, sequence := t.sequence, market := t.market
    price := t.price, quantity := t.quantity, makerOrderId := t.makerOrderId
    takerOrderId := t.takerOrderId, makerUserId := t.makerUserId, takerUserId := t.takerUserId
    makerSide := t.makerSide, takerSide := t.takerSide, ts := t.createdAt }

/-- The messages of a row of the table: the trade, and what its taker and its maker are told. -/
def Trade.messages (t : Trade) : List TradeMessage :=
  match t.matchId with
  | none => []
  | some matchId =>
    [.trade .TRADES t.market (t.event matchId),
      .filled .USER_EVENTS t.takerUserId (.taker matchId) t.takerUserId t.takerOrderId t.market
        (some t.price) (some t.quantity),
      .filled .USER_EVENTS t.makerUserId (.maker matchId) t.makerUserId t.makerOrderId t.market
        (some t.price) (some t.quantity)]

/-- The messages about trades in the outbox, in the order of its rows. -/
def Db.tradeMessages (db : Db) : List TradeMessage := db.read 0 tradeMessageOf

/-- The outbox says of the trades what the table does. -/
def Db.TradesPublished (db : Db) : Prop := db.tradeMessages = db.trades.flatMap Trade.messages

theorem filterMap_tradeContents_messages {symbol : String} {t : Trade} {matchId : MatchId} (ts : ℕ)
    (hm : t.market = symbol) (hid : t.matchId = some matchId) :
    (tradeContents symbol ts t matchId).filterMap tradeMessageOf = t.messages := by
  subst hm
  rw [Trade.messages, hid]
  rfl

/-- **A `SUBMIT` publishes its trades**, and no others. -/
theorem filterMap_submitContents_messages {rows : List Trade} {symbol : String}
    (hm : ∀ t ∈ rows, t.market = symbol) (hid : ∀ t ∈ rows, t.matchId.isSome) (o : Order)
    (q : Queues) (v w : Uuid) (seq ts : ℕ) :
    (submitContents o rows symbol q v w seq ts).filterMap tradeMessageOf =
      rows.flatMap Trade.messages := by
  have hrows : (tradesContents symbol ts rows).filterMap tradeMessageOf =
      rows.flatMap Trade.messages := by
    rw [filterMap_tradesContents]
    refine List.flatMap_congr fun t ht => ?_
    obtain ⟨matchId, e⟩ := Option.isSome_iff_exists.mp (hid t ht)
    rw [e, Option.map_some, Option.getD_some, filterMap_tradeContents_messages ts (hm t ht) e]
  have horder : tradeMessageOf (orderContent .ORDER_ADDED o symbol v ts) = none := rfl
  have hsnap : tradeMessageOf (snapshotContent symbol (snapshotOf q) w seq ts) = none := rfl
  rw [submitContents, List.filterMap_cons_none horder, List.filterMap_append, hrows,
    List.filterMap_cons_none hsnap, List.filterMap_nil, List.append_nil]

/-- A `CANCEL` says nothing of a trade. -/
theorem filterMap_cancelContents_messages (o : Order) (q : Queues) (v v' w : Uuid) (seq ts : ℕ) :
    (cancelContents o q v v' w seq ts).filterMap tradeMessageOf = [] := rfl

/-! ## Steps -/

variable {E : Engine} {m m' : Matcher E}

/-- The trades of a command are of its market. -/
theorem Settler.Settles.market_eq {market : Market} {order : Order} {rates : FeeRates}
    {commandId : Uuid} {idx : ℕ} {db db' : Db} {ts : List EngineTrade} {rows : List Trade}
    (h : Settles market order rates commandId idx db ts rows db') :
    ∀ t ∈ rows, t.market = market.symbol := by
  induction h with
  | nil => exact fun t ht => absurd ht List.not_mem_nil
  | cons maker hf _ ih =>
    intro t ht
    rcases List.mem_cons.mp ht with rfl | ht
    · rw [hf.hrow]
    · exact ih t ht

/-- The rows that a committed `SUBMIT` adds are of its market. -/
theorem traded_market (hs : Safe m) {cmd : OrderSubmitCommand}
    (hcmd : OrderCommand.SUBMIT cmd ∈ m.db.commands) (h : SubmitOutcome cmd m (.ok .ok) m')
    {rows : List Trade} (hrows : Traded m m' rows) : ∀ t ∈ rows, t.market = cmd.symbol := by
  obtain ⟨market, order, finish, fs, rest, release, q, hb, hc, hsub⟩ :=
    submit_crossing hs.sound hs.backed hcmd h
  obtain ⟨rows', db₁, hset, -, htrades, -⟩ := hsub.settled
  have hsame : rows' = rows :=
    List.append_cancel_left ((hset.trades.symm.trans htrades.symm).trans hrows.1)
  have hsymbol : market.symbol = cmd.symbol := Table.key_of_find? hb.hmarket
  rw [← hsame, ← hsymbol]
  exact hset.market_eq

theorem submit_tradesPublished (hs : Safe m) {cmd : OrderSubmitCommand}
    (hcmd : OrderCommand.SUBMIT cmd ∈ m.db.commands) {r : Except Failure Result}
    (hd : dispatch (.SUBMIT cmd) m = (r, m')) (h : m.db.TradesPublished) :
    m'.db.TradesPublished := by
  have hout := dispatch_submit_of_sound hs.sound hd
  rcases dispatch_submit_published hd with ⟨-, hdb⟩ |
    ⟨rfl, order, persisted, rows, -, -, hrows, v, w, ts, hadds⟩
  · rwa [hdb]
  · have hread := hadds.read (f := tradeMessageOf) (Nat.zero_le _)
    rw [filterMap_submitContents_messages (traded_market hs hcmd hout hrows) hrows.2] at hread
    show m'.db.read 0 tradeMessageOf = m'.db.trades.flatMap Trade.messages
    rw [hread, hrows.1, List.flatMap_append]
    exact congrArg (· ++ _) h

theorem cancel_tradesPublished {cmd : OrderCancelCommand} {r : Except Failure Result}
    (hd : dispatch (.CANCEL cmd) m = (r, m')) (h : m.db.TradesPublished) :
    m'.db.TradesPublished := by
  have htrades := (dispatch_cancel hd).trades
  rcases dispatch_cancel_published hd with hdb |
    ⟨-, order, persisted, -, -, v, v', w, ts, hadds⟩
  · rwa [hdb]
  · have hread := hadds.read (f := tradeMessageOf) (Nat.zero_le _)
    rw [filterMap_cancelContents_messages, List.append_nil] at hread
    show m'.db.read 0 tradeMessageOf = m'.db.trades.flatMap Trade.messages
    rw [hread, htrades]
    exact h

/-- A step that delivers nothing leaves the trades and what was said of them alone. -/
theorem step_trades (m : Matcher E) {l : Step} (hno : ∀ cmd faults, l ≠ .deliver cmd faults) :
    (m.step l).db.trades = m.db.trades := by
  by_cases hr : l = .restart
  · subst hr
    rfl
  · exact (step_effect m l.adjusts_any hno hr).1.trades

/-! ## Runs -/

theorem run_tradesPublished (h : m.Initial) (steps : List Step) :
    (m.run steps).db.TradesPublished := by
  refine run_dispatches (I := Db.TradesPublished) h ?_
    (fun hs hcmd hd hI => submit_tradesPublished hs hcmd hd hI)
    (fun _ _ hd hI => cancel_tradesPublished hd hI) (fun {m l} _ hno hI => ?_) steps
  · show m.db.read 0 tradeMessageOf = m.db.trades.flatMap Trade.messages
    rw [Db.read, h.outbox, h.trades]
    rfl
  · have hread := read_of_commands (f := tradeMessageOf) (step_appends m hno) (Nat.zero_le _)
      fun _ _ => rfl
    show (m.step l).db.read 0 tradeMessageOf = (m.step l).db.trades.flatMap Trade.messages
    rw [step_trades m hno]
    exact hread.trans hI

/-- **The trades are published exactly.** In every reachable state the outbox, read in the order of
its increasing ids, says of the trades what the table does, row by row: one `TRADE` event with the
columns of the row, keyed by its market, then the notification of its taker and that of its maker,
each keyed by the user. No row is left out, and nothing else is said of a trade on any topic. -/
theorem trades_topic (h : m.Initial) (steps : List Step) :
    (m.run steps).db.tradeMessages = (m.run steps).db.trades.flatMap Trade.messages ∧
    (∀ t ∈ (m.run steps).db.trades, ∃ matchId, t.matchId = some matchId) ∧
    ((m.run steps).db.outbox.map (·.id)).Pairwise (· < ·) := by
  refine ⟨run_tradesPublished h steps, fun t ht => ?_, ?_⟩
  · exact Option.isSome_iff_exists.mp ((run_numbered h steps).isSome t ht)
  · have h0 : m.store.OutboxSorted := by
      constructor
      · rw [show m.store.db.outbox = [] from h.outbox]
        exact List.Pairwise.nil
      · rw [show m.store.db.outbox = [] from h.outbox]
        exact fun e he => absurd he List.not_mem_nil
    exact ((run_appended m steps).sorted h0).increasing

/-- The one trade of `alice` and `bob` is published with both notifications. -/
theorem trades_topic_trading : Sample.exchange.Initial ∧
    (Sample.exchange.run Sample.trading).db.tradeMessages =
      (Sample.exchange.run Sample.trading).db.trades.flatMap Trade.messages ∧
    (Sample.exchange.run Sample.trading).db.tradeMessages.length = 3 :=
  ⟨Sample.exchange_initial, (trades_topic Sample.exchange_initial Sample.trading).1,
    by decide +kernel⟩

end Orbit
