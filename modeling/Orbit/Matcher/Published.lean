import Orbit.Matcher.CommandSpecs
import Orbit.Store.Outbox

/-!
# What a command publishes

The contents of the outbox rows that a committed command adds, up to what is drawn from sequences
and at random: `dispatch_submit_published` for a `SUBMIT`, one `ORDER_ADDED` event with the row as
it ends, the events of every trade, and a snapshot of the book; `dispatch_cancel_published` for a
`CANCEL`. Before they publish, the two leave the outbox alone (`appends_matchSubmit`,
`appends_releaseReservation`), and whatever happens they add no command (`appends_dispatch`).
-/

namespace Orbit

namespace Settler

open Tx

variable {E : Engine} {α β : Type} {P : OutboxEvent → Prop}

/-! ## Contents -/

/-- The event of an order row. -/
def orderContent (type : OrderEventType) (order : Order) (key : String) (u : Uuid) (ts : ℕ) :
    Topic × String × Payload :=
  (.ORDERS, key, .order (orderEvent type order (.random u) ts))

/-- The event of a trade and the two notifications, with the event id that `matchId` gives. -/
def tradeContents (symbol : String) (ts : ℕ) (t : Trade) (matchId : MatchId) :
    List (Topic × String × Payload) :=
  [(.TRADES, symbol, .trade
      { eventId := .trade matchId, id := t.id, sequence := t.sequence, market := symbol
        price := t.price, quantity := t.quantity, makerOrderId := t.makerOrderId
        takerOrderId := t.takerOrderId, makerUserId := t.makerUserId, takerUserId := t.takerUserId
        makerSide := t.makerSide, takerSide := t.takerSide, ts := t.createdAt }),
    (.USER_EVENTS, t.takerUserId, .user
      { eventId := .taker matchId, userId := t.takerUserId, type := .ORDER_FILLED
        orderId := t.takerOrderId, market := symbol, price := some t.price
        quantity := some t.quantity, ts }),
    (.USER_EVENTS, t.makerUserId, .user
      { eventId := .maker matchId, userId := t.makerUserId, type := .ORDER_FILLED
        orderId := t.makerOrderId, market := symbol, price := some t.price
        quantity := some t.quantity, ts })]

/-- The events of settled trades, all of which have a `matchId`. -/
def tradesContents (symbol : String) (ts : ℕ) (rows : List Trade) :
    List (Topic × String × Payload) :=
  rows.flatMap fun t => (t.matchId.map (tradeContents symbol ts t)).getD []

def snapshotContent (symbol : String) (ob : Snapshot) (u : Uuid) (seq ts : ℕ) :
    Topic × String × Payload :=
  (.ORDERBOOK, symbol, .orderbook
    { eventId := .random u, market := symbol, seq, asks := ob.asks, bids := ob.bids, ts })

/-- The user event of a cancelled order. -/
def cancelledContent (order : Order) (u : Uuid) (ts : ℕ) : Topic × String × Payload :=
  (.USER_EVENTS, order.userId, .user
    { eventId := .random u, userId := order.userId, type := .ORDER_CANCELLED, orderId := order.id
      market := order.market, price := none, quantity := none, ts })

/-- The snapshot of a book. -/
def snapshotOf (q : Queues) : Snapshot :=
  ⟨snapshotLevels bookLimit q.asks, snapshotLevels bookLimit q.bids⟩

/-- What a committed `SUBMIT` publishes of the row as it ends, its trades and the book. -/
def submitContents (persisted : Order) (rows : List Trade) (symbol : String) (q : Queues)
    (v w : Uuid) (seq ts : ℕ) : List (Topic × String × Payload) :=
  orderContent .ORDER_ADDED persisted symbol v ts ::
    (tradesContents symbol ts rows ++ [snapshotContent symbol (snapshotOf q) w seq ts])

/-- What a committed `CANCEL` publishes. -/
def cancelContents (persisted : Order) (q : Queues) (v v' w : Uuid) (seq ts : ℕ) :
    List (Topic × String × Payload) :=
  [orderContent .ORDER_CANCELLED persisted persisted.market v ts, cancelledContent persisted v' ts,
    snapshotContent persisted.market (snapshotOf q) w seq ts]

/-- Rows with the contents `ps` were added to the outbox. -/
def Adds (db db' : Db) (ps : List (Topic × String × Payload)) : Prop :=
  ∃ out : List OutboxEvent, db'.outbox = db.outbox ++ out ∧ out.map (·.content) = ps

section Read

variable {γ : Type} {f : Topic × String × Payload → Option γ}

theorem Adds.read {db db' : Db} {ps : List (Topic × String × Payload)} (h : Adds db db' ps) {n : ℕ}
    (hn : n ≤ db.outbox.length) : db'.read n f = db.read n f ++ ps.filterMap f := by
  obtain ⟨out, e, rfl⟩ := h
  rw [Db.read, e, List.drop_append_of_le_length hn, List.map_append, List.filterMap_append]
  rfl

/-- Commands are not read. -/
theorem read_of_commands {s s' : Store} (h : Store.Appended OutboxEvent.IsCommand s s') {n : ℕ}
    (hn : n ≤ s.db.outbox.length) (hf : ∀ key cmd, f (.ORDER_COMMANDS, key, .command cmd) = none) :
    s'.db.read n f = s.db.read n f := by
  obtain ⟨rows, e, hrows, -⟩ := h.rows
  have hadds : Adds s.db s'.db (rows.map (·.content)) := ⟨rows, e, rfl⟩
  rw [hadds.read hn, List.append_right_eq_self, List.filterMap_eq_nil_iff]
  intro c hc
  obtain ⟨x, hx, rfl⟩ := List.mem_map.mp hc
  obtain ⟨htopic, cmd, hcmd⟩ := hrows x hx
  rw [OutboxEvent.content, htopic, hcmd]
  exact hf _ cmd

/-- The events of trades are read trade by trade. -/
theorem filterMap_tradesContents (symbol : String) (ts : ℕ) (rows : List Trade) :
    (tradesContents symbol ts rows).filterMap f = rows.flatMap fun t =>
      (t.matchId.map fun matchId => (tradeContents symbol ts t matchId).filterMap f).getD [] := by
  unfold tradesContents
  rw [List.filterMap_flatMap]
  refine List.flatMap_congr fun t _ => ?_
  cases t.matchId <;> rfl

theorem filterMap_tradesContents_eq_nil (symbol : String) (ts : ℕ) (rows : List Trade)
    (hf : ∀ t matchId, (tradeContents symbol ts t matchId).filterMap f = []) :
    (tradesContents symbol ts rows).filterMap f = [] := by
  rw [filterMap_tradesContents, List.flatMap_eq_nil_iff]
  intro t _
  cases t.matchId with
  | none => rfl
  | some matchId => exact hf t matchId

end Read

/-! ## What publishes nothing, and no command -/

/-- Every run of `x`, failed or not, at most adds outbox rows that satisfy `P`. -/
abbrev Appends (P : OutboxEvent → Prop) (x : Act E α) : Prop :=
  Keeps (fun m m' => Store.Appended P m.store m'.store) x

theorem Appends.pure (a : α) : Appends P (Pure.pure a : Act E α) := Keeps.pure (fun _ => .refl _) a

theorem Appends.fail (e : Failure) : Appends P (Tx.fail e : Act E α) :=
    Keeps.fail (fun _ => .refl _) e

theorem Appends.bind {x : Act E α} {f : α → Act E β} (hx : Appends P x)
    (hf : ∀ a, Appends P (f a)) :
    Appends P (x >>= f) :=
  Keeps.bind (fun h₁ h₂ => h₁.trans h₂) hx hf

theorem appends_onStore {x : Stm α} (hx : Stm.Appends P x) : Appends P (onStore x : Act E α) :=
  fun m => hx m.store

theorem appends_getEngine (symbol : String) : Appends P (getEngine symbol : Act E Unit) :=
  fun _ => .refl _

theorem appends_bookAdd (symbol : String) (id : ℕ) (side : PriceTime.Side) (price qty : ℚ) :
    Appends P (bookAdd symbol id side price qty : Act E AddResult) := by
  intro m
  unfold bookAdd
  split <;> exact .refl _

theorem appends_bookCancel (symbol : String) (id : ℕ) :
    Appends P (bookCancel symbol id : Act E Unit) := by
  intro m
  unfold bookCancel
  split <;> exact .refl _

theorem appends_getOrderbook (symbol : String) : Appends P (getOrderbook symbol : Act E Snapshot) :=
  fun _ => .refl _

theorem appends_settleMaker (market : Market) (maker : Order) (price qty rate : ℚ) :
    Stm.Appends P (settleMaker market maker price qty rate) := by
  unfold settleMaker settleMakerWith
  split
  · exact (Stm.appends_walletUpdate _ _ _ _).bind fun _ => Stm.appends_walletUpsert _ _ _
  · split
    · exact .fail _
    · exact (Stm.appends_walletUpdate _ _ _ _).bind fun _ => Stm.appends_walletUpsert _ _ _

theorem appends_settleTaker (market : Market) (taker : Order) (price qty rate : ℚ) :
    Stm.Appends P (settleTaker market taker price qty rate) := by
  unfold settleTaker settleTakerWith
  split
  · dsimp only
    split <;> exact (Stm.appends_walletUpdate _ _ _ _).bind fun _ => Stm.appends_walletUpsert _ _ _
  · exact (Stm.appends_walletUpdate _ _ _ _).bind fun _ => Stm.appends_walletUpsert _ _ _

theorem appends_settleTrade (market : Market) (taker : Order) (rates : FeeRates) (matchId : MatchId)
    (t : EngineTrade) : Appends P (settleTrade market taker rates matchId t : Act E Trade) :=
  (appends_onStore (Stm.appends_orderFindOrThrow _)).bind fun _ =>
    Appends.bind (fun _ => .refl _) fun _ =>
      appends_onStore <| (Stm.appends_tradeCreate _).bind fun _ =>
        (appends_settleMaker _ _ _ _ _).bind fun _ => (appends_settleTaker _ _ _ _ _).bind fun _ =>
          (Stm.appends_orderUpdate _ _).bind fun _ => .pure _

theorem appends_settleTrades (market : Market) (taker : Order) (rates : FeeRates) (commandId : Uuid)
    (idx : ℕ) (ts : List EngineTrade) :
    Appends P (settleTrades market taker rates commandId idx ts : Act E (List Trade)) := by
  induction ts generalizing idx with
  | nil => exact .pure _
  | cons t ts ih =>
    exact (appends_settleTrade _ _ _ _ _).bind fun _ => (ih _).bind fun _ => .pure _

theorem appends_sweepLevels (symbol : String) (market : Market) (order : Order) (rates : FeeRates)
    (commandId : Uuid) (counter idx : ℕ) (remaining : ℚ) (lvls : List BookLevel) :
    Appends P (sweepLevels symbol market order rates commandId counter idx remaining lvls :
      Act E (List Trade × ℚ)) := by
  induction lvls generalizing counter idx remaining with
  | nil => exact .pure _
  | cons lvl lvls ih =>
    rw [sweepLevels_cons]
    split
    · exact .pure _
    refine (appends_bookAdd _ _ _ _ _).bind fun sweep =>
      (appends_settleTrades _ _ _ _ _ _).bind fun _ => ?_
    dsimp only
    split
    · exact (appends_bookCancel _ _).bind fun _ => (ih _ _ _).bind fun _ => .pure _
    · exact (ih _ _ _).bind fun _ => .pure _

theorem appends_settleResidual (market : Market) (order : Order) (remaining : ℚ) :
    Stm.Appends P (settleResidual market order remaining) := by
  unfold settleResidual
  dsimp only
  split
  · exact (Stm.appends_walletUpdate _ _ _ _).bind fun _ =>
      (Stm.appends_orderUpdate _ _).bind fun _ => .pure _
  · exact (Stm.appends_orderUpdate _ _).bind fun _ => .pure _

/-- The matching of a submit publishes nothing. -/
theorem appends_matchSubmit (market : Market) (order : Order) (cmd : OrderSubmitCommand)
    (rates : FeeRates) : Appends P (matchSubmit market order cmd rates : Act E (List Trade)) := by
  unfold matchSubmit matchSubmitWith
  split
  · exact .fail _
  · exact (appends_bookAdd _ _ _ _ _).bind fun _ => (appends_settleTrades _ _ _ _ _ _).bind fun _ =>
      (appends_onStore (Stm.appends_orderUpdate _ _)).bind fun _ => .pure _
  · refine (appends_getOrderbook _).bind fun _ =>
      (appends_sweepLevels _ _ _ _ _ _ _ _ _).bind fun x =>
      (appends_onStore (Stm.appends_orderUpdate _ _)).bind fun _ => ?_
    dsimp only
    split
    · exact (appends_onStore (appends_settleResidual _ _ _)).bind fun _ => .pure _
    · exact .pure _

theorem appends_releaseReservation (market : Market) (order : Order) :
    Stm.Appends P (releaseReservation market order) := by
  unfold releaseReservation
  split
  · split
    · exact Stm.appends_walletUpdate _ _ _ _
    · exact .pure _
    · exact Stm.appends_walletUpdate _ _ _ _
  · exact .pure _

theorem appends_publishTrade (symbol : String) (t : Trade) :
    Stm.Appends OutboxEvent.IsEvent (publishTrade symbol t) := by
  have hid : Stm.Appends OutboxEvent.IsEvent (tradeEventId t) := by
    unfold tradeEventId
    split
    · exact .pure _
    · exact Stm.appends_randomUUID.bind fun _ => .pure _
  exact hid.bind fun _ => (Stm.appends_publish fun _ => by simp [OutboxEvent.IsEvent]).bind fun _ =>
    Stm.appends_dateNow.bind fun _ => (Stm.appends_publish fun _ =>
      by simp [OutboxEvent.IsEvent]).bind
      fun _ => Stm.appends_publish fun _ => by simp [OutboxEvent.IsEvent]

theorem appends_publishTrades (symbol : String) (ts : List Trade) :
    Stm.Appends OutboxEvent.IsEvent (publishTrades symbol ts) := by
  induction ts with
  | nil => exact .pure _
  | cons t ts ih => exact (appends_publishTrade symbol t).bind fun _ => ih

theorem appends_publishSnapshot (symbol : String) :
    Appends OutboxEvent.IsEvent (publishSnapshot symbol : Act E Unit) :=
  (appends_getOrderbook symbol).bind fun _ => (appends_onStore Stm.appends_randomUUID).bind fun _ =>
    Appends.bind (fun _ => .refl _) fun _ => (appends_onStore Stm.appends_dateNow).bind fun _ =>
      appends_onStore (Stm.appends_publish fun _ => by simp [OutboxEvent.IsEvent])

theorem appends_publishSubmitEvents (order : Order) (trades : List Trade) (symbol : String) :
    Appends OutboxEvent.IsEvent (publishSubmitEvents order trades symbol : Act E Unit) :=
  (appends_onStore <| Stm.appends_randomUUID.bind fun _ => Stm.appends_dateNow.bind fun _ =>
    (Stm.appends_publish fun _ => by simp [OutboxEvent.IsEvent]).bind fun _ =>
      appends_publishTrades _ _).bind fun _ => appends_publishSnapshot _

theorem appends_publishCancelEvents (order : Order) :
    Appends OutboxEvent.IsEvent (publishCancelEvents order : Act E Unit) :=
  (appends_onStore <| Stm.appends_randomUUID.bind fun _ => Stm.appends_dateNow.bind fun _ =>
    (Stm.appends_publish fun _ => by simp [OutboxEvent.IsEvent]).bind fun _ =>
      Stm.appends_randomUUID.bind fun _ => Stm.appends_dateNow.bind fun _ =>
        Stm.appends_publish fun _ => by simp [OutboxEvent.IsEvent]).bind fun _ =>
          appends_publishSnapshot _

/-! ## What a command does to the outbox -/

/-- A relation that holds where the outbox is left alone, and across sequences and rollbacks. -/
structure OutboxRelation (R : Store → Store → Prop) : Prop where
  silent : ∀ {s s'}, Store.Appended (fun _ => False) s s' → R s s'
  trans : ∀ {s₁ s₂ s₃}, R s₁ s₂ → R s₂ s₃ → R s₁ s₃
  rollback : ∀ {s s'}, R s s' → R s (Stm.rollback s s')

theorem outboxRelation_appended (P : OutboxEvent → Prop) : OutboxRelation (Store.Appended P) :=
  ⟨fun h => h.imp fun _ => False.elim, .trans, .rollback⟩

/-- Every run of `x`, failed or not, relates the stores by `R`. -/
abbrev Relates (R : Store → Store → Prop) (x : Act E α) : Prop :=
    Keeps (fun m m' => R m.store m'.store) x

section Relates

variable {R : Store → Store → Prop} (hR : OutboxRelation R)

include hR

theorem Relates.of_silent {x : Act E α} (hx : Appends (fun _ => False) x) : Relates R x :=
  fun m => hR.silent (hx m)

theorem Relates.pure (a : α) : Relates R (Pure.pure a : Act E α) := .of_silent hR (.pure a)

theorem Relates.bind {x : Act E α} {f : α → Act E β} (hx : Relates R x)
    (hf : ∀ a, Relates R (f a)) :
    Relates R (x >>= f) :=
  Keeps.bind (R := fun m m' : Matcher E => R m.store m'.store) hR.trans hx hf

theorem Relates.transaction {x : Act E α} (hx : Relates R x) : Relates R (transaction x) := by
  intro m
  have hstmt : Relates R (onStore Stm.stmt : Act E Unit) :=
    .of_silent hR (appends_onStore Stm.appends_stmt)
  have hbody : Relates R (onStore Stm.stmt >>= fun _ => x >>= fun a => onStore Stm.stmt >>= fun _ =>
      Pure.pure a) :=
    .bind hR hstmt fun _ => .bind hR hx fun _ => .bind hR hstmt fun _ => .pure hR _
  rcases h : (onStore Stm.stmt >>= fun _ => x >>=
    fun a => onStore Stm.stmt >>= fun _ => Pure.pure a) m
    with ⟨e | a, m'⟩
  · rw [Settler.transaction, Tx.transaction_apply_error h]
    exact hR.rollback (hbody.of_eq h)
  · rw [Settler.transaction, Tx.transaction_eq_ok.mpr h]
    exact hbody.of_eq h

theorem relates_settleSubmit (cmd : OrderSubmitCommand)
    (hpublish : ∀ order trades symbol,
      Relates R (publishSubmitEvents order trades symbol : Act E Unit)) :
    Relates R (settleSubmit cmd : Act E (Option (Order × List Trade))) := by
  have hbody : ∀ market order, Relates R (submitBody market order cmd : Act E
      (Order × List Trade)) :=
    fun market order => .bind hR (.of_silent hR (appends_matchSubmit _ _ _ _)) fun _ =>
      .bind hR (.of_silent hR (appends_onStore (Stm.appends_orderFindOrThrow _))) fun _ =>
        .bind hR (hpublish _ _ _) fun _ => .pure hR _
  refine .bind hR (.of_silent hR (appends_onStore (Stm.appends_query _))) fun market? => ?_
  cases market? with
  | none => exact .pure hR _
  | some market =>
    refine .bind hR (.of_silent hR (appends_onStore (Stm.appends_query _))) fun order? => ?_
    cases order? with
    | none => exact .pure hR _
    | some order =>
      dsimp only
      split
      · exact .pure hR _
      split
      · exact .pure hR _
      exact .bind hR (.of_silent hR (appends_getEngine _)) fun _ =>
        .bind hR (.transaction hR (hbody market order)) fun _ => .pure hR _

theorem relates_settleCancel (cmd : OrderCancelCommand)
    (hpublish : ∀ order, Relates R (publishCancelEvents order : Act E Unit)) :
    Relates R (settleCancel cmd : Act E (Option Order)) := by
  have hbody : ∀ market order, Relates R (cancelBody market order : Act E Order) :=
    fun market order => .bind hR (.of_silent hR (appends_bookCancel _ _)) fun _ =>
      .bind hR (.of_silent hR (appends_onStore (appends_releaseReservation _ _))) fun _ =>
        .bind hR (.of_silent hR (appends_onStore (Stm.appends_orderUpdate _ _))) fun _ =>
          .bind hR (hpublish _) fun _ => .pure hR _
  refine .bind hR (.of_silent hR (appends_onStore (Stm.appends_query _))) fun order? => ?_
  cases order? with
  | none => exact .pure hR _
  | some order =>
    dsimp only
    split
    · exact .pure hR _
    refine .bind hR (.of_silent hR (appends_onStore (Stm.appends_query _))) fun market? => ?_
    cases market? with
    | none => exact .pure hR _
    | some market =>
      exact .bind hR (.of_silent hR (appends_getEngine _)) fun _ =>
        .bind hR (.transaction hR (hbody market order)) fun _ => .pure hR _

/-- **What the publishers do is what a command does.** -/
theorem relates_dispatch (cmd : OrderCommand)
    (hsubmit : ∀ order trades symbol,
      Relates R (publishSubmitEvents order trades symbol : Act E Unit))
    (hcancel : ∀ order, Relates R (publishCancelEvents order : Act E Unit)) :
    Relates R (Consumer.dispatch cmd : Act E Consumer.Result) := by
  cases cmd with
  | SUBMIT cmd =>
    refine .bind hR (relates_settleSubmit hR cmd hsubmit) fun r => ?_
    cases r with
    | none => exact .pure hR _
    | some r => exact .bind hR (.of_silent hR (appends_getEngine _)) fun _ => .pure hR _
  | CANCEL cmd =>
    refine .bind hR (relates_settleCancel hR cmd hcancel) fun r => ?_
    cases r with
    | none => exact .pure hR _
    | some r => exact .bind hR (.of_silent hR (appends_getEngine _)) fun _ => .pure hR _

end Relates

/-- **A command publishes no command.** -/
theorem appends_dispatch (cmd : OrderCommand) :
    Appends OutboxEvent.IsEvent (Consumer.dispatch cmd : Act E Consumer.Result) :=
  relates_dispatch (outboxRelation_appended _) cmd appends_publishSubmitEvents
    appends_publishCancelEvents

/-! ## The rows of a matching -/

/-- Rows with match ids were appended to the trades. -/
def Traded (m m' : Matcher E) (rows : List Trade) : Prop :=
  m'.db.trades = m.db.trades ++ rows ∧ ∀ t ∈ rows, t.matchId.isSome

theorem Traded.trans {m₁ m₂ m₃ : Matcher E} {rows rows' : List Trade} (h₁ : Traded m₁ m₂ rows)
    (h₂ : Traded m₂ m₃ rows') : Traded m₁ m₃ (rows ++ rows') := by
  refine ⟨by rw [h₂.1, h₁.1, List.append_assoc], fun t ht => ?_⟩
  rcases List.mem_append.mp ht with ht | ht
  · exact h₁.2 t ht
  · exact h₂.2 t ht

theorem Traded.of_eq {m m' : Matcher E} (h : m'.db.trades = m.db.trades) : Traded m m' [] :=
  ⟨by rw [h, List.append_nil], fun _ ht => absurd ht List.not_mem_nil⟩

theorem traded_settleTrades {market : Market} {taker : Order} {rates : FeeRates} {commandId : Uuid}
    {idx : ℕ} {ts : List EngineTrade} {rows : List Trade} {m m' : Matcher E}
    (h : settleTrades market taker rates commandId idx ts m = (.ok rows, m')) : Traded m m' rows :=
  ⟨(settleTrades_eq_ok h).trades, (settleTrades_eq_ok h).matchId_isSome⟩

theorem store_bookAdd {symbol : String} {id : ℕ} {side : PriceTime.Side} {price qty : ℚ}
    {r : AddResult} {m m' : Matcher E} (h : bookAdd symbol id side price qty m = (.ok r, m')) :
    m'.store = m.store := by
  unfold bookAdd at h
  split at h
  · rw [← (Prod.mk.inj h).2]
    rfl
  · cases (Prod.mk.inj h).1

theorem store_bookCancel {symbol : String} {id : ℕ} {u : Unit} {m m' : Matcher E}
    (h : bookCancel symbol id m = (.ok u, m')) : m'.store = m.store := by
  unfold bookCancel at h
  split at h
  · rw [← (Prod.mk.inj h).2]
    rfl
  · rw [← (Prod.mk.inj h).2]

theorem traded_sweepLevels {symbol : String} {market : Market} {order : Order} {rates : FeeRates}
    {commandId : Uuid} {counter idx : ℕ} {remaining rest : ℚ} {lvls : List BookLevel}
    {rows : List Trade} {m m' : Matcher E}
    (h : sweepLevels symbol market order rates commandId counter idx remaining lvls m =
      (.ok (rows, rest), m')) : Traded m m' rows := by
  induction lvls generalizing counter idx remaining rows m with
  | nil =>
    obtain ⟨e, rfl⟩ := Tx.pure_eq_ok.mp h
    obtain ⟨rfl, -⟩ := Prod.mk.inj e
    exact .of_eq rfl
  | cons lvl lvls ih =>
    rw [sweepLevels_cons] at h
    split at h
    · obtain ⟨e, rfl⟩ := Tx.pure_eq_ok.mp h
      obtain ⟨rfl, -⟩ := Prod.mk.inj e
      exact .of_eq rfl
    obtain ⟨sweep, m₁, h₁, h⟩ := Tx.bind_eq_ok.mp h
    obtain ⟨fills, m₂, h₂, h⟩ := Tx.bind_eq_ok.mp h
    have hadd : Traded m m₁ [] := .of_eq (by rw [Matcher.db, store_bookAdd h₁]; rfl)
    have htrades := traded_settleTrades h₂
    have hrest : ∀ m₃, m₃.store = m₂.store →
        (sweepLevels symbol market order rates commandId (counter + 1) (idx + sweep.trades.length)
          (remaining - min lvl.quantity remaining) lvls >>= fun x => pure (fills ++ x.1, x.2)) m₃ =
          (.ok (rows, rest), m') → Traded m m' rows := by
      intro m₃ hm₃ h
      obtain ⟨⟨collected, rest'⟩, m₄, h₄, h⟩ := Tx.bind_eq_ok.mp h
      obtain ⟨e, rfl⟩ := Tx.pure_eq_ok.mp h
      obtain ⟨rfl, rfl⟩ := Prod.mk.inj e
      have hbook : Traded m₂ m₃ [] := .of_eq (by rw [Matcher.db, hm₃]; rfl)
      have := ((hadd.trans htrades).trans hbook).trans (ih h₄)
      rwa [List.nil_append, List.append_nil] at this
    dsimp only at h
    split at h
    · obtain ⟨u, m₃, h₃, h⟩ := Tx.bind_eq_ok.mp h
      exact hrest m₃ (store_bookCancel h₃) h
    · exact hrest m₂ rfl h

/-- **The rows that a matching returns** are those it creates. -/
theorem traded_matchSubmit {market : Market} {order : Order} {cmd : OrderSubmitCommand}
    {rates : FeeRates} {rows : List Trade} {m m' : Matcher E}
    (h : matchSubmit market order cmd rates m = (.ok rows, m')) : Traded m m' rows := by
  have hupdate : ∀ {id : ℕ} {leave q : ℚ} {o : Order} {m m' : Matcher E},
      onStore (updateOrderAfterMatch id leave q) m = (.ok o, m') → Traded m m' [] := by
    intro id leave q o m m' h
    obtain ⟨s, hs, rfl⟩ := onStore_eq_ok h
    exact .of_eq (Stm.orderUpdate_tables (orderAfterMatch_id _ _) hs).2.2.1
  cases ht : order.type with
  | LIMIT =>
    cases hp : order.price with
    | none => simp [matchSubmit_priceless ht hp] at h
    | some price =>
      rw [matchSubmit_limit ht hp] at h
      obtain ⟨res, m₁, h₁, h⟩ := Tx.bind_eq_ok.mp h
      obtain ⟨rows', m₂, h₂, h⟩ := Tx.bind_eq_ok.mp h
      obtain ⟨o, m₃, h₃, h⟩ := Tx.bind_eq_ok.mp h
      obtain ⟨rfl, rfl⟩ := Tx.pure_eq_ok.mp h
      have hadd : Traded m m₁ [] := .of_eq (by rw [Matcher.db, store_bookAdd h₁]; rfl)
      have := (hadd.trans (traded_settleTrades h₂)).trans (hupdate h₃)
      rwa [List.nil_append, List.append_nil] at this
  | MARKET =>
    rw [matchSubmit_market ht, executeMarketOrder_eq] at h
    obtain ⟨snapshot, m₁, h₁, h⟩ := Tx.bind_eq_ok.mp h
    obtain ⟨-, rfl⟩ := Prod.mk.inj h₁
    obtain ⟨⟨collected, remaining⟩, m₂, h₂, h⟩ := Tx.bind_eq_ok.mp h
    obtain ⟨o, m₃, h₃, h⟩ := Tx.bind_eq_ok.mp h
    have hswept := traded_sweepLevels h₂
    by_cases hrem : 0 < remaining
    · simp only [hrem, if_true] at h
      obtain ⟨u, m₄, h₄, h⟩ := Tx.bind_eq_ok.mp h
      obtain ⟨rfl, rfl⟩ := Tx.pure_eq_ok.mp h
      obtain ⟨s₃, hs₃, rfl⟩ := onStore_eq_ok h₃
      obtain ⟨s₄, hs₄, rfl⟩ := onStore_eq_ok h₄
      obtain ⟨-, htrades, -⟩ := finishMarket_eq_ok hs₃ ⟨fun _ => hs₄, fun hn => absurd hrem hn⟩
      have hfinish : Traded m₂ { m₂ with store := s₄ } [] := .of_eq htrades
      have := hswept.trans hfinish
      rwa [List.append_nil] at this
    · simp only [hrem, if_false] at h
      obtain ⟨rfl, rfl⟩ := Tx.pure_eq_ok.mp h
      have := hswept.trans (hupdate h₃)
      rwa [List.append_nil] at this

/-! ## The publishers -/

theorem publishTrade_published {symbol : String} {t : Trade} {matchId : MatchId}
    (ht : t.matchId = some matchId) {u : Unit} {s s' : Store}
    (h : publishTrade symbol t s = (.ok u, s')) :
    s.Published s' (tradeContents symbol s.now t matchId) ∧ s'.now = s.now := by
  have hnow := ((emits_publishTrade symbol t).of_eq h).now
  simp only [publishTrade, tradeEventId, ht, notificationIds] at h
  obtain ⟨eventId, s₀, h₀, h⟩ := Tx.bind_eq_ok.mp h
  obtain ⟨rfl, rfl⟩ := Tx.pure_eq_ok.mp h₀
  obtain ⟨_, s₁, h₁, h⟩ := Tx.bind_eq_ok.mp h
  obtain ⟨ts, s₂, h₂, h⟩ := Tx.bind_eq_ok.mp h
  obtain ⟨e, rfl⟩ := Prod.mk.inj h₂
  obtain rfl := Except.ok.inj e
  obtain ⟨_, s₃, h₃, h⟩ := Tx.bind_eq_ok.mp h
  rw [((Stm.emits_publish (by decide) _ _).of_eq h₁).now] at h₃ h
  exact ⟨((Stm.publish_published h₁).trans (Stm.publish_published h₃)).trans
    (Stm.publish_published h), hnow⟩

theorem publishTrades_published {symbol : String} {rows : List Trade}
    (hrows : ∀ t ∈ rows, t.matchId.isSome) {u : Unit} {s s' : Store}
    (h : publishTrades symbol rows s = (.ok u, s')) :
    s.Published s' (tradesContents symbol s.now rows) ∧ s'.now = s.now := by
  induction rows generalizing s with
  | nil =>
    obtain ⟨-, rfl⟩ := Tx.pure_eq_ok.mp h
    exact ⟨.of_db rfl, rfl⟩
  | cons t rows ih =>
    obtain ⟨_, s₁, h₁, h⟩ := Tx.bind_eq_ok.mp h
    obtain ⟨matchId, hm⟩ := Option.isSome_iff_exists.mp (hrows t (by simp))
    obtain ⟨hpub, hnow⟩ := publishTrade_published hm h₁
    obtain ⟨hrest, hnow'⟩ := ih (fun x hx => hrows x (by simp [hx])) h
    rw [hnow] at hrest
    refine ⟨?_, hnow'.trans hnow⟩
    have := hpub.trans hrest
    simpa only [tradesContents, List.flatMap_cons, hm, Option.map_some, Option.getD_some] using this

/-- The snapshot shows the book as it is. -/
theorem publishSnapshot_published {symbol : String} {u : Unit} {m m' : Matcher E}
    (h : publishSnapshot symbol m = (.ok u, m')) :
    ∃ v, m.store.Published m'.store
      [snapshotContent symbol (E.getOrderbook (m.book symbol)) v
      (m.orderbookSeq + 1) m.store.now] := by
  obtain ⟨ob, m₁, h₁, h⟩ := Tx.bind_eq_ok.mp h
  obtain ⟨e, rfl⟩ := Prod.mk.inj h₁
  obtain rfl := Except.ok.inj e
  obtain ⟨v, m₂, h₂, h⟩ := Tx.bind_eq_ok.mp h
  obtain ⟨s₂, hs₂, rfl⟩ := onStore_eq_ok h₂
  obtain ⟨-, rfl⟩ := Prod.mk.inj hs₂
  obtain ⟨seq, m₃, h₃, h⟩ := Tx.bind_eq_ok.mp h
  obtain ⟨e, rfl⟩ := Prod.mk.inj h₃
  obtain rfl := Except.ok.inj e
  obtain ⟨ts, m₄, h₄, h⟩ := Tx.bind_eq_ok.mp h
  obtain ⟨s₄, hs₄, rfl⟩ := onStore_eq_ok h₄
  obtain ⟨e, rfl⟩ := Prod.mk.inj hs₄
  obtain rfl := Except.ok.inj e
  obtain ⟨s₅, hs₅, rfl⟩ := onStore_eq_ok h
  exact ⟨v, (Stm.publish_published hs₅).congr rfl⟩

theorem publishSubmitEvents_published {order : Order} {rows : List Trade} {symbol : String}
    (hrows : ∀ t ∈ rows, t.matchId.isSome) {u : Unit} {m m' : Matcher E}
    (h : publishSubmitEvents order rows symbol m = (.ok u, m')) :
    ∃ v w, m.store.Published m'.store
      (orderContent .ORDER_ADDED order symbol v m.store.now ::
        (tradesContents symbol m.store.now rows ++
          [snapshotContent symbol (E.getOrderbook (m.book symbol)) w (m.orderbookSeq + 1)
            m.store.now])) := by
  obtain ⟨_, m₁, h₁, h⟩ := Tx.bind_eq_ok.mp h
  obtain ⟨s₁, hs, rfl⟩ := onStore_eq_ok h₁
  obtain ⟨v, s₂, hs₂, hs⟩ := Tx.bind_eq_ok.mp hs
  obtain ⟨-, rfl⟩ := Prod.mk.inj hs₂
  obtain ⟨ts, s₃, hs₃, hs⟩ := Tx.bind_eq_ok.mp hs
  obtain ⟨e, rfl⟩ := Prod.mk.inj hs₃
  obtain rfl := Except.ok.inj e
  obtain ⟨_, s₄, hs₄, hs⟩ := Tx.bind_eq_ok.mp hs
  have hnow := ((Stm.emits_publish (by decide) _ _).of_eq hs₄).now
  obtain ⟨htrades, hnow'⟩ := publishTrades_published hrows hs
  obtain ⟨w, hsnap⟩ := publishSnapshot_published h
  rw [hnow] at htrades hnow'
  simp only at hsnap hnow'
  rw [hnow'] at hsnap
  exact ⟨v, w, (((Stm.publish_published hs₄).congr rfl).trans htrades).trans hsnap⟩

theorem publishCancelEvents_published {order : Order} {u : Unit} {m m' : Matcher E}
    (h : publishCancelEvents order m = (.ok u, m')) :
    ∃ v v' w, m.store.Published m'.store
      [orderContent .ORDER_CANCELLED order order.market v m.store.now,
        cancelledContent order v' m.store.now,
        snapshotContent order.market (E.getOrderbook (m.book order.market)) w (m.orderbookSeq + 1)
          m.store.now] := by
  obtain ⟨_, m₁, h₁, h⟩ := Tx.bind_eq_ok.mp h
  obtain ⟨s₁, hs, rfl⟩ := onStore_eq_ok h₁
  obtain ⟨v, s₂, hs₂, hs⟩ := Tx.bind_eq_ok.mp hs
  obtain ⟨-, rfl⟩ := Prod.mk.inj hs₂
  obtain ⟨ts, s₃, hs₃, hs⟩ := Tx.bind_eq_ok.mp hs
  obtain ⟨e, rfl⟩ := Prod.mk.inj hs₃
  obtain rfl := Except.ok.inj e
  obtain ⟨_, s₄, hs₄, hs⟩ := Tx.bind_eq_ok.mp hs
  have hnow := ((Stm.emits_publish (by decide) _ _).of_eq hs₄).now
  obtain ⟨v', s₅, hs₅, hs⟩ := Tx.bind_eq_ok.mp hs
  obtain ⟨-, rfl⟩ := Prod.mk.inj hs₅
  obtain ⟨ts', s₆, hs₆, hs⟩ := Tx.bind_eq_ok.mp hs
  obtain ⟨e, rfl⟩ := Prod.mk.inj hs₆
  obtain rfl := Except.ok.inj e
  have hnow' := ((Stm.emits_publish (by decide) _ _).of_eq hs).now
  obtain ⟨w, hsnap⟩ := publishSnapshot_published h
  simp only at hnow hnow' hsnap hs
  rw [hnow', hnow] at hsnap
  rw [hnow] at hs
  exact ⟨v, v', w, (((Stm.publish_published hs₄).congr rfl).trans
    ((Stm.publish_published hs).congr rfl)).trans hsnap⟩

/-! ## What draws no number -/

section Unnumbered

/-- No run of `x`, failed or not, draws a number for a snapshot. -/
abbrev Unnumbered (x : Act E α) : Prop := Keeps (fun m m' => m'.orderbookSeq = m.orderbookSeq) x

theorem Unnumbered.pure (a : α) : Unnumbered (Pure.pure a : Act E α) :=
  fun _ => rfl

theorem Unnumbered.bind {x : Act E α} {f : α → Act E β} (hx : Unnumbered x)
    (hf : ∀ a, Unnumbered (f a)) : Unnumbered (x >>= f) :=
  Keeps.bind (fun h₁ h₂ => h₂.trans h₁) hx hf

theorem unnumbered_onStore (x : Stm α) : Unnumbered (onStore x : Act E α) := fun _ => rfl

theorem unnumbered_bookAdd (symbol : String) (id : ℕ) (side : PriceTime.Side) (price qty : ℚ) :
    Unnumbered (bookAdd symbol id side price qty : Act E AddResult) := by
  intro m
  unfold bookAdd
  split <;> rfl

theorem unnumbered_bookCancel (symbol : String) (id : ℕ) :
    Unnumbered (bookCancel symbol id : Act E Unit) := by
  intro m
  unfold bookCancel
  split <;> rfl

theorem unnumbered_settleTrades (market : Market) (taker : Order)
    (rates : FeeRates) (commandId : Uuid)
    (idx : ℕ) (ts : List EngineTrade) :
    Unnumbered (settleTrades market taker rates commandId idx ts : Act E (List Trade)) := by
  induction ts generalizing idx with
  | nil => exact .pure _
  | cons t ts ih =>
    have hsequence : Unnumbered (nextSequence : Act E ℕ) := fun _ => rfl
    have htrade : Unnumbered (settleTrade market taker rates ⟨commandId, idx⟩ t : Act E Trade) :=
      (unnumbered_onStore _).bind fun _ => hsequence.bind fun _ => unnumbered_onStore _
    exact htrade.bind fun _ => (ih _).bind fun _ => .pure _

theorem unnumbered_sweepLevels (symbol : String) (market : Market)
    (order : Order) (rates : FeeRates)
    (commandId : Uuid) (counter idx : ℕ) (remaining : ℚ) (lvls : List BookLevel) :
    Unnumbered (sweepLevels symbol market order rates commandId counter idx remaining lvls :
      Act E (List Trade × ℚ)) := by
  induction lvls generalizing counter idx remaining with
  | nil => exact .pure _
  | cons lvl lvls ih =>
    rw [sweepLevels_cons]
    split
    · exact .pure _
    refine (unnumbered_bookAdd _ _ _ _ _).bind fun sweep =>
      (unnumbered_settleTrades _ _ _ _ _ _).bind fun _ => ?_
    dsimp only
    split
    · exact (unnumbered_bookCancel _ _).bind fun _ => (ih _ _ _).bind fun _ => .pure _
    · exact (ih _ _ _).bind fun _ => .pure _

/-- The matching of a submit draws no number. -/
theorem unnumbered_matchSubmit (market : Market) (order : Order) (cmd : OrderSubmitCommand)
    (rates : FeeRates) : Unnumbered (matchSubmit market order cmd rates : Act E (List Trade)) := by
  unfold matchSubmit matchSubmitWith
  split
  · exact fun _ => rfl
  · exact (unnumbered_bookAdd _ _ _ _ _).bind fun _ =>
      (unnumbered_settleTrades _ _ _ _ _ _).bind fun _ =>
        (unnumbered_onStore _).bind fun _ => .pure _
  · have hbook : Unnumbered (getOrderbook cmd.symbol : Act E Snapshot) := fun _ => rfl
    refine hbook.bind fun _ => (unnumbered_sweepLevels _ _ _ _ _ _ _ _ _).bind fun x =>
      (unnumbered_onStore _).bind fun _ => ?_
    dsimp only
    split
    · exact (unnumbered_onStore _).bind fun _ => .pure _
    · exact .pure _

end Unnumbered

/-! ## Commands -/

section Commands

variable {market : Market} {order persisted : Order} {cmd : OrderSubmitCommand} {rows : List Trade}
  {m m' : Matcher E}

/-- **What the body of a `SUBMIT` publishes.** -/
theorem submitBody_published (h : submitBody market order cmd m = (.ok (persisted, rows), m')) :
    m'.db.order? order.id = some persisted ∧ Traded m m' rows ∧ ∃ v w ts, Adds m.db m'.db
      (submitContents persisted rows cmd.symbol (m'.queues cmd.symbol) v w
      (m.orderbookSeq + 1) ts) := by
  obtain ⟨rows', m₁, h₁, h⟩ := Tx.bind_eq_ok.mp h
  obtain ⟨o, m₂, h₂, h⟩ := Tx.bind_eq_ok.mp h
  obtain ⟨_, m₃, h₃, h⟩ := Tx.bind_eq_ok.mp h
  obtain ⟨e, rfl⟩ := Tx.pure_eq_ok.mp h
  obtain ⟨rfl, rfl⟩ := Prod.mk.inj e
  have hsilent := ((appends_matchSubmit (P := fun _ => False) _ _ _ _).of_eq h₁).outbox_eq
  have hrows := traded_matchSubmit h₁
  have hseq := (unnumbered_matchSubmit _ _ _ _).of_eq h₁
  obtain ⟨s₂, hfind, rfl⟩ := onStore_eq_ok h₂
  obtain ⟨ho, fl, rfl⟩ := Stm.orderFindOrThrow_eq_ok hfind
  have hbooks := ((emits_publishSubmitEvents _ _ _).of_eq h₃).books
  obtain ⟨v, w, out, hdb, hout⟩ := publishSubmitEvents_published hrows.2 h₃
  rw [E.getOrderbook_eq, show E.resting _ = m₃.queues cmd.symbol from
    (Matcher.queues_congr hbooks cmd.symbol).symm] at hout
  rw [hseq] at hout
  refine ⟨?_, ⟨?_, hrows.2⟩, v, w, _, out, ?_, hout⟩
  · rw [Matcher.db, hdb]
    exact ho
  · rw [Matcher.db, hdb]
    exact hrows.1
  · rw [Matcher.db, hdb]
    exact congrArg (· ++ out) hsilent

/-- **What the body of a `CANCEL` publishes.** -/
theorem cancelBody_published (h : cancelBody market order m = (.ok persisted, m')) :
    m'.db.order? order.id = some persisted ∧ ∃ v v' w ts, Adds m.db m'.db
      (cancelContents persisted (m'.queues persisted.market) v v' w (m.orderbookSeq + 1) ts) := by
  obtain ⟨_, m₁, h₁, h⟩ := Tx.bind_eq_ok.mp h
  obtain ⟨_, m₂, h₂, h⟩ := Tx.bind_eq_ok.mp h
  obtain ⟨o, m₃, h₃, h⟩ := Tx.bind_eq_ok.mp h
  obtain ⟨_, m₄, h₄, h⟩ := Tx.bind_eq_ok.mp h
  obtain ⟨rfl, rfl⟩ := Tx.pure_eq_ok.mp h
  have hsilent : m₃.db.outbox = m.db.outbox := by
    have hrelease : m₂.db.outbox = m₁.db.outbox :=
      ((appends_onStore (appends_releaseReservation (P := fun _ => False) _ _)).of_eq h₂).outbox_eq
    have hupdate : m₃.db.outbox = m₂.db.outbox :=
      ((appends_onStore (Stm.appends_orderUpdate (P := fun _ => False) _ _)).of_eq h₃).outbox_eq
    rw [hupdate, hrelease, Matcher.db, store_bookCancel h₁]
    rfl
  have hseq : m₃.orderbookSeq = m.orderbookSeq := ((unnumbered_onStore _).of_eq h₃).trans
    (((unnumbered_onStore _).of_eq h₂).trans ((unnumbered_bookCancel _ _).of_eq h₁))
  obtain ⟨s₃, hs₃, rfl⟩ := onStore_eq_ok h₃
  obtain ⟨o₂, fl, ho₂, rfl, rfl⟩ := Stm.orderUpdate_eq_ok (by intro o; rfl) hs₃
  have hbooks := ((emits_publishCancelEvents _).of_eq h₄).books
  obtain ⟨v, v', w, out, hdb, hout⟩ := publishCancelEvents_published h₄
  rw [E.getOrderbook_eq, show E.resting _ = m₄.queues o₂.market from
    (Matcher.queues_congr hbooks o₂.market).symm] at hout
  rw [hseq] at hout
  refine ⟨?_, v, v', w, _, out, ?_, hout⟩
  · rw [Matcher.db, hdb]
    have hfind := Table.find?_modify_self (k := order.id)
      (f := fun o : Order => { o with status := .CANCELLED }) (fun _ => rfl) m₂.store.db.orders
    exact hfind.trans (congrArg _ ho₂)
  · rw [Matcher.db, hdb]
    exact congrArg (· ++ out) hsilent

end Commands

end Settler

namespace Consumer

open Settler

variable {E : Engine} {m m' : Matcher E}

/-- A committed `SUBMIT`, from its command. -/
theorem dispatch_submit_published {cmd : OrderSubmitCommand} {r : Except Failure Result}
    (h : dispatch (.SUBMIT cmd) m = (r, m')) : (r ≠ .ok .ok ∧ m'.db = m.db) ∨ r = .ok .ok ∧
    ∃ order persisted rows, m.db.order? cmd.orderId = some order ∧
      m'.db.order? order.id = some persisted ∧ Traded m m' rows ∧
      ∃ v w ts, Adds m.db m'.db
        (submitContents persisted rows cmd.symbol (m'.queues cmd.symbol) v w
        (m.orderbookSeq + 1) ts) := by
  rcases hs : settleSubmit cmd m with ⟨r₁, m₁⟩
  rw [dispatch_submit_of_settle hs] at h
  rcases settleSubmit_cases hs with ⟨n, -, -, rfl, f, rfl⟩ | ⟨rfl, ⟨f, rfl⟩, -⟩ |
    ⟨market, order, f, -, horder, -, -, -, -, htx⟩
  · obtain ⟨rfl, rfl⟩ := Prod.mk.inj h
    exact .inl ⟨by simp, rfl⟩
  · obtain ⟨rfl, rfl⟩ := Prod.mk.inj h
    exact .inl ⟨by simp, rfl⟩
  have hsame := same_transaction m f cmd.symbol
  have hseq : ((m.withFaults f).setBook cmd.symbol (m.book cmd.symbol)).orderbookSeq =
    m.orderbookSeq := rfl
  generalize (m.withFaults f).setBook cmd.symbol (m.book cmd.symbol) = m₀ at hsame hseq htx
  rcases ht : transaction (submitBody market order cmd) m₀ with ⟨r₂, m₂⟩
  have hsame₀ := hsame.trans (m₀.same_withFaults (m₀.store.faults.map Nat.pred))
  rcases transaction_cases ht with ⟨-, rfl, rfl⟩
    | ⟨-, ⟨e, rfl, rfl⟩ | ⟨⟨persisted, rows⟩, m₃, f, rfl,
    hbody, rfl⟩⟩
  · rw [Tx.bind_apply_error ht, Prod.mk.injEq] at htx
    obtain ⟨rfl, rfl⟩ := htx
    obtain ⟨rfl, rfl⟩ := Prod.mk.inj h
    exact .inl ⟨by simp, hsame.db⟩
  · rw [Tx.bind_apply_error ht, Prod.mk.injEq] at htx
    obtain ⟨rfl, rfl⟩ := htx
    obtain ⟨rfl, rfl⟩ := Prod.mk.inj h
    exact .inl ⟨by simp, hsame.db⟩
  · rw [Tx.bind_apply_ok ht, Tx.pure_apply, Prod.mk.injEq] at htx
    obtain ⟨rfl, rfl⟩ := htx
    obtain ⟨rfl, rfl⟩ := Prod.mk.inj h
    obtain ⟨ho, htraded, v, w, ts, hadds⟩ := submitBody_published hbody
    have hafter := (m₃.same_withFaults f).trans (Matcher.same_setBook_book _ cmd.symbol)
    refine .inr ⟨rfl, order, persisted, rows, horder, ?_, ?_, v, w, ts, ?_⟩
    · rw [hafter.db]
      exact ho
    · unfold Traded at htraded ⊢
      rwa [hafter.db, ← hsame₀.db]
    · unfold Adds at hadds ⊢
      rw [hafter.db, ← hsame₀.db, hafter.queues, ← hseq]
      exact hadds

/-- A committed `CANCEL`, from its command. -/
theorem dispatch_cancel_published {cmd : OrderCancelCommand} {r : Except Failure Result}
    (h : dispatch (.CANCEL cmd) m = (r, m')) : m'.db = m.db ∨ r = .ok .ok ∧
    ∃ order persisted, m.db.order? cmd.orderId = some order ∧
      m'.db.order? order.id = some persisted ∧ ∃ v v' w ts, Adds m.db m'.db
        (cancelContents persisted (m'.queues persisted.market) v v' w (m.orderbookSeq + 1) ts) := by
  rcases hs : settleCancel cmd m with ⟨r₁, m₁⟩
  rw [dispatch_cancel_of_settle hs] at h
  rcases settleCancel_cases hs with ⟨n, -, -, rfl, f, rfl⟩ |
    ⟨⟨f, rfl⟩, ⟨rfl, -⟩ | ⟨order, -, ⟨rfl, -⟩ | ⟨rfl, -⟩⟩⟩ |
    ⟨market, order, f, horder, -, -, -, -, htx⟩
  · obtain ⟨rfl, rfl⟩ := Prod.mk.inj h
    exact .inl rfl
  · obtain ⟨rfl, rfl⟩ := Prod.mk.inj h
    exact .inl rfl
  · obtain ⟨rfl, rfl⟩ := Prod.mk.inj h
    exact .inl rfl
  · obtain ⟨rfl, rfl⟩ := Prod.mk.inj h
    exact .inl rfl
  have hsame := same_transaction m f order.market
  have hseq : ((m.withFaults f).setBook order.market (m.book order.market)).orderbookSeq =
    m.orderbookSeq := rfl
  generalize (m.withFaults f).setBook order.market (m.book order.market) = m₀ at hsame hseq htx
  rcases ht : transaction (cancelBody market order) m₀ with ⟨r₂, m₂⟩
  have hsame₀ := hsame.trans (m₀.same_withFaults (m₀.store.faults.map Nat.pred))
  rcases transaction_cases ht with ⟨-, rfl, rfl⟩
    | ⟨-, ⟨e, rfl, rfl⟩ | ⟨persisted, m₃, f, rfl, hbody, rfl⟩⟩
  · rw [Tx.bind_apply_error ht, Prod.mk.injEq] at htx
    obtain ⟨rfl, rfl⟩ := htx
    obtain ⟨rfl, rfl⟩ := Prod.mk.inj h
    exact .inl hsame.db
  · rw [Tx.bind_apply_error ht, Prod.mk.injEq] at htx
    obtain ⟨rfl, rfl⟩ := htx
    obtain ⟨rfl, rfl⟩ := Prod.mk.inj h
    exact .inl hsame.db
  · rw [Tx.bind_apply_ok ht, Tx.pure_apply, Prod.mk.injEq] at htx
    obtain ⟨rfl, rfl⟩ := htx
    obtain ⟨rfl, rfl⟩ := Prod.mk.inj h
    obtain ⟨ho, v, v', w, ts, hadds⟩ := cancelBody_published hbody
    have hafter := (m₃.same_withFaults f).trans (Matcher.same_setBook_book _ cmd.symbol)
    refine .inr ⟨rfl, order, persisted, horder, ?_, v, v', w, ts, ?_⟩
    · rw [hafter.db]
      exact ho
    · unfold Adds at hadds ⊢
      rw [hafter.db, ← hsame₀.db, hafter.queues, ← hseq]
      exact hadds

end Consumer

end Orbit
