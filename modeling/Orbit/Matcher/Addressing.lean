import Orbit.Api.Acceptance
import Orbit.Matcher.Executions
import Orbit.Matcher.TradesTopic

/-!
# Who is told what

The outbox is keyed: commands and market events by their market, which is the lane they are
processed in, and user events by their user, whose clients they are forwarded to. `Addressed` says
of a row that its topic is the one of its payload, that its key is right, and that what it says of
an order is about the row of that order: its user, its market, its side, its price.

* `submit_addressed`, `CancelRequested.addressed`: the commands of the api and the admin pages.
* `submitContents_addressed`, `cancelContents_addressed`: what settling publishes.
* `outbox_addressed`: so it is with every row, in every reachable state. Nobody is told about an
  order of another user.
-/

namespace Orbit

open PriceTime Settler Consumer

/-! ## Rows that are addressed -/

/-- The command that submits an order. -/
def Order.submitCommand (o : Order) (commandId : Uuid) (ts : ℕ) : OrderSubmitCommand :=
  { commandId, orderId := o.id, userId := o.userId, symbol := o.market, side := o.side
    ordType := o.type, price := o.price, quantity := o.quantity, ts }

/-- The event says of the order what is never rewritten of its row. -/
structure OrderEvent.About (evt : OrderEvent) (o : Order) : Prop where
  userId : evt.userId = o.userId
  market : evt.market = o.market
  side : evt.side = o.side
  orderType : evt.orderType = o.type
  price : evt.price = o.price
  quantity : evt.quantity = o.quantity

/-- The event says of a trade whose orders took part in it. -/
structure TradeEvent.About (evt : TradeEvent) (maker taker : Order) : Prop where
  makerUserId : evt.makerUserId = maker.userId
  takerUserId : evt.takerUserId = taker.userId
  makerSide : evt.makerSide = maker.side
  takerSide : evt.takerSide = taker.side
  makerMarket : maker.market = evt.market
  takerMarket : taker.market = evt.market
  price : maker.price = some evt.price

/-- **The row is on the topic of its payload, under the right key**, and what it says of an order is
about the row of that order. -/
inductive Addressed (db : Db) : Topic × String × Payload → Prop
  | submit (o : Order) (commandId : Uuid) (ts : ℕ) (ho : db.order? o.id = some o)
      (hid : o.commandId = some commandId) :
      Addressed db (.ORDER_COMMANDS, o.market, .command (.SUBMIT (o.submitCommand commandId ts)))
  | cancel (cmd : OrderCancelCommand) (o : Order) (ho : db.order? cmd.orderId = some o)
      (huser : cmd.userId = o.userId) (hsymbol : cmd.symbol = o.market) :
      Addressed db (.ORDER_COMMANDS, o.market, .command (.CANCEL cmd))
  | order (evt : OrderEvent) (o : Order) (ho : db.order? evt.orderId = some o) (h : evt.About o) :
      Addressed db (.ORDERS, evt.market, .order evt)
  | trade (evt : TradeEvent) (maker taker : Order) (hm : db.order? evt.makerOrderId = some maker)
      (ht : db.order? evt.takerOrderId = some taker) (h : evt.About maker taker) :
      Addressed db (.TRADES, evt.market, .trade evt)
  | user (evt : UserEvent) (o : Order) (ho : db.order? evt.orderId = some o)
      (huser : evt.userId = o.userId) (hmarket : evt.market = o.market) :
      Addressed db (.USER_EVENTS, evt.userId, .user evt)
  | orderbook (evt : OrderbookEvent) : Addressed db (.ORDERBOOK, evt.market, .orderbook evt)

theorem Addressed.of_user {db : Db} {key : String} {evt : UserEvent} {o : Order}
    (hkey : key = evt.userId) (ho : db.order? evt.orderId = some o) (huser : evt.userId = o.userId)
    (hmarket : evt.market = o.market) : Addressed db (.USER_EVENTS, key, .user evt) :=
  hkey ▸ .user evt o ho huser hmarket

/-- Every row keeps its fixed columns. -/
def Db.KeepsRows (db db' : Db) : Prop :=
  ∀ id o, db.order? id = some o → ∃ o', db'.order? id = some o' ∧ o.Fixed o'

/-- **What is addressed stays so**: it is about columns that are never rewritten. -/
theorem Addressed.mono {db db' : Db} (hf : db.KeepsRows db') {c : Topic × String × Payload}
    (h : Addressed db c) : Addressed db' c := by
  cases h with
  | submit o commandId ts ho hid =>
    obtain ⟨o', ho', hfix⟩ := hf _ _ ho
    have hcmd : o.submitCommand commandId ts = o'.submitCommand commandId ts := by
      simp only [Order.submitCommand, hfix.id, hfix.userId, hfix.market, hfix.side, hfix.type,
        hfix.price, hfix.quantity]
    rw [hcmd, ← hfix.market]
    exact .submit o' commandId ts (by rw [hfix.id]; exact ho') (hfix.commandId.trans hid)
  | cancel cmd o ho huser hsymbol =>
    obtain ⟨o', ho', hfix⟩ := hf _ _ ho
    rw [← hfix.market]
    exact .cancel cmd o' ho' (huser.trans hfix.userId.symm) (hsymbol.trans hfix.market.symm)
  | order evt o ho h =>
    obtain ⟨o', ho', hfix⟩ := hf _ _ ho
    exact .order evt o' ho' ⟨h.userId.trans hfix.userId.symm, h.market.trans hfix.market.symm,
      h.side.trans hfix.side.symm, h.orderType.trans hfix.type.symm, h.price.trans hfix.price.symm,
      h.quantity.trans hfix.quantity.symm⟩
  | trade evt maker taker hm ht h =>
    obtain ⟨maker', hm', hfm⟩ := hf _ _ hm
    obtain ⟨taker', ht', hft⟩ := hf _ _ ht
    exact .trade evt maker' taker' hm' ht' ⟨h.makerUserId.trans hfm.userId.symm,
      h.takerUserId.trans hft.userId.symm, h.makerSide.trans hfm.side.symm,
      h.takerSide.trans hft.side.symm, hfm.market.trans h.makerMarket,
      hft.market.trans h.takerMarket, hfm.price.trans h.price⟩
  | user evt o ho huser hmarket =>
    obtain ⟨o', ho', hfix⟩ := hf _ _ ho
    exact .user evt o' ho' (huser.trans hfix.userId.symm) (hmarket.trans hfix.market.symm)
  | orderbook evt => exact .orderbook evt

/-- Every row of the outbox is addressed. -/
def Db.OutboxAddressed (db : Db) : Prop := ∀ e ∈ db.outbox, Addressed db e.content

theorem Db.OutboxAddressed.append {db db' : Db} {l : List OutboxEvent} (h : db.OutboxAddressed)
    (hf : db.KeepsRows db') (hout : db'.outbox = db.outbox ++ l)
    (hrows : ∀ e ∈ l, Addressed db' e.content) : db'.OutboxAddressed := by
  intro e he
  rw [hout, List.mem_append] at he
  rcases he with he | he
  · exact (h e he).mono hf
  · exact hrows e he

theorem Db.OutboxAddressed.adds {db db' : Db} {ps : List (Topic × String × Payload)}
    (h : db.OutboxAddressed) (hf : db.KeepsRows db') (hadds : Adds db db' ps)
    (hps : ∀ c ∈ ps, Addressed db' c) : db'.OutboxAddressed := by
  obtain ⟨out, hout, rfl⟩ := hadds
  exact h.append hf hout fun e he => hps _ (List.mem_map_of_mem he)

/-! ## Commands -/

/-- **The `SUBMIT` of a placed order** is the one of its row. -/
theorem submit_addressed {userId : String} {dto : CreateOrderDto} {s s' : Store}
    {r : Except Failure Order} (hs : s.Sound)
    (h : OrderService.submit userId dto s = (r, s')) (hout : s.db.OutboxAddressed) :
    s'.db.OutboxAddressed := by
  cases r with
  | error e => rwa [OrderService.submit_eq_error h]
  | ok o =>
    obtain ⟨market, cmd, hplaced⟩ := OrderService.submit_eq_ok h
    obtain ⟨market', -, hw⟩ := OrderService.submit_writes h
    refine hout.append (l := [OrderService.submitRow userId dto s]) (fun id x hx => ?_)
      (by rw [hw.db]) fun e he => ?_
    · exact ⟨x, hplaced.order?_of_some hx, .refl x⟩
    · obtain rfl := List.mem_singleton.mp he
      have ho : s'.db.order? o.id = some o := by rw [hplaced.order? hs, if_pos rfl]
      have hrow := Addressed.submit o ⟨s.uuids⟩ s.now ho (by rw [hw.order]; rfl)
      rw [hw.order] at hrow
      exact hrow

/-- **What a request to cancel writes**: the `CANCEL` `cmd` of the order `o`, in the name of its
owner. -/
structure CancelRequested (s s' : Store) (cmd : OrderCancelCommand) (o : Order) : Prop where
  order : s.db.order? o.id = some o
  live : o.terminal = false
  orderId : cmd.orderId = o.id
  userId : cmd.userId = o.userId
  symbol : cmd.symbol = o.market
  outbox : ∃ row : OutboxEvent,
    row.content = (.ORDER_COMMANDS, o.market, .command (.CANCEL cmd)) ∧
    s'.db = { s.db with outbox := s.db.outbox ++ [row] }

theorem CancelRequested.commands {s s' : Store} {cmd : OrderCancelCommand} {o : Order}
    (h : CancelRequested s s' cmd o) : s'.db.commands = s.db.commands ++ [.CANCEL cmd] := by
  obtain ⟨⟨id, topic, key, payload⟩, hrow, hdb⟩ := h.outbox
  obtain ⟨rfl, rfl, rfl⟩ : topic = .ORDER_COMMANDS ∧ key = o.market ∧
      payload = .command (.CANCEL cmd) := by
    simpa [OutboxEvent.content] using hrow
  rw [hdb, Db.commands, List.filterMap_append]
  rfl

theorem CancelRequested.orders {s s' : Store} {cmd : OrderCancelCommand} {o : Order}
    (h : CancelRequested s s' cmd o) : s'.db.orders = s.db.orders := by
  obtain ⟨row, -, hdb⟩ := h.outbox
  rw [hdb]

/-- Publishing a `CANCEL` of an order that was read. -/
theorem cancelRequested_of_publish {s s' : Store} {f : Option ℕ} {n ts : ℕ} {o : Order}
    {commandId : Uuid} {u : Unit} (ho : s.db.order? o.id = some o) (hlive : ¬o.terminal = true)
    (h : Stm.publish .ORDER_COMMANDS o.market (.command (.CANCEL
      { commandId, orderId := o.id, userId := o.userId, symbol := o.market, ts }))
      { s with uuids := n, faults := f } = (.ok u, s')) :
    CancelRequested s s' ⟨commandId, o.id, o.userId, o.market, ts⟩ o := by
  obtain ⟨fl, rfl⟩ := Stm.publish_eq_ok h
  exact ⟨ho, Bool.eq_false_iff.mpr hlive, rfl, rfl, rfl, _, rfl, rfl⟩

open Stm in
/-- **A `cancel` that returns** has published the `CANCEL` of the order, which is one of the
user's. -/
theorem OrderService.cancel_writes {userId : String} {orderId : ℕ} {s s' : Store} {o : Order}
    (h : OrderService.cancel userId orderId s = (.ok o, s')) :
    ∃ cmd, CancelRequested s s' cmd o ∧ o.id = orderId ∧ o.userId = userId := by
  obtain ⟨order?, s₁, h₁, h⟩ := Tx.bind_eq_ok.mp h
  obtain ⟨horder, f₁, rfl⟩ := query_eq_ok h₁
  cases order? with
  | none => cases h
  | some order =>
    dsimp only at h
    split at h
    · cases h
    rename_i huser
    split at h
    · cases h
    rename_i hlive
    obtain ⟨commandId, s₂, h₂, h⟩ := Tx.bind_eq_ok.mp h
    obtain ⟨-, rfl⟩ := Prod.mk.inj h₂
    obtain ⟨_, s₃, h₃, h⟩ := Tx.bind_eq_ok.mp h
    obtain ⟨f₃, s₄, f₄, hbody, rfl⟩ := Stm.transaction_eq_ok h₃
    obtain ⟨ts, s₅, h₅, hbody⟩ := Tx.bind_eq_ok.mp hbody
    obtain ⟨-, rfl⟩ := Prod.mk.inj h₅
    obtain ⟨rfl, rfl⟩ := Tx.pure_eq_ok.mp h
    obtain rfl : order.userId = userId := not_not.mp huser
    have hid : order.id = orderId := Db.order?_id horder.symm
    have hreq := cancelRequested_of_publish (s := s) (by rw [hid]; exact horder.symm) hlive hbody
    exact ⟨_, { hreq with }, hid, rfl⟩

/-- **`OrderService.cancel`** publishes the `CANCEL` of the order, if it is one of the user's, or
nothing. -/
theorem OrderService.cancel_requested {userId : String} {orderId : ℕ} {s s' : Store}
    {r : Except Failure Order} (h : OrderService.cancel userId orderId s = (r, s')) :
    s'.db = s.db ∨ ∃ cmd o, CancelRequested s s' cmd o ∧ o.id = orderId ∧ o.userId = userId := by
  cases r with
  | error e => exact .inl (OrderService.reverts_cancel userId orderId s e s' h)
  | ok o =>
    obtain ⟨cmd, hreq⟩ := OrderService.cancel_writes h
    exact .inr ⟨cmd, o, hreq⟩

open Stm in
/-- **`forceCancel`** publishes the `CANCEL` of the order in the name of its owner, or nothing. -/
theorem Admin.forceCancel_requested {orderId : ℕ} {s s' : Store} {r : Except Failure Unit}
    (h : Admin.forceCancel orderId s = (r, s')) :
    s'.db = s.db ∨ ∃ cmd o, CancelRequested s s' cmd o ∧ o.id = orderId := by
  cases r with
  | error e => exact .inl (Admin.reverts_forceCancel orderId s e s' h)
  | ok u =>
    obtain ⟨order?, s₁, h₁, h⟩ := Tx.bind_eq_ok.mp h
    obtain ⟨horder, f₁, rfl⟩ := query_eq_ok h₁
    cases order? with
    | none => cases h
    | some order =>
      dsimp only at h
      split at h
      · cases h
      rename_i hlive
      obtain ⟨commandId, s₂, h₂, h⟩ := Tx.bind_eq_ok.mp h
      obtain ⟨-, rfl⟩ := Prod.mk.inj h₂
      obtain ⟨ts, s₃, h₃, h⟩ := Tx.bind_eq_ok.mp h
      obtain ⟨-, rfl⟩ := Prod.mk.inj h₃
      obtain ⟨f₃, s₄, f₄, hbody, rfl⟩ := Stm.transaction_eq_ok h
      have hid : order.id = orderId := Db.order?_id horder.symm
      have hreq := cancelRequested_of_publish (s := s) (by rw [hid]; exact horder.symm) hlive hbody
      exact .inr ⟨_, order, { hreq with }, hid⟩

theorem CancelRequested.addressed {s s' : Store} {cmd : OrderCancelCommand} {o : Order}
    (h : CancelRequested s s' cmd o) (hout : s.db.OutboxAddressed) : s'.db.OutboxAddressed := by
  obtain ⟨row, hrow, hdb⟩ := h.outbox
  refine hout.append (l := [row]) (fun id x hx => ⟨x, by rwa [hdb], .refl x⟩) (by rw [hdb])
    fun e he => ?_
  obtain rfl := List.mem_singleton.mp he
  rw [hrow]
  exact .cancel cmd o (by rw [h.orderId, hdb]; exact h.order) h.userId h.symbol

/-! ## What settling publishes -/

variable {E : Engine} {m m' : Matcher E}

theorem snapshotContent_addressed (db : Db) (symbol : String) (ob : Snapshot) (u : Uuid)
    (seq ts : ℕ) : Addressed db (snapshotContent symbol ob u seq ts) :=
  .orderbook { eventId := .random u, market := symbol, seq, asks := ob.asks, bids := ob.bids, ts }

/-- **What a `SUBMIT` publishes is addressed**, when its row and its trades are. -/
theorem submitContents_addressed {db : Db} {o : Order} {rows : List Trade} {symbol : String}
    (ho : db.order? o.id = some o) (hsymbol : o.market = symbol)
    (hrows : ∀ t ∈ rows, t.market = symbol ∧ ∃ maker taker, db.order? t.makerOrderId = some maker ∧
      db.order? t.takerOrderId = some taker ∧ t.Executes maker taker) (q : Queues) (v w : Uuid)
    (seq ts : ℕ) : ∀ c ∈ submitContents o rows symbol q v w seq ts, Addressed db c := by
  subst hsymbol
  intro c hc
  rw [submitContents, List.mem_cons, List.mem_append, List.mem_singleton] at hc
  rcases hc with rfl | hc | rfl
  · exact .order (orderEvent .ORDER_ADDED o (.random v) ts) o ho ⟨rfl, rfl, rfl, rfl, rfl, rfl⟩
  · obtain ⟨t, ht, hc⟩ := List.mem_flatMap.mp hc
    obtain ⟨hmarket, maker, taker, hm, htk, he⟩ := hrows t ht
    cases hid : t.matchId with
    | none =>
      rw [hid] at hc
      cases hc
    | some matchId =>
      rw [hid, Option.map_some, Option.getD_some] at hc
      rw [← hmarket] at hc
      have htrade := Addressed.trade (t.event matchId) maker taker hm htk
        ⟨he.makerUserId, he.takerUserId, he.makerSide, he.takerSide, he.makerMarket,
          he.takerMarket, he.makerPrice⟩
      simp only [tradeContents, List.mem_cons, List.not_mem_nil, or_false] at hc
      rcases hc with rfl | rfl | rfl
      · exact htrade
      · exact .of_user rfl htk he.takerUserId he.takerMarket.symm
      · exact .of_user rfl hm he.makerUserId he.makerMarket.symm
  · exact snapshotContent_addressed _ _ _ _ _ _

/-- **What a `CANCEL` publishes is addressed**, when its row is. -/
theorem cancelContents_addressed {db : Db} {o : Order} (ho : db.order? o.id = some o) (q : Queues)
    (v v' w : Uuid) (seq ts : ℕ) : ∀ c ∈ cancelContents o q v v' w seq ts, Addressed db c := by
  intro c hc
  simp only [cancelContents, List.mem_cons, List.not_mem_nil, or_false] at hc
  rcases hc with rfl | rfl | rfl
  · exact .order (orderEvent .ORDER_CANCELLED o (.random v) ts) o ho ⟨rfl, rfl, rfl, rfl, rfl, rfl⟩
  · exact .of_user rfl ho rfl rfl
  · exact snapshotContent_addressed _ _ _ _ _ _

theorem dispatch_submit_addressed (hs : Safe m) {cmd : OrderSubmitCommand}
    (hcmd : OrderCommand.SUBMIT cmd ∈ m.db.commands) {r : Except Failure Result}
    (hd : dispatch (.SUBMIT cmd) m = (r, m')) (hx : m.db.Executed) (hout : m.db.OutboxAddressed) :
    m'.db.OutboxAddressed := by
  have ho := dispatch_submit_of_sound hs.sound hd
  rcases dispatch_submit_published hd with ⟨-, hdb⟩ |
    ⟨rfl, order, persisted, rows, horder, hpersisted, hrows, v, w, ts, hadds⟩
  · rwa [hdb]
  have hkeeps : m.db.KeepsRows m'.db := fun id x hx => submit_fixed hs hcmd ho hx
  have hexecuted := submit_executed hs hcmd ho hx
  have hid : persisted.id = order.id := Db.order?_id hpersisted
  obtain ⟨persisted', hp', hfix⟩ := hkeeps _ _ horder
  have hsame : persisted' = persisted := by
    rw [← Db.order?_id horder] at hp'
    exact Option.some.inj (hp'.symm.trans hpersisted)
  subst hsame
  refine hout.adds hkeeps hadds (submitContents_addressed (by rw [hid]; exact hpersisted) ?_
    (fun t ht => ⟨traded_market hs hcmd ho hrows t ht, hexecuted t ?_⟩) _ _ _ _ _)
  · obtain ⟨x, hx, hmarket, -⟩ := hs.sound.commands _ hcmd
    obtain rfl : x = order := Option.some.inj (hx.symm.trans horder)
    exact hfix.market.trans hmarket
  · rw [hrows.1]
    exact List.mem_append_right _ ht

theorem dispatch_cancel_addressed {cmd : OrderCancelCommand} {r : Except Failure Result}
    (hd : dispatch (.CANCEL cmd) m = (r, m')) (hout : m.db.OutboxAddressed) :
    m'.db.OutboxAddressed := by
  rcases dispatch_cancel_published hd with hdb |
    ⟨-, order, persisted, -, hpersisted, v, v', w, ts, hadds⟩
  · rwa [hdb]
  · have hid : persisted.id = order.id := Db.order?_id hpersisted
    exact hout.adds (fun id x hx => cancel_fixed (dispatch_cancel hd) hx) hadds
      (cancelContents_addressed (by rw [hid]; exact hpersisted) _ _ _ _ _ _)

/-! ## Runs -/

/-- Where neither the orders nor the outbox change. -/
theorem Db.OutboxAddressed.of_eq {db db' : Db} (h : db.OutboxAddressed)
    (hout : db'.outbox = db.outbox) (ho : db'.orders = db.orders) : db'.OutboxAddressed := by
  refine h.append (l := []) (fun id o hid => ⟨o, ?_, .refl o⟩) (by rw [hout, List.append_nil])
    fun e he => absurd he List.not_mem_nil
  rw [Db.order?_congr ho]
  exact hid

/-- A step that delivers nothing keeps the outbox addressed. -/
theorem step_addressed (hs : Safe m) {l : Step} (hno : ∀ cmd faults, l ≠ .deliver cmd faults)
    (hout : m.db.OutboxAddressed) : (m.step l).db.OutboxAddressed := by
  have hs₀ : ∀ faults, ({ m.store with faults } : Store).Sound := fun faults =>
    (hs.of_same (m.same_withFaults faults)).sound
  cases l with
  | submit userId dto faults =>
    rcases h : OrderService.submit userId dto { m.store with faults } with ⟨r, s'⟩
    rw [Matcher.step, Matcher.call_db h]
    exact submit_addressed (hs₀ faults) h hout
  | cancel userId orderId faults =>
    rcases h : OrderService.cancel userId orderId { m.store with faults } with ⟨r, s'⟩
    rw [Matcher.step, Matcher.call_db h]
    rcases OrderService.cancel_requested h with hdb | ⟨cmd, o, hreq, -⟩
    · rw [hdb]
      exact hout
    · exact hreq.addressed hout
  | forceCancel orderId faults =>
    rcases h : Admin.forceCancel orderId { m.store with faults } with ⟨r, s'⟩
    rw [Matcher.step, Matcher.call_db h]
    rcases Admin.forceCancel_requested h with hdb | ⟨cmd, o, hreq, -⟩
    · rw [hdb]
      exact hout
    · exact hreq.addressed hout
  | deliver cmd faults => exact absurd rfl (hno cmd faults)
  | restart => exact hout
  | marketUpdate symbol input faults =>
    rcases h : Admin.marketUpdate symbol input { m.store with faults } with ⟨r, s'⟩
    rw [Matcher.step, Matcher.call_db h]
    rcases Admin.marketUpdate_cases h with hdb | hdb
    · rw [hdb]
      exact hout
    · exact hout.of_eq (by rw [hdb]; rfl) (by rw [hdb]; rfl)
  | adjust userId asset field delta faults =>
    rcases h : Admin.adjust userId asset field delta { m.store with faults } with ⟨r, s'⟩
    rw [Matcher.step, Matcher.call_db h]
    rcases Admin.adjust_cases h with hdb | ⟨w, value, -, -, hdb⟩
    · rw [hdb]
      exact hout
    · exact hout.of_eq (by rw [hdb]; rfl) (by rw [hdb]; rfl)
  | tick now => exact hout

theorem run_addressed (h : m.Initial) (steps : List Step) : (m.run steps).db.OutboxAddressed := by
  have hboth : (m.run steps).db.Executed ∧ (m.run steps).db.OutboxAddressed := by
    refine run_dispatches (I := fun db => db.Executed ∧ db.OutboxAddressed) h ⟨?_, ?_⟩
      (fun hs hcmd hd hI => ⟨?_, dispatch_submit_addressed hs hcmd hd hI.1 hI.2⟩)
      (fun _ _ hd hI => ⟨cancel_executed (dispatch_cancel hd) hI.1,
        dispatch_cancel_addressed hd hI.2⟩)
      (fun {m l} hs hno hI => ⟨?_, step_addressed hs hno hI.2⟩) steps
    · exact run_executed h []
    · intro e he
      rw [h.outbox] at he
      cases he
    · exact submit_executed hs hcmd (dispatch_submit_of_sound hs.sound hd) hI.1
    · exact hI.1.of_fixed (step_trades m hno) fun id o ho => step_fixed hs l ho
  exact hboth.2

/-- **Every message is addressed.** In every reachable state each row of the outbox is on the topic
of its payload. Commands, order events and trades are keyed by their market and carry what the rows
of their orders say; a user event is keyed by its user, and the order it names is that user's. -/
theorem outbox_addressed (h : m.Initial) (steps : List Step) :
    ∀ e ∈ (m.run steps).db.outbox, Addressed (m.run steps).db e.content ∧
      (e.topic = .USER_EVENTS → ∃ evt o, e.payload = .user evt ∧ evt.userId = e.key ∧
        (m.run steps).db.order? evt.orderId = some o ∧ o.userId = e.key ∧
        o.market = evt.market) := by
  intro e he
  have haddr := run_addressed h steps e he
  refine ⟨haddr, fun htopic => ?_⟩
  obtain ⟨id, topic, key, payload⟩ := e
  obtain rfl : topic = .USER_EVENTS := htopic
  have hc : Addressed (m.run steps).db (.USER_EVENTS, key, payload) := haddr
  cases hc with
  | user evt o ho huser hmarket => exact ⟨evt, o, rfl, rfl, ho, huser.symm, hmarket.symm⟩

/-- The three messages of the trade of `alice` and `bob` are addressed. -/
theorem outbox_addressed_trading : Sample.exchange.Initial ∧
    ∀ e ∈ (Sample.exchange.run Sample.trading).db.outbox,
      Addressed (Sample.exchange.run Sample.trading).db e.content :=
  ⟨Sample.exchange_initial, fun e he =>
    (outbox_addressed Sample.exchange_initial Sample.trading e he).1⟩

end Orbit
