import Orbit.Matcher.Rows
import Orbit.Matcher.MatchIds

/-!
# Within their limits

A row of the table of trades names two orders, and records of them what they say of themselves:
`Trade.Executes`. They are two orders of one market on opposite sides. The maker is a `LIMIT` order
and the trade is at its price; the taker, if it is a `LIMIT` order too, never gets worse than the
price it asked for.

* `Settler.Settles.records`: what settling writes of the two orders of a trade.
* `submit_executes`: the trades that a committed `SUBMIT` adds.
* `trades_within_limits`: so it is with every trade, in every reachable state. The columns that it
  is about are never rewritten.
-/

namespace Orbit

open PriceTime Settler Consumer

variable {E : Engine} {m m' : Matcher E}

/-! ## The orders of a trade -/

/-- The price `p` is one that the order `o` accepts. -/
def Order.Accepts (o : Order) (p : ℚ) : Prop :=
  o.type = .LIMIT → ∃ limit, o.price = some limit ∧
    crosses (sideToEngine o.side) limit p = true

/-- **The trade is one of `maker` with `taker`**, within the limits of both. -/
structure Trade.Executes (t : Trade) (maker taker : Order) : Prop where
  makerUserId : t.makerUserId = maker.userId
  takerUserId : t.takerUserId = taker.userId
  makerSide : t.makerSide = maker.side
  takerSide : t.takerSide = taker.side
  opposite : maker.side ≠ taker.side
  makerMarket : maker.market = t.market
  takerMarket : taker.market = t.market
  makerType : maker.type = .LIMIT
  makerPrice : maker.price = some t.price
  accepts : taker.Accepts t.price
  quantity : 0 < t.quantity

/-- What a trade says of its orders is about columns that are never rewritten. -/
theorem Trade.Executes.fixed {t : Trade} {maker maker' taker taker' : Order}
    (h : t.Executes maker taker) (hm : maker.Fixed maker') (ht : taker.Fixed taker') :
    t.Executes maker' taker' where
  makerUserId := h.makerUserId.trans hm.userId.symm
  takerUserId := h.takerUserId.trans ht.userId.symm
  makerSide := h.makerSide.trans hm.side.symm
  takerSide := h.takerSide.trans ht.side.symm
  opposite := by
    rw [hm.side, ht.side]
    exact h.opposite
  makerMarket := hm.market.trans h.makerMarket
  takerMarket := ht.market.trans h.takerMarket
  makerType := hm.type.trans h.makerType
  makerPrice := hm.price.trans h.makerPrice
  accepts := by
    intro hl
    rw [ht.type] at hl
    rw [ht.price, ht.side]
    exact h.accepts hl
  quantity := h.quantity

/-- Every trade has its two orders. -/
def Db.Executed (db : Db) : Prop :=
  ∀ t ∈ db.trades, ∃ maker taker, db.order? t.makerOrderId = some maker ∧
    db.order? t.takerOrderId = some taker ∧ t.Executes maker taker

/-- Rows that stay with their fixed columns, and no new trades. -/
theorem Db.Executed.of_fixed {db db' : Db} (h : db.Executed) (ht : db'.trades = db.trades)
    (hf : ∀ id o, db.order? id = some o → ∃ o', db'.order? id = some o' ∧ o.Fixed o') :
    db'.Executed := by
  intro t hmem
  rw [ht] at hmem
  obtain ⟨maker, taker, hm, htk, hx⟩ := h t hmem
  obtain ⟨maker', hm', hfm⟩ := hf _ _ hm
  obtain ⟨taker', htk', hft⟩ := hf _ _ htk
  exact ⟨maker', taker', hm', htk', hx.fixed hfm hft⟩

/-! ## Settling -/

/-- What the row of a settled trade records of the trade of the book and of its two orders. -/
structure Trade.Records (row : Trade) (t : EngineTrade) (market : Market) (maker taker : Order) :
    Prop where
  market : row.market = market.symbol
  price : row.price = t.tradePrice
  quantity : row.quantity = t.tradeQuantity
  makerOrderId : row.makerOrderId = t.makerOrderId
  takerOrderId : row.takerOrderId = taker.id
  makerSide : row.makerSide = maker.side
  takerSide : row.takerSide = taker.side
  makerUserId : row.makerUserId = maker.userId
  takerUserId : row.takerUserId = taker.userId

/-- **What settling records**: of each maker what its row said before the first of the trades. -/
theorem Settler.Settles.records {market : Market} {taker : Order} {rates : FeeRates}
    {commandId : Uuid} {idx : ℕ} {db db' : Db} {ts : List EngineTrade} {rows : List Trade}
    (h : Settles market taker rates commandId idx db ts rows db') :
    ∀ row ∈ rows, ∃ t ∈ ts, ∃ maker, db.order? t.makerOrderId = some maker ∧
      row.Records t market maker taker := by
  induction h with
  | nil => exact fun row hrow => absurd hrow List.not_mem_nil
  | @cons idx db db₁ db' t ts row rows maker hf hs ih =>
    intro x hx
    rcases List.mem_cons.mp hx with rfl | hx
    · refine ⟨t, List.mem_cons_self, maker, hf.hmaker, ?_⟩
      rw [hf.hrow]
      exact ⟨rfl, rfl, rfl, rfl, rfl, rfl, rfl, rfl, rfl⟩
    · obtain ⟨t', ht', maker', hm', hr⟩ := ih x hx
      -- the trade before it rewrites quantities and status only
      rw [Db.order?_of_modify hf.orders (makerAfter_id maker _)] at hm'
      refine ⟨t', List.mem_cons_of_mem t ht', ?_⟩
      split at hm'
      · obtain ⟨o, ho, rfl⟩ := Option.map_eq_some_iff.mp hm'
        exact ⟨o, ho, { hr with }⟩
      · exact ⟨maker', hm', hr⟩

/-! ## Commands -/

/-- The trades of a committed submit, when the order accepts the prices of the book's. -/
theorem Settler.Submitted.executes {market : Market} {order : Order} {cmd : OrderSubmitCommand}
    {fs : List (Fill ℕ ℚ ℚ)} {finish : Order → Order} {release : List Posting} {q : Queues}
    {rest : List (Resting ℕ ℚ ℚ)} (h : Submitted market order cmd fs finish release q m m')
    (hs : Safe m) (hc : Crossing m cmd.symbol order finish fs rest)
    (hsymbol : market.symbol = cmd.symbol) (hprice : ∀ f ∈ fs, order.Accepts f.price) :
    ∃ rows, m'.db.trades = m.db.trades ++ rows ∧ ∀ t ∈ rows, t.takerOrderId = order.id ∧
      ∃ maker, m.db.order? t.makerOrderId = some maker ∧ t.Executes maker order := by
  obtain ⟨rows, db₁, hset, -, htrades, -⟩ := h.settled
  refine ⟨rows, htrades.trans hset.trades, fun row hrow => ?_⟩
  obtain ⟨t, ht, maker, hm, hr⟩ := hset.records row hrow
  obtain ⟨f, hf, rfl⟩ := List.mem_map.mp ht
  obtain ⟨maker', hmakes⟩ := hs.backed.makes tracks_le hc.consumed hf
  obtain rfl : maker' = maker := Option.some.inj (hmakes.row.symm.trans hm)
  refine ⟨hr.takerOrderId, maker', by rw [hr.makerOrderId]; exact hm, ?_⟩
  have hside : sideToEngine maker'.side ≠ sideToEngine order.side := by
    rw [hmakes.side]
    exact Side.opp_ne _
  exact
    { makerUserId := hr.makerUserId
      takerUserId := hr.takerUserId
      makerSide := hr.makerSide
      takerSide := hr.takerSide
      opposite := fun e => hside (congrArg sideToEngine e)
      makerMarket := by rw [hmakes.market, hr.market, hsymbol]
      takerMarket := by rw [hc.market, hr.market, hsymbol]
      makerType := hmakes.type
      makerPrice := by
        rw [hmakes.price, hr.price]
        rfl
      accepts := by
        rw [hr.price]
        exact hprice f hf
      quantity := by
        rw [hr.quantity]
        exact hmakes.pos }

/-- **The trades that a committed `SUBMIT` adds.** -/
theorem submit_executes (hs : Safe m) {cmd : OrderSubmitCommand}
    (hcmd : OrderCommand.SUBMIT cmd ∈ m.db.commands) (h : SubmitOutcome cmd m (.ok .ok) m') :
    ∃ order rows, m.db.order? cmd.orderId = some order ∧ m'.db.trades = m.db.trades ++ rows ∧
      ∀ t ∈ rows, t.takerOrderId = order.id ∧
        ∃ maker, m.db.order? t.makerOrderId = some maker ∧ t.Executes maker order := by
  cases h with
  | committedLimit market order price hb ht hp hid hsub =>
    have hprice : ∀ f ∈ ((m.queues cmd.symbol).add order.id (sideToEngine order.side) price
        order.leaveQty).fills, order.Accepts f.price :=
      fun f hf _ => ⟨price, hp, crosses_of_mem_fills _ hf⟩
    obtain ⟨rows, htrades, hrows⟩ := hsub.executes hs (crossing_limit price hs.sound hcmd hb ht hid)
      (Table.key_of_find? hb.hmarket) hprice
    exact ⟨order, rows, hb.horder, htrades, hrows⟩
  | committedMarket market order l hb ht hl hsub =>
    have hprice : ∀ f ∈ (sweepFill order.quantity l).fills, order.Accepts f.price := by
      intro f _ hlimit
      rw [ht] at hlimit
      cases hlimit
    obtain ⟨rows, htrades, hrows⟩ := hsub.executes hs
      (crossing_market hs.sound hs.backed hcmd hb ht hl) (Table.key_of_find? hb.hmarket) hprice
    exact ⟨order, rows, hb.horder, htrades, hrows⟩

theorem submit_executed (hs : Safe m) {cmd : OrderSubmitCommand} {r : Except Failure Result}
    (hcmd : OrderCommand.SUBMIT cmd ∈ m.db.commands) (h : SubmitOutcome cmd m r m')
    (hx : m.db.Executed) : m'.db.Executed := by
  have hfixed : ∀ id o, m.db.order? id = some o → ∃ o', m'.db.order? id = some o' ∧ o.Fixed o' :=
    fun id o ho => submit_fixed hs hcmd h ho
  rcases h.unchanged_or with hdb | rfl
  · rwa [hdb]
  obtain ⟨order, rows, ho, htrades, hrows⟩ := submit_executes hs hcmd h
  intro t ht
  rw [htrades, List.mem_append] at ht
  rcases ht with ht | ht
  · obtain ⟨maker, taker, hm, htk, he⟩ := hx t ht
    obtain ⟨maker', hm', hfm⟩ := hfixed _ _ hm
    obtain ⟨taker', htk', hft⟩ := hfixed _ _ htk
    exact ⟨maker', taker', hm', htk', he.fixed hfm hft⟩
  · obtain ⟨htaker, maker, hm, he⟩ := hrows t ht
    obtain ⟨maker', hm', hfm⟩ := hfixed _ _ hm
    obtain ⟨taker', htk', hft⟩ := hfixed _ _ (Db.order?_id ho ▸ ho)
    exact ⟨maker', taker', hm', by rw [htaker]; exact htk', he.fixed hfm hft⟩

theorem cancel_executed {cmd : OrderCancelCommand} {r : Except Failure Result}
    (h : CancelOutcome cmd m r m') (hx : m.db.Executed) : m'.db.Executed :=
  hx.of_fixed h.trades fun _ _ ho => cancel_fixed h ho

/-! ## Runs -/

/-- The tables after a call of the api. -/
theorem Matcher.call_db {α : Type} {faults : Option ℕ} {x : Stm α} {r : Except Failure α}
    {s' : Store} (h : x { m.store with faults } = (r, s')) : (m.call faults x).db = s'.db := by
  unfold Matcher.call Matcher.db
  rw [h]

theorem run_executed (h : m.Initial) (steps : List Step) : (m.run steps).db.Executed := by
  refine run_tables (I := Db.Executed) h ?_ (fun hs hcmd ho hx => submit_executed hs hcmd ho hx)
    (fun _ ho hx => cancel_executed ho hx) (fun hs he hx => ?_) (A := fun _ => True)
    fun l _ => l.adjusts_any
  · intro t ht
    rw [h.trades] at ht
    cases ht
  · exact hx.of_fixed he.trades fun id o ho => ⟨o, (he.sound hs).2 id o ho, .refl o⟩

/-- A limit that crosses a price: a buyer pays no more, a seller gets no less. -/
theorem Order.Accepts.limit {o : Order} {p : ℚ} (h : o.Accepts p) (ht : o.type = .LIMIT) :
    ∃ limit, o.price = some limit ∧ (o.side = .BID → p ≤ limit) ∧ (o.side = .ASK → limit ≤ p) := by
  obtain ⟨limit, hl, hc⟩ := h ht
  refine ⟨limit, hl, fun e => ?_, fun e => ?_⟩
  · rw [e] at hc
    exact of_decide_eq_true hc
  · rw [e] at hc
    exact of_decide_eq_true hc

/-- **No order trades past its limit.** In every reachable state, each trade is between two rows of
its market, on the sides and of the users that it names. They are on opposite sides. The maker's is
a `LIMIT` order and the trade is at its price; if the taker's is one too, a buyer paid no more and a
seller got no less than it asked for. -/
theorem trades_within_limits (h : m.Initial) (steps : List Step) :
    ∀ t ∈ (m.run steps).db.trades, ∃ maker taker,
      (m.run steps).db.order? t.makerOrderId = some maker ∧
      (m.run steps).db.order? t.takerOrderId = some taker ∧
      maker.market = t.market ∧ taker.market = t.market ∧
      maker.userId = t.makerUserId ∧ taker.userId = t.takerUserId ∧
      maker.side = t.makerSide ∧ taker.side = t.takerSide ∧ maker.side ≠ taker.side ∧
      maker.type = .LIMIT ∧ maker.price = some t.price ∧
      (taker.type = .LIMIT → ∃ limit, taker.price = some limit ∧
        (taker.side = .BID → t.price ≤ limit) ∧ (taker.side = .ASK → limit ≤ t.price)) := by
  intro t ht
  obtain ⟨maker, taker, hm, htk, he⟩ := run_executed h steps t ht
  exact ⟨maker, taker, hm, htk, he.makerMarket, he.takerMarket, he.makerUserId.symm,
    he.takerUserId.symm, he.makerSide.symm, he.takerSide.symm, he.opposite, he.makerType,
    he.makerPrice, he.accepts.limit⟩

/-- `alice` bids 110 and pays the 100 that `bob` asks. -/
theorem trades_within_limits_trading : Sample.exchange.Initial ∧
    ∀ t ∈ (Sample.exchange.run Sample.trading).db.trades,
      ∃ maker, (Sample.exchange.run Sample.trading).db.order? t.makerOrderId = some maker ∧
        maker.price = some t.price := by
  refine ⟨Sample.exchange_initial, fun t ht => ?_⟩
  obtain ⟨maker, -, hm, -, -, -, -, -, -, -, -, -, hp, -⟩ :=
    trades_within_limits Sample.exchange_initial Sample.trading t ht
  exact ⟨maker, hm, hp⟩

end Orbit
