import Orbit.Matcher.Abort
import Orbit.Matcher.Progress
import Orbit.Matcher.Rows

/-!
# Market bids and the balance they are paid from

A `MARKET` `BID` reserves nothing: its trades are debited one by one from the quote balance that the
buyer has when the command is processed. The design caps its execution by that balance and cancels
what it does not pay for; the sweep has no such cap, and a buyer who cannot pay all of it makes the
transaction fail.

* `run_stamped`: the match ids of the trades are those of the commands that placed their takers, so
  those of a command whose order has not traded are new.
* `market_bid_iff`: a `MARKET` `BID` runs within the balance of its buyer exactly when the turns of
  its sweep find their ids free, the balance covers the cost of everything that the sweep takes, and
  the accounts can bear the postings.
-/

namespace Orbit

open PriceTime Settler Consumer

variable {E : Engine} {m m' : Matcher E}

/-! ## Match ids -/

/-- The match id of a trade carries the command that placed its taker, and no two orders were placed
by one command. -/
structure Db.Stamped (db : Db) : Prop where
  trades : ∀ t ∈ db.trades, ∀ c k, t.matchId = some ⟨c, k⟩ →
    ∃ o, db.order? t.takerOrderId = some o ∧ o.commandId = some c
  orders : ∀ {i j : ℕ} {o o' : Order} {c : Uuid}, db.order? i = some o → db.order? j = some o' →
    o.commandId = some c → o'.commandId = some c → i = j

theorem Settler.Settles.matchId {market : Market} {order : Order}
    {rates : FeeRates} {commandId : Uuid}
    {idx : ℕ} {db db' : Db} {ts : List EngineTrade} {rows : List Trade}
    (h : Settles market order rates commandId idx db ts rows db') :
    ∀ row ∈ rows, row.takerOrderId = order.id ∧ ∃ k, row.matchId = some ⟨commandId, k⟩ := by
  induction h with
  | nil => simp
  | @cons idx _ _ _ _ _ row rows maker hf _ ih =>
    intro x hx
    rcases List.mem_cons.mp hx with rfl | hx
    · rw [hf.hrow]
      exact ⟨rfl, idx, rfl⟩
    · exact ih x hx

/-- Rows that are rewritten in place keep their stamps. -/
theorem Db.Stamped.rewrites {db db' : Db} (h : db.Stamped) (hrw : db.Rewrites db')
    (ht : ∀ t ∈ db'.trades, t ∈ db.trades ∨ ∀ c k, t.matchId = some ⟨c, k⟩ →
      ∃ o, db.order? t.takerOrderId = some o ∧ o.commandId = some c) : db'.Stamped where
  trades t hmem c k he := by
    obtain ⟨o, ho, hc⟩ : ∃ o, db.order? t.takerOrderId = some o ∧ o.commandId = some c := by
      rcases ht t hmem with hold | hnew
      · exact h.trades t hold c k he
      · exact hnew c k he
    obtain ⟨o', ho', hfix⟩ := (hrw _).2 o ho
    exact ⟨o', ho', hfix.commandId.trans hc⟩
  orders hi hj hci hcj := by
    obtain ⟨o, ho, hfix⟩ := (hrw _).1 _ hi
    obtain ⟨o', ho', hfix'⟩ := (hrw _).1 _ hj
    exact h.orders ho ho' (hfix.commandId.symm.trans hci) (hfix'.commandId.symm.trans hcj)

theorem Db.rewrites_refl (db : Db) : db.Rewrites db :=
  fun _ => ⟨fun o ho => ⟨o, ho, .refl o⟩, fun o ho => ⟨o, ho, .refl o⟩⟩

theorem Db.Stamped.congr {db db' : Db} (h : db.Stamped) (ho : db'.orders = db.orders)
    (ht : db'.trades = db.trades) : db'.Stamped := by
  refine h.rewrites (fun id => ?_) fun t hmem => Or.inl (ht ▸ hmem)
  rw [Db.order?_congr ho]
  exact db.rewrites_refl id

theorem submit_rewrites {cmd : OrderSubmitCommand} {r : Except Failure Result} (hs : Safe m)
    (hcmd : OrderCommand.SUBMIT cmd ∈ m.db.commands) (h : SubmitOutcome cmd m r m') :
    m.db.Rewrites m'.db := by
  intro id
  refine ⟨fun o' ho' => ?_, fun o ho => submit_fixed hs hcmd h ho⟩
  have hsome : (m.db.order? id).isSome := by
    rcases h.unchanged_or with hdb | rfl
    · exact Option.isSome_of_eq_some (hdb ▸ ho')
    obtain ⟨market, order, finish, fs, rest, release, q, -, hc, hsub⟩ :=
      submit_crossing hs.sound hs.backed hcmd h
    exact (Db.order?_isSome_of_keys (hsub.map_key hc) id).mp (Option.isSome_of_eq_some ho')
  obtain ⟨o, ho⟩ := Option.isSome_iff_exists.mp hsome
  obtain ⟨o'', ho'', hfix⟩ := submit_fixed hs hcmd h ho
  obtain rfl : o'' = o' := Option.some.inj (ho''.symm.trans ho')
  exact ⟨o, ho, hfix⟩

theorem submit_stamped {cmd : OrderSubmitCommand} {r : Except Failure Result} (hs : Safe m)
    (hcmd : OrderCommand.SUBMIT cmd ∈ m.db.commands) (h : SubmitOutcome cmd m r m')
    (hst : m.db.Stamped) : m'.db.Stamped := by
  rcases h.unchanged_or with hdb | rfl
  · rwa [hdb]
  refine hst.rewrites (submit_rewrites hs hcmd h) fun t ht => ?_
  obtain ⟨market, order, finish, fs, rest, release, q, hb, hc, hsub⟩ :=
    submit_crossing hs.sound hs.backed hcmd h
  obtain ⟨rows, db₁, hset, -, htrades, -⟩ := hsub.settled
  rw [htrades, hset.trades, List.mem_append] at ht
  refine ht.imp_right fun hrow c k he => ?_
  obtain ⟨htaker, k', hmid⟩ := hset.matchId t hrow
  obtain ⟨o, ho, -, hcommand⟩ := hs.sound.commands _ hcmd
  obtain rfl : order = o := Option.some.inj (hb.horder.symm.trans ho)
  obtain ⟨rfl, -⟩ := MatchId.mk.inj (Option.some.inj (hmid.symm.trans he))
  exact ⟨order, htaker ▸ hc.horder, hcommand⟩

theorem cancel_stamped {cmd : OrderCancelCommand} {r : Except Failure Result}
    (h : CancelOutcome cmd m r m') (hst : m.db.Stamped) : m'.db.Stamped := by
  rcases h.unchanged_or with hdb | ⟨market, order, ho, hm, live, hc⟩
  · rwa [hdb]
  refine hst.rewrites (fun id => ⟨fun o' ho' => ?_, fun o ho => ?_⟩)
    fun t ht => Or.inl (hc.trades ▸ ht)
  · rw [Db.order?_of_modify hc.orders fun _ => rfl] at ho'
    split at ho'
    · obtain ⟨o, ho, rfl⟩ := Option.map_eq_some_iff.mp ho'
      exact ⟨o, ho, rfl, rfl, rfl, rfl, rfl, rfl, rfl, rfl⟩
    · exact ⟨o', ho', .refl o'⟩
  · rw [Db.order?_of_modify hc.orders (fun _ => rfl), ho]
    split
    · exact ⟨_, rfl, rfl, rfl, rfl, rfl, rfl, rfl, rfl, rfl⟩
    · exact ⟨o, rfl, .refl o⟩

/-- A new order has a new command. -/
theorem Placed.stamped {s s' : Store} {o : Order} {market : Market} {cmd : OrderSubmitCommand}
    (h : Placed s s' o market cmd) (hs : s.Sound) (hst : s.db.Stamped) : s'.db.Stamped where
  trades t ht c k he := by
    rw [h.trades] at ht
    obtain ⟨x, hx, hc⟩ := hst.trades t ht c k he
    exact ⟨x, h.order?_of_some hx, hc⟩
  orders {i j x y c} hi hj hci hcj := by
    -- an old order was not placed by the command of the new one
    have hfresh : ∀ {k : ℕ} {z : Order}, s.db.order? k = some z → z.commandId = some c →
        o.commandId ≠ some c :=
      fun hz hc he => h.fresh _ (Db.mem_of_order? hz) (hc.trans he.symm)
    rw [h.order? hs] at hi hj
    split at hi <;> split at hj
    · rename_i e₁ e₂
      rw [e₁, e₂]
    · obtain rfl := Option.some.inj hi
      exact absurd hci (hfresh hj hcj)
    · obtain rfl := Option.some.inj hj
      exact absurd hcj (hfresh hi hci)
    · exact hst.orders hi hj hci hcj

theorem api_stamped {A : WalletField → Prop} {s s' : Store} (hs : s.Sound) (h : ApiEffect A s s')
    (hst : s.db.Stamped) : s'.db.Stamped := by
  cases h with
  | idle hseq hdb => rwa [hdb]
  | placed o market cmd h => exact h.stamped hs hst
  | requested cmd o hseq h =>
    obtain ⟨row, -, -, hdb⟩ := h.outbox
    exact hst.congr (by rw [hdb]) (by rw [hdb])
  | marketChanged symbol input hseq hdb => exact hst.congr (by rw [hdb]) (by rw [hdb])
  | adjusted userId asset field w value hfield hseq hw hn hdb =>
    exact hst.congr (by rw [hdb]) (by rw [hdb])

/-- **In every reachable state the trades are stamped with the commands of their takers.** -/
theorem run_stamped (h : m.Initial) (steps : List Step) : (m.run steps).db.Stamped := by
  refine run_tables (I := Db.Stamped) h ?_ (fun hs hcmd ho => submit_stamped hs hcmd ho)
    (fun _ ho => cancel_stamped ho) (fun hs he => api_stamped hs he)
    (A := fun _ => True) fun l _ => l.adjusts_any
  refine ⟨fun t ht => ?_, fun {i j o o' c} hi => ?_⟩
  · rw [h.trades] at ht
    simp at ht
  · have hmem := Db.mem_of_order? hi
    rw [h.orders] at hmem
    simp at hmem

/-- No failure is pending between two steps. -/
theorem run_calm (h : m.Initial) (steps : List Step) : (m.run steps).store.Calm := by
  refine Matcher.run_invariant (I := fun m => m.store.Calm) (fun m l hm => ?_) h.faults steps
  cases l with
  | deliver cmd faults =>
    change (m.deliver cmd faults).store.Calm
    rcases deliver_eq m cmd faults with ⟨-, e⟩ | ⟨-, r, m₁, -, e⟩
    · rwa [e]
    · rw [e]
      rfl
  | restart => exact hm
  | tick now => exact hm
  | _ => exact rfl

/-- The match ids of a `MARKET` order that is not closed are new. -/
theorem fresh_of_live {cmd : OrderSubmitCommand} {order : Order} (hs : Safe m) (hr : m.db.Reported)
    (hst : m.db.Stamped) (hcmd : OrderCommand.SUBMIT cmd ∈ m.db.commands)
    (ho : m.db.order? cmd.orderId = some order) (ht : order.type = .MARKET)
    (hlive : order.terminal = false) :
    ∀ t ∈ m.db.trades, ∀ k, t.matchId ≠ some ⟨cmd.commandId, k⟩ := by
  intro t hmem k he
  obtain ⟨o, ho', -, hc⟩ := hs.sound.commands _ hcmd
  obtain rfl : order = o := Option.some.inj (ho.symm.trans ho')
  obtain ⟨taker, htaker, hct⟩ := hst.trades t hmem _ k he
  have hid : t.takerOrderId = cmd.orderId := hst.orders htaker ho hct hc
  -- it has not traded, so that no trade is its own
  have hrow := hr.rows _ _ ho
  have hzero : order.filledQty = 0 := by
    rcases hrow.market ht with ⟨-, h0⟩ | ⟨-, h0⟩ | ⟨hst, -⟩
    · exact h0
    · exact h0
    · simp [Order.terminal, hst] at hlive
  have hnone := (hr.traded_eq_zero_iff order.id).mp (hrow.filled.symm.trans hzero)
  exact (hnone t hmem).2 (hid.trans (Db.order?_id ho).symm)

/-! ## Market bids -/

/-- What a `MARKET` order of quantity `q` pays for what it takes of the queue. -/
def sweepCost (q : ℚ) (l : List (Resting ℕ ℚ ℚ)) : ℚ :=
  ((sweepFill q l).fills.map fun f => f.price * f.qty).sum

/-- **The `MARKET` `BID` runs within the balance of its buyer**: its submit commits, its trades cost
at most the quote balance, its row is closed with what was not traded, and none of it rests. -/
def WithinBalance (cmd : OrderSubmitCommand) (market : Market) (order : Order)
    (m : Matcher E) : Prop :=
  ∃ r m' rows o', settleSubmit cmd m = (.ok (some r), m') ∧
    m'.db.trades = m.db.trades ++ rows ∧
    (rows.map fun t => t.price * t.quantity).sum ≤ m.db.balance order.userId market.quoteAsset ∧
    m'.db.order? order.id = some o' ∧ (o'.status = .FILLED ∨ o'.status = .CANCELLED) ∧
    o'.leaveQty = order.quantity - (rows.map (·.quantity)).sum ∧
    ∀ symbol, ∀ id ∈ (m'.queues symbol).ids, id ∈ (m.queues symbol).ids

section MarketBid

variable {cmd : OrderSubmitCommand} {market : Market} {order : Order} {l : List (Resting ℕ ℚ ℚ)}

theorem Settler.Settles.map_values {rates : FeeRates} {commandId : Uuid} {idx : ℕ} {db db' : Db}
    {ts : List EngineTrade} {rows : List Trade}
    (h : Settles market order rates commandId idx db ts rows db') :
    rows.map (fun t => (t.price, t.quantity)) = ts.map fun t =>
      (t.tradePrice, t.tradeQuantity) := by
  induction h with
  | nil => rfl
  | cons maker hf _ ih => rw [List.map_cons, List.map_cons, ih, hf.hrow]

/-- What a `MARKET` submit that commits leaves behind. -/
theorem settled_market {r : Order × List Trade} (hs : Safe m)
    (hcmd : OrderCommand.SUBMIT cmd ∈ m.db.commands) (ho : m.db.order? cmd.orderId = some order)
    (ht : order.type = .MARKET)
    (hl : (m.queues cmd.symbol).queue (sideToEngine order.side).opp = l)
    (h : settleSubmit cmd m = (.ok (some r), m')) :
    ∃ rows o', m'.db.trades = m.db.trades ++ rows ∧
      (rows.map fun t => t.price * t.quantity).sum = sweepCost order.quantity l ∧
      m'.db.order? order.id = some o' ∧ (o'.status = .FILLED ∨ o'.status = .CANCELLED) ∧
      o'.leaveQty = order.quantity - (rows.map (·.quantity)).sum ∧
      ∀ symbol, ∀ id ∈ (m'.queues symbol).ids, id ∈ (m.queues symbol).ids := by
  have hout := dispatch_submit_of_sound hs.sound (dispatch_submit_of_settle h)
  have hids : ∀ symbol, ∀ id ∈ (m'.queues symbol).ids, id ∈ (m.queues symbol).ids := by
    intro symbol id hid
    refine submit_market_ids hout ho ht ?_
    rwa [Matcher.queues_setBook_book]
  generalize hm'' : m'.setBook cmd.symbol (m'.book cmd.symbol) = m'' at hout
  have hdb : m''.db = m'.db := by
    rw [← hm'']
    rfl
  cases hout with
  | committedLimit market order' price hb htype hp hid hsub =>
    obtain rfl : order' = order := Option.some.inj (hb.horder.symm.trans ho)
    exact absurd (htype.symm.trans ht) (by decide)
  | committedMarket market order' l' hb htype hl' hsub =>
    obtain rfl : order' = order := Option.some.inj (hb.horder.symm.trans ho)
    obtain rfl : l' = l := hl'.symm.trans hl
    have hc := crossing_market hs.sound hs.backed hcmd hb htype hl
    obtain ⟨rows, db₁, hset, -, htrades, -⟩ := hsub.settled
    have hrow := hs.sound.rows _ _ hb.horder
    have hpos : ∀ r ∈ l', 0 < r.qty := hl ▸ (m.queues_wf cmd.symbol).pos _
    have hvalues := hset.map_values
    rw [List.map_map] at hvalues
    have hcost := congrArg (List.map fun x : ℚ × ℚ => x.1 * x.2) hvalues
    have hqty := congrArg (List.map Prod.snd) hvalues
    rw [List.map_map, List.map_map] at hcost hqty
    refine ⟨rows, _, ?_, congrArg List.sum hcost, hdb ▸ (hsub.order? hc).1, ?_, ?_, hids⟩
    · rw [← hdb, htrades, hset.trades]
    · exact (marketAfter_status (sweepRemaining_nonneg _ _)
        (sweepRemaining_le hrow.quantity.le hpos)
        hrow.quantity).symm.imp And.left And.left
    · have hsum : (rows.map (·.quantity)).sum =
          ((sweepFill order'.quantity l').fills.map (·.qty)).sum := congrArg List.sum hqty
      rw [hsum, sweepFill_sum hrow.quantity.le hpos, marketAfter_leaveQty, sub_sub_cancel]

/-- **When a `MARKET` `BID` runs within the balance of its buyer.** In every reachable state its
submit commits, costs at most the balance and closes the order exactly when the turns of its sweep
find their ids free, the balance covers what the sweep takes, and the accounts can bear the
postings of the trades. -/
theorem market_bid_iff (h : m.Initial) (steps : List Step)
    (hcmd : OrderCommand.SUBMIT cmd ∈ (m.run steps).db.commands)
    (hm : (m.run steps).db.market? cmd.symbol = some market)
    (ho : (m.run steps).db.order? cmd.orderId = some order) (ht : order.type = .MARKET)
    (hside : order.side = .BID) (hlive : order.terminal = false)
    (hl : ((m.run steps).queues cmd.symbol).queue .ask = l) :
    WithinBalance cmd market order (m.run steps) ↔
      TurnsFree order.id 0 (((m.run steps).queues cmd.symbol).queue .bid) l (levels l) bookLimit
        order.quantity ∧
      sweepCost order.quantity l ≤ (m.run steps).db.balance order.userId market.quoteAsset ∧
      Affords (m.run steps).db (tradePostings (m.run steps).db market order
        ⟨feeRate market.makerFeeBp, feeRate market.takerFeeBp⟩
        ((sweepFill order.quantity l).fills.map .ofFill)) := by
  have hs := run_safe h steps
  have hcalm := run_calm h steps
  have hfresh := fresh_of_live hs (run_reported h steps) (run_stamped h steps) hcmd ho ht hlive
  generalize m.run steps = m at *
  obtain ⟨o, ho', -, hc⟩ := hs.sound.commands _ hcmd
  obtain rfl : order = o := Option.some.inj (ho.symm.trans ho')
  have hopp : (m.queues cmd.symbol).queue (sideToEngine order.side).opp = l := by rwa [hside]
  have hbegun : Begun m cmd market order :=
    ⟨hm, ho, fun hne => hne.2 hc, hlive, fun n _ hf => by rw [hcalm] at hf; cases hf⟩
  have hcross := crossing_market hs.sound hs.backed hcmd hbegun ht hopp
  have hiff := settleSubmit_market_iff hcalm hm ho (fun hne => hne.2 hc) hlive ht
    (hs.sound.rows _ _ ho).quantity hopp
    (hcross.matchable hs fun t ht' k _ => hfresh t ht' k)
  have hnil : residualPostings market order (sweepRemaining order.quantity l) = [] :=
    if_neg fun hask => by rw [hside] at hask; cases hask.2
  rw [hnil, List.append_nil, hside] at hiff
  constructor
  · rintro ⟨r, m', rows, o', hsettle, htrades, hcost, -⟩
    obtain ⟨hturns, hafford⟩ := hiff.mp ⟨r, m', hsettle⟩
    obtain ⟨rows', -, htrades', hcost', -⟩ := settled_market hs hcmd ho ht hopp hsettle
    obtain rfl : rows = rows' := List.append_cancel_left (htrades.symm.trans htrades')
    exact ⟨hturns, hcost' ▸ hcost, hafford⟩
  · rintro ⟨hturns, hcost, hafford⟩
    obtain ⟨r, m', hsettle⟩ := hiff.mpr ⟨hturns, hafford⟩
    obtain ⟨rows, o', htrades, hcost', hrest⟩ := settled_market hs hcmd ho ht hopp hsettle
    exact ⟨r, m', rows, o', hsettle, htrades, hcost' ▸ hcost, hrest⟩

end MarketBid

namespace Sample

/-- `bob` asks 2 at 100 and 3 at 110, and `alice`, who has 1000, buys `n` at the market. -/
def buying (n : ℚ) : List Step :=
  [.submit "bob" (limit .ASK 100 2) none, .deliver (submitted 0 1 "bob" (limit .ASK 100 2)) none,
    .submit "bob" (limit .ASK 110 3) none, .deliver (submitted 3 2 "bob" (limit .ASK 110 3)) none,
    .submit "alice" (market .BID n) none]

/-- The `SUBMIT` of `alice`'s order. -/
def buyingSubmit (n : ℚ) : OrderSubmitCommand :=
  ⟨⟨6⟩, 3, "alice", "BTC-USDT", .BID, .MARKET, none, n, 0⟩

/-- The row of `alice`'s order. -/
def buyingOrder (n : ℚ) : Order :=
  ⟨3, "alice", "BTC-USDT", .BID, .MARKET, none, n, n, 0, .OPEN, some ⟨6⟩⟩

end Sample

open Sample in
/-- `alice` pays 420 for 4, across two levels. -/
theorem market_bid_two_levels : exchange.Initial ∧ sweepCost 4 [⟨1, 100, 2⟩, ⟨2, 110, 3⟩] = 420 ∧
    WithinBalance (buyingSubmit 4) btcUsdt (buyingOrder 4) (exchange.run (buying 4)) := by
  refine ⟨exchange_initial, by decide +kernel, ?_⟩
  refine (market_bid_iff exchange_initial (buying 4) (by decide +kernel) (by decide +kernel)
    (by decide +kernel) rfl rfl (by decide +kernel)
    (l := [⟨1, 100, 2⟩, ⟨2, 110, 3⟩]) (by decide +kernel)).mpr ⟨?_, ?_, ?_⟩
  · decide +kernel
  · decide +kernel
  · decide +kernel

open Sample in
/-- **A `MARKET` `BID` that the balance does not cover.** `alice` has 1000 and the ten units cost
2000. Nothing is bought up to the balance and the rest cancelled: the transaction fails at the
`CHECK` of her wallet, and once the command is consumed the order is `OPEN` as before. -/
theorem market_bid_unpaid :
    unpayableSubmit = .SUBMIT ⟨⟨3⟩, 2, "alice", "BTC-USDT", .BID, .MARKET, none, 10, 0⟩ ∧
    (exchange.run unpayable).db.order? 2 =
      some ⟨2, "alice", "BTC-USDT", .BID, .MARKET, none, 10, 10, 0, .OPEN, some ⟨3⟩⟩ ∧
    (exchange.run unpayable).db.balance "alice" "USDT" = 1000 ∧
    ¬WithinBalance ⟨⟨3⟩, 2, "alice", "BTC-USDT", .BID, .MARKET, none, 10, 0⟩ btcUsdt
      ⟨2, "alice", "BTC-USDT", .BID, .MARKET, none, 10, 10, 0, .OPEN, some ⟨3⟩⟩
      (exchange.run unpayable) ∧
    (exchange.run (unpayable ++ [.deliver unpayableSubmit none])).db.order? 2 =
      some ⟨2, "alice", "BTC-USDT", .BID, .MARKET, none, 10, 10, 0, .OPEN, some ⟨3⟩⟩ := by
  refine ⟨rfl, by decide +kernel, by decide +kernel, ?_, by decide +kernel⟩
  rintro ⟨r, m', rows, o', hsettle, -⟩
  have hfail : (settleSubmit ⟨⟨3⟩, 2, "alice", "BTC-USDT", .BID, .MARKET, none, 10, 0⟩
      (exchange.run unpayable)).1 = .error .checkViolation := by decide +kernel
  rw [hsettle] at hfail
  cases hfail

end Orbit
