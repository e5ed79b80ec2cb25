import Mathlib.Tactic.LinearCombination
import Orbit.Matcher.Safety

/-!
# Locked funds are reservations

What a wallet has locked is what the live orders of its user reserve: a `LIMIT` `BID` its price
times what it has left, an `ASK` what it has left, and a `MARKET` `BID` nothing. Five places of the
source move `locked`, each by its own formula. In terms of `Order.backing`, the amount that a
quantity of an order reserves, they are one:

* `lockedSum_lockPostings`, `lockedSum_makerPostings`, `lockedSum_takerPostings`,
  `lockedSum_residualPostings`, `lockedSum_releasePostings`.

A trade moves `locked` and the rows of both parties by the backing of the same quantity
(`Settles.locked_sub_reserved`), so a submit that commits keeps the two in step
(`Submitted.locked_eq`), and so does every step of the exchange (`run_locked`).
-/

namespace Orbit

open PriceTime Settler Consumer

variable {E : Engine} {m m' : Matcher E}

/-- What quantity `qty` of an order reserves of asset `a`. -/
def Order.backing (o : Order) (market : Market) (a : String) (qty : ℚ) : ℚ :=
  match o.type, o.side, o.price with
  | .LIMIT, .BID, some p => if market.quoteAsset = a then p * qty else 0
  | .MARKET, .BID, _ => 0
  | .LIMIT, .BID, none => 0
  | _, .ASK, _ => if market.baseAsset = a then qty else 0

/-- What an order reserves of `u`'s asset `a`: nothing unless it is `u`'s, and
`OPEN` or `PARTIAL`. -/
def Order.reservation (markets : String → Option Market) (u a : String) (o : Order) : ℚ :=
  match markets o.market with
  | some market => if o.userId = u ∧ o.active then o.backing market a o.leaveQty else 0
  | none => 0

/-- What the orders of `u` reserve of asset `a`. -/
def Db.reserved (db : Db) (u a : String) : ℚ :=
  (db.orders.map (Order.reservation db.market? u a)).sum

/-! ## One formula for five -/

section Backing

variable (o : Order) (market : Market) (u a : String)

theorem Order.backing_sub (x y : ℚ) :
    o.backing market a (x - y) = o.backing market a x - o.backing market a y := by
  unfold backing
  split
  · split <;> ring
  · ring
  · ring
  · split <;> ring

theorem Order.backing_zero : o.backing market a 0 = 0 := by
  have h := o.backing_sub market a 0 0
  rwa [sub_self, sub_self] at h

/-- The backing depends on the columns that nothing rewrites. -/
theorem Order.Fixed.backing {o o' : Order} (h : o.Fixed o') : o'.backing market a =
    o.backing market a := by
  funext q
  unfold Order.backing
  rw [h.type, h.side, h.price]

/-- The backing of `u`'s quantity. -/
def Order.backingOf (qty : ℚ) : ℚ := if o.userId = u then o.backing market a qty else 0

theorem Order.backingOf_sub (x y : ℚ) :
    o.backingOf market u a (x - y) = o.backingOf market u a x - o.backingOf market u a y := by
  unfold backingOf
  split
  · exact o.backing_sub market a x y
  · ring

theorem Order.backingOf_add (x y : ℚ) :
    o.backingOf market u a (x + y) = o.backingOf market u a x + o.backingOf market u a y := by
  have h := o.backingOf_sub market u a (x + y) y
  rw [add_sub_cancel_right] at h
  linarith

theorem Order.backingOf_zero : o.backingOf market u a 0 = 0 := by
  unfold backingOf
  rw [o.backing_zero, ite_self]

theorem lockedSum_single (v b : String) (x y : ℚ) :
    Posting.lockedSum u a [⟨v, b, x, y⟩] = if v = u then if b = a then y else 0 else 0 := by
  rw [Posting.lockedSum_cons, Posting.lockedSum_nil, add_zero, ite_and]

theorem lockedSum_credit (v b : String) (x : ℚ) (p : Posting) :
    Posting.lockedSum u a [p, ⟨v, b, x, 0⟩] = Posting.lockedSum u a [p] := by
  simp

theorem lockedSum_lockPostings :
    Posting.lockedSum u a (lockPostings market o) = o.backingOf market u a o.quantity := by
  unfold lockPostings Order.backingOf Order.backing
  cases o.type <;> cases o.side <;> cases o.price <;> simp [ite_and]

theorem lockedSum_takerPostings (price qty rate : ℚ) :
    Posting.lockedSum u a (takerPostings market o price qty rate) =
    -o.backingOf market u a qty := by
  unfold takerPostings Order.backingOf Order.backing
  cases o.type <;> cases o.side <;> cases o.price <;>
    simp only [lockedSum_credit, lockedSum_single] <;> split_ifs <;> simp

theorem lockedSum_makerPostings (ht : o.type = .LIMIT) (price qty rate : ℚ) :
    Posting.lockedSum u a (makerPostings market o price qty rate) =
    -o.backingOf market u a qty := by
  unfold makerPostings Order.backingOf Order.backing
  rw [ht]
  cases o.side <;> cases o.price <;>
    simp only [lockedSum_credit, lockedSum_single, Option.getD] <;> split_ifs <;> simp

theorem lockedSum_releasePostings (hs : o.Sound) :
    Posting.lockedSum u a (releasePostings market o) = -o.backingOf market u a o.leaveQty := by
  rcases hs.leave.eq_or_lt with h0 | h0
  · rw [← h0, o.backingOf_zero, releasePostings, if_neg (by rw [← h0]; exact lt_irrefl _)]
    simp
  · rw [releasePostings, if_pos h0]
    unfold Order.backingOf Order.backing
    cases ht : o.type with
    | LIMIT =>
      cases o.side <;> cases o.price <;>
        simp only [lockedSum_single] <;> split_ifs <;> simp
    | MARKET =>
      rw [hs.market ht]
      cases o.side <;> simp only [lockedSum_single] <;> split_ifs <;> simp

theorem lockedSum_residualPostings (ht : o.type = .MARKET) {remaining : ℚ} (h0 : 0 ≤ remaining) :
    Posting.lockedSum u a (residualPostings market o remaining) =
      -o.backingOf market u a remaining := by
  rcases h0.eq_or_lt with rfl | h0
  · rw [o.backingOf_zero, residualPostings, if_neg fun h => lt_irrefl _ h.1]
    simp
  · unfold residualPostings Order.backingOf Order.backing
    rw [ht]
    cases o.side <;> simp only [h0, true_and, if_true, reduceCtorEq, if_false, lockedSum_single,
      Posting.lockedSum_nil] <;> split_ifs <;> simp

end Backing

/-! ## Commands -/

section Commands

variable {market : Market} {taker order : Order} {markets : String → Option Market} {u a : String}

theorem reservation_of_market {o : Order} (hm : markets o.market = some market) :
    o.reservation markets u a = if o.active then o.backingOf market u a o.leaveQty else 0 := by
  unfold Order.reservation Order.backingOf
  rw [hm]
  by_cases h₁ : o.userId = u <;> by_cases h₂ : o.active = true <;> simp [h₁, h₂]

/-- A row that has nothing left reserves nothing, whatever its status is. -/
theorem reservation_of_leave {o : Order} (hm : markets o.market = some market)
    (hl : o.active = true ∨ o.leaveQty = 0) :
    o.reservation markets u a = o.backingOf market u a o.leaveQty := by
  rw [reservation_of_market hm]
  split
  · rfl
  · rename_i h
    rw [hl.resolve_left h, o.backingOf_zero]

/-- A fill takes the backing of its quantity off the maker's row. -/
theorem reservation_makerAfter {symbol : String} {side : Side} {f : Fill ℕ ℚ ℚ} {maker : Order}
    {db : Db} (h : Makes db symbol side f maker) (hm : markets symbol = some market) :
    (makerAfter maker f.qty maker).reservation markets u a =
      maker.reservation markets u a - maker.backingOf market u a f.qty := by
  have hfix := Order.Fixed.makerAfter maker f.qty maker
  have hmarket : markets maker.market = some market := by rw [h.market, hm]
  have hleave : (makerAfter maker f.qty maker).active = true ∨
      (makerAfter maker f.qty maker).leaveQty = 0 := by
    rcases h.le.eq_or_lt with e | hlt
    · exact Or.inr (sub_eq_zero.mpr e.symm)
    · exact Or.inl (by simp [makerAfter, Order.active, not_le.mpr (sub_pos.mpr hlt)])
  rw [reservation_of_leave (by rw [hfix.market]; exact hmarket) hleave,
    reservation_of_leave hmarket (Or.inl h.active), ← Order.backingOf_sub]
  unfold Order.backingOf
  rw [hfix.userId, hfix.backing]
  rfl

/-- **Settled trades** move what is locked and what the rows reserve alike, but for the taker, whose
row is still to be written. -/
theorem Settler.Settles.locked_sub_reserved {rates : FeeRates} {commandId : Uuid} {symbol : String}
    {side : Side} {idx : ℕ} {db db' : Db} {fs : List (Fill ℕ ℚ ℚ)} {rows : List Trade}
    (h : Settles market taker rates commandId idx db (fs.map .ofFill) rows db')
    (hmakes : ∀ f ∈ fs, ∃ maker, Makes db symbol side f maker) (hd : (fs.map (·.id)).Nodup)
    (hm : markets symbol = some market) :
    db'.locked u a - (db'.orders.map (Order.reservation markets u a)).sum =
      db.locked u a - (db.orders.map (Order.reservation markets u a)).sum -
        taker.backingOf market u a (fs.map (·.qty)).sum := by
  induction fs generalizing idx db rows with
  | nil =>
    cases h
    simp [Order.backingOf_zero]
  | cons f fs ih =>
    cases h with
    | @cons _ _ db₁ _ _ _ row rows maker hf hs =>
    rw [List.map_cons, List.nodup_cons] at hd
    obtain ⟨maker', hmake⟩ := hmakes f (by simp)
    obtain rfl : maker' = maker := Option.some.inj (hmake.row.symm.trans hf.hmaker)
    -- the other makers' rows are as before
    have hrest : ∀ f' ∈ fs, ∃ maker, Makes db₁ symbol side f' maker := by
      intro f' hf'
      obtain ⟨x, hx⟩ := hmakes f' (by simp [hf'])
      have hne : f'.id ≠ f.id := fun e => hd.1 (e ▸ List.mem_map_of_mem hf')
      refine ⟨x, { hx with row := ?_ }⟩
      rw [Db.order?_of_modify hf.orders (makerAfter_id _ _)]
      exact (if_neg hne).trans hx.row
    have hlocked := hf.posted.locked u a
    have hrows : (db₁.orders.map (Order.reservation markets u a)).sum =
        (db.orders.map (Order.reservation markets u a)).sum -
        maker'.backingOf market u a f.qty := by
      rw [hf.orders, Table.sum_modify hf.hmaker, EngineTrade.ofFill,
        reservation_makerAfter hmake hm]
      ring
    rw [Posting.lockedSum_append, lockedSum_makerPostings _ _ _ _ hmake.type,
      lockedSum_takerPostings] at hlocked
    rw [ih hs hrest hd.2, hlocked, hrows, List.map_cons, List.sum_cons, Order.backingOf_add]
    simp only [EngineTrade.ofFill]
    ring

/-- What a submit does to the accounts and the rows besides its trades. -/
theorem Settler.Submitted.locked_eq {cmd : OrderSubmitCommand} {fs : List (Fill ℕ ℚ ℚ)}
    {finish : Order → Order} {release : List Posting} {q : Queues} {rest : List (Resting ℕ ℚ ℚ)}
    (h : Submitted market order cmd fs finish release q m m')
    (hc : Crossing m cmd.symbol order finish fs rest) (hs : Safe m)
    (hm : m.db.market? cmd.symbol = some market)
    (hrelease : (finish order).reservation m.db.market? u a =
      order.reservation m.db.market? u a - order.backingOf market u a (fs.map (·.qty)).sum +
        Posting.lockedSum u a release)
    (hlocked : m.db.locked u a = m.db.reserved u a) :
    m'.db.locked u a = m'.db.reserved u a := by
  obtain ⟨rows, db₁, hset, horders, -, hposted⟩ := h.settled
  have hloop := hset.locked_sub_reserved (u := u) (a := a)
    (fun f hf => hs.backed.makes tracks_le hc.consumed hf) hc.nodup hm
  have htaker : db₁.order? order.id = some order := by
    rw [hset.order?_of_notMem (by rw [map_makerOrderId]; exact hc.notMem)]
    exact hc.horder
  have hmarkets : m'.db.market? = m.db.market? := Db.market?_congr h.framed.markets
  have hrows : m'.db.reserved u a =
      (db₁.orders.map (Order.reservation m.db.market? u a)).sum -
        order.reservation m.db.market? u a + (finish order).reservation m.db.market? u a := by
    rw [Db.reserved, hmarkets, horders, Table.sum_modify htaker]
  rw [hrows, hrelease, hposted.locked u a]
  unfold Db.reserved at hlocked
  linarith

theorem reservation_orderAfterMatch {leave : ℚ} (h0 : 0 ≤ leave) (q : ℚ)
    (hm : markets order.market = some market) :
    (orderAfterMatch leave q order).reservation markets u a = order.backingOf market u a leave := by
  refine (reservation_of_leave (o := orderAfterMatch leave q order) hm ?_).trans rfl
  rcases h0.eq_or_lt with rfl | h0
  · exact Or.inr rfl
  · exact Or.inl (orderAfterMatch_active h0 q order)

theorem reservation_of_terminal {o : Order} (hm : markets o.market = some market)
    (ht : o.terminal = true) : o.reservation markets u a = 0 := by
  rw [reservation_of_market hm, Order.active_eq_false ht]
  rfl

/-- **A submit keeps locked funds and reservations equal**, whatever happens. -/
theorem submit_locked {cmd : OrderSubmitCommand} {r : Except Failure Result} (hs : Safe m)
    (hcmd : OrderCommand.SUBMIT cmd ∈ m.db.commands) (h : SubmitOutcome cmd m r m')
    (hlocked : m.db.locked u a = m.db.reserved u a) : m'.db.locked u a = m'.db.reserved u a := by
  rcases h.unchanged_or with hdb | rfl
  · rwa [hdb]
  cases h with
  | committedLimit market order price hb ht hp hid hsub =>
    have hc := crossing_limit price hs.sound hcmd hb ht hid
    have hm : m.db.market? order.market = some market := hc.market ▸ hb.hmarket
    refine hsub.locked_eq hc hs hb.hmarket ?_ hlocked
    -- what the order has left is what it had, less what it traded
    have hsum := fill_conserves (crosses (sideToEngine order.side) price) order.leaveQty
      ((m.queues cmd.symbol).queue (sideToEngine order.side).opp)
    have hlive := (hs.sound.rows _ _ hb.horder).live hb.live
    rw [Book.add_leave, Book.add_fills,
      reservation_orderAfterMatch (fill_leave_nonneg _ hlive.2.le _) _ hm,
      reservation_of_leave hm (Or.inl hlive.1), Posting.lockedSum_nil, add_zero,
      ← Order.backingOf_sub]
    congr 1
    exact eq_sub_of_add_eq' hsum
  | committedMarket market order l hb ht hl hsub =>
    have hc := crossing_market hs.sound hs.backed hcmd hb ht hl
    have hm : m.db.market? order.market = some market := hc.market ▸ hb.hmarket
    have hrow := hs.sound.rows _ _ hb.horder
    have hact := (hrow.live hb.live).1
    refine hsub.locked_eq hc hs hb.hmarket ?_ hlocked
    -- what it traded and what is refunded add up to its quantity
    have hpos : ∀ r ∈ l, 0 < r.qty := hl ▸ (m.queues_wf cmd.symbol).pos _
    have hsum : ((sweepFill order.quantity l).fills.map (·.qty)).sum =
        order.leaveQty - sweepRemaining order.quantity l := by
      rw [hrow.whole ht hact]
      exact sweepFill_sum hrow.quantity.le hpos
    rw [reservation_of_terminal (o := marketAfter order _ order)
        ((Order.Fixed.marketAfter order _ order).market ▸ hm) (marketAfter_terminal _ _ _),
      reservation_of_leave hm (Or.inl hact), lockedSum_residualPostings _ _ _ _ ht
        (sweepRemaining_nonneg _ _), hsum, Order.backingOf_sub]
    ring

theorem cancel_locked {cmd : OrderCancelCommand} {r : Except Failure Result} (hs : Safe m)
    (h : CancelOutcome cmd m r m') (hlocked : m.db.locked u a = m.db.reserved u a) :
    m'.db.locked u a = m'.db.reserved u a := by
  rcases h.unchanged_or with hdb | ⟨market, order, ho, hm, live, hc⟩
  · rwa [hdb]
  have hrow := hs.sound.rows _ _ ho
  have hid : m.db.order? order.id = some order := by
    rw [Db.order?_id ho]
    exact ho
  have hmarkets : m'.db.market? = m.db.market? := Db.market?_congr hc.framed.markets
  rw [hc.posted.locked, lockedSum_releasePostings _ _ _ _ hrow, hlocked, Db.reserved, Db.reserved,
    hmarkets, hc.orders, Table.sum_modify hid, reservation_of_leave hm (Or.inl (hrow.live live).1),
    reservation_of_terminal (o := { order with status := .CANCELLED }) hm rfl]
  ring

end Commands

/-! ## Runs -/

section Runs

variable {u a : String}

/-- The two assets of a market, which no update changes. -/
def Market.assets (market : Market) : String × String := (market.baseAsset, market.quoteAsset)

theorem market?_assets {db db' : Db} {symbol : String} {input : MarketUpdateInput}
    (h : db'.markets = Table.modify symbol (Admin.applyMarketUpdate input) db.markets)
    (k : String) :
    (db'.market? k).map Market.assets = (db.market? k).map Market.assets := by
  unfold Db.market?
  rw [h, Table.find?_modify (f := Admin.applyMarketUpdate input) (fun _ => rfl)]
  split
  · rw [Option.map_map]
    rfl
  · rfl

/-- The assets of its market are what a reservation depends on. -/
theorem reservation_congr {markets markets' : String → Option Market}
    (h : ∀ k, (markets' k).map Market.assets = (markets k).map Market.assets) (o : Order) :
    o.reservation markets' u a = o.reservation markets u a := by
  have hk := h o.market
  unfold Order.reservation
  cases hm : markets o.market <;> cases hm' : markets' o.market <;> rw [hm, hm'] at hk
  case some.some mk mk' =>
    simp only [Option.map_some, Option.some.injEq, Market.assets, Prod.mk.injEq] at hk
    simp only [Order.backing, hk.1, hk.2]
  all_goals cases hk

/-- Setting the balance of a wallet leaves what is locked. -/
theorem locked_setField {db : Db} {userId asset : String} {value : ℚ} :
    ({ db with
      wallets := Table.modify (userId, asset) (Admin.setField .balance value) db.wallets } :
      Db).locked u a = db.locked u a := by
  unfold Db.locked Db.wallet?
  rw [Table.find?_modify (f := Admin.setField .balance value) (fun _ => rfl)]
  split
  · rw [Option.map_map]
    rfl
  · rfl

/-- **A call of the api keeps locked funds and reservations equal.** -/
theorem api_locked {s s' : Store} (h : ApiEffect (· ≠ .locked) s s')
    (hlocked : s.db.locked u a = s.db.reserved u a) : s'.db.locked u a = s'.db.reserved u a := by
  cases h with
  | idle hseq hdb => rwa [hdb]
  | placed o market cmd h =>
    have hmarkets := Db.market?_congr h.markets
    have hact : o.active = true := by simp [Order.active, h.status]
    rw [h.posted.locked, lockedSum_lockPostings, hlocked, Db.reserved, Db.reserved, hmarkets,
      h.orders, List.map_append, List.sum_append, List.map_singleton, List.sum_singleton,
      reservation_of_leave h.hmarket (Or.inl hact), h.leaveQty]
  | requested cmd o hseq h =>
    obtain ⟨row, -, -, hdb⟩ := h.outbox
    rw [hdb]
    exact hlocked
  | marketChanged symbol input hseq hdb =>
    have hres : s'.db.reserved u a = s.db.reserved u a := by
      unfold Db.reserved
      rw [show s'.db.orders = s.db.orders by rw [hdb]]
      congr 1
      exact List.map_congr_left fun o _ => reservation_congr (market?_assets (by rw [hdb])) o
    rw [hres, ← hlocked, hdb]
    rfl
  | adjusted userId asset field w value hfield hseq hw hn hdb =>
    cases field with
    | locked => exact absurd rfl hfield
    | balance =>
      rw [hdb, locked_setField, hlocked]
      rfl

/-- **Reservation backing.** As long as no `locked` column is adjusted by hand, in every reachable
state each wallet has locked what the live orders of its user reserve. -/
theorem locked_eq_reserved (h : m.Initial) (steps : List Step)
    (hadjust : ∀ l ∈ steps, l.Adjusts (· ≠ .locked)) (u a : String) :
    (m.run steps).db.locked u a = (m.run steps).db.reserved u a := by
  refine run_tables (I := fun db => db.locked u a = db.reserved u a) h ?_
    (fun hs hcmd ho => submit_locked hs hcmd ho) (fun hs ho => cancel_locked hs ho)
    (fun _ he => api_locked he) hadjust
  have hwallet : m.db.locked u a = 0 := by
    unfold Db.locked
    cases hw : m.db.wallet? u a with
    | none => rfl
    | some w => exact (h.wallets w (Table.mem_of_find? hw)).2
  rw [hwallet, Db.reserved, h.orders]
  rfl

theorem locked_eq_reserved_trading : Sample.exchange.Initial ∧
    (Sample.exchange.run Sample.trading).db.locked "bob" "BTC" =
      (Sample.exchange.run Sample.trading).db.reserved "bob" "BTC" ∧
    (Sample.exchange.run Sample.trading).db.reserved "bob" "BTC" = 1 :=
  ⟨Sample.exchange_initial, locked_eq_reserved Sample.exchange_initial Sample.trading
    (by simp [Sample.trading, Step.Adjusts]) "bob" "BTC", by decide +kernel⟩

end Runs

end Orbit
