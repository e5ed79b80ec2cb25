import Orbit.Matcher.Reservation

/-!
# The ledger reconciles with the trades

The balance and the locked amount of a wallet together are its total. Locking, cancelling and
refunding move amounts between the two and leave the total; a trade moves the totals of its two
parties, by what its row says (`totalSum_makerPostings`, `totalSum_takerPostings`). So the total of
a wallet is its initial total and what the trade rows add up to: `total_eq`.
-/

namespace Orbit

open PriceTime Settler Consumer

variable {E : Engine} {m m' : Matcher E}

/-- The balance and the locked amount of a wallet. -/
def Db.total (db : Db) (u a : String) : ℚ := db.balance u a + db.locked u a

/-- What a side of a trade gains of asset `a`: a buyer the quantity less the fee, for the price; a
seller the price less the fee, for the quantity. The fee's rate is `fee / qty`. -/
def sideGain (market : Market) (a : String) (side : OrderSide) (price qty fee : ℚ) : ℚ :=
  match side with
  | .BID => (if market.baseAsset = a then qty * (1 - fee / qty) else 0) -
      (if market.quoteAsset = a then price * qty else 0)
  | .ASK => (if market.quoteAsset = a then price * qty * (1 - fee / qty) else 0) -
      (if market.baseAsset = a then qty else 0)

/-- What a trade gains `u` of asset `a`, on each side that `u` is on. -/
def Trade.gain (markets : String → Option Market) (u a : String) (t : Trade) : ℚ :=
  match markets t.market with
  | some market =>
    (if t.makerUserId = u then sideGain market a t.makerSide t.price t.quantity t.makerFee else 0) +
      (if t.takerUserId = u then sideGain market a t.takerSide t.price t.quantity t.takerFee else 0)
  | none => 0

/-- What the trades gain `u` of asset `a`. -/
def Db.gains (db : Db) (u a : String) : ℚ := (db.trades.map (Trade.gain db.market? u a)).sum

/-! ## Postings -/

namespace Posting

/-- What the postings add to the total of `u` in `a`. -/
def totalSum (u a : String) (ps : List Posting) : ℚ := balanceSum u a ps + lockedSum u a ps

variable (u a : String)

theorem totalSum_append (ps qs : List Posting) :
    totalSum u a (ps ++ qs) = totalSum u a ps + totalSum u a qs := by
  unfold totalSum
  rw [balanceSum_append, lockedSum_append]
  ring

theorem totalSum_cons (p : Posting) (ps : List Posting) : totalSum u a (p :: ps) =
    (if p.userId = u then if p.asset = a then p.balance + p.locked else 0 else 0) +
      totalSum u a ps := by
  unfold totalSum
  rw [balanceSum_cons, lockedSum_cons]
  by_cases h₁ : p.userId = u <;> by_cases h₂ : p.asset = a <;> simp [h₁, h₂]
  ring

@[simp] theorem totalSum_nil : totalSum u a [] = 0 := by simp [totalSum]

end Posting

theorem Posted.total {db db' : Db} {ps : List Posting} (h : Posted db db' ps) (u a : String) :
    db'.total u a = db.total u a + Posting.totalSum u a ps := by
  unfold Db.total Posting.totalSum
  rw [h.balance, h.locked]
  ring

section Postings

variable (market : Market) (o : Order) (u a : String)

/-- What is moved between the two amounts of a wallet leaves its total. -/
theorem totalSum_shift (v b : String) (x : ℚ) :
    Posting.totalSum u a [⟨v, b, x, -x⟩] = 0 := by
  rw [Posting.totalSum_cons, Posting.totalSum_nil]
  simp

theorem totalSum_lockPostings : Posting.totalSum u a (lockPostings market o) = 0 := by
  unfold lockPostings
  split
  · rw [Posting.totalSum_cons, Posting.totalSum_nil]
    simp
  · rw [Posting.totalSum_cons, Posting.totalSum_nil]
    simp
  · exact Posting.totalSum_nil u a

theorem totalSum_releasePostings : Posting.totalSum u a (releasePostings market o) = 0 := by
  unfold releasePostings
  split
  · split
    · exact totalSum_shift _ _ _ _ _
    · exact Posting.totalSum_nil u a
    · exact totalSum_shift _ _ _ _ _
  · exact Posting.totalSum_nil u a

theorem totalSum_residualPostings (remaining : ℚ) :
    Posting.totalSum u a (residualPostings market o remaining) = 0 := by
  unfold residualPostings
  split
  · exact totalSum_shift _ _ _ _ _
  · exact Posting.totalSum_nil u a

theorem totalSum_makerPostings (price : ℚ) {qty : ℚ} (hq : 0 < qty) (rate : ℚ) :
    Posting.totalSum u a (makerPostings market o price qty rate) =
      if o.userId = u then sideGain market a o.side price qty (qty * rate) else 0 := by
  unfold makerPostings sideGain
  rw [mul_div_cancel_left₀ rate hq.ne']
  cases o.side <;> simp only [Posting.totalSum_cons, Posting.totalSum_nil] <;> split_ifs <;> ring

theorem totalSum_takerPostings (price : ℚ) {qty : ℚ} (hq : 0 < qty) (rate : ℚ) :
    Posting.totalSum u a (takerPostings market o price qty rate) =
      if o.userId = u then sideGain market a o.side price qty (qty * rate) else 0 := by
  unfold takerPostings sideGain
  rw [mul_div_cancel_left₀ rate hq.ne']
  cases o.side <;> cases o.type <;> cases o.price <;>
    simp only [Posting.totalSum_cons, Posting.totalSum_nil] <;> split_ifs <;> ring

end Postings

/-! ## Trades -/

section Trades

variable {market : Market} {taker order : Order} {markets : String → Option Market} {u a : String}

/-- A settled trade moves the totals by what its row says. -/
theorem Settler.FillSettled.total {rates : FeeRates} {matchId : MatchId} {t : EngineTrade}
    {maker : Order} {db db' : Db} {row : Trade}
    (h : FillSettled market taker rates matchId t maker db row db')
    (hm : markets market.symbol = some market) (hq : 0 < t.tradeQuantity) :
    db'.total u a = db.total u a + row.gain markets u a := by
  rw [h.posted.total, Posting.totalSum_append, totalSum_makerPostings _ _ _ _ _ hq,
    totalSum_takerPostings _ _ _ _ _ hq]
  congr 1
  rw [h.hrow, Trade.gain, hm]

/-- **Settled trades** move the totals by what their rows say. -/
theorem Settler.Settles.total {rates : FeeRates} {commandId : Uuid} {idx : ℕ} {db db' : Db}
    {ts : List EngineTrade} {rows : List Trade}
    (h : Settles market taker rates commandId idx db ts rows db')
    (hm : markets market.symbol = some market) (hq : ∀ t ∈ ts, 0 < t.tradeQuantity) :
    db'.total u a = db.total u a + (rows.map (Trade.gain markets u a)).sum ∧
      db'.trades = db.trades ++ rows := by
  induction h with
  | nil => simp
  | cons maker hf _ ih =>
    obtain ⟨htotal, htrades⟩ := ih fun t ht => hq t (by simp [ht])
    refine ⟨?_, ?_⟩
    · rw [htotal, hf.total hm (hq _ (by simp)), List.map_cons, List.sum_cons, add_assoc]
    · rw [htrades, hf.trades, List.append_assoc]
      rfl

/-- The totals differ from what the trades say by what they did before. -/
def Db.reconciles (initial : ℚ) (u a : String) (db : Db) : Prop :=
  db.total u a = initial + db.gains u a

variable {initial : ℚ}

theorem reconciles_of_posted {db db' : Db} {ps : List Posting} (h : Posted db db' ps)
    (hps : Posting.totalSum u a ps = 0) (ht : db'.trades = db.trades)
    (hm : db'.markets = db.markets) (hr : db.reconciles initial u a) :
    db'.reconciles initial u a := by
  unfold Db.reconciles Db.gains Db.market? at *
  rw [h.total, hps, add_zero, ht, hm, hr]

theorem Settler.Submitted.reconciles {cmd : OrderSubmitCommand} {fs : List (Fill ℕ ℚ ℚ)}
    {finish : Order → Order} {release : List Posting} {q : Queues} {rest : List (Resting ℕ ℚ ℚ)}
    (h : Submitted market order cmd fs finish release q m m')
    (hc : Crossing m cmd.symbol order finish fs rest)
    (hm : m.db.market? cmd.symbol = some market) (hrelease : Posting.totalSum u a release = 0)
    (hr : m.db.reconciles initial u a) : m'.db.reconciles initial u a := by
  obtain ⟨rows, db₁, hset, -, htrades, hposted⟩ := h.settled
  have hsymbol : market.symbol = cmd.symbol := Table.key_of_find? hm
  have hpos : ∀ t ∈ fs.map EngineTrade.ofFill, 0 < t.tradeQuantity := by
    intro t ht
    obtain ⟨f, hf, rfl⟩ := List.mem_map.mp ht
    obtain ⟨_, -, -, -, hpos, -⟩ := hc.consumed.exists_of_mem_fills ((m.queues_wf _).pos _) hf
    exact hpos
  obtain ⟨htotal, hrows⟩ := hset.total (u := u) (a := a) (by rw [hsymbol]; exact hm) hpos
  have hmarkets : m'.db.market? = m.db.market? := Db.market?_congr h.framed.markets
  unfold Db.reconciles Db.gains at *
  rw [hposted.total, hrelease, htotal, hr, htrades, hrows, hmarkets, List.map_append,
    List.sum_append]
  ring

end Trades

/-! ## Runs -/

section Runs

variable {u a : String} {initial : ℚ}

theorem submit_reconciles {cmd : OrderSubmitCommand} {r : Except Failure Result} (hs : Safe m)
    (hcmd : OrderCommand.SUBMIT cmd ∈ m.db.commands) (h : SubmitOutcome cmd m r m')
    (hr : m.db.reconciles initial u a) : m'.db.reconciles initial u a := by
  rcases h.unchanged_or with hdb | rfl
  · rwa [hdb]
  cases h with
  | committedLimit market order price hb ht hp hid hsub =>
    exact hsub.reconciles (crossing_limit price hs.sound hcmd hb ht hid) hb.hmarket
      (Posting.totalSum_nil u a) hr
  | committedMarket market order l hb ht hl hsub =>
    exact hsub.reconciles (crossing_market hs.sound hs.backed hcmd hb ht hl) hb.hmarket
      (totalSum_residualPostings _ _ _ _ _) hr

theorem cancel_reconciles {cmd : OrderCancelCommand} {r : Except Failure Result}
    (h : CancelOutcome cmd m r m') (hr : m.db.reconciles initial u a) :
    m'.db.reconciles initial u a := by
  rcases h.unchanged_or with hdb | ⟨market, order, ho, hm, live, hc⟩
  · rwa [hdb]
  exact reconciles_of_posted hc.posted (totalSum_releasePostings _ _ _ _) hc.trades
    hc.framed.markets hr

theorem gain_congr {markets markets' : String → Option Market}
    (h : ∀ k, (markets' k).map Market.assets = (markets k).map Market.assets) (t : Trade) :
    t.gain markets' u a = t.gain markets u a := by
  have hk := h t.market
  unfold Trade.gain
  cases hm : markets t.market <;> cases hm' : markets' t.market <;> rw [hm, hm'] at hk
  case some.some mk mk' =>
    simp only [Option.map_some, Option.some.injEq, Market.assets, Prod.mk.injEq] at hk
    simp only [sideGain, hk.1, hk.2]
  all_goals cases hk

theorem api_reconciles {s s' : Store} (h : ApiEffect (fun _ => False) s s')
    (hr : s.db.reconciles initial u a) : s'.db.reconciles initial u a := by
  cases h with
  | idle hseq hdb => rwa [hdb]
  | placed o market cmd h =>
    exact reconciles_of_posted h.posted (totalSum_lockPostings _ _ _ _) h.trades h.markets hr
  | requested cmd o hseq h =>
    obtain ⟨row, -, -, hdb⟩ := h.outbox
    rw [hdb]
    exact hr
  | marketChanged symbol input hseq hdb =>
    have hgains : s'.db.gains u a = s.db.gains u a := by
      unfold Db.gains
      rw [show s'.db.trades = s.db.trades by rw [hdb]]
      congr 1
      exact List.map_congr_left fun t _ => gain_congr (market?_assets (by rw [hdb])) t
    unfold Db.reconciles
    rw [hgains, ← hr, hdb]
    rfl
  | adjusted userId asset field w value hfield hseq hw hn hdb => exact hfield.elim

/-- **Ledger reconciliation.** As long as no wallet is adjusted by hand, in every reachable state
the balance and the locked amount of each wallet add up to its initial total and what the trade rows
say its user gained. -/
theorem total_eq (h : m.Initial) (steps : List Step)
    (hadjust : ∀ l ∈ steps, l.Adjusts fun _ => False)
    (u a : String) :
    (m.run steps).db.balance u a + (m.run steps).db.locked u a =
      m.db.balance u a + m.db.locked u a + (m.run steps).db.gains u a := by
  refine run_tables (I := Db.reconciles (m.db.total u a) u a) h ?_
    (fun hs hcmd ho => submit_reconciles hs hcmd ho) (fun _ ho => cancel_reconciles ho)
    (fun _ he => api_reconciles he) hadjust
  unfold Db.reconciles Db.gains
  rw [h.trades]
  simp

theorem total_eq_trading : Sample.exchange.Initial ∧
    (Sample.exchange.run Sample.trading).db.balance "bob" "USDT" +
        (Sample.exchange.run Sample.trading).db.locked "bob" "USDT" =
      Sample.exchange.db.balance "bob" "USDT" + Sample.exchange.db.locked "bob" "USDT" +
        (Sample.exchange.run Sample.trading).db.gains "bob" "USDT" ∧
    (Sample.exchange.run Sample.trading).db.gains "bob" "USDT" = 199 / 2 :=
  ⟨Sample.exchange_initial, total_eq Sample.exchange_initial Sample.trading
    (by simp [Sample.trading, Step.Adjusts]) "bob" "USDT", by decide +kernel⟩

end Runs

end Orbit
