import Mathlib.Algebra.BigOperators.Group.Finset.Piecewise
import Orbit.Matcher.Credits
import Orbit.Matcher.Ledger

/-!
# Supply

The supply of an asset is what all wallets of it hold, free or locked. By the ledger it is the
initial one and what the trades gain their parties. The two parties of a trade are a buyer and a
seller, so between them they gain nothing but lose the fees, which go to nobody (`sum_gain`). Fees
are not negative as long as the fee rates of the markets are not, which no code checks:
`AdminMarketsService.update` writes any rate.

* `Db.Charged`: the fee rates are between 0 and 10000 basis points, and each trade has a buyer and a
  seller, and fees that are not negative. Every step keeps it that sets no other rates.
* `supply_eq`: the supply is the initial one less the fees.
* `supply_le`: it never exceeds the initial one, and no wallet is credited a negative amount.
* `supply_inflated`: what a negative rate does, and one above 10000 basis points.
-/

namespace Orbit

open PriceTime Settler Consumer

variable {E : Engine} {m m' : Matcher E}

/-- The users that have a wallet. -/
def Db.holders (db : Db) : List String := (db.wallets.map (·.userId)).dedup

/-- What all users have of an asset. -/
def Db.supply (db : Db) (a : String) : ℚ := (db.holders.map fun u => db.total u a).sum

/-- The fee of a side of a trade, in what that side receives, if that is the asset `a`. -/
def sideFee (market : Market) (a : String) (side : OrderSide) (price fee : ℚ) : ℚ :=
  match side with
  | .BID => if market.baseAsset = a then fee else 0
  | .ASK => if market.quoteAsset = a then price * fee else 0

/-- What the two sides of a trade do not receive of asset `a`. -/
def Trade.withheld (markets : String → Option Market) (a : String) (t : Trade) : ℚ :=
  match markets t.market with
  | some market => sideFee market a t.makerSide t.price t.makerFee +
      sideFee market a t.takerSide t.price t.takerFee
  | none => 0

/-- What the trades withhold of asset `a`. -/
def Db.fees (db : Db) (a : String) : ℚ := (db.trades.map (Trade.withheld db.market? a)).sum

/-- A trade of a buyer and a seller, at a price and fees that are not negative. -/
structure Trade.Charged (t : Trade) : Prop where
  sides : t.makerSide ≠ t.takerSide
  quantity : 0 < t.quantity
  price : 0 ≤ t.price
  makerFee : 0 ≤ t.makerFee
  takerFee : 0 ≤ t.takerFee

/-- Between 0 and 10000 basis points. -/
def FeeInRange (bp : ℤ) : Prop := 0 ≤ bp ∧ bp ≤ 10000

structure Market.FeesInRange (market : Market) : Prop where
  maker : FeeInRange market.makerFeeBp
  taker : FeeInRange market.takerFeeBp

/-- The step sets no fee rate but between 0 and 10000 basis points. -/
def Step.FeesInRange : Step → Prop
  | .marketUpdate _ input _ => (∀ bp ∈ input.makerFeeBp, FeeInRange bp) ∧
      ∀ bp ∈ input.takerFeeBp, FeeInRange bp
  | _ => True

/-! ## Sums over users -/

/-- The supply is the sum over any users that include the holders. -/
theorem Db.supply_eq_sum (db : Db) (a : String) {U : Finset String} (hU : ∀ u ∈ db.holders, u ∈ U) :
    db.supply a = ∑ u ∈ U, db.total u a := by
  have hnone : ∀ u ∉ db.holders, db.total u a = 0 := by
    intro u hu
    have hwallet : db.wallet? u a = none := by
      refine Table.find?_eq_none.mpr fun w hw e => hu ?_
      obtain ⟨rfl, -⟩ := Prod.mk.inj e
      exact List.mem_dedup.mpr (List.mem_map_of_mem hw)
    simp [Db.total, Db.balance, Db.locked, hwallet]
  have hnodup : db.holders.Nodup := List.nodup_dedup _
  rw [Db.supply, ← List.sum_toFinset _ hnodup]
  refine Finset.sum_subset (fun u hu => hU u (List.mem_toFinset.mp hu)) fun u _ hu => ?_
  exact hnone u fun hmem => hu (List.mem_toFinset.mpr hmem)

section Trades

variable {markets : String → Option Market} {a : String}

/-- A buyer and a seller gain the opposite of each other, less their fees. -/
theorem sideGain_add (market : Market) {s s' : OrderSide} (hs : s ≠ s') (price : ℚ) {qty : ℚ}
    (hq : 0 < qty) (fee fee' : ℚ) :
    sideGain market a s price qty fee + sideGain market a s' price qty fee' =
      -(sideFee market a s price fee + sideFee market a s' price fee') := by
  have hnet : ∀ x : ℚ, qty * (1 - x / qty) = qty - x := by
    intro x
    rw [mul_sub, mul_one, mul_div_cancel₀ x hq.ne']
  cases s <;> cases s'
  · exact absurd rfl hs
  · simp only [sideGain, sideFee, mul_assoc, hnet]
    split_ifs <;> ring
  · simp only [sideGain, sideFee, mul_assoc, hnet]
    split_ifs <;> ring
  · exact absurd rfl hs

/-- **What a trade gains all users** is what its fees withhold, lost. -/
theorem sum_gain {t : Trade} (hs : t.makerSide ≠ t.takerSide)
    (hq : 0 < t.quantity) {U : Finset String}
    (hmaker : t.makerUserId ∈ U) (htaker : t.takerUserId ∈ U) :
    ∑ u ∈ U, t.gain markets u a = -t.withheld markets a := by
  unfold Trade.gain Trade.withheld
  cases markets t.market with
  | none => simp
  | some market =>
    simp only [Finset.sum_add_distrib, Finset.sum_ite_eq, hmaker, htaker, if_true]
    exact sideGain_add market hs _ hq _ _

theorem sum_gains {ts : List Trade} (hc : ∀ t ∈ ts, t.makerSide ≠ t.takerSide ∧ 0 < t.quantity)
    {U : Finset String} (hU : ∀ t ∈ ts, t.makerUserId ∈ U ∧ t.takerUserId ∈ U) :
    ∑ u ∈ U, (ts.map (Trade.gain markets u a)).sum = -(ts.map (Trade.withheld markets a)).sum := by
  induction ts with
  | nil => simp
  | cons t ts ih =>
    obtain ⟨hmaker, htaker⟩ := hU t (by simp)
    simp only [List.map_cons, List.sum_cons, Finset.sum_add_distrib]
    rw [ih (fun x hx => hc x (by simp [hx])) (fun x hx => hU x (by simp [hx])),
      sum_gain (hc t (by simp)).1 (hc t (by simp)).2 hmaker htaker]
    ring

theorem withheld_nonneg {t : Trade} (ht : t.Charged) : 0 ≤ t.withheld markets a := by
  have hside : ∀ market s fee, 0 ≤ fee → 0 ≤ sideFee market a s t.price fee := by
    intro market s fee hfee
    cases s <;> simp only [sideFee] <;> split_ifs
    · exact hfee
    · exact le_rfl
    · exact mul_nonneg ht.price hfee
    · exact le_rfl
  unfold Trade.withheld
  split
  · exact add_nonneg (hside _ _ _ ht.makerFee) (hside _ _ _ ht.takerFee)
  · exact le_rfl

end Trades

/-! ## The trades that are made -/

theorem feeRate_nonneg {bp : ℤ} (h : FeeInRange bp) : 0 ≤ feeRate bp := by
  unfold feeRate
  exact div_nonneg (by exact_mod_cast h.1) (by norm_num)

/-- Settled trades between a taker and makers of the other side. -/
theorem Settler.Settles.charged {market : Market} {order : Order} {rates : FeeRates}
    {commandId : Uuid} {idx : ℕ} {db db' : Db} {ts : List EngineTrade} {rows : List Trade}
    (h : Settles market order rates commandId idx db ts rows db') (h₁ : 0 ≤ rates.maker)
    (h₂ : 0 ≤ rates.taker) (hts : ∀ t ∈ ts, 0 ≤ t.tradePrice ∧ 0 < t.tradeQuantity)
    (hsides : ∀ t ∈ ts, ∀ maker, db.order? t.makerOrderId = some maker → maker.side ≠ order.side) :
    ∀ row ∈ rows, row.Charged := by
  induction h with
  | nil => simp
  | @cons idx db db₁ _ t ts row rows maker hf _ ih =>
    obtain ⟨hp, hq⟩ := hts t (by simp)
    refine List.forall_mem_cons.mpr ⟨?_, ih (fun x hx => hts x (by simp [hx])) fun x hx o ho => ?_⟩
    · rw [hf.hrow]
      exact ⟨hsides t (by simp) maker hf.hmaker, hq, hp, mul_nonneg hq.le h₁, mul_nonneg hq.le h₂⟩
    · -- the makers have kept their sides
      rw [Db.order?_of_modify hf.orders (fun _ => rfl)] at ho
      split at ho
      · obtain ⟨o₀, ho₀, rfl⟩ := Option.map_eq_some_iff.mp ho
        have hmaker : db.order? x.makerOrderId = some maker := by
          rename_i e
          rw [e]
          exact hf.hmaker
        obtain rfl : maker = o₀ := Option.some.inj (hmaker.symm.trans ho₀)
        exact hsides x (by simp [hx]) maker ho₀
      · exact hsides x (by simp [hx]) o ho

/-- The fee rates of every market are in range, and every trade has a buyer and a seller, and fees
that are not negative. -/
structure Db.Charged (db : Db) : Prop where
  markets : ∀ market ∈ db.markets, market.FeesInRange
  trades : ∀ t ∈ db.trades, t.Charged

theorem Db.Charged.congr {db db' : Db} (h : db.Charged) (hm : db'.markets = db.markets)
    (ht : db'.trades = db.trades) : db'.Charged :=
  ⟨hm ▸ h.markets, ht ▸ h.trades⟩

theorem submit_charged (hs : Safe m) {cmd : OrderSubmitCommand} {r : Except Failure Result}
    (hcmd : OrderCommand.SUBMIT cmd ∈ m.db.commands) (h : SubmitOutcome cmd m r m')
    (hc : m.db.Charged) : m'.db.Charged := by
  rcases h.unchanged_or with hdb | rfl
  · exact hdb ▸ hc
  obtain ⟨market, order, finish, fs, rest, release, q, hbegun, hcross, hsub⟩ :=
    submit_crossing hs.sound hs.backed hcmd h
  obtain ⟨rows, db₁, hset, -, htrades, -⟩ := hsub.settled
  have hfees := hc.markets market (Table.mem_of_find? hbegun.hmarket)
  refine ⟨fun x hx => hc.markets x (hsub.framed.markets ▸ hx), fun t ht => ?_⟩
  rw [htrades, hset.trades, List.mem_append] at ht
  rcases ht with ht | ht
  · exact hc.trades t ht
  have hmakes : ∀ f ∈ fs, ∃ maker, Makes m.db cmd.symbol (sideToEngine order.side).opp f maker :=
    fun f hf => hs.backed.makes tracks_le hcross.consumed hf
  refine hset.charged (feeRate_nonneg hfees.maker) (feeRate_nonneg hfees.taker) (fun x hx => ?_)
    (fun x hx maker hmaker hside => ?_) t ht
  · obtain ⟨f, hf, rfl⟩ := List.mem_map.mp hx
    obtain ⟨maker, hmake⟩ := hmakes f hf
    exact ⟨((hs.sound.rows _ _ hmake.row).price_pos hmake.price).le, hmake.pos⟩
  · obtain ⟨f, hf, rfl⟩ := List.mem_map.mp hx
    obtain ⟨maker', hmake⟩ := hmakes f hf
    obtain rfl : maker' = maker := Option.some.inj (hmake.row.symm.trans hmaker)
    have hopp := hmake.side
    rw [hside] at hopp
    cases hos : order.side <;> rw [hos] at hopp <;> cases hopp

theorem cancel_charged {cmd : OrderCancelCommand} {r : Except Failure Result}
    (h : CancelOutcome cmd m r m') (hc : m.db.Charged) : m'.db.Charged := by
  refine hc.congr h.framed.markets ?_
  rcases h.unchanged_or with hdb | ⟨market, order, ho, hm, live, hcancel⟩
  · rw [hdb]
  exact hcancel.trades

theorem fees_applyMarketUpdate {input : MarketUpdateInput} {market : Market}
    (h : market.FeesInRange)
    (hmaker : ∀ bp ∈ input.makerFeeBp, FeeInRange bp)
      (htaker : ∀ bp ∈ input.takerFeeBp, FeeInRange bp) :
    (Admin.applyMarketUpdate input market).FeesInRange := by
  have hget : ∀ {bp? : Option ℤ} {bp : ℤ}, FeeInRange bp → (∀ x ∈ bp?, FeeInRange x) →
      FeeInRange (bp?.getD bp) := by
    intro bp? bp h₀ h
    cases bp? with
    | none => exact h₀
    | some x => exact h x rfl
  exact ⟨hget h.maker hmaker, hget h.taker htaker⟩

/-- A call of the api that leaves the markets alone trades nothing either. -/
theorem call_charged {α : Type} {faults : Option ℕ} {x : Stm α} (hc : m.db.Charged)
    (h : ∀ r s', x { m.store with faults } = (r, s') →
      s'.db.markets = m.db.markets ∧ s'.db.trades = m.db.trades) :
        (m.call faults x).db.Charged := by
  obtain ⟨hm, ht⟩ := h _ _ rfl
  exact hc.congr hm ht

/-- **Every step** that sets no rate out of range. -/
theorem step_charged (hs : Safe m) {l : Step} (hl : l.FeesInRange) (hc : m.db.Charged) :
    (m.step l).db.Charged := by
  cases l with
  | submit userId dto faults =>
    refine call_charged hc fun r s' h => ?_
    rcases OrderService.submit_cases h with hdb | ⟨o, market, cmd, -, hp⟩
    · exact ⟨by rw [hdb]; rfl, by rw [hdb]; rfl⟩
    · exact ⟨hp.markets, hp.trades⟩
  | cancel userId orderId faults =>
    refine call_charged hc fun r s' h => ?_
    rcases OrderService.cancel_cases h with hdb | ⟨cmd, o, hreq⟩
    · exact ⟨by rw [hdb]; rfl, by rw [hdb]; rfl⟩
    · obtain ⟨row, -, -, hdb⟩ := hreq.outbox
      exact ⟨by rw [hdb]; rfl, by rw [hdb]; rfl⟩
  | forceCancel orderId faults =>
    refine call_charged hc fun r s' h => ?_
    rcases Admin.forceCancel_cases h with hdb | ⟨cmd, o, hreq⟩
    · exact ⟨by rw [hdb]; rfl, by rw [hdb]; rfl⟩
    · obtain ⟨row, -, -, hdb⟩ := hreq.outbox
      exact ⟨by rw [hdb]; rfl, by rw [hdb]; rfl⟩
  | deliver cmd faults =>
    change (m.deliver cmd faults).db.Charged
    rcases deliver_eq m cmd faults with ⟨-, h⟩ | ⟨hcmd, r, m₁, hd, h⟩
    · rwa [h]
    · rw [h]
      change m₁.db.Charged
      have hs₀ := hs.of_same (m.same_withFaults faults)
      cases cmd with
      | SUBMIT cmd =>
        exact submit_charged (m := m.withFaults faults) hs₀ hcmd
          (dispatch_submit_of_sound hs₀.sound hd) hc
      | CANCEL cmd => exact cancel_charged (m := m.withFaults faults) (dispatch_cancel hd) hc
  | restart => exact hc
  | marketUpdate symbol input faults =>
    obtain ⟨hmaker, htaker⟩ := hl
    rcases h : Admin.marketUpdate symbol input { m.store with faults } with ⟨r, s'⟩
    change ((Admin.marketUpdate symbol input { m.store with faults }).2.db).Charged
    rw [h]
    rcases Admin.marketUpdate_cases h with hdb | hdb
    · exact hdb ▸ hc
    · rw [hdb]
      refine ⟨fun x hx => ?_, hc.trades⟩
      rcases Table.mem_modify hx with hx | ⟨market, hmarket, rfl⟩
      · exact hc.markets x hx
      · exact fees_applyMarketUpdate (hc.markets market (Table.mem_of_find? hmarket)) hmaker htaker
  | adjust userId asset field delta faults =>
    refine call_charged hc fun r s' h => ?_
    rcases Admin.adjust_cases h with hdb | ⟨w, value, -, -, hdb⟩
    · exact ⟨by rw [hdb]; rfl, by rw [hdb]; rfl⟩
    · exact ⟨by rw [hdb]; rfl, by rw [hdb]; rfl⟩
  | tick now => exact hc

/-! ## Runs -/

section Runs

theorem run_charged (h : m.Initial) (hfees : ∀ market ∈ m.db.markets, market.FeesInRange)
    {steps : List Step} (hsteps : ∀ l ∈ steps, l.FeesInRange) : (m.run steps).db.Charged := by
  have hrun : ∀ (ls : List Step) (m : Matcher E),
    (∀ l ∈ ls, l.FeesInRange) → Safe m → m.db.Charged →
      (m.run ls).db.Charged := by
    intro ls
    induction ls with
    | nil => exact fun _ _ _ hc => hc
    | cons l ls ih =>
      exact fun m hl hs hc => ih _ (fun x hx => hl x (by simp [hx])) (step_safe hs l)
        (step_charged hs (hl l (by simp)) hc)
  refine hrun steps m hsteps (initial_safe h) ⟨hfees, fun t ht => ?_⟩
  rw [h.trades] at ht
  cases ht

/-- **The supply** of an asset is the initial one less what the fees of the trades withhold. -/
theorem supply_eq (h : m.Initial) (hfees : ∀ market ∈ m.db.markets, market.FeesInRange)
    (steps : List Step) (hadjust : ∀ l ∈ steps, l.Adjusts fun _ => False)
    (hsteps : ∀ l ∈ steps, l.FeesInRange) (a : String) :
    (m.run steps).db.supply a = m.db.supply a - (m.run steps).db.fees a := by
  have hc := run_charged h hfees hsteps
  -- the holders before and after, and the parties of the trades
  let parties := (m.run steps).db.trades.flatMap fun t => [t.makerUserId, t.takerUserId]
  let U := (m.db.holders ++ (m.run steps).db.holders ++ parties).toFinset
  have hU : ∀ t ∈ (m.run steps).db.trades, t.makerUserId ∈ U ∧ t.takerUserId ∈ U := by
    intro t ht
    have hmem : ∀ u ∈ [t.makerUserId, t.takerUserId], u ∈ U := fun u hu =>
      List.mem_toFinset.mpr (List.mem_append_right _ (List.mem_flatMap.mpr ⟨t, ht, hu⟩))
    exact ⟨hmem _ (by simp), hmem _ (by simp)⟩
  rw [Db.supply_eq_sum (m.run steps).db a (U := U) fun u hu => by simp [U, hu],
    Db.supply_eq_sum m.db a (U := U) fun u hu => by simp [U, hu]]
  have htotal : ∀ u, (m.run steps).db.total u a = m.db.total u a + (m.run steps).db.gains u a :=
    fun u => total_eq h steps hadjust u a
  have hgains : ∑ u ∈ U, (m.run steps).db.gains u a = -(m.run steps).db.fees a :=
    sum_gains (fun t ht => ⟨(hc.trades t ht).sides, (hc.trades t ht).quantity⟩) hU
  simp only [htotal, Finset.sum_add_distrib]
  rw [hgains]
  ring

/-- **Supply never inflates**, where the fee rates of the markets start between 0 and 10000 basis
points and no update sets others. As long as no wallet is adjusted by hand, no more of an asset is
held in any reachable state than in the initial one, and no command, whenever it is delivered and
whether it commits or not, calls `creditWallet` with a negative amount. -/
theorem supply_le (h : m.Initial) (hfees : ∀ market ∈ m.db.markets, market.FeesInRange)
    (steps : List Step) (hadjust : ∀ l ∈ steps, l.Adjusts fun _ => False)
    (hsteps : ∀ l ∈ steps, l.FeesInRange) :
    (∀ a, (m.run steps).db.supply a ≤ m.db.supply a) ∧
    ∀ cmd faults e, dispatchWith (refusing e) cmd ((m.run steps).withFaults faults) =
      dispatch cmd ((m.run steps).withFaults faults) := by
  have hc := run_charged h hfees hsteps
  refine ⟨fun a => ?_, fun cmd faults e => ?_⟩
  · rw [supply_eq h hfees steps hadjust hsteps a]
    refine sub_le_self _ (List.sum_nonneg fun x hx => ?_)
    obtain ⟨t, ht, rfl⟩ := List.mem_map.mp hx
    exact withheld_nonneg (hc.trades t ht)
  · refine dispatchWith_refusing ((run_safe h steps).of_same (Matcher.same_withFaults _ faults))
      (fun market hmarket => ?_) cmd e
    have hrange := hc.markets market hmarket
    exact ⟨hrange.maker.2, hrange.taker.2⟩

end Runs

/-! ## Runs on the sample exchange -/

section Runs

open Sample

/-- The fees of the trade of `bob` and `alice`: there is less of both assets. -/
theorem supply_le_trading : exchange.Initial ∧
    (∀ market ∈ exchange.db.markets, market.FeesInRange) ∧
    (exchange.run trading).db.supply "BTC" ≤ exchange.db.supply "BTC" ∧
    (exchange.run trading).db.supply "BTC" = 999 / 100 := by
  have hfees : ∀ market ∈ exchange.db.markets, market.FeesInRange := by
    intro market hmarket
    obtain rfl : market = btcUsdt := List.mem_singleton.mp hmarket
    exact ⟨⟨by decide, by decide⟩, ⟨by decide, by decide⟩⟩
  exact ⟨exchange_initial, hfees, (supply_le exchange_initial hfees trading
    (by simp [trading, Step.Adjusts]) (by simp [trading, Step.FeesInRange])).1 "BTC",
    by decide +kernel⟩

/-- The fee rate of the takers is set to minus one per cent before `bob` and `alice` trade. -/
def rebate : List Step :=
  .marketUpdate "BTC-USDT" ⟨none, none, none, none, some (-100), none⟩ none :: trading

/-- It is set to 200 per cent before their orders are settled. -/
def levy : List Step :=
  .marketUpdate "BTC-USDT" ⟨none, none, none, none, some 20000, none⟩ none :: trading.take 3

/-- **Rates that `update` accepts**: of a negative one there is more of an asset after a trade, and
one above 10000 basis points has a command credit a wallet a negative amount. -/
theorem supply_inflated : exchange.Initial ∧
    (∀ l ∈ rebate, l.Adjusts fun _ => False) ∧
    exchange.db.supply "BTC" < (exchange.run rebate).db.supply "BTC" ∧
    (∀ l ∈ levy, l.Adjusts fun _ => False) ∧
    submitted 3 2 "alice" (limit .BID 110 1) ∈ (exchange.run levy).db.commands ∧
    (dispatchWith (refusing .fault) (submitted 3 2 "alice" (limit .BID 110 1))
      (exchange.run levy)).1 ≠
      (dispatch (submitted 3 2 "alice" (limit .BID 110 1)) (exchange.run levy)).1 :=
  ⟨exchange_initial, by simp [rebate, trading, Step.Adjusts], by decide +kernel,
    by simp [levy, trading, Step.Adjusts], by decide +kernel, by decide +kernel⟩

end Runs

end Orbit
