import Orbit.Matcher.Safety

/-!
# Every call of `creditWallet`

The settler is the instance at its `creditWallet` of definitions that have the statement that
credits a wallet as a parameter (`dispatchWith_creditWallet`). At `refusing e`, which fails with `e`
where the amount is negative, they tell whether a call with a negative amount is made on the way,
also by a transaction that fails later and is rolled back.

* `settleTradesWith_refusing`: at fee rates of at most one and trades of positive quantities at
  prices that are not negative, no call is refused.
* `matchSubmitWith_agrees`: the trades of a book whose prices are not negative are such.
* `dispatchWith_refusing`: so a command of a safe exchange makes no such call.
-/

namespace Orbit

open PriceTime

/-- **The consumer is the instance at the `creditWallet` of the settler.** -/
theorem Consumer.dispatchWith_creditWallet {E : Engine} (cmd : OrderCommand) :
    (Consumer.dispatchWith Settler.creditWallet cmd : Act E Consumer.Result) =
      Consumer.dispatch cmd := rfl

/-- `creditWallet`, which fails with `e` where the amount is negative. -/
def Settler.refusing (e : Failure) (userId asset : String) (amount : ℚ) : Stm Unit :=
  if amount < 0 then Tx.fail e else creditWallet userId asset amount

/-! ## Trades that credit no negative amount -/

/-- A trade of a quantity that is not negative, at such a price. -/
structure EngineTrade.Priced (t : EngineTrade) : Prop where
  price : 0 ≤ t.tradePrice
  quantity : 0 ≤ t.tradeQuantity

namespace Settler

variable {E : Engine}

/-- Fee rates of at most one. -/
structure FeeRates.AtMostOne (rates : FeeRates) : Prop where
  maker : rates.maker ≤ 1
  taker : rates.taker ≤ 1

theorem refusing_of_nonneg {e : Failure} {userId asset : String} {amount : ℚ} (h : 0 ≤ amount) :
    refusing e userId asset amount = creditWallet userId asset amount := if_neg (not_lt.mpr h)

section Refusing

variable {e : Failure} {market : Market} {taker maker : Order}
    {rates : FeeRates} {price qty rate : ℚ}

theorem settleMakerWith_refusing (hp : 0 ≤ price) (hq : 0 ≤ qty) (hr : rate ≤ 1) :
    settleMakerWith (refusing e) market maker price qty rate =
    settleMaker market maker price qty rate := by
  have hbase : 0 ≤ qty * (1 - rate) := mul_nonneg hq (sub_nonneg.mpr hr)
  have hquote : 0 ≤ price * qty * (1 - rate) := mul_nonneg (mul_nonneg hp hq) (sub_nonneg.mpr hr)
  unfold settleMaker settleMakerWith
  simp only [refusing_of_nonneg hbase, refusing_of_nonneg hquote]

theorem settleTakerWith_refusing (hp : 0 ≤ price) (hq : 0 ≤ qty) (hr : rate ≤ 1) :
    settleTakerWith (refusing e) market taker price qty rate =
    settleTaker market taker price qty rate := by
  have hbase : 0 ≤ qty * (1 - rate) := mul_nonneg hq (sub_nonneg.mpr hr)
  have hquote : 0 ≤ price * qty * (1 - rate) := mul_nonneg (mul_nonneg hp hq) (sub_nonneg.mpr hr)
  unfold settleTaker settleTakerWith
  simp only [refusing_of_nonneg hbase, refusing_of_nonneg hquote]

/-- **Settling such trades refuses no call.** -/
theorem settleTradesWith_refusing (hr : rates.AtMostOne) (commandId : Uuid) (idx : ℕ)
    {ts : List EngineTrade} (hts : ∀ t ∈ ts, t.Priced) :
    (settleTradesWith (refusing e) market taker rates commandId idx ts : Act E (List Trade)) =
      settleTrades market taker rates commandId idx ts := by
  induction ts generalizing idx with
  | nil => rfl
  | cons t ts ih =>
    obtain ⟨hp, hq⟩ := hts t (by simp)
    rw [settleTradesWith]
    simp only [ih _ fun t ht => hts t (by simp [ht]), settleTradeWith, settleFillWith,
      settleMakerWith_refusing hp hq hr.maker, settleTakerWith_refusing hp hq hr.taker]
    rfl

end Refusing

/-! ## The trades of a book -/

/-- The prices in the book of a market are not negative. -/
def PricedBook (symbol : String) (m : Matcher E) : Prop :=
  ∀ side, ∀ r ∈ (m.queues symbol).queue side, 0 ≤ r.price

section Books

variable {symbol : String} {m m' : Matcher E}

theorem PricedBook.congr (h : PricedBook symbol m) (hq : m'.queues symbol = m.queues symbol) :
    PricedBook symbol m' := by
  unfold PricedBook
  rwa [hq]

/-- A computation that keeps off the books. -/
theorem agrees_of_quiet {α : Type} {x : Act E α} (hx : Quiet x) :
    Tx.Agrees (PricedBook symbol) (fun _ => True) x x :=
  fun m hm => ⟨rfl, hm.congr (Matcher.queues_congr (hx m).books symbol), fun _ _ => trivial⟩

/-- What `add` trades, and what it leaves in the book. -/
theorem agrees_bookAdd {id : ℕ} {side : Side} {price qty : ℚ} (hp : 0 ≤ price) (hq : 0 < qty) :
    Tx.Agrees (PricedBook symbol) (fun r : AddResult => ∀ t ∈ r.trades, EngineTrade.Priced t)
      (bookAdd symbol id side price qty : Act E AddResult) (bookAdd symbol id side price qty) := by
  intro m hm
  refine ⟨rfl, ?_⟩
  by_cases hid : id ∈ (m.queues symbol).ids
  · obtain ⟨msg, hadd⟩ := E.add_resting (m.book symbol) id side price qty hid
    simp only [bookAdd, hadd]
    exact ⟨hm, fun _ e => by cases e⟩
  obtain ⟨b, hadd, hb⟩ := E.add_new (m.book symbol) id side price qty hid hq
  have hcons := fill_consumed (crosses side price) qty ((m.queues symbol).queue side.opp)
  have hpos := (m.queues_wf symbol).pos side.opp
  simp only [bookAdd, hadd]
  refine ⟨fun s r hr => ?_, fun a ha t ht => ?_⟩
  · rw [Matcher.queues_setBook_self, hb] at hr
    rcases side.eq_or_eq_opp s with rfl | rfl
    · rcases mem_queue_add hr with hr | ⟨rfl, -⟩
      · exact hm _ r hr
      · exact hp
    · rw [Book.queue_opp_add] at hr
      obtain ⟨r₀, hr₀, -, hprice, -⟩ := exists_le_of_shrunk (hcons.shrunk hpos) hr
      exact hprice ▸ hm _ r₀ hr₀
  · obtain rfl := Except.ok.inj ha
    obtain ⟨f, hf, rfl⟩ := List.mem_map.mp ht
    rw [Book.add_fills] at hf
    obtain ⟨r, hr, -, hprice, hq', -⟩ := hcons.exists_of_mem_fills hpos hf
    have hprice' : 0 ≤ f.price := hprice ▸ hm _ r hr
    exact ⟨hprice', hq'.le⟩

theorem agrees_bookCancel (id : ℕ) :
    Tx.Agrees (PricedBook symbol) (fun _ => True) (bookCancel symbol id : Act E Unit)
      (bookCancel symbol id) := by
  intro m hm
  obtain ⟨m₁, h, -, hbook⟩ := bookCancel_apply m symbol id
  rw [h]
  refine ⟨rfl, fun side r hr => ?_, fun _ _ => trivial⟩
  rw [hbook.queues_eq, Book.queue_cancel, List.mem_filter] at hr
  exact hm side r hr.1

/-- The levels of a queue have the prices of its orders, and what they hold. -/
theorem levels_bounds {l : List (Resting ℕ ℚ ℚ)} (h : ∀ r ∈ l, 0 ≤ r.price ∧ 0 < r.qty) :
    ∀ v ∈ levels l, 0 ≤ v.price ∧ 0 < v.qty := by
  induction l with
  | nil => simp [levels]
  | cons r rs ih =>
    have hrs := ih fun x hx => h x (by simp [hx])
    obtain ⟨hp, hq⟩ := h r (by simp)
    unfold levels
    split
    · simpa using ⟨hp, hq⟩
    · rename_i l ls heq
      rw [heq] at hrs
      obtain ⟨hl, hls⟩ := List.forall_mem_cons.mp hrs
      split
      · exact List.forall_mem_cons.mpr ⟨⟨hp, add_pos hq hl.2⟩, hls⟩
      · exact List.forall_mem_cons.mpr ⟨⟨hp, hq⟩, hrs⟩

variable {e : Failure} {market : Market} {order : Order} {rates : FeeRates}

/-- The settlement of such trades, whose calls are all let through. -/
theorem agrees_settleTrades (hr : rates.AtMostOne) (commandId : Uuid)
    (idx : ℕ) {ts : List EngineTrade}
    (hts : ∀ t ∈ ts, t.Priced) :
    Tx.Agrees (PricedBook symbol) (fun _ => True)
      (settleTrades market order rates commandId idx ts : Act E (List Trade))
      (settleTradesWith (refusing e) market order rates commandId idx ts) := by
  rw [settleTradesWith_refusing hr commandId idx hts]
  exact agrees_of_quiet (quiet_settleTrades _ _ _ _ _ _)

theorem agrees_sweepLevels (hr : rates.AtMostOne) (commandId : Uuid)
    (counter idx : ℕ) (remaining : ℚ)
    {lvls : List BookLevel} (hl : ∀ lvl ∈ lvls, 0 ≤ lvl.price ∧ 0 < lvl.quantity) :
    Tx.Agrees (PricedBook symbol) (fun _ => True)
      (sweepLevels symbol market order rates commandId counter idx remaining lvls :
        Act E (List Trade × ℚ))
      (sweepLevelsWith (refusing e) symbol market order rates commandId counter
        idx remaining lvls) := by
  induction lvls generalizing counter idx remaining with
  | nil => exact .pure trivial
  | cons lvl lvls ih =>
    obtain ⟨hlvl, hlvls⟩ := List.forall_mem_cons.mp hl
    rw [sweepLevels_cons, sweepLevelsWith]
    split
    · exact .pure trivial
    · rename_i hrem
      refine (agrees_bookAdd hlvl.1 (lt_min hlvl.2 (not_le.mp hrem))).bind fun sweep hsweep => ?_
      refine (agrees_settleTrades hr commandId idx hsweep).bind fun fills _ => ?_
      have hrest : Tx.Agrees (PricedBook symbol) (fun _ => True)
          (sweepLevels symbol market order rates commandId (counter + 1) (idx + sweep.trades.length)
            (remaining - min lvl.quantity remaining) lvls >>= fun r => pure (fills ++ r.1, r.2) :
            Act E (List Trade × ℚ))
          (sweepLevelsWith (refusing e) symbol market order rates commandId (counter + 1)
            (idx + sweep.trades.length) (remaining - min lvl.quantity remaining) lvls >>=
            fun r => pure (fills ++ r.1, r.2)) :=
        (ih _ _ _ hlvls).bind fun _ _ => .pure trivial
      dsimp only
      split
      · exact (agrees_bookCancel _).bind fun _ _ => hrest
      · exact hrest

/-- The matching of a submit. -/
theorem agrees_matchSubmit {cmd : OrderSubmitCommand} (hr : rates.AtMostOne) (hs : order.Sound)
    (h0 : 0 < order.leaveQty) :
    Tx.Agrees (PricedBook cmd.symbol) (fun _ => True)
      (matchSubmit market order cmd rates : Act E (List Trade))
      (matchSubmitWith (refusing e) market order cmd rates) := by
  cases ht : order.type with
  | LIMIT =>
    obtain ⟨price, hp, hpos⟩ := hs.limit ht
    simp only [matchSubmit_limit ht hp, matchSubmitWith, ht, hp]
    exact (agrees_bookAdd hpos.le h0).bind fun res hres => (agrees_settleTrades hr _ _ hres).bind
      fun _ _ => (agrees_of_quiet (quiet_onStore (frames_updateOrderAfterMatch _ _ _))).bind
        fun _ _ => .pure trivial
  | MARKET =>
    rw [matchSubmit_market ht, executeMarketOrder_eq]
    simp only [matchSubmitWith, ht, executeMarketOrderWith]
    have hsnapshot : Tx.Agrees (PricedBook cmd.symbol)
        (fun ob : Snapshot => ∀ lvl ∈ oppositeLevels order.side ob,
        0 ≤ lvl.price ∧ 0 < lvl.quantity)
        (getOrderbook cmd.symbol : Act E Snapshot) (getOrderbook cmd.symbol) := by
      intro m hm
      refine ⟨rfl, hm, fun ob hob lvl hlvl => ?_⟩
      obtain rfl := Except.ok.inj hob
      rw [getOrderbook_levels] at hlvl
      obtain ⟨v, hv, rfl⟩ := List.mem_map.mp hlvl
      exact levels_bounds (fun r hr => ⟨hm _ r hr, (m.queues_wf _).pos _ r hr⟩) v
        (List.mem_of_mem_take hv)
    refine hsnapshot.bind fun snapshot hl => (agrees_sweepLevels hr _ _ _ _ hl).bind fun swept _ =>
      (agrees_of_quiet (quiet_onStore (frames_updateOrderAfterMatch _ _ _))).bind fun _ _ => ?_
    split
    · exact (agrees_of_quiet (quiet_onStore (frames_settleResidual _ _ _))).bind fun _ _ =>
        .pure trivial
    · exact .pure trivial

variable (e market) in
theorem agrees_submitTransaction {cmd : OrderSubmitCommand} (hs : order.Sound)
    (h0 : 0 < order.leaveQty)
    (hr : FeeRates.AtMostOne ⟨feeRate market.makerFeeBp, feeRate market.takerFeeBp⟩)
    (hm : PricedBook cmd.symbol m) :
    transaction (submitBodyWith (refusing e) market order cmd) m =
      transaction (submitBody market order cmd) m := by
  have hbody : Tx.Agrees (PricedBook cmd.symbol) (fun _ => True)
      (onStore Stm.stmt >>= fun _ => submitBody market order cmd >>= fun a =>
        onStore Stm.stmt >>= fun _ => pure a : Act E (Order × List Trade))
      (onStore Stm.stmt >>= fun _ => submitBodyWith (refusing e) market order cmd >>= fun a =>
        onStore Stm.stmt >>= fun _ => pure a) := by
    have hstmt : Tx.Agrees (PricedBook cmd.symbol) (fun _ => True) (onStore Stm.stmt : Act E Unit)
        (onStore Stm.stmt) := agrees_of_quiet (quiet_onStore Stm.frames_stmt)
    have hsubmit : Tx.Agrees (PricedBook cmd.symbol) (fun _ => True)
        (submitBody market order cmd : Act E (Order × List Trade))
        (submitBodyWith (refusing e) market order cmd) :=
      (agrees_matchSubmit hr hs h0).bind fun _ _ =>
        (agrees_of_quiet (quiet_onStore (Stm.frames_orderFindOrThrow _))).bind fun _ _ =>
          (agrees_of_quiet (emits_publishSubmitEvents _ _ _).quiet).bind fun _ _ => .pure trivial
    exact hstmt.bind fun _ _ => hsubmit.bind fun _ _ => hstmt.bind fun _ _ => .pure trivial
  simp only [transaction, Tx.transaction]
  rw [(hbody m hm).1]

end Books

/-! ## Commands -/

section Commands

variable {m : Matcher E}

theorem Safe.pricedBook (hs : Safe m) (symbol : String) : PricedBook symbol m := by
  intro side r hr
  obtain ⟨o, ho⟩ := hs.backed symbol side r hr
  exact ((hs.sound.rows _ _ ho.row).price_pos ho.price).le

/-- The fee rates of a market are at most one. -/
def AtMostOne (market : Market) : Prop := market.makerFeeBp ≤ 10000 ∧ market.takerFeeBp ≤ 10000

theorem AtMostOne.rates {market : Market} (h : AtMostOne market) :
    FeeRates.AtMostOne ⟨feeRate market.makerFeeBp, feeRate market.takerFeeBp⟩ := by
  have hle : ∀ {bp : ℤ}, bp ≤ 10000 → feeRate bp ≤ 1 := by
    intro bp hbp
    unfold feeRate
    rw [div_le_one (by norm_num)]
    exact_mod_cast hbp
  exact ⟨hle h.1, hle h.2⟩

theorem settleSubmitWith_refusing (hs : Safe m) {cmd : OrderSubmitCommand}
    (hfees : ∀ market, m.db.market? cmd.symbol = some market → AtMostOne market) (e : Failure) :
    settleSubmitWith (refusing e) cmd m = settleSubmit cmd m := by
  refine Tx.bind_congr_apply fun market? m₁ h₁ => ?_
  obtain ⟨s₁, hs₁, rfl⟩ := onStore_eq_ok h₁
  obtain ⟨rfl, fl₁, rfl⟩ := Stm.query_eq_ok hs₁
  cases hmarket : m.store.db.market? cmd.symbol with
  | none => rfl
  | some market =>
    refine Tx.bind_congr_apply fun order? m₂ h₂ => ?_
    obtain ⟨s₂, hs₂, rfl⟩ := onStore_eq_ok h₂
    obtain ⟨rfl, fl₂, rfl⟩ := Stm.query_eq_ok hs₂
    cases horder : m.store.db.order? cmd.orderId with
    | none => rfl
    | some order =>
      dsimp only
      split
      · rfl
      split
      · rfl
      rename_i hlive
      have hrow := hs.sound.rows _ _ horder
      refine Tx.bind_congr_apply fun _ m₃ h₃ => ?_
      obtain ⟨-, rfl⟩ := Prod.mk.inj h₃
      have hpriced : PricedBook cmd.symbol ((m.withFaults fl₂).setBook cmd.symbol
          ((m.withFaults fl₂).book cmd.symbol)) :=
        (Safe.pricedBook hs cmd.symbol).congr
          (((m.same_withFaults fl₂).trans (Matcher.same_setBook_book _ cmd.symbol)).queues
          cmd.symbol)
      have hagree := agrees_submitTransaction e market hrow
        (hrow.live (by simpa using hlive)).2 (hfees market hmarket).rates hpriced
      exact Tx.bind_congr_left hagree _

end Commands

end Settler

open Settler in
/-- **No command credits a negative amount**, whatever a call that did would fail with: an exchange
that refuses such calls does the same. -/
theorem Consumer.dispatchWith_refusing {E : Engine} {m : Matcher E} (hs : Safe m)
    (hfees : ∀ market ∈ m.db.markets, AtMostOne market) (cmd : OrderCommand) (e : Failure) :
    Consumer.dispatchWith (refusing e) cmd m = Consumer.dispatch cmd m := by
  rw [← Consumer.dispatchWith_creditWallet]
  cases cmd with
  | SUBMIT cmd =>
    refine Tx.bind_congr_left (settleSubmitWith_refusing hs (fun market h => hfees market ?_) e) _
    exact Table.mem_of_find? h
  | CANCEL cmd => rfl

end Orbit
