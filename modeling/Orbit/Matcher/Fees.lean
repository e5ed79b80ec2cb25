import Orbit.Matcher.Supply

/-!
# Recorded fees

`settleTrades` computes the two fees of a trade from its quantity, and records them in the row. What
it withholds is another amount on the side that sells: a buyer is credited `qty * (1 - rate)` of the
base asset, a seller `price * qty * (1 - rate)` of the quote asset.

* `fees_reconcile_iff`: the fees that a call records are those that it withholds, of every side and
  in all, exactly when sellers pay none or every price is 1 (and the market has two assets).
-/

namespace Orbit

open PriceTime Settler

/-- What a side of a trade receives before its fee: the quantity of the base asset, or the price of
it in the quote asset. -/
def grossReceipt (side : OrderSide) (t : EngineTrade) : ℚ :=
  match side with
  | .BID => t.tradeQuantity
  | .ASK => t.tradePrice * t.tradeQuantity

/-- What a party is credited: the last of its postings is that of `creditWallet`. -/
def Posting.credited (ps : List Posting) : ℚ := (ps.getLast?.map (·.balance)).getD 0

/-- What is withheld of the receipt of the maker. -/
def makerWithheld (market : Market) (maker : Order) (rates : FeeRates) (t : EngineTrade) : ℚ :=
  grossReceipt maker.side t -
    Posting.credited (makerPostings market maker t.tradePrice t.tradeQuantity rates.maker)

/-- What is withheld of the receipt of the taker. -/
def takerWithheld (market : Market) (taker : Order) (rates : FeeRates) (t : EngineTrade) : ℚ :=
  grossReceipt taker.side t -
    Posting.credited (takerPostings market taker t.tradePrice t.tradeQuantity rates.taker)

/-- The fees recorded for the parties of a trade that are on the side. -/
def Trade.feeOf (side : OrderSide) (row : Trade) : ℚ :=
  (if row.makerSide = side then row.makerFee else 0) +
    if row.takerSide = side then row.takerFee else 0

/-- **The fees that were recorded are those that were withheld.** -/
structure FeesReconcile (market : Market) (taker : Order) (rates : FeeRates) (db db' : Db)
    (ts : List EngineTrade) (rows : List Trade) : Prop where
  recorded : List.Forall₂ (fun t row => ∃ maker, db.order? t.makerOrderId = some maker ∧
    row.makerFee = makerWithheld market maker rates t ∧
    row.takerFee = takerWithheld market taker rates t) ts rows
  base : db.supply market.baseAsset - db'.supply market.baseAsset =
    (rows.map (Trade.feeOf .BID)).sum
  quote : db.supply market.quoteAsset - db'.supply market.quoteAsset =
    (rows.map (Trade.feeOf .ASK)).sum

/-- The rate of the parties that buy, or that sell, when the taker is on the side `taker`. -/
def Settler.FeeRates.of (rates : FeeRates) (taker side : OrderSide) : ℚ :=
  if taker = side then rates.taker else rates.maker

/-! ## The rows -/

/-- What `settleTrades` records of a trade. -/
structure Recorded (taker : Order) (rates : FeeRates) (db : Db) (t : EngineTrade)
    (row : Trade) : Prop where
  price : row.price = t.tradePrice
  quantity : row.quantity = t.tradeQuantity
  takerSide : row.takerSide = taker.side
  makerFee : row.makerFee = t.tradeQuantity * rates.maker
  takerFee : row.takerFee = t.tradeQuantity * rates.taker
  maker : ∃ maker, db.order? t.makerOrderId = some maker ∧ maker.side = row.makerSide

section Rows

variable {market : Market} {taker maker : Order} {rates : FeeRates} {commandId : Uuid} {idx : ℕ}
  {db db' : Db} {ts : List EngineTrade} {rows : List Trade} {t : EngineTrade}
  {row : Trade} {a : String}

theorem Settler.Settles.recorded (h : Settles market taker rates commandId idx db ts rows db') :
    List.Forall₂ (Recorded taker rates db) ts rows := by
  induction h with
  | nil => exact .nil
  | @cons idx db db₁ db' t ts row rows maker hf _ ih =>
    refine .cons ?_ (ih.imp fun x xrow hx => ?_)
    · rw [hf.hrow]
      exact ⟨rfl, rfl, rfl, rfl, rfl, maker, hf.hmaker, rfl⟩
    · obtain ⟨o, ho, hside⟩ := hx.maker
      refine { hx with maker := ?_ }
      rw [Db.order?_of_modify hf.orders (fun _ => rfl)] at ho
      split at ho
      · -- the same maker again, whose row was updated
        rename_i hid
        obtain ⟨o₀, ho₀, rfl⟩ := Option.map_eq_some_iff.mp ho
        rw [hid, hf.hmaker, Option.some.injEq] at ho₀
        subst ho₀
        exact ⟨maker, hid ▸ hf.hmaker, hside⟩
      · exact ⟨o, ho, hside⟩

theorem makerWithheld_eq : makerWithheld market maker rates t =
    grossReceipt maker.side t * rates.maker := by
  unfold makerWithheld makerPostings grossReceipt
  cases maker.side <;> simp [Posting.credited] <;> ring

theorem takerWithheld_eq : takerWithheld market taker rates t =
    grossReceipt taker.side t * rates.taker := by
  unfold takerWithheld takerPostings grossReceipt
  cases taker.side <;> simp [Posting.credited] <;> ring

/-- The fee recorded for the side that buys or sells. -/
theorem Recorded.feeOf (h : Recorded taker rates db t row) (hs : row.makerSide ≠ taker.side)
    (side : OrderSide) : row.feeOf side = t.tradeQuantity * rates.of taker.side side := by
  unfold Trade.feeOf FeeRates.of
  rw [h.takerSide, h.makerFee, h.takerFee]
  by_cases htaker : taker.side = side
  · rw [if_pos htaker, if_pos htaker, if_neg (htaker ▸ hs), zero_add]
  · have hmaker : row.makerSide = side := by
      cases side <;> cases hm : row.makerSide <;> cases ht : taker.side <;> simp_all
    rw [if_neg htaker, if_neg htaker, if_pos hmaker, add_zero]

/-- What a trade withholds of an asset, in terms of the fees that it records. -/
theorem Recorded.withheld (h : Recorded taker rates db t row) (hs : row.makerSide ≠ taker.side) :
    row.withheld (fun _ => some market) a =
      (if market.baseAsset = a then t.tradeQuantity * rates.of taker.side .BID else 0) +
        if market.quoteAsset = a then t.tradePrice *
          (t.tradeQuantity * rates.of taker.side .ASK) else 0 := by
  rw [← h.feeOf hs, ← h.feeOf hs, ← h.price]
  have hmaker := h.takerSide ▸ hs
  unfold Trade.withheld Trade.feeOf sideFee
  cases hm : row.makerSide <;> cases ht : row.takerSide <;> simp_all
  exact add_comm _ _

/-- **A trade's fees are those withheld** exactly when its seller pays none or its price is 1. -/
theorem Recorded.reconciles_iff (h : Recorded taker rates db t row)
    (hs : row.makerSide ≠ taker.side)
    (hq : 0 < t.tradeQuantity) :
    (∃ maker, db.order? t.makerOrderId = some maker ∧
      row.makerFee = makerWithheld market maker rates t ∧
      row.takerFee = takerWithheld market taker rates t) ↔
      rates.of taker.side .ASK = 0 ∨ t.tradePrice = 1 := by
  obtain ⟨maker, hmaker, hside⟩ := h.maker
  have hsell : ∀ rate : ℚ, t.tradeQuantity * rate = t.tradePrice * t.tradeQuantity * rate ↔
      rate = 0 ∨ t.tradePrice = 1 := by
    intro rate
    constructor
    · intro heq
      have hzero : rate * (t.tradePrice - 1) * t.tradeQuantity = 0 := by linarith
      rcases mul_eq_zero.mp hzero with hzero | hzero
      · exact (mul_eq_zero.mp hzero).imp_right sub_eq_zero.mp
      · exact absurd hzero hq.ne'
    · rintro (rfl | h)
      · simp
      · rw [h, one_mul]
  simp only [hmaker, Option.some.injEq, exists_eq_left', makerWithheld_eq,
    takerWithheld_eq, h.makerFee,
    h.takerFee, ← hsell]
  rw [← hside] at hs
  unfold FeeRates.of grossReceipt
  cases hm : maker.side <;> cases ht : taker.side
  · exact absurd (hm.trans ht.symm) hs
  · simp
  · simp
  · exact absurd (hm.trans ht.symm) hs

/-! ## All rows -/

/-- Moreover the maker is on the other side, and something is traded. -/
structure Dealt (taker : Order) (rates : FeeRates) (db : Db) (t : EngineTrade) (row : Trade) : Prop
    extends Recorded taker rates db t row where
  sides : row.makerSide ≠ taker.side
  pos : 0 < t.tradeQuantity

theorem Settler.Settles.dealt (h : Settles market taker rates commandId idx db ts rows db')
    (hq : ∀ t ∈ ts, 0 < t.tradeQuantity)
    (hsides : ∀ t ∈ ts, ∀ maker, db.order? t.makerOrderId = some maker → maker.side ≠ taker.side) :
    List.Forall₂ (Dealt taker rates db) ts rows := by
  have hrows := h.recorded
  clear h
  induction hrows with
  | nil => exact .nil
  | @cons t row ts rows hrow _ ih =>
    obtain ⟨maker, hmaker, hside⟩ := hrow.maker
    refine .cons { hrow with sides := ?_, pos := hq t (by simp) }
      (ih (fun x hx => hq x (by simp [hx])) fun x hx => hsides x (by simp [hx]))
    rw [← hside]
    exact hsides t (by simp) maker hmaker

/-- Where every row is right, sellers pay no fee or every price is 1. -/
theorem sellers_in_kind (h : List.Forall₂ (Dealt taker rates db) ts rows)
    (hrecorded : List.Forall₂ (fun t row => ∃ maker, db.order? t.makerOrderId = some maker ∧
      row.makerFee = makerWithheld market maker rates t ∧
      row.takerFee = takerWithheld market taker rates t) ts rows) :
    rates.of taker.side .ASK = 0 ∨ ∀ t ∈ ts, t.tradePrice = 1 := by
  refine or_iff_not_imp_left.mpr fun hzero t ht => ?_
  obtain ⟨i, hi, rfl⟩ := List.getElem_of_mem ht
  have hi' : i < rows.length := h.length_eq ▸ hi
  have hd : Dealt taker rates db ts[i] rows[i] := h.get hi hi'
  exact ((hd.toRecorded.reconciles_iff hd.sides hd.pos).mp
    (hrecorded.get hi hi')).resolve_left hzero

theorem sum_feeOf (h : List.Forall₂ (Dealt taker rates db) ts rows) (side : OrderSide) :
    (rows.map (Trade.feeOf side)).sum =
      (ts.map (·.tradeQuantity)).sum * rates.of taker.side side := by
  induction h with
  | nil => simp
  | cons hrow _ ih =>
    rw [List.map_cons, List.sum_cons, List.map_cons, List.sum_cons, ih,
      hrow.toRecorded.feeOf hrow.sides]
    ring

theorem sum_withheld (h : List.Forall₂ (Dealt taker rates db) ts rows) :
    (rows.map (Trade.withheld (fun _ => some market) a)).sum =
      (if market.baseAsset = a then
        (ts.map (·.tradeQuantity)).sum * rates.of taker.side .BID else 0) +
      if market.quoteAsset = a then
        (ts.map fun t => t.tradePrice * t.tradeQuantity).sum * rates.of taker.side .ASK else 0 := by
  induction h with
  | nil => simp
  | cons hrow _ ih =>
    rw [List.map_cons, List.sum_cons, List.map_cons, List.sum_cons,
      List.map_cons, List.sum_cons, ih,
      hrow.toRecorded.withheld hrow.sides]
    split_ifs <;> ring

/-- **What a call takes from the supply** is what it withholds. -/
theorem Settler.Settles.supply (h : Settles market taker rates commandId idx db ts rows db')
    (hrows : List.Forall₂ (Dealt taker rates db) ts rows) (hq : ∀ t ∈ ts, 0 < t.tradeQuantity)
    (a : String) :
    db.supply a - db'.supply a = (rows.map (Trade.withheld (fun _ => some market) a)).sum := by
  have hc : ∀ row ∈ rows, row.makerSide ≠ row.takerSide ∧ 0 < row.quantity := by
    intro row hrow
    obtain ⟨i, hi, rfl⟩ := List.getElem_of_mem hrow
    have hi' : i < ts.length := hrows.length_eq ▸ hi
    have hd : Dealt taker rates db ts[i] rows[i] := hrows.get hi' hi
    rw [hd.takerSide, hd.quantity]
    exact ⟨hd.sides, hd.pos⟩
  let parties := rows.flatMap fun row => [row.makerUserId, row.takerUserId]
  let U := (db.holders ++ db'.holders ++ parties).toFinset
  have hU : ∀ row ∈ rows, row.makerUserId ∈ U ∧ row.takerUserId ∈ U := by
    intro row hrow
    have hmem : ∀ u ∈ [row.makerUserId, row.takerUserId], u ∈ U := fun u hu =>
      List.mem_toFinset.mpr (List.mem_append_right _ (List.mem_flatMap.mpr ⟨row, hrow, hu⟩))
    exact ⟨hmem _ (by simp), hmem _ (by simp)⟩
  rw [Db.supply_eq_sum db a (U := U) fun u hu => by simp [U, hu],
    Db.supply_eq_sum db' a (U := U) fun u hu => by simp [U, hu]]
  have htotal : ∀ u, db'.total u a = db.total u a +
      (rows.map (Trade.gain (fun _ => some market) u a)).sum := fun u => (h.total rfl hq).1
  simp only [htotal, Finset.sum_add_distrib]
  rw [sum_gains hc hU]
  ring

end Rows

/-! ## A call of `settleTrades` -/

/-- The condition: sellers pay no fee or every price is 1, and the market has two assets or takes no
fees. -/
def FeesInKind (market : Market) (taker : Order) (rates : FeeRates)
    (ts : List EngineTrade) : Prop :=
  (rates.of taker.side .ASK = 0 ∨ ∀ t ∈ ts, t.tradePrice = 1) ∧
  (market.baseAsset ≠ market.quoteAsset ∨ ts = [] ∨
    rates.of taker.side .BID = 0 ∧ rates.of taker.side .ASK = 0)

theorem sum_quantity_pos {ts : List EngineTrade}
    (hq : ∀ t ∈ ts, 0 < t.tradeQuantity) (hne : ts ≠ []) :
    0 < (ts.map (·.tradeQuantity)).sum := by
  refine List.sum_pos _ (fun x hx => ?_) (by simpa using hne)
  obtain ⟨t, ht, rfl⟩ := List.mem_map.mp hx
  exact hq t ht

section Calls

variable {E : Engine} {m m' : Matcher E} {market : Market} {taker : Order} {rates : FeeRates}
  {commandId : Uuid} {idx : ℕ} {ts : List EngineTrade} {rows : List Trade}

/-- **The recorded fees are those that were withheld** exactly when sellers pay none or every price
is 1. -/
theorem fees_reconcile_iff (h : settleTrades market taker rates commandId idx ts m = (.ok rows, m'))
    (hq : ∀ t ∈ ts, 0 < t.tradeQuantity)
    (hsides : ∀ t ∈ ts, ∀ maker, m.db.order? t.makerOrderId = some maker →
      maker.side ≠ taker.side) :
    FeesReconcile market taker rates m.db m'.db ts rows ↔ FeesInKind market taker rates ts := by
  have hset := settleTrades_eq_ok h
  have hdealt := hset.dealt hq hsides
  have hprices : (rates.of taker.side .ASK = 0 ∨ ∀ t ∈ ts, t.tradePrice = 1) →
      (ts.map fun t => t.tradePrice * t.tradeQuantity).sum * rates.of taker.side .ASK =
        (ts.map (·.tradeQuantity)).sum * rates.of taker.side .ASK := by
    rintro (hzero | hone)
    · rw [hzero, mul_zero, mul_zero]
    · rw [List.map_congr_left fun t ht => by rw [hone t ht, one_mul]]
  constructor
  · rintro ⟨hrecorded, hbase, hquote⟩
    have hkind := sellers_in_kind hdealt hrecorded
    refine ⟨hkind, or_iff_not_imp_left.mpr fun heq => or_iff_not_imp_left.mpr fun hne => ?_⟩
    rw [not_not] at heq
    have hpos := sum_quantity_pos hq hne
    rw [hset.supply hdealt hq, sum_withheld hdealt, sum_feeOf hdealt, if_pos rfl, if_pos heq.symm,
      hprices hkind] at hbase
    rw [hset.supply hdealt hq, sum_withheld hdealt, sum_feeOf hdealt, if_pos heq, if_pos rfl,
      hprices hkind] at hquote
    rw [add_eq_left] at hbase
    rw [add_eq_right] at hquote
    exact ⟨(mul_eq_zero.mp hquote).resolve_left hpos.ne',
      (mul_eq_zero.mp hbase).resolve_left hpos.ne'⟩
  · rintro ⟨hkind, hassets⟩
    refine ⟨?_, ?_, ?_⟩
    · refine List.forall₂_iff_get.mpr ⟨hdealt.length_eq, fun i hi hi' => ?_⟩
      have hd : Dealt taker rates m.db (ts.get ⟨i, hi⟩) (rows.get ⟨i, hi'⟩) := hdealt.get hi hi'
      exact (hd.toRecorded.reconciles_iff hd.sides hd.pos).mpr
        (hkind.imp_right fun hone => hone _ (List.get_mem _ _))
    · rw [hset.supply hdealt hq, sum_withheld hdealt, sum_feeOf hdealt, if_pos rfl, hprices hkind]
      rcases hassets with hne | rfl | ⟨hbuy, hsell⟩
      · rw [if_neg (Ne.symm hne), add_zero]
      · simp
      · simp [hbuy, hsell]
    · rw [hset.supply hdealt hq, sum_withheld hdealt, sum_feeOf hdealt, if_pos rfl, hprices hkind]
      rcases hassets with hne | rfl | ⟨hbuy, hsell⟩
      · rw [if_neg hne, zero_add]
      · simp
      · simp [hbuy, hsell]

end Calls

/-! ## A trade of the sample exchange -/

namespace Sample

/-- The exchange before the bid of `alice` is delivered, and the bid. -/
def beforeBid : Matcher Engine.priceTime := exchange.run (trading.take 3)

def bid : Order where
  id := 2
  userId := "alice"
  market := "BTC-USDT"
  side := .BID
  type := .LIMIT
  price := some 110
  quantity := 1
  leaveQty := 1
  filledQty := 0
  status := .OPEN
  commandId := some ⟨3⟩

/-- The trade with the ask of `bob`. -/
def askFill : EngineTrade := ⟨1, 100, 1⟩

theorem beforeBid_sides : ∀ maker, beforeBid.db.order? askFill.makerOrderId = some maker →
    maker.side ≠ bid.side := by
  intro maker hmaker
  have h : (beforeBid.db.order? askFill.makerOrderId).map (·.side) = some .ASK := by decide +kernel
  rw [hmaker, Option.map_some, Option.some.injEq] at h
  rw [h]
  decide

/-- The settlement of the trade returns. -/
theorem beforeBid_settles (rates : FeeRates)
    (h : ((settleTrades btcUsdt bid rates ⟨3⟩ 0 [askFill] beforeBid).1.map List.length).toOption =
    some 1) :
    ∃ rows m', settleTrades btcUsdt bid rates ⟨3⟩ 0 [askFill] beforeBid = (.ok rows, m') := by
  rcases hrun : settleTrades btcUsdt bid rates ⟨3⟩ 0 [askFill] beforeBid with ⟨e | rows, m'⟩
  · rw [hrun] at h
    cases h
  · exact ⟨rows, m', rfl⟩

end Sample

open Sample in
/-- Where makers pay no fee, the recorded ones are right. -/
theorem fees_reconcile_buyer : ∃ rows m',
    settleTrades btcUsdt bid ⟨0, 1 / 100⟩ ⟨3⟩ 0 [askFill] beforeBid = (.ok rows, m') ∧
    FeesReconcile btcUsdt bid ⟨0, 1 / 100⟩ beforeBid.db m'.db [askFill] rows := by
  obtain ⟨rows, m', h⟩ := beforeBid_settles ⟨0, 1 / 100⟩ (by decide +kernel)
  refine ⟨rows, m', h, (fees_reconcile_iff h ?_ ?_).mpr ⟨.inl rfl, .inl (by decide)⟩⟩
  · simp [askFill]
  · simpa using beforeBid_sides

open Sample in
/-- **A seller's fee is recorded in the wrong asset**: `bob` sells 1 BTC at 100 USDT for a fee of 50
basis points. The row says 0.005, and 0.5 USDT are withheld. -/
theorem seller_fee_recorded : ∃ rows m',
    settleTrades btcUsdt bid ⟨1 / 200, 1 / 100⟩ ⟨3⟩ 0 [askFill] beforeBid = (.ok rows, m') ∧
    ¬FeesReconcile btcUsdt bid ⟨1 / 200, 1 / 100⟩ beforeBid.db m'.db [askFill] rows := by
  obtain ⟨rows, m', h⟩ := beforeBid_settles ⟨1 / 200, 1 / 100⟩ (by decide +kernel)
  have hdealt := (settleTrades_eq_ok h).dealt (by simp [askFill]) (by simpa using beforeBid_sides)
  refine ⟨rows, m', h, fun hr => ?_⟩
  rcases sellers_in_kind hdealt hr.recorded with hzero | hone
  · rw [FeeRates.of, if_neg (by decide)] at hzero
    norm_num at hzero
  · have := hone askFill (by simp)
    norm_num [askFill] at this

end Orbit
