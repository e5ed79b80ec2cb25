import Mathlib.Data.List.Perm.Subperm
import Orbit.Api.MarketController
import Orbit.Matcher.Executions
import Orbit.Matcher.TradesTopic
import Orbit.Workers.CandleSpecs

/-!
# What the charts show

From the trades of the matcher to the bars of the api: `Charts` is the exchange with the table of
candles, to which the aggregator is delivered batches of what the outbox has published so far, any
messages of it any number of times, in any order and cut anywhere. A batch may be cut short, and its
transaction may fail.

Candles are not exact, then: a row can miss trades of its minute. But everything that it shows was
traded.

* `Shows`: prices at which the market traded in the period, with the last between the lowest and the
  highest.
* `Charts.run_sound`: so it is with every row of the table.
* `charts_traded`: and with every bar of a response, whatever interval it is for. Where no batch has
  a trade twice, no bar has more volume than was traded.
-/

namespace Orbit

open Table CandleAggregator MarketController

/-! ## Periods -/

/-- The trade was made in the period of the interval that opens at `openTime`, in milliseconds. -/
def Trade.Within (interval : CandleInterval) (openTime : ℕ) (t : Trade) : Prop :=
  t.createdAt / (interval.seconds * 1000) * (interval.seconds * 1000) = openTime

instance (interval : CandleInterval) (openTime : ℕ) (t : Trade) :
    Decidable (t.Within interval openTime) := inferInstanceAs (Decidable (_ = _))

/-- The trades of a market in a period. -/
def periodTrades (trades : List Trade) (market : String) (interval : CandleInterval)
    (openTime : ℕ) : List Trade :=
  trades.filter fun t => t.market = market ∧ t.Within interval openTime

/-- What was traded in a period. -/
def executed (trades : List Trade) (market : String) (interval : CandleInterval) (openTime : ℕ) :
    ℚ := ((periodTrades trades market interval openTime).map (·.quantity)).sum

/-- **All prices were traded** in the market and the period. -/
structure Shows (trades : List Trade) (market : String) (interval : CandleInterval) (openTime : ℕ)
    («open» high low close : ℚ) : Prop where
  prices : ∀ p ∈ [«open», high, low, close],
    ∃ t ∈ periodTrades trades market interval openTime, t.price = p
  low : low ≤ close
  high : close ≤ high

theorem mem_periodTrades {trades : List Trade} {market : String} {interval : CandleInterval}
    {openTime : ℕ} {t : Trade} : t ∈ periodTrades trades market interval openTime ↔
      t ∈ trades ∧ t.market = market ∧ t.Within interval openTime := by
  rw [periodTrades, List.mem_filter, decide_eq_true_eq]

/-- Later trades take nothing away. -/
theorem Shows.mono {trades trades' : List Trade} (hsub : trades.Sublist trades') {market : String}
    {interval : CandleInterval} {openTime : ℕ} {o h l c : ℚ}
    (hs : Shows trades market interval openTime o h l c) :
    Shows trades' market interval openTime o h l c where
  prices p hp := by
    obtain ⟨t, ht, he⟩ := hs.prices p hp
    exact ⟨t, (hsub.filter _).subset ht, he⟩
  low := hs.low
  high := hs.high

theorem executed_mono {trades trades' : List Trade} (hsub : trades.Sublist trades')
    (hpos : ∀ t ∈ trades', 0 < t.quantity) (market : String) (interval : CandleInterval)
    (openTime : ℕ) : executed trades market interval openTime ≤
      executed trades' market interval openTime := by
  refine ((hsub.filter _).map _).sum_le_sum fun q hq => ?_
  obtain ⟨t, ht, rfl⟩ := List.mem_map.mp hq
  exact (hpos t (mem_periodTrades.mp ht).1).le

/-! ## Published trades -/

/-- The event, if it is the message of a trade on the topic of the trades. -/
def TradeMessage.event? : TradeMessage → Option TradeEvent
  | .trade .TRADES _ evt => some evt
  | _ => none

/-- The `TRADE` events that the outbox holds. -/
def Db.tradeEvents (db : Db) : List TradeEvent := db.tradeMessages.filterMap TradeMessage.event?

/-- Every event is of a row of the table. -/
theorem Db.TradesPublished.mem_tradeEvents {db : Db} (h : db.TradesPublished) {evt : TradeEvent}
    (hevt : evt ∈ db.tradeEvents) :
    ∃ t ∈ db.trades, ∃ matchId, t.matchId = some matchId ∧ t.event matchId = evt := by
  obtain ⟨msg, hmsg, he⟩ := List.mem_filterMap.mp hevt
  rw [show db.tradeMessages = db.trades.flatMap Trade.messages from h] at hmsg
  obtain ⟨t, ht, hmsg⟩ := List.mem_flatMap.mp hmsg
  refine ⟨t, ht, ?_⟩
  unfold Trade.messages at hmsg
  split at hmsg
  · cases hmsg
  · rename_i matchId hid
    simp only [List.mem_cons, List.not_mem_nil, or_false] at hmsg
    rcases hmsg with rfl | rfl | rfl
    · exact ⟨matchId, hid, Option.some.inj he⟩
    · cases he
    · cases he

/-! ## Batches cut short -/

namespace CandleAggregator

theorem loop_false (i : ℕ) (s : Loop) (messages : List Message) :
    loop (fun _ => false) i s messages = messages.foldl turn s := by
  induction messages generalizing i s with
  | nil => rfl
  | cons message messages ih => exact ih (i + 1) (turn s message)

/-- The loop sees the first messages of the batch. -/
theorem loop_take (stops : ℕ → Bool) (i : ℕ) (s : Loop) (messages : List Message) :
    ∃ k, loop stops i s messages = (messages.take k).foldl turn s := by
  induction messages generalizing i s with
  | nil => exact ⟨0, rfl⟩
  | cons message messages ih =>
    rw [loop]
    split
    · exact ⟨0, rfl⟩
    · obtain ⟨k, hk⟩ := ih (i + 1) (turn s message)
      exact ⟨k + 1, hk⟩

theorem eachBatch_take (stops : ℕ → Bool) (db : Tables) (messages : List Message) :
    ∃ k, eachBatch stops db messages = eachBatch (fun _ => false) db (messages.take k) := by
  obtain ⟨k, hk⟩ := loop_take stops 0 ⟨[], none⟩ messages
  refine ⟨k, ?_⟩
  unfold eachBatch
  rw [hk, loop_false]

end CandleAggregator

/-! ## One batch -/

section Batch

variable {db : Db} {messages : List Message} {market : String} {minute : ℕ}

/-- The trades of the messages are published ones. -/
def Published (db : Db) (messages : List Message) : Prop :=
  ∀ evt ∈ messages.filterMap Message.trade?, evt ∈ db.tradeEvents

theorem Published.take (h : Published db messages) (k : ℕ) : Published db (messages.take k) :=
  fun evt hevt => h evt (((List.take_sublist k messages).filterMap Message.trade?).subset hevt)

/-- The event of a row. -/
def Trade.eventOf (t : Trade) : TradeEvent := t.event (t.matchId.getD ⟨⟨0⟩, 0⟩)

/-- A trade of a bucket is a row of its minute. -/
theorem Published.exists_trade (hp : Published db messages) (hdb : db.TradesPublished)
    {evt : TradeEvent} (hevt : evt ∈ tradesOf market minute messages) :
    ∃ t ∈ periodTrades db.trades market .M1 (minute * 1000), t.eventOf = evt := by
  obtain ⟨hmem, hof⟩ := List.mem_filter.mp hevt
  obtain ⟨hmarket, hminute⟩ := of_decide_eq_true hof
  obtain ⟨t, ht, matchId, hid, he⟩ := hdb.mem_tradeEvents (hp evt hmem)
  have hevent : t.eventOf = evt := by
    rw [Trade.eventOf, hid, Option.getD_some, he]
  refine ⟨t, mem_periodTrades.mpr ⟨ht, ?_, ?_⟩, hevent⟩
  · rw [← hmarket, ← hevent]
    rfl
  · have hts : t.createdAt = evt.ts := by
      rw [← hevent]
      rfl
    unfold openTime at hminute
    unfold Trade.Within
    rw [hts]
    simp only [CandleInterval.seconds] at hminute ⊢
    omega

/-- What a bucket with trades of the batch holds. -/
theorem Published.bucket_prices (hp : Published db messages) (hdb : db.TradesPublished)
    {b : Bucket} (hb : b.Holds (tradesOf market minute messages)) :
    ∀ p ∈ [b.open, b.high, b.low, b.close],
      ∃ t ∈ periodTrades db.trades market .M1 (minute * 1000), t.price = p := by
  have hprice : ∀ {p : ℚ}, (∃ evt ∈ tradesOf market minute messages, evt.price = p) →
      ∃ t ∈ periodTrades db.trades market .M1 (minute * 1000), t.price = p := by
    rintro p ⟨evt, hevt, rfl⟩
    obtain ⟨t, ht, rfl⟩ := hp.exists_trade hdb hevt
    exact ⟨t, ht, rfl⟩
  intro p hp
  simp only [List.mem_cons, List.not_mem_nil, or_false] at hp
  rcases hp with rfl | rfl | rfl | rfl
  · obtain ⟨evt, hhead, he⟩ := Option.map_eq_some_iff.mp hb.open
    exact hprice ⟨evt, List.mem_of_mem_head? hhead, he⟩
  · exact hprice hb.high.1
  · exact hprice hb.low.1
  · obtain ⟨evt, hlast, he⟩ := Option.map_eq_some_iff.mp hb.close
    exact hprice ⟨evt, List.mem_of_getLast? hlast, he⟩

theorem CandleAggregator.Bucket.Holds.bounds {b : Bucket} {ts : List TradeEvent} (hb : b.Holds ts) :
    b.low ≤ b.close ∧ b.close ≤ b.high := by
  obtain ⟨evt, hlast, he⟩ := Option.map_eq_some_iff.mp hb.close
  have hmem : b.close ∈ {p | ∃ t ∈ ts, t.price = p} := ⟨evt, List.mem_of_getLast? hlast, he⟩
  exact ⟨hb.low.2 hmem, hb.high.2 hmem⟩

/-- Distinct trades of a batch are no more than was traded. -/
theorem Published.volume_le (hp : Published db messages) (hdb : db.TradesPublished)
    (hpos : ∀ t ∈ db.trades, 0 < t.quantity)
    (hnodup : (messages.filterMap Message.trade?).Nodup) :
    ((tradesOf market minute messages).map (·.quantity)).sum ≤
      executed db.trades market .M1 (minute * 1000) := by
  have hsub : tradesOf market minute messages ⊆
      (periodTrades db.trades market .M1 (minute * 1000)).map Trade.eventOf := by
    intro evt hevt
    obtain ⟨t, ht, he⟩ := hp.exists_trade hdb hevt
    exact List.mem_map.mpr ⟨t, ht, he⟩
  have hn : (tradesOf market minute messages).Nodup := hnodup.filter _
  obtain ⟨l, hperm, hl⟩ := hn.subperm hsub
  calc ((tradesOf market minute messages).map (·.quantity)).sum
      = (l.map (·.quantity)).sum := ((hperm.map _).sum_eq).symm
    _ ≤ (((periodTrades db.trades market .M1 (minute * 1000)).map Trade.eventOf).map
        (·.quantity)).sum := by
      refine (hl.map _).sum_le_sum fun q hq => ?_
      obtain ⟨evt, hevt, rfl⟩ := List.mem_map.mp hq
      obtain ⟨t, ht, rfl⟩ := List.mem_map.mp hevt
      exact (hpos t (mem_periodTrades.mp ht).1).le
    _ = executed db.trades market .M1 (minute * 1000) := by
      rw [List.map_map]
      rfl

end Batch

/-! ## The table of candles -/

/-- **Every row shows what was traded** in its market and minute. -/
structure CandleAggregator.Tables.Sound (trades : List Trade) (tables : Tables) : Prop where
  nodup : (tables.candles.map key).Nodup
  rows : ∀ market minute c, tables.candle? market minute = some c →
    Shows trades market .M1 (minute * 1000) c.open c.high c.low c.close

/-- No row has more volume than was traded. -/
def CandleAggregator.Tables.Bounded (trades : List Trade) (tables : Tables) : Prop :=
  ∀ market minute c, tables.candle? market minute = some c →
    c.volume ≤ executed trades market .M1 (minute * 1000)

theorem tables_sound_eachBatch {db : Db} (hdb : db.TradesPublished) {stops : ℕ → Bool}
    {messages : List Message} (hp : Published db messages) {tables : Tables} {f : Flushed}
    (h : eachBatch stops tables messages = some f) (hs : tables.Sound db.trades) :
    f.db.Sound db.trades := by
  obtain ⟨k, hk⟩ := eachBatch_take stops tables messages
  rw [hk] at h
  obtain ⟨hnodup, hrows⟩ := eachBatch_candle? h
  refine ⟨hnodup hs.nodup, fun market minute c hc => ?_⟩
  obtain ⟨hkeep, hwrite⟩ := hrows market minute
  by_cases hnil : tradesOf market minute (messages.take k) = []
  · rw [hkeep hnil] at hc
    exact hs.rows market minute c hc
  · obtain ⟨b, hholds, hrow⟩ := hwrite hnil
    have hprices := (hp.take k).bucket_prices hdb hholds
    obtain ⟨hlow, hhigh⟩ := hholds.bounds
    rw [hrow, Option.some.injEq] at hc
    subst hc
    rcases hold : tables.candle? market minute with _ | c
    · exact ⟨hprices, hlow, hhigh⟩
    · -- the row keeps the price that it opened at
      refine ⟨fun p hp => ?_, hlow, hhigh⟩
      rcases List.mem_cons.mp hp with rfl | hp
      · exact (hs.rows market minute c hold).prices _ List.mem_cons_self
      · exact hprices p (List.mem_cons_of_mem _ hp)

theorem tables_bounded_eachBatch {db : Db} (hdb : db.TradesPublished)
    (hpos : ∀ t ∈ db.trades, 0 < t.quantity) {stops : ℕ → Bool} {messages : List Message}
    (hp : Published db messages) (hn : (messages.filterMap Message.trade?).Nodup)
    {tables : Tables} {f : Flushed} (h : eachBatch stops tables messages = some f)
    (hb : tables.Bounded db.trades) : f.db.Bounded db.trades := by
  obtain ⟨k, hk⟩ := eachBatch_take stops tables messages
  rw [hk] at h
  obtain ⟨-, hrows⟩ := eachBatch_candle? h
  intro market minute c hc
  obtain ⟨hkeep, hwrite⟩ := hrows market minute
  by_cases hnil : tradesOf market minute (messages.take k) = []
  · rw [hkeep hnil] at hc
    exact hb market minute c hc
  · obtain ⟨b, hholds, hrow⟩ := hwrite hnil
    have hvolume : b.volume ≤ executed db.trades market .M1 (minute * 1000) := by
      rw [hholds.volume]
      exact (hp.take k).volume_le hdb hpos
        (((List.take_sublist k messages).filterMap Message.trade?).nodup hn)
    rw [hrow, Option.some.injEq] at hc
    subst hc
    rcases tables.candle? market minute with _ | c <;> exact hvolume

theorem CandleAggregator.Tables.Sound.mono {trades trades' : List Trade}
    (hsub : trades.Sublist trades') {tables : Tables} (h : tables.Sound trades) :
    tables.Sound trades' :=
  ⟨h.nodup, fun market minute c hc => (h.rows market minute c hc).mono hsub⟩

theorem CandleAggregator.Tables.Bounded.mono {trades trades' : List Trade}
    (hsub : trades.Sublist trades') (hpos : ∀ t ∈ trades', 0 < t.quantity) {tables : Tables}
    (h : tables.Bounded trades) : tables.Bounded trades' :=
  fun market minute c hc => (h market minute c hc).trans (executed_mono hsub hpos _ _ _)

/-! ## The bars of a response -/

section Bars

variable {trades : List Trade} {tables : Tables} {symbol : String} {interval : CandleInterval}
  {sec : ℕ}

/-- A period is a number of minutes. -/
theorem CandleInterval.exists_minutes (interval : CandleInterval) :
    ∃ k, interval.seconds = 60 * k := by
  cases interval
  exacts [⟨1, rfl⟩, ⟨5, rfl⟩, ⟨15, rfl⟩, ⟨60, rfl⟩, ⟨240, rfl⟩, ⟨1440, rfl⟩, ⟨10080, rfl⟩]

/-- Rounding to the minute does not leave the period. -/
theorem minute_div (x k : ℕ) :
    x / 60000 * 60 / (60 * k) * (60 * k) * 1000 = x / (60 * k * 1000) * (60 * k * 1000) := by
  rw [Nat.mul_comm (x / 60000), Nat.mul_div_mul_left _ _ (by decide), Nat.div_div_eq_div_mul,
    show 60000 * k = 60 * k * 1000 by ring, Nat.mul_assoc]

/-- A minute of a longer period. -/
theorem within_of_minute {t : Trade} {c : Candle} (ht : t.Within .M1 (c.openTime * 1000))
    (hc : bucketSec interval c = sec) : t.Within interval (sec * 1000) := by
  have hminute : c.openTime = t.createdAt / 60000 * 60 := by
    unfold Trade.Within at ht
    simp only [CandleInterval.seconds] at ht
    omega
  obtain ⟨k, hk⟩ := interval.exists_minutes
  unfold Trade.Within
  rw [← hc, bucketSec, hminute, hk, minute_div]

/-- The row of a minute, as the queries select it. -/
theorem CandleAggregator.Tables.Sound.shows (h : tables.Sound trades) {c : Candle}
    (hc : c ∈ minutes tables.candles symbol) : tables.candle? symbol c.openTime = some c ∧
      Shows trades symbol .M1 (c.openTime * 1000) c.open c.high c.low c.close := by
  obtain ⟨hmem, hof⟩ := List.mem_filter.mp hc
  obtain ⟨hmarket, hinterval⟩ := of_decide_eq_true hof
  have hfind : tables.candle? symbol c.openTime = some c := by
    have := find?_of_mem h.nodup hmem
    rwa [show key c = (symbol, CandleInterval.M1, c.openTime) from by
      rw [← hmarket, ← hinterval]
      rfl] at this
  exact ⟨hfind, h.rows symbol c.openTime c hfind⟩

/-- A bar that aggregates rows of minutes of its period. -/
theorem shows_of_aggregates (h : tables.Sound trades) {rows : List Candle}
    (hrows : ∀ c ∈ rows, c ∈ minutes tables.candles symbol ∧ bucketSec interval c = sec)
    {b : CandleRow} (hb : Aggregates rows b) :
    Shows trades symbol interval (sec * 1000) b.open b.high b.low b.close := by
  have hshows : ∀ c ∈ rows,
      Shows trades symbol .M1 (c.openTime * 1000) c.open c.high c.low c.close :=
    fun c hc => (h.shows (hrows c hc).1).2
  have hprice : ∀ c ∈ rows, ∀ p ∈ [c.open, c.high, c.low, c.close],
      ∃ t ∈ periodTrades trades symbol interval (sec * 1000), t.price = p := by
    intro c hc p hp
    obtain ⟨t, ht, he⟩ := (hshows c hc).prices p hp
    obtain ⟨hmem, hmarket, hwithin⟩ := mem_periodTrades.mp ht
    exact ⟨t, mem_periodTrades.mpr ⟨hmem, hmarket, within_of_minute hwithin (hrows c hc).2⟩, he⟩
  obtain ⟨c₁, h₁, -, e₁⟩ := hb.open
  obtain ⟨c₂, h₂, e₂⟩ := hb.high.1
  obtain ⟨c₃, h₃, e₃⟩ := hb.low.1
  obtain ⟨c₄, h₄, -, e₄⟩ := hb.close
  refine ⟨fun p hp => ?_, ?_, ?_⟩
  · simp only [List.mem_cons, List.not_mem_nil, or_false] at hp
    rcases hp with rfl | rfl | rfl | rfl
    · exact e₁ ▸ hprice c₁ h₁ _ (by simp)
    · exact e₂ ▸ hprice c₂ h₂ _ (by simp)
    · exact e₃ ▸ hprice c₃ h₃ _ (by simp)
    · exact e₄ ▸ hprice c₄ h₄ _ (by simp)
  · exact (hb.low.2 ⟨c₄, h₄, rfl⟩).trans (e₄ ▸ (hshows c₄ h₄).low)
  · exact (e₄ ▸ (hshows c₄ h₄).high).trans (hb.high.2 ⟨c₄, h₄, rfl⟩)

/-- A quantity that counts in one of distinct minutes. -/
theorem sum_ite_le {os : List ℕ} (hos : os.Nodup) (o : ℕ) {q : ℚ} :
    (os.map fun x => if x = o then q else 0).sum ≤ if o ∈ os then q else 0 := by
  induction os with
  | nil => simp
  | cons x os ih =>
    obtain ⟨hx, hrest⟩ := List.nodup_cons.mp hos
    have hle := ih hrest
    rw [List.map_cons, List.sum_cons]
    by_cases e : x = o
    · subst e
      rw [if_neg hx] at hle
      rw [if_pos rfl, if_pos List.mem_cons_self]
      linarith
    · have hmem : o ∈ x :: os ↔ o ∈ os := by
        rw [List.mem_cons]
        exact or_iff_right fun h => e h.symm
      rw [if_neg e, zero_add, if_congr hmem rfl rfl]
      exact hle

/-- What was traded in distinct minutes of a period was traded in the period. -/
theorem sum_executed_le {rows : List Candle} (hn : (rows.map (·.openTime)).Nodup)
    (hrows : ∀ c ∈ rows, bucketSec interval c = sec) (hpos : ∀ t ∈ trades, 0 < t.quantity) :
    (rows.map fun c => executed trades symbol .M1 (c.openTime * 1000)).sum ≤
      executed trades symbol interval (sec * 1000) := by
  induction trades with
  | nil => simp [executed, periodTrades]
  | cons t ts ih =>
    have hcons : ∀ i o, executed (t :: ts) symbol i o =
        (if t.market = symbol ∧ t.Within i o then t.quantity else 0) + executed ts symbol i o := by
      intro i o
      unfold executed periodTrades
      rw [List.filter_cons]
      by_cases h : t.market = symbol ∧ t.Within i o
      · rw [if_pos h, if_pos (decide_eq_true h), List.map_cons, List.sum_cons]
      · rw [if_neg h, if_neg fun e => h (of_decide_eq_true e), zero_add]
    have hq := (hpos t List.mem_cons_self).le
    have hrest := ih fun x hx => hpos x (List.mem_cons_of_mem t hx)
    simp only [hcons, List.sum_map_add]
    refine add_le_add ?_ hrest
    -- the trade counts in the one minute that it was made in
    have hone : ∀ o, t.Within .M1 (o * 1000) ↔ o = t.createdAt / 60000 * 60 := by
      intro o
      unfold Trade.Within
      simp only [CandleInterval.seconds]
      omega
    by_cases hm : t.market = symbol
    · have hsum : (rows.map fun c =>
            if t.market = symbol ∧ t.Within .M1 (c.openTime * 1000) then t.quantity else 0).sum ≤
          if t.createdAt / 60000 * 60 ∈ rows.map (·.openTime) then t.quantity else 0 := by
        have := sum_ite_le hn (t.createdAt / 60000 * 60) (q := t.quantity)
        rw [List.map_map] at this
        simpa only [hm, true_and, hone, Function.comp_def] using this
      refine hsum.trans ?_
      by_cases hmem : t.createdAt / 60000 * 60 ∈ rows.map (·.openTime)
      · obtain ⟨c, hc, e⟩ := List.mem_map.mp hmem
        have hwithin : t.Within interval (sec * 1000) :=
          within_of_minute ((hone _).mpr e) (hrows c hc)
        rw [if_pos hmem, if_pos ⟨hm, hwithin⟩]
      · rw [if_neg hmem]
        split
        · exact hq
        · exact le_rfl
    · simp [hm]

/-- The volume of a bar that aggregates rows of minutes of its period. -/
theorem volume_le_of_aggregates (h : tables.Sound trades) (hb : tables.Bounded trades)
    (hpos : ∀ t ∈ trades, 0 < t.quantity) {rows : List Candle}
    (hsub : rows.Sublist (minutes tables.candles symbol))
    (hrows : ∀ c ∈ rows, bucketSec interval c = sec) {b : CandleRow} (hagg : Aggregates rows b) :
    b.volume ≤ executed trades symbol interval (sec * 1000) := by
  have hmem : ∀ c ∈ rows, c ∈ minutes tables.candles symbol := fun c hc => hsub.subset hc
  have hkeys : (rows.map key).Nodup :=
    ((hsub.trans List.filter_sublist).map key).nodup h.nodup
  have hn : (rows.map (·.openTime)).Nodup := by
    refine List.Nodup.of_map (fun o => (symbol, CandleInterval.M1, o)) ?_
    rw [List.map_map]
    refine (List.map_congr_left fun c hc => ?_) ▸ hkeys
    obtain ⟨hmarket, hinterval⟩ := of_decide_eq_true (List.mem_filter.mp (hmem c hc)).2
    exact congrArg₂ (fun m i => (m, i, c.openTime)) hmarket hinterval
  calc b.volume = (rows.map (·.volume)).sum := hagg.volume
    _ ≤ (rows.map fun c => executed trades symbol .M1 (c.openTime * 1000)).sum :=
      List.sum_le_sum fun c hc => hb _ _ _ (h.shows (hmem c hc)).1
    _ ≤ executed trades symbol interval (sec * 1000) := sum_executed_le hn hrows hpos

theorem mem_of_mem_sliceLast {α : Type*} {take : ℕ} {l : List α} {x : α}
    (h : x ∈ sliceLast take l) : x ∈ l := by
  unfold sliceLast at h
  split at h
  · exact h
  · exact List.mem_of_mem_drop h

/-- A row of a minute opens with the minute. -/
theorem CandleAggregator.Tables.Sound.aligned (h : tables.Sound trades) {c : Candle}
    (hc : c ∈ minutes tables.candles symbol) : bucketSec .M1 c = c.openTime := by
  obtain ⟨t, ht, -⟩ := (h.shows hc).2.prices c.open List.mem_cons_self
  have hwithin := (mem_periodTrades.mp ht).2.2
  unfold Trade.Within at hwithin
  unfold bucketSec
  simp only [CandleInterval.seconds] at hwithin ⊢
  omega

/-- The bar of a single row. -/
theorem aggregates_present (c : Candle) : Aggregates [c] (present c) where
  «open» := ⟨c, by simp, by simp, rfl⟩
  high := by simp [present]
  low := by simp [present]
  close := ⟨c, by simp, by simp, rfl⟩
  volume := by simp [present]

/-- **Where the bars of a response come from**: rows of minutes of the period. -/
theorem exists_aggregates (hs : tables.Sound trades) {now : ℕ} {intervalRaw : Option String}
    {limit : Option ℕ} {bars : List CandleRow}
    (h : candles tables.candles now symbol intervalRaw limit = .ok bars) :
    ∀ b ∈ bars, b.market = symbol ∧ candleInterval? (intervalRaw.getD "M1") = some b.interval ∧
      ∃ sec rows, b.openTime = sec * 1000 ∧ rows.Sublist (minutes tables.candles symbol) ∧
        (∀ c ∈ rows, bucketSec b.interval c = sec) ∧ Aggregates rows b := by
  intro b hb
  unfold candles at h
  split at h
  · cases h
  · rename_i interval hname
    dsimp only at h
    split at h
    · rename_i hM1
      subst hM1
      obtain rfl := Except.ok.inj h
      obtain ⟨c, hc, rfl⟩ := List.mem_map.mp hb
      have hmem : c ∈ minutes tables.candles symbol :=
        (List.mem_insertionSort _).mp (List.mem_of_mem_take (List.mem_reverse.mp hc))
      obtain ⟨hmarket, hinterval⟩ := of_decide_eq_true (List.mem_filter.mp hmem).2
      refine ⟨hmarket, hname.trans (congrArg some hinterval.symm), c.openTime, [c], rfl,
        List.singleton_sublist.mpr hmem, fun x hx => ?_, aggregates_present c⟩
      obtain rfl := List.mem_singleton.mp hx
      rw [show (present x).interval = .M1 from hinterval]
      exact hs.aligned hmem
    · obtain rfl := Except.ok.inj h
      obtain ⟨buckets, heq, hsorted⟩ := aggregated_eq tables.candles now
        (min (limit.getD 500) 1000) symbol interval
      rw [heq] at hb
      obtain ⟨hmarket, rfl, sec, htime, hagg⟩ := hsorted.bar b (mem_of_mem_sliceLast hb)
      refine ⟨hmarket, hname, sec, _, htime, List.filter_sublist.trans List.filter_sublist,
        fun c hc => ?_, hagg⟩
      exact of_decide_eq_true (List.mem_filter.mp (List.mem_filter.mp hc).1).2

end Bars

/-! ## The exchange and the candles -/

/-- The exchange with the table of candles. -/
structure Charts (E : Engine) where
  matcher : Matcher E
  candles : List Candle

namespace Charts

variable {E : Engine}

/-- What the aggregator reads and writes. -/
def tables (c : Charts E) : Tables := ⟨c.matcher.db.markets.map (·.symbol), c.candles⟩

inductive Step
  | exchange (l : Orbit.Step)
  /-- The aggregator is given messages of the topic of trades. -/
  | batch (stops : ℕ → Bool) (messages : List Message)

instance (db : Db) (messages : List Message) : Decidable (Published db messages) :=
  inferInstanceAs (Decidable (∀ evt ∈ messages.filterMap Message.trade?, evt ∈ db.tradeEvents))

/-- One step. Only what was published is delivered, and a transaction that fails writes nothing. -/
def step (c : Charts E) : Step → Charts E
  | .exchange l => { c with matcher := c.matcher.step l }
  | .batch stops messages =>
    if Published c.matcher.db messages then
      match eachBatch stops c.tables messages with
      | some f => { c with candles := f.db.candles }
      | none => c
    else c

/-- A run. -/
def run (c : Charts E) (steps : List Step) : Charts E := steps.foldl step c

/-- Nothing was traded yet. -/
structure Initial (c : Charts E) : Prop where
  matcher : c.matcher.Initial
  candles : c.candles = []

/-- The batch has no trade twice. -/
def Step.Distinct : Step → Prop
  | .exchange _ => True
  | .batch _ messages => (messages.filterMap Message.trade?).Nodup

instance : (l : Step) → Decidable l.Distinct
  | .exchange _ => isTrue trivial
  | .batch _ messages =>
    inferInstanceAs (Decidable (messages.filterMap Message.trade?).Nodup)

/-! ## Runs -/

variable {c : Charts E}

/-- The steps of the exchange. -/
def Step.exchange? : Step → Option Orbit.Step
  | .exchange l => some l
  | .batch _ _ => none

theorem run_append (c : Charts E) (ls ls' : List Step) : c.run (ls ++ ls') = (c.run ls).run ls' :=
  List.foldl_append

/-- The exchange knows nothing of the candles. -/
theorem run_matcher (c : Charts E) (steps : List Step) :
    (c.run steps).matcher = c.matcher.run (steps.filterMap Step.exchange?) := by
  induction steps generalizing c with
  | nil => rfl
  | cons l ls ih =>
    refine (ih (c.step l)).trans ?_
    cases l with
    | exchange l => rfl
    | batch stops messages =>
      unfold step
      dsimp only
      split
      · split <;> rfl
      · rfl

/-- No trade is deleted or changed. -/
theorem step_trades_sublist {m : Matcher E} (hs : Safe m) (l : Orbit.Step) :
    m.db.trades.Sublist (m.step l).db.trades := by
  refine step_tables (I := fun db => m.db.trades.Sublist db.trades) (fun hs hcmd ho hI => ?_)
    (fun _ ho hI => ?_) (fun _ he hI => ?_) hs l.adjusts_any (.refl _)
  · rcases ho.unchanged_or with hdb | rfl
    · rwa [hdb]
    · obtain ⟨order, rows, -, htrades, -⟩ := submit_executes hs hcmd ho
      rw [htrades]
      exact hI.trans (List.sublist_append_left _ _)
  · rwa [ho.trades]
  · rwa [he.trades]

/-- What a run of the exchange keeps. -/
theorem Initial.facts (h : c.Initial) (steps : List Step) :
    Safe (c.run steps).matcher ∧ (c.run steps).matcher.db.TradesPublished ∧
      ∀ t ∈ (c.run steps).matcher.db.trades, 0 < t.quantity := by
  rw [run_matcher]
  refine ⟨run_safe h.matcher _, run_tradesPublished h.matcher _, fun t ht => ?_⟩
  obtain ⟨maker, taker, -, -, he⟩ := run_executed h.matcher _ t ht
  exact he.quantity

theorem step_sound (hs : Safe c.matcher) (hp : c.matcher.db.TradesPublished)
    (hc : c.tables.Sound c.matcher.db.trades) (l : Step) :
    (c.step l).tables.Sound (c.step l).matcher.db.trades := by
  cases l with
  | exchange l =>
    have hlater := hc.mono (step_trades_sublist hs l)
    exact ⟨hlater.nodup, hlater.rows⟩
  | batch stops messages =>
    unfold step
    dsimp only
    split
    · rename_i hmessages
      split
      · rename_i f hf
        have hflushed := tables_sound_eachBatch hp hmessages hf hc
        exact ⟨hflushed.nodup, hflushed.rows⟩
      · exact hc
    · exact hc

theorem step_bounded (hs : Safe c.matcher) (hp : c.matcher.db.TradesPublished)
    (hpos : ∀ t ∈ c.matcher.db.trades, 0 < t.quantity) {l : Step}
    (hpos' : ∀ t ∈ (c.step l).matcher.db.trades, 0 < t.quantity) (hl : l.Distinct)
    (hc : c.tables.Bounded c.matcher.db.trades) :
    (c.step l).tables.Bounded (c.step l).matcher.db.trades := by
  cases l with
  | exchange l => exact hc.mono (step_trades_sublist hs l) hpos'
  | batch stops messages =>
    unfold step
    dsimp only
    split
    · rename_i hmessages
      split
      · rename_i f hf
        exact tables_bounded_eachBatch hp hpos hmessages hl hf hc
      · exact hc
    · exact hc

/-- **Every row shows what was traded**, in all reachable states. -/
theorem run_sound (h : c.Initial) (steps : List Step) :
    (c.run steps).tables.Sound (c.run steps).matcher.db.trades := by
  induction steps using List.reverseRecOn with
  | nil =>
    have hnil : c.tables.candles = [] := h.candles
    have hnodup : (c.tables.candles.map Table.key).Nodup := by
      rw [hnil]
      exact List.nodup_nil
    refine ⟨hnodup, fun market minute row hrow => ?_⟩
    rw [run, List.foldl_nil, Tables.candle?, hnil] at hrow
    cases hrow
  | append_singleton ls l ih =>
    obtain ⟨hs, hp, -⟩ := h.facts ls
    rw [run_append]
    exact step_sound hs hp ih l

theorem run_bounded (h : c.Initial) {steps : List Step} (hd : ∀ l ∈ steps, l.Distinct) :
    (c.run steps).tables.Bounded (c.run steps).matcher.db.trades := by
  induction steps using List.reverseRecOn with
  | nil =>
    have hnil : c.tables.candles = [] := h.candles
    intro market minute row hrow
    rw [run, List.foldl_nil, Tables.candle?, hnil] at hrow
    cases hrow
  | append_singleton ls l ih =>
    obtain ⟨hs, hp, hpos⟩ := h.facts ls
    obtain ⟨-, -, hpos'⟩ := h.facts (ls ++ [l])
    rw [run_append] at hpos' ⊢
    exact step_bounded hs hp hpos hpos' (hd l (by simp)) (ih fun x hx => hd x (by simp [hx]))

end Charts

/-- **The charts show what was traded.** However the topic of trades is delivered, every bar of a
response is one of the market and interval that were asked for, its prices are prices of trades of
its period, and it closes between its lowest and its highest. Where no batch has a trade twice, its
volume is, with exact decimals, at most what was traded in the period. -/
theorem charts_traded {E : Engine} {c : Charts E} (h : c.Initial) (steps : List Charts.Step)
    {now : ℕ} {symbol : String} {intervalRaw : Option String} {limit : Option ℕ}
    {bars : List CandleRow}
    (hbars : candles (c.run steps).candles now symbol intervalRaw limit = .ok bars) :
    (∀ b ∈ bars, b.market = symbol ∧ candleInterval? (intervalRaw.getD "M1") = some b.interval ∧
      Shows (c.run steps).matcher.db.trades symbol b.interval b.openTime b.open b.high b.low
        b.close) ∧
    ((∀ l ∈ steps, l.Distinct) → ∀ b ∈ bars,
      b.volume ≤ executed (c.run steps).matcher.db.trades symbol b.interval b.openTime) := by
  have hsound := Charts.run_sound h steps
  have hfrom := exists_aggregates hsound hbars
  obtain ⟨-, -, hpos⟩ := h.facts steps
  constructor
  · intro b hb
    obtain ⟨hmarket, hinterval, sec, rows, htime, hsub, hrows, hagg⟩ := hfrom b hb
    refine ⟨hmarket, hinterval, ?_⟩
    rw [htime]
    exact shows_of_aggregates hsound (fun x hx => ⟨hsub.subset hx, hrows x hx⟩) hagg
  · intro hd b hb
    obtain ⟨-, -, sec, rows, htime, hsub, hrows, hagg⟩ := hfrom b hb
    rw [htime]
    exact volume_le_of_aggregates hsound (Charts.run_bounded h hd) hpos hsub hrows hagg

namespace Sample

/-- The small exchange, without candles. -/
def charts : Charts Engine.priceTime := ⟨exchange, []⟩

/-- The trade of `trading`, in the partition of its topic. -/
def published : Message :=
  ⟨0, .trade ⟨.trade ⟨⟨3⟩, 0⟩, 1, 1, "BTC-USDT", 100, 1, 1, 2, "bob", "alice", .ASK, .BID, 0⟩⟩

/-- `trading`, and then two batches with its trade. -/
def charting : List Charts.Step :=
  trading.map .exchange ++
    [.batch (fun _ => false) [published], .batch (fun _ => false) [published]]

end Sample

/-- The bar of the five minutes in which one unit was traded. -/
theorem charts_traded_five : Sample.charts.Initial ∧
    candles (Sample.charts.run Sample.charting).candles 0 "BTC-USDT" (some "M5") none =
      .ok [⟨"BTC-USDT", .M5, 0, 100, 100, 100, 100, 1⟩] ∧
    Shows (Sample.charts.run Sample.charting).matcher.db.trades "BTC-USDT" .M5 0 100 100 100 100 ∧
    1 ≤ executed (Sample.charts.run Sample.charting).matcher.db.trades "BTC-USDT" .M5 0 := by
  have h : Sample.charts.Initial := ⟨Sample.exchange_initial, rfl⟩
  have hbars : candles (Sample.charts.run Sample.charting).candles 0 "BTC-USDT" (some "M5") none =
      .ok [⟨"BTC-USDT", .M5, 0, 100, 100, 100, 100, 1⟩] := by decide +kernel
  have hdistinct : ∀ l ∈ Sample.charting, l.Distinct := by decide +kernel
  obtain ⟨hshows, hvolume⟩ := charts_traded h Sample.charting hbars
  obtain ⟨-, -, hbar⟩ := hshows _ (List.mem_singleton_self _)
  have hle := hvolume hdistinct _ (List.mem_singleton_self _)
  exact ⟨h, hbars, hbar, hle⟩

end Orbit
