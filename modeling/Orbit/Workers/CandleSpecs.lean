import Mathlib.Order.Bounds.Basic
import Mathlib.Tactic.Ring
import Orbit.Workers.CandleAggregator

/-!
# What the candle rows hold

One batch is aggregated exactly: the bucket of a market and minute is the OHLCV of its trades in the
batch, and an empty table takes exactly these rows (`batch_exact`). Across batches the upsert keeps
the `open` of the first batch that has a trade of the minute and takes everything else from the last
one, so that `high`, `low` and `volume` are those of the last batch and not of the minute
(`candle_of_batches`).
-/

namespace Orbit.CandleAggregator

open Table

/-! ## Keys -/

/-- The last `:` of the text separates the market from the time. -/
theorem bucketKey_inj {market market' : String} {n n' : ℕ}
    (h : bucketKey market n = bucketKey market' n') : market = market' ∧ n = n' := by
  have hdigit : ∀ k : ℕ, ∀ c ∈ (Nat.repr k).toList.reverse, decide (c ≠ ':') = true := by
    intro k c hc
    rw [List.mem_reverse, Nat.toList_repr] at hc
    have := Nat.isDigit_of_mem_toDigits (by decide) (by decide) hc
    refine decide_eq_true fun e => ?_
    subst e
    cases this
  have hsplit : ∀ (s : String) (k : ℕ), (bucketKey s k).toList.reverse.takeWhile (· ≠ ':') =
      (Nat.repr k).toList.reverse := by
    intro s k
    simp only [bucketKey, String.toList_append, List.reverse_append]
    rw [List.takeWhile_append_of_pos (hdigit k)]
    simp
  have hrepr : Nat.repr n = Nat.repr n' := by
    have := (hsplit market n).symm.trans ((congrArg _ (by rw [h])).trans (hsplit market' n'))
    exact String.toList_injective (List.reverse_injective this)
  have hn : Nat.toDigits 10 n = Nat.toDigits 10 n' := by
    rw [← Nat.toList_repr, ← Nat.toList_repr, hrepr]
  refine ⟨?_, ?_⟩
  · unfold bucketKey at h
    rw [hrepr] at h
    simpa using h
  · rw [← Nat.ofDigitChars_ten_toDigits (n := n), hn, Nat.ofDigitChars_ten_toDigits]

/-! ## One batch -/

/-- The trade of a message, if it is one. -/
def Message.trade? (message : Message) : Option TradeEvent :=
  match message.value with
  | .trade trade => some trade
  | _ => none

/-- The trades of a market and minute among those of the messages. -/
def tradesOf (market : String) (minute : ℕ) (messages : List Message) : List TradeEvent :=
  (messages.filterMap Message.trade?).filter fun t =>
    decide (t.market = market ∧ openTime t = minute)

/-- The open, high, low, close and volume of a sequence of trades. -/
structure Ohlcv (ts : List TradeEvent) («open» high low close volume : ℚ) : Prop where
  «open» : ts.head?.map (·.price) = some «open»
  high : IsGreatest {p | ∃ t ∈ ts, t.price = p} high
  low : IsLeast {p | ∃ t ∈ ts, t.price = p} low
  close : ts.getLast?.map (·.price) = some close
  volume : volume = (ts.map (·.quantity)).sum

/-- The bucket holds the OHLCV of the trades. -/
def Bucket.Holds (b : Bucket) (ts : List TradeEvent) : Prop :=
  Ohlcv ts b.open b.high b.low b.close b.volume

theorem prices_append (ts : List TradeEvent) (t : TradeEvent) :
    {p | ∃ x ∈ ts ++ [t], x.price = p} = insert t.price {p | ∃ x ∈ ts, x.price = p} := by
  ext p
  simp [or_and_right, exists_or, or_comm, eq_comm]

/-- A bucket that holds its first trade. -/
theorem holds_newBucket (t : TradeEvent) : ((newBucket t).add t).Holds [t] where
  «open» := rfl
  high := by simp [newBucket, Bucket.add]
  low := by simp [newBucket, Bucket.add]
  close := rfl
  volume := by simp [newBucket, Bucket.add]

/-- One more trade. -/
theorem Bucket.Holds.add {b : Bucket} {ts : List TradeEvent} (h : b.Holds ts) (t : TradeEvent) :
    (b.add t).Holds (ts ++ [t]) where
  «open» := by
    obtain ⟨x, hx, -⟩ := h.high.1
    rw [List.head?_append_of_ne_nil _ (List.ne_nil_of_mem hx)]
    exact h.open
  high := by
    rw [prices_append, show (b.add t).high = max t.price b.high from max_comm _ _]
    exact h.high.insert _
  low := by
    rw [prices_append, show (b.add t).low = min t.price b.low from min_comm _ _]
    exact h.low.insert _
  close := by simp [Bucket.add]
  volume := by simp [Bucket.add, h.volume]

theorem key_newBucket (t : TradeEvent) : key (newBucket t) = bucketKey t.market (openTime t) := rfl

theorem Bucket.key_add (t : TradeEvent) (b : Bucket) : key (b.add t) = key b := rfl

/-- The lookup of a bucket after a trade. -/
theorem find?_addTrade (buckets : List Bucket) (t : TradeEvent) (k : String) :
    find? k (addTrade buckets t) =
      if k = bucketKey t.market (openTime t) then
        some (((find? k buckets).getD (newBucket t)).add t)
      else find? k buckets := by
  unfold addTrade
  rw [find?_modify (Bucket.key_add t), find?_upsert (f := id) (fun _ => rfl)]
  rw [key_newBucket]
  split <;> simp

/-- **The buckets of a batch**: one for each market and minute that has a trade, with the OHLCV of
its trades. -/
structure Collected (messages : List Message) (buckets : List Bucket) : Prop where
  nodup : (buckets.map key).Nodup
  absent : ∀ market minute, tradesOf market minute messages = [] →
    find? (bucketKey market minute) buckets = none
  present : ∀ market minute, tradesOf market minute messages ≠ [] →
    ∃ b, find? (bucketKey market minute) buckets = some b ∧
      b.market = market ∧ b.openTime = minute ∧ b.Holds (tradesOf market minute messages)

theorem tradesOf_append (market : String) (minute : ℕ) (ms ms' : List Message) :
    tradesOf market minute (ms ++ ms') = tradesOf market minute ms ++
    tradesOf market minute ms' := by
  simp [tradesOf]

theorem nodup_addTrade {buckets : List Bucket} (h : (buckets.map key).Nodup) (t : TradeEvent) :
    ((addTrade buckets t).map key).Nodup := by
  unfold addTrade
  rw [map_key_modify (Bucket.key_add t)]
  exact nodup_map_key_upsert (fun _ => rfl) h

theorem tradesOf_singleton (market : String) (minute : ℕ) (message : Message) :
    tradesOf market minute [message] = match message.trade? with
      | some t => if t.market = market ∧ openTime t = minute then [t] else []
      | none => [] := by
  cases h : message.trade? <;> simp [tradesOf, h, List.filter_singleton]

/-- One turn of the loop. -/
theorem Collected.turn {messages : List Message} {s : Loop} (h : Collected messages s.buckets)
    (message : Message) : Collected (messages ++ [message]) (turn s message).buckets := by
  cases hm : message.trade? with
  | none =>
    have hskip : ∀ market minute,
        tradesOf market minute (messages ++ [message]) = tradesOf market minute messages := by
      intro market minute
      rw [tradesOf_append, tradesOf_singleton, hm, List.append_nil]
    have hbuckets : (CandleAggregator.turn s message).buckets = s.buckets := by
      unfold CandleAggregator.turn
      cases hv : message.value with
      | trade t => simp [Message.trade?, hv] at hm
      | _ => rfl
    rw [hbuckets]
    exact ⟨h.nodup, fun market minute => hskip market minute ▸ h.absent market minute,
      fun market minute => hskip market minute ▸ h.present market minute⟩
  | some t =>
    have hbuckets : (CandleAggregator.turn s message).buckets = addTrade s.buckets t := by
      unfold CandleAggregator.turn
      cases hv : message.value <;> simp [Message.trade?, hv] at hm
      subst hm
      rfl
    rw [hbuckets]
    refine ⟨nodup_addTrade h.nodup t, fun market minute hnil => ?_, fun market minute hne => ?_⟩
    · rw [tradesOf_append, tradesOf_singleton, hm] at hnil
      obtain ⟨hold, hnew⟩ := List.append_eq_nil_iff.mp hnil
      rw [find?_addTrade, if_neg, h.absent market minute hold]
      intro e
      obtain ⟨rfl, rfl⟩ := bucketKey_inj e
      simp at hnew
    · rw [tradesOf_append, tradesOf_singleton, hm] at hne ⊢
      rw [find?_addTrade]
      by_cases hk : t.market = market ∧ openTime t = minute
      · -- the trade is one of them
        obtain ⟨rfl, rfl⟩ := hk
        simp only [and_self, if_true]
        by_cases hnil : tradesOf t.market (openTime t) messages = []
        · rw [h.absent _ _ hnil, hnil]
          exact ⟨_, rfl, rfl, rfl, holds_newBucket t⟩
        · obtain ⟨b, hb, hmarket, hminute, hholds⟩ := h.present _ _ hnil
          rw [hb]
          exact ⟨_, rfl, hmarket, hminute, hholds.add t⟩
      · simp only [hk, if_false, List.append_nil] at hne ⊢
        rw [if_neg]
        · exact h.present market minute hne
        · intro e
          obtain ⟨rfl, rfl⟩ := bucketKey_inj e
          exact hk ⟨rfl, rfl⟩

/-- **The loop over a batch that is not cut short.** -/
theorem collected_loop (messages done : List Message) (i : ℕ) {s : Loop}
    (h : Collected done s.buckets) :
    Collected (done ++ messages) (loop (fun _ => false) i s messages).buckets := by
  induction messages generalizing done i s with
  | nil =>
    rw [List.append_nil]
    exact h
  | cons message messages ih =>
    have := ih (done ++ [message]) (i + 1) (h.turn message)
    rwa [List.append_assoc] at this

theorem collected_nil : Collected [] [] where
  nodup := List.nodup_nil
  absent _ _ _ := rfl
  present _ _ h := absurd rfl h

/-! ## The upserts of a batch -/

theorem Bucket.key_create (b : Bucket) : key b.create = (b.market, CandleInterval.M1, b.openTime) :=
  rfl

theorem Bucket.key_update (b : Bucket) (c : Candle) : key (b.update c) = key c := rfl

/-- The row of a market and minute. -/
def Tables.candle? (db : Tables) (market : String) (minute : ℕ) : Option Candle :=
  find? (market, CandleInterval.M1, minute) db.candles

theorem candleUpsert_eq_some {db db' : Tables} {b : Bucket} (h : candleUpsert db b = some db') :
    db'.candles = upsert b.create b.update db.candles := by
  unfold candleUpsert at h
  split at h
  · cases h
    rfl
  · cases h

/-- What a flush does to the row of a market and minute: if there is a bucket for it, the row is
created or updated from that. -/
theorem flush_candle? {db db' : Tables} {buckets : List Bucket} (h : flush db buckets = some db')
    (hn : (buckets.map key).Nodup) (market : String) (minute : ℕ) :
    db'.candle? market minute = match find? (bucketKey market minute) buckets with
      | some b => some (((db.candle? market minute).map b.update).getD b.create)
      | none => db.candle? market minute := by
  induction buckets generalizing db with
  | nil =>
    cases h
    rfl
  | cons b bs ih =>
    obtain ⟨db₁, hb, hbs⟩ := Option.bind_eq_some_iff.mp h
    rw [List.map_cons, List.nodup_cons] at hn
    have hrow : db₁.candle? market minute =
        if (market, CandleInterval.M1, minute) = key b.create then
          some (((db.candle? market minute).map b.update).getD b.create)
        else db.candle? market minute := by
      unfold Tables.candle?
      rw [candleUpsert_eq_some hb, find?_upsert b.key_update]
    rw [ih hbs hn.2, find?_cons, hrow]
    by_cases hk : key b = bucketKey market minute
    · -- the bucket is the one, and no later one has its key
      obtain ⟨rfl, rfl⟩ := bucketKey_inj hk
      have hnone : find? (bucketKey b.market b.openTime) bs = none :=
        find?_eq_none.mpr fun x hx e => hn.1 (List.mem_map.mpr ⟨x, hx, e⟩)
      rw [hnone, b.key_create, if_pos rfl, if_pos hk]
    · have hne : (market, CandleInterval.M1, minute) ≠ key b.create := by
        intro e
        obtain ⟨rfl, rfl⟩ : market = b.market ∧ minute = b.openTime := by
          simpa [b.key_create] using e
        exact hk rfl
      rw [if_neg hne, if_neg hk]

/-- A flush keeps one row for each market and minute. -/
theorem flush_nodup {db db' : Tables} {buckets : List Bucket} (h : flush db buckets = some db')
    (hn : (db.candles.map key).Nodup) : (db'.candles.map key).Nodup := by
  induction buckets generalizing db with
  | nil =>
    cases h
    exact hn
  | cons b bs ih =>
    obtain ⟨db₁, hb, hbs⟩ := Option.bind_eq_some_iff.mp h
    refine ih hbs ?_
    rw [candleUpsert_eq_some hb]
    exact nodup_map_key_upsert b.key_update hn

/-- **One batch**: the row of a market and minute that it has trades of is created or updated from a
bucket with their OHLCV. -/
theorem eachBatch_candle? {db : Tables} {messages : List Message} {s : Flushed}
    (h : eachBatch (fun _ => false) db messages = some s) :
    ((db.candles.map key).Nodup → (s.db.candles.map key).Nodup) ∧
    ∀ market minute,
      (tradesOf market minute messages = [] → s.db.candle? market minute =
      db.candle? market minute) ∧
      (tradesOf market minute messages ≠ [] → ∃ b : Bucket,
        b.Holds (tradesOf market minute messages) ∧
        s.db.candle? market minute =
          some (((db.candle? market minute).map b.update).getD b.create)) := by
  have hcol := collected_loop messages [] 0 (s := ⟨[], none⟩) collected_nil
  rw [List.nil_append] at hcol
  unfold eachBatch at h
  generalize loop (fun _ => false) 0 ⟨[], none⟩ messages = l at h hcol
  by_cases hnil : l.buckets = []
  · simp only [hnil, if_true, Option.some.injEq] at h
    subst h
    refine ⟨id, fun market minute => ⟨fun _ => rfl, fun hne => ?_⟩⟩
    obtain ⟨b, hb, -⟩ := hcol.present market minute hne
    rw [hnil] at hb
    cases hb
  · simp only [hnil, if_false] at h
    obtain ⟨db', hflush, hs⟩ := Option.bind_eq_some_iff.mp h
    cases hs
    refine ⟨flush_nodup hflush, fun market minute => ⟨fun hnone => ?_, fun hne => ?_⟩⟩
    · rw [flush_candle? hflush hcol.nodup, hcol.absent market minute hnone]
    · obtain ⟨b, hb, -, -, hholds⟩ := hcol.present market minute hne
      refine ⟨b, hholds, ?_⟩
      rw [flush_candle? hflush hcol.nodup, hb]

/-! ## A batch into an empty table -/

/-- The trades of a market with a time stamp in a minute, counted from the epoch. -/
def tradesIn (market : String) (minute : ℕ) (messages : List Message) : List TradeEvent :=
  (messages.filterMap Message.trade?).filter fun t =>
    decide (t.market = market ∧ t.ts / 60000 = minute)

theorem openTime_eq (t : TradeEvent) : openTime t = 60 * (t.ts / 60000) := by
  rw [openTime, Nat.div_div_eq_div_mul, Nat.mul_comm]
  rfl

theorem tradesOf_minute (market : String) (minute : ℕ) (messages : List Message) :
    tradesOf market (60 * minute) messages = tradesIn market minute messages := by
  refine List.filter_congr fun t _ => decide_eq_decide.mpr (and_congr_right fun _ => ?_)
  rw [openTime_eq]
  omega

/-- **Exact buckets**: one for each market and minute with a trade, which holds
the OHLCV of these. -/
structure Exact (messages : List Message) (buckets : List Bucket) : Prop where
  nodup : (buckets.map key).Nodup
  one : ∀ market minute, tradesIn market minute messages ≠ [] →
    ∃! b, b ∈ buckets ∧ b.market = market ∧ b.openTime = 60 * minute
  holds : ∀ b ∈ buckets, ∃ minute, b.openTime = 60 * minute ∧
    tradesIn b.market minute messages ≠ [] ∧ b.Holds (tradesIn b.market minute messages)

theorem Collected.exact {messages : List Message} {buckets : List Bucket}
    (h : Collected messages buckets) : Exact messages buckets := by
  have hfind : ∀ b ∈ buckets, find? (bucketKey b.market b.openTime) buckets = some b := fun b hb =>
    find?_of_mem h.nodup hb
  refine ⟨h.nodup, fun market minute hne => ?_, fun b hb => ?_⟩
  · rw [← tradesOf_minute] at hne
    obtain ⟨b, hb, hmarket, hminute, -⟩ := h.present market (60 * minute) hne
    refine ⟨b, ⟨mem_of_find? hb, hmarket, hminute⟩, fun b' ⟨hb', hmarket', hminute'⟩ => ?_⟩
    have hfind' := hfind b' hb'
    rw [hmarket', hminute', hb] at hfind'
    exact (Option.some.inj hfind').symm
  · have hne : tradesOf b.market b.openTime messages ≠ [] := fun hnil => by
      have := (hfind b hb).symm.trans (h.absent b.market b.openTime hnil)
      cases this
    obtain ⟨t, ht⟩ := List.exists_mem_of_ne_nil _ hne
    have hminute : b.openTime = 60 * (t.ts / 60000) := by
      rw [← openTime_eq]
      exact (of_decide_eq_true (List.mem_filter.mp ht).2).2.symm
    obtain ⟨b', hb', -, -, hholds⟩ := h.present b.market b.openTime hne
    obtain rfl : b' = b := Option.some.inj (hb'.symm.trans (hfind b hb))
    rw [hminute, tradesOf_minute] at hne hholds
    exact ⟨_, hminute, hne, hholds⟩

/-- A flush of buckets that have no row yet inserts theirs, in their order. -/
theorem flush_candles {db db' : Tables} {buckets : List Bucket} (h : flush db buckets = some db')
    (hn : (buckets.map key).Nodup) (hnew : ∀ b ∈ buckets, find? (key b.create) db.candles = none) :
    db'.candles = db.candles ++ buckets.map Bucket.create := by
  induction buckets generalizing db with
  | nil =>
    cases h
    exact (List.append_nil _).symm
  | cons b bs ih =>
    obtain ⟨db₁, hb, hbs⟩ := Option.bind_eq_some_iff.mp h
    rw [List.map_cons, List.nodup_cons] at hn
    have hcandles : db₁.candles = db.candles ++ [b.create] := by
      rw [candleUpsert_eq_some hb, upsert, hnew b List.mem_cons_self]
    rw [ih hbs hn.2, hcandles, List.append_assoc, List.map_cons, List.singleton_append]
    intro b' hb'
    rw [hcandles, find?_append, hnew b' (List.mem_cons_of_mem _ hb'), Option.none_or, find?_cons,
      if_neg, find?_nil]
    intro hkey
    obtain ⟨hmarket, hminute⟩ : b.market = b'.market ∧ b.openTime = b'.openTime := by
      simpa [Bucket.key_create] using hkey
    refine hn.1 (List.mem_map.mpr ⟨b', hb', ?_⟩)
    change bucketKey b'.market b'.openTime = bucketKey b.market b.openTime
    rw [hmarket, hminute]

/-- It is not refused if the markets exist. -/
theorem flush_isSome {db : Tables} {buckets : List Bucket}
    (hm : ∀ b ∈ buckets, b.market ∈ db.markets) :
    (flush db buckets).isSome := by
  induction buckets generalizing db with
  | nil => rfl
  | cons b bs ih =>
    have hupsert : candleUpsert db b =
        some { db with candles := upsert b.create b.update db.candles } :=
      if_pos (.inr (hm b List.mem_cons_self))
    rw [flush, hupsert]
    exact ih fun b' hb' => hm b' (List.mem_cons_of_mem _ hb')

/-- **One batch is aggregated exactly.** The buckets of the batch are exact. If the table is
empty, the rows that it has afterwards are exactly those of the buckets, and nothing goes wrong
if all markets exist. -/
theorem batch_exact (messages : List Message) :
    Exact messages (loop (fun _ => false) 0 ⟨[], none⟩ messages).buckets ∧
    ∀ db : Tables, db.candles = [] →
      (∀ s, eachBatch (fun _ => false) db messages = some s →
        s.db.candles = (loop (fun _ => false) 0 ⟨[], none⟩ messages).buckets.map Bucket.create) ∧
      ((∀ t ∈ messages.filterMap Message.trade?, t.market ∈ db.markets) →
        (eachBatch (fun _ => false) db messages).isSome) := by
  have hcol := collected_loop messages [] 0 (s := ⟨[], none⟩) collected_nil
  rw [List.nil_append] at hcol
  refine ⟨hcol.exact, fun db hempty => ?_⟩
  have hexact := hcol.exact
  unfold eachBatch
  generalize loop (fun _ => false) 0 ⟨[], none⟩ messages = l at hexact
  by_cases hnil : l.buckets = []
  · simp only [hnil, if_true]
    refine ⟨fun s hs => ?_, fun _ => rfl⟩
    cases hs
    exact hempty
  · simp only [hnil, if_false]
    refine ⟨fun s hs => ?_, fun hmarkets => ?_⟩
    · obtain ⟨db', hflush, hs⟩ := Option.bind_eq_some_iff.mp hs
      cases hs
      rw [flush_candles hflush hexact.nodup fun b _ =>
        by rw [hempty, find?_nil], hempty, List.nil_append]
    · have hflush : (flush db l.buckets).isSome := flush_isSome fun b hb => by
        obtain ⟨minute, -, hne, -⟩ := hexact.holds b hb
        obtain ⟨t, ht⟩ := List.exists_mem_of_ne_nil _ hne
        obtain ⟨hmem, hmarket⟩ := List.mem_filter.mp ht
        rw [← (of_decide_eq_true hmarket).1]
        exact hmarkets t hmem
      obtain ⟨db', hdb'⟩ := Option.isSome_iff_exists.mp hflush
      rw [hdb']
      rfl

/-- A batch with two markets, two minutes and messages of every other kind. -/
def mixedBatch : List Message :=
  let trade (offset : ℕ) (market : String) (price quantity : ℚ) (ts : ℕ) : Message :=
    ⟨offset, .trade ⟨.trade ⟨⟨0⟩, offset⟩, offset, offset, market, price,
      quantity, 1, 2, "bob", "alice",
      .ASK, .BID, ts⟩⟩
  [trade 0 "BTC-USDT" 100 1 59999, ⟨1, .null⟩, trade 2 "ETH-USDT" 7 3 60000, ⟨3, .unparseable⟩,
    trade 4 "BTC-USDT" 90 2 60000, ⟨5, .other⟩, trade 6 "BTC-USDT" 110 1 59000]

/-- Its three rows. -/
theorem batch_exact_mixed :
    ((⟨["BTC-USDT", "ETH-USDT"], []⟩ : Tables).candles = [] ∧
      ∀ t ∈ mixedBatch.filterMap Message.trade?, t.market ∈ ["BTC-USDT", "ETH-USDT"]) ∧
    ∃ s, eachBatch (fun _ => false) ⟨["BTC-USDT", "ETH-USDT"], []⟩ mixedBatch = some s ∧
      s.db.candles = [⟨"BTC-USDT", .M1, 0, 100, 110, 100, 110, 2⟩,
      ⟨"ETH-USDT", .M1, 60, 7, 7, 7, 7, 3⟩,
        ⟨"BTC-USDT", .M1, 60, 90, 90, 90, 90, 2⟩] := by
  have hmarkets : ∀ t ∈ mixedBatch.filterMap Message.trade?,
      t.market ∈ ["BTC-USDT", "ETH-USDT"] := by
    decide +kernel
  obtain ⟨-, hdb⟩ := batch_exact mixedBatch
  obtain ⟨hrows, hdone⟩ := hdb ⟨["BTC-USDT", "ETH-USDT"], []⟩ rfl
  obtain ⟨s, hs⟩ := Option.isSome_iff_exists.mp (hdone hmarkets)
  exact ⟨⟨rfl, hmarkets⟩, s, hs, (hrows s hs).trans (by decide +kernel)⟩

/-! ## Batches -/

/-- The trades of a market and minute, batch by batch, for the batches that have one. -/
def batchesOf (market : String) (minute : ℕ) (batches : List (List Message)) :
    List (List TradeEvent) :=
  (batches.map (tradesOf market minute)).filter (· ≠ [])

theorem batchesOf_append (market : String) (minute : ℕ) (batches : List (List Message))
    (batch : List Message) : batchesOf market minute (batches ++ [batch]) =
      batchesOf market minute batches ++
        if tradesOf market minute batch = [] then [] else [tradesOf market minute batch] := by
  unfold batchesOf
  rw [List.map_append, List.filter_append]
  by_cases h : tradesOf market minute batch = [] <;> simp [h]

theorem flatten_batchesOf (market : String) (minute : ℕ) (batches : List (List Message)) :
    (batchesOf market minute batches).flatten = tradesOf market minute batches.flatten := by
  induction batches with
  | nil => rfl
  | cons batch batches ih =>
    rw [List.flatten_cons, tradesOf_append, ← ih]
    unfold batchesOf
    by_cases h : tradesOf market minute batch = [] <;> simp [h]

/-- The row that batches leave for a market and minute: its `open` is that of all its trades, and
everything else that of the last batch that has one. -/
structure Recorded (batches : List (List Message)) (db : Tables) : Prop where
  nodup : (db.candles.map key).Nodup
  absent : ∀ market minute, batchesOf market minute batches = [] → db.candle? market minute = none
  present : ∀ market minute last, (batchesOf market minute batches).getLast? = some last →
    ∃ c, db.candle? market minute = some c ∧
      (tradesOf market minute batches.flatten).head?.map (·.price) = some c.open ∧
      ∃ first, Ohlcv last first c.high c.low c.close c.volume

/-- **One more batch.** -/
theorem recorded_eachBatch {batches : List (List Message)} {db : Tables} (h : Recorded batches db)
    {batch : List Message} {s : Flushed} (hs : eachBatch (fun _ => false) db batch = some s) :
    Recorded (batches ++ [batch]) s.db := by
  obtain ⟨hnodup, hrows⟩ := eachBatch_candle? hs
  refine ⟨hnodup h.nodup, fun market minute hnil => ?_, fun market minute last hlast => ?_⟩
  · obtain ⟨hkeep, -⟩ := hrows market minute
    rw [batchesOf_append] at hnil
    obtain ⟨hold, hnew⟩ := List.append_eq_nil_iff.mp hnil
    rw [hkeep (by simpa using hnew)]
    exact h.absent market minute hold
  · obtain ⟨hkeep, hwrite⟩ := hrows market minute
    rw [batchesOf_append] at hlast
    rw [List.flatten_append, List.flatten_singleton, tradesOf_append]
    by_cases hb : tradesOf market minute batch = []
    · rw [if_pos hb, List.append_nil] at hlast
      rw [hkeep hb, hb, List.append_nil]
      exact h.present market minute last hlast
    · rw [if_neg hb, List.getLast?_concat, Option.some.injEq] at hlast
      subst hlast
      obtain ⟨b, hholds, hrow⟩ := hwrite hb
      rw [hrow]
      rcases hprev : (batchesOf market minute batches).getLast? with _ | prev
      · -- the first batch with a trade of the minute
        rw [List.getLast?_eq_none_iff] at hprev
        rw [h.absent market minute hprev, ← flatten_batchesOf, hprev]
        exact ⟨_, rfl, hholds.open, b.open, hholds⟩
      · obtain ⟨c, hc, hopen, -⟩ := h.present market minute prev hprev
        rw [hc]
        refine ⟨_, rfl, ?_, b.open, hholds⟩
        rw [List.head?_append_of_ne_nil]
        · exact hopen
        · intro hnil
          rw [hnil] at hopen
          cases hopen

theorem recorded_aggregate {db db' : Tables} {done batches : List (List Message)}
    (h : Recorded done db) (hagg : aggregate db batches = some db') :
    Recorded (done ++ batches) db' := by
  induction batches generalizing done db with
  | nil =>
    cases hagg
    rwa [List.append_nil]
  | cons batch batches ih =>
    obtain ⟨s, hs, hrest⟩ := Option.bind_eq_some_iff.mp hagg
    have := ih (recorded_eachBatch h hs) hrest
    rwa [List.append_assoc] at this

theorem recorded_nil {db : Tables} (h : db.candles = []) : Recorded [] db where
  nodup := by simp [h]
  absent market minute _ := by simp [Tables.candle?, h]
  present market minute last hlast := by simp [batchesOf] at hlast

/-- The last of the trades of a market and minute is that of the last batch that has one. -/
theorem getLast?_tradesOf {market : String} {minute : ℕ} {batches : List (List Message)}
    {last : List TradeEvent} (h : (batchesOf market minute batches).getLast? = some last)
    (hne : last ≠ []) : (tradesOf market minute batches.flatten).getLast? = last.getLast? := by
  obtain ⟨front, hfront⟩ := List.getLast?_eq_some_iff.mp h
  rw [← flatten_batchesOf, hfront, List.flatten_append, List.flatten_singleton,
    List.getLast?_append_of_ne_nil _ hne]

/-- **Candles across batches.** There is at most one row for a market and minute, and none without a
trade. Its `open` and `close` are the first and the last price of all its trades; `high`, `low` and
`volume` are those of the last batch that has one, and so those of all of them if
it is the only one. -/
theorem candle_of_batches {db db' : Tables} (h0 : db.candles = []) {batches : List (List Message)}
    (h : aggregate db batches = some db') :
    (db'.candles.map key).Nodup ∧ ∀ market minute,
      (tradesOf market minute batches.flatten = [] → db'.candle? market minute = none) ∧
      ∀ last, (batchesOf market minute batches).getLast? = some last →
        ∃ c, db'.candle? market minute = some c ∧
          (tradesOf market minute batches.flatten).head?.map (·.price) = some c.open ∧
          (tradesOf market minute batches.flatten).getLast?.map (·.price) = some c.close ∧
          IsGreatest {p | ∃ t ∈ last, t.price = p} c.high ∧
          IsLeast {p | ∃ t ∈ last, t.price = p} c.low ∧
          c.volume = (last.map (·.quantity)).sum ∧
          (batchesOf market minute batches = [last] →
            Ohlcv (tradesOf market minute batches.flatten) c.open c.high
              c.low c.close c.volume) := by
  have hrec := recorded_aggregate (recorded_nil h0) h
  rw [List.nil_append] at hrec
  refine ⟨hrec.nodup, fun market minute => ⟨fun hnil => hrec.absent market minute ?_,
    fun last hlast => ?_⟩⟩
  · rw [← flatten_batchesOf, List.flatten_eq_nil_iff] at hnil
    refine List.eq_nil_iff_forall_not_mem.mpr fun ts hts => ?_
    have := List.of_mem_filter hts
    simp [hnil ts hts] at this
  · obtain ⟨c, hc, hopen, first, hohlcv⟩ := hrec.present market minute last hlast
    have hne : last ≠ [] := by
      obtain ⟨t, ht, -⟩ := hohlcv.high.1
      exact List.ne_nil_of_mem ht
    have hclose : (tradesOf market minute batches.flatten).getLast?.map
        (·.price) = some c.close := by
      rw [getLast?_tradesOf hlast hne]
      exact hohlcv.close
    refine ⟨c, hc, hopen, hclose, hohlcv.high, hohlcv.low, hohlcv.volume, fun hone => ?_⟩
    have hall : tradesOf market minute batches.flatten = last := by
      rw [← flatten_batchesOf, hone, List.flatten_singleton]
    rw [hall] at hopen ⊢
    exact ⟨hopen, hohlcv.high, hohlcv.low, hohlcv.close, hohlcv.volume⟩

namespace BatchSample

/-- A message with a trade in the first minute. -/
def tradeAt (offset : ℕ) (price quantity : ℚ) : Message :=
  ⟨offset, .trade ⟨.trade ⟨⟨0⟩, offset⟩, offset, offset, "BTC-USDT", price, quantity, 1, 2, "bob",
    "alice", .ASK, .BID, 1000 * offset⟩⟩

/-- One unit at 100 in a batch, and two at 90 in the next. -/
def batches : List (List Message) := [[tradeAt 0 100 1], [tradeAt 1 90 2]]

/-- What is left of them: the first price, and the second batch. -/
def candle : Candle := ⟨"BTC-USDT", .M1, 0, 100, 90, 90, 90, 2⟩

theorem aggregate_batches :
    aggregate ⟨["BTC-USDT"], []⟩ batches = some ⟨["BTC-USDT"], [candle]⟩ := by
  decide +kernel

end BatchSample

/-- The row has the volume of the second batch. -/
theorem candle_of_two_batches :
    aggregate ⟨["BTC-USDT"], []⟩ BatchSample.batches = some ⟨["BTC-USDT"], [BatchSample.candle]⟩ ∧
    ∃ c, (⟨["BTC-USDT"], [BatchSample.candle]⟩ : Tables).candle? "BTC-USDT" 0 =
      some c ∧ c.volume = 2 := by
  have hempty : (⟨["BTC-USDT"], []⟩ : Tables).candles = [] := rfl
  obtain ⟨-, hrows⟩ := candle_of_batches hempty BatchSample.aggregate_batches
  obtain ⟨c, hc, -, -, -, -, hvolume, -⟩ := (hrows "BTC-USDT" 0).2
    ([BatchSample.tradeAt 1 90 2].filterMap Message.trade?) (by decide +kernel)
  exact ⟨BatchSample.aggregate_batches, c, hc, hvolume.trans (by decide +kernel)⟩

/-- Split in two batches, the trades of a minute leave a row with less than their volume, and
without their highest price. -/
theorem candle_loses_first_batch : ¬∀ (db db' : Tables) (batches : List (List Message)),
    db.candles = [] → aggregate db batches = some db' → ∀ market minute c,
      db'.candle? market minute = some c →
      Ohlcv (tradesOf market minute batches.flatten) c.open c.high c.low c.close c.volume := by
  intro h
  have := (h _ _ _ rfl BatchSample.aggregate_batches "BTC-USDT" 0 BatchSample.candle
    (by decide +kernel)).volume
  revert this
  decide +kernel

end Orbit.CandleAggregator
