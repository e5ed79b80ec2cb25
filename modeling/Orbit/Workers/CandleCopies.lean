import Mathlib.Algebra.Order.BigOperators.Group.List
import Mathlib.Data.List.Induction
import Mathlib.Tactic.Linarith
import Orbit.Workers.CandleSpecs

/-!
# Copies of trades

A trade that the outbox relay, the `retry-30s` worker or a replay from the dead letter queue
publishes again comes back to the aggregator as a message with the same value. `dropCopies` removes
the messages whose trade came before, and `originals` does so batch by batch: it is the sequence
without copies, in the batches that the sequence with copies was cut into.

* `candles_unchanged_iff`: the rows are those of the sequence without copies exactly when, for every
  market and minute, the last batch that has a trade of it has no copy of one, or nothing but
  copies, and those with the high, the low, the last price and the volume of the last batch
  that brought new trades.
-/

namespace Orbit.CandleAggregator

open Table

/-- The message brings a trade that one of the earlier messages brought. -/
def isCopy (earlier : List Message) (message : Message) : Bool :=
  match message.trade? with
  | none => false
  | some t => t ∈ earlier.filterMap Message.trade?

/-- The messages that are not copies of earlier ones. -/
def dropCopies : List Message → List Message → List Message
  | _, [] => []
  | earlier, m :: ms =>
    if isCopy earlier m then dropCopies (earlier ++ [m]) ms else m :: dropCopies (earlier ++ [m]) ms

/-- The batches without the copies. -/
def originals : List Message → List (List Message) → List (List Message)
  | _, [] => []
  | earlier, b :: bs => dropCopies earlier b :: originals (earlier ++ b) bs

/-- The same high, low, last price and volume. -/
def SameFigures (ts ts' : List TradeEvent) : Prop :=
  ∃ «open» open' high low close volume,
    Ohlcv ts «open» high low close volume ∧ Ohlcv ts' open' high low close volume

/-- The condition on the batches, for a market and minute: of the last batch
that has a trade of it. -/
def Unchanged (market : String) (minute : ℕ) (batches : List (List Message)) : Prop :=
  ∀ front batch rest, batches = front ++ batch :: rest → tradesOf market minute batch ≠ [] →
    (∀ b ∈ rest, tradesOf market minute b = []) →
    tradesOf market minute (dropCopies front.flatten batch) = tradesOf market minute batch ∨
    tradesOf market minute (dropCopies front.flatten batch) = [] ∧
      ∃ prev, (batchesOf market minute (originals [] front)).getLast? = some prev ∧
        SameFigures (tradesOf market minute batch) prev

/-! ## Dropping copies -/

variable {market : String} {minute : ℕ}

theorem dropCopies_sublist (earlier ms : List Message) : (dropCopies earlier ms).Sublist ms := by
  induction ms generalizing earlier with
  | nil => exact List.Sublist.refl []
  | cons m ms ih =>
    unfold dropCopies
    split
    · exact (ih _).cons m
    · exact (ih _).cons_cons m

theorem dropCopies_append (earlier ms ms' : List Message) :
    dropCopies earlier (ms ++ ms') = dropCopies earlier ms ++ dropCopies (earlier ++ ms) ms' := by
  induction ms generalizing earlier with
  | nil => simp [dropCopies]
  | cons m ms ih =>
    simp only [List.cons_append, dropCopies, ih, List.append_assoc, List.nil_append]
    split <;> rfl

theorem tradesOf_sublist {ms ms' : List Message} (h : ms.Sublist ms') :
    (tradesOf market minute ms).Sublist (tradesOf market minute ms') :=
  (h.filterMap _).filter _

theorem tradesOf_dropCopies_sublist (earlier ms : List Message) :
    (tradesOf market minute (dropCopies earlier ms)).Sublist (tradesOf market minute ms) :=
  tradesOf_sublist (dropCopies_sublist earlier ms)

theorem tradesOf_dropCopies_eq_nil (earlier : List Message) {ms : List Message}
    (h : tradesOf market minute ms = []) : tradesOf market minute (dropCopies earlier ms) = [] :=
  List.sublist_nil.mp (h ▸ tradesOf_dropCopies_sublist earlier ms)

theorem tradesOf_cons (m : Message) (ms : List Message) :
    tradesOf market minute (m :: ms) = tradesOf market minute [m] ++ tradesOf market minute ms :=
  tradesOf_append market minute [m] ms

/-- The first trade of a market and minute is not a copy. -/
theorem head?_tradesOf_dropCopies {earlier : List Message}
    (h : tradesOf market minute earlier = []) (ms : List Message) :
    (tradesOf market minute (dropCopies earlier ms)).head? = (tradesOf market minute ms).head? := by
  induction ms generalizing earlier with
  | nil => rfl
  | cons m ms ih =>
    rw [tradesOf_cons m ms]
    by_cases hm : tradesOf market minute [m] = []
    · have hearlier : tradesOf market minute (earlier ++ [m]) = [] := by
        rw [tradesOf_append, h, hm, List.append_nil]
      rw [hm, List.nil_append, ← ih hearlier, dropCopies]
      split
      · rfl
      · rw [tradesOf_cons, hm, List.nil_append]
    · -- a trade of the minute, and the first
      have hkept : isCopy earlier m = false := by
        unfold isCopy
        rw [tradesOf_singleton] at hm
        cases ht : m.trade? with
        | none => rfl
        | some t =>
          refine decide_eq_false fun hin => ?_
          simp only [ht] at hm
          split at hm
          · rename_i hkey
            have : t ∈ tradesOf market minute earlier :=
              List.mem_filter.mpr ⟨hin, decide_eq_true hkey⟩
            rw [h] at this
            cases this
          · exact hm rfl
      rw [dropCopies, hkept, if_neg Bool.false_ne_true, tradesOf_cons,
        List.head?_append_of_ne_nil _ hm, List.head?_append_of_ne_nil _ hm]

theorem originals_append (earlier : List Message) (bs bs' : List (List Message)) :
    originals earlier (bs ++ bs') =
      originals earlier bs ++ originals (earlier ++ bs.flatten) bs' := by
  induction bs generalizing earlier with
  | nil => simp [originals]
  | cons b bs ih => simp [originals, ih, List.append_assoc]

theorem flatten_originals (earlier : List Message) (bs : List (List Message)) :
    (originals earlier bs).flatten = dropCopies earlier bs.flatten := by
  induction bs generalizing earlier with
  | nil => rfl
  | cons b bs ih => rw [originals, List.flatten_cons, List.flatten_cons, ih, dropCopies_append]

theorem batchesOf_eq_nil {bs : List (List Message)} (h : ∀ b ∈ bs, tradesOf market minute b = []) :
    batchesOf market minute bs = [] := by
  unfold batchesOf
  refine List.filter_eq_nil_iff.mpr fun ts hts => ?_
  obtain ⟨b, hb, rfl⟩ := List.mem_map.mp hts
  simp [h b hb]

theorem tradesOf_originals_eq_nil (earlier : List Message) {bs : List (List Message)}
    (h : ∀ b ∈ bs, tradesOf market minute b = []) :
    ∀ b ∈ originals earlier bs, tradesOf market minute b = [] := by
  induction bs generalizing earlier with
  | nil => intro b hb; cases hb
  | cons x xs ih =>
    intro b hb
    rcases List.mem_cons.mp hb with rfl | hb
    · exact tradesOf_dropCopies_eq_nil earlier (h x (by simp))
    · exact ih _ (fun y hy => h y (by simp [hy])) b hb

/-! ## The last batch -/

/-- The last batch that has a trade of the market and minute. -/
theorem exists_last_batch {batches : List (List Message)}
    (h : tradesOf market minute batches.flatten ≠ []) :
    ∃ front batch rest, batches = front ++ batch :: rest ∧ tradesOf market minute batch ≠ [] ∧
      ∀ b ∈ rest, tradesOf market minute b = [] := by
  induction batches using List.reverseRecOn with
  | nil => exact absurd rfl h
  | append_singleton bs b ih =>
    by_cases hb : tradesOf market minute b = []
    · rw [List.flatten_append, List.flatten_singleton, tradesOf_append, hb, List.append_nil] at h
      obtain ⟨front, batch, rest, rfl, hne, hrest⟩ := ih h
      refine ⟨front, batch, rest ++ [b], by simp, hne, fun x hx => ?_⟩
      rcases List.mem_append.mp hx with hx | hx
      · exact hrest x hx
      · rw [List.mem_singleton.mp hx]
        exact hb
    · exact ⟨bs, b, [], rfl, hb, fun x hx => (List.not_mem_nil hx).elim⟩

theorem batchesOf_cons (batch : List Message) (bs : List (List Message)) :
    batchesOf market minute (batch :: bs) =
      (if tradesOf market minute batch = [] then [] else [tradesOf market minute batch]) ++
        batchesOf market minute bs := by
  unfold batchesOf
  by_cases h : tradesOf market minute batch = [] <;> simp [h]

theorem batchesOf_append_append (bs bs' : List (List Message)) :
    batchesOf market minute (bs ++ bs') =
      batchesOf market minute bs ++ batchesOf market minute bs' := by
  simp [batchesOf]

section Last

variable {front rest : List (List Message)} {batch : List Message}

variable (front) in
theorem getLast?_batchesOf (hne : tradesOf market minute batch ≠ [])
    (hrest : ∀ b ∈ rest, tradesOf market minute b = []) :
    (batchesOf market minute (front ++ batch :: rest)).getLast? =
      some (tradesOf market minute batch) := by
  rw [batchesOf_append_append, batchesOf_cons, batchesOf_eq_nil hrest, if_neg hne, List.append_nil,
    List.getLast?_concat]

variable (front batch) in
/-- The last batch that has a new trade: the last one, or one before it. -/
theorem getLast?_batchesOf_originals (hrest : ∀ b ∈ rest, tradesOf market minute b = []) :
    (batchesOf market minute (originals [] (front ++ batch :: rest))).getLast? =
      if tradesOf market minute (dropCopies front.flatten batch) = [] then
        (batchesOf market minute (originals [] front)).getLast?
      else some (tradesOf market minute (dropCopies front.flatten batch)) := by
  rw [originals_append, originals, batchesOf_append_append, batchesOf_cons, List.nil_append,
    batchesOf_eq_nil (tradesOf_originals_eq_nil _ hrest), List.append_nil]
  split
  · rw [List.append_nil]
  · rw [List.getLast?_concat]

end Last

/-- Fewer trades with the same volume are the same trades. -/
theorem eq_of_sublist_of_sum {ts ts' : List TradeEvent} (h : ts.Sublist ts')
    (hpos : ∀ t ∈ ts', 0 < t.quantity)
    (hsum : (ts.map (·.quantity)).sum = (ts'.map (·.quantity)).sum) : ts = ts' := by
  induction h with
  | slnil => rfl
  | cons t hsub ih =>
    rename_i l l'
    exfalso
    have hle : (l.map (·.quantity)).sum ≤ (l'.map (·.quantity)).sum :=
      (hsub.map _).sum_le_sum fun q hq => by
        obtain ⟨x, hx, rfl⟩ := List.mem_map.mp hq
        exact (hpos x (by simp [hx])).le
    have hq := hpos t (by simp)
    rw [List.map_cons, List.sum_cons] at hsum
    linarith
  | cons_cons t _ ih =>
    rw [List.map_cons, List.sum_cons, List.map_cons, List.sum_cons, add_right_inj] at hsum
    rw [ih (fun x hx => hpos x (by simp [hx])) hsum]

/-! ## Rows -/

theorem Ohlcv.unique {ts : List TradeEvent} {o h l c v o' h' l' c' v' : ℚ}
    (hx : Ohlcv ts o h l c v) (hy : Ohlcv ts o' h' l' c' v') : h = h' ∧ l = l' ∧ c = c' ∧ v = v' :=
  ⟨hx.high.unique hy.high, hx.low.unique hy.low,
    Option.some.inj (hx.close.symm.trans hy.close), hx.volume.trans hy.volume.symm⟩

theorem sameFigures_refl {ts : List TradeEvent} {o h l c v : ℚ} (hx : Ohlcv ts o h l c v) :
    SameFigures ts ts := ⟨o, o, h, l, c, v, hx, hx⟩

/-- Two rows of a market and minute that opened at the same price are equal exactly when the trades
they hold have the same figures. -/
theorem candle_eq_iff {db db' : Tables} {c c' : Candle} (hc : db.candle? market minute = some c)
    (hc' : db'.candle? market minute = some c') (hopen : c.open = c'.open)
    {ts ts' : List TradeEvent}
    {o o' : ℚ} (hts : Ohlcv ts o c.high c.low c.close c.volume)
    (hts' : Ohlcv ts' o' c'.high c'.low c'.close c'.volume) : c = c' ↔ SameFigures ts ts' := by
  constructor
  · rintro rfl
    exact ⟨o, o', _, _, _, _, hts, hts'⟩
  · rintro ⟨p, p', high, low, close, volume, h, h'⟩
    obtain ⟨h₁, h₂, h₃, h₄⟩ := hts.unique h
    obtain ⟨h₁', h₂', h₃', h₄'⟩ := hts'.unique h'
    have hkey : key c = key c' := (key_of_find? hc).trans (key_of_find? hc').symm
    simp only [key, Prod.mk.injEq] at hkey
    cases c
    cases c'
    simp_all

section Rows

variable {db db₁ db₂ : Tables} {batches : List (List Message)}

/-- **The row of a market and minute** is that of the sequence without copies exactly when the last
batches of the two have the same figures. -/
theorem candle?_eq_iff (h₁ : Recorded batches db₁) (h₂ : Recorded (originals [] batches) db₂)
    {last new : List TradeEvent} (hlast : (batchesOf market minute batches).getLast? = some last)
    (hnew : (batchesOf market minute (originals [] batches)).getLast? = some new) :
    db₁.candle? market minute = db₂.candle? market minute ↔ SameFigures last new := by
  obtain ⟨c, hc, hopen, first, hohlcv⟩ := h₁.present market minute last hlast
  obtain ⟨c', hc', hopen', first', hohlcv'⟩ := h₂.present market minute new hnew
  have heq : c.open = c'.open := by
    rw [flatten_originals, head?_tradesOf_dropCopies rfl, hopen] at hopen'
    exact Option.some.inj hopen'
  rw [hc, hc', Option.some.injEq]
  exact candle_eq_iff hc hc' heq hohlcv hohlcv'

/-- Without a trade there is no row. -/
theorem candle?_eq_of_no_trade (h₁ : Recorded batches db₁)
    (h₂ : Recorded (originals [] batches) db₂) (h : tradesOf market minute batches.flatten = []) :
    db₁.candle? market minute = db₂.candle? market minute := by
  have hnil : ∀ {bs : List (List Message)}, tradesOf market minute bs.flatten = [] →
      batchesOf market minute bs = [] := by
    intro bs hbs
    refine batchesOf_eq_nil fun b hb => List.sublist_nil.mp ?_
    rw [← hbs]
    exact tradesOf_sublist (List.sublist_flatten_of_mem hb)
  rw [h₁.absent market minute (hnil h), h₂.absent market minute (hnil ?_)]
  rw [flatten_originals]
  exact tradesOf_dropCopies_eq_nil [] h

/-- The condition, at the last batch that has a trade of the market and minute. -/
theorem unchanged_iff {front rest : List (List Message)} {batch : List Message}
    (hne : tradesOf market minute batch ≠ []) (hrest : ∀ b ∈ rest, tradesOf market minute b = []) :
    Unchanged market minute (front ++ batch :: rest) ↔
      tradesOf market minute (dropCopies front.flatten batch) = tradesOf market minute batch ∨
      tradesOf market minute (dropCopies front.flatten batch) = [] ∧
        ∃ prev, (batchesOf market minute (originals [] front)).getLast? = some prev ∧
          SameFigures (tradesOf market minute batch) prev := by
  refine ⟨fun h => h front batch rest rfl hne hrest, ?_⟩
  rintro h front' batch' rest' heq hne' hrest'
  -- the last batch with a trade is the same however the batches are cut
  have hcut : front = front' ∧ batch = batch' ∧ rest = rest' := by
    rcases List.append_eq_append_iff.mp heq with ⟨as, rfl, has⟩ | ⟨as, rfl, has⟩
    · cases as with
      | nil => simpa using has
      | cons x xs =>
        obtain ⟨rfl, rfl⟩ := List.cons_eq_cons.mp has
        exact absurd (hrest batch' (by simp)) hne'
    · cases as with
      | nil =>
        obtain ⟨rfl, rfl⟩ := List.cons_eq_cons.mp has
        simp
      | cons x xs =>
        obtain ⟨rfl, rfl⟩ := List.cons_eq_cons.mp has
        exact absurd (hrest' batch (by simp)) hne
  obtain ⟨rfl, rfl, rfl⟩ := hcut
  exact h

theorem pos_tradesOf (hq : ∀ m ∈ batches.flatten, ∀ t, m.trade? = some t → 0 < t.quantity)
    {batch : List Message} (hb : batch ∈ batches) : ∀ t ∈ tradesOf market minute batch,
      0 < t.quantity := by
  intro t ht
  obtain ⟨m, hm, htm⟩ := List.mem_filterMap.mp (List.mem_of_mem_filter ht)
  exact hq m (List.mem_flatten.mpr ⟨batch, hb, hm⟩) t htm

theorem candle?_eq_iff_unchanged (h₁ : Recorded batches db₁)
    (h₂ : Recorded (originals [] batches) db₂)
    (hq : ∀ m ∈ batches.flatten, ∀ t, m.trade? = some t → 0 < t.quantity) :
    db₁.candle? market minute = db₂.candle? market minute ↔ Unchanged market minute batches := by
  by_cases htrades : tradesOf market minute batches.flatten = []
  · refine ⟨fun _ => ?_, fun _ => candle?_eq_of_no_trade h₁ h₂ htrades⟩
    rintro front batch rest rfl hne
    rw [List.flatten_append, tradesOf_append, List.flatten_cons, tradesOf_append] at htrades
    exact absurd (List.append_eq_nil_iff.mp (List.append_eq_nil_iff.mp htrades).2).1 hne
  · obtain ⟨front, batch, rest, rfl, hne, hrest⟩ := exists_last_batch htrades
    rw [unchanged_iff hne hrest]
    have hlast := getLast?_batchesOf front hne hrest
    have hnew := getLast?_batchesOf_originals front batch hrest
    obtain ⟨c, -, -, first, hohlcv⟩ := h₁.present market minute _ hlast
    by_cases hcopies : tradesOf market minute (dropCopies front.flatten batch) = []
    · -- nothing but copies: an earlier batch brought the last new trade
      rw [if_pos hcopies] at hnew
      cases hprev : (batchesOf market minute (originals [] front)).getLast? with
      | none =>
        exfalso
        rw [hprev, List.getLast?_eq_none_iff] at hnew
        have hflat := flatten_batchesOf market minute (originals [] (front ++ batch :: rest))
        rw [hnew, List.flatten_nil, flatten_originals] at hflat
        refine htrades (List.head?_eq_none_iff.mp ?_)
        rw [← head?_tradesOf_dropCopies (show tradesOf market minute [] = [] from rfl), ← hflat,
          List.head?_nil]
      | some prev =>
        rw [hprev] at hnew
        rw [candle?_eq_iff h₁ h₂ hlast hnew]
        simp [hcopies, hne.symm]
    · rw [if_neg hcopies] at hnew
      rw [candle?_eq_iff h₁ h₂ hlast hnew]
      constructor
      · rintro ⟨_, _, _, _, _, v, hd, ho⟩
        refine .inl (eq_of_sublist_of_sum (tradesOf_dropCopies_sublist _ _)
          (pos_tradesOf hq (by simp)) ?_)
        rw [← hd.volume, ← ho.volume]
      · rintro (heq | ⟨hnil, -⟩)
        · rw [heq]
          exact sameFigures_refl hohlcv
        · exact absurd hnil hcopies

/-- **Copies and candles.** The rows are those of the sequence without copies, cut into the same
batches, exactly when for every market and minute the last batch that has a trade of it has no copy
of one, or nothing but copies with the figures of the last batch that brought new ones. -/
theorem candles_unchanged_iff (h0 : db.candles = [])
    (hq : ∀ m ∈ batches.flatten, ∀ t, m.trade? = some t → 0 < t.quantity)
    (h₁ : aggregate db batches = some db₁) (h₂ : aggregate db (originals [] batches) = some db₂) :
    (∀ market minute, db₁.candle? market minute = db₂.candle? market minute) ↔
      ∀ market minute, Unchanged market minute batches := by
  have hr₁ := recorded_aggregate (recorded_nil h0) h₁
  have hr₂ := recorded_aggregate (recorded_nil h0) h₂
  rw [List.nil_append] at hr₁ hr₂
  exact forall_congr' fun market => forall_congr' fun minute =>
    candle?_eq_iff_unchanged hr₁ hr₂ hq

end Rows

namespace CopiesSample

open BatchSample (tradeAt)

/-- One unit at 100, published twice. -/
def copied : List (List Message) := [[tradeAt 0 100 1, { tradeAt 0 100 1 with offset := 1 }]]

/-- A batch, and the same once more. -/
def replayed : List (List Message) := [[tradeAt 0 100 1], [{ tradeAt 0 100 1 with offset := 1 }]]

/-- The row of the trade. -/
def unit : Candle := ⟨"BTC-USDT", .M1, 0, 100, 100, 100, 100, 1⟩

end CopiesSample

/-- A batch that is repeated as a whole changes nothing. -/
theorem candles_unchanged_replayed : Unchanged "BTC-USDT" 0 CopiesSample.replayed := by
  have h₁ : aggregate ⟨["BTC-USDT"], []⟩ CopiesSample.replayed =
      some ⟨["BTC-USDT"], [CopiesSample.unit]⟩ := by
    decide +kernel
  have h₂ : aggregate ⟨["BTC-USDT"], []⟩ (originals [] CopiesSample.replayed) =
      some ⟨["BTC-USDT"], [CopiesSample.unit]⟩ := by
    decide +kernel
  refine (candles_unchanged_iff rfl ?_ h₁ h₂).mp (fun _ _ => rfl) _ _
  decide +kernel

/-- A copy in the same batch is counted twice. -/
theorem candles_count_copies : ¬∀ (db db₁ db₂ : Tables) (batches : List (List Message)),
    db.candles = [] → aggregate db batches = some db₁ →
      aggregate db (originals [] batches) = some db₂ →
      ∀ market minute, db₁.candle? market minute = db₂.candle? market minute := by
  intro h
  have := h ⟨["BTC-USDT"], []⟩ ⟨["BTC-USDT"], [{ CopiesSample.unit with volume := 2 }]⟩
    ⟨["BTC-USDT"], [CopiesSample.unit]⟩ CopiesSample.copied rfl (by decide +kernel)
    (by decide +kernel) "BTC-USDT" 0
  revert this
  decide +kernel

end Orbit.CandleAggregator
