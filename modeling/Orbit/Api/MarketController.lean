import Mathlib.Algebra.Ring.Rat
import Mathlib.Data.Finset.Card
import Mathlib.Data.List.Sort
import Mathlib.Order.Bounds.Basic
import Orbit.Workers.CandleAggregator

/-!
# Candles of longer intervals

`MarketController.candles` of `apps/api/src/market/market.controller.ts`. Only bars of a minute are
stored. For a longer interval the controller fetches the minutes that open at or after
`Date.now() - take * intervalSec`, folds them into a map of buckets, and returns
the last `take` of these.

The start of that window is not the start of a bucket, unless the clock is. The bucket it lies in is
folded from the minutes that are left of it, and returned when fewer than `take` later buckets have
trades.

* `candles_complete_iff`: every bar that is returned is the aggregation of all minutes of its bucket
  exactly when the window cuts no bucket, or the bucket it cuts is not returned, or the minutes that
  it cuts off would add nothing.
-/

namespace Orbit

open Table

/-- The name of an interval in requests. -/
def CandleInterval.name : CandleInterval → String
  | .M1 => "M1"
  | .M5 => "M5"
  | .M15 => "M15"
  | .H1 => "H1"
  | .H4 => "H4"
  | .D1 => "D1"
  | .W1 => "W1"

namespace MarketController

/-- A bar of the response; `openTime` is in milliseconds. -/
structure CandleRow where
  market : String
  interval : CandleInterval
  openTime : ℕ
  «open» : ℚ
  high : ℚ
  low : ℚ
  close : ℚ
  volume : ℚ
  deriving DecidableEq, Repr

/-- The map of buckets has them under the second in which they open. -/
instance : Keyed CandleRow ℕ := ⟨fun b => b.openTime / 1000⟩

/-- The lookup in `CANDLE_INTERVAL_SECONDS`. -/
def candleInterval? (raw : String) : Option CandleInterval :=
  [CandleInterval.M1, .M5, .M15, .H1, .H4, .D1, .W1].find? (·.name = raw)

def present (c : Candle) : CandleRow where
  market := c.market
  interval := c.interval
  openTime := c.openTime * 1000
  «open» := c.open
  high := c.high
  low := c.low
  close := c.close
  volume := c.volume

/-- `Math.floor(c.openTime.getTime() / 1000 / intervalSec) * intervalSec`. -/
def bucketSec (interval : CandleInterval) (c : Candle) : ℕ :=
  c.openTime / interval.seconds * interval.seconds

/-- The bucket of a minute that is the first of it. -/
def newBucket (symbol : String) (interval : CandleInterval) (c : Candle) : CandleRow where
  market := symbol
  interval := interval
  openTime := bucketSec interval c * 1000
  «open» := c.open
  high := c.high
  low := c.low
  close := c.close
  volume := c.volume

/-- What a minute does to its bucket. -/
def CandleRow.add (c : Candle) (existing : CandleRow) : CandleRow :=
  { existing with
    high := max existing.high c.high
    low := min existing.low c.low
    close := c.close
    volume := existing.volume + c.volume }

/-- A turn of the loop over the minutes. -/
def addMinute (symbol : String) (interval : CandleInterval)
    (buckets : List CandleRow) (c : Candle) :
    List CandleRow :=
  upsert (newBucket symbol interval c) (·.add c) buckets

/-- `slice(-take)`, which is the whole array for `take = 0`. -/
def sliceLast {α : Type*} (take : ℕ) (l : List α) : List α :=
  if take = 0 then l else l.drop (l.length - take)

/-- The rows of the market that the queries select from. -/
def minutes (candles : List Candle) (symbol : String) : List Candle :=
  candles.filter fun c => c.market = symbol ∧ c.interval = .M1

/-- The start of the window, in milliseconds. -/
def since (now take : ℕ) (interval : CandleInterval) : ℤ := now - take * interval.seconds * 1000

/-- The bars of a longer interval. -/
def aggregated (candles : List Candle) (now take : ℕ) (symbol : String)
    (interval : CandleInterval) :
    List CandleRow :=
  let m1 := ((minutes candles symbol).filter fun c => since now take interval ≤ c.openTime * 1000)
    |>.insertionSort (·.openTime ≤ ·.openTime)
  let buckets := m1.foldl (addMinute symbol interval) []
  sliceLast take (buckets.insertionSort (·.openTime ≤ ·.openTime))

/-- `candles`. -/
def candles (table : List Candle) (now : ℕ) (symbol : String) (intervalRaw : Option String)
    (limit : Option ℕ) : Except String (List CandleRow) :=
  match candleInterval? (intervalRaw.getD "M1") with
  | none => .error ("unknown interval " ++ intervalRaw.getD "M1")
  | some interval =>
    let take := min (limit.getD 500) 1000
    if interval = .M1 then
      .ok ((((minutes table symbol).insertionSort (·.openTime ≥ ·.openTime)).take
        take).reverse.map present)
    else .ok (aggregated table now take symbol interval)

/-! ## What a bar should say -/

/-- The minutes of a bucket. -/
def bucketRows (interval : CandleInterval) (rows : List Candle) (sec : ℕ) : List Candle :=
  rows.filter fun c => bucketSec interval c = sec

/-- The first of the rows opens at the price `p`. -/
def Opens (rows : List Candle) (p : ℚ) : Prop :=
  ∃ c ∈ rows, (∀ c' ∈ rows, c.openTime ≤ c'.openTime) ∧ c.open = p

/-- **The bar is the aggregation of the rows.** -/
structure Aggregates (rows : List Candle) (b : CandleRow) : Prop where
  «open» : Opens rows b.open
  high : IsGreatest {p | ∃ c ∈ rows, c.high = p} b.high
  low : IsLeast {p | ∃ c ∈ rows, c.low = p} b.low
  close : ∃ c ∈ rows, (∀ c' ∈ rows, c'.openTime ≤ c.openTime) ∧ c.close = b.close
  volume : b.volume = (rows.map (·.volume)).sum

/-- **The bars are complete**: each is the aggregation of all minutes of its bucket, and they are
the newest ones, at most `limit`, from old to new. -/
structure Complete (table : List Candle) (symbol : String) (interval : CandleInterval) (limit : ℕ)
    (bars : List CandleRow) : Prop where
  bar : ∀ b ∈ bars, b.market = symbol ∧ b.interval = interval ∧
    ∃ sec, b.openTime = sec * 1000 ∧ Aggregates (bucketRows interval (minutes table symbol) sec) b
  increasing : bars.Pairwise fun b b' => b.openTime < b'.openTime
  length : bars.length ≤ limit
  newest : ∀ b ∈ bars, ∀ c ∈ minutes table symbol, b.openTime < bucketSec interval c * 1000 →
    ∃ b' ∈ bars, b'.openTime = bucketSec interval c * 1000

/-- The minutes before the window, and those in it. -/
def early (start : ℤ) (rows : List Candle) : List Candle :=
  rows.filter fun c => ¬start ≤ c.openTime * 1000

def late (start : ℤ) (rows : List Candle) : List Candle :=
  rows.filter fun c => start ≤ c.openTime * 1000

/-- The aggregation of the rows of `late` is also that of those of `early` and `late`. -/
structure AddsNothing (early late : List Candle) : Prop where
  «open» : ∃ p, Opens early p ∧ Opens late p
  high : ∀ c ∈ early, ∃ c' ∈ late, c.high ≤ c'.high
  low : ∀ c ∈ early, ∃ c' ∈ late, c'.low ≤ c.low
  volume : (early.map (·.volume)).sum = 0

/-- How many buckets that open after the second `sec` have minutes. -/
def newer (interval : CandleInterval) (rows : List Candle) (sec : ℕ) : ℕ :=
  ((rows.map (bucketSec interval)).toFinset.filter (sec < ·)).card

/-- **The window harms no bar**: a bucket with minutes on both sides of its start is not among the
newest `take`, or the minutes before it add nothing. -/
def WindowFits (table : List Candle) (now take : ℕ) (symbol : String)
    (interval : CandleInterval) : Prop :=
  ∀ sec, let rows := bucketRows interval (minutes table symbol) sec
    early (since now take interval) rows ≠ [] → late (since now take interval) rows ≠ [] →
    take ≤ newer interval (minutes table symbol) sec ∨
      AddsNothing (early (since now take interval) rows) (late (since now take interval) rows)

variable {symbol : String} {interval : CandleInterval} {table rows rows' : List Candle} {c : Candle}
  {b b' : CandleRow} {take sec now : ℕ} {start : ℤ}

/-! ## The last bars -/

theorem length_sliceLast_le {α : Type*} {l : List α} (htake : 0 < take) :
    (sliceLast take l).length ≤ take := by
  rw [sliceLast, if_neg htake.ne', List.length_drop]
  omega

/-- What is among the last of an increasing list. -/
theorem mem_sliceLast {l : List CandleRow} (hl : l.Pairwise fun b b' => b.openTime < b'.openTime)
    (htake : 0 < take) : b ∈ sliceLast take l ↔
      b ∈ l ∧ (l.filter fun b' => b.openTime < b'.openTime).length < take := by
  rw [sliceLast, if_neg htake.ne']
  by_cases hb : b ∈ l
  · obtain ⟨l₁, l₂, rfl⟩ := List.append_of_mem hb
    obtain ⟨-, hl₂, hl₁⟩ := List.pairwise_append.mp hl
    obtain ⟨hlt, -⟩ := List.pairwise_cons.mp hl₂
    have hcount : ((l₁ ++ b :: l₂).filter fun b' => b.openTime < b'.openTime) = l₂ := by
      rw [List.filter_append, List.filter_eq_nil_iff.mpr, List.nil_append,
        List.filter_cons_of_neg (by simp),
        List.filter_eq_self.mpr]
      · simpa using hlt
      · intro x hx
        have := hl₁ x hx b (by simp)
        simp only [decide_eq_true_eq]
        omega
    rw [hcount]
    simp only [hb, true_and, List.length_append, List.length_cons]
    constructor
    · intro hmem
      by_contra hge
      have hdrop : (l₁ ++ b :: l₂).drop (l₁.length + (l₂.length + 1) - take) =
          l₂.drop (l₂.length - take) := by
        have hlen : (l₁ ++ [b]).length = l₁.length + 1 := by simp
        rw [List.append_cons, List.drop_append, List.drop_of_length_le (by omega), List.nil_append]
        congr 1
        omega
      rw [hdrop] at hmem
      exact lt_irrefl _ (hlt b (List.mem_of_mem_drop hmem))
    · intro hlt'
      rw [List.drop_append_of_le_length (by omega)]
      simp
  · simp only [hb, false_and, iff_false]
    exact fun h => hb (List.mem_of_mem_drop h)

/-! ## Bars -/

theorem aggregates_newBucket (c : Candle) : Aggregates [c] (newBucket symbol interval c) where
  «open» := ⟨c, by simp, by simp, rfl⟩
  high := by simp [newBucket]
  low := by simp [newBucket]
  close := ⟨c, by simp, by simp, rfl⟩
  volume := by simp [newBucket]

/-- One more minute, after the others. -/
theorem Aggregates.add (h : Aggregates rows b) (hc : ∀ r ∈ rows, r.openTime ≤ c.openTime) :
    Aggregates (rows ++ [c]) (b.add c) where
  «open» := by
    obtain ⟨r, hr, hfirst, hopen⟩ := h.open
    refine ⟨r, by simp [hr], fun x hx => ?_, hopen⟩
    rcases List.mem_append.mp hx with hx | hx
    · exact hfirst x hx
    · exact List.mem_singleton.mp hx ▸ hc r hr
  high := by
    have hset : {p | ∃ x ∈ rows ++ [c], x.high = p} = insert c.high
        {p | ∃ x ∈ rows, x.high = p} := by
      ext p
      simp [or_and_right, exists_or, or_comm, eq_comm]
    rw [hset, show (b.add c).high = max c.high b.high from max_comm _ _]
    exact h.high.insert _
  low := by
    have hset : {p | ∃ x ∈ rows ++ [c], x.low = p} = insert c.low {p | ∃ x ∈ rows, x.low = p} := by
      ext p
      simp [or_and_right, exists_or, or_comm, eq_comm]
    rw [hset, show (b.add c).low = min c.low b.low from min_comm _ _]
    exact h.low.insert _
  close := by
    refine ⟨c, by simp, fun x hx => ?_, rfl⟩
    rcases List.mem_append.mp hx with hx | hx
    · exact hc x hx
    · exact (congrArg Candle.openTime (List.mem_singleton.mp hx)).le
  volume := by simp [CandleRow.add, h.volume]

/-- The order of the rows does not matter. -/
theorem Aggregates.perm (h : Aggregates rows b) (hp : rows.Perm rows') : Aggregates rows' b where
  «open» := by
    obtain ⟨r, hr, hfirst, hopen⟩ := h.open
    exact ⟨r, hp.mem_iff.mp hr, fun x hx => hfirst x (hp.mem_iff.mpr hx), hopen⟩
  high := by simpa only [hp.mem_iff] using h.high
  low := by simpa only [hp.mem_iff] using h.low
  close := by
    obtain ⟨r, hr, hlast, hclose⟩ := h.close
    exact ⟨r, hp.mem_iff.mp hr, fun x hx => hlast x (hp.mem_iff.mpr hx), hclose⟩
  volume := h.volume.trans (hp.map _).sum_eq

theorem Aggregates.exists_row (h : Aggregates rows b) : ∃ c, c ∈ rows := by
  obtain ⟨c, hc, -⟩ := h.open
  exact ⟨c, hc⟩

/-! ## The map of buckets -/

/-- What the loop has made of some minutes. -/
structure Grouped (symbol : String) (interval : CandleInterval) (rows : List Candle)
    (buckets : List CandleRow) : Prop where
  nodup : (buckets.map key).Nodup
  bar : ∀ sec b, find? sec buckets = some b → b.market = symbol ∧ b.interval = interval ∧
    b.openTime = sec * 1000 ∧ Aggregates (bucketRows interval rows sec) b
  present : ∀ c ∈ rows, (find? (bucketSec interval c) buckets).isSome

theorem key_newBucket (c : Candle) : key (newBucket symbol interval c) = bucketSec interval c :=
  Nat.mul_div_cancel _ (by decide)

theorem bucketRows_append (rows rows' : List Candle) (sec : ℕ) :
    bucketRows interval (rows ++ rows') sec =
    bucketRows interval rows sec ++ bucketRows interval rows' sec := List.filter_append _ _

theorem bucketRows_singleton (c : Candle) (sec : ℕ) :
    bucketRows interval [c] sec = if bucketSec interval c = sec then [c] else [] := by
  simp [bucketRows, List.filter_singleton]

/-- A turn of the loop, with a minute after the others. -/
theorem Grouped.addMinute {buckets : List CandleRow} (h : Grouped symbol interval rows buckets)
    (hc : ∀ r ∈ rows, r.openTime ≤ c.openTime) :
    Grouped symbol interval (rows ++ [c]) (addMinute symbol interval buckets c) := by
  have hfind := fun sec => find?_upsert (r := newBucket symbol interval c) (f := (·.add c))
    (fun _ => rfl) sec buckets
  simp only [key_newBucket] at hfind
  refine ⟨?_, fun sec b hb => ?_, fun r hr => ?_⟩
  · refine nodup_map_key_upsert ?_ h.nodup
    intro b
    rfl
  · rw [MarketController.addMinute, hfind] at hb
    rw [bucketRows_append, bucketRows_singleton]
    by_cases hsec : sec = bucketSec interval c
    · rw [if_pos hsec, Option.some.injEq] at hb
      rw [if_pos hsec.symm]
      cases hold : find? sec buckets with
      | some x =>
        obtain ⟨hmarket, hinterval, htime, hagg⟩ := h.bar sec x hold
        obtain rfl : x.add c = b := by simpa [hold] using hb
        exact ⟨hmarket, hinterval, htime, hagg.add fun r hr => hc r (List.mem_of_mem_filter hr)⟩
      | none =>
        obtain rfl : newBucket symbol interval c = b := by simpa [hold] using hb
        have hnil : bucketRows interval rows sec = [] := by
          refine List.filter_eq_nil_iff.mpr fun r hr hin => ?_
          have := h.present r hr
          rw [of_decide_eq_true hin, hold] at this
          cases this
        rw [hnil]
        exact ⟨rfl, rfl, by rw [hsec]; rfl, aggregates_newBucket c⟩
    · rw [if_neg hsec] at hb
      rw [if_neg (Ne.symm hsec), List.append_nil]
      exact h.bar sec b hb
  · rw [MarketController.addMinute, hfind]
    split
    · rfl
    · rename_i hsec
      rcases List.mem_append.mp hr with hr | hr
      · exact h.present r hr
      · exact absurd (by rw [List.mem_singleton.mp hr]) hsec

/-- **The loop over minutes in their order.** -/
theorem grouped_foldl (hrows : rows.Pairwise fun c c' => c.openTime ≤ c'.openTime) :
    Grouped symbol interval rows (rows.foldl (addMinute symbol interval) []) := by
  induction rows using List.reverseRecOn with
  | nil => exact ⟨List.nodup_nil, by simp, by simp⟩
  | append_singleton rows c ih =>
    obtain ⟨hinit, -, hlast⟩ := List.pairwise_append.mp hrows
    rw [List.foldl_append]
    exact (ih hinit).addMinute fun r hr => hlast r hr c (by simp)

/-- What the loop is given: the minutes in the window, by time. -/
theorem pairwise_insertionSort_openTime (rows : List Candle) :
    (rows.insertionSort (·.openTime ≤ ·.openTime)).Pairwise fun c c' =>
    c.openTime ≤ c'.openTime := by
  have : Std.Total fun c c' : Candle => c.openTime ≤ c'.openTime := ⟨fun c c' => le_total _ _⟩
  have : IsTrans Candle fun c c' => c.openTime ≤ c'.openTime := ⟨fun _ _ _ => le_trans⟩
  exact List.pairwise_insertionSort _ _

/-- All buckets of a window, from old to new. -/
structure Sorted (symbol : String) (interval : CandleInterval) (start : ℤ) (rows : List Candle)
    (buckets : List CandleRow) : Prop where
  increasing : buckets.Pairwise fun b b' => b.openTime < b'.openTime
  bar : ∀ b ∈ buckets, b.market = symbol ∧ b.interval = interval ∧
    ∃ sec, b.openTime = sec * 1000 ∧ Aggregates (late start (bucketRows interval rows sec)) b
  present : ∀ c ∈ rows, start ≤ c.openTime * 1000 → ∃ b ∈ buckets, b.openTime =
    bucketSec interval c * 1000

theorem aggregated_eq (table : List Candle) (now take : ℕ) (symbol : String)
    (interval : CandleInterval) :
    ∃ buckets, aggregated table now take symbol interval = sliceLast take buckets ∧
      Sorted symbol interval (since now take interval) (minutes table symbol) buckets := by
  refine ⟨_, rfl, ?_⟩
  let window := (minutes table symbol).filter fun c => since now take interval ≤ c.openTime * 1000
  have hperm : (window.insertionSort (·.openTime ≤ ·.openTime)).Perm window :=
    List.perm_insertionSort _ _
  have hg : Grouped symbol interval (window.insertionSort (·.openTime ≤ ·.openTime)) _ :=
    grouped_foldl (pairwise_insertionSort_openTime window)
  have hmem := fun b => List.mem_insertionSort (fun b b' : CandleRow => b.openTime ≤ b'.openTime)
    (x := b) (l := (window.insertionSort (·.openTime ≤ ·.openTime)).foldl
    (addMinute symbol interval) [])
  have hbar := fun b hb => hg.bar (key b) b (find?_of_mem hg.nodup hb)
  refine ⟨?_, fun b hb => ?_, fun c hc hlate => ?_⟩
  · have : Std.Total fun b b' : CandleRow => b.openTime ≤ b'.openTime := ⟨fun b b' => le_total _ _⟩
    have : IsTrans CandleRow fun b b' => b.openTime ≤ b'.openTime := ⟨fun _ _ _ => le_trans⟩
    have hsorted := List.pairwise_insertionSort (fun b b' : CandleRow => b.openTime ≤ b'.openTime)
      ((window.insertionSort (·.openTime ≤ ·.openTime)).foldl (addMinute symbol interval) [])
    have hperm := List.perm_insertionSort (fun b b' : CandleRow => b.openTime ≤ b'.openTime)
      ((window.insertionSort (·.openTime ≤ ·.openTime)).foldl (addMinute symbol interval) [])
    have hkeys := (hperm.map key).nodup_iff.mpr hg.nodup
    refine hsorted.imp₂ (fun b b' hle hne => lt_of_le_of_ne hle fun heq => hne ?_)
      (List.pairwise_map.mp hkeys)
    exact congrArg (· / 1000) heq
  · obtain ⟨hmarket, hinterval, htime, hagg⟩ := hbar b ((hmem b).mp hb)
    refine ⟨hmarket, hinterval, key b, htime, hagg.perm ?_⟩
    refine (hperm.filter _).trans (List.Perm.of_eq ?_)
    rw [late, bucketRows, List.filter_filter, List.filter_filter]
    exact List.filter_congr fun c _ => Bool.and_comm _ _
  · have hc' : c ∈ window := List.mem_filter.mpr ⟨hc, by simpa using hlate⟩
    obtain ⟨b, hb⟩ := Option.isSome_iff_exists.mp (hg.present c (hperm.mem_iff.mpr hc'))
    exact ⟨b, (hmem b).mpr (mem_of_find? hb), (hg.bar _ b hb).2.2.1⟩

/-! ## The bucket that the window cuts -/

theorem bucketSec_mono {c c' : Candle} (h : c.openTime ≤ c'.openTime) :
    bucketSec interval c ≤ bucketSec interval c' :=
  Nat.mul_le_mul_right _ (Nat.div_le_div_right h)

/-- A minute of a later bucket is in the window when one of an earlier bucket is. -/
theorem late_of_lt {c c' : Candle} (hc : start ≤ c.openTime * 1000)
    (hlt : bucketSec interval c < bucketSec interval c') : start ≤ c'.openTime * 1000 := by
  have : c.openTime < c'.openTime := by
    by_contra hle
    exact absurd (bucketSec_mono (not_lt.mp hle)) (not_le.mpr hlt)
  omega

variable (start) in
theorem early_append_late (rows : List Candle) :
    (early start rows ++ late start rows).Perm rows := by
  have := List.filter_append_perm (fun c : Candle => decide (start ≤ c.openTime * 1000)) rows
  refine List.perm_append_comm.trans ?_
  simpa only [early, late, decide_not] using this

theorem early_lt_late {c c' : Candle} (hc : c ∈ early start rows) (hc' : c' ∈ late start rows) :
    c.openTime < c'.openTime := by
  have h := (List.mem_filter.mp hc).2
  have h' := (List.mem_filter.mp hc').2
  simp only [decide_eq_true_eq] at h h'
  omega

/-- The first row is the only one. -/
theorem Opens.unique (hn : (rows.map (·.openTime)).Nodup) {p q : ℚ} (hp : Opens rows p)
    (hq : Opens rows q) : p = q := by
  obtain ⟨c, hc, hfirst, rfl⟩ := hp
  obtain ⟨c', hc', hfirst', rfl⟩ := hq
  have : c = c' := List.inj_on_of_nodup_map hn hc hc' (le_antisymm (hfirst c' hc') (hfirst' c hc))
  rw [this]

/-- **What is missing from a bar**: the aggregation of the later rows is that of all rows exactly
when the earlier ones add nothing. -/
theorem aggregates_iff_addsNothing (hn : (rows.map (·.openTime)).Nodup)
    (hearly : early start rows ≠ [])
    (h : Aggregates (late start rows) b) :
    Aggregates rows b ↔ AddsNothing (early start rows) (late start rows) := by
  have hperm := early_append_late start rows
  have hall : Aggregates rows b ↔ Aggregates (early start rows ++ late start rows) b :=
    ⟨fun ha => ha.perm hperm.symm, fun ha => ha.perm hperm⟩
  have hnlate : ((late start rows).map (·.openTime)).Nodup := hn.sublist (List.filter_sublist.map _)
  rw [hall]
  constructor
  · intro ha
    obtain ⟨e, he⟩ := List.exists_mem_of_ne_nil _ hearly
    refine ⟨⟨b.open, ?_, h.open⟩, fun c hc => ?_, fun c hc => ?_, ?_⟩
    · obtain ⟨c, hc, hfirst, hopen⟩ := ha.open
      refine ⟨c, ?_, fun x hx => hfirst x (List.mem_append_left _ hx), hopen⟩
      rcases List.mem_append.mp hc with hc | hc
      · exact hc
      · exact absurd (hfirst e (List.mem_append_left _ he)) (not_le.mpr (early_lt_late he hc))
    · obtain ⟨c', hc', hhigh⟩ := h.high.1
      exact ⟨c', hc', hhigh ▸ ha.high.2 ⟨c, List.mem_append_left _ hc, rfl⟩⟩
    · obtain ⟨c', hc', hlow⟩ := h.low.1
      exact ⟨c', hc', hlow ▸ ha.low.2 ⟨c, List.mem_append_left _ hc, rfl⟩⟩
    · have := h.volume.symm.trans ha.volume
      rw [List.map_append, List.sum_append] at this
      exact add_eq_right.mp this.symm
  · rintro ⟨⟨p, hearlyOpen, hlateOpen⟩, hhigh, hlow, hvolume⟩
    refine ⟨?_, ⟨?_, ?_⟩, ⟨?_, ?_⟩, ?_, ?_⟩
    · rw [h.open.unique hnlate hlateOpen]
      obtain ⟨c, hc, hfirst, hopen⟩ := hearlyOpen
      refine ⟨c, List.mem_append_left _ hc, fun x hx => ?_, hopen⟩
      rcases List.mem_append.mp hx with hx | hx
      · exact hfirst x hx
      · exact (early_lt_late hc hx).le
    · obtain ⟨c, hc, hb⟩ := h.high.1
      exact ⟨c, List.mem_append_right _ hc, hb⟩
    · rintro _ ⟨x, hx, rfl⟩
      rcases List.mem_append.mp hx with hx | hx
      · obtain ⟨c, hc, hle⟩ := hhigh x hx
        exact hle.trans (h.high.2 ⟨c, hc, rfl⟩)
      · exact h.high.2 ⟨x, hx, rfl⟩
    · obtain ⟨c, hc, hb⟩ := h.low.1
      exact ⟨c, List.mem_append_right _ hc, hb⟩
    · rintro _ ⟨x, hx, rfl⟩
      rcases List.mem_append.mp hx with hx | hx
      · obtain ⟨c, hc, hle⟩ := hlow x hx
        exact (h.low.2 ⟨c, hc, rfl⟩).trans hle
      · exact h.low.2 ⟨x, hx, rfl⟩
    · obtain ⟨c, hc, hlast, hclose⟩ := h.close
      refine ⟨c, List.mem_append_right _ hc, fun x hx => ?_, hclose⟩
      rcases List.mem_append.mp hx with hx | hx
      · exact (early_lt_late hx hc).le
      · exact hlast x hx
    · rw [List.map_append, List.sum_append, hvolume, zero_add]
      exact h.volume

/-- A bucket that the window does not cut. -/
theorem late_eq_of_early (hearly : early start rows = []) : (late start rows).Perm rows := by
  have := early_append_late start rows
  rwa [hearly, List.nil_append] at this

/-- The bars after that of a bucket are those of the newer ones with minutes. -/
theorem length_filter_newer {buckets : List CandleRow}
    (h : Sorted symbol interval start rows buckets)
    (hsec : b.openTime = sec * 1000)
    (hagg : Aggregates (late start (bucketRows interval rows sec)) b) :
    (buckets.filter fun b' => b.openTime < b'.openTime).length = newer interval rows sec := by
  obtain ⟨c₀, hc₀⟩ := hagg.exists_row
  obtain ⟨hc₀, hlate⟩ := List.mem_filter.mp hc₀
  have hbucket : bucketSec interval c₀ = sec := of_decide_eq_true (List.mem_filter.mp hc₀).2
  have hsecs : ∀ x ∈ buckets, ∃ c ∈ rows, x.openTime = bucketSec interval c * 1000 := by
    intro x hx
    obtain ⟨-, -, sec', htime, hx⟩ := h.bar x hx
    obtain ⟨c, hc⟩ := hx.exists_row
    obtain ⟨hc, hin⟩ := List.mem_filter.mp (List.mem_of_mem_filter hc)
    exact ⟨c, hc, by rw [htime, of_decide_eq_true hin]⟩
  have hnodup : ((buckets.filter fun b' => b.openTime < b'.openTime).map (·.openTime)).Nodup :=
    (List.pairwise_map.mpr (h.increasing.imp Nat.ne_of_lt)).sublist (List.filter_sublist.map _)
  rw [newer, ← List.length_map, ← List.toFinset_card_of_nodup hnodup]
  refine (Finset.card_bij (fun i _ => i * 1000) ?_ ?_ ?_).symm
  · intro i hi
    obtain ⟨hi, hlt⟩ := Finset.mem_filter.mp hi
    obtain ⟨c, hc, rfl⟩ := List.mem_map.mp (List.mem_toFinset.mp hi)
    obtain ⟨x, hx, htime⟩ := h.present c hc
      (late_of_lt (of_decide_eq_true hlate) (hbucket ▸ hlt))
    rw [List.mem_toFinset, List.mem_map]
    refine ⟨x, List.mem_filter.mpr ⟨hx, ?_⟩, htime⟩
    simp only [decide_eq_true_eq]
    omega
  · intro i _ j _ hij
    omega
  · intro t ht
    obtain ⟨x, hx, rfl⟩ := List.mem_map.mp (List.mem_toFinset.mp ht)
    obtain ⟨hx, hlt⟩ := List.mem_filter.mp hx
    obtain ⟨c, hc, htime⟩ := hsecs x hx
    simp only [decide_eq_true_eq] at hlt
    refine ⟨bucketSec interval c, Finset.mem_filter.mpr ⟨?_, by omega⟩, htime.symm⟩
    exact List.mem_toFinset.mpr (List.mem_map_of_mem hc)

theorem nodup_minutes (htable : (table.map key).Nodup) :
    ((minutes table symbol).map (·.openTime)).Nodup := by
  have hkeys : (minutes table symbol).map key =
      ((minutes table symbol).map (·.openTime)).map fun t => (symbol, CandleInterval.M1, t) := by
    rw [List.map_map]
    refine List.map_congr_left fun c hc => ?_
    obtain ⟨rfl, hinterval⟩ := of_decide_eq_true (List.mem_filter.mp hc).2
    exact congrArg (fun i => (c.market, i, c.openTime)) hinterval
  have : ((minutes table symbol).map key).Nodup := htable.sublist (List.filter_sublist.map _)
  rw [hkeys] at this
  exact this.of_map _

/-- **The bars of a longer interval.** -/
theorem complete_aggregated_iff (htable : (table.map key).Nodup) (htake : 0 < take) {limit : ℕ}
    (hlimit : take ≤ limit) :
    Complete table symbol interval limit (aggregated table now take symbol interval) ↔
      WindowFits table now take symbol interval := by
  obtain ⟨buckets, heq, h⟩ := aggregated_eq table now take symbol interval
  rw [heq]
  have hn : ∀ sec, ((bucketRows interval (minutes table symbol) sec).map (·.openTime)).Nodup :=
    fun sec => (nodup_minutes htable).sublist (List.filter_sublist.map _)
  constructor
  · intro hc sec rows hearly hlate
    by_contra hcut
    obtain ⟨hfew, hadds⟩ := not_or.mp hcut
    -- the bucket is among the bars
    obtain ⟨c, hmem⟩ := List.exists_mem_of_ne_nil _ hlate
    obtain ⟨hmem, hin⟩ := List.mem_filter.mp hmem
    obtain ⟨hmem, hsec⟩ := List.mem_filter.mp hmem
    obtain ⟨b, hb, htime⟩ := h.present c hmem (of_decide_eq_true hin)
    rw [of_decide_eq_true hsec] at htime
    obtain ⟨-, -, sec', htime', hagg⟩ := h.bar b hb
    obtain rfl : sec' = sec := by omega
    have hbar : b ∈ sliceLast take buckets := by
      refine (mem_sliceLast h.increasing htake).mpr ⟨hb, ?_⟩
      rw [length_filter_newer h htime hagg]
      exact not_le.mp hfew
    obtain ⟨-, -, sec'', htime'', hall⟩ := hc.bar b hbar
    obtain rfl : sec'' = sec' := by omega
    exact hadds ((aggregates_iff_addsNothing (hn _) hearly hagg).mp hall)
  · intro hfits
    have hsub : ∀ b ∈ sliceLast take buckets, b ∈ buckets :=
      fun b hb => ((mem_sliceLast h.increasing htake).mp hb).1
    refine ⟨fun b hb => ?_, ?_, (length_sliceLast_le htake).trans hlimit, fun b hb c hc hlt => ?_⟩
    · obtain ⟨hmarket, hinterval, sec, htime, hagg⟩ := h.bar b (hsub b hb)
      refine ⟨hmarket, hinterval, sec, htime, ?_⟩
      by_cases hearly : early (since now take interval)
          (bucketRows interval (minutes table symbol) sec) = []
      · exact hagg.perm (late_eq_of_early hearly)
      · obtain ⟨c, hc⟩ := hagg.exists_row
        have hcount := ((mem_sliceLast h.increasing htake).mp hb).2
        rw [length_filter_newer h htime hagg] at hcount
        have hadds := (hfits sec hearly (List.ne_nil_of_mem hc)).resolve_left (not_le.mpr hcount)
        exact (aggregates_iff_addsNothing (hn sec) hearly hagg).mpr hadds
    · rw [sliceLast, if_neg htake.ne']
      exact h.increasing.sublist (List.drop_sublist _ _)
    · obtain ⟨hb, hcount⟩ := (mem_sliceLast h.increasing htake).mp hb
      obtain ⟨-, -, sec, htime, hagg⟩ := h.bar b hb
      obtain ⟨c₀, hc₀⟩ := hagg.exists_row
      obtain ⟨hc₀, hin⟩ := List.mem_filter.mp hc₀
      have hsec : bucketSec interval c₀ = sec := of_decide_eq_true (List.mem_filter.mp hc₀).2
      have hnewer : bucketSec interval c₀ < bucketSec interval c := by omega
      obtain ⟨b', hb', htime'⟩ := h.present c hc (late_of_lt (of_decide_eq_true hin) hnewer)
      refine ⟨b', (mem_sliceLast h.increasing htake).mpr ⟨hb', lt_of_le_of_lt ?_ hcount⟩, htime'⟩
      refine (List.monotone_filter_right _ fun x hx => ?_).length_le
      simp only [decide_eq_true_eq] at hx ⊢
      omega

theorem candleInterval?_name (interval : CandleInterval) :
    candleInterval? interval.name = some interval := by
  cases interval <;> decide

/-- **Every candle is complete** exactly when the window harms no bar. -/
theorem candles_complete_iff (htable : (table.map key).Nodup)
    (hM1 : interval ≠ .M1) {limit : Option ℕ}
    (hlimit : 0 < limit.getD 500) :
    ∃ bars, candles table now symbol (some interval.name) limit = .ok bars ∧
      (Complete table symbol interval (limit.getD 500) bars ↔
        WindowFits table now (min (limit.getD 500) 1000) symbol interval) := by
  refine ⟨aggregated table now (min (limit.getD 500) 1000) symbol interval, ?_, ?_⟩
  · simp only [candles, Option.getD_some, candleInterval?_name, hM1, if_false]
  · exact complete_aggregated_iff htable (by omega) (min_le_left _ _)

namespace CandlesSample

/-- A minute in which one trade is made at the price `p`. -/
def minute (openTime : ℕ) (p : ℚ) : Candle := ⟨"BTC-USDT", .M1, openTime, p, p, p, p, 1⟩

/-- Two minutes of the first five. -/
def twoMinutes : List Candle := [minute 60 100, minute 180 110]

end CandlesSample

open CandlesSample in
/-- Asked for when ten minutes have passed, a window of two bars starts with a bucket. -/
theorem candles_aligned : ∃ bars,
    candles twoMinutes 600000 "BTC-USDT" (some CandleInterval.M5.name) (some 2) = .ok bars ∧
      Complete twoMinutes "BTC-USDT" .M5 2 bars := by
  have h : ∃ bars,
      candles twoMinutes 600000 "BTC-USDT" (some CandleInterval.M5.name) (some 2) = .ok bars ∧
        (Complete twoMinutes "BTC-USDT" .M5 2 bars ↔
        WindowFits twoMinutes 600000 2 "BTC-USDT" .M5) :=
    candles_complete_iff (by decide) (by decide) (by decide)
  obtain ⟨bars, heq, hiff⟩ := h
  refine ⟨bars, heq, hiff.mpr fun sec hearly => absurd ?_ hearly⟩
  refine List.filter_eq_nil_iff.mpr fun c _ => ?_
  have hstart : since 600000 2 .M5 = 0 := by decide
  rw [hstart, decide_eq_true_eq, not_not]
  omega

open CandlesSample in
/-- **A bar with a minute missing**: after seven minutes, the window of one bar starts at the second
minute, and the bar of the first five minutes lacks the minute before. -/
theorem candles_cut : ∃ bars,
    candles twoMinutes 420000 "BTC-USDT" (some CandleInterval.M5.name) (some 1) = .ok bars ∧
      ¬Complete twoMinutes "BTC-USDT" .M5 1 bars := by
  refine ⟨[⟨"BTC-USDT", .M5, 0, 110, 110, 110, 110, 1⟩], by decide +kernel, fun h => ?_⟩
  obtain ⟨-, -, sec, htime, hagg⟩ := h.bar _ (List.mem_singleton.mpr rfl)
  obtain rfl : sec = 0 := by simpa using htime.symm
  exact absurd hagg.volume (by decide +kernel)

end MarketController

end Orbit
