import Mathlib.Data.List.Induction
import Orbit.Matcher.Engine

/-!
# The throttled snapshots

`SnapshotService` keeps the latest snapshot of each book in Redis for those who join late.
`schedule` writes at once when the last completed write of the market is `THROTTLE_MS` old, and sets
a timer otherwise, one for each market. A write takes the snapshot and issues a `redis.set`;
`lastWrite` is stamped when that has been answered. Redis applies the writes in the order in which
they were issued, and forgets a value after `ORDERBOOK_SNAPSHOT_TTL_SEC`.

A run is a list of steps in any order: the changes of the books, the calls of `schedule`, the
timers, which fire at any time after they were set, the writes as Redis applies them, their answers,
and the time that passes at Redis. Each reading of `Date.now()` is any number.

* `Tracked`: since a call of `schedule` for a market its timer is set, or the last write of it that
  is on the way or applied is as of a moment no earlier than the call.
* `snapshot_fresh`: when no timer is set and every write has been answered, Redis holds such a
  snapshot of every scheduled market until it expires.
* `snapshot_expires`: a market whose book has not been scheduled for a day has none.
-/

namespace Orbit

variable {E : Engine}

/-! ## The service -/

def THROTTLE_MS : ℤ := 100

def ORDERBOOK_SNAPSHOT_TTL_SEC : ℕ := 86400

/-- `REDIS_KEYS.ORDERBOOK_SNAPSHOT`. -/
def ORDERBOOK_SNAPSHOT (symbol : String) : String := "ob:snapshot:" ++ symbol

theorem ORDERBOOK_SNAPSHOT_inj {s s' : String} : ORDERBOOK_SNAPSHOT s =
    ORDERBOOK_SNAPSHOT s' ↔ s = s' := by
  refine ⟨fun h => ?_, fun h => h ▸ rfl⟩
  have htexts := congrArg String.toList h
  simp only [ORDERBOOK_SNAPSHOT, String.toList_append, List.append_cancel_left_eq] at htexts
  exact String.toList_inj.mp htexts

/-- What is stored of a book. -/
structure SnapshotPayload where
  symbol : String
  asks : List BookLevel
  bids : List BookLevel
  ts : ℤ
  deriving DecidableEq, Repr

/-- A `redis.set` with `EX`. -/
structure SnapshotSet where
  key : String
  payload : SnapshotPayload
  ttl : ℕ
  deriving DecidableEq, Repr

/-- A value of Redis that expires. -/
structure StoredSnapshot where
  payload : SnapshotPayload
  expiresAt : ℕ
  deriving DecidableEq, Repr

/-- The matcher's books, the service, and Redis. -/
structure SnapshotService (E : Engine) where
  books : String → Option E.Book
  /-- The timers that are set, with their delays. -/
  pending : String → Option ℤ
  lastWrite : String → Option ℤ
  /-- The writes that Redis has not applied, in the order in which they were issued. -/
  issued : List SnapshotSet
  /-- The writes that Redis has applied and whose promises have not resolved. -/
  applied : List SnapshotSet
  redis : String → Option StoredSnapshot
  /-- The time at Redis, in seconds. -/
  clock : ℕ

inductive SnapshotStep (E : Engine)
  | change (symbol : String) (book : E.Book)
  | schedule (symbol : String) (now ts : ℤ)
  | fire (symbol : String) (ts : ℤ)
  | apply
  | complete (i : ℕ) (now : ℤ)
  | pass (seconds : ℕ)

namespace SnapshotService

/-- `getEngine`: the book of a market, a new one if there is none. -/
def getEngine (s : SnapshotService E) (symbol : String) : E.Book := (s.books symbol).getD E.new

/-- The snapshot that `write` takes. -/
def payload (s : SnapshotService E) (symbol : String) (ts : ℤ) : SnapshotPayload where
  symbol := symbol
  asks := (E.getOrderbook (s.getEngine symbol)).asks
  bids := (E.getOrderbook (s.getEngine symbol)).bids
  ts := ts

/-- `write`, up to the answer of Redis. -/
def write (s : SnapshotService E) (symbol : String) (ts : ℤ) : SnapshotService E :=
  { s with
    books := Function.update s.books symbol (some (s.getEngine symbol))
    issued := s.issued ++
      [⟨ORDERBOOK_SNAPSHOT symbol, s.payload symbol ts, ORDERBOOK_SNAPSHOT_TTL_SEC⟩] }

def schedule (s : SnapshotService E) (symbol : String) (now ts : ℤ) : SnapshotService E :=
  let elapsed := now - (s.lastWrite symbol).getD 0
  if THROTTLE_MS ≤ elapsed then s.write symbol ts
  else if (s.pending symbol).isSome then s
  else { s with pending := Function.update s.pending symbol (some (THROTTLE_MS - elapsed)) }

/-- The callback of a timer. -/
def fire (s : SnapshotService E) (symbol : String) (ts : ℤ) : SnapshotService E :=
  if (s.pending symbol).isSome then
    { s with pending := Function.update s.pending symbol none }.write symbol ts
  else s

/-- Redis applies the next write. -/
def apply (s : SnapshotService E) : SnapshotService E :=
  match s.issued with
  | [] => s
  | c :: rest =>
    { s with
      issued := rest
      applied := s.applied ++ [c]
      redis := Function.update s.redis c.key (some ⟨c.payload, s.clock + c.ttl⟩) }

/-- `write`, once a write has been answered. -/
def complete (s : SnapshotService E) (i : ℕ) (now : ℤ) : SnapshotService E :=
  match s.applied[i]? with
  | none => s
  | some c =>
    { s with
      applied := s.applied.eraseIdx i
      lastWrite := Function.update s.lastWrite c.payload.symbol (some now) }

def step (s : SnapshotService E) : SnapshotStep E → SnapshotService E
  | .change symbol book => { s with books := Function.update s.books symbol (some book) }
  | .schedule symbol now ts => s.schedule symbol now ts
  | .fire symbol ts => s.fire symbol ts
  | .apply => s.apply
  | .complete i now => s.complete i now
  | .pass seconds => { s with clock := s.clock + seconds }

def run (s : SnapshotService E) (steps : List (SnapshotStep E)) : SnapshotService E :=
  steps.foldl step s

/-- All timers have fired and all writes have completed. -/
def Quiet (s : SnapshotService E) : Prop :=
  (∀ symbol, s.pending symbol = none) ∧ s.issued = [] ∧ s.applied = []

/-- The Redis value of a key. -/
def get (s : SnapshotService E) (key : String) : Option SnapshotPayload :=
  (s.redis key).bind fun v => if s.clock < v.expiresAt then some v.payload else none

@[simp] theorem run_nil (s : SnapshotService E) : s.run [] = s := rfl

theorem run_concat (s : SnapshotService E) (steps : List (SnapshotStep E)) (l : SnapshotStep E) :
    s.run (steps ++ [l]) = (s.run steps).step l := by
  simp [run]

/-! ## The snapshots of one market -/

/-- The writes of a market that are on the way. -/
def writesOf (s : SnapshotService E) (symbol : String) : List SnapshotSet :=
  s.issued.filter (·.key = ORDERBOOK_SNAPSHOT symbol)

/-- What Redis holds of a market once it has applied the writes that are on the way. -/
def upcoming (s : SnapshotService E) (symbol : String) : Option StoredSnapshot :=
  ((s.writesOf symbol).getLast?.map fun c => ⟨c.payload, s.clock + c.ttl⟩).or
    (s.redis (ORDERBOOK_SNAPSHOT symbol))

theorem upcoming_of_quiet {s : SnapshotService E} (h : s.Quiet) (symbol : String) :
    s.upcoming symbol = s.redis (ORDERBOOK_SNAPSHOT symbol) := by
  simp [upcoming, writesOf, h.2.1]

/-- After a write the snapshot of that moment is to come. -/
theorem upcoming_write_self (s : SnapshotService E) (symbol : String) (ts : ℤ) :
    (s.write symbol ts).upcoming symbol =
      some ⟨(s.write symbol ts).payload symbol ts, s.clock + ORDERBOOK_SNAPSHOT_TTL_SEC⟩ := by
  simp [upcoming, writesOf, write, payload, getEngine]

/-- A write of another market changes nothing. -/
theorem upcoming_write_of_ne (s : SnapshotService E) {symbol other : String}
    (h : other ≠ symbol) (ts : ℤ) :
    (s.write other ts).upcoming symbol = s.upcoming symbol := by
  simp [upcoming, writesOf, write, ORDERBOOK_SNAPSHOT_inj, h]

/-- Nor does a write that Redis applies. -/
theorem upcoming_apply (s : SnapshotService E) (symbol : String) :
    s.apply.upcoming symbol = s.upcoming symbol := by
  unfold apply
  split
  · rfl
  · next c rest hissued =>
    by_cases hkey : c.key = ORDERBOOK_SNAPSHOT symbol
    · cases hlast : rest.filter (·.key = ORDERBOOK_SNAPSHOT symbol) |>.getLast? <;>
        simp [upcoming, writesOf, hissued, hkey, hlast, List.getLast?_cons]
    · simp [upcoming, writesOf, hissued, hkey, Ne.symm hkey]

/-- The answer of a write changes neither what is to come nor the timers. -/
theorem complete_frame (s : SnapshotService E) (i : ℕ) (now : ℤ) :
    (s.complete i now).upcoming = s.upcoming ∧ (s.complete i now).pending = s.pending := by
  unfold complete
  split <;> exact ⟨rfl, rfl⟩

/-- The same snapshot, which does not expire earlier. -/
def Kept (o o' : Option StoredSnapshot) : Prop :=
  ∀ v, o = some v → ∃ v', o' = some v' ∧ v'.payload = v.payload ∧ v.expiresAt ≤ v'.expiresAt

theorem Kept.of_eq {o o' : Option StoredSnapshot} (h : o' = o) : Kept o o' :=
  fun v hv => ⟨v, h.trans hv, rfl, le_rfl⟩

theorem kept_pass (s : SnapshotService E) (seconds : ℕ) (symbol : String) :
    Kept (s.upcoming symbol) ((s.step (.pass seconds)).upcoming symbol) := by
  intro v hv
  have hwrites : (s.step (.pass seconds)).writesOf symbol = s.writesOf symbol := rfl
  rw [upcoming, hwrites]
  cases hlast : (s.writesOf symbol).getLast? with
  | none =>
    rw [upcoming, hlast] at hv
    exact ⟨v, hv, rfl, le_rfl⟩
  | some c =>
    simp only [upcoming, hlast, Option.map_some, Option.some_or, Option.some.injEq] at hv
    subst hv
    refine ⟨_, rfl, rfl, ?_⟩
    simp only [step]
    omega

/-- A step that is no call of `schedule` for the market and leaves its timer and what is to come. -/
theorem cases_of_frame {s : SnapshotService E} {l : SnapshotStep E} {symbol : String}
    (hl : ∀ now ts, l ≠ .schedule symbol now ts)
    (hpending : (s.step l).pending symbol = s.pending symbol)
    (hkept : Kept (s.upcoming symbol) ((s.step l).upcoming symbol)) :
    ((s.step l).pending symbol).isSome ∨ s.pending symbol = none ∧
      (∀ now ts, l ≠ .schedule symbol now ts) ∧ Kept (s.upcoming symbol)
      ((s.step l).upcoming symbol) := by
  rw [hpending]
  cases h : s.pending symbol with
  | none => exact .inr ⟨rfl, hl, hkept⟩
  | some delay => exact .inl rfl

/-- A call of `schedule` writes or finds or sets a timer. -/
theorem schedule_self (s : SnapshotService E) (symbol : String) (now ts : ℤ) :
    s.schedule symbol now ts = s.write symbol ts ∨
    ((s.schedule symbol now ts).pending symbol).isSome := by
  simp only [schedule]
  split_ifs with hcold hqueued
  · exact .inl rfl
  · exact .inr hqueued
  · exact .inr (by simp)

/-- Neither concerns another market. -/
theorem schedule_of_ne (s : SnapshotService E) {symbol other : String}
    (h : other ≠ symbol) (now ts : ℤ) :
    (s.schedule other now ts).pending symbol = s.pending symbol ∧
      (s.schedule other now ts).upcoming symbol = s.upcoming symbol := by
  simp only [schedule]
  split_ifs with hcold hqueued
  · exact ⟨rfl, upcoming_write_of_ne s h ts⟩
  · exact ⟨rfl, rfl⟩
  · exact ⟨Function.update_of_ne h.symm _ _, rfl⟩

theorem fire_of_ne (s : SnapshotService E) {symbol other : String} (h : other ≠ symbol) (ts : ℤ) :
    (s.fire other ts).pending symbol = s.pending symbol ∧
      (s.fire other ts).upcoming symbol = s.upcoming symbol := by
  unfold fire
  split
  · exact ⟨Function.update_of_ne h.symm _ _, upcoming_write_of_ne _ h ts⟩
  · exact ⟨rfl, rfl⟩

/-- **What a step does to the snapshots of a market**: it issues the snapshot of that moment, or a
timer is set after it, or it is no call of `schedule` for the market and what is to come stays. -/
theorem step_cases (s : SnapshotService E) (l : SnapshotStep E) (symbol : String) :
    (∃ ts, (s.step l).upcoming symbol =
      some ⟨(s.step l).payload symbol ts, (s.step l).clock + ORDERBOOK_SNAPSHOT_TTL_SEC⟩) ∨
    ((s.step l).pending symbol).isSome ∨
    s.pending symbol = none ∧ (∀ now ts, l ≠ .schedule symbol now ts) ∧
      Kept (s.upcoming symbol) ((s.step l).upcoming symbol) := by
  cases l with
  | change other book => exact .inr (cases_of_frame (by simp) rfl (.of_eq rfl))
  | schedule other now ts =>
    by_cases h : other = symbol
    · subst h
      rcases s.schedule_self other now ts with hwrite | hpending
      · refine .inl ⟨ts, ?_⟩
        rw [step, hwrite]
        exact s.upcoming_write_self other ts
      · exact .inr (.inl hpending)
    · obtain ⟨hpending, hupcoming⟩ := s.schedule_of_ne h now ts
      exact .inr (cases_of_frame (by simp [h]) hpending (.of_eq hupcoming))
  | fire other ts =>
    by_cases h : other = symbol
    · subst h
      by_cases hpending : (s.pending other).isSome
      · refine .inl ⟨ts, ?_⟩
        rw [step, fire, if_pos hpending]
        exact upcoming_write_self _ other ts
      · have hstep : s.step (.fire other ts) = s := if_neg hpending
        exact .inr (cases_of_frame (by simp) (by rw [hstep]) (.of_eq (by rw [hstep])))
    · obtain ⟨hpending, hupcoming⟩ := s.fire_of_ne h ts
      exact .inr (cases_of_frame (by simp) hpending (.of_eq hupcoming))
  | apply =>
    refine .inr (cases_of_frame (by simp) ?_ (.of_eq (s.upcoming_apply symbol)))
    simp only [step, apply]
    split <;> rfl
  | complete i now =>
    obtain ⟨hupcoming, hpending⟩ := s.complete_frame i now
    exact .inr (cases_of_frame (by simp) (congrFun hpending symbol)
      (.of_eq (congrFun hupcoming symbol)))
  | pass seconds => exact .inr (cases_of_frame (by simp) rfl (s.kept_pass seconds symbol))

/-! ## Runs -/

/-- A stored snapshot is that of the market at a moment of the run after which there is no call of
`schedule` for it, and expires no earlier than a day after that moment. -/
def AsOf (start : SnapshotService E) (taken : List (SnapshotStep E)) (symbol : String)
    (v : StoredSnapshot) : Prop :=
  ∃ before after ts, taken = before ++ after ∧ (∀ now ts, .schedule symbol now ts ∉ after) ∧
    v.payload = (start.run before).payload symbol ts ∧
    (start.run before).clock + ORDERBOOK_SNAPSHOT_TTL_SEC ≤ v.expiresAt

/-- The timer of the market is set, or what is to come of it is as of a moment
after the last call. -/
def Tracked (start : SnapshotService E) (taken : List (SnapshotStep E)) (symbol : String) : Prop :=
  ((start.run taken).pending symbol).isSome ∨
    ∃ v, (start.run taken).upcoming symbol = some v ∧ AsOf start taken symbol v

/-- Another step leaves the last call of `schedule` where it is. -/
theorem AsOf.concat {start : SnapshotService E} {taken : List (SnapshotStep E)} {symbol : String}
    {v v' : StoredSnapshot} (h : AsOf start taken symbol v) {l : SnapshotStep E}
    (hl : ∀ now ts, l ≠ .schedule symbol now ts) (hpayload : v'.payload = v.payload)
    (hexpires : v.expiresAt ≤ v'.expiresAt) : AsOf start (taken ++ [l]) symbol v' := by
  obtain ⟨before, after, ts, htaken, hafter, hasOf, hclock⟩ := h
  refine ⟨before, after ++ [l], ts, by rw [htaken, List.append_assoc], fun now ts hmem => ?_,
    hpayload.trans hasOf, hclock.trans hexpires⟩
  rcases List.mem_append.mp hmem with hmem | hmem
  · exact hafter now ts hmem
  · exact hl now ts (List.mem_singleton.mp hmem).symm

/-- **A scheduled market is tracked in every run.** -/
theorem tracked_run (start : SnapshotService E) (steps : List (SnapshotStep E)) {symbol : String}
    {now ts : ℤ} (h : .schedule symbol now ts ∈ steps) : Tracked start steps symbol := by
  induction steps using List.reverseRecOn with
  | nil => simp at h
  | append_singleton taken l ih =>
    rw [Tracked, run_concat]
    rcases (start.run taken).step_cases l symbol with ⟨ts', hissued⟩ | hpending | ⟨hidle, hl, hkept⟩
    · refine .inr ⟨_, hissued, taken ++ [l], [], ts', by simp, by simp, ?_, ?_⟩ <;> rw [run_concat]
    · exact .inl hpending
    · have hmem : .schedule symbol now ts ∈ taken :=
        (List.mem_append.mp h).resolve_right fun hmem => hl now ts (List.mem_singleton.mp hmem).symm
      rcases ih hmem with hpending | ⟨v, hv, hasOf⟩
      · simp [hidle] at hpending
      · obtain ⟨v', hv', hpayload, hexpires⟩ := hkept v hv
        exact .inr ⟨v', hv', hasOf.concat hl hpayload hexpires⟩

/-- **The throttled snapshot is never left stale.** Once all timers have fired and all writes have
completed, Redis holds of each scheduled market its book as of a moment no earlier than
the last call of `schedule` for it, until the value expires, which is no earlier than a
day after that moment. -/
theorem snapshot_fresh (start : SnapshotService E) (steps : List (SnapshotStep E))
    (hquiet : (start.run steps).Quiet) (symbol : String) (now ts : ℤ)
    (hscheduled : .schedule symbol now ts ∈ steps) :
    ∃ before after ts expiresAt, steps = before ++ after ∧
      (∀ now ts, .schedule symbol now ts ∉ after) ∧
      (start.run before).clock + ORDERBOOK_SNAPSHOT_TTL_SEC ≤ expiresAt ∧
      (start.run steps).get (ORDERBOOK_SNAPSHOT symbol) =
        if (start.run steps).clock < expiresAt then some ((start.run before).payload symbol ts)
        else none := by
  rcases start.tracked_run steps hscheduled with
    hpending | ⟨v, hv, before, after, ts, hsteps, hafter, hp, hc⟩
  · simp [hquiet.1] at hpending
  · rw [upcoming_of_quiet hquiet] at hv
    exact ⟨before, after, ts, v.expiresAt, hsteps, hafter, hc,
      by rw [get, hv, Option.bind_some, hp]⟩

/-! ## A burst of changes, and a day without any -/

namespace BurstSample

/-- A book with one order to buy at the price. -/
def bidAt (price : ℚ) : Engine.priceTime.Book :=
  ⟨((PriceTime.Book.empty : Queues).add 1 .bid price 1).book,
    PriceTime.Book.WF.empty.add List.not_mem_nil .bid price 1⟩

/-- A service that has just been constructed. -/
def constructed : SnapshotService Engine.priceTime where
  books _ := none
  pending _ := none
  lastWrite _ := none
  issued := []
  applied := []
  redis _ := none
  clock := 0

/-- The first change is written at once, the third finds the timer that the second has set. -/
def burst : List (SnapshotStep Engine.priceTime) :=
  [.change "BTC" (bidAt 10), .schedule "BTC" 1000 1000, .apply, .complete 0 1001,
    .change "BTC" (bidAt 11),
    .schedule "BTC" 1050 1050, .change "BTC" (bidAt 12), .schedule "BTC" 1060 1060,
      .fire "BTC" 1110, .apply,
    .complete 0 1111]

theorem burst_quiet : (constructed.run burst).Quiet := by
  have hpending : (constructed.run burst).pending =
      Function.update (Function.update (fun _ => none) "BTC" (some 51)) "BTC" none := rfl
  refine ⟨fun symbol => ?_, rfl, rfl⟩
  rw [hpending, Function.update_idem, Function.update_apply, ite_self]

end BurstSample

open BurstSample in
/-- In a burst of three changes, of which the third is not written by its own call. -/
theorem snapshot_fresh_burst : (constructed.run burst).Quiet ∧
    ∃ before after ts expiresAt, burst = before ++ after ∧
    (∀ now ts, .schedule "BTC" now ts ∉ after) ∧
      (constructed.run before).clock + ORDERBOOK_SNAPSHOT_TTL_SEC ≤ expiresAt ∧
      (constructed.run burst).get (ORDERBOOK_SNAPSHOT "BTC") =
        if (constructed.run burst).clock < expiresAt then
          some ((constructed.run before).payload "BTC" ts)
        else none :=
  ⟨burst_quiet, snapshot_fresh constructed burst burst_quiet "BTC" 1060 1060 (by simp [burst])⟩

namespace BurstSample

/-- The market is quiet for a day after its only change has been written. -/
def day : List (SnapshotStep Engine.priceTime) :=
  [.change "BTC" (bidAt 10), .schedule "BTC" 1000 1000, .apply, .complete 0 1001, .pass 86400]

theorem day_quiet : (constructed.run day).Quiet := by
  refine ⟨fun symbol => ?_, rfl, rfl⟩
  simp [day, constructed, run, step, schedule, apply, complete, write, THROTTLE_MS]

theorem day_get : (constructed.run day).get (ORDERBOOK_SNAPSHOT "BTC") = none := by
  simp [day, constructed, get, run, step, schedule, apply, complete, write, THROTTLE_MS,
    ORDERBOOK_SNAPSHOT_TTL_SEC]

end BurstSample

open BurstSample in
/-- A day after the last write the market has no snapshot, although every timer has fired and every
write has completed. -/
theorem snapshot_expires :
    ¬∀ (E : Engine) (start : SnapshotService E) (steps : List (SnapshotStep E)),
      (start.run steps).Quiet → ∀ symbol now ts, .schedule symbol now ts ∈ steps →
        ∃ before after ts, steps = before ++ after ∧ (∀ now ts, .schedule symbol now ts ∉ after) ∧
          (start.run steps).get (ORDERBOOK_SNAPSHOT symbol) =
            some ((start.run before).payload symbol ts) := by
  intro h
  obtain ⟨before, after, ts, -, -, hget⟩ :=
    h _ constructed day day_quiet "BTC" 1000 1000 (by simp [day])
  rw [day_get] at hget
  cases hget

end SnapshotService

end Orbit
