import Mathlib.Data.List.Induction
import Mathlib.Data.List.Sort
import Orbit.Foundations.History
import Orbit.Foundations.Table
import Orbit.Foundations.Texts
import Orbit.Store.Schema

/-!
# The outbox relay

`runOutboxRelay` of `apps/workers/src/outbox-relay/index.ts`. Every pass of its loop is a
`drainOnce`: it reads the first rows of `OutboxEvent` that are not processed, in the order of their
ids, sends each to its topic, and marks it. A row whose send or whose mark fails is left as it is,
with the error noted, and the loop goes on with the next row.

`Step` is what happens to the table: transactions commit rows, with ids that a sequence gave and not
necessarily in their order, and the relay makes passes. A pass reads the table once, so that a row
committed while it runs is as one committed after it. A pass with fewer outcomes than rows is one
during which the relay was stopped, or whose query failed.

* `publish_order_iff`: the rows of a topic and key are first published in the order of their ids
  exactly when no row is committed after a later one was published, and no pass sends a row after
  failing to send an earlier one of the same topic and key.
-/

namespace Orbit

open Table

namespace OutboxRelay

/-- A value in the JSON column of the headers. -/
inductive HeaderValue
  | string (s : String)
  | other
  deriving DecidableEq, Repr

/-- A row of the table, with the columns that only the relay reads and writes. `headers` are the
entries of the JSON column, if it holds an object. -/
structure Row where
  event : OutboxEvent
  headers : Option (List (String × HeaderValue))
  processedAt : Option ℕ
  attempts : ℕ
  lastError : Option String
  deriving DecidableEq, Repr

instance : Keyed Row ℕ := ⟨fun r => r.event.id⟩

/-- The topic and the partition key of an event: what Kafka keeps in order. -/
def stream (ev : OutboxEvent) : Topic × String := (ev.topic, ev.key)

def Row.id (r : Row) : ℕ := r.event.id

/-- A message that the broker acknowledged, and the id of the row it was sent for. -/
structure Publication where
  id : ℕ
  topic : Topic
  key : String
  value : Payload
  headers : Option (List (String × String))
  deriving DecidableEq, Repr

/-- `toKafkaHeaders`. -/
def toKafkaHeaders (raw : Option (List (String × HeaderValue))) : Option (List (String × String)) :=
  match raw with
  | none => none
  | some entries =>
    let out := entries.filterMap fun (k, v) =>
      match v with
      | .string s => some (k, s)
      | .other => none
    if out = [] then none else some out

def Row.publication (r : Row) : Publication where
  id := r.event.id
  topic := r.event.topic
  key := r.event.key
  value := r.event.payload
  headers := toKafkaHeaders r.headers

/-- What the calls of one turn of the loop do. -/
inductive Outcome
  /-- The message is acknowledged and the row marked at the time `now`. -/
  | sent (now : ℕ)
  /-- The message is acknowledged, and the update of `processedAt` fails. -/
  | unmarked (msg : String) (noted : Bool)
  /-- `producer.send` fails. -/
  | refused (msg : String) (noted : Bool)
  deriving DecidableEq, Repr

/-- Whether the broker acknowledged the message. -/
def Outcome.acked : Outcome → Bool
  | .sent _ => true
  | .unmarked _ _ => true
  | .refused _ _ => false

/-- The table, and what the broker acknowledged, oldest first. -/
structure Relay where
  rows : List Row
  published : List Publication
  deriving DecidableEq, Repr

/-- The update of the `catch` branch, which may fail in its turn. `slice` counts UTF-16 code
units. -/
def noteError (id : ℕ) (msg : String) (noted : Bool) (rows : List Row) : List Row :=
  if noted then
    modify id (fun r => { r with
      attempts := r.attempts + 1, lastError := some (Texts.slice msg 1000) }) rows
  else rows

/-- A turn of the loop. -/
def turn (s : Relay) (ev : Row) : Outcome → Relay
  | .sent now =>
    { rows := modify ev.id (fun r => { r with processedAt := some now }) s.rows
      published := s.published ++ [ev.publication] }
  | .unmarked msg noted =>
    { rows := noteError ev.id msg noted s.rows
      published := s.published ++ [ev.publication] }
  | .refused msg noted =>
    { s with rows := noteError ev.id msg noted s.rows }

/-- The rows of a pass. -/
def findMany (batchSize : ℕ) (rows : List Row) : List Row :=
  ((rows.filter fun r => r.processedAt.isNone).insertionSort (·.id ≤ ·.id)).take batchSize

/-- The turns of a pass that are made. -/
def turns (batchSize : ℕ) (outcomes : List Outcome) (s : Relay) : List (Row × Outcome) :=
  (findMany batchSize s.rows).zip outcomes

/-- `drainOnce`. -/
def drainOnce (batchSize : ℕ) (outcomes : List Outcome) (s : Relay) : Relay :=
  (turns batchSize outcomes s).foldl (fun s t => turn s t.1 t.2) s

/-- What happens to the table. -/
inductive Step
  /-- A transaction that inserted a row commits. -/
  | commit (event : OutboxEvent) (headers : Option (List (String × HeaderValue)))
  | drain (batchSize : ℕ) (outcomes : List Outcome)
  deriving DecidableEq, Repr

/-- One step. The id of a committed row is new. -/
def step (s : Relay) : Step → Relay
  | .commit event headers =>
    if (find? event.id s.rows).isSome then s
    else { s with rows := s.rows ++ [⟨event, headers, none, 0, none⟩] }
  | .drain batchSize outcomes => drainOnce batchSize outcomes s

def run (s : Relay) (steps : List Step) : Relay := steps.foldl step s

/-- Nothing committed yet. -/
def Relay.empty : Relay := ⟨[], []⟩

/-! ## Order -/

/-- The ids of the rows that were published. -/
def Relay.ids (s : Relay) : List ℕ := s.published.map (·.id)

/-- The publication comes after those of all events of its topic and key with a lower id. -/
def AfterLower (events : List OutboxEvent) (before : List Publication) (p : Publication) : Prop :=
  ∀ ev ∈ events, stream ev = (p.topic, p.key) → ev.id < p.id → ev.id ∈ before.map (·.id)

/-- **The order of publication**: no row is published before every row of its topic and key with a
lower id has been. -/
def Relay.InOrder (s : Relay) : Prop := Justified (AfterLower (s.rows.map (·.event))) s.published

/-- The condition on a step: a committed row has a higher id than any of its topic and key that is
published, and in a pass no row is sent after one of the same topic and key whose send failed,
unless that one was published before. -/
def Orderly (s : Relay) : Step → Prop
  | .commit event _ => (find? event.id s.rows).isSome ∨
      ∀ p ∈ s.published, (p.topic, p.key) = stream event → p.id ≤ event.id
  | .drain batchSize outcomes => (turns batchSize outcomes s).Pairwise fun x y =>
      stream x.1.event = stream y.1.event → x.2.acked = false → y.2.acked = true → x.1.id ∈ s.ids

/-- What holds of the table whatever fails. -/
structure Relay.Consistent (s : Relay) : Prop where
  nodup : (s.rows.map Row.id).Nodup
  /-- A row that is marked was published. -/
  marked : ∀ r ∈ s.rows, r.processedAt ≠ none → r.id ∈ s.ids
  /-- Only rows are published. -/
  known : ∀ i ∈ s.ids, i ∈ s.rows.map Row.id

/-! ## One turn -/

variable {s : Relay} {ev : Row} {o : Outcome}

theorem map_event_noteError (id : ℕ) (msg : String) (noted : Bool) (rows : List Row) :
    (noteError id msg noted rows).map Row.event = rows.map Row.event := by
  unfold noteError
  split
  · refine map_modify ?_ rows
    intro r
    rfl
  · rfl

theorem map_event_turn : (turn s ev o).rows.map Row.event = s.rows.map Row.event := by
  cases o with
  | sent now =>
    refine map_modify ?_ s.rows
    intro r
    rfl
  | unmarked msg noted | refused msg noted => exact map_event_noteError _ _ _ _

theorem published_turn : (turn s ev o).published =
    s.published ++ if o.acked then [ev.publication] else [] := by
  cases o <;> simp [turn, Outcome.acked]

/-- A turn marks no row but its own, and that only when it was sent. -/
theorem mem_rows_turn {r : Row} (hr : r ∈ (turn s ev o).rows) :
    (∃ r₀ ∈ s.rows, r₀.event = r.event ∧ r₀.processedAt = r.processedAt) ∨
      r.id = ev.id ∧ o.acked = true := by
  cases o with
  | sent now =>
    rcases mem_modify hr with h | ⟨r₀, h₀, rfl⟩
    · exact .inl ⟨r, h, rfl, rfl⟩
    · exact .inr ⟨key_of_find? h₀, rfl⟩
  | unmarked msg noted | refused msg noted =>
    left
    change r ∈ noteError _ _ _ _ at hr
    unfold noteError at hr
    split at hr
    · rcases mem_modify hr with h | ⟨r₀, h₀, rfl⟩
      · exact ⟨r, h, rfl, rfl⟩
      · exact ⟨r₀, mem_of_find? h₀, rfl, rfl⟩
    · exact ⟨r, hr, rfl, rfl⟩

theorem ids_turn : (turn s ev o).ids = s.ids ++ if o.acked then [ev.id] else [] := by
  unfold Relay.ids
  rw [published_turn, List.map_append]
  split <;> rfl

theorem Relay.Consistent.turn (hs : s.Consistent) (hev : ev.event ∈ s.rows.map (·.event)) :
    (turn s ev o).Consistent := by
  have hids : (OutboxRelay.turn s ev o).rows.map Row.id = s.rows.map Row.id := by
    have := congrArg (List.map OutboxEvent.id) (@map_event_turn s ev o)
    rwa [List.map_map, List.map_map] at this
  refine ⟨hids ▸ hs.nodup, fun r hr hp => ?_, fun i hi => ?_⟩
  · rw [ids_turn, List.mem_append]
    rcases mem_rows_turn hr with ⟨r₀, h₀, hevent, hat⟩ | ⟨hid, hacked⟩
    · left
      have := hs.marked r₀ h₀ (hat ▸ hp)
      rwa [Row.id, hevent] at this
    · right
      simp [hid, hacked]
  · rw [hids]
    rw [ids_turn, List.mem_append] at hi
    rcases hi with hi | hi
    · exact hs.known i hi
    · obtain ⟨r, hr, hre⟩ := List.mem_map.mp hev
      split at hi
      · obtain rfl := List.mem_singleton.mp hi
        exact List.mem_map.mpr ⟨r, hr, congrArg OutboxEvent.id hre⟩
      · cases hi

/-! ## A pass -/

/-- The publications of some turns. -/
def publications (ts : List (Row × Outcome)) : List Publication :=
  (ts.filter fun t => t.2.acked).map fun t => t.1.publication

theorem map_event_foldl (ts : List (Row × Outcome)) (s : Relay) :
    (ts.foldl (fun s t => turn s t.1 t.2) s).rows.map Row.event = s.rows.map Row.event := by
  induction ts generalizing s with
  | nil => rfl
  | cons t ts ih => rw [List.foldl_cons, ih, map_event_turn]

theorem published_foldl (ts : List (Row × Outcome)) (s : Relay) :
    (ts.foldl (fun s t => turn s t.1 t.2) s).published = s.published ++ publications ts := by
  induction ts generalizing s with
  | nil => simp [publications]
  | cons t ts ih =>
    rw [List.foldl_cons, ih, published_turn]
    cases h : t.2.acked <;> simp [publications, h]

theorem consistent_foldl {ts : List (Row × Outcome)} (hs : s.Consistent)
    (hts : ∀ t ∈ ts, t.1.event ∈ s.rows.map (·.event)) :
    (ts.foldl (fun s t => turn s t.1 t.2) s).Consistent := by
  induction ts generalizing s with
  | nil => exact hs
  | cons t ts ih =>
    refine ih (hs.turn (hts t (by simp))) fun x hx => ?_
    have := hts x (by simp [hx])
    rwa [← @map_event_turn _ t.1 t.2] at this

theorem mem_publications {ts : List (Row × Outcome)} {i : ℕ} :
    i ∈ (publications ts).map (·.id) ↔ ∃ t ∈ ts, t.2.acked = true ∧ t.1.id = i := by
  simp only [publications, List.map_map, List.mem_map, List.mem_filter, and_assoc]
  rfl

/-- The rows of the turns: pending, with increasing ids, and with every pending row of a lower id
than one of them. -/
structure Batch (s : Relay) (ts : List (Row × Outcome)) : Prop where
  mem : ∀ t ∈ ts, t.1 ∈ s.rows
  sorted : ts.Pairwise fun x y => x.1.id < y.1.id
  lower : ∀ t ∈ ts, ∀ r ∈ s.rows, r.processedAt = none → r.id < t.1.id → ∃ x ∈ ts, x.1.id = r.id

/-- An initial part of an increasing list holds what lies below one of its elements. -/
theorem mem_prefix_of_lt {l l' : List Row} (hl : l.Pairwise (·.id < ·.id)) (hp : l' <+: l)
    {x y : Row} (hx : x ∈ l) (hy : y ∈ l') (hxy : x.id < y.id) : x ∈ l' := by
  obtain ⟨rest, rfl⟩ := hp
  rcases List.mem_append.mp hx with hx | hx
  · exact hx
  · have := (List.pairwise_append.mp hl).2.2 y hy x hx
    omega

theorem batch_turns (hs : s.Consistent) (batchSize : ℕ) (outcomes : List Outcome) :
    Batch s (turns batchSize outcomes s) := by
  let pending := (s.rows.filter fun r => r.processedAt.isNone).insertionSort (·.id ≤ ·.id)
  have hfront : (turns batchSize outcomes s).map Prod.fst <+: pending := by
    unfold turns findMany
    rw [List.zip_eq_zip_take_min, List.map_fst_zip (by simp)]
    exact (List.take_prefix _ _).trans (List.take_prefix _ _)
  have hperm := List.perm_insertionSort (·.id ≤ ·.id) (s.rows.filter fun r => r.processedAt.isNone)
  have hmem : ∀ r, r ∈ pending ↔ r ∈ s.rows ∧ r.processedAt = none := by
    intro r
    rw [hperm.mem_iff, List.mem_filter, Option.isNone_iff_eq_none]
  have hsorted : pending.Pairwise (·.id < ·.id) := by
    have hle : pending.Pairwise (·.id ≤ ·.id) := by
      have : Std.Total fun a b : Row => a.id ≤ b.id := ⟨fun a b => le_total a.id b.id⟩
      have : IsTrans Row fun a b => a.id ≤ b.id := ⟨fun _ _ _ => le_trans⟩
      exact List.pairwise_insertionSort _ _
    have hne : pending.Pairwise (·.id ≠ ·.id) := by
      have hsub : ((s.rows.filter fun r => r.processedAt.isNone).map Row.id).Nodup :=
        hs.nodup.sublist (List.filter_sublist.map _)
      exact List.pairwise_map.mp ((hperm.map Row.id).nodup_iff.mpr hsub)
    exact hle.imp₂ (fun _ _ h h' => lt_of_le_of_ne h h') hne
  have hfst : ∀ t ∈ turns batchSize outcomes s, t.1 ∈ (turns batchSize outcomes s).map Prod.fst :=
    fun t ht => List.mem_map_of_mem ht
  refine ⟨fun t ht => ?_, ?_, fun t ht r hr hnone hlt => ?_⟩
  · exact ((hmem t.1).mp (hfront.subset (hfst t ht))).1
  · have := hsorted.sublist hfront.sublist
    rwa [List.pairwise_map] at this
  · have := mem_prefix_of_lt hsorted hfront ((hmem r).mpr ⟨hr, hnone⟩) (hfst t ht) hlt
    obtain ⟨x, hx, rfl⟩ := List.mem_map.mp this
    exact ⟨x, hx, rfl⟩

/-- The last turn of a pass, if its message is acknowledged. -/
theorem afterLower_last (hs : s.Consistent) {ts : List (Row × Outcome)} {t : Row × Outcome}
    (hb : Batch s (ts ++ [t])) :
    AfterLower (s.rows.map Row.event) (s.published ++ publications ts) t.1.publication ↔
      ∀ x ∈ ts, stream x.1.event = stream t.1.event → x.2.acked = false → x.1.id ∈ s.ids := by
  have hlt : ∀ x ∈ ts, x.1.id < t.1.id := fun x hx =>
    (List.pairwise_append.mp hb.sorted).2.2 x hx t (by simp)
  constructor
  · intro h x hx hstream hfailed
    have hrow : x.1.event ∈ s.rows.map Row.event := List.mem_map_of_mem (hb.mem x (by simp [hx]))
    have := h x.1.event hrow hstream (hlt x hx)
    rw [List.map_append, List.mem_append, mem_publications] at this
    rcases this with hin | ⟨y, hy, hacked, hyx⟩
    · exact hin
    · -- no other turn has its id
      obtain rfl : y = x := by
        have hn : (ts.map fun x => x.1.id).Nodup := List.pairwise_map.mpr
          ((List.pairwise_append.mp hb.sorted).1.imp fun h => Nat.ne_of_lt h)
        exact List.inj_on_of_nodup_map hn hy hx hyx
      rw [hfailed] at hacked
      cases hacked
  · intro h ev hev hstream hevlt
    rw [List.map_append, List.mem_append, mem_publications]
    obtain ⟨r, hr, rfl⟩ := List.mem_map.mp hev
    by_cases hnone : r.processedAt = none
    · obtain ⟨x, hx, hxr⟩ := hb.lower t (by simp) r hr hnone hevlt
      have hxts : x ∈ ts := by
        rcases List.mem_append.mp hx with hx | hx
        · exact hx
        · rw [List.mem_singleton.mp hx] at hxr
          exact absurd hevlt (Nat.not_lt.mpr (Nat.le_of_eq hxr))
      have hxrow : x.1 = r := List.inj_on_of_nodup_map hs.nodup (hb.mem x hx) hr hxr
      cases hacked : x.2.acked with
      | true => exact .inr ⟨x, hxts, hacked, hxr⟩
      | false =>
        left
        have := h x hxts (hxrow ▸ hstream) hacked
        rwa [hxrow] at this
    · exact .inl (hs.marked r hr hnone)

/-- **The order of a pass.** Given the rows it works on, what it publishes is in order exactly when
no row is sent after one of its topic and key whose send failed for the first time. -/
theorem justified_publications (hs : s.Consistent) {ts : List (Row × Outcome)} (hb : Batch s ts) :
    Justified (fun before p => AfterLower (s.rows.map Row.event) (s.published ++ before) p)
      (publications ts) ↔
    ts.Pairwise fun x y => stream x.1.event = stream y.1.event → x.2.acked = false →
      y.2.acked = true → x.1.id ∈ s.ids := by
  induction ts using List.reverseRecOn with
  | nil => simp [publications]
  | append_singleton ts t ih =>
    -- the rows before the last turn are again a batch
    have hlt : ∀ x ∈ ts, x.1.id < t.1.id := fun x hx =>
      (List.pairwise_append.mp hb.sorted).2.2 x hx t (by simp)
    have hinit : Batch s ts := by
      refine ⟨fun x hx => hb.mem x (by simp [hx]), (List.pairwise_append.mp hb.sorted).1,
        fun x hx r hr hnone hrx => ?_⟩
      obtain ⟨y, hy, hyr⟩ := hb.lower x (by simp [hx]) r hr hnone hrx
      rcases List.mem_append.mp hy with hy | hy
      · exact ⟨y, hy, hyr⟩
      · have := hlt x hx
        rw [List.mem_singleton.mp hy] at hyr
        omega
    have hpubs : publications (ts ++ [t]) =
        publications ts ++ if t.2.acked then [t.1.publication] else [] := by
      cases h : t.2.acked <;> simp [publications, h]
    rw [List.pairwise_append, hpubs, ← ih hinit]
    cases hacked : t.2.acked with
    | false => simp [hacked]
    | true =>
      simp only [if_true, justified_concat, List.pairwise_singleton, true_and, List.mem_singleton,
        forall_eq, hacked, forall_const]
      exact and_congr_right fun _ => afterLower_last hs hb

theorem inOrder_drainOnce (hs : s.Consistent) (batchSize : ℕ) (outcomes : List Outcome) :
    (drainOnce batchSize outcomes s).InOrder ↔
      s.InOrder ∧ Orderly s (.drain batchSize outcomes) := by
  unfold Relay.InOrder drainOnce
  rw [map_event_foldl, published_foldl, justified_append,
    justified_publications hs (batch_turns hs batchSize outcomes)]
  rfl

theorem consistent_drainOnce (hs : s.Consistent) (batchSize : ℕ) (outcomes : List Outcome) :
    (drainOnce batchSize outcomes s).Consistent :=
  consistent_foldl hs fun t ht =>
    List.mem_map_of_mem ((batch_turns hs batchSize outcomes).mem t ht)

/-! ## Runs -/

/-- A row that commits comes too late if a later one of its topic and key was published. -/
theorem inOrder_commit (hs : s.Consistent) (event : OutboxEvent)
    (headers : Option (List (String × HeaderValue))) :
    (step s (.commit event headers)).InOrder ↔ s.InOrder ∧ Orderly s (.commit event headers) := by
  by_cases hnew : (find? event.id s.rows).isSome
  · simp only [step, Orderly, hnew, if_true, true_or, and_true]
  have hfresh : event.id ∉ s.ids := by
    intro hin
    exact hnew (find?_isSome.mpr (hs.known _ hin))
  simp only [step, Orderly, hnew, Bool.false_eq_true, if_false, false_or]
  constructor
  · intro h
    refine ⟨fun before p after hp ev hev => ?_, fun p hp hstream => ?_⟩
    · refine h before p after hp ev ?_
      rw [List.map_append]
      exact List.mem_append_left _ hev
    · obtain ⟨before, after, hsplit⟩ := List.append_of_mem hp
      by_contra hlt
      have := h before p after hsplit event (by simp) hstream.symm (by omega)
      refine hfresh ?_
      unfold Relay.ids
      rw [hsplit, List.map_append]
      exact List.mem_append_left _ this
  · rintro ⟨h, hlate⟩ before p after hp ev hev hstream hlt
    rw [List.map_append] at hev
    rcases List.mem_append.mp hev with hev | hev
    · exact h before p after hp ev hev hstream hlt
    · obtain rfl := List.mem_singleton.mp hev
      have := hlate p (by simp [show s.published = _ from hp]) hstream.symm
      omega

theorem consistent_commit (hs : s.Consistent) (event : OutboxEvent)
    (headers : Option (List (String × HeaderValue))) :
    (step s (.commit event headers)).Consistent := by
  simp only [step]
  split
  · exact hs
  · rename_i hnew
    have hnone : find? event.id s.rows = none := by simpa using hnew
    refine ⟨?_, fun r hr hp => ?_, fun i hi => ?_⟩
    · exact nodup_map_key_append (r := (⟨event, headers, none, 0, none⟩ : Row)) hs.nodup hnone
    · rcases List.mem_append.mp hr with hr | hr
      · exact hs.marked r hr hp
      · obtain rfl := List.mem_singleton.mp hr
        exact absurd rfl hp
    · rw [List.map_append, List.mem_append]
      exact .inl (hs.known i hi)

/-- **One step**: it keeps the order exactly when it meets the condition. -/
theorem inOrder_step (hs : s.Consistent) (st : Step) :
    (step s st).InOrder ↔ s.InOrder ∧ Orderly s st := by
  cases st with
  | commit event headers => exact inOrder_commit hs event headers
  | drain batchSize outcomes => exact inOrder_drainOnce hs batchSize outcomes

theorem consistent_step (hs : s.Consistent) (st : Step) : (step s st).Consistent := by
  cases st with
  | commit event headers => exact consistent_commit hs event headers
  | drain batchSize outcomes => exact consistent_drainOnce hs batchSize outcomes

theorem run_append (s : Relay) (steps steps' : List Step) :
    run s (steps ++ steps') = run (run s steps) steps' := List.foldl_append

theorem consistent_run (steps : List Step) : (run .empty steps).Consistent := by
  induction steps using List.reverseRecOn with
  | nil => exact ⟨List.nodup_nil, by simp [run, Relay.empty], by simp [run, Relay.empty, Relay.ids]⟩
  | append_singleton steps st ih =>
    rw [run_append]
    exact consistent_step ih st

theorem inOrder_run (steps : List Step) : (run .empty steps).InOrder ↔
    Justified (fun before st => Orderly (run .empty before) st) steps := by
  induction steps using List.reverseRecOn with
  | nil => simp [run, Relay.empty, Relay.InOrder]
  | append_singleton steps st ih =>
    rw [run_append, justified_concat, ← ih]
    exact inOrder_step (consistent_run steps) st

/-- **The order of publication, over every run.** In every state that is reached the rows of a topic
and key are first published in the order of their ids, exactly when every step meets the condition:
no row is committed after a later one of its topic and key was published, and no pass sends a row
after failing to send one of its topic and key that was not published before. -/
theorem publish_order_iff (steps : List Step) :
    (∀ steps', steps' <+: steps → (run .empty steps').InOrder) ↔
      Justified (fun before st => Orderly (run .empty before) st) steps := by
  constructor
  · intro h
    exact (inOrder_run steps).mp (h steps List.prefix_rfl)
  · rintro h steps' ⟨rest, rfl⟩
    exact (inOrder_run steps').mpr h.left

namespace RelaySample

/-- The command to cancel an order, in its row. -/
def cancel (id orderId : ℕ) : OutboxEvent :=
  ⟨id, .ORDER_COMMANDS, "BTC-USDT", .command (.CANCEL ⟨⟨id⟩, orderId, "alice", "BTC-USDT", 0⟩)⟩

/-- Two rows of one market are committed; the broker refuses the first and takes the second. -/
def overtaking : List Step :=
  [.commit (cancel 1 7) none, .commit (cancel 2 8) none,
    .drain 200 [.refused "timeout" true, .sent 0]]

end RelaySample

/-- One refused send is enough for a row to be published before an earlier one of its topic and
key. -/
theorem publish_order_overtaken : ¬∀ steps, (run .empty steps).InOrder := by
  intro h
  have hsplit : (run .empty RelaySample.overtaking).published =
      [] ++ (⟨RelaySample.cancel 2 8, none, none, 0, none⟩ : Row).publication :: [] := by
    decide +kernel
  have := h RelaySample.overtaking [] _ [] hsplit (RelaySample.cancel 1 7) (by decide +kernel) rfl
    (by decide)
  cases this

end OutboxRelay

end Orbit
