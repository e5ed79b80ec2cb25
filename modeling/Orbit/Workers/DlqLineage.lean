import Orbit.Api.AdminDlq
import Orbit.Workers.RetrySpecs

/-!
# The lineage of dead letters

A message that fails goes from its topic, by way of the retry topic or not, to the dead letter
topic, from there into `DlqEvent`, and by a replay back to its topic, any number of times. Its
provenance travels in headers, which `withRetryPolicy`, `retry-30s`, `dlq-monitor` and
`replay` each build anew.

`System` keeps every record that is put on a topic, and a step handles one of them: any record at
any time and any number of times, so that redeliveries, crashes and every pace of the workers are
included. A record carries the id of the row whose replay produced its message, which no step reads;
what the table says is compared with it.

* `lineage`: in every reachable state, every row has the original topic and the payload of the
  message, and is linked to the row whose replay produced the message it mirrors, which has a lower
  id; and every replay puts a message on the topic for which no attempt is counted.
-/

namespace Orbit.Dlq

open Table RetryPolicy

instance : Keyed DlqEvent ℕ := ⟨DlqEvent.id⟩

namespace Lineage

/-- A record, with the id of the row whose replay produced its message, `none` for a message that
was never replayed. -/
structure Copy where
  record : Record
  origin : Option ℕ
  deriving DecidableEq, Repr

inductive Event
  /-- `dlq-monitor` wrote the row `id` for a record. -/
  | mirrored (c : Copy) (id : ℕ)
  /-- A replay of the row `id` put a record on its topic, for which `withRetryPolicy` counts so many
  attempts. -/
  | replayed (id : ℕ) (c : Copy) (attempts : ℕ)
  deriving DecidableEq, Repr

structure System where
  log : List Copy
  mirror : Mirror
  inflightCount : AttemptKey → ℕ
  history : List Event

inductive Step
  /-- The worker handles the record number `i`; a message that is sent gets the place `partition`,
  `offset` of its topic. -/
  | consume (i : ℕ) (outcome : Option Thrown) (now : ℕ) (send : SendResult) (partition offset : ℕ)
  | retry (i : ℕ) (send : SendResult) (partition offset : ℕ)
  | mirror (i : ℕ) (create : Create)
  /-- The row is replayed, whatever it was resolved as when it is sent. -/
  | replay (id : ℕ) (send : SendResult) (partition offset : ℕ)
  /-- The update of a row at the end of a call. -/
  | resolve (id : ℕ) (resolution : Resolution) (admin : String)
  /-- The worker starts again. -/
  | crash
  deriving DecidableEq, Repr

/-- A place of a topic is given once. -/
def System.Free (s : System) (topic : String) (partition offset : ℕ) : Prop :=
  ∀ c ∈ s.log, ¬(c.record.topic = topic ∧ c.record.partition = partition ∧ c.record.offset = offset)

instance (s : System) (topic : String) (partition offset : ℕ) :
    Decidable (s.Free topic partition offset) := inferInstanceAs (Decidable (∀ c ∈ s.log, _))

/-- The records that a send adds, if its place is free. -/
def System.sent (s : System) (message : Option (String × KafkaMessage)) (origin : Option ℕ)
    (partition offset : ℕ) : List Copy :=
  match message with
  | none => []
  | some (topic, message) =>
    if s.Free topic partition offset then [⟨⟨topic, partition, offset, message⟩, origin⟩] else []

/-- One step, for a worker with the policy `cfg` on the topic `main`. -/
def step (cfg : RetryPolicyConfig) (main : Topic) (s : System) : Step → System
  | .consume i outcome now send partition offset =>
    match s.log[i]? with
    | none => s
    | some c =>
      if c.record.topic ≠ main.name ∨ c.record.message.value = none then s
      else
        let h := withRetryPolicy cfg c.record outcome now send s.inflightCount
        { s with
          log := s.log ++ s.sent h.sent c.origin partition offset
          inflightCount := h.inflightCount }
  | .retry i send partition offset =>
    match s.log[i]? with
    | none => s
    | some c =>
      if c.record.topic ≠ DEFAULT_RETRY_TOPIC then s
      else
        { s with
          log := s.log ++ s.sent (retry30s c.record.message send).1 c.origin partition offset }
  | .mirror i create =>
    match s.log[i]? with
    | none => s
    | some c =>
      if c.record.topic ≠ DEFAULT_DLQ_TOPIC then s
      else
        let mirror := eachMessage c.record create s.mirror
        let written := mirror.rows.drop s.mirror.rows.length
        { s with mirror, history := s.history ++ written.map fun row => .mirrored c row.id }
  | .replay id send partition offset =>
    match find? id s.mirror.rows with
    | none => s
    | some row =>
      let message := if send.delivered then some (replayMessage row) else none
      let copies := s.sent message (some row.id) partition offset
      { s with
        log := s.log ++ copies
        history := s.history ++ copies.map fun c => .replayed row.id c
          (s.inflightCount (attemptKey cfg c.record) + parseAttempt c.record.message) }
  | .resolve id resolution admin =>
    { s with
      mirror := { s.mirror with rows := modify id (fun row => { row with
        resolution := some resolution, resolvedBy := some admin }) s.mirror.rows } }
  | .crash => { s with inflightCount := fun _ => 0 }

def run (cfg : RetryPolicyConfig) (main : Topic) (s : System) (steps : List Step) : System :=
  steps.foldl (step cfg main) s

/-- The message has arrived on its topic, and no row is written yet. -/
def System.arrived (r : Record) : System := ⟨[⟨r, none⟩], ⟨[], 1⟩, fun _ => 0, []⟩

/-- **The lineage of a message** of the topic `main` with the payload `value`. -/
structure System.Sound (main : Topic) (value : List UInt8) (s : System) : Prop where
  /-- Rows have the topic and the payload of the message. -/
  payload : ∀ row ∈ s.mirror.rows, row.originalTopic = main.name ∧ row.payload = value
  /-- A row is linked to the row whose replay produced the message that it was written for. -/
  origin : ∀ c id, .mirrored c id ∈ s.history →
    ∃ row ∈ s.mirror.rows, row.id = id ∧ row.replayedFromId = c.origin
  /-- Every row was written for a record. -/
  mirrored : ∀ row ∈ s.mirror.rows, ∃ c, .mirrored c row.id ∈ s.history
  /-- Ids increase in the table. -/
  increasing : s.mirror.rows.Pairwise (·.id < ·.id)
  /-- Ids increase along a chain of replays. -/
  chain : ∀ row ∈ s.mirror.rows, ∀ id ∈ row.replayedFromId,
    ∃ parent ∈ s.mirror.rows, parent.id = id ∧ parent.id < row.id
  /-- A replay puts the payload on its topic, as a message of the row, with no attempt counted. -/
  replayed : ∀ id c attempts, .replayed id c attempts ∈ s.history →
    c.origin = some id ∧ c.record.topic = main.name ∧ c.record.message.value = some value ∧
      attempts = 0

/-! ## Headers -/

/-- The header of the lineage says where the message comes from. -/
def Marked (headers : List Header) (origin : Option ℕ) : Prop :=
  match origin with
  | none => ∀ h ∈ headers, h.name ≠ "x-orbit-replay-of"
  | some id => HasText headers "x-orbit-replay-of" (Nat.repr id)

section Headers

variable {headers : List Header} {origin : Option ℕ}

theorem Marked.withHeader (h : Marked headers origin) (name s : String)
    (hname : "x-orbit-replay-of" ≠ name) : Marked (withHeader name s headers) origin := by
  cases origin with
  | some id => exact HasText.withHeader h name s hname
  | none =>
    intro x hx hxname
    have hfind : (find? "x-orbit-replay-of" (RetryPolicy.withHeader name s headers)).isSome :=
      find?_isSome.mpr (List.mem_map.mpr ⟨x, hx, hxname⟩)
    rw [find?_withHeader, if_neg hname, find?_isSome] at hfind
    obtain ⟨y, hy, hyname⟩ := List.mem_map.mp hfind
    exact h y hy hyname

theorem Marked.materializeHeaders (h : Marked headers origin) :
    Marked (materializeHeaders headers) origin := by
  cases origin with
  | some id => exact HasText.materializeHeaders h
  | none => exact fun x hx => h x (List.mem_of_mem_filter hx)

theorem Marked.escalation {r : Record} (h : Marked r.message.headers origin)
    (cfg : RetryPolicyConfig)
    (err : Thrown) (total : ℕ) (retryAfter : Option ℕ) :
    Marked (escalation cfg r err total retryAfter).headers origin := by
  have hheaders := h.materializeHeaders
    |>.withHeader "x-orbit-original-topic" r.topic (by decide)
    |>.withHeader "x-orbit-original-partition" (Nat.repr r.partition) (by decide)
    |>.withHeader "x-orbit-original-offset" (Nat.repr r.offset) (by decide)
    |>.withHeader "x-orbit-attempt" (Nat.repr (total + 1)) (by decide)
    |>.withHeader "x-orbit-last-error" (truncate (formatError err) 1000) (by decide)
    |>.withHeader "x-orbit-worker" cfg.worker (by decide)
  cases retryAfter with
  | none => exact hheaders
  | some t => exact hheaders.withHeader "x-orbit-retry-after" (Nat.repr t) (by decide)

/-- What `dlq-monitor` reads out of the headers. -/
theorem Marked.replayedFrom (h : Marked headers origin) : replayedFrom headers = origin := by
  cases origin with
  | some id =>
    simp only [Dlq.replayedFrom, HasText.readHeader h, if_neg (repr_ne id), number_repr]
  | none =>
    have hfind : find? "x-orbit-replay-of" headers = none := find?_eq_none.mpr h
    simp [Dlq.replayedFrom, readHeader, hfind]

/-- The message of a replay says which row it is of, and counts for no attempt. -/
theorem marked_replayMessage (row : DlqEvent) :
    Marked (replayMessage row).2.headers (some row.id) ∧
    parseAttempt (replayMessage row).2 = 0 := by
  refine ⟨hasText_withHeader _ _ _, ?_⟩
  have hfind : find? "x-orbit-attempt" (replayMessage row).2.headers = none := by
    simp only [replayMessage]
    rw [find?_withHeader, if_neg (by decide)]
    split
    · rfl
    · rw [find?_withHeader, if_neg (by decide)]
      rfl
  simp [parseAttempt, readHeader, hfind]

end Headers

/-! ## Steps -/

/-- What holds of every record. -/
structure Copy.Sound (main : Topic) (value : List UInt8)
    (rows : List DlqEvent) (c : Copy) : Prop where
  value : c.record.message.value = some value
  marked : Marked c.record.message.headers c.origin
  /-- A record on another topic says where it comes from. -/
  topic : c.record.topic = main.name ∨
    HasText c.record.message.headers "x-orbit-original-topic" main.name
  parent : ∀ id ∈ c.origin, id ∈ rows.map DlqEvent.id

/-- What holds of every reachable state. -/
structure System.Invariant (cfg : RetryPolicyConfig) (main : Topic)
    (value : List UInt8) (s : System) :
    Prop where
  copies : ∀ c ∈ s.log, c.Sound main value s.mirror.rows
  sound : s.Sound main value
  ids : ∀ row ∈ s.mirror.rows, row.id < s.mirror.nextId
  /-- Attempts are counted for records of the log. -/
  counts : ∀ key, s.inflightCount key ≠ 0 → ∃ c ∈ s.log, attemptKey cfg c.record = key

section Steps

variable {main : Topic} {value : List UInt8} {s : System} {worker : String} {n : ℕ}
  {classify : Thrown → ErrorKind}

theorem mem_sent {message : Option (String × KafkaMessage)}
    {origin : Option ℕ} {partition offset : ℕ}
    {c : Copy} (h : c ∈ s.sent message origin partition offset) :
    ∃ topic m, message = some (topic, m) ∧ s.Free topic partition offset ∧
      c = ⟨⟨topic, partition, offset, m⟩, origin⟩ := by
  unfold System.sent at h
  split at h
  · exact absurd h List.not_mem_nil
  · split at h
    · rename_i hfree
      exact ⟨_, _, rfl, hfree, List.mem_singleton.mp h⟩
    · exact absurd h List.not_mem_nil

/-- Sound records are sent, and attempts are counted for a record of the log. -/
theorem System.Invariant.send {cfg : RetryPolicyConfig} (hs : s.Invariant cfg main value)
    (copies : List Copy) (hcopies : ∀ c ∈ copies, c.Sound main value s.mirror.rows)
    (inflightCount : AttemptKey → ℕ)
    (hcounts : ∀ key, inflightCount key ≠ s.inflightCount key → ∃ c ∈ s.log,
      attemptKey cfg c.record = key) :
    ({ s with log := s.log ++ copies, inflightCount } : System).Invariant cfg main value := by
  refine ⟨fun c hc => ?_, ?_, hs.ids, fun key hkey => ?_⟩
  · rcases List.mem_append.mp hc with hc | hc
    · exact hs.copies c hc
    · exact hcopies c hc
  · exact ⟨hs.sound.payload, hs.sound.origin, hs.sound.mirrored,
      hs.sound.increasing, hs.sound.chain,
      hs.sound.replayed⟩
  · have hold : ∃ c ∈ s.log, attemptKey cfg c.record = key := by
      by_cases h : inflightCount key = s.inflightCount key
      · exact hs.counts key (h ▸ hkey)
      · exact hcounts key h
    obtain ⟨c, hc, e⟩ := hold
    exact ⟨c, List.mem_append_left _ hc, e⟩

theorem invariant_consume (hs : s.Invariant (policy worker n classify) main value) (i : ℕ)
    (outcome : Option Thrown) (now : ℕ) (send : SendResult) (partition offset : ℕ) :
    (step (policy worker n classify) main s
      (.consume i outcome now send partition offset)).Invariant
      (policy worker n classify) main value := by
  simp only [step]
  cases hi : s.log[i]? with
  | none => exact hs
  | some c =>
    dsimp only
    split
    · exact hs
    rename_i htopic
    rw [not_or, not_not] at htopic
    have hc := hs.copies c (List.mem_of_getElem? hi)
    refine hs.send _ (fun c' hc' => ?_) _ fun key hkey => ⟨c, List.mem_of_getElem? hi, ?_⟩
    · obtain ⟨topic, m, hsent, -, rfl⟩ := mem_sent hc'
      obtain ⟨-, err, total, retryAfter, rfl⟩ := sent_withRetryPolicy hsent
      exact ⟨hc.value, hc.marked.escalation _ err total retryAfter,
        .inr (htopic.1 ▸ (hasText_escalation _ c.record err total retryAfter).1), hc.parent⟩
    · by_contra hne
      exact hkey (inflightCount_withRetryPolicy (Ne.symm hne) ..)

theorem invariant_retry {cfg : RetryPolicyConfig} (hs : s.Invariant cfg main value) (i : ℕ)
    (send : SendResult) (partition offset : ℕ) :
    (step cfg main s (.retry i send partition offset)).Invariant cfg main value := by
  simp only [step]
  cases hi : s.log[i]? with
  | none => exact hs
  | some c =>
    dsimp only
    split
    · exact hs
    rename_i htopic
    rw [not_not] at htopic
    have hc := hs.copies c (List.mem_of_getElem? hi)
    have horig := hc.topic.resolve_left fun h =>
      (Topic.name_ne main).1 (h.symm.trans htopic)
    refine hs.send _ (fun c' hc' => ?_) _ fun key hkey => absurd rfl hkey
    obtain ⟨topic, m, hsent, -, rfl⟩ := mem_sent hc'
    rw [retry30s_of_hasText (by simp [hc.value]) horig (Topic.name_ne main).2.2] at hsent
    split at hsent
    · obtain ⟨rfl, rfl⟩ := Prod.mk.inj (Option.some.inj hsent)
      exact ⟨hc.value, hc.marked.materializeHeaders, .inl rfl, hc.parent⟩
    · cases hsent

/-- The columns of the row of a record. -/
theorem row_data {rows : List DlqEvent} {c : Copy} (hc : c.Sound main value rows)
    (htopic : c.record.topic = DEFAULT_DLQ_TOPIC) (id : ℕ) :
    ((data c.record value).row id).originalTopic = main.name ∧
      ((data c.record value).row id).replayedFromId = c.origin := by
  have horig := hc.topic.resolve_left fun h => (Topic.name_ne main).2.1 (h.symm.trans htopic)
  refine ⟨?_, hc.marked.materializeHeaders.replayedFrom⟩
  simp only [Data.row, data, horig.materializeHeaders.readHeader, Option.getD_some]

/-- A row is written for a record. -/
theorem System.Invariant.write {cfg : RetryPolicyConfig}
    (hs : s.Invariant cfg main value) {c : Copy}
    (hc : c.Sound main value s.mirror.rows) {row : DlqEvent} (hid : row.id = s.mirror.nextId)
    (htopic : row.originalTopic = main.name) (hpayload : row.payload = value)
    (horigin : row.replayedFromId = c.origin) :
    ({ s with
      mirror := ⟨s.mirror.rows ++ [row], s.mirror.nextId + 1⟩
      history := s.history ++ [.mirrored c row.id] } : System).Invariant cfg main value := by
  have hnew : ∀ row' ∈ s.mirror.rows, row'.id < row.id := fun row' h => hid ▸ hs.ids row' h
  have hmem : ∀ row' ∈ s.mirror.rows ++ [row], row' ∈ s.mirror.rows ∨ row' = row := fun row' h =>
    (List.mem_append.mp h).imp_right List.mem_singleton.mp
  refine ⟨fun c' hc' => ?_, ⟨fun row' h => ?_, fun c' id h => ?_, fun row' h => ?_, ?_,
    fun row' h id hid' => ?_, fun id c' attempts h => ?_⟩, fun row' h => ?_, hs.counts⟩
  · have hold := hs.copies c' hc'
    refine ⟨hold.value, hold.marked, hold.topic, fun id hid' => ?_⟩
    rw [List.map_append]
    exact List.mem_append_left _ (hold.parent id hid')
  · rcases hmem row' h with h | rfl
    · exact hs.sound.payload row' h
    · exact ⟨htopic, hpayload⟩
  · rcases List.mem_append.mp h with h | h
    · obtain ⟨row', hrow', e⟩ := hs.sound.origin c' id h
      exact ⟨row', List.mem_append_left _ hrow', e⟩
    · obtain ⟨rfl, rfl⟩ := Event.mirrored.inj (List.mem_singleton.mp h)
      exact ⟨row, List.mem_append_right _ List.mem_cons_self, rfl, horigin⟩
  · rcases hmem row' h with h | rfl
    · obtain ⟨c', hc'⟩ := hs.sound.mirrored row' h
      exact ⟨c', List.mem_append_left _ hc'⟩
    · exact ⟨c, List.mem_append_right _ List.mem_cons_self⟩
  · refine List.pairwise_append.mpr ⟨hs.sound.increasing, List.pairwise_singleton .., ?_⟩
    intro row' h row'' h'
    rw [List.mem_singleton.mp h']
    exact hnew row' h
  · rcases hmem row' h with h | rfl
    · obtain ⟨parent, hparent, e⟩ := hs.sound.chain row' h id hid'
      exact ⟨parent, List.mem_append_left _ hparent, e⟩
    · rw [horigin] at hid'
      obtain ⟨parent, hparent, e⟩ := List.mem_map.mp (hc.parent id hid')
      exact ⟨parent, List.mem_append_left _ hparent, e, hnew parent hparent⟩
  · rcases List.mem_append.mp h with h | h
    · exact hs.sound.replayed id c' attempts h
    · cases List.mem_singleton.mp h
  · rcases hmem row' h with h | rfl
    · exact (hs.ids row' h).trans (Nat.lt_succ_self _)
    · exact hid ▸ Nat.lt_succ_self _

theorem invariant_mirror {cfg : RetryPolicyConfig} (hs : s.Invariant cfg main value) (i : ℕ)
    (create : Create) : (step cfg main s (.mirror i create)).Invariant cfg main value := by
  simp only [step]
  cases hi : s.log[i]? with
  | none => exact hs
  | some c =>
    dsimp only
    split
    · exact hs
    rename_i htopic
    rw [not_not] at htopic
    have hc := hs.copies c (List.mem_of_getElem? hi)
    obtain ⟨horiginal, horigin⟩ := row_data hc htopic s.mirror.nextId
    simp only [eachMessage, hc.value, insert]
    split
    · split
      · simpa using hs.write hc rfl horiginal rfl horigin
      · simpa using (⟨hs.copies, ⟨hs.sound.payload, hs.sound.origin, hs.sound.mirrored,
          hs.sound.increasing, hs.sound.chain, hs.sound.replayed⟩,
          fun row h => (hs.ids row h).trans (Nat.lt_succ_self _), hs.counts⟩ :
          ({ s with mirror := { s.mirror with nextId := s.mirror.nextId + 1 } } : System).Invariant
            cfg main value)
    · simpa using hs

theorem invariant_replay {cfg : RetryPolicyConfig} (hs : s.Invariant cfg main value) (id : ℕ)
    (send : SendResult) (partition offset : ℕ) :
    (step cfg main s (.replay id send partition offset)).Invariant cfg main value := by
  simp only [step]
  cases hrow : find? id s.mirror.rows with
  | none => exact hs
  | some row =>
    dsimp only
    obtain ⟨htopic, hpayload⟩ := hs.sound.payload row (mem_of_find? hrow)
    obtain ⟨hmarked, hattempts⟩ := marked_replayMessage row
    -- the record that is sent
    have hsent : ∀ c ∈ s.sent (if send.delivered = true then some (replayMessage row) else none)
        (some row.id) partition offset, c = ⟨⟨main.name, partition, offset, (replayMessage row).2⟩,
          some row.id⟩ ∧ s.Free main.name partition offset := by
      intro c hc
      obtain ⟨topic, m, hm, hfree, rfl⟩ := mem_sent hc
      split at hm
      · have hm := Option.some.inj hm
        obtain rfl : main.name = topic := htopic.symm.trans (congrArg Prod.fst hm)
        exact ⟨by rw [hm], hfree⟩
      · cases hm
    generalize s.sent (if send.delivered = true then some (replayMessage row) else none)
      (some row.id) partition offset = copies at hsent
    have hsend := hs.send copies (fun c hc => ?_) s.inflightCount (fun key hkey => absurd rfl hkey)
    · refine ⟨hsend.copies, ⟨hs.sound.payload, fun c id' h => ?_, fun row' h => ?_,
        hs.sound.increasing, hs.sound.chain, fun id' c attempts h => ?_⟩, hs.ids, hsend.counts⟩
      · rcases List.mem_append.mp h with h | h
        · exact hs.sound.origin c id' h
        · obtain ⟨c', -, e⟩ := List.mem_map.mp h
          cases e
      · obtain ⟨c, hc⟩ := hs.sound.mirrored row' h
        exact ⟨c, List.mem_append_left _ hc⟩
      · rcases List.mem_append.mp h with h | h
        · exact hs.sound.replayed id' c attempts h
        · obtain ⟨c', hc', e⟩ := List.mem_map.mp h
          obtain ⟨rfl, rfl, rfl⟩ := Event.replayed.inj e
          obtain ⟨rfl, hfree⟩ := hsent c' hc'
          -- nothing is counted for a place that is new
          have hcount : s.inflightCount (attemptKey cfg
              ⟨main.name, partition, offset, (replayMessage row).2⟩) = 0 := by
            by_contra hne
            obtain ⟨c, hc, hkey⟩ := hs.counts _ hne
            exact hfree c hc ⟨congrArg AttemptKey.topic hkey, congrArg AttemptKey.partition hkey,
              congrArg AttemptKey.offset hkey⟩
          exact ⟨rfl, rfl, congrArg some hpayload, by rw [hcount, hattempts]⟩
    · obtain ⟨rfl, -⟩ := hsent c hc
      refine ⟨congrArg some hpayload, hmarked, .inl rfl, fun id' hid' => ?_⟩
      obtain rfl := Option.some.inj hid'
      exact List.mem_map_of_mem (mem_of_find? hrow)

/-- The columns that a resolution leaves alone. -/
def written (row : DlqEvent) : ℕ × String × List UInt8 × Option ℕ :=
  (row.id, row.originalTopic, row.payload, row.replayedFromId)

theorem invariant_resolve {cfg : RetryPolicyConfig} (hs : s.Invariant cfg main value) (id : ℕ)
    (resolution : Resolution) (admin : String) :
    (step cfg main s (.resolve id resolution admin)).Invariant cfg main value := by
  simp only [step]
  have hmap := map_modify (k := id) (g := written) (f := fun row : DlqEvent => { row with
    resolution := some resolution, resolvedBy := some admin }) (fun _ => rfl) s.mirror.rows
  generalize modify id _ s.mirror.rows = rows at hmap
  have hold : ∀ row ∈ rows, ∃ row₀ ∈ s.mirror.rows, written row₀ = written row := fun row h =>
    List.mem_map.mp (hmap ▸ List.mem_map_of_mem h)
  have hnew : ∀ row₀ ∈ s.mirror.rows, ∃ row ∈ rows, written row = written row₀ := fun row h =>
    List.mem_map.mp (hmap ▸ List.mem_map_of_mem h)
  have hids : rows.map DlqEvent.id = s.mirror.rows.map DlqEvent.id := by
    have := congrArg (List.map Prod.fst) hmap
    rwa [List.map_map, List.map_map] at this
  refine ⟨fun c hc => ?_, ⟨fun row h => ?_, fun c id' h => ?_, fun row h => ?_, ?_,
    fun row h id' hid' => ?_, hs.sound.replayed⟩, fun row h => ?_, hs.counts⟩
  · have hc := hs.copies c hc
    exact ⟨hc.value, hc.marked, hc.topic, fun id' hid' => hids ▸ hc.parent id' hid'⟩
  · obtain ⟨row₀, h₀, e⟩ := hold row h
    simp only [written, Prod.mk.injEq] at e
    obtain ⟨ht, hp⟩ := hs.sound.payload row₀ h₀
    exact ⟨e.2.1 ▸ ht, e.2.2.1 ▸ hp⟩
  · obtain ⟨row₀, h₀, hid', horigin⟩ := hs.sound.origin c id' h
    obtain ⟨row, hrow, e⟩ := hnew row₀ h₀
    simp only [written, Prod.mk.injEq] at e
    exact ⟨row, hrow, e.1.trans hid', e.2.2.2.trans horigin⟩
  · obtain ⟨row₀, h₀, e⟩ := hold row h
    simp only [written, Prod.mk.injEq] at e
    exact e.1 ▸ hs.sound.mirrored row₀ h₀
  · have := hs.sound.increasing
    rw [← List.pairwise_map (f := DlqEvent.id) (R := (· < ·))] at this ⊢
    rwa [hids]
  · obtain ⟨row₀, h₀, e⟩ := hold row h
    simp only [written, Prod.mk.injEq] at e
    obtain ⟨parent₀, hp₀, hid₀, hlt⟩ := hs.sound.chain row₀ h₀ id' (e.2.2.2 ▸ hid')
    obtain ⟨parent, hp, e'⟩ := hnew parent₀ hp₀
    simp only [written, Prod.mk.injEq] at e'
    exact ⟨parent, hp, e'.1.trans hid₀, e'.1 ▸ e.1 ▸ hlt⟩
  · obtain ⟨row₀, h₀, e⟩ := hold row h
    simp only [written, Prod.mk.injEq] at e
    exact e.1 ▸ hs.ids row₀ h₀

/-- **One step.** -/
theorem invariant_step (hs : s.Invariant (policy worker n classify) main value) (st : Step) :
    (step (policy worker n classify) main s st).Invariant
    (policy worker n classify) main value := by
  cases st with
  | consume i outcome now send partition offset =>
    exact invariant_consume hs i outcome now send partition offset
  | retry i send partition offset => exact invariant_retry hs i send partition offset
  | mirror i create => exact invariant_mirror hs i create
  | replay id send partition offset => exact invariant_replay hs id send partition offset
  | resolve id resolution admin => exact invariant_resolve hs id resolution admin
  | crash => exact ⟨hs.copies, ⟨hs.sound.payload, hs.sound.origin, hs.sound.mirrored,
      hs.sound.increasing, hs.sound.chain, hs.sound.replayed⟩, hs.ids, fun key h => absurd rfl h⟩

theorem invariant_run (hs : s.Invariant (policy worker n classify) main value) (steps : List Step) :
    (run (policy worker n classify) main s steps).Invariant
    (policy worker n classify) main value := by
  induction steps generalizing s with
  | nil => exact hs
  | cons st steps ih => exact ih (invariant_step hs st)

end Steps

/-- **Lineage and payload survive any number of failure cycles**, for a message that has not been
replayed when it arrives. -/
theorem lineage (worker : String) (n : ℕ) (classify : Thrown → ErrorKind) (main : Topic)
    (partition offset : ℕ) (key : Option String) (value : List UInt8) (headers : List Header)
    (hheaders : ∀ h ∈ headers, h.name ≠ "x-orbit-replay-of") (steps : List Step) :
    (run (policy worker n classify) main
      (.arrived ⟨main.name, partition, offset, ⟨key, some value, headers⟩⟩)
      steps).Sound main value := by
  refine (invariant_run ⟨fun c hc => ?_, ?_, fun row h => absurd h List.not_mem_nil,
    fun key h => absurd rfl h⟩ steps).sound
  · rw [List.mem_singleton.mp hc]
    exact ⟨rfl, hheaders, .inl rfl, fun id hid => nomatch hid⟩
  · exact ⟨fun row h => absurd h List.not_mem_nil, fun c id h => absurd h List.not_mem_nil,
      fun row h => absurd h List.not_mem_nil, .nil, fun row h => absurd h List.not_mem_nil,
      fun id c attempts h => absurd h List.not_mem_nil⟩

namespace LineageSample

/-- A message without headers on the topic of user events. -/
def failing : Record := ⟨Topic.USER_EVENTS.name, 0, 17, ⟨some "alice", some [123, 125], []⟩⟩

def refused : Thrown := .error "Error" "connect ECONNREFUSED"

/-- The message fails twice in its first stay, is retried, fails and is mirrored; it is replayed,
and fails in the same way again. -/
def cycles : List Step :=
  [.consume 0 (some refused) 0 .acked 0 0, .consume 0 (some refused) 0 .acked 0 0,
    .consume 0 (some refused) 0 .acked 0 0, .retry 1 .acked 0 18,
    .consume 2 (some refused) 0 .acked 0 0,
    .mirror 3 .answered, .replay 1 .acked 0 19, .resolve 1 .replayed "admin",
    .consume 4 (some refused) 0 .acked 0 1, .consume 4 (some refused) 0 .acked 0 1,
    .consume 4 (some refused) 0 .acked 0 1, .retry 5 .acked 0 20,
      .consume 6 (some refused) 0 .acked 0 1,
    .mirror 7 .answered]

end LineageSample

/-- The second row is linked to the first. -/
theorem lineage_cycles :
    let s := run (policy "notification" 2 fun _ => .transient) .USER_EVENTS
      (.arrived LineageSample.failing) LineageSample.cycles
    s.mirror.rows.map (fun row => (row.id, row.replayedFromId)) = [(1, none), (2, some 1)] ∧
      s.Sound .USER_EVENTS [123, 125] :=
  ⟨by decide +kernel, lineage "notification" 2 (fun _ => .transient) .USER_EVENTS 0 17
    (some "alice") [123, 125] [] (fun h hh => absurd hh List.not_mem_nil) LineageSample.cycles⟩

end Lineage

end Orbit.Dlq
