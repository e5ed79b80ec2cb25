import Orbit.Foundations.History
import Orbit.Workers.EventHandlers

/-!
# The orderbook feed

The snapshots of a market on their way from the orderbook topic to the Redis channel: the handler of
`apps/workers/src/market-data-fanout/index.ts` with its whole stack, and the `retry-30s` worker,
which puts what the handler gave up back on the same topic.

`System` is the topic with the position of the consumer in each partition, the messages that wait
on the retry topic, the keys in Redis and what was published. A partition is consumed in its
order, an offset again and again until an invocation returns. A message is on the partition of its
key, which is the symbol of the market, and so is one that comes back. What goes to the dead
letter queue is out of it.

* `feed_in_order`: if the topic is given every market's snapshots in the order of their `seq`, they
  are published in that order, whatever fails, in every run in which no snapshot is put back on the
  topic when there is a newer one of its market on it.
-/

namespace Orbit.OrderbookFeed

open RetryPolicy EventHandlers Json

/-! ## Snapshots -/

/-- The event that a handler parses. -/
def event (message : KafkaMessage) : Option Value :=
  message.value.bind fun bytes => parse (decode bytes)

def market (evt : Value) : Option (List ℕ) :=
  match evt.property "market" with
  | some (.string s) => some s
  | _ => none

def seq (evt : Value) : Option ℕ :=
  match evt.property "seq" with
  | some (.number literal) => number (String.ofList literal)
  | _ => none

/-- The market and the `seq` of an orderbook event under its key. -/
def snapshot (message : KafkaMessage) : Option (String × ℕ) :=
  match message.key, event message with
  | some symbol, some evt =>
    if market evt = some (text symbol) then (seq evt).map (symbol, ·) else none
  | _, _ => none

/-- The second snapshot is not of the market of the first, or it is not older. -/
def NotOlder (x y : String × ℕ) : Prop := x.1 = y.1 → x.2 ≤ y.2

/-- **The feed does not go backwards**: of each market the snapshots come with increasing `seq`. -/
def InOrder (published : List KafkaMessage) : Prop :=
    (published.filterMap snapshot).Pairwise NotOlder

/-! ## The worker -/

/-- How `SET … NX` ends. -/
inductive SetAnswer
  | ok
  | threw (applied : Bool)
  deriving DecidableEq, Repr

/-- How `redis.publish` ends. -/
inductive PublishAnswer
  | ok
  /-- It throws; the message may have been published all the same. -/
  | threw (err : Thrown) (reached : Bool)
  deriving DecidableEq, Repr

def PublishAnswer.error : PublishAnswer → Option Thrown
  | .ok => none
  | .threw err _ => some err

def PublishAnswer.reached : PublishAnswer → Bool
  | .ok => true
  | .threw _ reached => reached

/-- How the calls of one invocation end. -/
structure Answers where
  set : SetAnswer
  publish : PublishAnswer
  /-- Whether a `DEL` removes the key. -/
  del : Bool
  send : SendResult
  now : ℕ
  deriving DecidableEq, Repr

/-- The key of an event, whose id is a string if it has one. -/
def dedupeKey (evt : Value) : Option (List ℕ) :=
  match evt.property "eventId" with
  | some (.string s) => if s = [] then none else some (text "dedupe:market-data-fanout:" ++ s)
  | _ => none

/-- Whether the key is set; `none` if Redis does not say. -/
def Answers.acquired (a : Answers) (evt : Value) (redis : List (List ℕ)) : Option Bool :=
  match a.set with
  | .threw _ => none
  | .ok =>
    match dedupeKey evt with
    | none => some true
    | some key => some (key ∉ redis)

/-- Whether the snapshot is published: the event is not `null`, its key was not there,
and Redis takes it. -/
def Answers.publishes (a : Answers) (evt : Value) (redis : List (List ℕ)) : Bool :=
  match evt with
  | .null => false
  | evt => a.acquired evt redis ≠ some false ∧ a.publish.reached

/-- The keys in Redis after `withDedupe`: a handler that throws has its key removed. -/
def Answers.keys (a : Answers) (evt : Value) (redis : List (List ℕ)) : List (List ℕ) :=
  match dedupeKey evt with
  | none => redis
  | some key =>
    match a.set with
    | .threw applied => if applied then key :: redis else redis
    | .ok =>
      if key ∈ redis then redis
      else if a.publish.error.isSome ∧ a.del then redis
      else key :: redis

structure System where
  /-- The orderbook topic, oldest message first. -/
  topic : List Record
  /-- How many messages of a partition the consumer has moved past. -/
  position : ℕ → ℕ
  /-- The messages on the retry topic that `retry-30s` has not moved past. -/
  retries : List KafkaMessage
  redis : List (List ℕ)
  inflightCount : AttemptKey → ℕ
  /-- The messages whose snapshot was published. -/
  published : List KafkaMessage

def System.empty : System := ⟨[], fun _ => 0, [], [], fun _ => 0, []⟩

def System.partition (s : System) (p : ℕ) : List Record := s.topic.filter (·.partition = p)

/-- A message is put on the orderbook topic. -/
def System.append (partitioner : Option String → ℕ) (s : System)
    (message : KafkaMessage) : System :=
  let p := partitioner message.key
  { s with topic := s.topic ++ [⟨Topic.ORDERBOOK.name, p, (s.partition p).length, message⟩] }

/-- An invocation of the handler, on an event. -/
def System.handle (cfg : RetryPolicyConfig) (s : System) (r : Record) (evt : Value) (a : Answers) :
    System :=
  let outcome := EventHandlers.handle (publication r) evt ⟨a.acquired evt s.redis, a.publish.error⟩
  let h := withRetryPolicy cfg r outcome a.now a.send s.inflightCount
  { s with
    position := if h.returned then
      Function.update s.position r.partition (s.position r.partition + 1) else s.position
    retries := s.retries ++
      (h.sent.toList.filter fun (topic, _) => topic = DEFAULT_RETRY_TOPIC).map Prod.snd
    redis := a.keys evt s.redis
    inflightCount := h.inflightCount
    published := s.published ++ if a.publishes evt s.redis then [r.message] else [] }

inductive Step
  /-- The relay puts a message on the topic. -/
  | deliver (message : KafkaMessage)
  /-- The worker is given the next message of a partition. -/
  | consume (partition : ℕ) (a : Answers)
  /-- `retry-30s` is given the waiting message number `i`. -/
  | republish (i : ℕ) (send : SendResult)
  /-- A key expires. -/
  | expire (key : List ℕ)
  deriving DecidableEq, Repr

def step (cfg : RetryPolicyConfig) (partitioner : Option String → ℕ) (s : System) : Step → System
  | .deliver message => s.append partitioner message
  | .consume p a =>
    match (s.partition p)[s.position p]? with
    | none => s
    | some r =>
      match r.message.value with
      | none => { s with position := Function.update s.position p (s.position p + 1) }
      | some bytes =>
        match parse (decode bytes) with
        | none => s
        | some evt => s.handle cfg r evt a
  | .republish i send =>
    match s.retries[i]? with
    | none => s
    | some message =>
      let (sent, returned) := retry30s message send
      let s := if returned then { s with retries := s.retries.eraseIdx i } else s
      match sent with
      | none => s
      | some (topic, message) =>
        if topic = Topic.ORDERBOOK.name then s.append partitioner message else s
  | .expire key => { s with redis := s.redis.filter (· ≠ key) }

def run (cfg : RetryPolicyConfig) (partitioner : Option String → ℕ)
    (s : System) (steps : List Step) :
    System :=
  steps.foldl (step cfg partitioner) s

/-- The topic is given snapshots, under the symbol of their market, each newer than those of the
market that are on it. -/
def Delivered (s : System) : Step → Prop
  | .deliver message => ∃ x ∈ snapshot message,
      ∀ r ∈ s.topic, ∀ y ∈ snapshot r.message, y.1 = x.1 → y.2 < x.2
  | _ => True

/-- The condition on a step: a snapshot that is put back on the topic finds no newer one
of its market there. -/
def Fresh (s : System) : Step → Prop
  | .republish i send => ∀ message ∈ s.retries[i]?, send.delivered = true →
      ∀ x ∈ snapshot message, ∀ r ∈ s.topic, ∀ y ∈ snapshot r.message, NotOlder y x
  | _ => True

instance : DecidableRel NotOlder := fun x y => inferInstanceAs (Decidable (x.1 = y.1 → x.2 ≤ y.2))

instance (published : List KafkaMessage) : Decidable (InOrder published) :=
  inferInstanceAs (Decidable (List.Pairwise _ _))

instance (s : System) : (st : Step) → Decidable (Delivered s st)
  | .deliver message => inferInstanceAs (Decidable (∃ x ∈ snapshot message, _))
  | .consume _ _ | .republish _ _ | .expire _ => inferInstanceAs (Decidable True)

instance (s : System) : (st : Step) → Decidable (Fresh s st)
  | .republish i _ => inferInstanceAs (Decidable (∀ message ∈ s.retries[i]?, _))
  | .deliver _ | .consume _ _ | .expire _ => inferInstanceAs (Decidable True)

section Runs

variable {cfg : RetryPolicyConfig} {partitioner : Option String → ℕ} {s : System}

/-- What is on the topic lies in the partition of its market, no snapshot after a newer one; what is
published is on the topic, and nothing the consumer has not moved past is older. -/
structure System.Invariant (partitioner : Option String → ℕ) (s : System) : Prop where
  sound : ∀ r ∈ s.topic, r.topic = Topic.ORDERBOOK.name ∧ r.partition = partitioner r.message.key ∧
    (snapshot r.message).isSome
  retried : ∀ m ∈ s.retries, (snapshot m).isSome ∧
    HasText m.headers "x-orbit-original-topic" Topic.ORDERBOOK.name
  ordered : InOrder (s.topic.map (·.message))
  known : ∀ m ∈ s.published, ∃ r ∈ s.topic, r.message = m
  behind : ∀ m ∈ s.published, ∀ p, ∀ r ∈ (s.partition p).drop (s.position p),
    InOrder [m, r.message]
  published : InOrder s.published

theorem System.Invariant.empty : System.empty.Invariant partitioner := by
  refine ⟨?_, ?_, List.Pairwise.nil, ?_, ?_, List.Pairwise.nil⟩
  all_goals exact fun x hx => absurd hx List.not_mem_nil

/-! ## Orders -/

theorem inOrder_pair {m m' : KafkaMessage} :
    InOrder [m, m'] ↔ ∀ x ∈ snapshot m, ∀ y ∈ snapshot m', NotOlder x y := by
  unfold InOrder
  rcases hm : snapshot m with _ | x <;> rcases hm' : snapshot m' with _ | y <;>
    simp [hm, hm']

theorem inOrder_concat {ms : List KafkaMessage} {m : KafkaMessage} :
    InOrder (ms ++ [m]) ↔ InOrder ms ∧ ∀ m' ∈ ms, InOrder [m', m] := by
  simp only [inOrder_pair]
  unfold InOrder
  rw [List.filterMap_append, List.pairwise_append]
  constructor
  · rintro ⟨h, -, hcross⟩
    exact ⟨h, fun m' hm' x hx y hy =>
      hcross x (List.mem_filterMap.mpr ⟨m', hm', hx⟩) y (List.mem_filterMap.mpr ⟨m, by simp, hy⟩)⟩
  · rintro ⟨h, hcross⟩
    refine ⟨h, by rcases hm : snapshot m with _ | y <;> simp [hm], fun x hx y hy => ?_⟩
    obtain ⟨m', hm', hx⟩ := List.mem_filterMap.mp hx
    obtain ⟨m'', hm'', hy⟩ := List.mem_filterMap.mp hy
    rw [List.mem_singleton.mp hm''] at hy
    exact hcross m' hm' x hx y hy

theorem InOrder.sublist {ms ms' : List KafkaMessage} (h : InOrder ms) (hsub : ms'.Sublist ms) :
    InOrder ms' :=
  List.Pairwise.sublist (hsub.filterMap snapshot) h

theorem inOrder_self (m : KafkaMessage) : InOrder [m, m] := by
  rw [inOrder_pair]
  intro x hx y hy _
  rw [Option.mem_unique hx hy]

/-- A message with another key has a snapshot of another market. -/
theorem inOrder_of_key_ne {m m' : KafkaMessage} (h : m.key ≠ m'.key) : InOrder [m, m'] := by
  have hkey : ∀ {m : KafkaMessage} {x}, x ∈ snapshot m → m.key = some x.1 := by
    intro m x hx
    rw [Option.mem_def] at hx
    unfold snapshot at hx
    split at hx
    · rename_i symbol evt hkey hevt
      split at hx
      · obtain ⟨n, -, rfl⟩ := Option.map_eq_some_iff.mp hx
        exact hkey
      · cases hx
    · cases hx
  rw [inOrder_pair]
  intro x hx y hy heq
  exact absurd ((hkey hx).trans ((congrArg some heq).trans (hkey hy).symm)) h

/-- Only the key and the value of a message matter. -/
theorem snapshot_congr {m m' : KafkaMessage} (hkey : m'.key = m.key) (hvalue : m'.value = m.value) :
    snapshot m' = snapshot m := by
  unfold snapshot event
  rw [hkey, hvalue]

/-- A position that moves on. -/
theorem le_update_succ (position : ℕ → ℕ) (q p : ℕ) :
    position p ≤ Function.update position q (position q + 1) p := by
  by_cases hp : p = q
  · rw [hp, Function.update_self]
    exact Nat.le_succ _
  · rw [Function.update_of_ne hp]

/-! ## One step -/

/-- A message that is put on the topic, no newer one of its market being there. -/
theorem System.Invariant.append (hs : s.Invariant partitioner) {m : KafkaMessage}
    (hm : (snapshot m).isSome) (hnew : ∀ r ∈ s.topic, InOrder [r.message, m]) :
    (s.append partitioner m).Invariant partitioner := by
  refine ⟨fun r hr => ?_, hs.retried, ?_, fun m' hm' => ?_, fun m' hm' p r hr => ?_, hs.published⟩
  · rcases List.mem_append.mp hr with hr | hr
    · exact hs.sound r hr
    · rw [List.mem_singleton.mp hr]
      exact ⟨rfl, rfl, hm⟩
  · simp only [System.append, List.map_append, List.map_cons, List.map_nil]
    rw [inOrder_concat]
    refine ⟨hs.ordered, fun m' hm' => ?_⟩
    obtain ⟨r, hr, rfl⟩ := List.mem_map.mp hm'
    exact hnew r hr
  · obtain ⟨r, hr, rfl⟩ := hs.known m' hm'
    exact ⟨r, List.mem_append_left _ hr, rfl⟩
  · obtain ⟨r', hr', rfl⟩ := hs.known m' hm'
    simp only [System.append, System.partition, List.filter_append, List.drop_append] at hr
    rcases List.mem_append.mp hr with hr | hr
    · exact hs.behind r'.message hm' p r hr
    · have := List.mem_of_mem_filter (List.mem_of_mem_drop hr)
      rw [List.mem_singleton.mp this]
      exact hnew r' hr'

/-- The consumer has moved past a message or not; published is what it was given, or nothing. -/
theorem System.Invariant.consume (hs : s.Invariant partitioner) {p : ℕ} {r : Record}
    (hr : (s.partition p)[s.position p]? = some r) {s' : System} (htopic : s'.topic = s.topic)
    (hposition : ∀ p, s.position p ≤ s'.position p)
    (hretries : ∀ m ∈ s'.retries, m ∈ s.retries ∨ snapshot m = snapshot r.message ∧
      HasText m.headers "x-orbit-original-topic" Topic.ORDERBOOK.name)
    (hpublished : s'.published = s.published ∨ s'.published = s.published ++ [r.message]) :
    s'.Invariant partitioner := by
  have hmem : r ∈ s.partition p := List.mem_of_getElem? hr
  have hin : r ∈ s.topic := List.mem_of_mem_filter hmem
  have hpartition : r.partition = p := by simpa using List.of_mem_filter hmem
  have hpending : ∀ p', ∀ x ∈ (s'.partition p').drop (s'.position p'),
      x ∈ (s.partition p').drop (s.position p') := by
    intro p' x hx
    simp only [System.partition, htopic] at hx
    exact List.Sublist.subset (List.drop_sublist_drop_left _ (hposition p')) hx
  -- what it was given is the oldest that is pending in its partition
  have hfirst : ∀ p', ∀ x ∈ (s.partition p').drop (s.position p'),
      InOrder [r.message, x.message] := by
    intro p' x hx
    by_cases hp : p' = p
    · subst hp
      obtain ⟨hlt, hget⟩ := List.getElem?_eq_some_iff.mp hr
      rw [List.drop_eq_getElem_cons hlt, hget] at hx
      rcases List.mem_cons.mp hx with rfl | hx
      · exact inOrder_self x.message
      · refine hs.ordered.sublist ?_
        have hsub : [r, x].Sublist ((s.partition p').drop (s.position p')) := by
          rw [List.drop_eq_getElem_cons hlt, hget]
          exact (List.singleton_sublist.mpr hx).cons_cons r
        exact ((hsub.trans (List.drop_sublist _ _)).trans List.filter_sublist).map (·.message)
    · refine inOrder_of_key_ne fun hkey => hp ?_
      have hxmem := List.mem_of_mem_drop hx
      have hxp : x.partition = p' := by simpa using List.of_mem_filter hxmem
      rw [← hxp, ← hpartition, (hs.sound x (List.mem_of_mem_filter hxmem)).2.1,
        (hs.sound r hin).2.1,
        hkey]
  refine ⟨htopic ▸ hs.sound, fun m hm => ?_, htopic ▸ hs.ordered, ?_, ?_, ?_⟩
  · rcases hretries m hm with hm | ⟨heq, htext⟩
    · exact hs.retried m hm
    · exact ⟨heq ▸ (hs.sound r hin).2.2, htext⟩
  · rw [htopic]
    rcases hpublished with h | h <;> rw [h]
    · exact hs.known
    · intro m hm
      rcases List.mem_append.mp hm with hm | hm
      · exact hs.known m hm
      · exact ⟨r, hin, (List.mem_singleton.mp hm).symm⟩
  · rcases hpublished with h | h <;> rw [h]
    · exact fun m hm p' x hx => hs.behind m hm p' x (hpending p' x hx)
    · intro m hm p' x hx
      rcases List.mem_append.mp hm with hm | hm
      · exact hs.behind m hm p' x (hpending p' x hx)
      · rw [List.mem_singleton.mp hm]
        exact hfirst p' x (hpending p' x hx)
  · rcases hpublished with h | h <;> rw [h]
    · exact hs.published
    · rw [inOrder_concat]
      refine ⟨hs.published, fun m hm => hs.behind m hm p r ?_⟩
      exact List.mem_of_getElem? (by rw [List.getElem?_drop, Nat.add_zero]; exact hr)

/-- What the policy sends of a message on the topic. -/
theorem retried_of_sent {r : Record} (htopic : r.topic = Topic.ORDERBOOK.name)
    {outcome : Option Thrown}
    {now : ℕ} {send : SendResult} {counts : AttemptKey → ℕ} {topic : String} {m : KafkaMessage}
    (h : (withRetryPolicy cfg r outcome now send counts).sent = some (topic, m)) :
    snapshot m = snapshot r.message ∧
      HasText m.headers "x-orbit-original-topic" Topic.ORDERBOOK.name := by
  obtain ⟨-, err, total, retryAfter, rfl⟩ := sent_withRetryPolicy h
  refine ⟨snapshot_congr rfl rfl, ?_⟩
  rw [← htopic]
  exact (hasText_escalation cfg r err total retryAfter).1

theorem invariant_handle (hs : s.Invariant partitioner) {p : ℕ} {r : Record}
    (hr : (s.partition p)[s.position p]? = some r) (evt : Value) (a : Answers) :
    (s.handle cfg r evt a).Invariant partitioner := by
  have hmem : r ∈ s.topic := List.mem_of_mem_filter (List.mem_of_getElem? hr)
  refine hs.consume hr rfl (fun p' => ?_) (fun m hm => ?_) ?_
  · simp only [System.handle]
    split
    · exact le_update_succ s.position r.partition p'
    · exact le_rfl
  · simp only [System.handle, List.mem_append] at hm
    rcases hm with hm | hm
    · exact .inl hm
    · obtain ⟨⟨topic, m'⟩, hsent, rfl⟩ := List.mem_map.mp hm
      exact .inr (retried_of_sent (hs.sound r hmem).1
        (Option.mem_toList.mp (List.mem_of_mem_filter hsent)))
  · simp only [System.handle]
    split
    · exact .inr rfl
    · exact .inl (List.append_nil _)

theorem invariant_republish (hs : s.Invariant partitioner) {i : ℕ} {send : SendResult}
    (h : Fresh s (.republish i send)) :
    (step cfg partitioner s (.republish i send)).Invariant partitioner := by
  cases hi : s.retries[i]? with
  | none =>
    simp only [step, hi]
    exact hs
  | some m =>
    have hmem := List.mem_of_getElem? hi
    obtain ⟨hm, htext⟩ := hs.retried m hmem
    have hvalue : m.value ≠ none := by
      intro hnone
      simp [snapshot, event, hnone] at hm
    have hrest : ∀ returned : Bool, System.Invariant partitioner
        (if returned then { s with retries := s.retries.eraseIdx i } else s) := by
      intro returned
      split
      · exact ⟨hs.sound, fun m hm => hs.retried m
          (List.mem_of_mem_eraseIdx hm), hs.ordered, hs.known,
          hs.behind, hs.published⟩
      · exact hs
    simp only [step, hi, retry30s_of_hasText hvalue htext (by decide)]
    cases hd : send.delivered with
    | false => exact hrest _
    | true =>
      have hcongr : snapshot { m with headers := materializeHeaders m.headers } = snapshot m :=
        snapshot_congr rfl rfl
      refine (hrest _).append (hcongr ▸ hm) fun r hr => ?_
      have hr' : r ∈ s.topic := by
        split at hr <;> exact hr
      rw [inOrder_pair, hcongr]
      exact fun y hy x hx => h m hi hd x hx r hr' y hy

/-- **One step.** -/
theorem invariant_step (s : System) (st : Step) (hs : s.Invariant partitioner)
    (h : Delivered s st ∧ Fresh s st) : (step cfg partitioner s st).Invariant partitioner := by
  cases st with
  | deliver m =>
    obtain ⟨x, hx, hnew⟩ := h.1
    refine hs.append (Option.isSome_iff_exists.mpr ⟨x, hx⟩) fun r hr => ?_
    rw [inOrder_pair]
    intro y hy x' hx' heq
    rw [Option.mem_unique hx' hx] at heq ⊢
    exact (hnew r hr y hy heq).le
  | consume p a =>
    simp only [step]
    split
    · exact hs
    · rename_i r hr
      split
      · exact hs.consume hr rfl (le_update_succ s.position p) (fun m hm => .inl hm) (.inl rfl)
      · split
        · exact hs
        · exact invariant_handle hs hr _ a
  | republish i send => exact invariant_republish hs h.2
  | expire key => exact ⟨hs.sound, hs.retried, hs.ordered, hs.known, hs.behind, hs.published⟩

/-- **The feed does not go backwards** in any run that is given the snapshots in order and puts none
of them back when a newer one is on the topic. -/
theorem feed_in_order (n : ℕ) (classify : Thrown → ErrorKind) (partitioner : Option String → ℕ)
    (steps : List Step)
    (hdelivered : Justified (fun before st =>
      Delivered (run (policy "market-data-fanout" n classify) partitioner .empty before) st) steps)
    (hfresh : Justified (fun before st =>
      Fresh (run (policy "market-data-fanout" n classify) partitioner .empty before) st) steps) :
    InOrder (run (policy "market-data-fanout" n classify) partitioner .empty steps).published := by
  have h : Justified (fun before st =>
      Delivered (run (policy "market-data-fanout" n classify) partitioner .empty before) st ∧
      Fresh (run (policy "market-data-fanout" n classify) partitioner .empty before) st) steps :=
    fun before st after heq => ⟨hdelivered before st after heq, hfresh before st after heq⟩
  exact (h.invariant invariant_step System.Invariant.empty).published

end Runs

namespace SnapshotsSample

/-- A snapshot of an empty book, as the relay sends it. -/
def message (eventId seq : String) : KafkaMessage where
  key := some "BTC-USDT"
  value := some <| ("\x7b\"eventId\":\"" ++ eventId ++ "\",\"market\":\"BTC-USDT\",\"seq\":" ++
    seq ++ ",\"asks\":[],\"bids\":[]\x7d").toList.map fun c => UInt8.ofNat c.toNat
  headers := []

def fine : Answers := ⟨.ok, .ok, true, .acked, 0⟩

/-- Redis is not there for the publication. -/
def refused : Answers :=
  ⟨.ok, .threw (.error "Error" "connect ECONNREFUSED") false, true, .acked, 0⟩

/-- The only snapshot is given up, put back and published before the next one comes. -/
def inTime : List Step :=
  [.deliver (message "a" "1"), .consume 0 refused, .consume 0 refused, .consume 0 refused,
    .republish 0 .acked, .consume 0 fine, .deliver (message "b" "2"), .consume 0 fine]

/-- The next one is published before the first one is put back. -/
def late : List Step :=
  [.deliver (message "a" "1"), .deliver (message "b" "2"), .consume 0 refused, .consume 0 refused,
    .consume 0 refused, .consume 0 fine, .republish 0 .acked, .consume 0 fine]

def run (steps : List Step) : System :=
  OrderbookFeed.run (policy "market-data-fanout" 2 fun _ => .transient) (fun _ => 0) .empty steps

end SnapshotsSample

theorem feed_in_order_in_time :
    Justified (fun before st => Delivered (SnapshotsSample.run before) st) SnapshotsSample.inTime ∧
    Justified (fun before st => Fresh (SnapshotsSample.run before) st) SnapshotsSample.inTime ∧
    InOrder (SnapshotsSample.run SnapshotsSample.inTime).published ∧
    (SnapshotsSample.run SnapshotsSample.inTime).published.filterMap snapshot =
      [("BTC-USDT", 1), ("BTC-USDT", 2)] := by
  have hdelivered : Justified (fun before st => Delivered (SnapshotsSample.run before) st)
      SnapshotsSample.inTime := by
    decide +kernel
  have hfresh : Justified (fun before st => Fresh (SnapshotsSample.run before) st)
      SnapshotsSample.inTime := by
    decide +kernel
  exact ⟨hdelivered, hfresh, feed_in_order 2 (fun _ => .transient) (fun _ => 0)
    SnapshotsSample.inTime hdelivered hfresh, by decide +kernel⟩

/-- **An older snapshot is published after a newer one.** -/
theorem feed_goes_backwards :
    Justified (fun before st => Delivered (SnapshotsSample.run before) st) SnapshotsSample.late ∧
    ¬InOrder (SnapshotsSample.run SnapshotsSample.late).published ∧
    (SnapshotsSample.run SnapshotsSample.late).published.filterMap snapshot =
      [("BTC-USDT", 2), ("BTC-USDT", 1)] := by
  decide +kernel

end Orbit.OrderbookFeed
