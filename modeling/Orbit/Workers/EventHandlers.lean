import Orbit.Foundations.Json
import Orbit.Workers.RetrySpecs

/-!
# The handlers of the notification and the market data worker

`eachMessage` of `apps/workers/src/notification/index.ts` and
`apps/workers/src/market-data-fanout/index.ts`. Both parse the value of the message, and run the
rest under `withRetryPolicy` and `withDedupe`: a call of SNS, or a publication on a Redis channel.
The parsing itself is not under the policy, so that what it throws is not counted against the
budget of the message.

`Answers` says how the calls of one invocation end. A process makes invocations one after another,
on any messages, and consumes an offset again when its invocation threw.

* `poison_contained_iff`: a message is thrown on at most `inFlightAttempts` times in a row, whatever
  the calls do, exactly when its value is a JSON text.
-/

namespace Orbit.EventHandlers

open RetryPolicy Json

/-- How the calls of an invocation end. -/
structure Answers where
  /-- Whether `SET … NX` set the key; `none` if it throws. -/
  set : Option Bool
  /-- What `sns.send` or `redis.publish` throws. -/
  effect : Option Thrown
  deriving DecidableEq, Repr

/-- What `withDedupe` throws, for a handler that throws `fn`; what becomes of the `DEL`
after that is ignored. -/
def withDedupe (eventId : Option Value) (set : Option Bool) (fn : Option Thrown) : Option Thrown :=
  if truthy eventId then
    match set with
    | some false => none
    | _ => fn
  else fn

/-- How an invocation ends. -/
inductive Outcome
  /-- The message has no value. -/
  | ignored
  /-- kafkajs consumes the offset again. -/
  | threw
  | processed
  /-- The message was put on another topic. -/
  | escalated (topic : String) (message : KafkaMessage)
  deriving DecidableEq, Repr

/-- The outcome of a call of `withRetryPolicy`. -/
def Outcome.ofHandled (h : RetryPolicy.Handled) : Outcome :=
  if h.returned then
    match h.sent with
    | none => .processed
    | some (topic, message) => .escalated topic message
  else .threw

/-- An invocation, with the map `inflightCount` before and after. -/
abbrev Handler := Record → Answers → (now : ℕ) → SendResult → (AttemptKey → ℕ) →
  Outcome × (AttemptKey → ℕ)

/-- What both handlers throw under the policy. `request` is what the event makes them ask of SNS or
of Redis, if anything. -/
def handle {ρ : Type} (request : Value → Option ρ) (evt : Value) (a : Answers) : Option Thrown :=
  match evt with
  | .null => some (.error "TypeError" "Cannot read properties of null (reading 'eventId')")
  | evt => withDedupe (evt.property "eventId") a.set ((request evt).bind fun _ => a.effect)

/-- The common shape of the two. -/
def eachMessage {ρ : Type} (cfg : RetryPolicyConfig)
    (request : Record → Value → Option ρ) : Handler :=
  fun r a now send inflightCount =>
    match r.message.value with
    | none => (.ignored, inflightCount)
    | some bytes =>
      match parse (decode bytes) with
      | none => (.threw, inflightCount)
      | some evt =>
        let h := withRetryPolicy cfg r (handle (request r) evt a) now send inflightCount
        (.ofHandled h, h.inflightCount)

/-- The arguments of `redis.publish`: the channel `md:<market>:<kind>`, and the properties of the
message's `data`. -/
structure Publication where
  market : Option Value
  kind : String
  data : List (String × Option Value)

/-- The publication of a message on one of the two topics. -/
def publication (r : Record) (evt : Value) : Option Publication :=
  if r.topic = Topic.TRADES.name then
    some ⟨evt.property "market", "trade",
      ["id", "market", "price", "quantity", "takerSide", "ts"].map fun name =>
      (name, evt.property name)⟩
  else if r.topic = Topic.ORDERBOOK.name then
    some ⟨evt.property "market", "orderbook", [("symbol", evt.property "market"),
      ("asks", evt.property "asks"), ("bids", evt.property "bids"), ("ts", evt.property "ts")]⟩
  else none

/-- `eachMessage` of `runMarketDataFanout`. -/
def marketDataFanout (cfg : RetryPolicyConfig) : Handler := eachMessage cfg publication

/-- The arguments of `PublishCommand`. -/
structure SnsMessage where
  topicArn : String
  message : Value
  userId : Option Value
  type : Option Value

/-- The message to SNS, unless the topic is not set. -/
def snsMessage (topicArn : Option String) (_ : Record) (evt : Value) : Option SnsMessage :=
  match topicArn with
  | none => none
  | some arn =>
    if arn = "" then none else some ⟨arn, evt, evt.property "userId", evt.property "type"⟩

/-- `eachMessage` of `runNotification`. -/
def notification (topicArn : Option String) (cfg : RetryPolicyConfig) : Handler :=
  eachMessage cfg (snsMessage topicArn)

/-! ## The invocations of a process -/

structure Call where
  record : Record
  answers : Answers
  now : ℕ
  deriving DecidableEq, Repr

/-- The outcomes of the invocations; every send succeeds. -/
def outcomes (handler : Handler) : (AttemptKey → ℕ) → List Call → List (Record × Outcome)
  | _, [] => []
  | inflightCount, c :: cs =>
    let h := handler c.record c.answers c.now .acked inflightCount
    (c.record, h.1) :: outcomes handler h.2 cs

/-- The outcomes of those on the record. -/
def outcomesOn (handler : Handler) (inflightCount : AttemptKey → ℕ)
    (calls : List Call) (r : Record) :
    List Outcome :=
  ((outcomes handler inflightCount calls).filter (·.1 = r)).map Prod.snd

/-- An offset of a partition holds one message. -/
def OneMessage (cfg : RetryPolicyConfig) (calls : List Call) (r : Record) : Prop :=
  ∀ c ∈ calls, attemptKey cfg c.record = attemptKey cfg r → c.record = r

/-- **The message does not wedge the worker**: since the process started, its invocations
throw at most `inFlightAttempts` times before one of them returns, with the message
processed or escalated. -/
def Contained (cfg : RetryPolicyConfig) (handler : Handler) (r : Record) : Prop :=
  ∀ calls, OneMessage cfg calls r →
    ((∀ o ∈ outcomesOn handler (fun _ => 0) calls r, o = .threw) →
      (outcomesOn handler (fun _ => 0) calls r).length ≤ cfg.inFlightAttempts) ∧
    .ignored ∉ outcomesOn handler (fun _ => 0) calls r

section Contained

variable {ρ : Type} {cfg : RetryPolicyConfig} {request : Record → Value → Option ρ} {r : Record}
  {bytes : List UInt8} {a : Answers} {now : ℕ} {inflightCount : AttemptKey → ℕ}

/-- Under the policy, an invocation that throws uses up budget. -/
theorem eachMessage_threw (hv : r.message.value = some bytes) (hj : (parse (decode bytes)).isSome)
    (h : (eachMessage cfg request r a now .acked inflightCount).1 = .threw) :
    inflightCount (attemptKey cfg r) < cfg.inFlightAttempts ∧
      (eachMessage cfg request r a now .acked inflightCount).2 (attemptKey cfg r) =
        inflightCount (attemptKey cfg r) + 1 := by
  obtain ⟨evt, hevt⟩ := Option.isSome_iff_exists.mp hj
  simp only [eachMessage, hv, hevt] at h ⊢
  cases hout : handle (request r) evt a with
  | none =>
    rw [hout] at h
    cases h
  | some err =>
    rw [hout] at h
    simp only [withRetryPolicy] at h ⊢
    split at h
    · rename_i hlt
      rw [if_pos hlt]
      exact ⟨Nat.lt_of_le_of_lt (Nat.le_add_right _ _) hlt, Function.update_self ..⟩
    · simp [Outcome.ofHandled, SendResult.delivered] at h

theorem eachMessage_ne_ignored (hv : r.message.value = some bytes) :
    (eachMessage cfg request r a now .acked inflightCount).1 ≠ .ignored := by
  simp only [eachMessage, hv]
  split
  · simp
  · unfold Outcome.ofHandled
    split
    · split <;> simp
    · simp

/-- An invocation counts for its own offset only. -/
theorem eachMessage_other {key : AttemptKey} (hkey : key ≠ attemptKey cfg r) (send : SendResult) :
    (eachMessage cfg request r a now send inflightCount).2 key = inflightCount key := by
  unfold eachMessage
  split
  · rfl
  split
  · rfl
  exact inflightCount_withRetryPolicy hkey ..

theorem outcomesOn_cons {handler : Handler} (c : Call) (cs : List Call) :
    outcomesOn handler inflightCount (c :: cs) r =
      if c.record = r then
        (handler r c.answers c.now .acked inflightCount).1 ::
          outcomesOn handler (handler r c.answers c.now .acked inflightCount).2 cs r
      else outcomesOn handler (handler c.record c.answers c.now .acked inflightCount).2 cs r := by
  unfold outcomesOn
  by_cases h : c.record = r
  · simp [outcomes, h]
  · simp [outcomes, h]

/-- What is left of the budget bounds how often the invocations on a JSON text can still throw. -/
theorem length_outcomesOn_le (hv : r.message.value = some bytes)
    (hj : (parse (decode bytes)).isSome)
    {calls : List Call} (hone : OneMessage cfg calls r)
    (h : ∀ o ∈ outcomesOn (eachMessage cfg request) inflightCount calls r, o = .threw) :
    (outcomesOn (eachMessage cfg request) inflightCount calls r).length ≤
      cfg.inFlightAttempts - inflightCount (attemptKey cfg r) := by
  induction calls generalizing inflightCount with
  | nil => exact Nat.zero_le _
  | cons c cs ih =>
    have hcs : OneMessage cfg cs r := fun c' hc' => hone c' (List.mem_cons_of_mem _ hc')
    rw [outcomesOn_cons] at h ⊢
    by_cases hc : c.record = r
    · rw [if_pos hc] at h ⊢
      obtain ⟨hlt, hcount⟩ := eachMessage_threw hv hj (h _ List.mem_cons_self)
      have hrest := ih hcs fun o ho => h o (List.mem_cons_of_mem _ ho)
      rw [hcount] at hrest
      rw [List.length_cons]
      omega
    · rw [if_neg hc] at h ⊢
      have hkey : attemptKey cfg r ≠ attemptKey cfg c.record := fun e =>
        hc (hone c List.mem_cons_self e.symm)
      have hrest := ih hcs h
      rwa [eachMessage_other hkey] at hrest

theorem ignored_notMem_outcomesOn (hv : r.message.value = some bytes) (calls : List Call) :
    .ignored ∉ outcomesOn (eachMessage cfg request) inflightCount calls r := by
  induction calls generalizing inflightCount with
  | nil => simp [outcomesOn, outcomes]
  | cons c cs ih =>
    rw [outcomesOn_cons]
    split
    · rw [List.mem_cons, not_or]
      exact ⟨(eachMessage_ne_ignored hv).symm, ih⟩
    · exact ih

/-- An invocation on any other text throws, and counts for nothing. -/
theorem outcomesOn_replicate (hv : r.message.value = some bytes) (hj : parse (decode bytes) = none)
    (n : ℕ) : outcomesOn (eachMessage cfg request) inflightCount (List.replicate n ⟨r, a, now⟩) r =
      List.replicate n .threw := by
  induction n with
  | zero => rfl
  | succ n ih =>
    rw [List.replicate_succ, outcomesOn_cons, if_pos rfl, List.replicate_succ]
    simp only [eachMessage, hv, hj] at ih ⊢
    rw [ih]

theorem contained_eachMessage_iff (hv : r.message.value = some bytes) :
    Contained cfg (eachMessage cfg request) r ↔ (parse (decode bytes)).isSome := by
  constructor
  · intro h
    by_contra hj
    rw [Option.not_isSome_iff_eq_none] at hj
    -- one invocation more than the budget allows
    have hcalls := h (List.replicate (cfg.inFlightAttempts + 1) ⟨r, ⟨none, none⟩, 0⟩) (by
      intro c hc _
      rw [List.eq_of_mem_replicate hc])
    rw [outcomesOn_replicate hv hj] at hcalls
    have := hcalls.1 fun o ho => List.eq_of_mem_replicate ho
    rw [List.length_replicate] at this
    omega
  · intro hj calls hone
    exact ⟨fun h => length_outcomesOn_le hv hj hone h, ignored_notMem_outcomesOn hv calls⟩

end Contained

namespace HandlerSample

/-- The default policy of the worker. -/
def fanoutPolicy : RetryPolicyConfig := policy "market-data-fanout" 2 fun _ => .permanent

/-- A message on the orderbook topic. -/
def message (value : List UInt8) : Record :=
    ⟨Topic.ORDERBOOK.name, 0, 7, ⟨some "BTC-USDT", some value, []⟩⟩

end HandlerSample

end Orbit.EventHandlers
