import Mathlib.Data.List.Infix
import Mathlib.Logic.Function.Basic
import Orbit.Foundations.Table
import Orbit.Foundations.Texts
import Orbit.Store.Schema

/-!
# Retries and the dead letter queue

`withRetryPolicy` of `packages/observability/src/retry-policy.ts` and the `retry-30s` worker. A
handler that throws is run again on the same offset until its budget is used up; then the message is
sent to the retry topic, or to the dead letter queue if the error is permanent or the message has
been through the retry topic before. The `retry-30s` worker sends it back to the topic it came from.
The budget is counted in a map of the process, and across topics in the header `x-orbit-attempt`.

The second part follows one message. `Pipeline` holds its copies: `pending` those that a consumer
has not moved past (or that lie in the dead letter queue), and `passed` those it moved past without
having committed the offset, which a crash brings back.
-/

namespace Orbit

open Table

/-- `KAFKA_TOPICS`. -/
def Topic.name : Topic → String
  | .ORDER_COMMANDS => "orbit.order-commands.v1"
  | .TRADES => "orbit.trades.v1"
  | .ORDERS => "orbit.orders.v1"
  | .ORDERBOOK => "orbit.orderbook.v1"
  | .USER_EVENTS => "orbit.user-events.v1"

namespace RetryPolicy

/-- A header value as kafkajs gives it. -/
inductive HeaderValue
  /-- A `Buffer` or a string. -/
  | text (s : String)
  | many (vs : List String)
  | missing
  deriving DecidableEq, Repr

def HeaderValue.isText : HeaderValue → Bool
  | .text _ => true
  | .many _ => false
  | .missing => false

structure Header where
  name : String
  value : HeaderValue
  deriving DecidableEq, Repr

instance : Keyed Header String := ⟨Header.name⟩

structure KafkaMessage where
  key : Option String
  value : Option (List UInt8)
  headers : List Header
  deriving DecidableEq, Repr

/-- A message at its place in a topic. -/
structure Record where
  topic : String
  partition : ℕ
  offset : ℕ
  message : KafkaMessage
  deriving DecidableEq, Repr

/-- What a handler throws: an `Error`, or anything else with its text. -/
inductive Thrown
  | error (name message : String)
  | other (text : String)
  deriving DecidableEq, Repr

inductive ErrorKind
  | transient
  | permanent
  deriving DecidableEq, Repr

def DEFAULT_INFLIGHT_ATTEMPTS : ℕ := 2
def DEFAULT_RETRY_TOPIC : String := "orbit.retry.30s.v1"
def DEFAULT_DLQ_TOPIC : String := "orbit.dlq.v1"
def DEFAULT_RETRY_DELAY_MS : ℕ := 30000

structure RetryPolicyConfig where
  worker : String
  inFlightAttempts : ℕ := DEFAULT_INFLIGHT_ATTEMPTS
  retryTopic : String := DEFAULT_RETRY_TOPIC
  dlqTopic : String := DEFAULT_DLQ_TOPIC
  retryDelayMs : ℕ := DEFAULT_RETRY_DELAY_MS
  classify : Thrown → ErrorKind

/-! ## Headers -/

def readHeader (headers : List Header) (name : String) : Option String :=
  match (find? name headers).map Header.value with
  | some (.text s) => some s
  | some (.many (s :: _)) => some s
  | _ => none

/-- `Number` on a decimal numeral, which is all that is ever written to the header; any other text
is taken for no number. -/
def number (raw : String) : Option ℕ :=
  if raw.toList.all Char.isDigit then some (Nat.ofDigitChars 10 raw.toList 0) else none

def parseAttempt (message : KafkaMessage) : ℕ :=
  match readHeader message.headers "x-orbit-attempt" with
  | none => 0
  | some raw => if raw = "" then 0 else (number raw).getD 0

/-- `materializeHeaders`, and `readAllHeaders` of the `retry-30s` worker. -/
def materializeHeaders (headers : List Header) : List Header :=
  headers.filter fun h => h.value.isText

/-- A header of an object literal, which replaces one that was spread into it. -/
def withHeader (name value : String) (headers : List Header) : List Header :=
  upsert ⟨name, .text value⟩ (fun h => { h with value := .text value }) headers

def formatError : Thrown → String
  | .error name message => name ++ ": " ++ message
  | .other text => text

/-- `length` and `slice` count UTF-16 code units. -/
def truncate (s : String) (n : ℕ) : String :=
  if n < Texts.unitLength s then Texts.slice s (n - 3) ++ "..." else s

/-! ## The policy -/

/-- A key of the map `inflightCount`; its text joins the parts with colons. -/
structure AttemptKey where
  worker : String
  topic : String
  partition : ℕ
  offset : ℕ
  deriving DecidableEq, Repr

def attemptKey (cfg : RetryPolicyConfig) (r : Record) : AttemptKey :=
  ⟨cfg.worker, r.topic, r.partition, r.offset⟩

/-- How `producer.send` ends. -/
inductive SendResult
  | acked
  /-- It throws; the message may have reached the topic all the same. -/
  | failed (delivered : Bool)
  deriving DecidableEq, Repr

/-- Whether the message is in the topic. -/
def SendResult.delivered : SendResult → Bool
  | .acked => true
  | .failed delivered => delivered

/-- What a call leaves: the map `inflightCount`, what was put on another topic, and whether it
returned. When it throws, kafkajs consumes the same offset again. -/
structure Handled where
  inflightCount : AttemptKey → ℕ
  sent : Option (String × KafkaMessage)
  returned : Bool

/-- The message of an escalation. -/
def escalation (cfg : RetryPolicyConfig) (r : Record) (err : Thrown) (totalAttempts : ℕ)
    (retryAfter : Option ℕ) : KafkaMessage where
  key := r.message.key
  value := r.message.value
  headers :=
    let headers := materializeHeaders r.message.headers
      |> withHeader "x-orbit-original-topic" r.topic
      |> withHeader "x-orbit-original-partition" (Nat.repr r.partition)
      |> withHeader "x-orbit-original-offset" (Nat.repr r.offset)
      |> withHeader "x-orbit-attempt" (Nat.repr (totalAttempts + 1))
      |> withHeader "x-orbit-last-error" (truncate (formatError err) 1000)
      |> withHeader "x-orbit-worker" cfg.worker
    match retryAfter with
    | none => headers
    | some t => withHeader "x-orbit-retry-after" (Nat.repr t) headers

/-- Where a message goes when its budget is used up. -/
def target (cfg : RetryPolicyConfig) (r : Record) (err : Thrown) : String :=
  if cfg.classify err = .transient ∧ parseAttempt r.message = 0 then cfg.retryTopic
  else cfg.dlqTopic

/-- `withRetryPolicy`, for a handler that returns (`none`) or throws, at the time `now`. -/
def withRetryPolicy (cfg : RetryPolicyConfig) (r : Record) (outcome : Option Thrown) (now : ℕ)
    (send : SendResult) (inflightCount : AttemptKey → ℕ) : Handled :=
  let key := attemptKey cfg r
  let headerAttempt := parseAttempt r.message
  match outcome with
  | none => ⟨Function.update inflightCount key 0, none, true⟩
  | some err =>
    let memCount := inflightCount key
    let totalAttempts := memCount + headerAttempt
    if totalAttempts < cfg.inFlightAttempts then
      ⟨Function.update inflightCount key (memCount + 1), none, false⟩
    else
      let inflightCount := Function.update inflightCount key 0
      let target := target cfg r err
      let retryAfter := if target = cfg.retryTopic then some (now + cfg.retryDelayMs) else none
      let message := escalation cfg r err totalAttempts retryAfter
      ⟨inflightCount, if send.delivered then some (target, message) else none, send = .acked⟩

/-- The handler of the `retry-30s` worker, after its wait: what it puts on another topic, and
whether it returned. -/
def retry30s (message : KafkaMessage) (send : SendResult) : Option (String × KafkaMessage) × Bool :=
  if message.value = none then (none, true)
  else
    let headers := materializeHeaders message.headers
    match readHeader headers "x-orbit-original-topic" with
    | none => (none, true)
    | some originalTopic =>
      if originalTopic = "" then (none, true)
      else
        (if send.delivered then some (originalTopic, { message with headers }) else none,
          send = .acked)

/-! ## One message on its way -/

/-- What is recorded of the message. -/
inductive Event
  /-- The handler ran on a copy. -/
  | handled (r : Record) (ok : Bool)
  /-- `withRetryPolicy` put a copy on another topic. -/
  | escalated (r r' : Record)
  /-- `retry-30s` put a copy back. -/
  | republished (r r' : Record)
  deriving DecidableEq, Repr

structure Pipeline where
  /-- The copies no consumer has moved past, those in the dead letter queue among them. -/
  pending : List Record
  /-- The copies a consumer moved past, as long as the offset is not committed. -/
  passed : List Record
  inflightCount : AttemptKey → ℕ
  history : List Event

/-- The policy of a worker, with the topics that `retry-30s` and `dlq-monitor` read. -/
def policy (worker : String) (n : ℕ) (classify : Thrown → ErrorKind) : RetryPolicyConfig :=
  { worker, inFlightAttempts := n, classify }

inductive Step
  /-- The worker consumes the pending copy number `i`, which is on its topic; a message that is sent
  gets the place `partition`, `offset`. -/
  | consume (i : ℕ) (outcome : Option Thrown) (now : ℕ) (send : SendResult) (partition offset : ℕ)
  /-- `retry-30s` consumes the pending copy number `i`, which is on the retry topic. -/
  | retry (i : ℕ) (send : SendResult) (partition offset : ℕ)
  /-- The offsets of the copies on a topic that were moved past are committed. -/
  | commit (topic : String)
  /-- The consumer of a topic starts again from the committed offsets. Its group has committed an
  offset before; as `fromBeginning` is false, a partition without one would be read from the end of
  its log on. -/
  | crash (topic : String)

/-- No process crashes and every send succeeds. -/
def Step.Clean : Step → Prop
  | .consume _ _ _ send _ _ => send = .acked
  | .retry _ send _ _ => send = .acked
  | .commit _ => True
  | .crash _ => False

/-- Move past the copy number `i`, or not. -/
def Pipeline.moveOn (s : Pipeline) (i : ℕ) (r : Record) (returned : Bool) : Pipeline :=
  if returned then { s with pending := s.pending.eraseIdx i, passed := s.passed ++ [r] } else s

/-- A message arrives on a topic. -/
def Pipeline.receive (s : Pipeline) (sent : Option (String × KafkaMessage)) (partition offset : ℕ)
    (event : Record → Event) : Pipeline :=
  match sent with
  | none => s
  | some (topic, message) =>
    let r : Record := ⟨topic, partition, offset, message⟩
    { s with pending := s.pending ++ [r], history := s.history ++ [event r] }

/-- The handler has run on a copy. -/
def Pipeline.handle (s : Pipeline) (r : Record) (ok : Bool) (inflightCount : AttemptKey → ℕ) :
    Pipeline :=
  { s with inflightCount, history := s.history ++ [.handled r ok] }

/-- One step, for a worker with the policy `cfg` on the topic `main`. -/
def step (cfg : RetryPolicyConfig) (main : Topic) (s : Pipeline) : Step → Pipeline
  | .consume i outcome now send partition offset =>
    match s.pending[i]? with
    | none => s
    | some r =>
      if r.topic ≠ main.name then s
      else if r.message.value = none then s.moveOn i r true
      else
        let h := withRetryPolicy cfg r outcome now send s.inflightCount
        s.handle r outcome.isNone h.inflightCount
          |>.moveOn i r h.returned
          |>.receive h.sent partition offset (.escalated r)
  | .retry i send partition offset =>
    match s.pending[i]? with
    | none => s
    | some r =>
      if r.topic ≠ DEFAULT_RETRY_TOPIC then s
      else
        let (sent, returned) := retry30s r.message send
        s.moveOn i r returned |>.receive sent partition offset (.republished r)
  | .commit topic => { s with passed := s.passed.filter (·.topic ≠ topic) }
  | .crash topic =>
    { s with
      pending := s.pending ++ s.passed.filter (·.topic = topic)
      passed := s.passed.filter (·.topic ≠ topic)
      inflightCount := if topic = main.name then fun _ => 0 else s.inflightCount }

def run (cfg : RetryPolicyConfig) (main : Topic) (s : Pipeline) (steps : List Step) : Pipeline :=
  steps.foldl (step cfg main) s

/-- The message has arrived on the topic of the worker. -/
def Pipeline.arrived (r : Record) : Pipeline := ⟨[r], [], fun _ => 0, []⟩

end RetryPolicy

end Orbit
