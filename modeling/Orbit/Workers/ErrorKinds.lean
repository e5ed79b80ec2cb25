import Orbit.Foundations.Texts
import Orbit.Workers.RetryPolicy

/-!
# Which errors are transient

`defaultClassify` of `packages/observability/src/retry-policy.ts`, which looks for words and numbers
in the text of an error: first for the words of a validation, then for an isolated number from 400
to 499, wherever it stands, and only then for anything else, which is transient.

* `network_transient_iff`: a network failure is transient, and its first escalation goes
  to the retry topic, exactly when neither its words nor the numbers around them come
  before it in this order.
-/

namespace Orbit.RetryPolicy

open Texts

/-! ## The classifier -/

/-- A `\w` of a regular expression. -/
def isWordChar (c : Char) : Bool := c.isAlphanum || c = '_'

/-- A regular expression that is an alternative of words, without regard to case. -/
def mentions (words : List String) (msg : String) : Bool :=
  words.any fun w => w.toList <:+: msg.toList.map Char.toLower

/-- `/\bd\d{2}\b/`, for a first digit `d`. -/
def hasStatus (d : Char) (msg : String) : Bool :=
  isolated isWordChar [(· = d), Char.isDigit, Char.isDigit] none msg.toList

def PERMANENT_WORDS : List String := ["zod", "validation", "schema", "invalid"]

def NETWORK_WORDS : List String :=
    ["timeout", "econnrefused", "enotfound", "reset by peer", "ehostunreach"]

def defaultClassify (err : Thrown) : ErrorKind :=
  let msg := formatError err
  if mentions PERMANENT_WORDS msg then .permanent
  else if hasStatus '4' msg ∧ ¬"429".toList <:+: msg.toList then .permanent
  else if hasStatus '5' msg then .transient
  else if mentions NETWORK_WORDS msg then .transient
  else .transient

/-! ## Network failures -/

/-- The message of the error has a network marker in it, in any case and among any other text. -/
def NetworkFailure (err : Thrown) : Prop :=
  ∃ before marker after : List Char, (marker.map Char.toLower) ∈ NETWORK_WORDS.map String.toList ∧
    (∃ name, err = .error name (String.ofList (before ++ marker ++ after)) ∨
      err = .other (String.ofList (before ++ marker ++ after)))

/-- The text has a number from 400 to 499 that no letter, digit or underscore touches. -/
def HasIsolated4xx (msg : String) : Prop :=
  ∃ (before after : List Char) (x y : Char), msg.toList = before ++ '4' :: x :: y :: after ∧
    x.isDigit = true ∧ y.isDigit = true ∧ before.getLast?.any isWordChar = false ∧
    after.head?.any isWordChar = false

/-- Neither a word of a validation nor an isolated number from 400 to 499 stands in the text, or
there is no such word and somewhere the digits 429. -/
def Unshadowed (err : Thrown) : Prop :=
  (∀ w ∈ PERMANENT_WORDS, ¬w.toList <:+: (formatError err).toList.map Char.toLower) ∧
    (HasIsolated4xx (formatError err) → "429".toList <:+: (formatError err).toList)

/-- It is transient, and when its budget is used up for the first time, the message goes to the
retry topic and not to the dead letter queue. -/
def Retried (cfg : RetryPolicyConfig) (r : Record) (err : Thrown) : Prop :=
  defaultClassify err = .transient ∧
    ∀ now inflightCount, cfg.inFlightAttempts ≤ inflightCount (attemptKey cfg r) →
      let sent := (withRetryPolicy cfg r (some err) now .acked inflightCount).sent.map Prod.fst
      sent = some cfg.retryTopic ∧ sent ≠ some cfg.dlqTopic

theorem hasStatus_iff {msg : String} : hasStatus '4' msg = true ↔ HasIsolated4xx msg := by
  rw [hasStatus, isolated_iff]
  constructor
  · rintro ⟨before, w, after, heq, hw, hbefore, hafter⟩
    obtain ⟨d, w₁, hd, hw₁, rfl⟩ := List.forall₂_cons_left_iff.mp hw
    obtain ⟨x, w₂, hx, hw₂, rfl⟩ := List.forall₂_cons_left_iff.mp hw₁
    obtain ⟨y, w₃, hy, hw₃, rfl⟩ := List.forall₂_cons_left_iff.mp hw₂
    obtain rfl := List.forall₂_nil_left_iff.mp hw₃
    obtain rfl : d = '4' := of_decide_eq_true hd
    exact ⟨before, after, x, y, heq, hx, hy, by simpa using hbefore, hafter⟩
  · rintro ⟨before, after, x, y, heq, hx, hy, hbefore, hafter⟩
    exact ⟨before, ['4', x, y], after, heq, .cons (by decide) (.cons hx (.cons hy .nil)),
      by simpa using hbefore, hafter⟩

/-- **The order of the tests.** -/
theorem defaultClassify_eq_transient_iff {err : Thrown} :
    defaultClassify err = .transient ↔ Unshadowed err := by
  have hwords : mentions PERMANENT_WORDS (formatError err) = true ↔
      ∃ w ∈ PERMANENT_WORDS, w.toList <:+: (formatError err).toList.map Char.toLower := by
    simp [mentions]
  unfold defaultClassify Unshadowed
  simp only [hwords]
  split_ifs with hword hstatus
  · refine iff_of_false nofun fun h => ?_
    obtain ⟨w, hw, hin⟩ := hword
    exact h.1 w hw hin
  · exact iff_of_false nofun fun h => hstatus.2 (h.2 (hasStatus_iff.mp hstatus.1))
  all_goals
    refine iff_of_true rfl ⟨fun w hw hin => hword ⟨w, hw, hin⟩, fun h => ?_⟩
    by_contra hno
    exact hstatus ⟨hasStatus_iff.mpr h, hno⟩

/-- **When a network failure is retried**, whichever errors report an HTTP
response with a status 4xx. -/
theorem network_transient_iff (cfg : RetryPolicyConfig) (hclassify : cfg.classify = defaultClassify)
    (htopics : cfg.retryTopic ≠ cfg.dlqTopic) (r : Record) (hfirst : parseAttempt r.message = 0)
    (clientError : Thrown → Prop) (err : Thrown) :
    (NetworkFailure err → ¬clientError err → Retried cfg r err) ↔
      (NetworkFailure err → ¬clientError err → Unshadowed err) := by
  refine imp_congr_right fun _ => imp_congr_right fun _ => ?_
  rw [Retried, defaultClassify_eq_transient_iff]
  refine and_iff_left_of_imp fun h => ?_
  have htarget : target cfg r err = cfg.retryTopic := by
    rw [target, hclassify, if_pos ⟨defaultClassify_eq_transient_iff.mpr h, hfirst⟩]
  intro now inflightCount hbudget
  have hover : ¬inflightCount (attemptKey cfg r) + parseAttempt r.message <
      cfg.inFlightAttempts := by
    omega
  have hsent : (withRetryPolicy cfg r (some err) now .acked inflightCount).sent.map Prod.fst =
      some cfg.retryTopic := by
    simp only [withRetryPolicy, if_neg hover, htarget, SendResult.delivered,
      if_true, Option.map_some]
  exact ⟨hsent, hsent ▸ fun heq => htopics (Option.some.inj heq)⟩

namespace NetworkSample

/-- A refused connection. -/
def refused (port : String) : Thrown := .error "Error" ("connect ECONNREFUSED 10.0.0.7:" ++ port)

/-- A trade, as it first arrives. -/
def firstDelivery : Record := ⟨Topic.name .TRADES, 0, 17, ⟨none, some [], []⟩⟩

def worker : RetryPolicyConfig := policy "candle-aggregator" 2 defaultClassify

theorem refused_networkFailure (port : String) : NetworkFailure (refused port) := by
  refine ⟨"connect ".toList, "ECONNREFUSED".toList, " 10.0.0.7:".toList ++
    port.toList, by decide +kernel,
    "Error", .inl ?_⟩
  refine congrArg (Thrown.error "Error") (String.toList_injective ?_)
  simp

end NetworkSample

open NetworkSample in
/-- A refused connection to the database is retried. -/
theorem network_transient_refused :
    (worker.classify = defaultClassify ∧ worker.retryTopic ≠ worker.dlqTopic ∧
      parseAttempt firstDelivery.message = 0) ∧ Retried worker firstDelivery (refused "5432") := by
  refine ⟨⟨rfl, by decide, rfl⟩, ?_⟩
  refine (network_transient_iff worker rfl (by decide) firstDelivery rfl
    (fun _ => False) (refused "5432")).mpr
    (fun _ _ => ?_) (refused_networkFailure "5432") id
  exact defaultClassify_eq_transient_iff.mp (by decide +kernel)

open NetworkSample in
/-- One to a server on port 443 is taken for a response with that status. -/
theorem network_permanent_port : NetworkFailure (refused "443") ∧
    defaultClassify (refused "443") = .permanent ∧
    (withRetryPolicy worker firstDelivery (some (refused "443")) 0 .acked
      fun _ => 2).sent.map Prod.fst =
      some worker.dlqTopic :=
  ⟨refused_networkFailure "443", by decide +kernel, by decide +kernel⟩

end Orbit.RetryPolicy
