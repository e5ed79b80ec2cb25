import Mathlib.Data.List.Induction
import Orbit.Workers.RetryPolicy

/-!
# No message is lost, and none is retried for ever

What the headers of an escalated message say (`hasText_escalation`), what the policy can do with a
message whose handler throws (`withRetryPolicy_some`), and from these the two sides of the pipeline:
no step loses the message (`safe_step`), and in a run without crashes and failed sends it goes
through the stages of `Stage` one after the other (`at_step`).

* `retry_pipeline`: the message is held somewhere until its handler succeeds; and in a clean run it
  enters the retry topic at most once, its handler runs at most `n + 1` times in the first stay and
  once in the second, its header grows with every escalation, and it ends in exactly one of success
  and the dead letter queue.
-/

namespace Orbit

open Table

namespace RetryPolicy

/-! ## What the headers of a message say -/

theorem number_repr (n : ℕ) : number (Nat.repr n) = some n := by
  have hdigits : (Nat.repr n).toList.all Char.isDigit = true := by
    rw [List.all_eq_true, Nat.toList_repr]
    intro c hc
    exact Nat.isDigit_of_mem_toDigits (by decide) (by decide) hc
  rw [number, if_pos hdigits, Nat.toList_repr, Nat.ofDigitChars_ten_toDigits]

theorem repr_ne (n : ℕ) : Nat.repr n ≠ "" := by
  intro he
  have := congrArg String.toList he
  rw [Nat.toList_repr] at this
  exact Nat.toDigits_ne_nil this

/-- The header of a name holds a text. -/
def HasText (headers : List Header) (name s : String) : Prop :=
  find? name headers = some ⟨name, .text s⟩

theorem HasText.readHeader {headers : List Header} {name s : String} (h : HasText headers name s) :
    readHeader headers name = some s := by
  simp only [RetryPolicy.readHeader, show find? name headers = _ from h, Option.map_some]

theorem HasText.parseAttempt {message : KafkaMessage} {n : ℕ}
    (h : HasText message.headers "x-orbit-attempt" (Nat.repr n)) : parseAttempt message = n := by
  simp only [RetryPolicy.parseAttempt, h.readHeader, if_neg (repr_ne n),
    number_repr, Option.getD_some]

theorem find?_withHeader (name' s name : String) (headers : List Header) :
    find? name (withHeader name' s headers) =
      if name = name' then some ⟨name', .text s⟩ else find? name headers := by
  unfold withHeader
  rw [find?_upsert (f := fun h : Header => { h with value := .text s }) fun _ => rfl]
  by_cases hname : name = name'
  · rw [if_pos (show name = key _ from hname), if_pos hname]
    cases h : find? name headers with
    | none => rfl
    | some x =>
      have hx : x.name = name' := (key_of_find? h).trans hname
      rw [Option.map_some, Option.getD_some, hx]
  · rw [if_neg (show name ≠ key _ from hname), if_neg hname]

theorem hasText_withHeader (name s : String) (headers : List Header) :
    HasText (withHeader name s headers) name s := by
  unfold HasText
  rw [find?_withHeader, if_pos rfl]

theorem HasText.withHeader {headers : List Header} {name s : String} (h : HasText headers name s)
    (name' s' : String) (hne : name ≠ name') : HasText (withHeader name' s' headers) name s := by
  unfold HasText
  rw [find?_withHeader, if_neg hne]
  exact h

theorem HasText.materializeHeaders {headers : List Header} {name s : String}
    (h : HasText headers name s) : HasText (materializeHeaders headers) name s := by
  unfold HasText at h ⊢
  induction headers with
  | nil => cases h
  | cons x xs ih =>
    rw [find?_cons] at h
    unfold RetryPolicy.materializeHeaders
    by_cases hx : key x = name
    · rw [if_pos hx, Option.some.injEq] at h
      subst h
      rw [List.filter_cons_of_pos rfl, find?_cons, if_pos hx]
    · rw [if_neg hx] at h
      cases htext : x.value.isText with
      | true =>
        rw [List.filter_cons_of_pos (by simp [htext]), find?_cons, if_neg hx]
        exact ih h
      | false =>
        rw [List.filter_cons_of_neg (by simp [htext])]
        exact ih h

section Escalation

variable (cfg : RetryPolicyConfig) (r : Record) (err : Thrown) (total : ℕ) (retryAfter : Option ℕ)

/-- The headers that the retry depends on. -/
theorem hasText_escalation :
    HasText (escalation cfg r err total retryAfter).headers "x-orbit-original-topic" r.topic ∧
    HasText (escalation cfg r err total retryAfter).headers "x-orbit-attempt"
      (Nat.repr (total + 1)) := by
  have htopic := hasText_withHeader "x-orbit-original-topic" r.topic
    (materializeHeaders r.message.headers)
    |>.withHeader "x-orbit-original-partition" (Nat.repr r.partition) (by decide)
    |>.withHeader "x-orbit-original-offset" (Nat.repr r.offset) (by decide)
    |>.withHeader "x-orbit-attempt" (Nat.repr (total + 1)) (by decide)
    |>.withHeader "x-orbit-last-error" (truncate (formatError err) 1000) (by decide)
    |>.withHeader "x-orbit-worker" cfg.worker (by decide)
  have hattempt : ∀ hs, HasText (hs |> withHeader "x-orbit-attempt" (Nat.repr (total + 1))
      |> withHeader "x-orbit-last-error" (truncate (formatError err) 1000)
      |> withHeader "x-orbit-worker" cfg.worker) "x-orbit-attempt" (Nat.repr (total + 1)) :=
    fun hs => hasText_withHeader _ _ hs |>.withHeader _ _ (by decide) |>.withHeader _ _ (by decide)
  cases retryAfter with
  | none => exact ⟨htopic, hattempt _⟩
  | some t =>
    exact ⟨htopic.withHeader _ _ (by decide), (hattempt _).withHeader _ _ (by decide)⟩

end Escalation

/-- **What the policy can do** when the handler throws: leave the message for another
attempt, or send it on. -/
theorem withRetryPolicy_some (cfg : RetryPolicyConfig) (r : Record) (err : Thrown) (now : ℕ)
    (send : SendResult) (counts : AttemptKey → ℕ) :
    (counts (attemptKey cfg r) + parseAttempt r.message < cfg.inFlightAttempts ∧
      withRetryPolicy cfg r (some err) now send counts =
        ⟨Function.update counts (attemptKey cfg r) (counts (attemptKey cfg r) + 1), none, false⟩) ∨
    cfg.inFlightAttempts ≤ counts (attemptKey cfg r) + parseAttempt r.message ∧
      ∃ topic message,
        (topic = cfg.retryTopic ∧ parseAttempt r.message = 0 ∨ topic = cfg.dlqTopic) ∧
        message.value = r.message.value ∧
        HasText message.headers "x-orbit-original-topic" r.topic ∧
        HasText message.headers "x-orbit-attempt"
          (Nat.repr (counts (attemptKey cfg r) + parseAttempt r.message + 1)) ∧
        withRetryPolicy cfg r (some err) now send counts =
          ⟨Function.update counts (attemptKey cfg r) 0,
            if send.delivered then some (topic, message) else none, send = .acked⟩ := by
  rcases lt_or_ge (counts (attemptKey cfg r) + parseAttempt r.message)
    cfg.inFlightAttempts with h | h
  · refine .inl ⟨h, ?_⟩
    simp only [withRetryPolicy, if_pos h]
  · refine .inr ⟨h, target cfg r err, escalation cfg r err
      (counts (attemptKey cfg r) + parseAttempt r.message)
      (if target cfg r err = cfg.retryTopic then some (now + cfg.retryDelayMs) else none),
      ?_, rfl, (hasText_escalation _ _ _ _ _).1, (hasText_escalation _ _ _ _ _).2, ?_⟩
    · unfold target
      split
      · rename_i hretry
        exact .inl ⟨rfl, hretry.2⟩
      · exact .inr rfl
    · simp only [withRetryPolicy, if_neg (not_lt.mpr h)]

/-- What the policy sends. -/
theorem sent_withRetryPolicy {cfg : RetryPolicyConfig} {r : Record}
    {outcome : Option Thrown} {now : ℕ}
    {send : SendResult} {counts : AttemptKey → ℕ} {topic : String} {message : KafkaMessage}
    (h : (withRetryPolicy cfg r outcome now send counts).sent = some (topic, message)) :
    (topic = cfg.retryTopic ∨ topic = cfg.dlqTopic) ∧
      ∃ err total retryAfter, message = escalation cfg r err total retryAfter := by
  cases outcome with
  | none => cases h
  | some err =>
    simp only [withRetryPolicy] at h
    split at h
    · cases h
    dsimp only at h
    split at h
    · obtain ⟨rfl, rfl⟩ := Prod.mk.inj (Option.some.inj h)
      refine ⟨?_, err, _, _, rfl⟩
      unfold target
      split
      · exact .inl rfl
      · exact .inr rfl
    · cases h

/-- The policy counts for the offset of the message only. -/
theorem inflightCount_withRetryPolicy {cfg : RetryPolicyConfig} {r : Record} {key : AttemptKey}
    (hkey : key ≠ attemptKey cfg r) (outcome : Option Thrown) (now : ℕ) (send : SendResult)
    (counts : AttemptKey → ℕ) :
    (withRetryPolicy cfg r outcome now send counts).inflightCount key = counts key := by
  cases outcome with
  | none => exact Function.update_of_ne hkey ..
  | some err =>
    simp only [withRetryPolicy]
    split
    · exact Function.update_of_ne hkey ..
    · exact Function.update_of_ne hkey ..

/-- The `retry-30s` worker sends a message with an original topic back there. -/
theorem retry30s_of_hasText {message : KafkaMessage} {topic : String}
    (hvalue : message.value ≠ none)
    (h : HasText message.headers "x-orbit-original-topic" topic) (hne : topic ≠ "")
    (send : SendResult) :
    retry30s message send =
      (if send.delivered then
        some (topic, { message with headers := materializeHeaders message.headers }) else none,
        decide (send = .acked)) := by
  simp only [retry30s, if_neg hvalue, h.materializeHeaders.readHeader, if_neg hne]

/-! ## Nothing is lost -/

/-- A copy that the consumer of its topic does not drop. -/
def Sound (main : Topic) (r : Record) : Prop :=
  r.message.value ≠ none ∧
    (r.topic = main.name ∨
      r.topic = DEFAULT_RETRY_TOPIC ∧
        HasText r.message.headers "x-orbit-original-topic" main.name ∨
      r.topic = DEFAULT_DLQ_TOPIC)

/-- The message lies before an offset of the topic or of the retry topic, or in the dead letter
queue. -/
def Pipeline.Held (main : Topic) (s : Pipeline) : Prop :=
  ∃ r ∈ s.pending, r.topic = main.name ∨ r.topic = DEFAULT_RETRY_TOPIC ∨ r.topic = DEFAULT_DLQ_TOPIC

/-- Some run of the handler returned. -/
def Pipeline.Succeeded (s : Pipeline) : Prop := ∃ r, .handled r true ∈ s.history

section Lost

variable {main : Topic} {s : Pipeline}

theorem Topic.name_ne (main : Topic) :
    main.name ≠ DEFAULT_RETRY_TOPIC ∧ main.name ≠ DEFAULT_DLQ_TOPIC ∧ main.name ≠ "" := by
  cases main <;> decide

/-- All copies are sound. -/
def Pipeline.AllSound (main : Topic) (s : Pipeline) : Prop :=
  (∀ r ∈ s.pending, Sound main r) ∧ ∀ r ∈ s.passed, Sound main r

theorem Pipeline.AllSound.moveOn (hs : s.AllSound main) {i : ℕ} {r : Record}
    (hi : s.pending[i]? = some r) (returned : Bool) : (s.moveOn i r returned).AllSound main := by
  unfold Pipeline.moveOn
  split
  · refine ⟨fun x hx => hs.1 x (List.mem_of_mem_eraseIdx hx), fun x hx => ?_⟩
    rcases List.mem_append.mp hx with hx | hx
    · exact hs.2 x hx
    · rw [List.mem_singleton.mp hx]
      exact hs.1 r (List.mem_of_getElem? hi)
  · exact hs

theorem Pipeline.AllSound.receive (hs : s.AllSound main) {sent : Option (String × KafkaMessage)}
    {partition offset : ℕ} {event : Record → Event}
    (h : ∀ t m, sent = some (t, m) → Sound main ⟨t, partition, offset, m⟩) :
    (s.receive sent partition offset event).AllSound main := by
  unfold Pipeline.receive
  rcases sent with _ | ⟨t, m⟩
  · exact hs
  · refine ⟨fun x hx => ?_, hs.2⟩
    rcases List.mem_append.mp hx with hx | hx
    · exact hs.1 x hx
    · rw [List.mem_singleton.mp hx]
      exact h t m rfl

/-- A consumer that moves past a copy without sending another loses it; no other step does. -/
theorem pending_ne_nil (hs : s.pending ≠ []) {i : ℕ} {r : Record} {returned : Bool}
    {sent : Option (String × KafkaMessage)} {partition offset : ℕ} {event : Record → Event}
    (h : returned = true → sent ≠ none) :
    ((s.moveOn i r returned).receive sent partition offset event).pending ≠ [] := by
  unfold Pipeline.receive
  rcases sent with _ | ⟨t, m⟩
  · cases returned with
    | true => exact absurd rfl (h rfl)
    | false => exact hs
  · simp

variable {worker : String} {n : ℕ} {classify : Thrown → ErrorKind}

/-- The message is not lost: every copy is sound, and until the handler succeeds there is one. -/
structure Pipeline.Safe (main : Topic) (s : Pipeline) : Prop where
  sound : s.AllSound main
  kept : s.Succeeded ∨ s.pending ≠ []

/-- A message that `withRetryPolicy` sends on is not dropped there. -/
theorem sound_escalated {r : Record} (hr : r.topic = main.name) (hvalue : r.message.value ≠ none)
    {topic : String} {message : KafkaMessage} {partition offset : ℕ}
    (htopic : topic = DEFAULT_RETRY_TOPIC ∨ topic = DEFAULT_DLQ_TOPIC)
    (hv : message.value = r.message.value)
    (horig : HasText message.headers "x-orbit-original-topic" r.topic) :
    Sound main ⟨topic, partition, offset, message⟩ := by
  refine ⟨hv ▸ hvalue, ?_⟩
  rcases htopic with rfl | rfl
  · exact .inr (.inl ⟨rfl, hr ▸ horig⟩)
  · exact .inr (.inr rfl)

theorem safe_consume (hs : s.Safe main) (i : ℕ) (outcome : Option Thrown) (now : ℕ)
    (send : SendResult) (partition offset : ℕ) :
    (step (policy worker n classify) main s
      (.consume i outcome now send partition offset)).Safe main := by
  simp only [step]
  cases hi : s.pending[i]? with
  | none => exact hs
  | some r =>
    dsimp only
    have hr : Sound main r := hs.sound.1 r (List.mem_of_getElem? hi)
    have hne : s.pending ≠ [] := List.ne_nil_of_mem (List.mem_of_getElem? hi)
    split
    · exact hs
    rename_i htopic
    rw [not_not] at htopic
    rw [if_neg hr.1]
    have hsound : ∀ ok counts, (s.handle r ok counts).AllSound main := fun _ _ => hs.sound
    have hpending : ∀ ok counts, (s.handle r ok counts).pending[i]? = some r := fun _ _ => hi
    have hne' : ∀ ok counts, (s.handle r ok counts).pending ≠ [] := fun _ _ => hne
    cases outcome with
    | none =>
      refine ⟨((hsound _ _).moveOn (hpending _ _) _).receive ?_, .inl ⟨r, ?_⟩⟩
      · intro t m h
        cases h
      · simp [withRetryPolicy, Pipeline.receive, Pipeline.moveOn, Pipeline.handle]
    | some err =>
      rcases withRetryPolicy_some (policy worker n classify) r err now send s.inflightCount with
        ⟨-, hout⟩ | ⟨-, topic, message, htarget, hv, horig, -, hout⟩ <;> rw [hout]
      · refine ⟨((hsound _ _).moveOn (hpending _ _) _).receive ?_,
          .inr (pending_ne_nil (hne' _ _) ?_)⟩
        · intro t m h
          cases h
        · intro h
          cases h
      · refine ⟨((hsound _ _).moveOn (hpending _ _) _).receive ?_,
          .inr (pending_ne_nil (hne' _ _) ?_)⟩
        · intro t m h
          split at h
          · cases h
            exact sound_escalated htopic hr.1 (htarget.imp_left And.left) hv horig
          · cases h
        · intro h
          obtain rfl := of_decide_eq_true h
          simp [SendResult.delivered]

theorem safe_retry (hs : s.Safe main) (i : ℕ) (send : SendResult) (partition offset : ℕ) :
    (step (policy worker n classify) main s (.retry i send partition offset)).Safe main := by
  simp only [step]
  cases hi : s.pending[i]? with
  | none => exact hs
  | some r =>
    dsimp only
    obtain ⟨hvalue, hr⟩ : Sound main r := hs.sound.1 r (List.mem_of_getElem? hi)
    have hne : s.pending ≠ [] := List.ne_nil_of_mem (List.mem_of_getElem? hi)
    obtain ⟨hretry, -, hempty⟩ := Topic.name_ne main
    split
    · exact hs
    rename_i htopic
    rw [not_not] at htopic
    have horig : HasText r.message.headers "x-orbit-original-topic" main.name := by
      rcases hr with h | ⟨-, h⟩ | h
      · exact absurd (h.symm.trans htopic) hretry
      · exact h
      · exact absurd (h.symm.trans htopic) (by decide)
    rw [retry30s_of_hasText hvalue horig hempty]
    refine ⟨Pipeline.AllSound.receive (hs.sound.moveOn hi _) ?_, .inr ?_⟩
    · intro t m h
      split at h
      · cases h
        exact ⟨hvalue, .inl rfl⟩
      · cases h
    · refine pending_ne_nil hne fun h => ?_
      obtain rfl := of_decide_eq_true h
      simp [SendResult.delivered]

/-- **No step loses the message.** -/
theorem safe_step (hs : s.Safe main) (st : Step) :
    (step (policy worker n classify) main s st).Safe main := by
  cases st with
  | consume i outcome now send partition offset =>
    exact safe_consume hs i outcome now send partition offset
  | retry i send partition offset => exact safe_retry hs i send partition offset
  | commit topic =>
    exact ⟨⟨hs.sound.1, fun r hr => hs.sound.2 r (List.mem_of_mem_filter hr)⟩, hs.kept⟩
  | crash topic =>
    refine ⟨⟨fun r hr => ?_, fun r hr => hs.sound.2 r (List.mem_of_mem_filter hr)⟩, ?_⟩
    · rcases List.mem_append.mp hr with hr | hr
      · exact hs.sound.1 r hr
      · exact hs.sound.2 r (List.mem_of_mem_filter hr)
    · exact hs.kept.imp_right fun h => by simp [step, h]

theorem safe_run (hs : s.Safe main) (steps : List Step) :
    (run (policy worker n classify) main s steps).Safe main := by
  induction steps generalizing s with
  | nil => exact hs
  | cons st steps ih => exact ih (safe_step hs st)

theorem held_of_safe (hs : s.Safe main) : s.Succeeded ∨ s.Held main := by
  refine hs.kept.imp_right fun h => ?_
  obtain ⟨r, hr⟩ := List.exists_mem_of_ne_nil _ h
  exact ⟨r, hr, (hs.sound.1 r hr).2.imp_right (Or.imp_left And.left)⟩

end Lost

/-! ## Clean runs -/

section Clean

variable {main : Topic} {worker : String} {n : ℕ} {classify : Thrown → ErrorKind} {r₀ : Record}

/-- How far the message has come in a run in which nothing crashes and every send succeeds: the
pending copies, the map of the process, and what happened. -/
inductive Stage (main : Topic) (worker : String) (n : ℕ) (classify : Thrown → ErrorKind)
    (r₀ : Record) : List Record → (AttemptKey → ℕ) → List Event → Prop
  | first {k : ℕ} (hk : k ≤ n) : Stage main worker n classify r₀ [r₀]
      (Function.update (fun _ => 0) (attemptKey (policy worker n classify) r₀) k)
      (List.replicate k (.handled r₀ false))
  | firstDone {k : ℕ} (hk : k ≤ n) : Stage main worker n classify r₀ [] (fun _ => 0)
      (List.replicate k (.handled r₀ false) ++ [.handled r₀ true])
  | waiting {r₁ : Record} (htopic : r₁.topic = DEFAULT_RETRY_TOPIC)
      (hvalue : r₁.message.value ≠ none)
      (horig : HasText r₁.message.headers "x-orbit-original-topic" main.name)
      (hattempt : HasText r₁.message.headers "x-orbit-attempt" (Nat.repr (n + 1))) :
      Stage main worker n classify r₀ [r₁] (fun _ => 0)
        (List.replicate (n + 1) (.handled r₀ false) ++ [.escalated r₀ r₁])
  | second {r₁ r₂ : Record} (hretry : parseAttempt r₁.message = n + 1)
      (htopic : r₂.topic = main.name) (hvalue : r₂.message.value ≠ none)
      (hattempt : parseAttempt r₂.message = n + 1) :
      Stage main worker n classify r₀ [r₂] (fun _ => 0)
        (List.replicate (n + 1) (.handled r₀ false) ++ [.escalated r₀ r₁, .republished r₁ r₂])
  | secondDone {r₁ r₂ : Record} (hretry : parseAttempt r₁.message = n + 1)
      (hattempt : parseAttempt r₂.message = n + 1) :
      Stage main worker n classify r₀ [] (fun _ => 0)
        (List.replicate (n + 1) (.handled r₀ false) ++
          [.escalated r₀ r₁, .republished r₁ r₂, .handled r₂ true])
  | firstDead {d : Record} (htopic : d.topic = DEFAULT_DLQ_TOPIC)
      (hattempt : parseAttempt d.message = n + 1) :
      Stage main worker n classify r₀ [d] (fun _ => 0)
        (List.replicate (n + 1) (.handled r₀ false) ++ [.escalated r₀ d])
  | secondDead {r₁ r₂ d : Record} (hretry : parseAttempt r₁.message = n + 1)
      (hattempt : parseAttempt r₂.message = n + 1) (htopic : d.topic = DEFAULT_DLQ_TOPIC)
      (hdead : parseAttempt d.message = n + 2) :
      Stage main worker n classify r₀ [d] (fun _ => 0)
        (List.replicate (n + 1) (.handled r₀ false) ++
          [.escalated r₀ r₁, .republished r₁ r₂, .handled r₂ false, .escalated r₂ d])

/-- The stage of a pipeline. -/
def Pipeline.At (main : Topic) (worker : String) (n : ℕ)
    (classify : Thrown → ErrorKind) (r₀ : Record)
    (s : Pipeline) : Prop :=
  Stage main worker n classify r₀ s.pending s.inflightCount s.history

/-- A pending copy that is consumed is the only one. -/
theorem eq_of_getElem?_singleton {r r' : Record} {i : ℕ}
    (h : [r][i]? = some r') : i = 0 ∧ r' = r := by
  cases i with
  | zero => exact ⟨rfl, (Option.some.inj h).symm⟩
  | succ i => simp at h

theorem update_update_zero (k : AttemptKey) (x : ℕ) :
    Function.update (Function.update (fun _ => 0) k x) k 0 = fun _ => 0 := by
  rw [Function.update_idem, Function.update_eq_self_iff]

variable {s : Pipeline}

/-- The worker consumes the only copy, and the send, if there is one, succeeds. -/
theorem consume_singleton {r : Record} (hp : s.pending = [r]) (htopic : r.topic = main.name)
    (hvalue : r.message.value ≠ none) (outcome : Option Thrown) (now partition offset : ℕ)
    {s' : Pipeline} (hs' : step (policy worker n classify) main s
      (.consume 0 outcome now .acked partition offset) = s') :
    let key := attemptKey (policy worker n classify) r
    let total := s.inflightCount key + parseAttempt r.message
    (s'.pending = [] ∧ s'.inflightCount = Function.update s.inflightCount key 0 ∧
      s'.history = s.history ++ [.handled r true]) ∨
    (total < n ∧ s'.pending = [r] ∧
      s'.inflightCount = Function.update s.inflightCount key (s.inflightCount key + 1) ∧
      s'.history = s.history ++ [.handled r false]) ∨
    (n ≤ total ∧ ∃ r' : Record,
      (r'.topic = DEFAULT_RETRY_TOPIC ∧ parseAttempt r.message = 0 ∨
        r'.topic = DEFAULT_DLQ_TOPIC) ∧
      r'.message.value = r.message.value ∧
      HasText r'.message.headers "x-orbit-original-topic" main.name ∧
      HasText r'.message.headers "x-orbit-attempt" (Nat.repr (total + 1)) ∧
      s'.pending = [r'] ∧ s'.inflightCount = Function.update s.inflightCount key 0 ∧
      s'.history = s.history ++ [.handled r false, .escalated r r']) := by
  intro key total
  subst hs'
  have hi : s.pending[0]? = some r := by rw [hp]; rfl
  simp only [step, hi, htopic, ne_eq, not_true_eq_false, if_false, if_neg hvalue]
  cases outcome with
  | none =>
    left
    simp [withRetryPolicy, Pipeline.receive, Pipeline.moveOn, Pipeline.handle, hp, key]
  | some err =>
    right
    rcases withRetryPolicy_some (policy worker n classify) r err now .acked s.inflightCount with
      ⟨hlt, hout⟩ | ⟨hle, topic, message, htarget, hv, horig, hattempt, hout⟩ <;> rw [hout]
    · left
      exact ⟨hlt, hp, rfl, rfl⟩
    · right
      rw [htopic] at horig
      refine ⟨hle, ⟨topic, partition, offset, message⟩, htarget, hv, horig, hattempt, ?_⟩
      simp [Pipeline.receive, Pipeline.moveOn, Pipeline.handle, SendResult.delivered, hp, key]

/-- `retry-30s` consumes the only copy, and the send succeeds. -/
theorem retry_singleton {r : Record} (hp : s.pending = [r]) (htopic : r.topic = DEFAULT_RETRY_TOPIC)
    (hvalue : r.message.value ≠ none)
    (horig : HasText r.message.headers "x-orbit-original-topic" main.name) (partition offset : ℕ)
    {s' : Pipeline} (hs' : step (policy worker n classify) main s
      (.retry 0 .acked partition offset) = s') :
    ∃ r' : Record, r'.topic = main.name ∧ r'.message.value = r.message.value ∧
      r'.message.headers = materializeHeaders r.message.headers ∧
      s'.pending = [r'] ∧ s'.inflightCount = s.inflightCount ∧
      s'.history = s.history ++ [.republished r r'] := by
  subst hs'
  have hi : s.pending[0]? = some r := by rw [hp]; rfl
  simp only [step, hi, htopic, ne_eq, not_true_eq_false, if_false]
  rw [retry30s_of_hasText hvalue horig (Topic.name_ne main).2.2]
  refine ⟨⟨main.name, partition, offset,
    { r.message with headers := materializeHeaders r.message.headers }⟩, rfl, rfl, rfl, ?_⟩
  simp [Pipeline.receive, Pipeline.moveOn, SendResult.delivered, hp]

/-- A consumer leaves alone what is not on its topic. -/
theorem step_other_topic {r : Record} (hp : s.pending = [r]) (st : Step)
    (h : match st with
      | .consume .. => r.topic ≠ main.name
      | .retry .. => r.topic ≠ DEFAULT_RETRY_TOPIC
      | .commit _ => True
      | .crash _ => False) :
    (step (policy worker n classify) main s st).pending = s.pending ∧
    (step (policy worker n classify) main s st).inflightCount = s.inflightCount ∧
    (step (policy worker n classify) main s st).history = s.history := by
  cases st with
  | consume i outcome now send partition offset | retry i send partition offset =>
    simp only [step]
    cases hi : s.pending[i]? with
    | none => exact ⟨rfl, rfl, rfl⟩
    | some r' =>
      rw [hp] at hi
      obtain ⟨-, rfl⟩ := eq_of_getElem?_singleton hi
      simp only [if_pos h, and_self]
  | commit topic => exact ⟨rfl, rfl, rfl⟩
  | crash topic => cases h

/-- When no copy is pending, nothing happens any more. -/
theorem step_nil (hp : s.pending = []) {st : Step} (h : st.Clean) :
    (step (policy worker n classify) main s st).pending = s.pending ∧
    (step (policy worker n classify) main s st).inflightCount = s.inflightCount ∧
    (step (policy worker n classify) main s st).history = s.history := by
  cases st with
  | consume i outcome now send partition offset | retry i send partition offset =>
    have hi : s.pending[i]? = none := by rw [hp]; rfl
    simp only [step, hi, and_self]
  | commit topic => exact ⟨rfl, rfl, rfl⟩
  | crash topic => cases h

theorem Pipeline.At.of_eq {s' : Pipeline} (h : s.At main worker n classify r₀)
    (heq : s'.pending = s.pending ∧ s'.inflightCount = s.inflightCount ∧ s'.history = s.history) :
    s'.At main worker n classify r₀ := by
  obtain ⟨h₁, h₂, h₃⟩ := heq
  unfold Pipeline.At
  rw [h₁, h₂, h₃]
  exact h

theorem consume_succ {r : Record} (hp : s.pending = [r]) (i : ℕ) (outcome : Option Thrown) (now : ℕ)
    (send : SendResult) (partition offset : ℕ) :
    step (policy worker n classify) main s
      (.consume (i + 1) outcome now send partition offset) = s := by
  simp [step, hp]

theorem retry_succ {r : Record} (hp : s.pending = [r]) (i : ℕ) (send : SendResult)
    (partition offset : ℕ) :
    step (policy worker n classify) main s (.retry (i + 1) send partition offset) = s := by
  simp [step, hp]

variable (htopic : r₀.topic = main.name) (hvalue : r₀.message.value ≠ none)
  (hheader : parseAttempt r₀.message = 0)

include htopic hvalue hheader in
/-- The handler runs on the message in its first stay. -/
theorem at_consume_first {k : ℕ} (hk : k ≤ n) (hp : s.pending = [r₀])
    (hc : s.inflightCount =
      Function.update (fun _ => 0) (attemptKey (policy worker n classify) r₀) k)
    (hh : s.history = List.replicate k (.handled r₀ false)) (outcome : Option Thrown)
    (now partition offset : ℕ) :
    (step (policy worker n classify) main s
      (.consume 0 outcome now .acked partition offset)).At main worker n classify r₀ := by
  have hcount : s.inflightCount (attemptKey (policy worker n classify) r₀) = k := by
    rw [hc, Function.update_self]
  have hagain : List.replicate k (.handled r₀ false) ++ [.handled r₀ false] =
      List.replicate (k + 1) (Event.handled r₀ false) := List.replicate_succ'.symm
  unfold Pipeline.At
  rcases consume_singleton hp htopic hvalue outcome now partition offset rfl with
    ⟨hp', hc', hh'⟩ | ⟨hlt, hp', hc', hh'⟩ | ⟨hle, r', htarget, hv, horig, hattempt, hp', hc', hh'⟩
  · rw [hp', hc', hh', hh, hc, update_update_zero]
    exact .firstDone hk
  · rw [hcount, hheader] at hlt
    rw [hp', hc', hh', hcount, hh, hc, Function.update_idem, hagain]
    exact .first hlt
  · rw [hcount, hheader] at hle hattempt
    obtain rfl : k = n := le_antisymm hk hle
    rw [hp', hc', hh', hh, hc, update_update_zero, List.append_cons, hagain]
    rcases htarget with ⟨ht, -⟩ | ht
    · exact .waiting ht (hv ▸ hvalue) horig hattempt
    · exact .firstDead ht hattempt.parseAttempt

/-- The handler runs on the message in its second stay. -/
theorem at_consume_second {r₁ r₂ : Record} (hretry : parseAttempt r₁.message = n + 1)
    (ht : r₂.topic = main.name) (hv : r₂.message.value ≠ none)
    (hattempt : parseAttempt r₂.message = n + 1) (hp : s.pending = [r₂])
    (hc : s.inflightCount = fun _ => 0)
    (hh : s.history = List.replicate (n + 1) (.handled r₀ false) ++
      [.escalated r₀ r₁, .republished r₁ r₂]) (outcome : Option Thrown) (now partition offset : ℕ) :
    (step (policy worker n classify) main s
      (.consume 0 outcome now .acked partition offset)).At main worker n classify r₀ := by
  have hzero : ∀ key, Function.update (fun _ : AttemptKey => 0) key 0 = fun _ => 0 :=
    fun key => Function.update_eq_self_iff.mpr rfl
  unfold Pipeline.At
  rcases consume_singleton hp ht hv outcome now partition offset rfl with
    ⟨hp', hc', hh'⟩ | ⟨hlt, -⟩ | ⟨-, d, htarget, -, -, hdead, hp', hc', hh'⟩
  · rw [hp', hc', hh', hh, hc, hzero, List.append_assoc]
    exact .secondDone hretry hattempt
  · rw [hattempt] at hlt
    omega
  · rw [hc, hattempt, Nat.zero_add] at hdead
    rw [hp', hc', hh', hh, hc, hzero, List.append_assoc]
    have hdlq : d.topic = DEFAULT_DLQ_TOPIC := by
      rcases htarget with ⟨-, h0⟩ | h
      · rw [hattempt] at h0
        cases h0
      · exact h
    exact .secondDead hretry hattempt hdlq hdead.parseAttempt

include htopic hvalue hheader in
/-- **One clean step.** -/
theorem at_step (hs : s.At main worker n classify r₀) {st : Step} (hst : st.Clean) :
    (step (policy worker n classify) main s st).At main worker n classify r₀ := by
  obtain ⟨hretry, hdlq, -⟩ := Topic.name_ne main
  have hat := hs
  unfold Pipeline.At at hs
  generalize hp : s.pending = pending at hs
  generalize hc : s.inflightCount = counts at hs
  generalize hh : s.history = history at hs
  cases hs with
  | first hk =>
    rcases st with ⟨_ | i, outcome, now, send, p, o⟩ | ⟨i, send, p, o⟩ | topic | topic
    · obtain rfl : send = .acked := hst
      exact at_consume_first htopic hvalue hheader hk hp hc hh outcome now p o
    · rwa [consume_succ hp]
    · exact hat.of_eq (step_other_topic hp _ (htopic ▸ hretry))
    · exact hat.of_eq (step_other_topic hp _ trivial)
    · cases hst
  | firstDone hk => exact hat.of_eq (step_nil hp hst)
  | waiting ht hv horig hattempt =>
    rcases st with ⟨i, outcome, now, send, p, o⟩ | ⟨_ | i, send, p, o⟩ | topic | topic
    · exact hat.of_eq (step_other_topic hp _ (ht ▸ hretry.symm))
    · obtain rfl : send = .acked := hst
      obtain ⟨r', ht', hv', hheaders, hp', hc', hh'⟩ := retry_singleton hp ht hv horig p o rfl
      have hattempt' : HasText r'.message.headers "x-orbit-attempt" (Nat.repr (n + 1)) := by
        rw [hheaders]
        exact hattempt.materializeHeaders
      unfold Pipeline.At
      rw [hp', hc', hh', hh, hc, List.append_assoc]
      exact .second hattempt.parseAttempt ht' (hv' ▸ hv) hattempt'.parseAttempt
    · rwa [retry_succ hp]
    · exact hat.of_eq (step_other_topic hp _ trivial)
    · cases hst
  | second hr ht hv hattempt =>
    rcases st with ⟨_ | i, outcome, now, send, p, o⟩ | ⟨i, send, p, o⟩ | topic | topic
    · obtain rfl : send = .acked := hst
      exact at_consume_second hr ht hv hattempt hp hc hh outcome now p o
    · rwa [consume_succ hp]
    · exact hat.of_eq (step_other_topic hp _ (ht ▸ hretry))
    · exact hat.of_eq (step_other_topic hp _ trivial)
    · cases hst
  | secondDone hr hattempt => exact hat.of_eq (step_nil hp hst)
  | firstDead ht _ | secondDead _ _ ht _ =>
    refine hat.of_eq (step_other_topic hp st ?_)
    cases st with
    | consume => exact ht ▸ hdlq.symm
    | retry => exact ht ▸ (by decide : DEFAULT_DLQ_TOPIC ≠ DEFAULT_RETRY_TOPIC)
    | commit => trivial
    | crash => exact hst

include htopic hvalue hheader in
theorem at_run {steps : List Step} (h : ∀ st ∈ steps, st.Clean) :
    (run (policy worker n classify) main (.arrived r₀) steps).At main worker n classify r₀ := by
  induction steps using List.reverseRecOn with
  | nil =>
    unfold Pipeline.At
    have : Stage main worker n classify r₀ [r₀] (Function.update (fun _ => 0) _ 0) [] :=
      .first (Nat.zero_le n)
    rwa [Function.update_eq_self_iff.mpr rfl] at this
  | append_singleton steps st ih =>
    unfold run
    rw [List.foldl_append]
    exact at_step htopic hvalue hheader (ih fun x hx => h x (by simp [hx])) (h st (by simp))

/-- A copy arrives on the retry topic. -/
def Event.entersRetry : Event → Bool
  | .handled _ _ => false
  | .escalated _ r' => r'.topic = DEFAULT_RETRY_TOPIC
  | .republished _ _ => false

/-- The handler runs on a copy that has not been through the retry topic. -/
def Event.inFirstStay : Event → Bool
  | .handled r _ => parseAttempt r.message = 0
  | .escalated _ _ => false
  | .republished _ _ => false

/-- The handler runs on a copy that came back from the retry topic. -/
def Event.inSecondStay : Event → Bool
  | .handled r _ => parseAttempt r.message ≠ 0
  | .escalated _ _ => false
  | .republished _ _ => false

/-- What a clean run does, for a budget of `n` attempts. -/
structure Pipeline.Bounded (main : Topic) (n : ℕ) (s : Pipeline) : Prop where
  /-- The message enters the retry topic at most once. -/
  retries : s.history.countP Event.entersRetry ≤ 1
  first : s.history.countP Event.inFirstStay ≤ n + 1
  second : s.history.countP Event.inSecondStay ≤ 1
  /-- The header grows with every escalation. -/
  grows : ∀ r r', .escalated r r' ∈ s.history → parseAttempt r.message < parseAttempt r'.message
  /-- With no delivery pending, the message ended in exactly one of success and the queue. -/
  ends : (∀ r ∈ s.pending, r.topic ≠ main.name ∧ r.topic ≠ DEFAULT_RETRY_TOPIC) →
    Xor s.Succeeded (∃ r ∈ s.pending, r.topic = DEFAULT_DLQ_TOPIC)

include htopic hheader in
theorem bounded_of_at (hs : s.At main worker n classify r₀) : s.Bounded main n := by
  have hdlq : DEFAULT_DLQ_TOPIC ≠ DEFAULT_RETRY_TOPIC := by decide
  unfold Pipeline.At at hs
  generalize hp : s.pending = pending at hs
  generalize hc : s.inflightCount = counts at hs
  generalize hh : s.history = history at hs
  have hsucc : s.Succeeded ↔ ∃ r, .handled r true ∈ history := by
    unfold Pipeline.Succeeded
    rw [hh]
  -- the history is written out in every stage, and the counts are read off
  cases hs with
  | first hk =>
    constructor <;> simp [hp, hh, Event.entersRetry, Event.inFirstStay, Event.inSecondStay,
      hheader, htopic, List.countP_replicate]
    omega
  | firstDone hk =>
    constructor <;> simp [hp, hh, hsucc, Event.entersRetry, Event.inFirstStay, Event.inSecondStay,
      hheader, List.countP_replicate, Xor]
    omega
  | waiting ht hv horig hattempt =>
    constructor <;> simp [hp, hh, Event.entersRetry, Event.inFirstStay, Event.inSecondStay,
      hheader, ht, hattempt.parseAttempt, List.countP_replicate]
  | second hr ht hv hattempt =>
    constructor <;> simp [hp, hh, Event.entersRetry, Event.inFirstStay, Event.inSecondStay,
      hheader, ht, hr, List.countP_replicate, List.countP_cons]
    split <;> omega
  | secondDone hr hattempt =>
    constructor <;> simp [hp, hh, hsucc, Event.entersRetry, Event.inFirstStay, Event.inSecondStay,
      hheader, hr, hattempt, List.countP_replicate, List.countP_cons, Xor]
    split <;> omega
  | firstDead ht hattempt =>
    constructor <;> simp [hp, hh, hsucc, Event.entersRetry, Event.inFirstStay, Event.inSecondStay,
      hheader, ht, hattempt, hdlq, List.countP_replicate, Xor]
  | secondDead hr hattempt ht hdead =>
    constructor <;> simp [hp, hh, hsucc, Event.entersRetry, Event.inFirstStay, Event.inSecondStay,
      hheader, ht, hattempt, hdlq, List.countP_replicate, List.countP_cons, Xor]
    · split <;> omega
    · rintro r r' (⟨rfl, rfl⟩ | ⟨rfl, rfl⟩) <;> omega

end Clean

theorem parseAttempt_of_no_header {message : KafkaMessage}
    (h : find? "x-orbit-attempt" message.headers = none) : parseAttempt message = 0 := by
  simp only [parseAttempt, readHeader, h, Option.map_none]

/-- **The retry pipeline.** Whatever sends fail and processes crash, the message lies before an
offset of its topic or of the retry topic or in the dead letter queue until its handler succeeds. If
sends succeed and nothing crashes, it enters the retry topic at most once, its handler runs at most
`n + 1` times in the first stay and once in the second, the header grows with every escalation, and
when no delivery is pending it ended in exactly one of success and the dead letter queue. -/
theorem retry_pipeline (main : Topic) (worker : String) (n : ℕ) (classify : Thrown → ErrorKind)
    {r : Record} (htopic : r.topic = main.name) (hvalue : r.message.value ≠ none)
    (hheader : find? "x-orbit-attempt" r.message.headers = none) (steps : List Step) :
    let s := run (policy worker n classify) main (.arrived r) steps
    (s.Succeeded ∨ s.Held main) ∧ ((∀ st ∈ steps, st.Clean) → s.Bounded main n) := by
  intro s
  have hparse := parseAttempt_of_no_header hheader
  constructor
  · refine held_of_safe (safe_run ⟨⟨fun x hx => ?_, fun x hx => ?_⟩, .inr ?_⟩ steps)
    · rw [List.mem_singleton.mp hx]
      exact ⟨hvalue, .inl htopic⟩
    · cases hx
    · exact List.cons_ne_nil _ _
  · intro h
    exact bounded_of_at htopic hparse (at_run htopic hvalue hparse h)

namespace RetrySample

/-- A user event. -/
def userEvent : Record := ⟨Topic.USER_EVENTS.name, 0, 17, ⟨some "alice", some [123, 125], []⟩⟩

def refused : Thrown := .error "Error" "connect ECONNREFUSED"

/-- The handler always throws: three times, and once more after the retry topic. -/
def alwaysRefused : List Step :=
  [.consume 0 (some refused) 0 .acked 0 0, .consume 0 (some refused) 0 .acked 0 0,
    .consume 0 (some refused) 0 .acked 0 5, .retry 0 .acked 0 18,
    .consume 0 (some refused) 30000 .acked 0 9]

end RetrySample

/-- With the default budget the message arrives in the dead letter queue with the header `4`. -/
theorem retry_pipeline_dead :
    let s := run (policy "notification" 2 fun _ => .transient) .USER_EVENTS
      (.arrived RetrySample.userEvent) RetrySample.alwaysRefused
    s.pending.map (fun r => (r.topic, parseAttempt r.message)) = [(DEFAULT_DLQ_TOPIC, 4)] ∧
      s.Bounded .USER_EVENTS 2 := by
  refine ⟨by decide +kernel, ?_⟩
  refine (retry_pipeline .USER_EVENTS "notification" 2 (fun _ => .transient) rfl (by decide) rfl
    RetrySample.alwaysRefused).2 ?_
  intro st hst
  simp only [RetrySample.alwaysRefused, List.mem_cons, List.not_mem_nil, or_false] at hst
  rcases hst with rfl | rfl | rfl | rfl | rfl <;> exact rfl

end RetryPolicy

end Orbit
