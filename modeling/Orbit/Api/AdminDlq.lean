import Orbit.Foundations.Parties
import Orbit.Workers.DlqMonitor

/-!
# Replay and dismissal of dead letters

`replay` and `dismiss` of `apps/api/src/admin/dlq/admin-dlq.service.ts`. Both read the row, refuse
one that is resolved, and update it at the end whatever has become of it; `replay` sends the payload
to the original topic in between.

A call is cut at its `await`s. `Phase` says which one it is in, and `resume` what it does when that
one resolves. Any number of calls are made on one row, by any administrators, and their steps
interleave in any way.

* `resolution_exclusive`: at most one call succeeds, the payload is published at most once, and it
  is exactly when the row ends as `replayed`, in every run in which a send finds the row unresolved
  and the payload not published, an update finds the row unresolved and, for a dismissal, the
  payload not published, and no send or update of a replay fails half way.
* `undisputed_of_apart`: such are the runs in which no call reads the row while another one is
  between its read and its update, a send that fails has not delivered, and an update of a replay
  is carried out.
-/

namespace Orbit.Dlq

open RetryPolicy

/-- The message of a replay, without the headers of the retry policy, and the
topic it is sent to. -/
def replayMessage (row : DlqEvent) : String × KafkaMessage :=
  let traceparent := (readHeader row.headers "traceparent").getD ""
  let cleanHeaders := if traceparent = "" then [] else withHeader "traceparent" traceparent []
  (row.originalTopic,
    { key := some ((readHeader row.headers "x-orbit-original-key").getD row.originalOffset)
      value := some row.payload
      headers := withHeader "x-orbit-replay-of" (Nat.repr row.id) cleanHeaders })

inductive Action
  | replay
  | dismiss
  deriving DecidableEq, Repr

/-- What the row is marked as. -/
def Action.resolution : Action → Resolution
  | .replay => .replayed
  | .dismiss => .dismissed

namespace Admin

/-- The `await` a call is in, or how it ended. -/
inductive Phase
  /-- In `findUnique`. -/
  | reading
  /-- In `producer.send`. -/
  | sending
  /-- In `update`. -/
  | updating
  | succeeded
  | failed
  deriving DecidableEq, Repr

structure Call where
  action : Action
  admin : String
  phase : Phase
  deriving DecidableEq, Repr

/-- The row, the messages that were sent for it, and the calls. -/
structure System where
  row : DlqEvent
  published : List (String × KafkaMessage)
  calls : List Call
  deriving DecidableEq, Repr

/-- What a call does when its `await` resolves; `answer` says whether it throws, and whether it had
its effect. Without a producer the `send` is one that failed. -/
def resume (s : System) (c : Call) (answer : SendResult) : System × Phase :=
  match c.phase with
  | .reading =>
    if answer ≠ .acked ∨ s.row.resolution ≠ none then (s, .failed)
    else
      match c.action with
      | .replay => (s, .sending)
      | .dismiss => (s, .updating)
  | .sending =>
    ({ s with published := s.published ++ if answer.delivered then [replayMessage s.row] else [] },
      if answer = .acked then .updating else .failed)
  | .updating =>
    let row := { s.row with resolution := some c.action.resolution, resolvedBy := some c.admin }
    ({ s with row := if answer.delivered then row else s.row },
      if answer = .acked then .succeeded else .failed)
  | phase => (s, phase)

inductive Step
  | call (action : Action) (admin : String)
  /-- The `await` of the call number `i` resolves. -/
  | resume (i : ℕ) (answer : SendResult)
  deriving DecidableEq, Repr

def step (s : System) : Step → System
  | .call action admin => { s with calls := s.calls ++ [⟨action, admin, .reading⟩] }
  | .resume i answer =>
    match s.calls[i]? with
    | none => s
    | some c =>
      let (s', phase) := resume s c answer
      { s' with calls := s.calls.set i { c with phase } }

def run (s : System) (steps : List Step) : System := steps.foldl step s

/-- No call is under way. -/
def System.Settled (s : System) : Prop := ∀ c ∈ s.calls, c.phase = .succeeded ∨ c.phase = .failed

def Call.done (c : Call) : Bool := c.phase = .succeeded

/-- **The resolution is exclusive.** -/
structure System.Exclusive (s : System) : Prop where
  successes : s.calls.countP Call.done ≤ 1
  published : s.published.length ≤ 1
  replayed : s.Settled → (s.published ≠ [] ↔ s.row.resolution = some .replayed)

/-- The condition on an `await` of a call that resolves. -/
def Undisputed (s : System) : Step → Prop
  | .call _ _ => True
  | .resume i answer => ∀ c ∈ s.calls[i]?,
      (c.phase = .sending → answer.delivered = true →
        answer = .acked ∧ s.row.resolution = none ∧ s.published = []) ∧
      (c.phase = .updating → answer.delivered = true →
        s.row.resolution = none ∧ (c.action = .dismiss → s.published = [])) ∧
      (c.phase = .updating → c.action = .replay → answer.delivered = true)

instance (s : System) : (st : Step) → Decidable (Undisputed s st)
  | .call _ _ => inferInstanceAs (Decidable True)
  | .resume i _ => inferInstanceAs (Decidable (∀ c ∈ s.calls[i]?, _))

/-! ## What the resolution says of the calls -/

/-- A replay that has published and not updated the row yet. -/
def Call.sent (c : Call) : Bool := c.action = .replay ∧ c.phase = .updating

/-- The numbers of successful calls, of replays between their send and their update, and of messages
that go with a resolution. -/
def Counts (resolution : Option Resolution) (done sent published : ℕ) : Prop :=
  match resolution with
  | none => done = 0 ∧ published = sent ∧ published ≤ 1
  | some .replayed => done ≤ 1 ∧ sent = 0 ∧ published = 1
  | some .dismissed => done ≤ 1 ∧ sent = 0 ∧ published = 0

structure System.Consistent (s : System) : Prop where
  counts : Counts s.row.resolution (s.calls.countP Call.done) (s.calls.countP Call.sent)
    s.published.length
  /-- Only a replay sends. -/
  sending : ∀ c ∈ s.calls, c.phase = .sending → c.action = .replay

section Runs

variable {s : System} {i : ℕ} {c : Call}

/-- A call moves on: what is left to see is the counts. -/
theorem System.Consistent.move (hs : s.Consistent) (hi : s.calls[i]? = some c) (phase : Phase)
    (hphase : phase = .sending → c.action = .replay) {row : DlqEvent}
    {published : List (String × KafkaMessage)}
    (hcounts : ∀ done sent : ℕ,
      done + c.done.toNat = s.calls.countP Call.done + (phase = .succeeded : Bool).toNat →
      sent + c.sent.toNat =
        s.calls.countP Call.sent + (c.action = .replay ∧ phase = .updating : Bool).toNat →
      Counts row.resolution done sent published.length) :
    (⟨row, published, s.calls.set i { c with phase }⟩ : System).Consistent := by
  refine ⟨hcounts _ _ (Parties.countP_set_add _ hi _) (Parties.countP_set_add _ hi _),
    fun c' hc' h => ?_⟩
  rcases List.mem_or_eq_of_mem_set hc' with hold | rfl
  · exact hs.sending c' hold h
  · exact hphase h

/-- A call that was not counted moves on and is not counted. -/
theorem System.Consistent.uncounted (hs : s.Consistent) (hi : s.calls[i]? = some c) {phase : Phase}
    (hphase : phase = .sending → c.action = .replay) (hdone : c.done = false)
    (hsent : c.sent = false)
    (hnew : phase ≠ .succeeded) (hnew' : c.action = .replay → phase ≠ .updating) :
    ({ s with calls := s.calls.set i { c with phase } } : System).Consistent := by
  refine hs.move hi phase hphase fun done sent h₁ h₂ => ?_
  rw [hdone, decide_eq_false hnew, Nat.add_right_cancel_iff] at h₁
  rw [hsent, decide_eq_false fun h => hnew' h.1 h.2, Nat.add_right_cancel_iff] at h₂
  rw [h₁, h₂]
  exact hs.counts

theorem consistent_resume (hs : s.Consistent) (hi : s.calls[i]? = some c) {answer : SendResult}
    (h : Undisputed s (.resume i answer)) : (step s (.resume i answer)).Consistent := by
  obtain ⟨hsend, hupdate, hfail⟩ := h c hi
  have hc := hs.counts
  simp only [step, hi]
  cases hphase : c.phase with
  | reading =>
    have hdone : c.done = false := by simp [Call.done, hphase]
    have hsent : c.sent = false := by simp [Call.sent, hphase]
    simp only [resume, hphase]
    split
    · exact hs.uncounted hi (by simp) hdone hsent (by simp) (by simp)
    · split
      · rename_i haction
        exact hs.uncounted hi (fun _ => haction) hdone hsent (by simp) (by simp)
      · rename_i haction
        exact hs.uncounted hi (by simp) hdone hsent (by simp) (by simp [haction])
  | sending =>
    have haction := hs.sending c (List.mem_of_getElem? hi) hphase
    have hdone : c.done = false := by simp [Call.done, hphase]
    have hsent : c.sent = false := by simp [Call.sent, hphase]
    simp only [resume, hphase]
    cases hd : answer.delivered with
    | false =>
      have hne : answer ≠ .acked := by
        rintro rfl
        cases hd
      simp only [Bool.false_eq_true, if_false, List.append_nil, if_neg hne]
      exact hs.uncounted hi (by simp) hdone hsent (by simp) (by simp)
    | true =>
      obtain ⟨rfl, hres, hpub⟩ := hsend hphase hd
      refine hs.move hi _ (by simp) fun done sent h₁ h₂ => ?_
      simp only [hdone, Bool.toNat_false, Nat.add_zero, if_true, reduceCtorEq, decide_false] at h₁
      simp only [hsent, Bool.toNat_false, Nat.add_zero, if_true, haction, and_self, decide_true,
        Bool.toNat_true] at h₂
      simp only [Counts, hres, hpub, List.length_nil, List.nil_append, if_true,
        List.length_singleton] at hc ⊢
      omega
  | updating =>
    have hdone : c.done = false := by simp [Call.done, hphase]
    simp only [resume, hphase]
    cases hd : answer.delivered with
    | false =>
      have haction : c.action ≠ .replay := fun ha => by simp [hd] at hfail; exact hfail hphase ha
      have hsent : c.sent = false := by simp [Call.sent, haction]
      have hne : answer ≠ .acked := by
        rintro rfl
        cases hd
      simp only [Bool.false_eq_true, if_false, if_neg hne]
      exact hs.uncounted hi (by simp) hdone hsent (by simp) (by simp)
    | true =>
      obtain ⟨hres, hpub⟩ := hupdate hphase hd
      refine hs.move hi _ (by split <;> simp) fun done sent h₁ h₂ => ?_
      have hle := Bool.toNat_le
        (decide ((if answer = .acked then Phase.succeeded else Phase.failed) = .succeeded))
      have hnew : (if answer = .acked then Phase.succeeded else Phase.failed) ≠ .updating := by
        split <;> simp
      simp only [hdone, Bool.toNat_false, Nat.add_zero] at h₁
      simp only [hnew, and_false, decide_false, Bool.toNat_false, Nat.add_zero] at h₂
      rw [hres] at hc
      cases haction : c.action with
      | replay =>
        have hsent : c.sent = true := by simp [Call.sent, hphase, haction]
        simp only [Counts, hsent, Bool.toNat_true, if_true, Action.resolution] at hc h₂ ⊢
        omega
      | dismiss =>
        have hsent : c.sent = false := by simp [Call.sent, haction]
        simp only [Counts, hsent, Bool.toNat_false, if_true, Action.resolution, hpub haction,
          List.length_nil, and_true] at hc h₂ ⊢
        omega
  | succeeded =>
    simp only [resume, hphase]
    obtain ⟨hlt, rfl⟩ := List.getElem?_eq_some_iff.mp hi
    rw [← hphase, List.set_getElem_self]
    exact hs
  | failed =>
    simp only [resume, hphase]
    exact hs.uncounted hi (by simp) (by simp [Call.done, hphase])
      (by simp [Call.sent, hphase]) (by simp)
      (by simp)

/-- **One step.** -/
theorem consistent_step (s : System) (st : Step) (hs : s.Consistent) (h : Undisputed s st) :
    (step s st).Consistent := by
  cases st with
  | call action admin =>
    have hnew : ∀ p : Call → Bool, p ⟨action, admin, .reading⟩ = false →
        (s.calls ++ [(⟨action, admin, .reading⟩ : Call)]).countP p = s.calls.countP p := by
      intro p hp
      simp [List.countP_append, hp]
    refine ⟨?_, fun c hc hphase => ?_⟩
    · simp only [step]
      rw [hnew Call.done rfl, hnew Call.sent (by simp [Call.sent])]
      exact hs.counts
    · rcases List.mem_append.mp hc with hc | hc
      · exact hs.sending c hc hphase
      · rw [List.mem_singleton.mp hc] at hphase
        cases hphase
  | resume i answer =>
    cases hi : s.calls[i]? with
    | none =>
      simp only [step, hi]
      exact hs
    | some c => exact consistent_resume hs hi h

theorem System.Consistent.exclusive (hs : s.Consistent) : s.Exclusive := by
  have hc := hs.counts
  have hsettled : s.Settled → s.calls.countP Call.sent = 0 := by
    intro h
    rw [List.countP_eq_zero]
    intro c hc hsent
    simp only [Call.sent, decide_eq_true_eq] at hsent
    rcases h c hc with hp | hp <;> rw [hp] at hsent <;> cases hsent.2
  rcases hres : s.row.resolution with _ | _ | _ <;> rw [hres] at hc <;> simp only [Counts] at hc
  · refine ⟨by omega, by omega, fun h => ?_⟩
    have := List.length_eq_zero_iff.mp (hc.2.1.trans (hsettled h))
    simp [this, hres]
  · refine ⟨by omega, by omega, fun _ => ?_⟩
    have : s.published ≠ [] := List.ne_nil_of_length_pos (by omega)
    simp [this, hres]
  · refine ⟨by omega, by omega, fun _ => ?_⟩
    have : s.published = [] := List.length_eq_zero_iff.mp hc.2.2
    simp [this, hres]

/-- **The resolution of a dead letter is exclusive** in every run whose sends and updates are
undisputed. -/
theorem resolution_exclusive (row : DlqEvent) (hrow : row.resolution = none) (steps : List Step)
    (h : Justified (fun before st => Undisputed (run ⟨row, [], []⟩ before) st) steps) :
    (run ⟨row, [], []⟩ steps).Exclusive := by
  have hinit : (⟨row, [], []⟩ : System).Consistent :=
    ⟨by simp [Counts, hrow], fun c hc => absurd hc List.not_mem_nil⟩
  exact System.Consistent.exclusive (h.invariant consistent_step hinit)

/-! ## Calls that keep apart -/

/-- A call that has read the row and not updated it. -/
def Call.busy (c : Call) : Bool := c.phase = .sending ∨ c.phase = .updating

/-- No call reads the row while another one is busy with it, and no call fails half way. -/
def Apart (s : System) : Step → Prop
  | .call _ _ => True
  | .resume i answer => ∀ c ∈ s.calls[i]?,
      (c.phase = .reading → ∀ c' ∈ s.calls, c'.busy = false) ∧
      (c.phase = .sending → answer.delivered = true → answer = .acked) ∧
      (c.phase = .updating → c.action = .replay → answer.delivered = true)

instance (s : System) : (st : Step) → Decidable (Apart s st)
  | .call _ _ => inferInstanceAs (Decidable True)
  | .resume i _ => inferInstanceAs (Decidable (∀ c ∈ s.calls[i]?, _))

/-- At most one call is busy, with a row that is unresolved. -/
structure System.Solo (s : System) : Prop extends s.Consistent where
  alone : s.calls.countP Call.busy ≤ 1
  unresolved : 0 < s.calls.countP Call.busy → s.row.resolution = none

theorem Call.busy_of_sent {c : Call} (h : c.sent = true) : c.busy = true := by
  simp only [Call.sent, decide_eq_true_eq] at h
  simp [Call.busy, h.2]

theorem System.Solo.of_busy (hs : s.Solo) (hi : s.calls[i]? = some c) (hbusy : c.busy = true) :
    s.row.resolution = none ∧ (c.sent = false → s.published = []) := by
  have hpos : 0 < s.calls.countP Call.busy :=
    List.countP_pos_iff.mpr ⟨c, List.mem_of_getElem? hi, hbusy⟩
  have hres := hs.unresolved hpos
  refine ⟨hres, fun hsent => ?_⟩
  have hlt := Parties.countP_lt (p := Call.sent) (q := Call.busy) (fun _ => Call.busy_of_sent) hi
    hsent hbusy
  have hc := hs.counts
  rw [hres] at hc
  have halone := hs.alone
  exact List.length_eq_zero_iff.mp (by rw [hc.2.1]; omega)

theorem System.Solo.undisputed (hs : s.Solo) {st : Step} (h : Apart s st) : Undisputed s st := by
  cases st with
  | call action admin => trivial
  | resume i answer =>
    intro c hi
    obtain ⟨-, hsend, hfail⟩ := h c hi
    refine ⟨fun hphase hd => ?_, fun hphase _ => ?_, hfail⟩
    · obtain ⟨hres, hpub⟩ := hs.of_busy hi (by simp [Call.busy, hphase])
      exact ⟨hsend hphase hd, hres, hpub (by simp [Call.sent, hphase])⟩
    · obtain ⟨hres, hpub⟩ := hs.of_busy hi (by simp [Call.busy, hphase])
      exact ⟨hres, fun haction => hpub (by simp [Call.sent, haction])⟩

theorem busy_resume (hs : s.Solo) (hi : s.calls[i]? = some c) {answer : SendResult}
    (h : Apart s (.resume i answer)) :
    (step s (.resume i answer)).calls.countP Call.busy ≤ 1 ∧
      (0 < (step s (.resume i answer)).calls.countP Call.busy →
        (step s (.resume i answer)).row.resolution = none) := by
  obtain ⟨hread, -, -⟩ := h c hi
  have halone := hs.alone
  have hcount : ∀ phase : Phase,
      (s.calls.set i { c with phase }).countP Call.busy + c.busy.toNat =
        s.calls.countP Call.busy + (Call.busy { c with phase }).toNat :=
    fun phase => Parties.countP_set_add Call.busy hi _
  have hle : ∀ phase : Phase, (Call.busy { c with phase }).toNat ≤ 1 := fun _ => Bool.toNat_le _
  have hidle : ∀ phase : Phase, phase ≠ .sending → phase ≠ .updating →
      (Call.busy { c with phase }).toNat = 0 := fun phase h₁ h₂ => by simp [Call.busy, h₁, h₂]
  simp only [step, hi]
  cases hphase : c.phase with
  | reading =>
    -- nobody is busy, and this call gets so only if the row is unresolved
    have hnone : s.calls.countP Call.busy = 0 :=
      List.countP_eq_zero.mpr fun c' hc' => by simp [hread hphase c' hc']
    simp only [resume, hphase]
    split
    · have hset := hcount .failed
      have hnew := hidle .failed (by simp) (by simp)
      dsimp only
      exact ⟨by omega, fun hpos => by omega⟩
    · rename_i hfree
      have hres : s.row.resolution = none := by
        simp only [not_or, not_not] at hfree
        exact hfree.2
      split
      · have hset := hcount .sending
        have hnew := hle .sending
        dsimp only
        exact ⟨by omega, fun _ => hres⟩
      · have hset := hcount .updating
        have hnew := hle .updating
        dsimp only
        exact ⟨by omega, fun _ => hres⟩
  | sending =>
    have hbusy : c.busy = true := by simp [Call.busy, hphase]
    obtain ⟨hres, -⟩ := hs.of_busy hi hbusy
    simp only [resume, hphase]
    have hset := hcount (if answer = .acked then .updating else .failed)
    have hnew := hle (if answer = .acked then .updating else .failed)
    rw [hbusy, Bool.toNat_true] at hset
    exact ⟨by omega, fun _ => hres⟩
  | updating =>
    have hbusy : c.busy = true := by simp [Call.busy, hphase]
    simp only [resume, hphase]
    have hset := hcount (if answer = .acked then .succeeded else .failed)
    have hnew := hidle (if answer = .acked then .succeeded else .failed) (by split <;> simp)
      (by split <;> simp)
    rw [hbusy, Bool.toNat_true] at hset
    exact ⟨by omega, fun hpos => by omega⟩
  | succeeded =>
    have hset := hcount .succeeded
    have hnew := hidle .succeeded (by simp) (by simp)
    simp only [resume, hphase]
    exact ⟨by omega, fun hpos => hs.unresolved (by omega)⟩
  | failed =>
    have hset := hcount .failed
    have hnew := hidle .failed (by simp) (by simp)
    simp only [resume, hphase]
    exact ⟨by omega, fun hpos => hs.unresolved (by omega)⟩

/-- **One step** of calls that keep apart. -/
theorem solo_step (s : System) (st : Step) (hs : s.Solo) (h : Apart s st) : (step s st).Solo := by
  have hcons : (step s st).Consistent := consistent_step s st hs.toConsistent (hs.undisputed h)
  cases st with
  | call action admin =>
    have hcount : (step s (.call action admin)).calls.countP Call.busy =
        s.calls.countP Call.busy := by
      simp [step, List.countP_append, Call.busy]
    exact ⟨hcons, hcount ▸ hs.alone, hcount ▸ hs.unresolved⟩
  | resume i answer =>
    cases hi : s.calls[i]? with
    | none =>
      have hsame : step s (.resume i answer) = s := by simp only [step, hi]
      rw [hsame]
      exact hs
    | some c =>
      obtain ⟨halone, hunresolved⟩ := busy_resume hs hi h
      exact ⟨hcons, halone, hunresolved⟩

/-- **Calls that keep apart are undisputed**, in every run from a row that is unresolved. -/
theorem undisputed_of_apart {row : DlqEvent} (hrow : row.resolution = none) {steps : List Step}
    (h : Justified (fun before st => Apart (run ⟨row, [], []⟩ before) st) steps) :
    Justified (fun before st => Undisputed (run ⟨row, [], []⟩ before) st) steps := by
  have hinit : (⟨row, [], []⟩ : System).Solo :=
    ⟨⟨by simp [Counts, hrow], fun c hc => absurd hc List.not_mem_nil⟩, by simp, fun _ => hrow⟩
  rintro before st after rfl
  exact System.Solo.undisputed (h.left.invariant solo_step hinit) (h before st after rfl)

end Runs

namespace Example

/-- A row that is not resolved. -/
def letterRow : DlqEvent where
  id := 1
  originalTopic := "orbit.user-events.v1"
  originalPartition := 0
  originalOffset := "17"
  payload := [123, 125]
  headers := []
  worker := "notification"
  lastError := "Error: connect ECONNREFUSED"
  attempt := 4
  replayedFromId := none
  resolution := none
  resolvedBy := none

/-- One administrator replays the message, and another one comes too late to dismiss it. -/
def replayedOnce : List Step :=
  [.call .replay "a", .resume 0 .acked, .resume 0 .acked, .resume 0 .acked,
    .call .dismiss "b", .resume 1 .acked]

/-- Two administrators replay it at the same time. -/
def replayedTwice : List Step :=
  [.call .replay "a", .call .replay "b", .resume 0 .acked, .resume 1 .acked,
    .resume 0 .acked, .resume 1 .acked, .resume 0 .acked, .resume 1 .acked]

/-- One reads the row before the other replays it, and dismisses it after that. -/
def dismissedAfter : List Step :=
  [.call .replay "a", .call .dismiss "b", .resume 0 .acked, .resume 1 .acked,
    .resume 0 .acked, .resume 0 .acked, .resume 1 .acked]

end Example

open Example

theorem resolution_exclusive_replayed : letterRow.resolution = none ∧
    Justified (fun before st => Undisputed (run ⟨letterRow, [], []⟩ before) st) replayedOnce ∧
    (run ⟨letterRow, [], []⟩ replayedOnce).Exclusive ∧
    (run ⟨letterRow, [], []⟩ replayedOnce).calls.map (·.phase) = [.succeeded, .failed] := by
  have h : Justified (fun before st => Undisputed (run ⟨letterRow, [], []⟩ before) st)
      replayedOnce := by
    decide +kernel
  exact ⟨rfl, h, resolution_exclusive letterRow rfl replayedOnce h, by decide +kernel⟩

example : Justified (fun before st => Apart (run ⟨letterRow, [], []⟩ before) st) replayedOnce := by
  decide +kernel

/-- **Both succeed**: the payload is published twice, or is published and the
row says `dismissed`. -/
theorem resolution_disputed :
    ¬(run ⟨letterRow, [], []⟩ replayedTwice).Exclusive ∧
    (run ⟨letterRow, [], []⟩ replayedTwice).published.length = 2 ∧
    ¬(run ⟨letterRow, [], []⟩ dismissedAfter).Exclusive ∧
    (run ⟨letterRow, [], []⟩ dismissedAfter).published.length = 1 ∧
    (run ⟨letterRow, [], []⟩ dismissedAfter).row.resolution = some .dismissed := by
  have h₁ : (run ⟨letterRow, [], []⟩ replayedTwice).published.length = 2 := by decide +kernel
  have h₂ : (run ⟨letterRow, [], []⟩ dismissedAfter).calls.countP Call.done = 2 := by decide +kernel
  refine ⟨fun h => ?_, h₁, fun h => ?_, by decide +kernel, by decide +kernel⟩
  · have := h.published
    omega
  · have := h.successes
    omega

end Admin

end Orbit.Dlq
