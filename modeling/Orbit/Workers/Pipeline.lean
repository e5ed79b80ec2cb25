import Orbit.Matcher.Addressing
import Orbit.Matcher.Priority
import Orbit.Workers.OutboxRelay

/-!
# From the outbox to the matcher

The rows that the transactions of the exchange append to the outbox are drained by the relay, which
sends them to Kafka; the commands come back to the matcher from the partitions of `order-commands`.
`Pipeline` puts the exchange, the relay and the log of the broker together. `part` is the
partitioner of the producers: which partition the messages of a key go to.

A transaction draws the ids of its orders and of its outbox rows while it runs, and commits later.
So the rows that were written wait (`Pipeline.waiting`) until a `Step.commit` shows one of them to
the relay, whichever it is, under whatever id it drew: of two requests that run at the same time,
the one with the later order may have drawn the lower outbox id, or commit first. To the exchange
itself a transaction is one step, as elsewhere.

A row may be sent more than once. The matcher reads every partition from an offset on, and may be
set back (`Step.seek`): by a rebalance of its group, or when it was stopped before an offset was
committed. All this takes place in any order.

* `run_matcher`: the exchange of a pipeline makes a run of its own, in which every command that is
  delivered was published.
* `InLine.id_lt`: where the rows of a topic and key commit in the order in which they were written
  and under increasing ids, their ids follow the orders that they submit.
* `Reads.inOrder`: where, besides, rows are first published in the order of their ids, the messages
  of a partition bring the orders of a market in the order in which they were placed, but for those
  that were read before.
* `pipeline_inOrder`: so the deliveries are in order as long as rows commit in this way and no pass
  of the relay sends a row after failing to send an earlier one of its topic and key.
-/

namespace Orbit

open PriceTime Settler Consumer

/-! ## Outbox rows of orders -/

section Submits

variable {E : Engine} {m : Matcher E}

/-- The order that a command submits. -/
def OrderCommand.submitId : OrderCommand → Option ℕ
  | .SUBMIT cmd => some cmd.orderId
  | .CANCEL _ => none

/-- The `SUBMIT`s stand in the outbox in the order in which their orders were placed. -/
def Db.SubmitsIncrease (db : Db) : Prop :=
  (db.commands.filterMap OrderCommand.submitId).Pairwise (· < ·)

theorem Db.SubmitsIncrease.append {db db' : Db} (h : db.SubmitsIncrease) {cmd : OrderCommand}
    (hc : db'.commands = db.commands ++ [cmd])
    (hlt : ∀ id, cmd.submitId = some id → ∀ x ∈ db.commands, ∀ id', x.submitId = some id' →
      id' < id) : db'.SubmitsIncrease := by
  unfold SubmitsIncrease
  rw [hc, List.filterMap_append, List.pairwise_append]
  refine ⟨h, ?_, fun a ha b hb => ?_⟩
  · cases cmd with
    | SUBMIT cmd => exact List.pairwise_singleton _ _
    | CANCEL cmd => exact List.Pairwise.nil
  · obtain ⟨x, hx, hxa⟩ := List.mem_filterMap.mp ha
    obtain ⟨y, hy, hyb⟩ := List.mem_filterMap.mp hb
    obtain rfl := List.mem_singleton.mp hy
    exact hlt b hyb x hx a hxa

theorem Db.SubmitsIncrease.congr {db db' : Db} (h : db.SubmitsIncrease)
    (hc : db'.commands = db.commands) : db'.SubmitsIncrease := by
  unfold SubmitsIncrease
  rwa [hc]

theorem api_submitsIncrease {A : WalletField → Prop} {s s' : Store} (h : ApiEffect A s s')
    (hs : s.Sound) (hI : s.db.SubmitsIncrease) : s'.db.SubmitsIncrease := by
  cases h with
  | idle hseq hdb => exact hdb ▸ hI
  | placed o market cmd hp =>
    refine hI.append hp.commands fun id hid x hx id' hid' => ?_
    obtain rfl := Option.some.inj hid
    -- an older command is that of an order with a row
    cases x with
    | CANCEL x => cases hid'
    | SUBMIT x =>
      obtain rfl := Option.some.inj hid'
      obtain ⟨o', ho', -⟩ := hs.commands _ hx
      have hle := hs.ids o' (Db.mem_of_order? ho')
      rw [Db.order?_id ho'] at hle
      have hnew := hp.id
      have hid := hp.orderId
      omega
  | requested cmd o hseq hreq =>
    obtain ⟨row, htopic, hpayload, hdb⟩ := hreq.outbox
    have hcommands : s'.db.commands = s.db.commands ++ [.CANCEL cmd] := by
      rw [hdb, Db.commands, List.filterMap_append]
      simp only [List.filterMap_cons, List.filterMap_nil, htopic, hpayload]
      rfl
    exact hI.append hcommands fun id hid => by cases hid
  | marketChanged symbol input hseq hdb =>
    rw [hdb]
    exact hI.congr rfl
  | adjusted userId asset field w value hfield hseq hw hn hdb =>
    rw [hdb]
    exact hI.congr rfl

theorem run_submitsIncrease (h : m.Initial) (steps : List Step) :
    (m.run steps).db.SubmitsIncrease := by
  refine run_dispatches (I := Db.SubmitsIncrease) h ?_
    (fun hs _ hd hI => hI.congr (dispatch_submit_of_sound hs.sound hd).framed.commands)
    (fun _ _ hd hI => hI.congr (dispatch_cancel hd).framed.commands)
    (fun {m l} hs hno hI => ?_) steps
  · unfold Db.SubmitsIncrease Db.commands
    rw [h.outbox]
    exact List.Pairwise.nil
  · by_cases hr : l = .restart
    · subst hr
      exact hI
    · exact api_submitsIncrease (step_effect m l.adjusts_any hno hr).1 hs.sound hI

/-- The order that the content of a row submits. -/
def submitOf : Topic × String × Payload → Option ℕ
  | (.ORDER_COMMANDS, _, .command cmd) => cmd.submitId
  | _ => none

/-- If both contents are of `SUBMIT`s, the order of the first was placed before that of the
second. -/
def PlacedBefore (c c' : Topic × String × Payload) : Prop :=
  ∀ i, submitOf c = some i → ∀ j, submitOf c' = some j → i < j

theorem Db.SubmitsIncrease.contents {db : Db} (h : db.SubmitsIncrease) :
    (db.outbox.map (·.content)).Pairwise PlacedBefore := by
  unfold SubmitsIncrease commands at h
  rw [List.filterMap_filterMap, List.pairwise_filterMap] at h
  have hread : ∀ {ev : OutboxEvent} {i : ℕ}, submitOf ev.content = some i →
      ev.topic = .ORDER_COMMANDS ∧ ∃ cmd, ev.payload = .command cmd ∧ cmd.submitId = some i := by
    intro ev i hi
    unfold submitOf at hi
    split at hi
    · rename_i cmd hcontent
      exact ⟨congrArg (·.1) hcontent, cmd, congrArg (·.2.2) hcontent, hi⟩
    · cases hi
  rw [List.pairwise_map]
  refine h.imp fun {x y} hxy i hi j hj => ?_
  obtain ⟨htopic, cmd, hpayload, hid⟩ := hread hi
  obtain ⟨htopic', cmd', hpayload', hid'⟩ := hread hj
  refine hxy i ?_ j ?_
  · rw [htopic, hpayload]
    exact hid
  · rw [htopic', hpayload']
    exact hid'

end Submits

/-! ## The pipeline -/

/-- The exchange, the rows that its transactions wrote and the relay does not see yet, in the order
in which they were written, the relay with what the broker acknowledged, and the offset at which the
matcher reads on in each partition of `order-commands`. -/
structure Pipeline (E : Engine) where
  matcher : Matcher E
  waiting : List OutboxEvent
  relay : OutboxRelay.Relay
  position : ℕ → ℕ

namespace Pipeline

variable {E : Engine}

inductive Step
  /-- A step of the exchange that is no delivery. -/
  | exchange (l : Orbit.Step)
  /-- The transaction of the `i`-th row that waits commits; the row drew the id `id`. -/
  | commit (i id : ℕ)
  /-- A pass of the relay. -/
  | drain (batchSize : ℕ) (outcomes : List OutboxRelay.Outcome)
  /-- The matcher handles the next message of a partition. -/
  | consume (partition : ℕ) (faults : Option ℕ)
  /-- The matcher reads the partition again from an offset, which its group had committed. As
  `fromBeginning` is false, a partition without one would be read from the end of its log on. -/
  | seek (partition : ℕ) (offset : ℕ)
  deriving DecidableEq, Repr

/-- The step delivers a command. -/
def delivers : Orbit.Step → Bool
  | .deliver _ _ => true
  | _ => false

/-- A step of the exchange. The rows that it appends to the outbox wait. -/
def perform (p : Pipeline E) (l : Orbit.Step) : Pipeline E where
  matcher := p.matcher.step l
  waiting := p.waiting ++ (p.matcher.step l).db.outbox.drop p.matcher.db.outbox.length
  relay := p.relay
  position := p.position

/-- A row that waits becomes visible, under an id that no other row has. -/
def commit (p : Pipeline E) (i id : ℕ) : Pipeline E :=
  match p.waiting[i]? with
  | none => p
  | some ev =>
    if (Table.find? id p.relay.rows).isSome then p
    else
      { p with
        waiting := p.waiting.eraseIdx i
        relay := OutboxRelay.step p.relay (.commit { ev with id := id } none) }

/-- The rows that the relay sees. -/
def committed (p : Pipeline E) : List OutboxEvent := p.relay.rows.map (·.event)

variable (part : String → ℕ)

/-- The messages of a partition, oldest first. -/
def messages (p : Pipeline E) (k : ℕ) : List OutboxRelay.Publication :=
  p.relay.published.filter fun q => decide (q.topic = .ORDER_COMMANDS ∧ part q.key = k)

/-- The steps of the exchange that a step of the pipeline makes. -/
def made (p : Pipeline E) : Step → List Orbit.Step
  | .exchange l => if delivers l then [] else [l]
  | .consume k faults =>
    match (p.messages part k)[p.position k]? with
    | some ⟨_, _, _, .command cmd, _⟩ => [.deliver cmd faults]
    | _ => []
  | _ => []

/-- One step. -/
def step (p : Pipeline E) (l : Step) : Pipeline E :=
  let p' := (p.made part l).foldl perform p
  match l with
  | .exchange _ => p'
  | .commit i id => p'.commit i id
  | .drain batchSize outcomes =>
    { p' with relay := OutboxRelay.drainOnce batchSize outcomes p'.relay }
  | .consume k _ =>
    if p.position k < (p.messages part k).length then
      { p' with position := Function.update p.position k (p.position k + 1) }
    else p'
  | .seek k offset =>
    { p' with position := Function.update p.position k (min offset (p.position k)) }

/-- A run. -/
def run (p : Pipeline E) (steps : List Step) : Pipeline E := steps.foldl (step part) p

/-- The steps of the exchange in a run. -/
def trace (p : Pipeline E) : List Step → List Orbit.Step
  | [] => []
  | l :: ls => p.made part l ++ (p.step part l).trace ls

/-- Nothing was ordered, published or read yet. -/
structure Initial (p : Pipeline E) : Prop where
  matcher : p.matcher.Initial
  waiting : p.waiting = []
  relay : p.relay = .empty
  position : ∀ k, p.position k = 0

variable {part} {p : Pipeline E}

theorem run_append (ls ls' : List Step) : p.run part (ls ++ ls') = (p.run part ls).run part ls' :=
  List.foldl_append

theorem trace_append (p : Pipeline E) (ls ls' : List Step) :
    p.trace part (ls ++ ls') = p.trace part ls ++ (p.run part ls).trace part ls' := by
  induction ls generalizing p with
  | nil => rfl
  | cons l ls ih =>
    rw [List.cons_append, trace, ih, trace, List.append_assoc]
    rfl

theorem matcher_foldl (p : Pipeline E) (ls : List Orbit.Step) :
    (ls.foldl perform p).matcher = p.matcher.run ls := by
  induction ls generalizing p with
  | nil => rfl
  | cons l ls ih => exact ih (p.perform l)

/-- **What a commit does**: nothing, or a row moves from those that wait to those that committed. -/
theorem commit_cases (p : Pipeline E) (i id : ℕ) : p.commit i id = p ∨
    ∃ ev, p.waiting[i]? = some ev ∧ p.commit i id = { p with
        waiting := p.waiting.eraseIdx i
        relay := OutboxRelay.step p.relay (.commit { ev with id := id } none) } ∧
      (p.commit i id).committed = p.committed ++ [{ ev with id := id }] ∧
      (p.commit i id).relay.published = p.relay.published := by
  unfold commit
  cases hi : p.waiting[i]? with
  | none => exact .inl rfl
  | some ev =>
    dsimp only
    split
    · exact .inl rfl
    · rename_i hnew
      have hstep : OutboxRelay.step p.relay (.commit { ev with id := id } none) =
          { p.relay with
            rows := p.relay.rows ++ [⟨{ ev with id := id }, none, none, 0, none⟩] } := if_neg hnew
      refine .inr ⟨ev, rfl, rfl, ?_, ?_⟩
      · unfold committed
        rw [hstep, List.map_append]
        rfl
      · rw [hstep]

theorem matcher_commit (p : Pipeline E) (i id : ℕ) : (p.commit i id).matcher = p.matcher := by
  rcases p.commit_cases i id with h | ⟨ev, -, h, -⟩ <;> rw [h]

theorem committed_drain (p : Pipeline E) (batchSize : ℕ) (outcomes : List OutboxRelay.Outcome) :
    committed { p with relay := OutboxRelay.drainOnce batchSize outcomes p.relay } = p.committed :=
  OutboxRelay.map_event_foldl _ _

theorem matcher_step (l : Step) : (p.step part l).matcher = p.matcher.run (p.made part l) := by
  unfold step
  cases l with
  | commit i id => exact matcher_commit p i id
  | consume k faults =>
    dsimp only
    split <;> exact matcher_foldl p _
  | _ => exact matcher_foldl p _

/-- **The exchange of a pipeline makes a run of its own.** -/
theorem run_matcher (p : Pipeline E) (steps : List Step) :
    (p.run part steps).matcher = p.matcher.run (p.trace part steps) := by
  induction steps generalizing p with
  | nil => rfl
  | cons l ls ih =>
    rw [trace, Matcher.run_append, ← matcher_step]
    exact ih (p.step part l)

/-! ## Rows and publications -/

/-- **The relay works on the outbox of the exchange**: what waits are rows of it, what committed has
the content of one, and what was published that of a row that committed. -/
structure Wired (p : Pipeline E) : Prop where
  consistent : p.relay.Consistent
  waiting : ∀ ev ∈ p.waiting, ev ∈ p.matcher.db.outbox
  rows : ∀ e ∈ p.committed, ∃ ev ∈ p.matcher.db.outbox, ev.content = e.content
  published : ∀ q ∈ p.relay.published, ∃ e ∈ p.committed,
    e.id = q.id ∧ e.content = (q.topic, q.key, q.value)

/-- What a step of the exchange appends to the outbox. -/
theorem perform_rows (p : Pipeline E) (l : Orbit.Step) : ∃ rows,
    (p.perform l).matcher.db.outbox = p.matcher.db.outbox ++ rows ∧
      (p.perform l).waiting = p.waiting ++ rows := by
  obtain ⟨rows, hout, -⟩ := (step_appended p.matcher l).rows
  refine ⟨rows, hout, congrArg (p.waiting ++ ·) ?_⟩
  exact (congrArg (List.drop _) hout).trans List.drop_left

theorem relay_foldl (p : Pipeline E) (ls : List Orbit.Step) :
    (ls.foldl perform p).relay = p.relay ∧ (ls.foldl perform p).position = p.position := by
  induction ls generalizing p with
  | nil => exact ⟨rfl, rfl⟩
  | cons l ls ih => exact ih (p.perform l)

theorem Wired.perform (h : p.Wired) (l : Orbit.Step) : (p.perform l).Wired := by
  obtain ⟨rows, hout, hwaiting⟩ := p.perform_rows l
  refine
    { consistent := h.consistent
      waiting := fun ev hev => ?_
      rows := fun e he => ?_
      published := h.published }
  · rw [hout]
    rw [hwaiting, List.mem_append] at hev
    rcases hev with hev | hev
    · exact List.mem_append_left _ (h.waiting ev hev)
    · exact List.mem_append_right _ hev
  · obtain ⟨ev, hev, hcontent⟩ := h.rows e he
    exact ⟨ev, hout ▸ List.mem_append_left _ hev, hcontent⟩

theorem Wired.commit (h : p.Wired) (i id : ℕ) : (p.commit i id).Wired := by
  rcases p.commit_cases i id with heq | ⟨ev, hev, heq, hcommitted, hpublished⟩
  · rwa [heq]
  refine
    { consistent := ?_
      waiting := fun x hx => ?_
      rows := fun e he => ?_
      published := fun q hq => ?_ }
  · rw [heq]
    exact OutboxRelay.consistent_step h.consistent (.commit { ev with id := id } none)
  · rw [heq] at hx ⊢
    exact h.waiting x (List.mem_of_mem_eraseIdx hx)
  · rw [matcher_commit]
    rw [hcommitted, List.mem_append] at he
    rcases he with he | he
    · exact h.rows e he
    · obtain rfl := List.mem_singleton.mp he
      exact ⟨ev, h.waiting ev (List.mem_of_getElem? hev), rfl⟩
  · rw [hpublished] at hq
    obtain ⟨e, he, hq⟩ := h.published q hq
    exact ⟨e, hcommitted ▸ List.mem_append_left _ he, hq⟩

theorem Wired.drain (h : p.Wired) (batchSize : ℕ) (outcomes : List OutboxRelay.Outcome) :
    Wired { p with relay := OutboxRelay.drainOnce batchSize outcomes p.relay } := by
  refine
    { consistent := OutboxRelay.consistent_drainOnce h.consistent _ _
      waiting := h.waiting
      rows := fun e he => h.rows e (committed_drain p batchSize outcomes ▸ he)
      published := fun q hq => ?_ }
  rw [committed_drain]
  change q ∈ (OutboxRelay.drainOnce batchSize outcomes p.relay).published at hq
  rw [OutboxRelay.drainOnce, OutboxRelay.published_foldl, List.mem_append] at hq
  rcases hq with hq | hq
  · exact h.published q hq
  · obtain ⟨t, ht, rfl⟩ := List.mem_map.mp hq
    have hrow := (OutboxRelay.batch_turns h.consistent batchSize outcomes).mem t
      (List.mem_filter.mp ht).1
    exact ⟨t.1.event, List.mem_map_of_mem hrow, rfl, rfl⟩

theorem Wired.foldl (h : p.Wired) (ls : List Orbit.Step) : (ls.foldl Pipeline.perform p).Wired := by
  induction ls generalizing p with
  | nil => exact h
  | cons l ls ih => exact ih (h.perform l)

theorem Wired.step (h : p.Wired) (l : Step) : (p.step part l).Wired := by
  have hmade := h.foldl (p.made part l)
  cases l with
  | exchange l => exact hmade
  | commit i id => exact h.commit i id
  | drain batchSize outcomes => exact hmade.drain batchSize outcomes
  | consume k faults =>
    unfold Pipeline.step
    dsimp only
    split
    · exact { hmade with }
    · exact hmade
  | seek k offset => exact { hmade with }

theorem Initial.wired (h : p.Initial) : p.Wired where
  consistent := by
    rw [h.relay]
    exact OutboxRelay.consistent_run []
  waiting ev hev := by
    rw [h.waiting] at hev
    cases hev
  rows e he := by
    unfold committed at he
    rw [h.relay] at he
    cases he
  published q hq := by
    rw [h.relay] at hq
    cases hq

/-! ## In line -/

/-- The condition on a step. Of the rows of a topic and key that wait, the one that was written
first commits first, and it drew a higher id than those that committed before it. The passes of the
relay send no row after failing to send an earlier one of its topic and key. -/
def Orderly (p : Pipeline E) : Step → Prop
  | .commit i id => ∀ ev ∈ p.waiting[i]?,
      (∀ x ∈ p.waiting.take i, OutboxRelay.stream x ≠ OutboxRelay.stream ev) ∧
        ∀ e ∈ p.committed, OutboxRelay.stream e = OutboxRelay.stream ev → e.id < id
  | .drain batchSize outcomes => OutboxRelay.Orderly p.relay (.drain batchSize outcomes)
  | _ => True

instance (p : Pipeline E) (l : Step) : Decidable (p.Orderly l) :=
  match l with
  | .commit i _ => inferInstanceAs (Decidable (∀ ev ∈ p.waiting[i]?, _ ∧ _))
  | .drain _ _ => inferInstanceAs (Decidable (List.Pairwise _ _))
  | .exchange _ | .consume _ _ | .seek _ _ => isTrue trivial

theorem stream_of_content {e : OutboxEvent} {topic : Topic} {key : String} {value : Payload}
    (h : e.content = (topic, key, value)) : OutboxRelay.stream e = (topic, key) :=
  congrArg (fun c => (c.1, c.2.1)) h

/-- The contents of the rows of a topic and key. -/
def ofStream (s : Topic × String) (rows : List OutboxEvent) : List (Topic × String × Payload) :=
  (rows.filter fun ev => OutboxRelay.stream ev = s).map (·.content)

theorem ofStream_append (s : Topic × String) (rows rows' : List OutboxEvent) :
    ofStream s (rows ++ rows') = ofStream s rows ++ ofStream s rows' := by
  unfold ofStream
  rw [List.filter_append, List.map_append]

theorem ofStream_singleton (s : Topic × String) (ev : OutboxEvent) :
    ofStream s [ev] = if OutboxRelay.stream ev = s then [ev.content] else [] := by
  unfold ofStream
  by_cases hs : OutboxRelay.stream ev = s <;> simp [hs]

theorem ofStream_eq_nil {s : Topic × String} {rows : List OutboxEvent}
    (h : ∀ x ∈ rows, OutboxRelay.stream x ≠ s) : ofStream s rows = [] := by
  unfold ofStream
  rw [List.map_eq_nil_iff, List.filter_eq_nil_iff]
  simpa using h

theorem ofStream_sublist (s : Topic × String) (rows : List OutboxEvent) :
    (ofStream s rows).Sublist (rows.map (·.content)) := List.filter_sublist.map _

/-- The first row of its topic and key moves from those that wait to those that committed. -/
theorem ofStream_commit {rows : List OutboxEvent} {i : ℕ} {ev : OutboxEvent}
    (hev : rows[i]? = some ev)
    (hfirst : ∀ x ∈ rows.take i, OutboxRelay.stream x ≠ OutboxRelay.stream ev) (id : ℕ)
    (s : Topic × String) :
    ofStream s [{ ev with id := id }] ++ ofStream s (rows.eraseIdx i) = ofStream s rows := by
  have hsplit : rows.take i ++ ([ev] ++ rows.drop (i + 1)) = rows := by
    obtain ⟨hi, rfl⟩ := List.getElem?_eq_some_iff.mp hev
    rw [List.singleton_append, ← List.drop_eq_getElem_cons hi, List.take_append_drop]
  have hsame : ofStream s [{ ev with id := id }] = ofStream s [ev] := by
    rw [ofStream_singleton, ofStream_singleton]
    rfl
  rw [hsame, List.eraseIdx_eq_take_drop_succ]
  conv_rhs => rw [← hsplit]
  rw [ofStream_append, ofStream_append, ofStream_append]
  by_cases hs : OutboxRelay.stream ev = s
  · have hnil : ofStream s (rows.take i) = [] := ofStream_eq_nil (hs ▸ hfirst)
    rw [hnil]
    rfl
  · have hnil : ofStream s [ev] = [] := ofStream_eq_nil (by simpa using hs)
    rw [hnil]
    rfl

/-- **The rows of every topic and key stand in line**: those that committed and, after them, those
that wait are the rows that were written, in this order, and the ids increase. -/
structure InLine (p : Pipeline E) : Prop where
  written : ∀ s, ofStream s p.committed ++ ofStream s p.waiting = ofStream s p.matcher.db.outbox
  increasing : p.committed.Pairwise fun x y =>
    OutboxRelay.stream x = OutboxRelay.stream y → x.id < y.id

theorem InLine.perform (h : p.InLine) (l : Orbit.Step) : (p.perform l).InLine := by
  obtain ⟨rows, hout, hwaiting⟩ := p.perform_rows l
  refine ⟨fun s => ?_, h.increasing⟩
  rw [hout, hwaiting, ofStream_append, ofStream_append, ← h.written s, List.append_assoc]
  rfl

theorem InLine.commit (h : p.InLine) {i id : ℕ} (hl : p.Orderly (.commit i id)) :
    (p.commit i id).InLine := by
  rcases p.commit_cases i id with heq | ⟨ev, hev, heq, hcommitted, -⟩
  · rwa [heq]
  obtain ⟨hfirst, hlow⟩ := hl ev hev
  refine ⟨fun s => ?_, ?_⟩
  · rw [hcommitted, matcher_commit, ← h.written s, ← ofStream_commit hev hfirst id s, heq,
      ofStream_append, List.append_assoc]
  · rw [hcommitted, List.pairwise_append]
    refine ⟨h.increasing, List.pairwise_singleton _ _, fun x hx y hy hs => ?_⟩
    obtain rfl := List.mem_singleton.mp hy
    exact hlow x hx hs

theorem InLine.foldl (h : p.InLine) (ls : List Orbit.Step) :
    (ls.foldl Pipeline.perform p).InLine := by
  induction ls generalizing p with
  | nil => exact h
  | cons l ls ih => exact ih (h.perform l)

theorem InLine.step (h : p.InLine) {l : Step} (hl : p.Orderly l) : (p.step part l).InLine := by
  have hmade := h.foldl (p.made part l)
  cases l with
  | exchange l => exact hmade
  | commit i id => exact h.commit hl
  | drain batchSize outcomes =>
    have hcommitted := committed_drain p batchSize outcomes
    exact ⟨fun s => (congrArg (ofStream s · ++ _) hcommitted).trans (h.written s),
      (congrArg _ hcommitted).mpr h.increasing⟩
  | consume k faults =>
    unfold Pipeline.step
    dsimp only
    split
    · exact { hmade with }
    · exact hmade
  | seek k offset => exact { hmade with }

theorem Initial.inLine (h : p.Initial) : p.InLine := by
  have hcommitted : p.committed = [] := by
    unfold committed
    rw [h.relay]
    rfl
  refine ⟨fun s => ?_, ?_⟩
  · rw [hcommitted, h.waiting, h.matcher.outbox]
    rfl
  · rw [hcommitted]
    exact List.Pairwise.nil

/-- **The ids of rows follow the ids of orders.** -/
theorem InLine.id_lt (h : p.InLine) (hinc : p.matcher.db.SubmitsIncrease) {e e' : OutboxEvent}
    (he : e ∈ p.committed) (he' : e' ∈ p.committed)
    (hs : OutboxRelay.stream e = OutboxRelay.stream e') {i i' : ℕ}
    (hi : submitOf e.content = some i) (hi' : submitOf e'.content = some i') (hlt : i < i') :
    e.id < e'.id := by
  let rows := p.committed.filter fun x => OutboxRelay.stream x = OutboxRelay.stream e
  have hstream : ∀ x ∈ rows, OutboxRelay.stream x = OutboxRelay.stream e := by
    intro x hx
    simpa using (List.mem_filter.mp hx).2
  have hids : rows.Pairwise fun x y => x.id < y.id := by
    have hsub : rows.Sublist p.committed := List.filter_sublist
    refine (h.increasing.sublist hsub).imp_of_mem fun {x y} hx hy hxy => hxy ?_
    exact (hstream x hx).trans (hstream y hy).symm
  have horder : rows.Pairwise fun x y => PlacedBefore x.content y.content := by
    have hsub : (ofStream (OutboxRelay.stream e) p.committed).Sublist
        (p.matcher.db.outbox.map (·.content)) := by
      refine List.Sublist.trans ?_ (ofStream_sublist (OutboxRelay.stream e) _)
      rw [← h.written]
      exact List.sublist_append_left _ _
    exact List.pairwise_map.mp (hinc.contents.sublist hsub)
  refine List.Pairwise.forall_of_forall_of_flip
    (R := fun x y => ∀ i j, submitOf x.content = some i → submitOf y.content = some j → i < j →
      x.id < y.id) ?_ (hids.imp fun hxy _ _ _ _ _ => hxy) (horder.imp ?_)
    (List.mem_filter.mpr ⟨he, by simp⟩) (List.mem_filter.mpr ⟨he', by simp [hs]⟩) i i' hi hi' hlt
  · intro x _ i j hi hj hij
    obtain rfl : i = j := Option.some.inj (hi.symm.trans hj)
    exact absurd hij (lt_irrefl _)
  · intro x y hxy i j hi hj hij
    exact absurd hij (hxy j hj i hi).asymm

/-- A row that commits in line comes behind what was published. -/
theorem Wired.inOrder_commit (h : p.Wired) (hin : p.relay.InOrder) {i id : ℕ}
    (hl : p.Orderly (.commit i id)) : (p.commit i id).relay.InOrder := by
  rcases p.commit_cases i id with heq | ⟨ev, hev, heq, -⟩
  · rwa [heq]
  rw [heq]
  refine (OutboxRelay.inOrder_step h.consistent _).mpr ⟨hin, .inr fun q hq hstream => ?_⟩
  obtain ⟨e, he, hid, hcontent⟩ := h.published q hq
  exact hid ▸ ((hl ev hev).2 e he ((stream_of_content hcontent).trans hstream)).le

/-- The rows are first published in the order of their ids. -/
theorem Wired.inOrder (h : p.Wired) (hin : p.relay.InOrder) {l : Step} (hl : p.Orderly l) :
    (p.step part l).relay.InOrder := by
  have hmade : ((p.made part l).foldl Pipeline.perform p).relay.InOrder := by
    rwa [(relay_foldl p _).1]
  cases l with
  | commit i id => exact h.inOrder_commit hin hl
  | drain batchSize outcomes =>
    exact (OutboxRelay.inOrder_drainOnce h.consistent batchSize outcomes).mpr ⟨hin, hl⟩
  | consume k faults =>
    unfold Pipeline.step
    dsimp only
    split <;> exact hmade
  | _ => exact hmade

/-! ## What is read of a partition -/

/-- `c` are the orders whose `SUBMIT` was read: those in the first `high k` messages of every
partition `k`. -/
structure Reads (part : String → ℕ) (c : List ℕ) (p : Pipeline E) (high : ℕ → ℕ) : Prop where
  le : ∀ k, p.position k ≤ high k
  bound : ∀ k, high k ≤ (p.messages part k).length
  consumed : ∀ id ∈ c, ∃ k, ∃ q ∈ (p.messages part k).take (high k), ∃ cmd,
    q.value = .command (.SUBMIT cmd) ∧ cmd.orderId = id
  read : ∀ k, ∀ q ∈ (p.messages part k).take (high k), ∀ cmd,
    q.value = .command (.SUBMIT cmd) → cmd.orderId ∈ c

theorem mem_messages {k : ℕ} {q : OutboxRelay.Publication} : q ∈ p.messages part k ↔
    q ∈ p.relay.published ∧ q.topic = .ORDER_COMMANDS ∧ part q.key = k := by
  rw [messages, List.mem_filter, decide_eq_true_iff]

/-- Messages with one id are copies of one row. -/
theorem Wired.copies (h : p.Wired) {q q' : OutboxRelay.Publication} (hq : q ∈ p.relay.published)
    (hq' : q' ∈ p.relay.published) (hid : q.id = q'.id) :
    q.topic = q'.topic ∧ q.key = q'.key ∧ q.value = q'.value := by
  obtain ⟨e, he, hi, hcontent⟩ := h.published q hq
  obtain ⟨e', he', hi', hcontent'⟩ := h.published q' hq'
  have hnodup : (p.committed.map (·.id)).Nodup := by
    unfold committed
    rw [List.map_map]
    exact h.consistent.nodup
  obtain rfl : e = e' := List.inj_on_of_nodup_map hnodup he he' (hi.trans (hid.trans hi'.symm))
  simpa using hcontent.symm.trans hcontent'

/-- What comes before an order in its partition. -/
theorem Wired.lower (h : p.Wired) (hin : p.relay.InOrder) {k i : ℕ}
    {q q' : OutboxRelay.Publication} (hq : q ∈ p.messages part k)
    (hq' : q' ∈ (p.messages part k).take i) (hkey : q'.key = q.key) (hlt : q.id < q'.id) :
    ∃ q'' ∈ (p.messages part k).take i, q''.id = q.id := by
  obtain ⟨hpub, htopic, hpart⟩ := mem_messages.mp hq
  obtain ⟨-, htopic', -⟩ := mem_messages.mp (List.mem_of_mem_take hq')
  obtain ⟨pre, post, hsplit, hpre, -⟩ := List.filter_eq_append_iff.mp
    (List.take_append_drop i (p.messages part k)).symm
  rw [← hpre] at hq'
  obtain ⟨before, after, rfl⟩ := List.append_of_mem (List.mem_filter.mp hq').1
  obtain ⟨e, he, hi, hcontent⟩ := h.published q hpub
  have hstream : OutboxRelay.stream e = (q'.topic, q'.key) := by
    rw [htopic', hkey, ← htopic]
    exact stream_of_content hcontent
  have hearlier := hin before q' (after ++ post) (by rw [hsplit]; simp) e he hstream (hi ▸ hlt)
  obtain ⟨q'', hq'', hid⟩ := List.mem_map.mp hearlier
  have hpub'' : q'' ∈ p.relay.published := by
    rw [hsplit]
    simp [hq'']
  obtain ⟨ht'', hk'', -⟩ := h.copies hpub'' hpub (hid.trans hi)
  refine ⟨q'', ?_, hid.trans hi⟩
  rw [← hpre, List.mem_filter, decide_eq_true_iff]
  exact ⟨by simp [hq''], ht''.trans htopic, by rw [hk'']; exact hpart⟩

theorem addressed_submit {db : Db} {topic : Topic} {key : String} {cmd : OrderSubmitCommand}
    (h : Addressed db (topic, key, .command (.SUBMIT cmd))) :
    ∃ o, db.order? cmd.orderId = some o ∧ cmd.symbol = o.market ∧ key = o.market := by
  cases h with
  | submit o commandId ts ho hid => exact ⟨o, ho, rfl, rfl⟩

/-- **The next `SUBMIT` of a partition comes in order.** -/
theorem Reads.inOrder (h : p.Wired) (hline : p.InLine) (hin : p.relay.InOrder)
    (hs : p.matcher.store.Sound) (haddr : p.matcher.db.OutboxAddressed)
    (hinc : p.matcher.db.SubmitsIncrease) {c : List ℕ} {high : ℕ → ℕ}
    (hr : Reads part c p high) {k : ℕ} {q : OutboxRelay.Publication}
    (hq : (p.messages part k)[p.position k]? = some q) {cmd : OrderSubmitCommand}
    (hv : q.value = .command (.SUBMIT cmd)) : cmd.orderId ∈ c ∨
      ∀ o ∈ p.matcher.db.orders, o.id ∈ c → o.market = cmd.symbol → o.id < cmd.orderId := by
  by_cases hc : cmd.orderId ∈ c
  · exact .inl hc
  refine .inr fun o ho hoc hom => ?_
  have hmem : q ∈ p.messages part k := List.mem_of_getElem? hq
  obtain ⟨hpub, htopic, hpart⟩ := mem_messages.mp hmem
  -- the message is new: none of its copies was read
  have hnew : ∀ q'' ∈ (p.messages part k).take (high k), q''.id ≠ q.id := by
    intro q'' hq'' hid
    have hpub'' := (mem_messages.mp (List.mem_of_mem_take hq'')).1
    exact hc (hr.read k q'' hq'' cmd ((h.copies hpub'' hpub hid).2.2.trans hv))
  obtain ⟨e, he, hi, hval⟩ := h.published q hpub
  obtain ⟨ev, hev, hcontent⟩ := h.rows e he
  obtain ⟨k', q', hq', cmd', hv', hid'⟩ := hr.consumed o.id hoc
  obtain ⟨hpub', htopic', hpart'⟩ := mem_messages.mp (List.mem_of_mem_take hq')
  obtain ⟨e', he', hi', hval'⟩ := h.published q' hpub'
  obtain ⟨ev', hev', hcontent'⟩ := h.rows e' he'
  -- the two are of one market, so of one partition
  have hrow := haddr ev hev
  have hrow' := haddr ev' hev'
  rw [hcontent, hval, hv] at hrow
  rw [hcontent', hval', hv'] at hrow'
  obtain ⟨o₁, -, hsymbol, hkey⟩ := addressed_submit hrow
  obtain ⟨o₂, ho₂, -, hkey'⟩ := addressed_submit hrow'
  rw [hid'] at ho₂
  obtain rfl : o₂ = o := Option.some.inj (ho₂.symm.trans (hs.order?_of_mem ho))
  have hkeys : q'.key = q.key := by rw [hkey, hkey', hom, hsymbol]
  obtain rfl : k = k' := by rw [← hpart, ← hpart', hkeys]
  by_contra hge
  have hne : cmd.orderId ≠ o₂.id := fun e => hc (e ▸ hoc)
  have hstream : OutboxRelay.stream e = OutboxRelay.stream e' := by
    rw [stream_of_content hval, stream_of_content hval', htopic, htopic', hkeys]
  have hsubmits : submitOf e.content = some cmd.orderId := by
    rw [hval, htopic, hv]
    rfl
  have hsubmits' : submitOf e'.content = some o₂.id := by
    rw [hval', htopic', hv', ← hid']
    rfl
  have hlt : e.id < e'.id :=
    hline.id_lt hinc he he' hstream hsubmits hsubmits' (lt_of_le_of_ne (not_lt.mp hge) hne)
  obtain ⟨q'', hq'', hid''⟩ := h.lower hin hmem hq' hkeys (by rw [← hi, ← hi']; exact hlt)
  exact hnew q'' hq'' hid''

/-- Where messages were only added, and no offset is behind what was read. -/
theorem Reads.mono {c : List ℕ} {p p' : Pipeline E} {high : ℕ → ℕ} (hr : Reads part c p high)
    (hm : ∀ k, p.messages part k <+: p'.messages part k) (hp : ∀ k, p'.position k ≤ high k) :
    Reads part c p' high := by
  have htake : ∀ k, (p'.messages part k).take (high k) = (p.messages part k).take (high k) := by
    intro k
    obtain ⟨new, hnew⟩ := hm k
    rw [← hnew, List.take_append_of_le_length (hr.bound k)]
  refine ⟨hp, fun k => (hr.bound k).trans (hm k).length_le, fun id hid => ?_, fun k q hq => ?_⟩
  · obtain ⟨k, q, hq, hcmd⟩ := hr.consumed id hid
    exact ⟨k, q, by rwa [htake k], hcmd⟩
  · rw [htake k] at hq
    exact hr.read k q hq

/-- The order that a message submits. -/
def submitIdOf : Payload → List ℕ
  | .command (.SUBMIT cmd) => [cmd.orderId]
  | _ => []

/-- **A message is read**: a new one, or one that was read before. -/
theorem Reads.consume {c : List ℕ} {p p' : Pipeline E} {high : ℕ → ℕ} (hr : Reads part c p high)
    (hm : ∀ k, p'.messages part k = p.messages part k) {k : ℕ} {q : OutboxRelay.Publication}
    (hq : (p.messages part k)[p.position k]? = some q)
    (hp : p'.position = Function.update p.position k (p.position k + 1)) :
    ∃ high', Reads part (submitIdOf q.value ++ c) p' high' := by
  have hlen : p.position k < (p.messages part k).length := (List.getElem?_eq_some_iff.mp hq).1
  -- what is read with it
  have hread : ∀ k' x, x ∈ (p.messages part k').take
      (Function.update high k (max (high k) (p.position k + 1)) k') ↔
        x ∈ (p.messages part k').take (high k') ∨ k' = k ∧ x = q := by
    intro k' x
    by_cases hk : k' = k
    · subst hk
      rw [Function.update_self]
      rcases (hr.le k').lt_or_eq with hlt | heq
      · have hqread : q ∈ (p.messages part k').take (high k') := by
          refine List.mem_of_getElem? (i := p.position k') ?_
          rw [List.getElem?_take_of_lt hlt, hq]
        rw [max_eq_left hlt]
        exact ⟨.inl, fun hx => hx.elim id fun e => e.2 ▸ hqread⟩
      · rw [heq, max_eq_right (Nat.le_succ _), List.take_add_one, ← heq, hq, List.mem_append]
        simp
    · rw [Function.update_of_ne hk]
      exact ⟨.inl, fun hx => hx.elim id fun e => absurd e.1 hk⟩
  refine ⟨Function.update high k (max (high k) (p.position k + 1)), fun k' => ?_, fun k' => ?_,
    fun id hid => ?_, fun k' x hx cmd hv => ?_⟩
  · rw [hp]
    by_cases hk : k' = k
    · subst hk
      rw [Function.update_self, Function.update_self]
      exact le_max_right _ _
    · rw [Function.update_of_ne hk, Function.update_of_ne hk]
      exact hr.le k'
  · rw [hm]
    by_cases hk : k' = k
    · subst hk
      rw [Function.update_self]
      exact max_le (hr.bound k') hlen
    · rw [Function.update_of_ne hk]
      exact hr.bound k'
  · rcases List.mem_append.mp hid with hid | hid
    · unfold submitIdOf at hid
      split at hid
      · rename_i cmd hv
        refine ⟨k, q, ?_, cmd, hv, (List.mem_singleton.mp hid).symm⟩
        rw [hm]
        exact (hread k q).mpr (.inr ⟨rfl, rfl⟩)
      · cases hid
    · obtain ⟨k', x, hx, hcmd⟩ := hr.consumed id hid
      refine ⟨k', x, ?_, hcmd⟩
      rw [hm]
      exact (hread k' x).mpr (.inl hx)
  · rw [hm] at hx
    rcases (hread k' x).mp hx with hx | ⟨-, rfl⟩
    · exact List.mem_append_right _ (hr.read k' x hx cmd hv)
    · refine List.mem_append_left _ ?_
      rw [hv]
      exact List.mem_singleton_self _

theorem made_consume {k : ℕ} {faults : Option ℕ} {q : OutboxRelay.Publication}
    (hq : (p.messages part k)[p.position k]? = some q) : p.made part (.consume k faults) =
      match q.value with
      | .command cmd => [.deliver cmd faults]
      | _ => [] := by
  unfold made
  simp only [hq]
  obtain ⟨id, topic, key, value, headers⟩ := q
  cases value <;> rfl

/-- The command of a message was published. -/
theorem Wired.mem_commands (h : p.Wired) {k : ℕ} {q : OutboxRelay.Publication}
    (hq : (p.messages part k)[p.position k]? = some q) {cmd : OrderCommand}
    (hv : q.value = .command cmd) : cmd ∈ p.matcher.db.commands := by
  obtain ⟨hpub, htopic, -⟩ := mem_messages.mp (List.mem_of_getElem? hq)
  obtain ⟨e, he, -, hval⟩ := h.published q hpub
  obtain ⟨ev, hev, hcontent⟩ := h.rows e he
  rw [hval, htopic, hv] at hcontent
  refine List.mem_filterMap.mpr ⟨ev, hev, ?_⟩
  rw [show ev.topic = _ from congrArg (·.1) hcontent,
    show ev.payload = _ from congrArg (·.2.2) hcontent]

theorem Wired.consumed_consume (h : p.Wired) {k : ℕ} {faults : Option ℕ}
    {q : OutboxRelay.Publication} (hq : (p.messages part k)[p.position k]? = some q)
    (c : List ℕ) : p.matcher.consumed c (p.made part (.consume k faults)) =
      submitIdOf q.value ++ c := by
  rw [made_consume hq]
  cases hv : q.value with
  | command cmd =>
    have hcmd := h.mem_commands hq hv
    cases cmd with
    | SUBMIT cmd =>
      change p.matcher.consumes (.deliver (.SUBMIT cmd) faults) ++ c = _
      rw [Matcher.consumes, if_pos hcmd]
      rfl
    | CANCEL cmd => rfl
  | _ => rfl

/-- **One step of the pipeline**, for what is read. -/
theorem Reads.step (h : p.Wired) {c : List ℕ} {high : ℕ → ℕ} (hr : Reads part c p high) (l : Step) :
    ∃ high', Reads part (p.matcher.consumed c (p.made part l)) (p.step part l) high' := by
  obtain ⟨hrelay, hposition⟩ := relay_foldl p (p.made part l)
  have hsame : ∀ {p' : Pipeline E}, p'.relay.published = p.relay.published →
      ∀ k, p'.messages part k = p.messages part k := by
    intro p' he k
    unfold messages
    rw [he]
  cases l with
  | exchange l =>
    have hc : p.matcher.consumed c (p.made part (.exchange l)) = c := by
      cases l <;> rfl
    rw [hc]
    exact ⟨high, hr.mono
      (fun k => (hsame (congrArg (·.published) hrelay) k) ▸ List.prefix_rfl)
      fun k => (congrFun hposition k).le.trans (hr.le k)⟩
  | commit i id =>
    refine ⟨high, ?_⟩
    change Reads part c (p.commit i id) high
    rcases p.commit_cases i id with heq | ⟨ev, -, heq, -, hpublished⟩
    · rwa [heq]
    · exact hr.mono (fun k => (hsame hpublished k) ▸ List.prefix_rfl) (heq ▸ hr.le)
  | drain batchSize outcomes =>
    refine ⟨high, hr.mono (fun k => ?_) hr.le⟩
    change _ <+: List.filter _ (OutboxRelay.drainOnce batchSize outcomes p.relay).published
    rw [OutboxRelay.drainOnce, OutboxRelay.published_foldl, List.filter_append]
    exact List.prefix_append _ _
  | consume k faults =>
    unfold Pipeline.step
    dsimp only
    cases hq : (p.messages part k)[p.position k]? with
    | none =>
      have hmade : p.made part (.consume k faults) = [] := by
        unfold made
        simp only [hq]
      rw [if_neg (not_lt.mpr (List.getElem?_eq_none_iff.mp hq)), hmade]
      exact ⟨high, hr⟩
    | some q =>
      rw [if_pos (List.getElem?_eq_some_iff.mp hq).1, h.consumed_consume hq]
      refine hr.consume (hsame ?_) hq ?_
      · exact congrArg (·.published) hrelay
      · rfl
  | seek k offset =>
    refine ⟨high, hr.mono (fun k => List.prefix_rfl) fun k' => ?_⟩
    change Function.update p.position k (min offset (p.position k)) k' ≤ high k'
    by_cases hk : k' = k
    · subst hk
      rw [Function.update_self]
      exact (min_le_right _ _).trans (hr.le k')
    · rw [Function.update_of_ne hk]
      exact hr.le k'

/-! ## Runs -/

/-- **What holds after every run.** -/
theorem run_reads (h : p.Initial) (steps : List Step) : (p.run part steps).Wired ∧
    ∃ high, Reads part (p.matcher.consumed [] (p.trace part steps)) (p.run part steps) high := by
  induction steps using List.reverseRecOn with
  | nil =>
    refine ⟨h.wired, p.position, fun _ => le_rfl, fun k => ?_, fun id hid => ?_, fun k q hq => ?_⟩
    · rw [h.position]
      exact Nat.zero_le _
    · cases hid
    · rw [h.position] at hq
      cases hq
  | append_singleton steps l ih =>
    obtain ⟨hw, high, hr⟩ := ih
    rw [run_append, trace_append, trace, trace, List.append_nil, consumed_append, ← run_matcher]
    exact ⟨hw.step l, hr.step hw l⟩

/-- **What holds where every step meets the condition.** -/
theorem run_inLine (h : p.Initial) {steps : List Step}
    (hl : Justified (fun before l => (p.run part before).Orderly l) steps) :
    (p.run part steps).InLine ∧ (p.run part steps).relay.InOrder := by
  induction steps using List.reverseRecOn with
  | nil =>
    refine ⟨h.inLine, ?_⟩
    change p.relay.InOrder
    rw [h.relay]
    exact justified_nil
  | append_singleton steps l ih =>
    obtain ⟨hl₀, hlast⟩ := justified_concat.mp hl
    obtain ⟨hline, hin⟩ := ih hl₀
    rw [run_append]
    exact ⟨hline.step hlast, (run_reads h steps).1.inOrder hin hlast⟩

/-- **A step of the pipeline delivers in order**, when the rows stand in line and were published in
the order of their ids. -/
theorem made_inOrder (h : p.Initial) (steps : List Step) (hline : (p.run part steps).InLine)
    (hin : (p.run part steps).relay.InOrder) (l : Step) : Justified (fun before x => x.InOrder
      (p.matcher.consumed [] (p.trace part steps ++ before))
      (p.matcher.run (p.trace part steps ++ before))) ((p.run part steps).made part l) := by
  cases l with
  | exchange l =>
    unfold made
    cases l <;> first
      | exact justified_nil
      | exact justified_cons.mpr ⟨trivial, justified_nil⟩
  | commit i id => exact justified_nil
  | drain batchSize outcomes => exact justified_nil
  | seek k offset => exact justified_nil
  | consume k faults =>
    cases hq : ((p.run part steps).messages part k)[(p.run part steps).position k]? with
    | none =>
      unfold made
      simp only [hq]
      exact justified_nil
    | some q =>
      rw [made_consume hq]
      split
      · rename_i cmd hv
        refine justified_cons.mpr ⟨?_, justified_nil⟩
        rw [List.append_nil]
        cases cmd with
        | CANCEL cmd => trivial
        | SUBMIT cmd =>
          intro _
          have hsound := (run_safe h.matcher (p.trace part steps)).sound
          have haddr := run_addressed h.matcher (p.trace part steps)
          have hinc := run_submitsIncrease h.matcher (p.trace part steps)
          rw [← run_matcher] at hsound haddr hinc ⊢
          obtain ⟨hw, high, hr⟩ := run_reads h steps
          exact hr.inOrder hw hline hin hsound haddr hinc hq hv
      · exact justified_nil

namespace PipelineSample

open Orbit.Sample (limit exchange_initial)

/-- The small exchange, and a broker with nothing in it. -/
def pipeline : Pipeline Engine.priceTime := ⟨Orbit.Sample.exchange, [], .empty, fun _ => 0⟩

theorem pipeline_initial : pipeline.Initial := ⟨exchange_initial, rfl, rfl, fun _ => rfl⟩

/-- The mark of the first row fails, so that its order is published twice, and the next command
commits before the events of the first order; later the matcher reads the partition from its
beginning. -/
def rereading : List Step :=
  [.exchange (.submit "bob" (limit .ASK 100 2) none), .commit 0 1,
    .drain 200 [.unmarked "timeout" true], .consume 0 none,
    .exchange (.submit "alice" (limit .BID 110 1) none), .commit 2 2,
    .drain 200 [.sent 1, .sent 1], .consume 0 none, .consume 0 none, .seek 0 0, .consume 0 none]

/-- The row of the second order drew the lower id and commits first. -/
def crossed : List Step :=
  [.exchange (.submit "bob" (limit .ASK 100 2) none),
    .exchange (.submit "alice" (limit .BID 110 1) none), .commit 1 100, .commit 0 101,
    .drain 200 [.sent 1, .sent 1], .consume 0 none, .consume 0 none]

end PipelineSample

/-- Without the condition on commits the second order is delivered first, though every send
succeeds. -/
example : ¬PipelineSample.pipeline.matcher.InOrder
    (PipelineSample.pipeline.trace (fun _ => 0) PipelineSample.crossed) := by decide +kernel

end Pipeline

end Orbit
