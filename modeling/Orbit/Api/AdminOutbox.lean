import Orbit.Workers.OutboxRelay

/-!
# Retry and skip of outbox rows

`retry` and `skip` of `apps/api/src/admin/outbox/admin-outbox.service.ts`, among the relays that
drain the table. Both read the row, refuse one that is processed, and update it.

The model of `Orbit.OutboxRelay` makes a pass in one step. Here it is cut at its `await`s: a
relay reads its batch (`Await.findMany`), and then sends, marks and notes row by row what it has
in memory. So is a call of an administrator (`Phase`). Any number of relays and of calls take
their steps in any order; an `await` may throw, whether what it does is done or not, and a
process may die in one.

* `skip_final`: once a skip has returned its row is not sent again, and a row that says it was
  skipped was not sent after it was marked, in every run in which no relay holds a row unsent when a
  skip updates it, no row is sent that is marked already while a skip of it is in its update, and no
  error is noted that reads like a skip.
-/

namespace Orbit.OutboxRelay.Admin

open Table

/-- The `await` of `drainOnce` that a relay is in; `rest` is what is left of its batch. -/
inductive Await
  | findMany
  /-- In `producer.send`. -/
  | send (ev : Row) (rest : List Row)
  /-- In the update of `processedAt`. -/
  | mark (ev : Row) (rest : List Row)
  /-- In the update of `attempts` and `lastError`. -/
  | note (ev : Row) (msg : String) (rest : List Row)
  deriving DecidableEq, Repr

/-- The next turn of the loop, or the next pass. -/
def Await.next : List Row → Await
  | [] => .findMany
  | ev :: rest => .send ev rest

/-- How an `await` ends. -/
inductive Answer
  | ok
  /-- It throws; what it does may be done all the same. -/
  | threw (msg : String) (done : Bool)
  /-- The process dies in it. -/
  | crashed (done : Bool)
  deriving DecidableEq, Repr

/-- Whether what is awaited is done. -/
def Answer.done : Answer → Bool
  | .ok => true
  | .threw _ done => done
  | .crashed done => done

inductive Action
  | retry
  | skip
  deriving DecidableEq, Repr

/-- What `skip` leaves in the column `lastError`. -/
def skippedError : String := "SKIPPED BY ADMIN — see AdminAuditLog for reason"

/-- The data of the update. -/
def Action.data (now : ℕ) (r : Row) : Action → Row
  | .retry => { r with attempts := 0, lastError := none }
  | .skip => { r with processedAt := some now, lastError := some skippedError }

inductive Response
  | retryArmed (id : ℕ) (previousAttempts : ℕ) (previousLastError : Option String)
  | skipped (id : ℕ) (topic : Topic) (key : String)
  deriving DecidableEq, Repr

def Action.response (row : Row) : Action → Response
  | .retry => .retryArmed row.id row.attempts row.lastError
  | .skip => .skipped row.id row.event.topic row.event.key

inductive Refusal
  | notFound
  | processed (since : ℕ)
  | thrown (msg : String)
  deriving DecidableEq, Repr

/-- The text of a refusal. -/
def Refusal.message (toISOString : ℕ → String) (action : Action) : Refusal → String
  | .notFound => "outbox event not found"
  | .processed since =>
    match action with
    | .retry => s!"row already processed at {toISOString since} — replay would double-deliver"
    | .skip => s!"row already processed at {toISOString since}"
  | .thrown msg => msg

/-- The `await` a call is in, or how it ended. -/
inductive Phase
  | findUnique
  | update (row : Row)
  | returned (res : Response)
  | refused (e : Refusal)
  /-- Its process died. -/
  | lost
  deriving DecidableEq, Repr

structure Call where
  action : Action
  id : ℕ
  phase : Phase
  deriving DecidableEq, Repr

/-- The table, what the broker took, and who is at work. -/
structure System where
  rows : List Row
  published : List Publication
  relays : List Await
  calls : List Call
  deriving DecidableEq, Repr

def System.empty : System := ⟨[], [], [], []⟩

/-- What a relay does to the rows when its `await` ends. -/
def Await.writes (now : ℕ) (answer : Answer) (rows : List Row) : Await → List Row
  | .mark ev _ =>
    if answer.done then modify ev.id (fun r => { r with processedAt := some now }) rows else rows
  | .note ev msg _ => noteError ev.id msg answer.done rows
  | _ => rows

/-- What a relay publishes when its `await` ends. -/
def Await.publishes (answer : Answer) : Await → List Publication
  | .send ev _ => if answer.done then [ev.publication] else []
  | _ => []

/-- The `await` after that: the `catch` branch of a turn serves its send and its mark, an update
that it makes in vain is only logged, and a pass whose query fails is made again. -/
def Await.after (batchSize : ℕ) (rows : List Row) (answer : Answer) : Await → Await
  | .findMany =>
    match answer with
    | .ok => .next (OutboxRelay.findMany batchSize rows)
    | _ => .findMany
  | .send ev rest =>
    match answer with
    | .ok => .mark ev rest
    | .threw msg _ => .note ev msg rest
    | .crashed _ => .findMany
  | .mark ev rest =>
    match answer with
    | .ok => .next rest
    | .threw msg _ => .note ev msg rest
    | .crashed _ => .findMany
  | .note _ _ rest =>
    match answer with
    | .crashed _ => .findMany
    | _ => .next rest

/-- What a call does to the rows when its `await` ends. -/
def Call.writes (now : ℕ) (answer : Answer) (rows : List Row) (c : Call) : List Row :=
  match c.phase with
  | .update row => if answer.done then modify row.id (fun r => c.action.data now r) rows else rows
  | _ => rows

/-- The phase of the call after that. -/
def Call.after (rows : List Row) (answer : Answer) (c : Call) : Phase :=
  match c.phase with
  | .findUnique =>
    match answer with
    | .ok =>
      match find? c.id rows with
      | none => .refused .notFound
      | some row =>
        match row.processedAt with
        | some since => .refused (.processed since)
        | none => .update row
    | .threw msg _ => .refused (.thrown msg)
    | .crashed _ => .lost
  | .update row =>
    match answer with
    | .ok => .returned (c.action.response row)
    | .threw msg _ => .refused (.thrown msg)
    | .crashed _ => .lost
  | phase => phase

inductive Step
  /-- A transaction that inserted a row commits. -/
  | commit (event : OutboxEvent) (headers : Option (List (String × HeaderValue)))
  /-- A relay is started. -/
  | start
  /-- The `await` of the relay number `i` ends. -/
  | relay (i batchSize now : ℕ) (answer : Answer)
  | call (action : Action) (id : ℕ)
  /-- The `await` of the call number `i` ends. -/
  | resume (i now : ℕ) (answer : Answer)
  deriving DecidableEq, Repr

/-- One step. The id of a committed row is new. -/
def step (s : System) : Step → System
  | .commit event headers =>
    if (find? event.id s.rows).isSome then s
    else { s with rows := s.rows ++ [⟨event, headers, none, 0, none⟩] }
  | .start => { s with relays := s.relays ++ [.findMany] }
  | .relay i batchSize now answer =>
    match s.relays[i]? with
    | none => s
    | some a =>
      { s with
        rows := a.writes now answer s.rows
        published := s.published ++ a.publishes answer
        relays := s.relays.set i (a.after batchSize s.rows answer) }
  | .call action id => { s with calls := s.calls ++ [⟨action, id, .findUnique⟩] }
  | .resume i now answer =>
    match s.calls[i]? with
    | none => s
    | some c =>
      { s with
        rows := c.writes now answer s.rows
        calls := s.calls.set i { c with phase := c.after s.rows answer } }

def run (s : System) (steps : List Step) : System := steps.foldl step s

/-! ## What a skip promises -/

/-- How often the message of a row reached the broker. -/
def System.sends (s : System) (id : ℕ) : ℕ := (s.published.map (·.id)).count id

/-- A skip of the row returned success. -/
def System.Skipped (s : System) (id : ℕ) : Prop :=
  ∃ c ∈ s.calls, ∃ topic key, c.phase = .returned (.skipped id topic key)

def Processed (rows : List Row) (id : ℕ) : Prop :=
    ∃ r, find? id rows = some r ∧ r.processedAt ≠ none

/-- The row says that it was skipped. -/
def Labelled (rows : List Row) (id : ℕ) : Prop :=
  ∃ r, find? id rows = some r ∧ r.lastError = some skippedError

/-- **A skip is final** in a run. -/
structure SkipFinal (steps : List Step) : Prop where
  skipped : ∀ before after id, steps = before ++ after → (run .empty before).Skipped id →
    (run .empty steps).sends id = (run .empty before).sends id
  labelled : ∀ before after id, steps = before ++ after → Processed (run .empty before).rows id →
    Labelled (run .empty steps).rows id →
    (run .empty steps).sends id = (run .empty before).sends id

/-- The rows that a relay holds and has not sent. -/
def Await.unsent : Await → List Row
  | .findMany => []
  | .send ev rest => ev :: rest
  | .mark _ rest => rest
  | .note _ _ rest => rest

/-- No relay holds the row unsent. -/
def System.Unheld (s : System) (id : ℕ) : Prop := ∀ a ∈ s.relays, ∀ r ∈ a.unsent, r.id ≠ id

/-- The id of the row, for a skip that is in its update. -/
def Call.skipping (c : Call) : Option ℕ :=
  match c.action, c.phase with
  | .skip, .update row => some row.id
  | _, _ => none

/-- The condition on a relay whose `await` ends. -/
def Await.Clear (s : System) (answer : Answer) : Await → Prop
  | .send ev _ => answer.done = true → Processed s.rows ev.id →
      ∀ c ∈ s.calls, c.skipping ≠ some ev.id
  | .note _ msg _ => Texts.slice msg 1000 ≠ skippedError
  | _ => True

/-- The condition on a step. -/
def Clear (s : System) : Step → Prop
  | .relay i _ _ answer => ∀ a ∈ s.relays[i]?, a.Clear s answer
  | .resume i _ answer => ∀ c ∈ s.calls[i]?, answer.done = true → ∀ id ∈ c.skipping, s.Unheld id
  | _ => True

instance (rows : List Row) (id : ℕ) : Decidable (Processed rows id) :=
  decidable_of_iff (∃ r ∈ find? id rows, r.processedAt ≠ none) Iff.rfl

instance (s : System) (id : ℕ) : Decidable (s.Unheld id) :=
  inferInstanceAs (Decidable (∀ a ∈ s.relays, ∀ r ∈ a.unsent, r.id ≠ id))

instance (s : System) (answer : Answer) : (a : Await) → Decidable (a.Clear s answer)
  | .send ev _ => inferInstanceAs (Decidable (answer.done = true → Processed s.rows ev.id → _))
  | .note _ _ _ => inferInstanceAs (Decidable (_ ≠ _))
  | .findMany | .mark _ _ => inferInstanceAs (Decidable True)

instance (s : System) : (st : Step) → Decidable (Clear s st)
  | .relay i _ _ answer => inferInstanceAs (Decidable (∀ a ∈ s.relays[i]?, a.Clear s answer))
  | .resume i _ _ => inferInstanceAs (Decidable (∀ c ∈ s.calls[i]?, _))
  | .commit _ _ | .start | .call _ _ => inferInstanceAs (Decidable True)

/-! ## The table -/

section Rows

variable {rows rows' : List Row} {id k : ℕ} {f : Row → Row}

/-- What every write to the table keeps: a row stays, and one that is processed stays processed. -/
structure Grows (rows rows' : List Row) : Prop where
  nodup : (rows.map Row.id).Nodup → (rows'.map Row.id).Nodup
  known : ∀ id, (find? id rows).isSome → (find? id rows').isSome
  processed : ∀ id, Processed rows id → Processed rows' id

theorem Grows.refl (rows : List Row) : Grows rows rows := ⟨id, fun _ => id, fun _ => id⟩

theorem Grows.modify (hf : ∀ r, (f r).id = r.id)
    (hp : ∀ r, r.processedAt ≠ none → (f r).processedAt ≠ none) : Grows rows (modify k f rows) := by
  have hkey : ∀ r, key (f r) = key r := hf
  refine ⟨fun h => ?_, fun id h => ?_, fun id ⟨r, hr, hat⟩ => ?_⟩
  · rwa [map_modify hf]
  · rw [find?_modify hkey]
    split
    · rwa [Option.isSome_map]
    · exact h
  · unfold Processed
    rw [find?_modify hkey, hr]
    split
    · exact ⟨f r, rfl, hp r hat⟩
    · exact ⟨r, rfl, hat⟩

theorem Grows.append {r : Row} (h : find? r.id rows = none) : Grows rows (rows ++ [r]) := by
  refine ⟨fun hn => nodup_map_key_append hn h, fun id hid => ?_, fun id ⟨x, hx, hat⟩ => ?_⟩
  · obtain ⟨x, hx⟩ := Option.isSome_iff_exists.mp hid
    rw [find?_append_of_some _ hx]
    rfl
  · exact ⟨x, find?_append_of_some _ hx, hat⟩

/-- A write that says of no row that it was skipped. -/
theorem labelled_modify (hf : ∀ r, (f r).id = r.id)
    (hl : ∀ r, (f r).lastError = some skippedError → r.lastError = some skippedError)
    (h : Labelled (modify k f rows) id) : Labelled rows id := by
  obtain ⟨r, hr, hlabel⟩ := h
  rw [find?_modify hf] at hr
  split at hr
  · obtain ⟨x, hx, rfl⟩ := Option.map_eq_some_iff.mp hr
    exact ⟨x, hx, hl x hlabel⟩
  · exact ⟨r, hr, hlabel⟩

theorem labelled_append {r : Row} (hr : r.lastError = none) (h : Labelled (rows ++ [r]) id) :
    Labelled rows id := by
  obtain ⟨x, hx, hlabel⟩ := h
  rw [find?_append, find?_cons] at hx
  cases hold : find? id rows with
  | some y =>
    rw [hold, Option.some_or, Option.some.injEq] at hx
    exact ⟨y, hold, hx ▸ hlabel⟩
  | none =>
    rw [hold, Option.none_or] at hx
    split at hx
    · rw [← Option.some.inj hx, hr] at hlabel
      cases hlabel
    · cases hx

theorem find?_of_mem (hn : (rows.map Row.id).Nodup) {r : Row} (hr : r ∈ rows) :
    find? r.id rows = some r := by
  obtain ⟨x, hx⟩ := Option.isSome_iff_exists.mp (find?_isSome.mpr (List.mem_map_of_mem hr))
  rw [show find? r.id rows = some x from hx]
  exact congrArg some (List.inj_on_of_nodup_map hn (mem_of_find? hx) hr (key_of_find? hx))

variable {now : ℕ} {answer : Answer} {a : Await} {c : Call}

theorem grows_noteError (id : ℕ) (msg : String) (noted : Bool) :
    Grows rows (noteError id msg noted rows) := by
  unfold noteError
  split
  · exact .modify (fun _ => rfl) fun _ h => h
  · exact .refl rows

theorem Await.grows_writes : Grows rows (a.writes now answer rows) := by
  cases a with
  | findMany | send ev rest => exact .refl rows
  | mark ev rest =>
    simp only [Await.writes]
    split
    · exact .modify (fun _ => rfl) fun _ _ => by simp
    · exact .refl rows
  | note ev msg rest => exact grows_noteError ev.id msg answer.done

theorem Call.grows_writes : Grows rows (c.writes now answer rows) := by
  unfold Call.writes
  split
  · split
    · cases c.action with
      | retry => exact .modify (fun _ => rfl) fun _ h => h
      | skip => exact .modify (fun _ => rfl) fun _ _ => by simp [Action.data]
    · exact .refl rows
  · exact .refl rows

/-- No relay says of a row that it was skipped. -/
theorem Await.labelled_writes {s : System} (hc : a.Clear s answer)
    (h : Labelled (a.writes now answer rows) id) : Labelled rows id := by
  cases a with
  | findMany | send ev rest => exact h
  | mark ev rest =>
    simp only [Await.writes] at h
    split at h
    · refine labelled_modify ?_ ?_ h
      · exact fun _ => rfl
      · exact fun _ hr => hr
    · exact h
  | note ev msg rest =>
    simp only [Await.writes, noteError] at h
    split at h
    · refine labelled_modify ?_ ?_ h
      · exact fun _ => rfl
      · exact fun _ hr => absurd (Option.some.inj hr) hc
    · exact h

/-- Only a skip does. -/
theorem Call.labelled_writes (h : Labelled (c.writes now answer rows) id) :
    Labelled rows id ∨ c.skipping = some id ∧ answer.done = true := by
  unfold Call.writes at h
  split at h
  · rename_i row hphase
    split at h
    · rename_i hdone
      cases haction : c.action with
      | retry =>
        rw [haction] at h
        refine .inl (labelled_modify ?_ ?_ h)
        · exact fun _ => rfl
        · rintro _ ⟨⟩
      | skip =>
        rw [haction] at h
        by_cases hid : id = row.id
        · exact .inr ⟨by simp [Call.skipping, haction, hphase, hid], hdone⟩
        · obtain ⟨r, hr, hlabel⟩ := h
          have hkey : ∀ r, key (Action.data now r .skip) = key r := fun _ => rfl
          rw [find?_modify_ne hid hkey] at hr
          exact .inl ⟨r, hr, hlabel⟩
    · exact .inl h
  · exact .inl h

/-- A call comes to its update with the pending row that it read. -/
theorem Call.after_eq_update {row : Row} (h : c.after rows answer = .update row) :
    find? row.id rows = some row ∧ row.processedAt = none ∧ row.id = c.id := by
  unfold Call.after at h
  split at h
  · split at h
    · split at h
      · cases h
      · rename_i x hx
        split at h
        · cases h
        · rename_i hat
          obtain rfl := Phase.update.inj h
          have hid : x.id = c.id := key_of_find? hx
          exact ⟨(congrArg (find? · rows) hid).trans hx, hat, hid⟩
    · cases h
    · cases h
  · split at h <;> cases h
  · rename_i hupdate
    exact absurd h (hupdate row)

/-- A call that returns the success of a skip was in the update of one. -/
theorem Call.after_eq_skipped {topic : Topic} {key : String}
    (h : c.after rows answer = .returned (.skipped id topic key)) :
    c.phase = .returned (.skipped id topic key) ∨ c.skipping = some id ∧ answer.done = true := by
  unfold Call.after at h
  split at h
  · split at h
    · split at h
      · cases h
      · split at h <;> cases h
    · cases h
    · cases h
  · rename_i row hphase
    split at h
    · cases haction : c.action with
      | retry =>
        rw [haction] at h
        cases h
      | skip =>
        rw [haction] at h
        obtain ⟨hid, -, -⟩ := Response.skipped.inj (Phase.returned.inj h)
        exact .inr ⟨by simp [Call.skipping, haction, hphase, hid], rfl⟩
    · cases h
    · cases h
  · exact .inl h

theorem Call.skipping_eq_some (h : c.skipping = some id) :
    c.action = .skip ∧ ∃ row, c.phase = .update row ∧ row.id = id := by
  unfold Call.skipping at h
  split at h
  · rename_i row haction hphase
    exact ⟨haction, row, hphase, Option.some.inj h⟩
  · cases h

end Rows

/-! ## One step -/

section Steps

variable {s : System} {st : Step} {id : ℕ}

/-- What holds in every run whose steps are clear. -/
structure System.Invariant (s : System) : Prop where
  nodup : (s.rows.map Row.id).Nodup
  /-- A call updates a row that is there. -/
  known : ∀ c ∈ s.calls, ∀ row, c.phase = .update row → (find? row.id s.rows).isSome
  /-- What was skipped is processed, and no relay is going to send it. -/
  released : ∀ id, s.Skipped id ∨ Labelled s.rows id → Processed s.rows id ∧ s.Unheld id

theorem System.Invariant.empty : System.empty.Invariant := by
  refine ⟨List.nodup_nil, fun c hc => absurd hc List.not_mem_nil, fun id h => ?_⟩
  rcases h with ⟨c, hc, -⟩ | ⟨r, hr, -⟩
  · exact absurd hc List.not_mem_nil
  · cases hr

/-- The step updates the row for a skip. -/
def Skips (s : System) (id : ℕ) (st : Step) : Prop :=
  ∃ i now answer c, st = .resume i now answer ∧ s.calls[i]? = some c ∧ c.skipping = some id ∧
    answer.done = true

/-- The step sends the row. -/
def Sends (s : System) (id : ℕ) (st : Step) : Prop :=
  ∃ i batchSize now answer ev rest, st = .relay i batchSize now answer ∧
    s.relays[i]? = some (.send ev rest) ∧ ev.id = id ∧ answer.done = true

theorem grows_step : Grows s.rows (step s st).rows := by
  cases st with
  | commit event headers =>
    simp only [step]
    split
    · exact .refl s.rows
    · rename_i hnew
      have hnone : find? event.id s.rows = none := by simpa using hnew
      exact .append hnone
  | start | call action id => exact .refl s.rows
  | relay i batchSize now answer =>
    simp only [step]
    split
    · exact .refl s.rows
    · exact Await.grows_writes
  | resume i now answer =>
    simp only [step]
    split
    · exact .refl s.rows
    · exact Call.grows_writes

/-- A row comes to say that it was skipped by a skip only. -/
theorem labelled_step (hc : Clear s st) (h : Labelled (step s st).rows id) :
    Labelled s.rows id ∨ Skips s id st := by
  cases st with
  | commit event headers =>
    simp only [step] at h
    split at h
    · exact .inl h
    · exact .inl (labelled_append rfl h)
  | start | call action id => exact .inl h
  | relay i batchSize now answer =>
    simp only [step] at h
    split at h
    · exact .inl h
    · rename_i a ha
      exact .inl (Await.labelled_writes (hc a ha) h)
  | resume i now answer =>
    simp only [step] at h
    split at h
    · exact .inl h
    · rename_i c hi
      rcases Call.labelled_writes h with h | ⟨hskip, hdone⟩
      · exact .inl h
      · exact .inr ⟨i, now, answer, c, rfl, hi, hskip, hdone⟩

/-- The calls after a step. -/
theorem mem_calls_step {c : Call} (h : c ∈ (step s st).calls) :
    c ∈ s.calls ∨ (c.phase = .findUnique ∧ st = .call c.action c.id) ∨
      ∃ i now answer c₀, st = .resume i now answer ∧ s.calls[i]? = some c₀ ∧
        c = { c₀ with phase := c₀.after s.rows answer } := by
  cases st with
  | commit event headers =>
    simp only [step] at h
    split at h <;> exact .inl h
  | start => exact .inl h
  | call action id =>
    rcases List.mem_append.mp h with h | h
    · exact .inl h
    · rw [List.mem_singleton.mp h]
      exact .inr (.inl ⟨rfl, rfl⟩)
  | relay i batchSize now answer =>
    simp only [step] at h
    split at h <;> exact .inl h
  | resume i now answer =>
    simp only [step] at h
    split at h
    · exact .inl h
    · rename_i c₀ hi
      rcases List.mem_or_eq_of_mem_set h with h | rfl
      · exact .inl h
      · exact .inr (.inr ⟨i, now, answer, c₀, rfl, hi, rfl⟩)

/-- The relays after a step: what one comes to hold it held before, or it is pending. -/
theorem mem_unsent_step {a : Await} (h : a ∈ (step s st).relays) {r : Row} (hr : r ∈ a.unsent) :
    (∃ a₀ ∈ s.relays, r ∈ a₀.unsent) ∨ r ∈ s.rows ∧ r.processedAt = none := by
  have hnext : ∀ rest : List Row, (Await.next rest).unsent = rest :=
    fun rest => by cases rest <;> rfl
  cases st with
  | commit event headers =>
    simp only [step] at h
    split at h <;> exact .inl ⟨a, h, hr⟩
  | start =>
    rcases List.mem_append.mp h with h | h
    · exact .inl ⟨a, h, hr⟩
    · rw [List.mem_singleton.mp h] at hr
      cases hr
  | call action id => exact .inl ⟨a, h, hr⟩
  | relay i batchSize now answer =>
    simp only [step] at h
    split at h
    · exact .inl ⟨a, h, hr⟩
    · rename_i a₀ hi
      have hold : r ∈ a₀.unsent → ∃ a₀ ∈ s.relays, r ∈ a₀.unsent :=
        fun hr => ⟨a₀, List.mem_of_getElem? hi, hr⟩
      rcases List.mem_or_eq_of_mem_set h with h | rfl
      · exact .inl ⟨a, h, hr⟩
      · cases a₀ with
        | findMany =>
          cases answer with
          | ok =>
            right
            simp only [Await.after, hnext, OutboxRelay.findMany] at hr
            have hmem := (List.perm_insertionSort _ _).mem_iff.mp ((List.take_subset _ _) hr)
            rw [List.mem_filter, Option.isNone_iff_eq_none] at hmem
            exact hmem
          | threw | crashed => cases hr
        | send ev rest =>
          refine .inl (hold ?_)
          cases answer with
          | ok | threw => exact List.mem_cons_of_mem ev hr
          | crashed => cases hr
        | mark ev rest =>
          refine .inl (hold ?_)
          cases answer with
          | ok => exact hnext rest ▸ hr
          | threw => exact hr
          | crashed => cases hr
        | note ev msg rest =>
          refine .inl (hold ?_)
          cases answer with
          | ok | threw => exact hnext rest ▸ hr
          | crashed => cases hr
  | resume i now answer =>
    simp only [step] at h
    split at h <;> exact .inl ⟨a, h, hr⟩

/-- A row comes to be skipped by a skip. -/
theorem skipped_step (h : (step s st).Skipped id) : s.Skipped id ∨ Skips s id st := by
  obtain ⟨c, hc, topic, key, hphase⟩ := h
  rcases mem_calls_step hc with hold | ⟨hnew, -⟩ | ⟨i, now, answer, c₀, rfl, hi, rfl⟩
  · exact .inl ⟨c, hold, topic, key, hphase⟩
  · rw [hnew] at hphase
    cases hphase
  · rcases Call.after_eq_skipped hphase with hold | ⟨hskip, hdone⟩
    · exact .inl ⟨c₀, List.mem_of_getElem? hi, topic, key, hold⟩
    · exact .inr ⟨i, now, answer, c₀, rfl, hi, hskip, hdone⟩

/-- A skip comes to its update with a row that is pending. -/
theorem skipping_step {c : Call} (h : c ∈ (step s st).calls) (hskip : c.skipping = some id) :
    (∃ c₀ ∈ s.calls, c₀.skipping = some id) ∨ ¬Processed s.rows id := by
  rcases mem_calls_step h with hold | ⟨hnew, -⟩ | ⟨i, now, answer, c₀, rfl, hi, rfl⟩
  · exact .inl ⟨c, hold, hskip⟩
  · obtain ⟨-, row, hphase, -⟩ := Call.skipping_eq_some hskip
    rw [hnew] at hphase
    cases hphase
  · obtain ⟨-, row, hphase, rfl⟩ := Call.skipping_eq_some hskip
    obtain ⟨hfind, hat, -⟩ := Call.after_eq_update hphase
    right
    rintro ⟨r, hr, hne⟩
    rw [hfind, Option.some.injEq] at hr
    exact hne (hr ▸ hat)

/-- No relay takes up a row that is processed. -/
theorem unheld_step (hs : s.Invariant) (hp : Processed s.rows id) (hu : s.Unheld id) :
    (step s st).Unheld id := by
  rintro a ha r hr rfl
  rcases mem_unsent_step ha hr with ⟨a₀, ha₀, hr₀⟩ | ⟨hmem, hat⟩
  · exact hu a₀ ha₀ r hr₀ rfl
  · obtain ⟨x, hx, hne⟩ := hp
    rw [find?_of_mem hs.nodup hmem, Option.some.injEq] at hx
    exact hne (hx ▸ hat)

/-- A skip leaves its row processed, with no relay to send it. -/
theorem released_of_skips (hs : s.Invariant) (hc : Clear s st) (h : Skips s id st) :
    Processed (step s st).rows id ∧ (step s st).Unheld id := by
  obtain ⟨i, now, answer, c, rfl, hi, hskip, hdone⟩ := h
  obtain ⟨haction, row, hphase, rfl⟩ := Call.skipping_eq_some hskip
  obtain ⟨r, hr⟩ := Option.isSome_iff_exists.mp (hs.known c (List.mem_of_getElem? hi) row hphase)
  have hunheld := hc c hi hdone row.id hskip
  simp only [step, hi]
  refine ⟨⟨c.action.data now r, ?_, ?_⟩, hunheld⟩
  · simp only [Call.writes, hphase, hdone, if_true]
    rw [find?_modify_self, hr]
    · rfl
    · intro x
      cases c.action <;> rfl
  · simp [haction, Action.data]

/-- **One step** keeps the invariant. -/
theorem System.Invariant.step (hs : s.Invariant) (hc : Clear s st) : (step s st).Invariant := by
  refine ⟨grows_step.nodup hs.nodup, fun c hmem row hphase => ?_, fun id h => ?_⟩
  · rcases mem_calls_step hmem with hold | ⟨hnew, -⟩ | ⟨i, now, answer, c₀, rfl, hi, rfl⟩
    · exact grows_step.known row.id (hs.known c hold row hphase)
    · rw [hnew] at hphase
      cases hphase
    · refine grows_step.known row.id ?_
      rw [(Call.after_eq_update hphase).1]
      rfl
  · have hold : s.Skipped id ∨ Labelled s.rows id ∨ Skips s id st := by
      rcases h with h | h
      · exact (skipped_step h).imp_right .inr
      · exact .inr (labelled_step hc h)
    rcases hold with hold | hold | hnew
    · obtain ⟨hp, hu⟩ := hs.released id (.inl hold)
      exact ⟨grows_step.processed id hp, unheld_step hs hp hu⟩
    · obtain ⟨hp, hu⟩ := hs.released id (.inr hold)
      exact ⟨grows_step.processed id hp, unheld_step hs hp hu⟩
    · exact released_of_skips hs hc hnew

/-! ## What is sent -/

theorem sends_step : (step s st).sends id = s.sends id ∨ Sends s id st := by
  cases st with
  | commit event headers =>
    simp only [step]
    split <;> exact .inl rfl
  | start | call action id => exact .inl rfl
  | relay i batchSize now answer =>
    simp only [step]
    split
    · exact .inl rfl
    · rename_i a hi
      have hnone : a.publishes answer = [] →
          (s.published ++ a.publishes answer).map (·.id) = s.published.map (·.id) := by
        intro h
        rw [h, List.append_nil]
      cases a with
      | findMany | mark | note => exact .inl (congrArg (List.count id) (hnone rfl))
      | send ev rest =>
        by_cases hdone : answer.done = true
        · by_cases hid : ev.id = id
          · exact .inr ⟨i, batchSize, now, answer, ev, rest, rfl, hi, hid, hdone⟩
          · left
            have hne : ev.publication.id ≠ id := hid
            simp [System.sends, Await.publishes, hdone, List.count_append, hne]
        · exact .inl (congrArg (List.count id) (hnone (by simp [Await.publishes, hdone])))
  | resume i now answer =>
    simp only [step]
    split <;> exact .inl rfl

theorem not_sends_of_unheld (hu : s.Unheld id) : ¬Sends s id st := by
  rintro ⟨i, batchSize, now, answer, ev, rest, rfl, hi, hid, -⟩
  exact hu _ (List.mem_of_getElem? hi) ev (List.mem_cons_self ..) hid

/-- The row is processed, and will never say that it was skipped. -/
structure System.Free (s : System) (id : ℕ) : Prop where
  processed : Processed s.rows id
  unlabelled : ¬Labelled s.rows id
  unskipped : ∀ c ∈ s.calls, c.skipping ≠ some id

theorem System.Free.step (hc : Clear s st) (h : s.Free id) : (step s st).Free id := by
  refine ⟨grows_step.processed id h.processed, fun hl => ?_, fun c hmem hskip => ?_⟩
  · rcases labelled_step hc hl with hold | ⟨i, now, answer, c, rfl, hi, hskip, -⟩
    · exact h.unlabelled hold
    · exact h.unskipped c (List.mem_of_getElem? hi) hskip
  · rcases skipping_step hmem hskip with ⟨c₀, hc₀, hold⟩ | hnot
    · exact h.unskipped c₀ hc₀ hold
    · exact hnot h.processed

/-- A row that is sent when it is processed. -/
theorem free_of_sends (hs : s.Invariant) (hc : Clear s st) (hp : Processed s.rows id)
    (h : Sends s id st) : (step s st).Free id := by
  have hheld : ¬Labelled s.rows id := fun hl =>
    not_sends_of_unheld (hs.released id (.inr hl)).2 h
  obtain ⟨i, batchSize, now, answer, ev, rest, rfl, hi, rfl, hdone⟩ := h
  have hfree := hc _ hi hdone hp
  simp only [step, hi]
  exact ⟨hp, hheld, hfree⟩

/-! ## Runs -/

theorem skipped_persists (h : s.Skipped id) : (step s st).Skipped id := by
  obtain ⟨c, hc, topic, key, hphase⟩ := h
  cases st with
  | commit event headers =>
    simp only [step]
    split <;> exact ⟨c, hc, topic, key, hphase⟩
  | start => exact ⟨c, hc, topic, key, hphase⟩
  | call action id => exact ⟨c, List.mem_append_left _ hc, topic, key, hphase⟩
  | relay i batchSize now answer =>
    simp only [step]
    split <;> exact ⟨c, hc, topic, key, hphase⟩
  | resume i now answer =>
    simp only [step]
    split
    · exact ⟨c, hc, topic, key, hphase⟩
    · rename_i c₀ hi
      obtain ⟨j, hj⟩ := List.getElem?_of_mem hc
      by_cases hij : i = j
      · subst hij
        obtain rfl := Option.some.inj (hi.symm.trans hj)
        obtain ⟨hlt, -⟩ := List.getElem?_eq_some_iff.mp hi
        refine ⟨_, List.mem_iff_getElem.mpr ⟨i, by simpa using hlt, List.getElem_set_self _⟩,
          topic, key, ?_⟩
        simp [Call.after, hphase]
      · refine ⟨c, List.mem_of_getElem? (i := j) ?_, topic, key, hphase⟩
        rwa [List.getElem?_set_ne hij]

theorem invariant_run {steps : List Step}
    (h : Justified (fun before st => Clear (run .empty before) st) steps) :
    (run .empty steps).Invariant :=
  h.invariant (fun _ _ hs hc => hs.step hc) .empty

/-- **A skip is final** in every run whose steps are clear. -/
theorem skip_final (steps : List Step)
    (h : Justified (fun before st => Clear (run .empty before) st) steps) : SkipFinal steps := by
  refine ⟨?_, ?_⟩
  · rintro before after id rfl hskipped
    let Skip (s : System) := s.Invariant ∧ s.Skipped id ∧ s.sends id = (run .empty before).sends id
    have hstep : ∀ s st, Skip s → Clear s st → Skip (step s st) := by
      rintro s st ⟨hs, hskip, hsends⟩ hc
      refine ⟨hs.step hc, skipped_persists hskip, ?_⟩
      rcases sends_step with heq | hsend
      · exact heq.trans hsends
      · exact absurd hsend (not_sends_of_unheld (hs.released id (.inl hskip)).2)
    have hfinal := h.rest.invariant hstep ⟨invariant_run h.left, hskipped, rfl⟩
    rw [run, List.foldl_append]
    exact hfinal.2.2
  · rintro before after id rfl hprocessed hlabelled
    let Mark (s : System) := s.Invariant ∧ Processed s.rows id ∧
      (s.sends id = (run .empty before).sends id ∨ s.Free id)
    have hstep : ∀ s st, Mark s → Clear s st → Mark (step s st) := by
      rintro s st ⟨hs, hp, hsends⟩ hc
      refine ⟨hs.step hc, grows_step.processed id hp, ?_⟩
      rcases hsends with hsends | hfree
      · rcases sends_step with heq | hsend
        · exact .inl (heq.trans hsends)
        · exact .inr (free_of_sends hs hc hp hsend)
      · exact .inr (hfree.step hc)
    have hfinal := h.rest.invariant hstep ⟨invariant_run h.left, hprocessed, .inl rfl⟩
    rw [run, List.foldl_append] at hlabelled ⊢
    rcases hfinal.2.2 with hsends | hfree
    · exact hsends
    · exact absurd hlabelled hfree.unlabelled

end Steps

/-! ## Two runs -/

namespace OutboxSample

open OutboxRelay.RelaySample (cancel)

/-- The broker takes the first row and refuses the second one, which is retried in vain and then
skipped between two passes. -/
def skipped : List Step :=
  [.commit (cancel 1 7) none, .commit (cancel 2 8) none, .start, .relay 0 200 10 .ok,
    .relay 0 200 11 .ok, .relay 0 200 12 .ok, .relay 0 200 13 (.threw "timeout" false),
    .relay 0 200 14 .ok, .call .retry 2, .resume 0 15 .ok, .resume 0 16 .ok, .call .skip 2,
    .resume 1 17 .ok, .resume 1 18 .ok, .relay 0 200 19 .ok]

/-- A row is skipped when a relay has it in its batch. -/
def overtaken : List Step :=
  [.commit (cancel 1 7) none, .start, .relay 0 200 10 .ok, .call .skip 1, .resume 0 11 .ok,
    .resume 0 12 .ok, .relay 0 200 13 .ok]

end OutboxSample

theorem skip_final_between : Justified (fun before st => Clear (run .empty before) st)
    OutboxSample.skipped ∧
    SkipFinal OutboxSample.skipped ∧ (run .empty OutboxSample.skipped).published.map (·.id) = [1] ∧
    Labelled (run .empty OutboxSample.skipped).rows 2 := by
  have h : Justified (fun before st => Clear (run .empty before) st) OutboxSample.skipped := by
    decide +kernel
  exact ⟨h, skip_final OutboxSample.skipped h, by decide +kernel, _, rfl, rfl⟩

/-- **A row that was skipped is sent.** -/
theorem skip_overtaken : ¬SkipFinal OutboxSample.overtaken ∧
    (run .empty (OutboxSample.overtaken.take 6)).Skipped 1 ∧
    (run .empty (OutboxSample.overtaken.take 6)).sends 1 = 0 ∧
      (run .empty OutboxSample.overtaken).sends 1 = 1 := by
  have hskipped : (run .empty (OutboxSample.overtaken.take 6)).Skipped 1 :=
    ⟨_, List.mem_singleton_self _, .ORDER_COMMANDS, "BTC-USDT", rfl⟩
  have hbefore : (run .empty (OutboxSample.overtaken.take 6)).sends 1 = 0 := by decide +kernel
  have hafter : (run .empty OutboxSample.overtaken).sends 1 = 1 := by decide +kernel
  refine ⟨fun h => ?_, hskipped, hbefore, hafter⟩
  have := h.skipped (OutboxSample.overtaken.take 6) (OutboxSample.overtaken.drop 6) 1
    (List.take_append_drop 6 _).symm
    hskipped
  omega

end Orbit.OutboxRelay.Admin
