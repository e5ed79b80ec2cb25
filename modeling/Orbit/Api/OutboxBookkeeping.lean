import Orbit.Api.AdminOutbox

/-!
# The bookkeeping of the outbox

What `processedAt` says of a row, in every run of relays and of calls of an administrator
(`Orbit.Api.AdminOutbox`). A relay marks a row when its `producer.send` has returned, and a row
keeps what it was committed with, so that the message which was acknowledged is the row's own.

* `bookkeeping_sound`: a row that is processed was acknowledged or `skip` was called on it, it stays
  processed, and a row that was committed is pending until then.
-/

namespace Orbit.OutboxRelay.Admin

open Table

/-- The broker acknowledged the message: a `producer.send` of it returned. -/
def Acknowledged (steps : List Step) (p : Publication) : Prop :=
  ∃ before i batchSize now after ev rest, steps = before ++ .relay i batchSize now .ok :: after ∧
    (run .empty before).relays[i]? = some (.send ev rest) ∧ ev.publication = p

def SkipCalled (steps : List Step) (id : ℕ) : Prop := .call .skip id ∈ steps

/-- **The bookkeeping is sound** in a run. -/
structure Sound (steps : List Step) : Prop where
  processed : ∀ r ∈ (run .empty steps).rows, r.processedAt ≠ none →
    Acknowledged steps r.publication ∨ SkipCalled steps r.id
  stays : ∀ before after id, steps = before ++ after → Processed (run .empty before).rows id →
    Processed (run .empty steps).rows id
  committed : ∀ before event headers after, steps = before ++ .commit event headers :: after →
    find? event.id (run .empty before).rows = none →
    ∃ r, find? event.id (run .empty steps).rows = some r ∧ r.event = event ∧ r.headers = headers ∧
      (r.processedAt = none ∧
          (∃ batchSize, r ∈ OutboxRelay.findMany batchSize (run .empty steps).rows) ∨
        r.processedAt ≠ none ∧ (Acknowledged steps r.publication ∨ SkipCalled steps event.id))

/-! ## What a row keeps -/

section Rows

variable {rows rows' rows'' : List Row} {id k : ℕ} {f : Row → Row} {r : Row}

/-- Every row is still there, with what it was committed with. -/
def Carries (rows rows' : List Row) : Prop :=
  ∀ id r, find? id rows = some r →
    ∃ r', find? id rows' = some r' ∧ r'.event = r.event ∧ r'.headers = r.headers

theorem Carries.refl (rows : List Row) : Carries rows rows := fun _ r h => ⟨r, h, rfl, rfl⟩

theorem Carries.trans (h : Carries rows rows') (h' : Carries rows' rows'') :
    Carries rows rows'' := by
  intro id r hr
  obtain ⟨r', hr', hevent, hheaders⟩ := h id r hr
  obtain ⟨r'', hr'', hevent', hheaders'⟩ := h' id r' hr'
  exact ⟨r'', hr'', hevent'.trans hevent, hheaders'.trans hheaders⟩

theorem Carries.modify (he : ∀ r, (f r).event = r.event) (hh : ∀ r, (f r).headers = r.headers) :
    Carries rows (modify k f rows) := by
  have hkey : ∀ r, key (f r) = key r := fun r => congrArg OutboxEvent.id (he r)
  intro id r hr
  rw [find?_modify hkey, hr]
  split
  · exact ⟨f r, rfl, he r, hh r⟩
  · exact ⟨r, rfl, rfl, rfl⟩

theorem Carries.append (rows : List Row) (r : Row) : Carries rows (rows ++ [r]) :=
  fun _ x hx => ⟨x, find?_append_of_some _ hx, rfl, rfl⟩

theorem publication_congr {r r' : Row} (he : r'.event = r.event) (hh : r'.headers = r.headers) :
    r'.publication = r.publication := by
  simp only [Row.publication, he, hh]

/-- A pass that reads enough rows reads every pending one. -/
theorem mem_findMany (hr : r ∈ rows) (hat : r.processedAt = none) :
    r ∈ OutboxRelay.findMany rows.length rows := by
  unfold OutboxRelay.findMany
  rw [List.take_of_length_le, (List.perm_insertionSort _ _).mem_iff, List.mem_filter]
  · exact ⟨hr, by simp [hat]⟩
  · rw [List.length_insertionSort]
    exact List.length_filter_le _ _

variable {now : ℕ} {answer : Answer} {a : Await} {c : Call}

theorem carries_noteError (msg : String) (noted : Bool) :
    Carries rows (noteError id msg noted rows) := by
  unfold noteError
  split
  · exact .modify (fun _ => rfl) fun _ => rfl
  · exact .refl rows

theorem Await.carries_writes : Carries rows (a.writes now answer rows) := by
  cases a with
  | findMany | send ev rest => exact .refl rows
  | mark ev rest =>
    simp only [Await.writes]
    split
    · exact .modify (fun _ => rfl) fun _ => rfl
    · exact .refl rows
  | note ev msg rest => exact carries_noteError msg answer.done

theorem Call.carries_writes : Carries rows (c.writes now answer rows) := by
  unfold Call.writes
  split
  · split
    · cases c.action <;> exact .modify (fun _ => rfl) fun _ => rfl
    · exact .refl rows
  · exact .refl rows

/-- A row that an update of other columns leaves processed was processed. -/
theorem processed_modify (hf : ∀ r, (f r).id = r.id) (hp : ∀ r, (f r).processedAt = r.processedAt)
    (h : Processed (modify k f rows) id) : Processed rows id := by
  obtain ⟨r, hr, hat⟩ := h
  rw [find?_modify hf] at hr
  split at hr
  · obtain ⟨x, hx, rfl⟩ := Option.map_eq_some_iff.mp hr
    exact ⟨x, hx, hp x ▸ hat⟩
  · exact ⟨r, hr, hat⟩

/-- A row that the update of another one leaves processed was processed. -/
theorem processed_modify_ne (hne : id ≠ k) (hf : ∀ r, (f r).id = r.id)
    (h : Processed (modify k f rows) id) : Processed rows id := by
  obtain ⟨r, hr, hat⟩ := h
  have hkey : ∀ r, key (f r) = key r := hf
  rw [find?_modify_ne hne hkey] at hr
  exact ⟨r, hr, hat⟩

theorem processed_append (hat : r.processedAt = none) (h : Processed (rows ++ [r]) id) :
    Processed rows id := by
  obtain ⟨x, hx, hne⟩ := h
  rw [find?_append, find?_cons] at hx
  cases hold : find? id rows with
  | some y =>
    rw [hold, Option.some_or, Option.some.injEq] at hx
    exact ⟨y, hold, hx ▸ hne⟩
  | none =>
    rw [hold, Option.none_or] at hx
    split at hx
    · exact absurd (Option.some.inj hx ▸ hat) hne
    · cases hx

/-- Of the updates of a relay, one marks a row. -/
theorem Await.processed_writes (h : Processed (a.writes now answer rows) id) :
    Processed rows id ∨ ∃ ev rest, a = .mark ev rest ∧ ev.id = id := by
  cases a with
  | findMany | send ev rest => exact .inl h
  | mark ev rest =>
    simp only [Await.writes] at h
    split at h
    · by_cases hid : id = ev.id
      · exact .inr ⟨ev, rest, rfl, hid.symm⟩
      · refine .inl (processed_modify_ne hid ?_ h)
        exact fun _ => rfl
    · exact .inl h
  | note ev msg rest =>
    simp only [Await.writes, noteError] at h
    split at h
    · refine .inl (processed_modify ?_ ?_ h)
      · exact fun _ => rfl
      · exact fun _ => rfl
    · exact .inl h

/-- Of the updates of a call, the one of a skip does. -/
theorem Call.processed_writes (h : Processed (c.writes now answer rows) id) :
    Processed rows id ∨ c.skipping = some id := by
  unfold Call.writes at h
  split at h
  · rename_i row hphase
    split at h
    · cases haction : c.action with
      | retry =>
        rw [haction] at h
        refine .inl (processed_modify ?_ ?_ h)
        · exact fun _ => rfl
        · exact fun _ => rfl
      | skip =>
        rw [haction] at h
        by_cases hid : id = row.id
        · exact .inr (by simp [Call.skipping, haction, hphase, hid])
        · refine .inl (processed_modify_ne hid ?_ h)
          exact fun _ => rfl
    · exact .inl h
  · exact .inl h

end Rows

/-! ## One step -/

section Steps

variable {s : System} {st : Step} {steps : List Step} {id : ℕ}

theorem carries_step : Carries s.rows (step s st).rows := by
  cases st with
  | commit event headers =>
    simp only [step]
    split
    · exact .refl s.rows
    · exact .append s.rows _
  | start | call action id => exact .refl s.rows
  | relay i batchSize now answer =>
    simp only [step]
    split
    · exact .refl s.rows
    · exact Await.carries_writes
  | resume i now answer =>
    simp only [step]
    split
    · exact .refl s.rows
    · exact Call.carries_writes

/-- A row comes to be processed by a relay that marks it, or by a skip. -/
theorem processed_step (h : Processed (step s st).rows id) :
    Processed s.rows id ∨ (∃ ev rest, .mark ev rest ∈ s.relays ∧ ev.id = id) ∨
      ∃ c ∈ s.calls, c.skipping = some id := by
  cases st with
  | commit event headers =>
    simp only [step] at h
    split at h
    · exact .inl h
    · exact .inl (processed_append rfl h)
  | start | call action id => exact .inl h
  | relay i batchSize now answer =>
    simp only [step] at h
    split at h
    · exact .inl h
    · rename_i a hi
      rcases Await.processed_writes h with hold | ⟨ev, rest, rfl, hid⟩
      · exact .inl hold
      · exact .inr (.inl ⟨ev, rest, List.mem_of_getElem? hi, hid⟩)
  | resume i now answer =>
    simp only [step] at h
    split at h
    · exact .inl h
    · rename_i c hi
      rcases Call.processed_writes h with hold | hskip
      · exact .inl hold
      · exact .inr (.inr ⟨c, List.mem_of_getElem? hi, hskip⟩)

/-- A relay comes to mark a row when its message is acknowledged. -/
theorem marking_step {ev : Row} {rest : List Row} (h : .mark ev rest ∈ (step s st).relays) :
    .mark ev rest ∈ s.relays ∨
      ∃ i batchSize now, st = .relay i batchSize now .ok ∧ s.relays[i]? = some (.send ev rest) := by
  cases st with
  | commit event headers =>
    simp only [step] at h
    split at h <;> exact .inl h
  | start =>
    rcases List.mem_append.mp h with h | h
    · exact .inl h
    · cases List.mem_singleton.mp h
  | call action id => exact .inl h
  | relay i batchSize now answer =>
    simp only [step] at h
    split at h
    · exact .inl h
    · rename_i a hi
      have hnext : ∀ rows, Await.next rows ≠ .mark ev rest := fun rows e => by
        cases rows <;> cases e
      rcases List.mem_or_eq_of_mem_set h with h | h
      · exact .inl h
      · cases a with
        | send ev' rest' =>
          cases answer with
          | ok =>
            obtain ⟨rfl, rfl⟩ := Await.mark.inj h
            exact .inr ⟨i, batchSize, now, rfl, hi⟩
          | threw | crashed => cases h
        | findMany | mark | note =>
          cases answer with
          | ok => exact absurd h.symm (hnext _)
          | threw => first | exact absurd h.symm (hnext _) | cases h
          | crashed => cases h
  | resume i now answer =>
    simp only [step] at h
    split at h <;> exact .inl h

/-! ## Runs -/

theorem run_concat : run s (steps ++ [st]) = step (run s steps) st := by
  rw [run, List.foldl_append]
  rfl

theorem Acknowledged.concat {p : Publication} (h : Acknowledged steps p) (st : Step) :
    Acknowledged (steps ++ [st]) p := by
  obtain ⟨before, i, batchSize, now, after, ev, rest, rfl, hi, hp⟩ := h
  exact ⟨before, i, batchSize, now, after ++ [st], ev, rest, by simp, hi, hp⟩

theorem acknowledged_concat {i batchSize now : ℕ} {ev : Row} {rest : List Row}
    (hi : (run .empty steps).relays[i]? = some (.send ev rest)) :
    Acknowledged (steps ++ [.relay i batchSize now .ok]) ev.publication :=
  ⟨steps, i, batchSize, now, [], ev, rest, rfl, hi, rfl⟩

theorem SkipCalled.concat (h : SkipCalled steps id) (st : Step) : SkipCalled (steps ++ [st]) id :=
  List.mem_append_left [st] h

/-- What a run leaves behind: a relay holds rows of the table, it marks one whose message was
acknowledged, and a call with the name of `skip` was made. -/
structure Books (steps : List Step) (s : System) : Prop where
  nodup : (s.rows.map Row.id).Nodup
  processed : ∀ id r, find? id s.rows = some r → r.processedAt ≠ none →
    Acknowledged steps r.publication ∨ SkipCalled steps id
  unsent : ∀ a ∈ s.relays, ∀ ev ∈ a.unsent,
    ∃ r, find? ev.id s.rows = some r ∧ r.publication = ev.publication
  marking : ∀ ev rest, .mark ev rest ∈ s.relays → Acknowledged steps ev.publication ∧
    ∃ r, find? ev.id s.rows = some r ∧ r.publication = ev.publication
  called : ∀ c ∈ s.calls, c.action = .skip → SkipCalled steps c.id
  updating : ∀ c ∈ s.calls, ∀ row, c.phase = .update row → row.id = c.id

theorem Books.empty : Books [] .empty := by
  refine ⟨List.nodup_nil, fun id r hr => ?_, fun a ha => ?_, fun ev rest ha => ?_, fun c hc => ?_,
    fun c hc => ?_⟩
  · cases hr
  · exact absurd ha List.not_mem_nil
  · exact absurd ha List.not_mem_nil
  · exact absurd hc List.not_mem_nil
  · exact absurd hc List.not_mem_nil

/-- The row that a relay holds is still the one it read. -/
theorem Carries.publication {rows rows' : List Row} (h : Carries rows rows')
    {id : ℕ} {p : Publication}
    (hr : ∃ r, find? id rows = some r ∧ r.publication = p) :
    ∃ r, find? id rows' = some r ∧ r.publication = p := by
  obtain ⟨r, hr, rfl⟩ := hr
  obtain ⟨r', hr', hevent, hheaders⟩ := h id r hr
  exact ⟨r', hr', publication_congr hevent hheaders⟩

/-- **One step** keeps the books. -/
theorem Books.step (h : Books steps (run .empty steps)) :
    Books (steps ++ [st]) (step (run .empty steps) st) := by
  have hcarries : Carries (run .empty steps).rows (Admin.step (run .empty steps) st).rows :=
    carries_step
  refine ⟨grows_step.nodup h.nodup, fun id r hr hat => ?_, fun a ha ev hev => ?_,
    fun ev rest hmark => ?_, fun c hc haction => ?_, fun c hc row hphase => ?_⟩
  · rcases processed_step ⟨r, hr, hat⟩ with ⟨r₀, hr₀, hat₀⟩
      | ⟨ev, rest, hmark, rfl⟩ | ⟨c, hc, hskip⟩
    · obtain ⟨r', hr', hevent, hheaders⟩ := hcarries id r₀ hr₀
      rw [hr, Option.some.injEq] at hr'
      subst hr'
      rw [publication_congr hevent hheaders]
      exact (h.processed id r₀ hr₀ hat₀).imp (·.concat st) (·.concat st)
    · obtain ⟨hack, hheld⟩ := h.marking ev rest hmark
      obtain ⟨r', hr', hpub⟩ := hcarries.publication hheld
      rw [hr, Option.some.injEq] at hr'
      subst hr'
      rw [hpub]
      exact .inl (hack.concat st)
    · obtain ⟨haction, row, hphase, rfl⟩ := Call.skipping_eq_some hskip
      rw [h.updating c hc row hphase]
      exact .inr ((h.called c hc haction).concat st)
  · rcases mem_unsent_step ha hev with ⟨a₀, ha₀, hev₀⟩ | ⟨hmem, -⟩
    · exact hcarries.publication (h.unsent a₀ ha₀ ev hev₀)
    · exact hcarries.publication ⟨ev, find?_of_mem h.nodup hmem, rfl⟩
  · rcases marking_step hmark with hold | ⟨i, batchSize, now, rfl, hi⟩
    · obtain ⟨hack, hheld⟩ := h.marking ev rest hold
      exact ⟨hack.concat st, hcarries.publication hheld⟩
    · have hheld := h.unsent _ (List.mem_of_getElem? hi) ev (List.mem_cons_self ..)
      exact ⟨acknowledged_concat hi, hcarries.publication hheld⟩
  · rcases mem_calls_step hc with hold | ⟨-, rfl⟩ | ⟨i, now, answer, c₀, rfl, hi, rfl⟩
    · exact (h.called c hold haction).concat st
    · rw [haction]
      exact List.mem_append_right steps (List.mem_singleton_self _)
    · exact (h.called c₀ (List.mem_of_getElem? hi) haction).concat _
  · rcases mem_calls_step hc with hold | ⟨hnew, -⟩ | ⟨i, now, answer, c₀, rfl, hi, rfl⟩
    · exact h.updating c hold row hphase
    · rw [hnew] at hphase
      cases hphase
    · exact (Call.after_eq_update hphase).2.2

theorem books_run (steps : List Step) : Books steps (run .empty steps) := by
  induction steps using List.reverseRecOn with
  | nil => exact .empty
  | append_singleton steps st ih =>
    rw [run_concat]
    exact ih.step

variable (steps) in
theorem carries_run : Carries s.rows (run s steps).rows := by
  induction steps generalizing s with
  | nil => exact .refl s.rows
  | cons st steps ih => exact carries_step.trans ih

theorem processed_run (h : Processed s.rows id) : Processed (run s steps).rows id := by
  induction steps generalizing s with
  | nil => exact h
  | cons st steps ih => exact ih (grows_step.processed id h)

/-- **The bookkeeping is sound** in every run. -/
theorem bookkeeping_sound (steps : List Step) : Sound steps := by
  have hbooks := books_run steps
  refine ⟨fun r hr hat => ?_, ?_, ?_⟩
  · exact hbooks.processed r.id r (find?_of_mem hbooks.nodup hr) hat
  · rintro before after id rfl hprocessed
    rw [run, List.foldl_append]
    exact processed_run hprocessed
  · intro before event headers after hsteps hnew
    have hrun : run .empty steps = run (step (run .empty before)
        (.commit event headers)) after := by
      rw [hsteps, run, List.foldl_append]
      rfl
    have hrow : find? event.id (step (run .empty before) (.commit event headers)).rows =
        some ⟨event, headers, none, 0, none⟩ := by
      simp only [step, hnew, Option.isSome_none, Bool.false_eq_true, if_false]
      rw [find?_append, hnew, Option.none_or]
      simp [find?_cons, key]
    obtain ⟨r, hr, hevent, hheaders⟩ := carries_run after event.id _ hrow
    rw [← hrun] at hr
    refine ⟨r, hr, hevent, hheaders, ?_⟩
    by_cases hat : r.processedAt = none
    · exact .inl ⟨hat, _, mem_findMany (mem_of_find? hr) hat⟩
    · exact .inr ⟨hat, hbooks.processed event.id r hr hat⟩

end Steps

end Orbit.OutboxRelay.Admin
