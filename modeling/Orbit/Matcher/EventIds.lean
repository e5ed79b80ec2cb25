import Orbit.Foundations.Texts
import Orbit.Matcher.MatchIds
import Orbit.Matcher.OrdersTopic
import Orbit.Workers.Dedupe

/-!
# Event ids

Every event in the outbox has an id by which the workers dedupe it. Most are minted at random;
those of a trade and of its two notifications are derived from the match id of the trade, so that
settling the same command again would give them again. They share one namespace in Redis, in
which an id is a string.

* `eventIdText_injective`: two event ids with the same text are equal, for random
  ids of the usual form.
* `step_minted`: the random ids that a step publishes are new.
* `run_derivedIds`: the derived ids in the outbox are those of the trades in the table.
* `ids_unique`: match ids count up without gaps and do not collide, all events have different ids,
  and a hit of `withDedupe` is on the very same event.
-/

namespace Orbit

open Settler Consumer Tx Texts

/-! ## The ids of events -/

/-- The `eventId` field of a payload. A command has none. -/
def Payload.eventId? : Payload → Option EventId
  | .command _ => none
  | .order evt => some evt.eventId
  | .trade evt => some evt.eventId
  | .user evt => some evt.eventId
  | .orderbook evt => some evt.eventId

/-- The id of the event that a row holds, if it is one. -/
def eventIdOf : Topic × String × Payload → Option EventId
  | (.ORDER_COMMANDS, _, _) => none
  | (_, _, payload) => payload.eventId?

/-- The event ids in the outbox, in the order of its rows. -/
def Db.eventIds (db : Db) : List EventId := (db.outbox.map (·.content)).filterMap eventIdOf

/-- The random id, if the event id is one. -/
def EventId.random? : EventId → Option Uuid
  | .random u => some u
  | _ => none

/-- The event id, if it is not a random one. -/
def EventId.derived? (i : EventId) : Option EventId := if i.random?.isSome then none else some i

/-- Ids are distinct when the random ones are and the derived ones are. -/
theorem nodup_eventIds {l : List EventId} (hr : (l.filterMap EventId.random?).Nodup)
    (hd : (l.filterMap EventId.derived?).Nodup) : l.Nodup := by
  induction l with
  | nil => exact List.nodup_nil
  | cons i l ih =>
    cases hi : i.random? with
    | none =>
      have hi' : i.derived? = some i := by simp [EventId.derived?, hi]
      rw [List.filterMap_cons_none hi] at hr
      rw [List.filterMap_cons_some hi', List.nodup_cons] at hd
      refine List.nodup_cons.mpr ⟨fun hmem => hd.1 ?_, ih hr hd.2⟩
      exact List.mem_filterMap.mpr ⟨i, hmem, hi'⟩
    | some u =>
      have hi' : i.derived? = none := by simp [EventId.derived?, hi]
      rw [List.filterMap_cons_none hi'] at hd
      rw [List.filterMap_cons_some hi, List.nodup_cons] at hr
      refine List.nodup_cons.mpr ⟨fun hmem => hr.1 ?_, ih hr.2 hd⟩
      exact List.mem_filterMap.mpr ⟨i, hmem, hi⟩

/-- The random event id of a row. -/
def randomIdOf (c : Topic × String × Payload) : Option Uuid := (eventIdOf c).bind EventId.random?

/-- The derived event id of a row. -/
def derivedIdOf (c : Topic × String × Payload) : Option EventId :=
    (eventIdOf c).bind EventId.derived?

theorem filterMap_eventIds {β : Type} (db : Db) (f : EventId → Option β) :
    db.eventIds.filterMap f = db.read 0 fun c => (eventIdOf c).bind f :=
  List.filterMap_filterMap

/-! ## Random ids -/

/-- Rows were added to the outbox whose random ids are distinct and new. -/
structure Store.Minted (s s' : Store) : Prop where
  uuids : s.uuids ≤ s'.uuids
  rows : ∃ rows, s'.db.outbox = s.db.outbox ++ rows ∧
    ((rows.map (·.content)).filterMap randomIdOf).Nodup ∧
    ∀ u ∈ (rows.map (·.content)).filterMap randomIdOf, s.uuids ≤ u.n ∧ u.n < s'.uuids

namespace Store.Minted

variable {s s' s₁ s₂ s₃ : Store}

/-- Rows without random ids. -/
theorem of_appended (h : Store.Appended (fun e => randomIdOf e.content = none) s s') :
    Minted s s' := by
  obtain ⟨rows, e, hnone, -⟩ := h.rows
  have hnil : (rows.map (·.content)).filterMap randomIdOf = [] := by
    rw [List.filterMap_eq_nil_iff]
    intro c hc
    obtain ⟨x, hx, rfl⟩ := List.mem_map.mp hc
    exact hnone x hx
  refine ⟨h.uuids, rows, e, ?_, ?_⟩
  · rw [hnil]
    exact List.nodup_nil
  · rw [hnil]
    intro u hu
    cases hu

theorem trans (h₁ : Minted s₁ s₂) (h₂ : Minted s₂ s₃) : Minted s₁ s₃ := by
  obtain ⟨rows₁, e₁, hn₁, hlt₁⟩ := h₁.rows
  obtain ⟨rows₂, e₂, hn₂, hlt₂⟩ := h₂.rows
  refine ⟨h₁.uuids.trans h₂.uuids, rows₁ ++ rows₂, by rw [e₂, e₁, List.append_assoc], ?_, ?_⟩
  · rw [List.map_append, List.filterMap_append, List.nodup_append]
    refine ⟨hn₁, hn₂, ?_⟩
    rintro u hu v hv rfl
    have := (hlt₁ u hu).2
    have := (hlt₂ u hv).1
    omega
  · intro u hu
    rw [List.map_append, List.filterMap_append, List.mem_append] at hu
    rcases hu with hu | hu
    · exact ⟨(hlt₁ u hu).1, (hlt₁ u hu).2.trans_le h₂.uuids⟩
    · exact ⟨h₁.uuids.trans (hlt₂ u hu).1, (hlt₂ u hu).2⟩

theorem rollback (h : Minted s s') : Minted s (Stm.rollback s s') :=
  ⟨h.uuids, [], by simp [Stm.rollback], List.nodup_nil, by simp⟩

end Store.Minted

theorem outboxRelation_minted : OutboxRelation Store.Minted :=
  ⟨fun h => .of_appended (h.imp fun _ => False.elim), .trans, .rollback⟩

namespace Stm

/-- Publishing the id that was just drawn. -/
theorem minted_publish {topic : Topic} {key : String} {payload : Payload} (s : Store)
    (hp : randomIdOf (topic, key, payload) = some ⟨s.uuids⟩) :
    s.Minted (publish topic key payload { s with uuids := s.uuids + 1 }).2 := by
  by_cases hf : s.faults = some 0
  · have hstmt : stmt { s with uuids := s.uuids + 1 } =
        (.error .fault, { s with uuids := s.uuids + 1 }) :=
      stmt_apply_error hf
    rw [publish, Tx.bind_apply_error hstmt]
    exact .of_appended (.of_eq (Nat.le_succ _) rfl rfl)
  · have hstmt : stmt { s with uuids := s.uuids + 1 } =
        (.ok (), { s with uuids := s.uuids + 1, faults := s.faults.map Nat.pred }) :=
        stmt_apply_ok hf
    rw [publish, Tx.bind_apply_ok hstmt]
    refine ⟨Nat.le_succ _, [⟨s.seqs.outbox + 1, topic, key, payload⟩], rfl, ?_, ?_⟩
    · simp [OutboxEvent.content, hp]
    · simp [OutboxEvent.content, hp]

/-- Drawing an id, and going on from there. -/
theorem minted_randomUUID {α : Type} {f : Uuid → Stm α}
    (hf : ∀ s : Store, s.Minted (f ⟨s.uuids⟩ { s with uuids := s.uuids + 1 }).2) :
    Keeps Store.Minted (randomUUID >>= f) := hf

/-- An event with an id drawn for it, and what comes after. -/
theorem minted_event {topic : Topic} {key : String} {payload : Uuid → ℕ → Payload} {rest : Stm Unit}
    (hp : ∀ u ts, randomIdOf (topic, key, payload u ts) = some u)
    (hrest : Keeps Store.Minted rest) :
    Keeps Store.Minted (randomUUID >>= fun u => dateNow >>= fun ts =>
      publish topic key (payload u ts) >>= fun _ => rest) :=
  minted_randomUUID fun s => by
    have hran := Keeps.bind_from (R := Store.Minted) Store.Minted.trans
      (minted_publish s (hp ⟨s.uuids⟩ s.now)) fun _ => hrest
    exact hran

theorem minted_appends {α : Type} {x : Stm α}
    (hx : Appends (fun e => randomIdOf e.content = none) x) :
    Keeps Store.Minted x := fun s => .of_appended (hx s)

end Stm

namespace Settler

open Stm

variable {E : Engine}

/-- The notifications of a trade have derived ids. -/
theorem notificationIds_random? (t : Trade) :
    (notificationIds t).1.random? = none ∧ (notificationIds t).2.random? = none := by
  unfold notificationIds
  split <;> exact ⟨rfl, rfl⟩

theorem minted_publishTrade (symbol : String) (t : Trade) :
    Keeps Store.Minted (publishTrade symbol t) := by
  obtain ⟨htaker, hmaker⟩ := notificationIds_random? t
  have hnotify : ∀ _ : Unit, Keeps Store.Minted (dateNow >>= fun ts =>
      publish .USER_EVENTS t.takerUserId (.user
        { eventId := (notificationIds t).1, userId := t.takerUserId, type := .ORDER_FILLED
          orderId := t.takerOrderId, market := symbol, price := some t.price
          quantity := some t.quantity, ts }) >>= fun _ =>
      publish .USER_EVENTS t.makerUserId (.user
        { eventId := (notificationIds t).2, userId := t.makerUserId, type := .ORDER_FILLED
          orderId := t.makerOrderId, market := symbol, price := some t.price
          quantity := some t.quantity, ts }) : Stm Unit) := fun _ =>
    minted_appends <| appends_dateNow.bind fun _ => (appends_publish fun _ => htaker).bind fun _ =>
      appends_publish fun _ => hmaker
  unfold publishTrade tradeEventId
  cases hm : t.matchId with
  | some matchId =>
    simp only [pure_bind]
    exact Keeps.bind (R := Store.Minted) Store.Minted.trans
      (minted_appends (appends_publish fun _ => rfl)) hnotify
  | none =>
    simp only [bind_assoc, pure_bind]
    exact minted_randomUUID fun s =>
      Keeps.bind_from (R := Store.Minted) Store.Minted.trans (minted_publish s rfl) hnotify

theorem minted_publishTrades (symbol : String) (ts : List Trade) :
    Keeps Store.Minted (publishTrades symbol ts) := by
  induction ts with
  | nil => exact minted_appends (.pure _)
  | cons t ts ih =>
    exact Keeps.bind (R := Store.Minted) Store.Minted.trans
      (minted_publishTrade symbol t) fun _ => ih

theorem relates_publishSnapshot (symbol : String) :
    Relates Store.Minted (publishSnapshot symbol : Act E Unit) :=
  fun m => minted_publish m.store rfl

theorem relates_publishSubmitEvents (order : Order) (trades : List Trade) (symbol : String) :
    Relates Store.Minted (publishSubmitEvents order trades symbol : Act E Unit) := by
  refine .bind outboxRelation_minted (fun m => ?_) fun _ => relates_publishSnapshot symbol
  exact minted_event (fun _ _ => rfl) (minted_publishTrades symbol trades) m.store

theorem relates_publishCancelEvents (order : Order) :
    Relates Store.Minted (publishCancelEvents order : Act E Unit) := by
  refine .bind outboxRelation_minted (fun m => ?_) fun _ => relates_publishSnapshot order.market
  exact minted_event (fun _ _ => rfl) (minted_randomUUID fun s => minted_publish s rfl) m.store

/-- What a command publishes has new random ids. -/
theorem relates_dispatch_minted (cmd : OrderCommand) :
    Relates Store.Minted (dispatch cmd : Act E Result) :=
  relates_dispatch outboxRelation_minted cmd relates_publishSubmitEvents relates_publishCancelEvents

end Settler

section Runs

variable {E : Engine} {m m' : Matcher E}

/-- **The random ids that a step publishes are new.** -/
theorem step_minted (m : Matcher E) (l : Step) : Store.Minted m.store (m.step l).store := by
  have hcommand : ∀ e : OutboxEvent, e.IsCommand → randomIdOf e.content = none := by
    intro e he
    have htopic : e.topic = .ORDER_COMMANDS := he.1
    simp [randomIdOf, OutboxEvent.content, htopic, eventIdOf]
  by_cases hd : ∃ cmd faults, l = .deliver cmd faults
  · obtain ⟨cmd, faults, rfl⟩ := hd
    change Store.Minted m.store (m.deliver cmd faults).store
    rcases deliver_eq m cmd faults with ⟨-, h⟩ | ⟨-, r, m₁, hd, h⟩
    · rw [h]
      exact .of_appended (.refl _)
    · rw [h]
      have hran : Store.Minted (m.withFaults faults).store m₁.store :=
        (relates_dispatch_minted cmd).of_eq hd
      have hbegin : Store.Minted m.store (m.withFaults faults).store :=
        .of_appended (.of_eq le_rfl rfl rfl)
      exact hbegin.trans (hran.trans (.of_appended (.of_eq le_rfl rfl rfl)))
  · exact .of_appended ((step_appends m fun cmd faults e => hd ⟨cmd, faults, e⟩).imp hcommand)

/-- The random ids in the outbox are distinct, and were drawn. -/
structure Store.RandomIds (s : Store) : Prop where
  nodup : (s.db.read 0 randomIdOf).Nodup
  lt : ∀ u ∈ s.db.read 0 randomIdOf, u.n < s.uuids

theorem Store.Minted.randomIds {s s' : Store} (h : s.Minted s')
    (hs : s.RandomIds) : s'.RandomIds := by
  obtain ⟨rows, e, hnodup, hlt⟩ := h.rows
  have hread : s'.db.read 0 randomIdOf =
      s.db.read 0 randomIdOf ++ (rows.map (·.content)).filterMap randomIdOf :=
    Adds.read ⟨rows, e, rfl⟩ (Nat.zero_le _)
  refine ⟨?_, fun u hu => ?_⟩
  · rw [hread, List.nodup_append]
    refine ⟨hs.nodup, hnodup, ?_⟩
    rintro u hu v hv rfl
    have := hs.lt u hu
    have := (hlt u hv).1
    omega
  · rw [hread, List.mem_append] at hu
    rcases hu with hu | hu
    · exact (hs.lt u hu).trans_le h.uuids
    · exact (hlt u hu).2

theorem run_randomIds (h : m.Initial) (steps : List Step) : (m.run steps).store.RandomIds := by
  refine Matcher.run_invariant (I := fun m => m.store.RandomIds)
    (fun m l hm => (step_minted m l).randomIds hm) ?_ steps
  have hnil : m.store.db.read 0 randomIdOf = [] := by
    rw [Db.read, show m.store.db.outbox = [] from h.outbox]
    rfl
  exact ⟨hnil ▸ List.nodup_nil, fun u hu => by rw [hnil] at hu; cases hu⟩

/-! ## Derived ids -/

/-- The ids of the events that report a trade. -/
def MatchId.eventIds (mid : MatchId) : List EventId := [.trade mid, .taker mid, .maker mid]

/-- The derived ids in the outbox are those of the trades in the table, in order. -/
def Db.Derives (db : Db) : Prop :=
  db.read 0 derivedIdOf = (db.trades.filterMap (·.matchId)).flatMap MatchId.eventIds

theorem filterMap_submitContents_derived (o : Order) (rows : List Trade) (symbol : String)
    (q : Queues) (v w : Uuid) (seq ts : ℕ) :
    (submitContents o rows symbol q v w seq ts).filterMap derivedIdOf =
      (rows.filterMap (·.matchId)).flatMap MatchId.eventIds := by
  have horder : derivedIdOf (orderContent .ORDER_ADDED o symbol v ts) = none := rfl
  have hsnapshot : [snapshotContent symbol (snapshotOf q) w seq ts].filterMap derivedIdOf = [] :=
    rfl
  rw [submitContents, List.filterMap_cons_none horder, List.filterMap_append,
    hsnapshot, List.append_nil,
    filterMap_tradesContents]
  induction rows with
  | nil => rfl
  | cons t rows ih =>
    rw [List.flatMap_cons, ih]
    cases hm : t.matchId with
    | none => rw [List.filterMap_cons_none hm]; rfl
    | some mid => rw [List.filterMap_cons_some hm, List.flatMap_cons]; rfl

/-- The derived ids after a command, from those before. -/
theorem deliver_derives (cmd : OrderCommand) (faults : Option ℕ) (h : m.db.Derives) :
    (m.deliver cmd faults).db.Derives := by
  rcases deliver_eq m cmd faults with ⟨-, e⟩ | ⟨hcmd, r, m₁, hd, e⟩
  · rwa [e]
  rw [e]
  change m₁.db.Derives
  cases cmd with
  | SUBMIT sub =>
    rcases dispatch_submit_published hd with ⟨-, hdb⟩
      | ⟨-, order, persisted, rows, -, -, htraded, v, w, ts, hadds⟩
    · rw [hdb]
      exact h
    · unfold Db.Derives
      rw [hadds.read (Nat.zero_le _), filterMap_submitContents_derived,
        htraded.1, List.filterMap_append,
        List.flatMap_append]
      exact congrArg (· ++ _) h
  | CANCEL sub =>
    have htrades := (dispatch_cancel hd).trades
    rcases dispatch_cancel_published hd with hdb | ⟨-, order, persisted, -, -, v, v', w, ts, hadds⟩
    · rw [hdb]
      exact h
    · unfold Db.Derives
      rw [hadds.read (Nat.zero_le _), htrades]
      exact (List.append_nil _).trans h

theorem step_derives (l : Step) (h : m.db.Derives) : (m.step l).db.Derives := by
  by_cases hd : ∃ cmd faults, l = .deliver cmd faults
  · obtain ⟨cmd, faults, rfl⟩ := hd
    exact deliver_derives cmd faults h
  have hno : ∀ cmd faults, l ≠ .deliver cmd faults := fun cmd faults e => hd ⟨cmd, faults, e⟩
  have hread : (m.step l).db.read 0 derivedIdOf = m.db.read 0 derivedIdOf :=
    read_of_commands (step_appends m hno) (Nat.zero_le _) fun _ _ => rfl
  have htrades : (m.step l).db.trades = m.db.trades := by
    by_cases hr : l = .restart
    · subst hr
      rfl
    · exact (step_effect m l.adjusts_any hno hr).1.trades
  unfold Db.Derives
  rw [hread, htrades]
  exact h

/-- **In every reachable state the derived ids are those of the trades.** -/
theorem run_derivedIds (h : m.Initial) (steps : List Step) : (m.run steps).db.Derives := by
  refine Matcher.run_invariant (I := fun m => m.db.Derives)
    (fun _ l hm => step_derives l hm) ?_ steps
  rw [Db.Derives, Db.read, h.outbox, h.trades]
  rfl

/-- Numbered match ids are distinct. -/
theorem nodup_matchIds {l : List MatchId}
    (h : ∀ c, (l.filterMap fun mid =>
      if mid.commandId = c then some mid.matchIdx else none).Nodup) :
    l.Nodup := by
  induction l with
  | nil => exact List.nodup_nil
  | cons mid l ih =>
    refine List.nodup_cons.mpr ⟨fun hmem => ?_, ih fun c => ?_⟩
    · have hc := h mid.commandId
      simp only [List.filterMap_cons, if_true, List.nodup_cons] at hc
      exact hc.1 (List.mem_filterMap.mpr ⟨mid, hmem, if_pos rfl⟩)
    · exact (h c).sublist ((List.sublist_cons_self mid l).filterMap _)

theorem Db.Numbered.nodup {db : Db} (h : db.Numbered) :
    (db.trades.filterMap (·.matchId)).Nodup := by
  refine nodup_matchIds fun c => ?_
  obtain ⟨n, hn⟩ := h.range c
  rw [List.filterMap_filterMap]
  exact (hn.symm ▸ List.nodup_range : (db.trades.filterMap (matchIdxOf c)).Nodup)

theorem nodup_eventIds_matchIds {l : List MatchId} (h : l.Nodup) :
    (l.flatMap MatchId.eventIds).Nodup := by
  rw [List.nodup_flatMap]
  refine ⟨fun mid _ => by simp [MatchId.eventIds], h.imp fun {mid mid'} hne i hi hi' => ?_⟩
  simp only [MatchId.eventIds, List.mem_cons, List.not_mem_nil, or_false] at hi hi'
  rcases hi with rfl | rfl | rfl <;> simp_all

/-- **All event ids in the outbox are distinct.** -/
theorem run_nodup_eventIds (h : m.Initial) (steps : List Step) :
    (m.run steps).db.eventIds.Nodup := by
  refine nodup_eventIds ?_ ?_
  · rw [filterMap_eventIds]
    exact (run_randomIds h steps).nodup
  · rw [filterMap_eventIds]
    have hderives : (m.run steps).db.read 0 derivedIdOf = _ := run_derivedIds h steps
    exact hderives ▸ nodup_eventIds_matchIds (run_numbered h steps).nodup

end Runs

/-! ## Ids as texts -/

/-- How `randomUUID` writes what it mints: in hexadecimal digits and hyphens, and
never the same twice. -/
structure UuidText (uuid : Uuid → String) : Prop where
  injective : Function.Injective uuid
  chars : ∀ u, ∀ c ∈ (uuid u).toList, c = '-' ∨ c.isDigit = true ∨ ('a' ≤ c ∧ c ≤ 'f')

/-- `${matchCtx.commandId}#${matchCtx.matchIdx++}`. -/
def MatchId.text (uuid : Uuid → String) (mid : MatchId) : String :=
  uuid mid.commandId ++ "#" ++ Nat.repr mid.matchIdx

/-- The `eventId` of an event: that of a random one as it is, that of a trade its match id, and
those of its notifications with the role behind it. -/
def EventId.text (uuid : Uuid → String) : EventId → String
  | .random u => uuid u
  | .trade mid => mid.text uuid
  | .taker mid => mid.text uuid ++ ":taker"
  | .maker mid => mid.text uuid ++ ":maker"
  | .takerOfTrade id => Nat.repr id ++ ":taker"
  | .makerOfTrade id => Nat.repr id ++ ":maker"

section Text

variable {uuid : Uuid → String}

/-- Neither separator is in a random id. -/
theorem UuidText.notMem (h : UuidText uuid) {c : Char} (hc : c = '#' ∨ c = ':') (u : Uuid) :
    c ∉ (uuid u).toList := by
  intro hmem
  have hchars := h.chars u c hmem
  rcases hc with rfl | rfl <;> revert hchars <;> decide

theorem MatchId.toList_text (mid : MatchId) :
    (mid.text uuid).toList = (uuid mid.commandId).toList ++
    '#' :: (Nat.repr mid.matchIdx).toList := by
  simp [MatchId.text, String.toList_append]

/-- A match id can be read off its text. -/
theorem MatchId.text_injective (h : UuidText uuid) : Function.Injective (MatchId.text uuid) := by
  rintro ⟨c, k⟩ ⟨c', k'⟩ heq
  have hlist := congrArg String.toList heq
  rw [MatchId.toList_text, MatchId.toList_text] at hlist
  obtain ⟨hc, hk⟩ := append_separator_inj (h.notMem (.inl rfl) _) (h.notMem (.inl rfl) _) hlist
  obtain rfl := h.injective (String.toList_injective hc)
  obtain rfl := repr_injective (String.toList_injective hk)
  rfl

/-- The part of an event id before the role, and the role. -/
def EventId.parts (uuid : Uuid → String) : EventId → String × Option String
  | .random u => (uuid u, none)
  | .trade mid => (mid.text uuid, none)
  | .taker mid => (mid.text uuid, some "taker")
  | .maker mid => (mid.text uuid, some "maker")
  | .takerOfTrade id => (Nat.repr id, some "taker")
  | .makerOfTrade id => (Nat.repr id, some "maker")

theorem EventId.toList_text (i : EventId) : (i.text uuid).toList = (i.parts uuid).1.toList ++
    (((i.parts uuid).2.map String.toList).map (':' :: ·)).getD [] := by
  cases i <;> simp [EventId.text, EventId.parts, String.toList_append]

theorem EventId.notMem_parts (h : UuidText uuid) (i : EventId) : ':' ∉ (i.parts uuid).1.toList := by
  have hmid : ∀ mid : MatchId, ':' ∉ (mid.text uuid).toList := by
    intro mid hmem
    rw [MatchId.toList_text, List.mem_append, List.mem_cons] at hmem
    rcases hmem with hmem | hmem | hmem
    · exact h.notMem (.inr rfl) _ hmem
    · exact absurd hmem (by decide)
    · exact notMem_repr (by decide) _ hmem
  cases i with
  | random u => exact h.notMem (.inr rfl) u
  | trade mid => exact hmid mid
  | taker mid => exact hmid mid
  | maker mid => exact hmid mid
  | takerOfTrade id => exact notMem_repr (by decide) id
  | makerOfTrade id => exact notMem_repr (by decide) id

theorem EventId.parts_injective (h : UuidText uuid) : Function.Injective (EventId.parts uuid) := by
  -- a match id has the separator of its index, a random id and the id of a trade do not
  have hmid : ∀ mid : MatchId, '#' ∈ (mid.text uuid).toList := by
    intro mid
    rw [MatchId.toList_text]
    simp
  have hrandom : ∀ u (mid : MatchId), uuid u ≠ mid.text uuid := fun u mid e =>
    h.notMem (.inl rfl) u (e ▸ hmid mid)
  have hnumber : ∀ n (mid : MatchId), Nat.repr n ≠ mid.text uuid := fun n mid e =>
    notMem_repr (c := '#') (by decide) n (e ▸ hmid mid)
  intro i i' heq
  cases i <;> cases i' <;>
    simp_all [EventId.parts, h.injective.eq_iff,
    (MatchId.text_injective h).eq_iff, repr_injective.eq_iff,
      fun u mid => (hrandom u mid).symm, fun n mid => (hnumber n mid).symm]

/-- **An event id can be read off its text.** -/
theorem EventId.text_injective (h : UuidText uuid) : Function.Injective (EventId.text uuid) := by
  intro i i' heq
  have hlist := congrArg String.toList heq
  rw [EventId.toList_text, EventId.toList_text] at hlist
  obtain ⟨hbase, hrole⟩ := append_optional_inj (EventId.notMem_parts h i)
    (EventId.notMem_parts h i') hlist
  refine EventId.parts_injective h (Prod.ext (String.toList_injective hbase) ?_)
  exact Option.map_injective (fun _ _ e => String.toList_injective e) hrole

end Text

/-! ## Runs -/

section Unique

variable {E : Engine} {m : Matcher E} {uuid : Uuid → String}

/-- The match ids of the trades that satisfy `p`, when these are the trades of one command. -/
theorem map_matchId_filter {c : Uuid} {p : Trade → Bool} {l : List Trade}
    (hp : ∀ t ∈ l, p t = true ↔ ∃ k, t.matchId = some ⟨c, k⟩) :
    (l.filter p).map (·.matchId) = (l.filterMap (matchIdxOf c)).map fun k => some ⟨c, k⟩ := by
  induction l with
  | nil => rfl
  | cons t l ih =>
    have ih := ih fun x hx => hp x (List.mem_cons_of_mem _ hx)
    by_cases ht : p t = true
    · obtain ⟨k, hk⟩ := (hp t List.mem_cons_self).mp ht
      have hidx : matchIdxOf c t = some k := by simp [matchIdxOf, hk]
      rw [List.filter_cons_of_pos ht, List.filterMap_cons_some hidx,
        List.map_cons, List.map_cons, ih, hk]
    · have hidx : matchIdxOf c t = none := by
        rw [matchIdxOf, Option.bind_eq_none_iff]
        rintro ⟨c', k⟩ hk
        refine if_neg fun hc => ht ((hp t List.mem_cons_self).mpr ⟨k, ?_⟩)
        obtain rfl : c' = c := hc
        exact hk
      rw [List.filter_cons_of_neg ht, List.filterMap_cons_none hidx, ih]

/-- **The trades of one `SUBMIT`**, in every reachable state. -/
theorem run_matchIds (h : m.Initial) (steps : List Step) {sub : OrderSubmitCommand}
    (hcmd : OrderCommand.SUBMIT sub ∈ (m.run steps).db.commands) :
    ∃ n, ((m.run steps).db.trades.filter (·.takerOrderId = sub.orderId)).map (·.matchId) =
      (List.range n).map fun k => some ⟨sub.commandId, k⟩ := by
  have hn := run_numbered h steps
  have hst := run_stamped h steps
  obtain ⟨o, ho, -, hc⟩ := (run_safe h steps).sound.commands _ hcmd
  obtain ⟨n, hrange⟩ := hn.range sub.commandId
  refine ⟨n, hrange ▸ map_matchId_filter fun t ht => ?_⟩
  obtain ⟨⟨c, k⟩, hmid⟩ := Option.isSome_iff_exists.mp (hn.isSome t ht)
  obtain ⟨taker, htaker, hct⟩ := hst.trades t ht c k hmid
  rw [decide_eq_true_iff]
  constructor
  · intro hid
    rw [hid] at htaker
    obtain rfl : taker = o := Option.some.inj (htaker.symm.trans ho)
    obtain rfl : c = sub.commandId := Option.some.inj (hct.symm.trans hc)
    exact ⟨k, hmid⟩
  · rintro ⟨k', hk'⟩
    obtain ⟨rfl, -⟩ := MatchId.mk.inj (Option.some.inj (hmid.symm.trans hk'))
    exact hst.orders htaker ho hct hc

/-- Rows with the same event id are the same row. -/
theorem eq_of_eventId {l : List OutboxEvent} (h : ((l.map (·.content)).filterMap eventIdOf).Nodup)
    {e e' : OutboxEvent} (he : e ∈ l) (he' : e' ∈ l) {i : EventId}
    (hi : eventIdOf e.content = some i)
    (hi' : eventIdOf e'.content = some i) : e = e' := by
  by_contra hne
  rw [List.filterMap_map, List.Nodup, List.pairwise_filterMap] at h
  have hsymm : Std.Symm fun x y : OutboxEvent => ∀ b, (eventIdOf ∘ (·.content)) x = some b →
      ∀ b', (eventIdOf ∘ (·.content)) y = some b' → b ≠ b' :=
    ⟨fun x y hxy b hb b' hb' heq => hxy b' hb' b hb heq.symm⟩
  exact h.forall he he' hne i hi i hi' rfl

/-- **Match ids and event ids.** In every reachable state the trades of one `SUBMIT` have the match
ids `commandId#0`, `commandId#1` and so on, in the order in which they were made, and all events in
the outbox have different ids, as texts. In a run without restarts in which no settlement aborts
for another reason, no trade insert violates the unique index on the match ids. So when
`withDedupe` suppresses an event, in whatever run of a worker, the worker was handed that same
event by another delivery. -/
theorem ids_unique (h : m.Initial) (steps : List Step) (hu : UuidText uuid) :
    (∀ sub, OrderCommand.SUBMIT sub ∈ (m.run steps).db.commands → ∃ n,
      ((m.run steps).db.trades.filter (·.takerOrderId = sub.orderId)).map
          (fun t => t.matchId.map (MatchId.text uuid)) =
        (List.range n).map fun k => some (uuid sub.commandId ++ "#" ++ Nat.repr k)) ∧
    (Justified (Undisturbed m) steps → Justified (fun before l => ¬Collides m before l) steps) ∧
    ((m.run steps).db.eventIds.map (EventId.text uuid)).Nodup ∧
    ∀ (worker : Dedupe.Worker) (calls : List Dedupe.Step) (i : ℕ) (inv : Dedupe.Invocation),
      (Dedupe.run .empty calls).invocations[i]? = some inv → inv.phase = .hit →
      ∀ e ∈ (m.run steps).db.outbox, ∀ eventId, eventIdOf e.content = some eventId →
        inv.target = ⟨worker, some (eventId.text uuid)⟩ →
        ∃ (j : ℕ) (inv' : Dedupe.Invocation), j ≠ i ∧
          (Dedupe.run .empty calls).invocations[j]? = some inv' ∧
          inv'.target = inv.target ∧ inv'.Ran ∧
          ∀ e' ∈ (m.run steps).db.outbox, ∀ eventId', eventIdOf e'.content = some eventId' →
            inv'.target.eventId = some (eventId'.text uuid) → e' = e := by
  have hnodup := run_nodup_eventIds h steps
  refine ⟨fun sub hcmd => ?_, run_no_collision h, hnodup.map (EventId.text_injective hu),
    fun worker calls i inv hi hhit e he eventId hid htarget => ?_⟩
  · obtain ⟨n, hn⟩ := run_matchIds h steps hcmd
    refine ⟨n, ?_⟩
    have htext := congrArg (List.map (Option.map (MatchId.text uuid))) hn
    rw [List.map_map, List.map_map] at htext
    exact htext
  · obtain ⟨j, inv', hne, hj, htarget', hran⟩ := Dedupe.hit_copied calls hi hhit
    refine ⟨j, inv', hne, hj, htarget', hran, fun e' he' eventId' hid' htext => ?_⟩
    -- the two rows have ids with the same text
    rw [htarget', htarget] at htext
    obtain rfl := EventId.text_injective hu (Option.some.inj htext)
    exact eq_of_eventId hnodup he' he hid' hid

end Unique

namespace Sample

/-- Random ids with a counter in their last part. -/
def counted (u : Uuid) : String := "00000000-0000-4000-8000-" ++ Nat.repr (100000000000 + u.n)

theorem counted_injective : Function.Injective counted := by
  intro u u' h
  have hlist := congrArg String.toList h
  unfold counted at hlist
  rw [String.toList_append, String.toList_append] at hlist
  have hn := repr_injective (String.toList_injective (List.append_cancel_left hlist))
  have huu : u.n = u'.n := by omega
  cases u
  cases u'
  exact congrArg Uuid.mk huu

theorem counted_chars (u : Uuid) :
    ∀ c ∈ (counted u).toList, c = '-' ∨ c.isDigit = true ∨ ('a' ≤ c ∧ c ≤ 'f') := by
  intro c hc
  unfold counted at hc
  rw [String.toList_append, List.mem_append] at hc
  rcases hc with hc | hc
  · have hfixed : ("00000000-0000-4000-8000-".toList.all fun c => c = '-' ∨ c.isDigit) = true := by
      decide +kernel
    have hchar : c = '-' ∨ c.isDigit = true := of_decide_eq_true (List.all_eq_true.mp hfixed c hc)
    exact hchar.imp_right .inl
  · refine .inr (.inl ?_)
    by_contra hno
    exact notMem_repr (by simpa using hno) _ hc

theorem counted_uuidText : UuidText counted := ⟨counted_injective, counted_chars⟩

end Sample

/-- The two orders of the sample settle without a collision, and publish seven events. -/
theorem ids_unique_trading : Sample.exchange.Initial ∧ UuidText Sample.counted ∧
    Justified (Undisturbed Sample.exchange) Sample.trading ∧
    Justified (fun before l => ¬Collides Sample.exchange before l) Sample.trading ∧
    ((Sample.exchange.run Sample.trading).db.eventIds.map (EventId.text Sample.counted)).Nodup ∧
    (Sample.exchange.run Sample.trading).db.eventIds.length = 7 := by
  have hu : Justified (Undisturbed Sample.exchange) Sample.trading := by
    simp only [Sample.trading, justified_cons, justified_nil, and_true]
    have hok : ∀ {x : Except Failure Result}, x = .ok .ok → ∀ e, x = .error e →
        e = .uniqueViolation := by
      rintro x rfl e he
      cases he
    exact ⟨trivial, fun _ => .inr (.inr (hok (by decide +kernel))), trivial,
      fun _ => .inr (.inr (hok (by decide +kernel)))⟩
  obtain ⟨-, hno, hnodup, -⟩ := ids_unique Sample.exchange_initial
    Sample.trading Sample.counted_uuidText
  exact ⟨Sample.exchange_initial, Sample.counted_uuidText, hu, hno hu, hnodup, by decide +kernel⟩

end Orbit
