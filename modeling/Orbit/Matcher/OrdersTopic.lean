import Mathlib.Data.List.Induction
import Orbit.Matcher.Delivery
import Orbit.Matcher.Published

/-!
# The topic of the orders

A committed `SUBMIT` or `CANCEL` publishes one event of the order it is about, with the row as it
ends. The rows of the makers that a `SUBMIT` trades with are written without an event, so the topic
says of an order what its row does only until another order trades with it.

* `Db.orderEvents` are the events of an order, `OrderEvent.Projects` says that
  one agrees with the row.
* `step_topic`: a step commits a command of the order and publishes its row, or it fills the order
  as a maker and publishes nothing of it, or it leaves both the row and the events alone.
* `orders_topic_iff`: once its `SUBMIT` was settled, the last event of an order agrees with its row
  exactly when no committed `SUBMIT` has filled it as a maker since its own last
  command that committed.
* `maker_not_projected`: a run in which it does not.
-/

namespace Orbit

open PriceTime Settler Consumer

/-! ## The events of an order -/

/-- The event that a row of the topic holds, if it is of the order `id`. -/
def orderEventOf (id : ℕ) : Topic × String × Payload → Option OrderEvent
  | (.ORDERS, _, .order evt) => if evt.orderId = id then some evt else none
  | _ => none

/-- The events of an order in the outbox, in the order of its rows. -/
def Db.orderEvents (db : Db) (id : ℕ) : List OrderEvent :=
  (db.outbox.map (·.content)).filterMap (orderEventOf id)

/-- The event says of the order what its row does. -/
structure OrderEvent.Projects (evt : OrderEvent) (o : Order) : Prop where
  leaveQty : evt.leaveQty = o.leaveQty
  filledQty : evt.filledQty = o.filledQty
  status : evt.status = o.status

theorem orderEvent_projects (type : OrderEventType) (o : Order) (eventId : EventId) (ts : ℕ) :
    (orderEvent type o eventId ts).Projects o :=
  ⟨rfl, rfl, rfl⟩

theorem Settler.Adds.orderEvents {db db' : Db} {ps : List (Topic × String × Payload)}
    (h : Adds db db' ps) (id : ℕ) : db'.orderEvents id = db.orderEvents id ++
    ps.filterMap (orderEventOf id) :=
  h.read (Nat.zero_le _)

/-- A command is no event of an order. -/
theorem orderEvents_of_commands {s s' : Store}
    (h : Store.Appended OutboxEvent.IsCommand s s') (id : ℕ) :
    s'.db.orderEvents id = s.db.orderEvents id :=
  read_of_commands h (Nat.zero_le _) fun _ _ => rfl

theorem orderEventOf_content (id : ℕ) (type : OrderEventType) (o : Order) (k : String) (u : Uuid)
    (ts : ℕ) : orderEventOf id (orderContent type o k u ts) =
      if o.id = id then some (orderEvent type o (.random u) ts) else none := rfl

/-- A `SUBMIT` publishes one event of an order, that of its own. -/
theorem filterMap_submitContents (id : ℕ) (o : Order) (rows : List Trade)
    (symbol : String) (q : Queues)
    (v w : Uuid) (seq ts : ℕ) :
    (submitContents o rows symbol q v w seq ts).filterMap (orderEventOf id) =
      if o.id = id then [orderEvent .ORDER_ADDED o (.random v) ts] else [] := by
  rw [submitContents, List.filterMap_cons, List.filterMap_append,
    filterMap_tradesContents_eq_nil _ _ _ fun _ _ => rfl, orderEventOf_content]
  split <;> simp_all [snapshotContent, orderEventOf]

/-- And so does a `CANCEL`. -/
theorem filterMap_cancelContents (id : ℕ) (o : Order) (q : Queues) (v v' w : Uuid) (seq ts : ℕ) :
    (cancelContents o q v v' w seq ts).filterMap (orderEventOf id) =
      if o.id = id then [orderEvent .ORDER_CANCELLED o (.random v) ts] else [] := by
  rw [cancelContents, List.filterMap_cons, orderEventOf_content]
  split <;> simp_all [snapshotContent, cancelledContent, orderEventOf]

/-! ## The steps -/

variable {E : Engine} {m m' : Matcher E}

/-- The delivery of `cmd` finds its order live, and commits. -/
structure Matcher.Commits (m : Matcher E) (cmd : OrderCommand) (faults : Option ℕ) : Prop where
  mem : cmd ∈ m.db.commands
  live : ∃ o, m.db.order? cmd.orderId = some o ∧ o.terminal = false
  ok : (dispatch cmd (m.withFaults faults)).1 = .ok .ok

/-- The step commits a command of the order `id`. -/
def Matcher.CommitsOwn (m : Matcher E) (id : ℕ) (l : Step) : Prop :=
  ∃ cmd faults, l = .deliver cmd faults ∧ cmd.orderId = id ∧ m.Commits cmd faults

/-- The step commits the `SUBMIT` of an order that trades with the order `id`, which rests. -/
def Matcher.FillsMaker (m : Matcher E) (id : ℕ) (l : Step) : Prop :=
  ∃ cmd faults order, l = .deliver (.SUBMIT cmd) faults ∧ m.Commits (.SUBMIT cmd) faults ∧
    m.db.order? cmd.orderId = some order ∧ id ∈ (submitFills m cmd.symbol order).map (·.id)

/-- **What a step does to the row and the events of an order.** -/
inductive TopicStep (m : Matcher E) (id : ℕ) (l : Step) (db' : Db) : Prop
  | reported (h : m.CommitsOwn id l) (hn : ¬m.FillsMaker id l) (o : Order) (evt : OrderEvent)
      (ho : db'.order? id = some o) (hevents : db'.orderEvents id = m.db.orderEvents id ++ [evt])
      (hproj : evt.Projects o)
  | made (h : m.FillsMaker id l) (hn : ¬m.CommitsOwn id l) (o o' : Order)
      (ho : m.db.order? id = some o)
      (ho' : db'.order? id = some o') (hlt : o.filledQty < o'.filledQty)
      (hevents : db'.orderEvents id = m.db.orderEvents id)
  | kept (h : ¬m.FillsMaker id l) (hn : ¬m.CommitsOwn id l)
      (ho : db'.order? id = m.db.order? id ∨ m.db.order? id = none)
      (hevents : db'.orderEvents id = m.db.orderEvents id)

variable (m) in
theorem not_commits_of_not_deliver (id : ℕ) {l : Step} (h : ∀ cmd faults, l ≠ .deliver cmd faults) :
    ¬m.CommitsOwn id l ∧ ¬m.FillsMaker id l :=
  ⟨fun ⟨cmd, faults, e, _⟩ => h cmd faults e, fun ⟨cmd, faults, _, e, _⟩ =>
    h (.SUBMIT cmd) faults e⟩

/-- Outside the deliveries a step publishes commands only. -/
theorem step_appends (m : Matcher E) {l : Step} (h : ∀ cmd faults, l ≠ .deliver cmd faults) :
    Store.Appended OutboxEvent.IsCommand m.store (m.step l).store := by
  have hcall : ∀ {α : Type} {faults : Option ℕ} {x : Stm α}, Stm.Appends OutboxEvent.IsCommand x →
      Store.Appended OutboxEvent.IsCommand m.store (m.call faults x).store := by
    intro α faults x hx
    have hbegin : Store.Appended OutboxEvent.IsCommand m.store { m.store with faults } :=
      .of_eq le_rfl rfl rfl
    exact hbegin.trans ((hx { m.store with faults }).trans (.of_eq le_rfl rfl rfl))
  cases l with
  | submit userId dto faults => exact hcall (appends_submit userId dto)
  | cancel userId orderId faults => exact hcall (appends_cancel userId orderId)
  | forceCancel orderId faults => exact hcall (appends_forceCancel orderId)
  | deliver cmd faults => exact absurd rfl (h cmd faults)
  | restart => exact .of_eq le_rfl rfl rfl
  | marketUpdate symbol input faults => exact hcall (appends_marketUpdate symbol input)
  | adjust userId asset field delta faults => exact hcall (appends_adjust userId asset field delta)
  | tick now => exact .of_eq le_rfl rfl rfl

/-- A delivery publishes events only. -/
theorem deliver_appends (m : Matcher E) (cmd : OrderCommand) (faults : Option ℕ) :
    Store.Appended OutboxEvent.IsEvent m.store (m.deliver cmd faults).store := by
  rcases deliver_eq m cmd faults with ⟨-, h⟩ | ⟨-, r, m₁, hd, h⟩
  · rw [h]
    exact .refl _
  · rw [h]
    have hran := (appends_dispatch cmd).of_eq hd
    have hbegin : Store.Appended OutboxEvent.IsEvent m.store (m.withFaults faults).store :=
      .of_eq le_rfl rfl rfl
    exact hbegin.trans (Store.Appended.trans hran (.of_eq le_rfl rfl rfl))

/-- No step takes anything out of the outbox. -/
theorem step_appended (m : Matcher E) (l : Step) :
    Store.Appended (fun _ => True) m.store (m.step l).store := by
  by_cases hd : ∃ cmd faults, l = .deliver cmd faults
  · obtain ⟨cmd, faults, rfl⟩ := hd
    exact (deliver_appends m cmd faults).imp fun _ _ => trivial
  · exact (step_appends m fun cmd faults e => hd ⟨cmd, faults, e⟩).imp fun _ _ => trivial

/-- Nor does a run. -/
theorem run_appended (m : Matcher E) (steps : List Step) :
    Store.Appended (fun _ => True) m.store (m.run steps).store := by
  induction steps generalizing m with
  | nil => exact .refl _
  | cons l ls ih => exact (step_appended m l).trans (ih (m.step l))

/-- **The rule for invariants of the outbox**: what handling a command keeps, and every step that
delivers none, holds in every reachable state. -/
theorem run_dispatches {I : Db → Prop} (h : m.Initial) (h0 : I m.db)
    (hsubmit : ∀ {m m' : Matcher E} {cmd r}, Safe m → OrderCommand.SUBMIT cmd ∈ m.db.commands →
      dispatch (.SUBMIT cmd) m = (r, m') → I m.db → I m'.db)
    (hcancel : ∀ {m m' : Matcher E} {cmd r}, Safe m → OrderCommand.CANCEL cmd ∈ m.db.commands →
      dispatch (.CANCEL cmd) m = (r, m') → I m.db → I m'.db)
    (hother : ∀ {m : Matcher E} {l : Step}, Safe m → (∀ cmd faults, l ≠ .deliver cmd faults) →
      I m.db → I (m.step l).db) (steps : List Step) : I (m.run steps).db := by
  have hstep : ∀ (m : Matcher E) (l : Step), Safe m ∧ I m.db →
      Safe (m.step l) ∧ I (m.step l).db := by
    intro m l ⟨hs, hI⟩
    refine ⟨step_safe hs l, ?_⟩
    by_cases hd : ∃ cmd faults, l = .deliver cmd faults
    · obtain ⟨cmd, faults, rfl⟩ := hd
      change I (m.deliver cmd faults).db
      rcases deliver_eq m cmd faults with ⟨-, e⟩ | ⟨hcmd, r, m₁, hd, e⟩
      · rwa [e]
      · rw [e]
        change I m₁.db
        have hs₀ := hs.of_same (m.same_withFaults faults)
        cases cmd with
        | SUBMIT cmd => exact hsubmit (m := m.withFaults faults) hs₀ hcmd hd hI
        | CANCEL cmd => exact hcancel (m := m.withFaults faults) hs₀ hcmd hd hI
    · exact hother hs (fun cmd faults e => hd ⟨cmd, faults, e⟩) hI
  exact (Matcher.run_invariant (I := fun m => Safe m ∧ I m.db) hstep ⟨initial_safe h, h0⟩ steps).2

theorem submit_topic (hs : Safe m) {cmd : OrderSubmitCommand} {faults : Option ℕ}
    (hcmd : OrderCommand.SUBMIT cmd ∈ m.db.commands) {r : Except Failure Result}
    (hd : dispatch (.SUBMIT cmd) (m.withFaults faults) = (r, m')) (id : ℕ) :
    TopicStep m id (.deliver (.SUBMIT cmd) faults) m'.db := by
  have hs₀ := hs.of_same (m.same_withFaults faults)
  rcases dispatch_submit_published hd with ⟨hne, hdb⟩ |
    ⟨rfl, order, persisted, rows, horder, hpersisted, -, v, w, ts, hadds⟩
  · have hno : ¬m.Commits (.SUBMIT cmd) faults := fun hc => hne (by rw [← hc.ok, hd])
    have hdb' : m'.db = m.db := hdb
    refine .kept ?_ ?_ (Or.inl (by rw [hdb'])) (by rw [hdb'])
    · rintro ⟨cmd', faults', order, e, hc, -⟩
      cases e
      exact hno hc
    · rintro ⟨cmd', faults', e, -, hc⟩
      cases e
      exact hno hc
  obtain ⟨market, order', rest, hbegun, hc, hsub⟩ :=
    submit_committed (m := m.withFaults faults) hs₀ hcmd (dispatch_submit_of_sound hs₀.sound hd)
  obtain rfl : order' = order := Option.some.inj (hbegun.horder.symm.trans horder)
  obtain ⟨htaker, hmakers, hothers⟩ := hsub.order? hc
  have hcommits : m.Commits (.SUBMIT cmd) faults :=
    ⟨hcmd, ⟨order', horder, hbegun.live⟩, by rw [hd]⟩
  have hid : order'.id = cmd.orderId := Db.order?_id horder
  have hpid : persisted.id = order'.id := Db.order?_id hpersisted
  have hevents := hadds.orderEvents id
  rw [filterMap_submitContents, hpid] at hevents
  have hmakes : m.FillsMaker id (.deliver (.SUBMIT cmd) faults) ↔
      id ∈ (submitFills (m.withFaults faults) cmd.symbol order').map (·.id) := by
    constructor
    · rintro ⟨cmd', faults', order₁, e, -, ho, hmem⟩
      cases e
      obtain rfl : order₁ = order' := Option.some.inj (ho.symm.trans horder)
      exact hmem
    · exact fun hmem => ⟨cmd, faults, order', rfl, hcommits, horder, hmem⟩
  by_cases h₁ : order'.id = id
  · -- its own
    subst h₁
    rw [if_pos rfl] at hevents
    exact .reported ⟨_, _, rfl, hid.symm, hcommits⟩ (fun h => hc.notMem (hmakes.mp h)) persisted _
      hpersisted hevents (orderEvent_projects _ _ _ _)
  rw [if_neg h₁, List.append_nil] at hevents
  have hown : ¬m.CommitsOwn id (.deliver (.SUBMIT cmd) faults) := by
    rintro ⟨cmd', faults', e, hid', -⟩
    cases e
    exact h₁ (hid.trans hid')
  by_cases h₂ : id ∈ (submitFills (m.withFaults faults) cmd.symbol order').map (·.id)
  · -- a maker
    obtain ⟨f, hf, rfl⟩ := List.mem_map.mp h₂
    obtain ⟨maker, hm, hm'⟩ := hmakers f hf
    obtain ⟨_, hback⟩ := hs₀.backed.makes tracks_le hc.consumed hf
    refine .made (hmakes.mpr h₂) hown maker _ hm hm' ?_ hevents
    exact lt_add_of_pos_right _ hback.pos
  · exact .kept (fun h => h₂ (hmakes.mp h)) hown (Or.inl (hothers id (Ne.symm h₁) h₂)) hevents

theorem cancel_topic (hs : Safe m) {cmd : OrderCancelCommand} {faults : Option ℕ}
    (hcmd : OrderCommand.CANCEL cmd ∈ m.db.commands) {r : Except Failure Result}
    (hd : dispatch (.CANCEL cmd) (m.withFaults faults) = (r, m')) (id : ℕ) :
    TopicStep m id (.deliver (.CANCEL cmd) faults) m'.db := by
  have hmakes : ¬m.FillsMaker id (.deliver (.CANCEL cmd) faults) := by
    rintro ⟨_, _, _, e, -⟩
    cases e
  have hkept : m'.db = m.db → ¬m.Commits (.CANCEL cmd) faults →
      TopicStep m id (.deliver (.CANCEL cmd) faults) m'.db := by
    intro hdb hno
    refine .kept hmakes ?_ (Or.inl (by rw [hdb])) (by rw [hdb])
    rintro ⟨_, _, e, -, hc⟩
    cases e
    exact hno hc
  cases dispatch_cancel hd with
  | unread e n hn hf hsame =>
    refine hkept hsame.db fun hc => ?_
    have hok := hc.ok
    rw [hd] at hok
    cases hok
  | aborted e market order hf ho hm live hdb hbook =>
    refine hkept hdb fun hc => ?_
    have hok := hc.ok
    rw [hd] at hok
    cases hok
  | skipped r hsame why =>
    refine hkept hsame.db fun hc => ?_
    obtain ⟨o, ho, hlive⟩ := hc.live
    rcases why with hnone | ⟨o', ho', hterm | hmarket⟩
    · exact absurd (hnone.symm.trans ho) (by simp)
    · obtain rfl : o' = o := Option.some.inj (ho'.symm.trans ho)
      exact absurd (hterm.symm.trans hlive) (by decide)
    · obtain rfl : o' = o := Option.some.inj (ho'.symm.trans ho)
      have hsome := hs.sound.markets _ _ ho
      rw [show m.store.db.market? o'.market = none from hmarket] at hsome
      cases hsome
  | committed market order ho hm live hc =>
    have hid : order.id = cmd.orderId := Db.order?_id ho
    have hcommits : m.Commits (.CANCEL cmd) faults := ⟨hcmd, ⟨order, ho, live⟩, by rw [hd]⟩
    have hmod := fun id => Db.order?_of_modify hc.orders (fun _ => rfl) id
    rcases dispatch_cancel_published hd with hdb
      | ⟨-, order', persisted, ho', hpersisted, v, v', w, ts,
      hadds⟩
    · -- the row has changed
      have hrow := hmod order.id
      rw [hdb, if_pos rfl, hid, ho, Option.map_some] at hrow
      rw [Option.some.inj hrow] at live
      cases live
    · obtain rfl : order' = order := Option.some.inj (ho'.symm.trans ho)
      have hpid : persisted.id = order'.id := Db.order?_id hpersisted
      have hevents := hadds.orderEvents id
      rw [filterMap_cancelContents, hpid] at hevents
      by_cases h₁ : order'.id = id
      · subst h₁
        rw [if_pos rfl] at hevents
        exact .reported ⟨_, _, rfl, hid.symm, hcommits⟩ hmakes persisted _ hpersisted hevents
          (orderEvent_projects _ _ _ _)
      · rw [if_neg h₁, List.append_nil] at hevents
        refine .kept hmakes ?_ (Or.inl ?_) hevents
        · rintro ⟨_, _, e, hid', -⟩
          cases e
          exact h₁ (hid.trans hid')
        · rw [hmod, if_neg (Ne.symm h₁)]
          rfl

/-- **Every step**, for every order. -/
theorem step_topic (hs : Safe m) (l : Step) (id : ℕ) : TopicStep m id l (m.step l).db := by
  by_cases hd : ∃ cmd faults, l = .deliver cmd faults
  · obtain ⟨cmd, faults, rfl⟩ := hd
    change TopicStep m id _ (m.deliver cmd faults).db
    rcases deliver_eq m cmd faults with ⟨hnot, h⟩ | ⟨hcmd, r, m₁, hd, h⟩
    · rw [h]
      refine .kept ?_ ?_ (Or.inl rfl) rfl
      · rintro ⟨_, _, _, e, hc, -⟩
        cases e
        exact hnot hc.mem
      · rintro ⟨_, _, e, -, hc⟩
        cases e
        exact hnot hc.mem
    · rw [h]
      cases cmd with
      | SUBMIT cmd => exact submit_topic hs hcmd hd id
      | CANCEL cmd => exact cancel_topic hs hcmd hd id
  have hno : ∀ cmd faults, l ≠ .deliver cmd faults := fun cmd faults e => hd ⟨cmd, faults, e⟩
  obtain ⟨hown, hmakes⟩ := not_commits_of_not_deliver m id hno
  have hevents := orderEvents_of_commands (step_appends m hno) id
  refine .kept hmakes hown ?_ hevents
  by_cases hr : l = .restart
  · subst hr
    exact Or.inl rfl
  · have hkeep := ((step_effect m l.adjusts_any hno hr).1.sound hs.sound).2 id
    cases ho : m.db.order? id with
    | none => exact Or.inr rfl
    | some o => exact Or.inl (hkeep o ho)

theorem step_sorted (hs : m.store.OutboxSorted) (l : Step) : (m.step l).store.OutboxSorted :=
  (step_appended m l).sorted hs

/-! ## Runs -/

section Runs

/-- The step, after the steps `before`, commits a command of the order. -/
def OwnCommitted (m : Matcher E) (id : ℕ) (before : List Step) (l : Step) : Prop :=
  (m.run before).CommitsOwn id l

/-- The step, after the steps `before`, commits a `SUBMIT` that fills the order as a maker. -/
def FilledAsMaker (m : Matcher E) (id : ℕ) (before : List Step) (l : Step) : Prop :=
  (m.run before).FillsMaker id l

/-- The `SUBMIT` of the order was settled. -/
def SubmitSettled (m : Matcher E) (steps : List Step) (id : ℕ) : Prop :=
  ∃ before cmd faults after, steps = before ++ .deliver (.SUBMIT cmd) faults :: after ∧
    cmd.orderId = id ∧ (m.run before).Commits (.SUBMIT cmd) faults

/-- The events of an order are only added to. -/
theorem run_orderEvents_prefix (hs : Safe m) (steps : List Step) (id : ℕ) :
    m.db.orderEvents id <+: (m.run steps).db.orderEvents id := by
  induction steps generalizing m with
  | nil => exact List.prefix_rfl
  | cons l ls ih =>
    refine List.IsPrefix.trans ?_ (ih (step_safe hs l))
    cases step_topic hs l id with
    | reported h hn o evt ho hevents hproj =>
      rw [hevents]
      exact List.prefix_append _ _
    | made h hn o o' ho ho' hlt hevents => exact hevents ▸ List.prefix_rfl
    | kept h hn ho hevents => exact hevents ▸ List.prefix_rfl

/-- A settled order has a row, and an event. -/
theorem SubmitSettled.exists_last (h : m.Initial) {steps : List Step} {id : ℕ}
    (hset : SubmitSettled m steps id) :
    ∃ o evt, (m.run steps).db.order? id = some o ∧
      ((m.run steps).db.orderEvents id).getLast? = some evt := by
  obtain ⟨before, cmd, faults, after, rfl, rfl, hc⟩ := hset
  have hs := run_safe h before
  have hs' := step_safe hs (.deliver (.SUBMIT cmd) faults)
  rw [Matcher.run_append, Matcher.run_cons]
  have hown : (m.run before).CommitsOwn cmd.orderId (.deliver (.SUBMIT cmd) faults) :=
    ⟨_, _, rfl, rfl, hc⟩
  cases step_topic hs (.deliver (.SUBMIT cmd) faults) cmd.orderId with
  | reported _ hn o evt ho hevents hproj =>
    obtain ⟨o', ho', -⟩ := run_fixed hs' after ho
    obtain ⟨more, hmore⟩ := run_orderEvents_prefix hs' after cmd.orderId
    refine ⟨o', _, ho', List.getLast?_eq_some_getLast ?_⟩
    rw [← hmore, hevents]
    simp
  | made _ hn => exact absurd hown hn
  | kept _ hn => exact absurd hown hn

/-- **The last event of an order**, in every reachable state: it agrees with the row, or the order
was filled as a maker since, and the row has more filled. -/
theorem run_topic (h : m.Initial) (steps : List Step) (id : ℕ) :
    ((m.run steps).db.order? id = none → (m.run steps).db.orderEvents id = []) ∧
    ∀ o evt, (m.run steps).db.order? id = some o →
      ((m.run steps).db.orderEvents id).getLast? = some evt →
      (¬Since (FilledAsMaker m id) (OwnCommitted m id) steps ∧ evt.Projects o) ∨
      (Since (FilledAsMaker m id) (OwnCommitted m id) steps ∧ evt.filledQty < o.filledQty) := by
  induction steps using List.reverseRecOn with
  | nil =>
    have hempty : m.db.orderEvents id = [] := by rw [Db.orderEvents, h.outbox]; rfl
    refine ⟨fun _ => hempty, fun o evt _ hlast => ?_⟩
    rw [Matcher.run_nil, hempty] at hlast
    cases hlast
  | append_singleton steps l ih =>
    obtain ⟨hnone, hlast⟩ := ih
    have hs := run_safe h steps
    rw [Matcher.run_append, Matcher.run_cons, Matcher.run_nil, since_concat]
    change (_ → _) ∧ ∀ o evt, _ → _ →
      (¬((m.run steps).FillsMaker id l ∨ _ ∧ ¬(m.run steps).CommitsOwn id l) ∧ _) ∨
      (((m.run steps).FillsMaker id l ∨ _ ∧ ¬(m.run steps).CommitsOwn id l) ∧ _)
    cases step_topic hs l id with
    | reported hr hm o evt ho hevents hproj =>
      refine ⟨fun hn => absurd (hn.symm.trans ho) (by simp),
        fun o' evt' ho' hlast' => Or.inl ⟨?_, ?_⟩⟩
      · rintro (hm' | ⟨-, hr'⟩)
        · exact hm hm'
        · exact hr' hr
      · rw [hevents, List.getLast?_concat] at hlast'
        obtain rfl := Option.some.inj hlast'
        obtain rfl : o = o' := Option.some.inj (ho.symm.trans ho')
        exact hproj
    | made hm hr o o' ho ho' hlt hevents =>
      refine ⟨fun hn => absurd (hn.symm.trans ho') (by simp), fun o₁ evt ho₁ hlast' => ?_⟩
      obtain rfl : o' = o₁ := Option.some.inj (ho'.symm.trans ho₁)
      rw [hevents] at hlast'
      refine Or.inr ⟨Or.inl hm, ?_⟩
      rcases hlast o evt ho hlast' with ⟨-, hproj⟩ | ⟨-, hlt'⟩
      · exact hproj.filledQty.trans_lt hlt
      · exact hlt'.trans hlt
    | kept hm hr ho hevents =>
      rw [hevents]
      refine ⟨fun hn => ?_, fun o evt ho' hlast' => ?_⟩
      · rcases ho with ho | ho
        · exact hnone (ho ▸ hn)
        · exact hnone ho
      · rcases ho with ho | ho
        · rw [ho] at ho'
          simpa only [hm, hr, false_or, not_false_eq_true, and_true] using hlast o evt ho' hlast'
        · rw [hnone ho] at hlast'
          cases hlast'

/-- **The topic of the orders.** In every reachable state the rows of the outbox are in the order of
their ids, and the last event of an order whose `SUBMIT` was settled agrees with its row exactly
when no `SUBMIT` that committed has filled the order as a maker since the last command of its
own that committed. -/
theorem orders_topic_iff (h : m.Initial) (steps : List Step) (id : ℕ)
    (hset : SubmitSettled m steps id) :
    ((m.run steps).db.outbox.map (·.id)).Pairwise (· < ·) ∧
    ((∃ o evt, (m.run steps).db.order? id = some o ∧
        ((m.run steps).db.orderEvents id).getLast? = some evt ∧ evt.leaveQty = o.leaveQty ∧
        evt.filledQty = o.filledQty ∧ evt.status = o.status) ↔
      ¬Since (FilledAsMaker m id) (OwnCommitted m id) steps) := by
  have hsorted : (m.run steps).store.OutboxSorted := by
    refine Matcher.run_invariant (I := fun m => m.store.OutboxSorted)
      (fun _ l hs => step_sorted hs l)
      ⟨?_, fun e he => ?_⟩ steps
    · rw [show m.store.db.outbox = [] from h.outbox]
      exact List.Pairwise.nil
    · rw [show m.store.db.outbox = [] from h.outbox] at he
      cases he
  refine ⟨hsorted.increasing, ?_⟩
  obtain ⟨o, evt, ho, hlast⟩ := hset.exists_last h
  have hcases := (run_topic h steps id).2 o evt ho hlast
  constructor
  · rintro ⟨o', evt', ho', hlast', hleave, hfilled, hstatus⟩ hsince
    obtain rfl : o' = o := Option.some.inj (ho'.symm.trans ho)
    obtain rfl : evt' = evt := Option.some.inj (hlast'.symm.trans hlast)
    rcases hcases with ⟨hno, -⟩ | ⟨-, hlt⟩
    · exact hno hsince
    · exact absurd hfilled hlt.ne
  · intro hno
    rcases hcases with ⟨-, hproj⟩ | ⟨hsince, -⟩
    · exact ⟨o, evt, ho, hlast, hproj.leaveQty, hproj.filledQty, hproj.status⟩
    · exact absurd hsince hno

end Runs

/-! ## Runs on the sample exchange -/

section Runs

open Sample

/-- The order of `alice` was no maker, and its event agrees with its row. -/
theorem orders_topic_trading : exchange.Initial ∧ SubmitSettled exchange trading 2 ∧
    ¬Since (FilledAsMaker exchange 2) (OwnCommitted exchange 2) trading := by
  have hset : SubmitSettled exchange trading 2 :=
    ⟨trading.take 3, ⟨⟨3⟩, 2, "alice", "BTC-USDT", .BID, .LIMIT, some 110, 1, 0⟩,
      none, [], rfl, rfl, by decide +kernel,
      ⟨⟨2, "alice", "BTC-USDT", .BID, .LIMIT, some 110, 1, 1, 0, .OPEN, some ⟨3⟩⟩,
        by decide +kernel, rfl⟩, by decide +kernel⟩
  refine ⟨exchange_initial, hset, ((orders_topic_iff exchange_initial trading 2 hset).2.mp ?_)⟩
  exact ⟨⟨2, "alice", "BTC-USDT", .BID, .LIMIT, some 110, 1, 0, 1, .FILLED, some ⟨3⟩⟩,
    ⟨.ORDER_ADDED, .random ⟨4⟩, 2, "alice", "BTC-USDT", .BID, .LIMIT,
    some 110, 1, 0, 1, .FILLED, 0⟩,
    by decide +kernel, by decide +kernel, rfl, rfl, rfl⟩

/-- **An order filled as a maker.** `bob` has sold one of his two, and the last event of his order
still says that it is `OPEN` with both left. -/
theorem maker_not_projected : exchange.Initial ∧ SubmitSettled exchange trading 1 ∧
    ∃ o evt, (exchange.run trading).db.order? 1 = some o ∧
      ((exchange.run trading).db.orderEvents 1).getLast? = some evt ∧
      (evt.leaveQty, evt.filledQty, evt.status) = (2, 0, .OPEN) ∧
      (o.leaveQty, o.filledQty, o.status) = (1, 1, .PARTIAL) :=
  ⟨exchange_initial,
    ⟨trading.take 1, ⟨⟨0⟩, 1, "bob", "BTC-USDT", .ASK, .LIMIT, some 100, 2, 0⟩,
      none, trading.drop 2, rfl, rfl, by decide +kernel,
      ⟨⟨1, "bob", "BTC-USDT", .ASK, .LIMIT, some 100, 2, 2, 0, .OPEN, some ⟨0⟩⟩,
        by decide +kernel, rfl⟩, by decide +kernel⟩,
    ⟨1, "bob", "BTC-USDT", .ASK, .LIMIT, some 100, 2, 1, 1, .PARTIAL, some ⟨0⟩⟩,
    ⟨.ORDER_ADDED, .random ⟨1⟩, 1, "bob", "BTC-USDT", .ASK, .LIMIT, some 100, 2, 2, 0, .OPEN, 0⟩,
    by decide +kernel, by decide +kernel, rfl, rfl⟩

end Runs

end Orbit
