import Mathlib.Data.List.Induction
import Orbit.Matcher.Addressing

/-!
# Nothing happens to an order unasked

Orders come from calls of `OrderService.submit` alone, one row for each call that returned, and the
matcher rewrites nothing of a row but what is filled of it, what is left, and its status. An order
is `CANCELLED` for one of two reasons: its owner or an admin asked for it while it was live, or it
is a `MARKET` order that found nothing to trade with.

* `step_asPlaced`: what a step adds to the orders as they were placed.
* `cancelled_requested`: a `CANCELLED` `LIMIT` order has its `CANCEL` in the outbox.
* `commands_requested`: a `CANCEL` in the outbox has its request in the run.
* `orders_requested`: the two together, and the table as a whole.
-/

namespace Orbit

open PriceTime Settler Consumer

variable {E : Engine} {m m' : Matcher E}

/-! ## Orders as they were placed -/

/-- The row of an order as it was placed. -/
def Order.asPlaced (o : Order) : Order :=
  { o with leaveQty := o.quantity, filledQty := 0, status := .OPEN }

theorem Order.Fixed.asPlaced {o o' : Order} (h : o.Fixed o') : o'.asPlaced = o.asPlaced := by
  simp only [Order.asPlaced, h.id, h.userId, h.market, h.side, h.type, h.price, h.quantity,
    h.commandId]

/-- The order that a step places, as `submit` returns it. -/
def Matcher.places (m : Matcher E) : Step → List Order
  | .submit userId dto faults =>
    match (OrderService.submit userId dto { m.store with faults }).1 with
    | .ok o => [o]
    | .error _ => []
  | _ => []

/-- The orders that a run places. -/
def Matcher.placed (m : Matcher E) : List Step → List Order
  | [] => []
  | l :: ls => m.places l ++ (m.step l).placed ls

theorem Settler.Settles.map_asPlaced {market : Market} {taker : Order} {rates : FeeRates}
    {commandId : Uuid} {idx : ℕ} {db db' : Db} {ts : List EngineTrade} {rows : List Trade}
    (h : Settles market taker rates commandId idx db ts rows db') :
    db'.orders.map Order.asPlaced = db.orders.map Order.asPlaced := by
  induction h with
  | nil => rfl
  | cons maker hf _ ih =>
    rw [ih, hf.orders]
    exact Table.map_modify (fun o => (Order.Fixed.makerAfter maker _ o).asPlaced) _

theorem submit_asPlaced {cmd : OrderSubmitCommand} {r : Except Failure Result} (hs : Safe m)
    (hcmd : OrderCommand.SUBMIT cmd ∈ m.db.commands) (h : SubmitOutcome cmd m r m') :
    m'.db.orders.map Order.asPlaced = m.db.orders.map Order.asPlaced := by
  rcases h.unchanged_or with hdb | rfl
  · rw [hdb]
  obtain ⟨market, order, finish, fs, rest, release, q, -, hc, hsub⟩ :=
    submit_crossing hs.sound hs.backed hcmd h
  obtain ⟨rows, db₁, hset, horders, -, -⟩ := hsub.settled
  rw [horders, Table.map_modify fun o => (hc.fixed o).asPlaced]
  exact hset.map_asPlaced

theorem cancel_asPlaced {cmd : OrderCancelCommand} {r : Except Failure Result}
    (h : CancelOutcome cmd m r m') :
    m'.db.orders.map Order.asPlaced = m.db.orders.map Order.asPlaced := by
  rcases h.unchanged_or with hdb | ⟨market, order, ho, hm, live, hc⟩
  · rw [hdb]
  · rw [hc.orders]
    exact Table.map_modify (g := Order.asPlaced)
      (f := fun o : Order => { o with status := .CANCELLED }) (fun _ => rfl) _

theorem Order.asPlaced_eq {o : Order} (hleave : o.leaveQty = o.quantity)
    (hfilled : o.filledQty = 0) (hstatus : o.status = .OPEN) : o.asPlaced = o := by
  cases o
  simp only at hleave hfilled hstatus
  simp only [Order.asPlaced, hleave, hfilled, hstatus]

/-- An order is returned as it is placed. -/
theorem Placed.asPlaced {s s' : Store} {o : Order} {market : Market} {cmd : OrderSubmitCommand}
    (h : Placed s s' o market cmd) : o.asPlaced = o :=
  Order.asPlaced_eq h.leaveQty h.filledQty h.status

/-- A step that neither submits nor delivers leaves the orders alone. -/
theorem step_orders (m : Matcher E) {l : Step} (hsubmit : ∀ userId dto faults,
    l ≠ .submit userId dto faults) (hno : ∀ cmd faults, l ≠ .deliver cmd faults) :
    (m.step l).db.orders = m.db.orders := by
  cases l with
  | submit userId dto faults => exact absurd rfl (hsubmit userId dto faults)
  | deliver cmd faults => exact absurd rfl (hno cmd faults)
  | cancel userId orderId faults =>
    rcases h : OrderService.cancel userId orderId { m.store with faults } with ⟨r, s'⟩
    rw [Matcher.step, Matcher.call_db h]
    rcases OrderService.cancel_requested h with hdb | ⟨cmd, o, hreq, -⟩
    · rw [hdb]
      rfl
    · obtain ⟨row, -, hdb⟩ := hreq.outbox
      rw [hdb]
      rfl
  | forceCancel orderId faults =>
    rcases h : Admin.forceCancel orderId { m.store with faults } with ⟨r, s'⟩
    rw [Matcher.step, Matcher.call_db h]
    rcases Admin.forceCancel_requested h with hdb | ⟨cmd, o, hreq, -⟩
    · rw [hdb]
      rfl
    · obtain ⟨row, -, hdb⟩ := hreq.outbox
      rw [hdb]
      rfl
  | restart => rfl
  | marketUpdate symbol input faults =>
    rcases h : Admin.marketUpdate symbol input { m.store with faults } with ⟨r, s'⟩
    rw [Matcher.step, Matcher.call_db h]
    rcases Admin.marketUpdate_cases h with hdb | hdb <;> rw [hdb] <;> rfl
  | adjust userId asset field delta faults =>
    rcases h : Admin.adjust userId asset field delta { m.store with faults } with ⟨r, s'⟩
    rw [Matcher.step, Matcher.call_db h]
    rcases Admin.adjust_cases h with hdb | ⟨w, value, -, -, hdb⟩ <;> rw [hdb] <;> rfl
  | tick now => rfl

/-- **What a step adds to the table of orders**: the order that it places, if it places one. -/
theorem step_asPlaced (hs : Safe m) (l : Step) : (m.step l).db.orders.map Order.asPlaced =
    m.db.orders.map Order.asPlaced ++ m.places l := by
  by_cases hd : ∃ cmd faults, l = .deliver cmd faults
  · obtain ⟨cmd, faults, rfl⟩ := hd
    change (m.deliver cmd faults).db.orders.map Order.asPlaced = _ ++ []
    rw [List.append_nil]
    rcases deliver_eq m cmd faults with ⟨-, e⟩ | ⟨hcmd, r, m₁, hd, e⟩
    · rw [e]
    · rw [e]
      have hs₀ := hs.of_same (m.same_withFaults faults)
      cases cmd with
      | SUBMIT cmd =>
        have hplaced := submit_asPlaced hs₀ hcmd (dispatch_submit_of_sound hs₀.sound hd)
        exact hplaced
      | CANCEL cmd =>
        have hplaced := cancel_asPlaced (dispatch_cancel hd)
        exact hplaced
  by_cases hsub : ∃ userId dto faults, l = .submit userId dto faults
  · obtain ⟨userId, dto, faults, rfl⟩ := hsub
    rcases h : OrderService.submit userId dto { m.store with faults } with ⟨r, s'⟩
    rw [Matcher.step, Matcher.call_db h, Matcher.places, h]
    cases r with
    | error e =>
      rw [OrderService.submit_eq_error h]
      exact (List.append_nil _).symm
    | ok o =>
      obtain ⟨market, cmd, hplaced⟩ := OrderService.submit_eq_ok h
      rw [hplaced.orders, List.map_append, List.map_singleton, hplaced.asPlaced]
      rfl
  · have hnot : ∀ userId dto faults, l ≠ .submit userId dto faults := fun userId dto faults e =>
      hsub ⟨userId, dto, faults, e⟩
    have hplaces : m.places l = [] := by
      cases l with
      | submit userId dto faults => exact absurd rfl (hnot userId dto faults)
      | _ => rfl
    rw [step_orders m hnot fun cmd faults e => hd ⟨cmd, faults, e⟩, hplaces, List.append_nil]

theorem run_asPlaced (hs : Safe m) (steps : List Step) :
    (m.run steps).db.orders.map Order.asPlaced =
      m.db.orders.map Order.asPlaced ++ m.placed steps := by
  induction steps generalizing m with
  | nil => exact (List.append_nil _).symm
  | cons l ls ih =>
    rw [Matcher.run_cons, ih (step_safe hs l), step_asPlaced hs l, List.append_assoc]
    rfl

/-! ## Cancellations -/

/-- A `LIMIT` order that is `CANCELLED` has its `CANCEL` in the outbox. -/
def Db.CancelsSent (db : Db) : Prop :=
  ∀ id o, db.order? id = some o → o.type = .LIMIT → o.status = .CANCELLED →
    ∃ cmd, .CANCEL cmd ∈ db.commands ∧ cmd.orderId = id

/-- What a match leaves of a row, maker's or taker's, is no cancelled one. -/
theorem status_orderAfterMatch (leave q : ℚ) (o : Order) :
    (orderAfterMatch leave q o).status ≠ .CANCELLED := by
  unfold orderAfterMatch
  dsimp only
  split
  · decide
  · split <;> decide

theorem status_makerAfter (maker : Order) (q : ℚ) (o : Order) :
    (makerAfter maker q o).status ≠ .CANCELLED := by
  unfold makerAfter
  dsimp only
  split <;> decide

/-- The rows of a committed submit, of which the taker's is not cancelled or of a `MARKET` order. -/
theorem Settler.Submitted.cancelsSent {market : Market} {order : Order} {cmd : OrderSubmitCommand}
    {fs : List (Fill ℕ ℚ ℚ)} {finish : Order → Order} {release : List Posting} {q : Queues}
    {rest : List (Resting ℕ ℚ ℚ)} (h : Submitted market order cmd fs finish release q m m')
    (hc : Crossing m cmd.symbol order finish fs rest)
    (hfinish : (finish order).type = .LIMIT → (finish order).status ≠ .CANCELLED)
    (hsent : m.db.CancelsSent) : m'.db.CancelsSent := by
  obtain ⟨htaker, hmakers, hothers⟩ := h.order? hc
  have hcommands : m'.db.commands = m.db.commands := h.framed.commands
  intro id o ho ht hstatus
  rw [hcommands]
  by_cases h₁ : id = order.id
  · subst h₁
    obtain rfl : finish order = o := Option.some.inj (htaker.symm.trans ho)
    exact absurd hstatus (hfinish ht)
  by_cases h₂ : id ∈ fs.map (·.id)
  · obtain ⟨f, hf, rfl⟩ := List.mem_map.mp h₂
    obtain ⟨maker, -, hm⟩ := hmakers f hf
    obtain rfl : makerAfter maker f.qty maker = o := Option.some.inj (hm.symm.trans ho)
    exact absurd hstatus (status_makerAfter maker _ _)
  · rw [hothers id h₁ h₂] at ho
    exact hsent id o ho ht hstatus

theorem submit_cancelsSent {cmd : OrderSubmitCommand} {r : Except Failure Result} (hs : Safe m)
    (hcmd : OrderCommand.SUBMIT cmd ∈ m.db.commands) (h : SubmitOutcome cmd m r m')
    (hsent : m.db.CancelsSent) : m'.db.CancelsSent := by
  rcases h.unchanged_or with hdb | rfl
  · rwa [hdb]
  cases h with
  | committedLimit market order price hb ht hp hid hsub =>
    exact hsub.cancelsSent (crossing_limit price hs.sound hcmd hb ht hid)
      (fun _ => status_orderAfterMatch _ _ _) hsent
  | committedMarket market order l hb ht hl hsub =>
    have hc := crossing_market hs.sound hs.backed hcmd hb ht hl
    refine hsub.cancelsSent hc (fun hlimit => ?_) hsent
    rw [(hc.fixed order).type, ht] at hlimit
    cases hlimit

theorem cancel_cancelsSent {cmd : OrderCancelCommand} {r : Except Failure Result}
    (hcmd : OrderCommand.CANCEL cmd ∈ m.db.commands) (h : CancelOutcome cmd m r m')
    (hsent : m.db.CancelsSent) : m'.db.CancelsSent := by
  rcases h.unchanged_or with hdb | ⟨market, order, ho, hm, live, hc⟩
  · rwa [hdb]
  have hcommands : m'.db.commands = m.db.commands := hc.framed.commands
  intro id o ho' ht hstatus
  rw [hcommands]
  rw [Db.order?_of_modify hc.orders (fun _ => rfl)] at ho'
  by_cases hid : id = order.id
  · exact ⟨cmd, hcmd, by rw [hid, Db.order?_id ho]⟩
  · rw [if_neg hid] at ho'
    exact hsent id o ho' ht hstatus

/-- Commands are never taken back. -/
theorem commands_subset {P : OutboxEvent → Prop} {s s' : Store} (h : Store.Appended P s s')
    {cmd : OrderCommand} (hcmd : cmd ∈ s.db.commands) : cmd ∈ s'.db.commands := by
  obtain ⟨rows, e, -⟩ := h.rows
  rw [Db.commands, e, List.filterMap_append]
  exact List.mem_append_left _ hcmd

/-- A row that a call of the api makes is `OPEN`. -/
theorem ApiEffect.order?_or {A : WalletField → Prop} {s s' : Store} (h : ApiEffect A s s')
    (hs : s.Sound) {id : ℕ} {o : Order} (ho : s'.db.order? id = some o) :
    s.db.order? id = some o ∨ o.status = .OPEN := by
  cases h with
  | idle hseq hdb => exact .inl (hdb ▸ ho)
  | placed x market cmd h =>
    rw [h.order? hs] at ho
    split at ho
    · obtain rfl := Option.some.inj ho
      exact .inr h.status
    · exact .inl ho
  | requested cmd x hseq h =>
    obtain ⟨row, -, -, hdb⟩ := h.outbox
    rw [hdb] at ho
    exact .inl ho
  | marketChanged symbol input hseq hdb =>
    rw [hdb] at ho
    exact .inl ho
  | adjusted userId asset field w value hfield hseq hw hn hdb =>
    rw [hdb] at ho
    exact .inl ho

theorem run_cancelsSent (h : m.Initial) (steps : List Step) : (m.run steps).db.CancelsSent := by
  refine run_dispatches (I := Db.CancelsSent) h ?_
    (fun hs hcmd hd hI => submit_cancelsSent hs hcmd (dispatch_submit_of_sound hs.sound hd) hI)
    (fun _ hcmd hd hI => cancel_cancelsSent hcmd (dispatch_cancel hd) hI)
    (fun {m l} hs hno hI id o ho ht hstatus => ?_) steps
  · intro id o ho
    have hmem := Db.mem_of_order? ho
    rw [h.orders] at hmem
    cases hmem
  · have hold : m.db.order? id = some o := by
      by_cases hr : l = .restart
      · subst hr
        exact ho
      · rcases (step_effect m l.adjusts_any hno hr).1.order?_or hs.sound ho with hold | hopen
        · exact hold
        · rw [hopen] at hstatus
          cases hstatus
    obtain ⟨cmd, hcmd, hid⟩ := hI id o hold ht hstatus
    exact ⟨cmd, commands_subset (step_appends m hno) hcmd, hid⟩

/-! ## Requests -/

/-- The step is a request to cancel the order: one of its owner, or one of an admin. -/
def Step.CancelsOf (o : Order) : Step → Prop
  | .cancel userId orderId _ => userId = o.userId ∧ orderId = o.id
  | .forceCancel orderId _ => orderId = o.id
  | _ => False

/-- In the run, `o` was asked to be cancelled while it was live. -/
def Asked (m : Matcher E) (steps : List Step) (o : Order) : Prop :=
  ∃ before l after o₀, steps = before ++ l :: after ∧ l.CancelsOf o ∧
    (m.run before).db.order? o.id = some o₀ ∧ o₀.terminal = false

theorem Asked.concat {steps : List Step} {o : Order} (h : Asked m steps o) (l : Step) :
    Asked m (steps ++ [l]) o := by
  obtain ⟨before, x, after, o₀, rfl, hx, ho, hlive⟩ := h
  exact ⟨before, x, after ++ [l], o₀, by simp, hx, ho, hlive⟩

/-- The commands that a step adds to the outbox: the `CANCEL` of an order is one that it asks to
cancel. -/
theorem step_cancel (hs : Safe m) {l : Step} {cmd : OrderCancelCommand}
    (hcmd : .CANCEL cmd ∈ (m.step l).db.commands) : .CANCEL cmd ∈ m.db.commands ∨
      ∃ o, o.id = cmd.orderId ∧ m.db.order? o.id = some o ∧ o.terminal = false ∧ l.CancelsOf o := by
  have hmem : ∀ {s s' : Store} {c : OrderCancelCommand} {o : Order}, CancelRequested s s' c o →
      OrderCommand.CANCEL cmd ∈ s'.db.commands → OrderCommand.CANCEL cmd ∈ s.db.commands ∨
        cmd = c := by
    intro s s' c o hreq hc
    rw [hreq.commands, List.mem_append, List.mem_singleton] at hc
    exact hc.imp_right fun e => OrderCommand.CANCEL.inj e
  cases l with
  | cancel userId orderId faults =>
    rcases h : OrderService.cancel userId orderId { m.store with faults } with ⟨r, s'⟩
    rw [Matcher.step, Matcher.call_db h] at hcmd
    rcases OrderService.cancel_requested h with hdb | ⟨c, o, hreq, hid, huser⟩
    · rw [hdb] at hcmd
      exact .inl hcmd
    · rcases hmem hreq hcmd with hc | rfl
      · exact .inl hc
      · exact .inr ⟨o, hreq.orderId.symm, hreq.order, hreq.live, huser.symm, hid.symm⟩
  | forceCancel orderId faults =>
    rcases h : Admin.forceCancel orderId { m.store with faults } with ⟨r, s'⟩
    rw [Matcher.step, Matcher.call_db h] at hcmd
    rcases Admin.forceCancel_requested h with hdb | ⟨c, o, hreq, hid⟩
    · rw [hdb] at hcmd
      exact .inl hcmd
    · rcases hmem hreq hcmd with hc | rfl
      · exact .inl hc
      · exact .inr ⟨o, hreq.orderId.symm, hreq.order, hreq.live, hid.symm⟩
  | submit userId dto faults =>
    rcases h : OrderService.submit userId dto { m.store with faults } with ⟨r, s'⟩
    rw [Matcher.step, Matcher.call_db h] at hcmd
    rcases OrderService.submit_cases h with hdb | ⟨o, market, c, -, hplaced⟩
    · rw [hdb] at hcmd
      exact .inl hcmd
    · rw [hplaced.commands, List.mem_append, List.mem_singleton] at hcmd
      rcases hcmd with hcmd | hcmd
      · exact .inl hcmd
      · cases hcmd
  | deliver c faults =>
    have hcommands : (m.deliver c faults).db.commands = m.db.commands := by
      rcases deliver_eq m c faults with ⟨-, e⟩ | ⟨hc, r, m₁, hd, e⟩
      · rw [e]
      · rw [e]
        have hs₀ := hs.of_same (m.same_withFaults faults)
        cases c with
        | SUBMIT c => exact (dispatch_submit_of_sound (m := m.withFaults faults) hs₀.sound
            hd).framed.commands
        | CANCEL c => exact (dispatch_cancel (m := m.withFaults faults) hd).framed.commands
    exact .inl (hcommands ▸ hcmd)
  | restart => exact .inl hcmd
  | marketUpdate symbol input faults =>
    rcases h : Admin.marketUpdate symbol input { m.store with faults } with ⟨r, s'⟩
    rw [Matcher.step, Matcher.call_db h] at hcmd
    rcases Admin.marketUpdate_cases h with hdb | hdb <;> rw [hdb] at hcmd <;> exact .inl hcmd
  | adjust userId asset field delta faults =>
    rcases h : Admin.adjust userId asset field delta { m.store with faults } with ⟨r, s'⟩
    rw [Matcher.step, Matcher.call_db h] at hcmd
    rcases Admin.adjust_cases h with hdb | ⟨w, value, -, -, hdb⟩ <;> rw [hdb] at hcmd <;>
      exact .inl hcmd
  | tick now => exact .inl hcmd

/-- **A `CANCEL` in the outbox was asked for**, while its order was live. -/
theorem commands_requested (h : m.Initial) (steps : List Step) {cmd : OrderCancelCommand}
    (hcmd : .CANCEL cmd ∈ (m.run steps).db.commands) {o : Order}
    (ho : (m.run steps).db.order? cmd.orderId = some o) : Asked m steps o := by
  induction steps using List.reverseRecOn generalizing o with
  | nil =>
    have hnone : m.db.commands = [] := by
      rw [Db.commands, h.outbox]
      rfl
    rw [Matcher.run_nil, hnone] at hcmd
    cases hcmd
  | append_singleton steps l ih =>
    rw [Matcher.run_append] at hcmd ho
    change .CANCEL cmd ∈ ((m.run steps).step l).db.commands at hcmd
    change ((m.run steps).step l).db.order? cmd.orderId = some o at ho
    have hs := run_safe h steps
    rcases step_cancel hs hcmd with hold | ⟨o₀, hid, ho₀, hlive, hasks⟩
    · -- the row that it had then, whose fixed columns it still has
      obtain ⟨o₁, ho₁, -⟩ := hs.sound.commands _ hold
      obtain ⟨o', ho', hfix⟩ := step_fixed hs l ho₁
      obtain rfl : o' = o := Option.some.inj (ho'.symm.trans ho)
      obtain ⟨before, x, after, o₂, rfl, hx, ho₂, hlive⟩ := ih hold ho₁
      refine Asked.concat ⟨before, x, after, o₂, rfl, ?_, by rw [hfix.id]; exact ho₂, hlive⟩ l
      cases x with
      | cancel userId orderId faults => exact ⟨hx.1.trans hfix.userId.symm, hx.2.trans hfix.id.symm⟩
      | forceCancel orderId faults => exact Eq.trans hx hfix.id.symm
      | _ => exact hx
    · rw [hid] at ho₀
      obtain ⟨o', ho', hfix⟩ := step_fixed hs l ho₀
      obtain rfl : o' = o := Option.some.inj (ho'.symm.trans ho)
      refine ⟨steps, l, [], o₀, rfl, ?_, by rw [hfix.id, hid]; exact ho₀, hlive⟩
      cases l with
      | cancel userId orderId faults =>
        exact ⟨hasks.1.trans hfix.userId.symm, hasks.2.trans hfix.id.symm⟩
      | forceCancel orderId faults => exact Eq.trans hasks hfix.id.symm
      | _ => exact hasks

/-- **Orders happen on request.** In every reachable state the table of orders, each row as it was
placed, is the list of orders that calls of `submit` returned, in that order. An order is
`CANCELLED` only if its owner or an admin asked for it while it was live, or if it is a `MARKET`
order of which nothing was filled. -/
theorem orders_requested (h : m.Initial) (steps : List Step) :
    (m.run steps).db.orders.map Order.asPlaced = m.placed steps ∧
    ∀ o ∈ (m.run steps).db.orders, o.status = .CANCELLED →
      Asked m steps o ∨ o.type = .MARKET ∧ o.filledQty = 0 := by
  refine ⟨?_, fun o ho hstatus => ?_⟩
  · rw [run_asPlaced (initial_safe h), h.orders]
    rfl
  · have hrow := (run_safe h steps).sound.order?_of_mem ho
    cases ht : o.type with
    | LIMIT =>
      obtain ⟨cmd, hcmd, hid⟩ := run_cancelsSent h steps o.id o hrow ht hstatus
      exact Or.inl (commands_requested h steps hcmd (by rw [hid]; exact hrow))
    | MARKET =>
      refine Or.inr ⟨rfl, ?_⟩
      rcases ((run_reported h steps).rows o.id o hrow).market ht with hr | hr | hr
      · rw [hr.1] at hstatus
        cases hstatus
      · exact hr.2
      · rw [hr.1] at hstatus
        cases hstatus

namespace Sample

/-- What is left of the order of `bob` is cancelled, and `alice` finds nothing to buy. -/
def cancelling : List Step :=
  trading ++ [.cancel "bob" 1 none, .deliver (.CANCEL ⟨⟨6⟩, 1, "bob", "BTC-USDT", 0⟩) none,
    .submit "alice" (market .BID 1) none,
    .deliver (submitted 10 3 "alice" (market .BID 1)) none]

end Sample

/-- Both ways for an order to end `CANCELLED`. -/
theorem orders_requested_cancelling : Sample.exchange.Initial ∧
    (Sample.exchange.run Sample.cancelling).db.orders.map (·.status) =
      [.CANCELLED, .FILLED, .CANCELLED] ∧
    (Sample.exchange.run Sample.cancelling).db.orders.map Order.asPlaced =
      Sample.exchange.placed Sample.cancelling :=
  ⟨Sample.exchange_initial, by decide +kernel,
    (orders_requested Sample.exchange_initial Sample.cancelling).1⟩

end Orbit
