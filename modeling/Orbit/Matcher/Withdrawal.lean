import Orbit.Matcher.Addressing
import Orbit.Matcher.Bystanders
import Orbit.Matcher.Commute

/-!
# Withdrawal

What a user has locked in the exchange it can have back. As long as no `locked` is adjusted by hand,
a `CANCEL` that is delivered, and of which no statement fails from outside, closes its order,
whatever the exchange did before: it finds the reservation of the order in the wallet
(`Matcher.Regular.affords_release`), and nothing else can refuse it. All this is said with exact
decimals; what rounding does to a reservation is followed in `Precision`.

* `cancel_closes`: so an order whose `CANCEL` was delivered is closed in every state that
  follows.
* `withdrawal`: in every reachable state, requests to cancel and their deliveries close all orders
  of a user, bring all that it had locked back to its balances, and leave the others alone.
-/

namespace Orbit

open PriceTime Settler Consumer

variable {E : Engine} {m m' : Matcher E} {u : String}

/-! ## Cancels commit -/

/-- What is released is one amount of one wallet of the owner, or nothing. -/
theorem releasePostings_single (market : Market) {o : Order} (hs : o.Sound) :
    releasePostings market o = [] ∨
      ∃ a x, 0 < x ∧ releasePostings market o = [⟨o.userId, a, x, -x⟩] := by
  unfold releasePostings
  split
  · rename_i hpos
    cases o.side with
    | BID =>
      cases hp : o.price with
      | none => exact .inl rfl
      | some price => exact .inr ⟨_, _, mul_pos (hs.price_pos hp) hpos, rfl⟩
    | ASK => exact .inr ⟨_, _, hpos, rfl⟩
  · exact .inl rfl

/-- An order reserves no more than there is reserved. -/
theorem reservation_le_reserved (hs : m.store.Sound) {id : ℕ} {o : Order}
    (ho : m.db.order? id = some o) (u a : String) :
    o.reservation m.db.market? u a ≤ m.db.reserved u a := by
  refine List.single_le_sum (fun x hx => ?_) _ (List.mem_map_of_mem (Db.mem_of_order? ho))
  obtain ⟨o', ho', rfl⟩ := List.mem_map.mp hx
  exact (hs.rows _ _ (hs.order?_of_mem ho')).reservation_nonneg _ _ _

/-- A wallet of which something is locked is there. -/
theorem Db.isSome_of_locked {db : Db} {a : String} (h : 0 < db.locked u a) :
    (db.wallet? u a).isSome := by
  cases hw : db.wallet? u a with
  | none =>
    rw [Db.locked, hw] at h
    exact absurd h (lt_irrefl _)
  | some w => rfl

/-- **The accounts bear the release** of every live order. -/
theorem Matcher.Regular.affords_release (hr : m.Regular) {id : ℕ} {o : Order} {market : Market}
    (ho : m.db.order? id = some o) (hlive : o.terminal = false)
    (hm : m.db.market? o.market = some market) : Affords m.db (releasePostings market o) := by
  have hrow := hr.safe.sound.rows _ _ ho
  have hlocked : ∀ u a, 0 ≤ m.db.locked u a +
      Posting.lockedSum u a (releasePostings market o) := by
    intro u a
    have hle := reservation_le_reserved hr.safe.sound ho u a
    rw [reservation_of_leave hm (.inl (hrow.live hlive).1)] at hle
    rw [lockedSum_releasePostings _ _ _ _ hrow, hr.locks u a, ← sub_eq_add_neg]
    exact sub_nonneg.mpr hle
  refine affords_of_releases hr.solvent (releasePostings_releases market hrow) ?_ hlocked
  intro p hp
  rcases releasePostings_single market hrow with hnone | ⟨a, x, hx, hsingle⟩
  · rw [hnone] at hp
    cases hp
  · -- what is to be released is locked, so that there is a wallet
    have hl := hlocked o.userId a
    rw [hsingle, Posting.lockedSum_cons, if_pos ⟨rfl, rfl⟩, Posting.lockedSum_nil, add_zero] at hl
    rw [hsingle] at hp
    obtain rfl := List.mem_singleton.mp hp
    refine .inl (Db.isSome_of_locked (hx.trans_le ?_))
    exact sub_nonneg.mp (sub_eq_add_neg (m.db.locked o.userId a) x ▸ hl)

/-- **The `CANCEL` of a live order commits.** -/
theorem Matcher.Regular.cancel_commits (hr : m.Regular) {cmd : OrderCancelCommand}
    (hcmd : .CANCEL cmd ∈ m.db.commands) {o : Order} (ho : m.db.order? cmd.orderId = some o)
    (hlive : o.terminal = false) : ∃ market, m.db.market? o.market = some market ∧
      Cancelled market o m (m.step (.deliver (.CANCEL cmd) none)) := by
  obtain ⟨market, hm⟩ := Option.isSome_iff_exists.mp (hr.safe.sound.markets _ _ ho)
  have hok : (dispatch (.CANCEL cmd) m).1 = .ok .ok :=
    (dispatch_ok_iff hr.safe hr.calm hcmd ho hlive).mpr
      ⟨market, o, ho, hm, hr.affords_release ho hlive hm⟩
  rcases hd : dispatch (.CANCEL cmd) m with ⟨r, m₁⟩
  obtain rfl : r = .ok .ok := by rw [← hok, hd]
  have hstep : m.step (.deliver (.CANCEL cmd) none) = m₁.withFaults none := by
    rw [Matcher.step, Matcher.deliver, if_pos hcmd, Matcher.withFaults_self hr.calm, handleMessage,
      hd]
  refine ⟨market, hm, ?_⟩
  rw [hstep]
  cases dispatch_cancel hd with
  | skipped _ _ why =>
    exfalso
    rcases why with hnone | ⟨o', ho', hclosed⟩
    · rw [ho] at hnone
      cases hnone
    · obtain rfl : o' = o := Option.some.inj (ho'.symm.trans ho)
      rcases hclosed with ht | hnone
      · rw [hlive] at ht
        cases ht
      · cases hm.symm.trans hnone
  | committed market' o' ho' hm' _ hc =>
    obtain rfl : o' = o := Option.some.inj (ho'.symm.trans ho)
    obtain rfl : market' = market := Option.some.inj (hm'.symm.trans hm)
    exact
      { framed := hc.framed.trans (m₁.same_withFaults none).framed
        orders := hc.orders
        trades := hc.trades
        posted := hc.posted
        queues_eq := hc.queues_eq
        queues_ne := hc.queues_ne }

/-- The row of an order after its cancel. -/
theorem Settler.Cancelled.order? {market : Market} {o : Order} (hc : Cancelled market o m m')
    {id : ℕ} (ho : m.db.order? id = some o) :
    m'.db.order? id = some { o with status := .CANCELLED } := by
  rw [Db.order?_of_modify hc.orders (fun _ => rfl), if_pos (Db.order?_id ho).symm, ho]
  rfl

/-! ## Orders whose cancel was delivered -/

/-- In the run a published `CANCEL` of the order was delivered, and no statement of it failed. -/
def CancelDelivered (m : Matcher E) (steps : List Step) (orderId : ℕ) : Prop :=
  ∃ before cmd after, steps = before ++ .deliver (.CANCEL cmd) none :: after ∧
    .CANCEL cmd ∈ (m.run before).db.commands ∧ cmd.orderId = orderId

/-- **An order whose `CANCEL` was delivered is closed**, whatever came before, between or after. -/
theorem cancel_closes (h : m.Initial) {steps : List Step}
    (hadjust : ∀ l ∈ steps, l.Adjusts (· ≠ .locked)) {id : ℕ} {o : Order}
    (hd : CancelDelivered m steps id) (ho : (m.run steps).db.order? id = some o) :
    o.terminal = true := by
  obtain ⟨before, cmd, after, rfl, hcmd, rfl⟩ := hd
  have hr : (m.run before).Regular :=
    run_regular h fun l hl => hadjust l (List.mem_append_left _ hl)
  obtain ⟨o₀, ho₀, -⟩ := hr.safe.sound.commands _ hcmd
  have hclosed : ∃ o₁, ((m.run before).step (.deliver (.CANCEL cmd) none)).db.order? cmd.orderId =
      some o₁ ∧ o₁.terminal = true := by
    cases hlive : o₀.terminal with
    | false =>
      obtain ⟨market, -, hc⟩ := hr.cancel_commits hcmd ho₀ hlive
      exact ⟨_, hc.order? ho₀, rfl⟩
    | true => exact ⟨o₀, step_terminal hr.safe _ ho₀ hlive, hlive⟩
  obtain ⟨o₁, ho₁, ht⟩ := hclosed
  have hlast := run_terminal (step_safe hr.safe _) after ho₁ ht
  rw [Matcher.run_append, Matcher.run_cons] at ho
  obtain rfl : o₁ = o := Option.some.inj (hlast.symm.trans ho)
  exact ht

namespace Sample

/-- The order of `bob` is cancelled, and then a bid of `alice` finds nothing. -/
def bobCancels : List Step :=
  trading ++ [.cancel "bob" 1 none, .deliver (.CANCEL ⟨⟨6⟩, 1, "bob", "BTC-USDT", 0⟩) none,
    .submit "alice" (market .BID 1) none]

end Sample

theorem Sample.bobCancels_delivered : CancelDelivered exchange bobCancels 1 :=
  ⟨trading ++ [.cancel "bob" 1 none], ⟨⟨6⟩, 1, "bob", "BTC-USDT", 0⟩,
    [.submit "alice" (market .BID 1) none], rfl, by decide +kernel, rfl⟩

/-- What is left of an order that has traded is closed. -/
theorem cancel_closes_bob : Sample.exchange.Initial ∧
    ((Sample.exchange.run Sample.trading).db.order? 1).map (·.terminal) = some false ∧
    ∀ o, (Sample.exchange.run Sample.bobCancels).db.order? 1 = some o → o.terminal = true :=
  ⟨Sample.exchange_initial, by decide +kernel, fun _ ho =>
    cancel_closes Sample.exchange_initial
      (by simp [Sample.bobCancels, Sample.trading, Step.Adjusts]) Sample.bobCancels_delivered ho⟩

/-! ## Withdrawal -/

/-- The step is a request of the user to cancel an order, or the delivery of such a request, and no
statement of it fails. -/
def Step.Withdraws (u : String) : Step → Prop
  | .cancel userId _ faults => userId = u ∧ faults = none
  | .deliver (.CANCEL cmd) faults => cmd.userId = u ∧ faults = none
  | _ => False

theorem Step.Withdraws.adjusts {l : Step} (h : l.Withdraws u) (A : WalletField → Prop) :
    l.Adjusts A := by
  cases l with
  | adjust => exact h.elim
  | _ => trivial

/-- **What withdrawing comes to**: the totals of the user are as they were, the other users are
untouched, and nothing was traded. -/
structure Db.Withdraws (u : String) (db db' : Db) : Prop where
  total : ∀ a, db'.total u a = db.total u a
  others : ∀ v, v ≠ u → db.Untouched v db'
  trades : db'.trades = db.trades

theorem Db.Withdraws.refl (u : String) (db : Db) : db.Withdraws u db :=
  ⟨fun _ => rfl, fun v _ => .refl v db, rfl⟩

theorem Db.Withdraws.trans {db db₁ db' : Db} (h₁ : db.Withdraws u db₁) (h₂ : db₁.Withdraws u db') :
    db.Withdraws u db' where
  total a := (h₂.total a).trans (h₁.total a)
  others v hv := (h₁.others v hv).trans (h₂.others v hv)
  trades := h₂.trades.trans h₁.trades

theorem Settler.Cancelled.withdraws {market : Market} {o : Order} (hc : Cancelled market o m m')
    (ho : m.db.order? o.id = some o) (hu : o.userId = u) : m.db.Withdraws u m'.db where
  total a := by rw [hc.posted.total, totalSum_releasePostings, add_zero]
  others v hv := hc.untouched ho fun e => hv (e.symm.trans hu)
  trades := hc.trades

/-- A request to cancel moves nothing. -/
theorem CancelRequested.withdraws {s s' : Store} {cmd : OrderCancelCommand} {o : Order}
    (h : CancelRequested s s' cmd o) (u : String) : s.db.Withdraws u s'.db := by
  obtain ⟨row, -, hdb⟩ := h.outbox
  rw [hdb]
  exact
    { total := fun _ => rfl
      others := fun _ _ => .of_posted (.refl_of_wallets rfl) .nil rfl rfl
      trades := rfl }

open Stm in
/-- A request of the owner to cancel a live order is accepted, when no statement fails. -/
theorem OrderService.cancel_calm {s : Store} (hcalm : s.Calm) {o : Order}
    (ho : s.db.order? o.id = some o) (hlive : o.terminal = false) :
    ∃ s', OrderService.cancel o.userId o.id s = (.ok o, s') := by
  let s₁ : Store := { s with uuids := s.uuids + 1 }
  let cmd : OrderCancelCommand := ⟨⟨s.uuids⟩, o.id, o.userId, o.market, s.now⟩
  obtain ⟨_, s₂, hpublish, hs₂⟩ := total_publish .ORDER_COMMANDS o.market
    (.command (.CANCEL cmd)) s₁ hcalm
  have huuid : randomUUID s = (.ok ⟨s.uuids⟩, s₁) := rfl
  have hnow : dateNow s₁ = (.ok s.now, s₁) := rfl
  refine ⟨s₂, ?_⟩
  unfold OrderService.cancel orderFind
  rw [Tx.bind_apply_ok (query_calm _ hcalm)]
  simp only [ho]
  rw [if_neg (not_not.mpr rfl), if_neg (Bool.eq_false_iff.mp hlive), Tx.bind_apply_ok huuid]
  refine Tx.bind_eq_ok.mpr ⟨(), s₂, Tx.transaction_eq_ok.mpr ?_, rfl⟩
  rw [Tx.bind_apply_ok (stmt_calm (s := s₁) hcalm)]
  refine Tx.bind_eq_ok.mpr ⟨(), s₂, ?_, ?_⟩
  · rw [Tx.bind_apply_ok hnow, hpublish]
  · rw [Tx.bind_apply_ok (stmt_calm hs₂)]
    rfl

/-- Such a request publishes the `CANCEL`. -/
theorem Matcher.cancel_publishes (hcalm : m.store.Calm) {o : Order}
    (ho : m.db.order? o.id = some o) (hlive : o.terminal = false) :
    ∃ cmd, CancelRequested m.store (m.step (.cancel o.userId o.id none)).store cmd o := by
  obtain ⟨s', hcancel⟩ := OrderService.cancel_calm hcalm ho hlive
  obtain ⟨cmd, hreq, -⟩ := OrderService.cancel_writes hcancel
  have hself : { m.store with faults := none } = m.store := by rw [← hcalm]
  refine ⟨cmd, { hreq with outbox := ?_ }⟩
  obtain ⟨row, hrow, hdb⟩ := hreq.outbox
  exact ⟨row, hrow, by rw [← hdb]; exact Matcher.call_db (hself ▸ hcancel)⟩

section Withdraw

variable {steps : List Step}

/-- **One order is withdrawn**: its owner asks to cancel it, and the `CANCEL` is delivered. -/
theorem withdraw_order (h : m.Initial) (hadjust : ∀ l ∈ steps, l.Adjusts (· ≠ .locked)) {o : Order}
    (ho : (m.run steps).db.order? o.id = some o) (hlive : o.terminal = false) :
    ∃ more, (∀ l ∈ more, l.Withdraws o.userId) ∧
      (m.run steps).db.Withdraws o.userId (m.run (steps ++ more)).db ∧
      (m.run (steps ++ more)).db.orders =
        Table.modify o.id (fun o => { o with status := .CANCELLED }) (m.run steps).db.orders := by
  obtain ⟨cmd, hreq⟩ := Matcher.cancel_publishes (run_calm h steps) ho hlive
  have hrun : (m.run steps).step (.cancel o.userId o.id none) =
      m.run (steps ++ [.cancel o.userId o.id none]) := by
    rw [Matcher.run_append]
    rfl
  rw [hrun] at hreq
  have hr : (m.run (steps ++ [.cancel o.userId o.id none])).Regular :=
    run_regular h (List.forall_mem_append.mpr ⟨hadjust, List.forall_mem_singleton.mpr trivial⟩)
  have hcmd : .CANCEL cmd ∈ (m.run (steps ++ [.cancel o.userId o.id none])).db.commands :=
    hreq.commands ▸ List.mem_append_right _ (List.mem_singleton_self _)
  have horders : (m.run (steps ++ [.cancel o.userId o.id none])).db.orders =
      (m.run steps).db.orders := hreq.orders
  have ho₁ : (m.run (steps ++ [.cancel o.userId o.id none])).db.order? o.id = some o :=
    (Db.order?_congr horders o.id).trans ho
  obtain ⟨market, -, hc⟩ := hr.cancel_commits hcmd (by rw [hreq.orderId]; exact ho₁) hlive
  have hlast : m.run (steps ++ [.cancel o.userId o.id none, .deliver (.CANCEL cmd) none]) =
      (m.run (steps ++ [.cancel o.userId o.id none])).step (.deliver (.CANCEL cmd) none) := by
    rw [Matcher.run_append, Matcher.run_append]
    rfl
  refine ⟨[.cancel o.userId o.id none, .deliver (.CANCEL cmd) none], ?_, ?_, ?_⟩
  · exact List.forall_mem_cons.mpr ⟨⟨rfl, rfl⟩, List.forall_mem_singleton.mpr ⟨hreq.userId, rfl⟩⟩
  · rw [hlast]
    exact (hreq.withdraws _).trans (hc.withdraws ho₁ rfl)
  · rw [hlast, hc.orders, horders]

/-- The live orders of a user are withdrawn one after the other. -/
theorem withdraw_orders (h : m.Initial) (u : String) (ids : List ℕ)
    (hadjust : ∀ l ∈ steps, l.Adjusts (· ≠ .locked))
    (hids : ∀ id o, (m.run steps).db.order? id = some o → o.userId = u → o.terminal = false →
      id ∈ ids) :
    ∃ more, (∀ l ∈ more, l.Withdraws u) ∧
      (m.run steps).db.Withdraws u (m.run (steps ++ more)).db ∧
      (m.run (steps ++ more)).db.Closed u := by
  induction ids generalizing steps with
  | nil =>
    refine ⟨[], by simp, ?_, fun id o ho hu => ?_⟩
    · rw [List.append_nil]
      exact .refl u _
    · rw [List.append_nil] at ho
      by_contra hlive
      exact absurd (hids id o ho hu (Bool.eq_false_iff.mpr hlive)) List.not_mem_nil
  | cons id ids ih =>
    by_cases hex : ∃ o, (m.run steps).db.order? id = some o ∧ o.userId = u ∧ o.terminal = false
    · obtain ⟨o, ho, rfl, hlive⟩ := hex
      obtain rfl : o.id = id := Db.order?_id ho
      obtain ⟨more, hmore, hw, horders⟩ := withdraw_order h hadjust ho hlive
      have hnext : ∀ id' o', (m.run (steps ++ more)).db.order? id' = some o' →
          o'.userId = o.userId → o'.terminal = false → id' ∈ ids := by
        intro id' o' ho' hu hlive'
        rw [Db.order?_of_modify horders (fun _ => rfl)] at ho'
        by_cases hid : id' = o.id
        · subst hid
          rw [if_pos rfl, ho] at ho'
          obtain rfl := Option.some.inj ho'
          cases hlive'
        · rw [if_neg hid] at ho'
          exact (List.mem_cons.mp (hids id' o' ho' hu hlive')).resolve_left hid
      obtain ⟨more', hmore', hw', hclosed⟩ := ih (List.forall_mem_append.mpr
        ⟨hadjust, fun l hl => (hmore l hl).adjusts _⟩) hnext
      rw [List.append_assoc] at hw' hclosed
      exact ⟨more ++ more', List.forall_mem_append.mpr ⟨hmore, hmore'⟩, hw.trans hw', hclosed⟩
    · refine ih hadjust fun id' o' ho' hu hlive' => ?_
      rcases List.mem_cons.mp (hids id' o' ho' hu hlive') with rfl | hmem
      · exact absurd ⟨o', ho', hu, hlive'⟩ hex
      · exact hmem

end Withdraw

/-- Closed orders reserve nothing. -/
theorem reserved_of_closed (hs : m.store.Sound) (hc : m.db.Closed u) (a : String) :
    m.db.reserved u a = 0 := by
  refine List.sum_eq_zero fun x hx => ?_
  obtain ⟨o, ho, rfl⟩ := List.mem_map.mp hx
  have hrow := hs.order?_of_mem ho
  obtain ⟨market, hm⟩ : ∃ market, m.db.market? o.market = some market :=
    Option.isSome_iff_exists.mp (hs.markets _ _ hrow)
  by_cases hu : o.userId = u
  · exact reservation_of_terminal hm (hc o.id o hrow hu)
  · rw [reservation_of_market hm]
    simp [Order.backingOf, hu]

/-- **Withdrawal.** With exact decimals, and as long as no `locked` is adjusted by hand, in every
reachable state requests of a user to cancel, once they are delivered, close all of its orders and
bring all that it had locked back to its balances. No other user is touched, and nothing is
traded. -/
theorem withdrawal (h : m.Initial) (steps : List Step)
    (hadjust : ∀ l ∈ steps, l.Adjusts (· ≠ .locked)) (u : String) :
    ∃ more, (∀ l ∈ more, l.Withdraws u) ∧ (m.run (steps ++ more)).db.Closed u ∧
      (∀ a, (m.run (steps ++ more)).db.locked u a = 0 ∧ (m.run (steps ++ more)).db.balance u a =
        (m.run steps).db.balance u a + (m.run steps).db.locked u a) ∧
      (∀ v, v ≠ u → (m.run steps).db.Untouched v (m.run (steps ++ more)).db) ∧
      (m.run (steps ++ more)).db.trades = (m.run steps).db.trades := by
  obtain ⟨more, hmore, hw, hclosed⟩ := withdraw_orders h u
    ((m.run steps).db.orders.map (·.id)) hadjust fun id o ho _ _ => by
      rw [← Db.order?_id ho]
      exact List.mem_map_of_mem (Db.mem_of_order? ho)
  refine ⟨more, hmore, hclosed, fun a => ?_, hw.others, hw.trades⟩
  have hlocked : (m.run (steps ++ more)).db.locked u a = 0 := by
    rw [locked_eq_reserved h _ (List.forall_mem_append.mpr
      ⟨hadjust, fun l hl => (hmore l hl).adjusts _⟩) u a]
    exact reserved_of_closed (run_safe h _).sound hclosed a
  have htotal := hw.total a
  rw [Db.total, hlocked, add_zero] at htotal
  exact ⟨hlocked, htotal⟩

/-- `bob` has an ask in the book, of which part was bought. -/
theorem withdrawal_bob : Sample.exchange.Initial ∧
    0 < (Sample.exchange.run Sample.trading).db.locked "bob" "BTC" ∧
    ∃ more, (∀ l ∈ more, l.Withdraws "bob") ∧
      (Sample.exchange.run (Sample.trading ++ more)).db.Closed "bob" ∧
      (∀ a, (Sample.exchange.run (Sample.trading ++ more)).db.locked "bob" a = 0 ∧
        (Sample.exchange.run (Sample.trading ++ more)).db.balance "bob" a =
          (Sample.exchange.run Sample.trading).db.balance "bob" a +
            (Sample.exchange.run Sample.trading).db.locked "bob" a) ∧
      (∀ v, v ≠ "bob" → (Sample.exchange.run Sample.trading).db.Untouched v
        (Sample.exchange.run (Sample.trading ++ more)).db) ∧
      (Sample.exchange.run (Sample.trading ++ more)).db.trades =
        (Sample.exchange.run Sample.trading).db.trades :=
  ⟨Sample.exchange_initial, by decide +kernel,
    withdrawal Sample.exchange_initial Sample.trading
      (by simp [Sample.trading, Step.Adjusts]) "bob"⟩

end Orbit
