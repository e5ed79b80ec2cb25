import Orbit.Matcher.MarketBid

/-!
# Commands that are consumed and lost

The consumer logs a failure and returns, so that the offset advances past a command whose
transaction failed: neither the retries nor the dead letters that the policy for
`order-commands` asks for are there. A delivery then leaves no trace but what the aborted
transaction did to the book.

* `dispatch_ok_iff`: when no statement fails from outside, the command of a live order commits
  exactly when it is `Settleable`: the book admits the order, the match ids are new, and the
  accounts can bear the postings.
* `no_lost_command`: in a run whose deliveries are all of commands that are settleable, with no
  failing statement, or have nothing to do, every delivery commits or has nothing to do, and no
  `MARKET` order whose `SUBMIT` was consumed stays `OPEN`.
-/

namespace Orbit

open PriceTime Settler Consumer

variable {E : Engine} {m m' : Matcher E}

/-! ## What a command needs to commit -/

/-- The trades that the submit of an order makes. -/
def submitFills (m : Matcher E) (symbol : String) (order : Order) : List (Fill ℕ ℚ ℚ) :=
  match order.type with
  | .LIMIT => ((m.queues symbol).add order.id (sideToEngine order.side) (order.price.getD 0)
      order.leaveQty).fills
  | .MARKET => (sweepFill order.quantity
      ((m.queues symbol).queue (sideToEngine order.side).opp)).fills

/-- The postings of the submit of an order. -/
def submitPostings (m : Matcher E) (symbol : String) (market : Market)
    (order : Order) : List Posting :=
  tradePostings m.db market order ⟨feeRate market.makerFeeBp, feeRate market.takerFeeBp⟩
      ((submitFills m symbol order).map .ofFill) ++
    match order.type with
    | .LIMIT => []
    | .MARKET => residualPostings market order (sweepRemaining order.quantity
        ((m.queues symbol).queue (sideToEngine order.side).opp))

/-- What a submit makes of the row of its order. -/
def submitFinish (m : Matcher E) (symbol : String) (order : Order) : Order → Order :=
  match order.type with
  | .LIMIT => orderAfterMatch ((m.queues symbol).add order.id (sideToEngine order.side)
      (order.price.getD 0) order.leaveQty).leave order.quantity
  | .MARKET => marketAfter order (sweepRemaining order.quantity
      ((m.queues symbol).queue (sideToEngine order.side).opp))

/-- What a submit posts besides its trades. -/
def submitRelease (m : Matcher E) (symbol : String) (market : Market)
    (order : Order) : List Posting :=
  match order.type with
  | .LIMIT => []
  | .MARKET => residualPostings market order (sweepRemaining order.quantity
      ((m.queues symbol).queue (sideToEngine order.side).opp))

/-- The book after a submit. -/
def submitBook (m : Matcher E) (symbol : String) (order : Order) : Queues :=
  match order.type with
  | .LIMIT => ((m.queues symbol).add order.id (sideToEngine order.side) (order.price.getD 0)
      order.leaveQty).book
  | .MARKET => (m.queues symbol).set (sideToEngine order.side).opp (sweepFill order.quantity
      ((m.queues symbol).queue (sideToEngine order.side).opp)).rest

/-- The book lets the orders of a submit in: a `LIMIT` order does not rest yet, and the turns of a
sweep find their ids free. -/
def Admits (m : Matcher E) (symbol : String) (order : Order) : Prop :=
  match order.type with
  | .LIMIT => order.id ∉ (m.queues symbol).ids
  | .MARKET => TurnsFree order.id 0 ((m.queues symbol).queue (sideToEngine order.side))
      ((m.queues symbol).queue (sideToEngine order.side).opp)
      (levels ((m.queues symbol).queue (sideToEngine order.side).opp)) bookLimit order.quantity

/-- The submit can be settled. -/
structure SubmitSettleable (cmd : OrderSubmitCommand) (market : Market)
    (order : Order) (m : Matcher E) :
    Prop where
  admits : Admits m cmd.symbol order
  fresh : ∀ t ∈ m.db.trades, ∀ k < (submitFills m cmd.symbol order).length,
    t.matchId ≠ some ⟨cmd.commandId, k⟩
  affords : Affords m.db (submitPostings m cmd.symbol market order)

/-- **The command can be settled**, as far as the tables and the book are concerned. -/
def Settleable (cmd : OrderCommand) (m : Matcher E) : Prop :=
  match cmd with
  | .SUBMIT cmd => ∃ market order, m.db.market? cmd.symbol = some market ∧
      m.db.order? cmd.orderId = some order ∧ SubmitSettleable cmd market order m
  | .CANCEL cmd => ∃ market order, m.db.order? cmd.orderId = some order ∧
      m.db.market? order.market = some market ∧ Affords m.db (releasePostings market order)

section Dispatch

variable {market : Market} {order : Order}

/-- **A submit that commits**, in terms of the book and of the row of its order. -/
theorem submit_committed (hs : Safe m) {cmd : OrderSubmitCommand}
    (hcmd : OrderCommand.SUBMIT cmd ∈ m.db.commands) (h : SubmitOutcome cmd m (.ok .ok) m') :
    ∃ market order rest, Begun m cmd market order ∧
      Crossing m cmd.symbol order (submitFinish m cmd.symbol order)
        (submitFills m cmd.symbol order) rest ∧
      Submitted market order cmd (submitFills m cmd.symbol order) (submitFinish m cmd.symbol order)
        (submitRelease m cmd.symbol market order) (submitBook m cmd.symbol order) m m' := by
  cases h with
  | committedLimit market order price hbegun ht hp hid hsub =>
    have hc := crossing_limit price hs.sound hcmd hbegun ht hid
    refine ⟨market, order, (fill (crosses (sideToEngine order.side) price) order.leaveQty
      ((m.queues cmd.symbol).queue (sideToEngine order.side).opp)).rest, hbegun, ?_, ?_⟩
    · simpa only [submitFinish, submitFills, ht, hp, Option.getD_some] using hc
    · simpa only [submitFinish, submitFills, submitRelease, submitBook, ht, hp, Option.getD_some]
        using hsub
  | committedMarket market order l hbegun ht hl hsub =>
    have hc := crossing_market hs.sound hs.backed hcmd hbegun ht hl
    refine ⟨market, order, (sweepFill order.quantity l).rest, hbegun, ?_, ?_⟩
    · simpa only [submitFinish, submitFills, ht, hl] using hc
    · simpa only [submitFinish, submitFills, submitRelease, submitBook, ht, hl] using hsub

theorem Settler.Settles.fresh {rates : FeeRates} {commandId : Uuid} {idx : ℕ} {db db' : Db}
    {ts : List EngineTrade} {rows : List Trade}
    (h : Settles market order rates commandId idx db ts rows db') :
    ∀ t ∈ db.trades, ∀ k, idx ≤ k → k < idx + ts.length → t.matchId ≠ some ⟨commandId, k⟩ := by
  induction h with
  | nil =>
    intro t _ k hk hlt
    rw [List.length_nil] at hlt
    omega
  | @cons idx _ _ _ _ ts _ _ maker hf _ ih =>
    intro t ht k hk hlt
    rcases hk.eq_or_lt with rfl | hk
    · exact hf.fresh t ht
    · rw [List.length_cons] at hlt
      exact ih t (by rw [hf.trades]; simp [ht]) k hk (by omega)

/-- A command that settles is recorded as such. -/
theorem dispatch_submit_isOk_iff {cmd : OrderSubmitCommand} :
    (dispatch (.SUBMIT cmd) m).1 = .ok .ok ↔ ∃ r m', settleSubmit cmd m = (.ok (some r), m') := by
  rcases hs : settleSubmit cmd m with ⟨e | _ | a, m₁⟩
  · rw [dispatch_submit_of_settle hs]
    simp
  · rw [dispatch_submit_of_settle hs]
    simp
  · rw [dispatch_submit_of_settle hs]
    simp

theorem dispatch_cancel_isOk_iff {cmd : OrderCancelCommand} :
    (dispatch (.CANCEL cmd) m).1 = .ok .ok ↔ ∃ o m', settleCancel cmd m = (.ok (some o), m') := by
  rcases hs : settleCancel cmd m with ⟨e | _ | a, m₁⟩
  · rw [dispatch_cancel_of_settle hs]
    simp
  · rw [dispatch_cancel_of_settle hs]
    simp
  · rw [dispatch_cancel_of_settle hs]
    simp

section Submit

variable {cmd : OrderSubmitCommand} (hs : Safe m) (hcalm : m.store.Calm)
  (hcmd : OrderCommand.SUBMIT cmd ∈ m.db.commands) (hm : m.db.market? cmd.symbol = some market)
  (ho : m.db.order? cmd.orderId = some order) (hlive : order.terminal = false)

include hs hcalm hcmd hm ho hlive

/-- A submit of new match ids commits exactly when the book admits the order and the accounts
can bear the postings. -/
theorem settleSubmit_iff
    (hnew : ∀ t ∈ m.db.trades, ∀ k < (submitFills m cmd.symbol order).length,
      t.matchId ≠ some ⟨cmd.commandId, k⟩) :
    (∃ r m', settleSubmit cmd m = (.ok (some r), m')) ↔
      Admits m cmd.symbol order ∧ Affords m.db (submitPostings m cmd.symbol market order) := by
  obtain ⟨o, ho', -, hc⟩ := hs.sound.commands _ hcmd
  obtain rfl : order = o := Option.some.inj (ho.symm.trans ho')
  have hrow := hs.sound.rows _ _ ho
  have hbegun : Begun m cmd market order :=
    ⟨hm, ho, fun hne => hne.2 hc, hlive, fun n _ hf => by rw [hcalm] at hf; cases hf⟩
  unfold Admits submitPostings submitFills at *
  cases ht : order.type with
  | LIMIT =>
    obtain ⟨price, hp, -⟩ := hrow.limit ht
    simp only [ht, hp, Option.getD_some] at hnew
    simp only [hp, Option.getD_some, List.append_nil]
    exact settleSubmit_limit_iff hcalm hm ho (fun hne => hne.2 hc) hlive ht hp
      (hrow.live hlive).2 rfl fun hid =>
      (crossing_limit price hs.sound hcmd hbegun ht hid).matchable hs hnew
  | MARKET =>
    simp only [ht] at hnew
    exact settleSubmit_market_iff hcalm hm ho (fun hne => hne.2 hc) hlive ht hrow.quantity rfl
      ((crossing_market hs.sound hs.backed hcmd hbegun ht rfl).matchable hs hnew)

omit hcalm hcmd hm hlive in
/-- A submit that commits found its match ids new. -/
theorem fresh_of_ok (hok : (dispatch (.SUBMIT cmd) m).1 = .ok .ok) :
    ∀ t ∈ m.db.trades, ∀ k < (submitFills m cmd.symbol order).length,
      t.matchId ≠ some ⟨cmd.commandId, k⟩ := by
  intro t ht k hk
  have hout := dispatch_submit_of_sound hs.sound (Prod.ext hok rfl)
  cases hout with
  | committedLimit market' order' price hb htype hp hid hsub =>
    obtain rfl : order' = order := Option.some.inj (hb.horder.symm.trans ho)
    obtain ⟨rows, db₁, hset, -⟩ := hsub.settled
    refine hset.fresh t ht k (Nat.zero_le k) ?_
    simpa [submitFills, htype, hp] using hk
  | committedMarket market' order' l hb htype hl hsub =>
    obtain rfl : order' = order := Option.some.inj (hb.horder.symm.trans ho)
    obtain ⟨rows, db₁, hset, -⟩ := hsub.settled
    refine hset.fresh t ht k (Nat.zero_le k) ?_
    simpa [submitFills, htype, hl] using hk

/-- The submit of a live order commits exactly when it can be settled. -/
theorem dispatch_submit_ok_iff :
    (dispatch (.SUBMIT cmd) m).1 = .ok .ok ↔ SubmitSettleable cmd market order m := by
  constructor
  · intro hok
    have hnew := fresh_of_ok hs ho hok
    obtain ⟨hadmits, hafford⟩ := (settleSubmit_iff hs hcalm hcmd hm ho hlive hnew).mp
      (dispatch_submit_isOk_iff.mp hok)
    exact ⟨hadmits, hnew, hafford⟩
  · intro h
    exact dispatch_submit_isOk_iff.mpr
      ((settleSubmit_iff hs hcalm hcmd hm ho hlive h.fresh).mpr ⟨h.admits, h.affords⟩)

end Submit

/-- **The command of a live order commits exactly when it can be settled**, when no statement
fails from outside. -/
theorem dispatch_ok_iff {cmd : OrderCommand} (hs : Safe m) (hcalm : m.store.Calm)
    (hcmd : cmd ∈ m.db.commands) (ho : m.db.order? cmd.orderId = some order)
    (hlive : order.terminal = false) : (dispatch cmd m).1 = .ok .ok ↔ Settleable cmd m := by
  have hrow := hs.sound.rows _ _ ho
  obtain ⟨market, hmarket⟩ := Option.isSome_iff_exists.mp (hs.sound.markets _ _ ho)
  cases cmd with
  | SUBMIT cmd =>
    obtain ⟨o, ho', hsym, -⟩ := hs.sound.commands _ hcmd
    obtain rfl : order = o := Option.some.inj (ho.symm.trans ho')
    rw [hsym] at hmarket
    rw [dispatch_submit_ok_iff hs hcalm hcmd hmarket ho hlive]
    refine ⟨fun h => ⟨market, order, hmarket, ho, h⟩, ?_⟩
    rintro ⟨market', order', hmarket', horder', h⟩
    obtain rfl : market' = market := Option.some.inj (hmarket'.symm.trans hmarket)
    obtain rfl : order' = order := Option.some.inj (horder'.symm.trans ho)
    exact h
  | CANCEL cmd =>
    rw [dispatch_cancel_isOk_iff, settleCancel_iff hcalm ho hlive hmarket fun _ => hrow.price_pos]
    refine ⟨fun h => ⟨market, order, ho, hmarket, h⟩, ?_⟩
    rintro ⟨market', order', horder', hmarket', h⟩
    obtain rfl : order' = order := Option.some.inj (horder'.symm.trans ho)
    obtain rfl : market' = market := Option.some.inj (hmarket'.symm.trans hmarket)
    exact h

end Dispatch

/-! ## Runs -/

/-- The transaction of the command committed in the run. -/
def CommittedIn (m : Matcher E) (steps : List Step) (cmd : OrderCommand) : Prop :=
  ∃ before faults after, steps = before ++ .deliver cmd faults :: after ∧
    cmd ∈ (m.run before).db.commands ∧ (dispatch cmd ((m.run before).withFaults faults)).1 = .ok .ok

/-- **A delivery after the run `before` has nothing to do**: the order is filled or cancelled, or
its `SUBMIT` was settled and it rests in the book. -/
def NothingToDo (m : Matcher E) (before : List Step) (cmd : OrderCommand) : Prop :=
  ∃ o, (m.run before).db.order? cmd.orderId = some o ∧ (o.terminal = true ∨
    ∃ sub, cmd = .SUBMIT sub ∧ CommittedIn m before cmd ∧
    o.id ∈ ((m.run before).queues sub.symbol).ids)

/-- The delivery of a command that was published commits, or has nothing to do. -/
def Kept (m : Matcher E) (before : List Step) : Step → Prop
  | .deliver cmd faults => cmd ∈ (m.run before).db.commands →
      (dispatch cmd ((m.run before).withFaults faults)).1 = .ok .ok ∨ NothingToDo m before cmd
  | _ => True

/-- The delivery of a command that was published has nothing to do, or no statement of it fails and
the command can be settled. -/
def Deliverable (m : Matcher E) (before : List Step) : Step → Prop
  | .deliver cmd faults => cmd ∈ (m.run before).db.commands →
      NothingToDo m before cmd ∨ faults = none ∧ Settleable cmd (m.run before)
  | _ => True

section Runs

/-- A delivery that meets the condition is kept. -/
theorem Deliverable.kept (h : m.Initial) {before : List Step} {l : Step}
    (hd : Deliverable m before l) :
    Kept m before l := by
  cases l with
  | deliver cmd faults =>
    intro hcmd
    rcases hd hcmd with hnoop | ⟨rfl, hset⟩
    · exact Or.inr hnoop
    have hs := run_safe h before
    have hcalm := run_calm h before
    rw [Matcher.withFaults_self hcalm]
    obtain ⟨o, ho⟩ : ∃ o, (m.run before).db.order? cmd.orderId = some o := by
      have hcarries := hs.sound.commands cmd hcmd
      cases cmd with
      | SUBMIT cmd => exact hcarries.imp fun _ ho => ho.1
      | CANCEL cmd => exact hcarries.imp fun _ ho => ho.1
    cases hlive : o.terminal with
    | true => exact Or.inr ⟨o, ho, Or.inl hlive⟩
    | false => exact Or.inl ((dispatch_ok_iff hs hcalm hcmd ho hlive).mpr hset)
  | _ => trivial

/-- A `MARKET` order whose `SUBMIT` is kept is closed. -/
theorem Kept.market (h : m.Initial) {before : List Step}
    {sub : OrderSubmitCommand} {faults : Option ℕ}
    (hk : Kept m before (.deliver (.SUBMIT sub) faults))
    (hcmd : OrderCommand.SUBMIT sub ∈ (m.run before).db.commands) {o : Order}
    (ho : (m.run before).db.order? sub.orderId = some o) (ht : o.type = .MARKET) :
    ∃ o', ((m.run before).step (.deliver (.SUBMIT sub) faults)).db.order? sub.orderId = some o' ∧
      o'.terminal = true := by
  have hs := run_safe h before
  have hs₀ := hs.of_same ((m.run before).same_withFaults faults)
  rcases hk hcmd with hok | ⟨o', ho', hterm | ⟨sub', -, -, hid⟩⟩
  · change ∃ o', ((m.run before).deliver (.SUBMIT sub) faults).db.order? sub.orderId = some o' ∧ _
    rcases deliver_eq (m.run before) (.SUBMIT sub) faults with ⟨hnot, -⟩ | ⟨-, r, m₁, hd, heq⟩
    · exact absurd hcmd hnot
    rw [hd] at hok
    obtain rfl : r = .ok .ok := hok
    obtain ⟨o', ho', -, hterm⟩ := committed_market hs₀ hcmd
      (dispatch_submit_of_sound hs₀.sound hd) ho ht
    rw [heq]
    exact ⟨o', ho', hterm⟩
  · exact ⟨o', step_terminal hs _ ho' hterm, hterm⟩
  · -- no `MARKET` order rests
    obtain rfl : o' = o := Option.some.inj (ho'.symm.trans ho)
    obtain ⟨side, r, hr, e⟩ := Book.mem_ids.mp hid
    obtain ⟨x, hx⟩ := hs.backed _ _ r hr
    have hrow := hx.row
    rw [e, Db.order?_id ho, ho] at hrow
    obtain rfl : o' = x := Option.some.inj hrow
    exact absurd (ht.symm.trans hx.type) (by decide)

/-- **No command is lost** in a run whose deliveries all have nothing to do, or meet no failing
statement and are of commands that can be settled: each of them commits or has nothing to do, and no
`MARKET` order whose `SUBMIT` was consumed stays `OPEN`. -/
theorem no_lost_command (h : m.Initial) (steps : List Step) (hd : Justified (Deliverable m) steps) :
    Justified (Kept m) steps ∧
    ∀ before sub faults after, steps = before ++ .deliver (.SUBMIT sub) faults :: after →
      OrderCommand.SUBMIT sub ∈ (m.run before).db.commands →
      ∀ o, (m.run steps).db.order? sub.orderId = some o → o.type = .MARKET → o.status ≠ .OPEN := by
  have hkept : Justified (Kept m) steps := fun before l after e => (hd before l after e).kept h
  refine ⟨hkept, fun before sub faults after e hcmd o ho ht hopen => ?_⟩
  have hs := run_safe h before
  obtain ⟨x, hx, -⟩ := hs.sound.commands _ hcmd
  -- the order has kept its type
  have hfix : ∃ x', (m.run steps).db.order? sub.orderId = some x' ∧ x.Fixed x' := by
    rw [e, Matcher.run_append]
    exact run_fixed hs _ hx
  obtain ⟨x', hx', hf⟩ := hfix
  obtain rfl : x' = o := Option.some.inj (hx'.symm.trans ho)
  obtain ⟨o', ho', hterm⟩ := (hkept before _ after e).market h hcmd hx (hf.type.symm.trans ht)
  have hlast : (m.run steps).db.order? sub.orderId = some o' := by
    rw [e, Matcher.run_append, Matcher.run_cons]
    exact run_terminal (step_safe hs _) after ho' hterm
  obtain rfl : x' = o' := Option.some.inj (hx'.symm.trans hlast)
  simp [Order.terminal, hopen] at hterm

end Runs

/-! ## Runs on the sample exchange -/

open Sample

/-- The orders of `bob` and `alice` are both settled, so none of the two commands is lost. -/
theorem no_lost_command_trading : exchange.Initial ∧ Justified (Deliverable exchange) trading ∧
    Justified (Kept exchange) trading := by
  have hd : Justified (Deliverable exchange) trading := by
    simp only [trading, justified_cons, justified_nil, and_true]
    refine ⟨trivial, fun _ => Or.inr ⟨rfl, ?_⟩, trivial, fun _ => Or.inr ⟨rfl, ?_⟩⟩
    · exact ⟨btcUsdt, ⟨1, "bob", "BTC-USDT", .ASK, .LIMIT, some 100, 2, 2, 0, .OPEN, some ⟨0⟩⟩,
        by decide +kernel, by decide +kernel,
        show _ ∉ _ by decide +kernel, by decide +kernel, by decide +kernel⟩
    · exact ⟨btcUsdt, ⟨2, "alice", "BTC-USDT", .BID, .LIMIT, some 110, 1, 1, 0, .OPEN, some ⟨3⟩⟩,
        by decide +kernel, by decide +kernel,
        show _ ∉ _ by decide +kernel, by decide +kernel, by decide +kernel⟩
  exact ⟨exchange_initial, hd, (no_lost_command exchange_initial trading hd).1⟩

/-- **A command that is consumed and lost.** The transaction of the `MARKET` `BID` of `alice` fails
at the `CHECK` of her wallet. The delivery returns like any other, with no retry and no dead letter,
and the order stays `OPEN`. -/
theorem market_command_lost :
    unpayableSubmit ∈ (exchange.run unpayable).db.commands ∧
    (dispatch unpayableSubmit ((exchange.run unpayable).withFaults none)).1 =
      .error .checkViolation ∧
    ¬NothingToDo exchange unpayable unpayableSubmit ∧
    ¬Kept exchange unpayable (.deliver unpayableSubmit none) ∧
    ∃ o, (exchange.run (unpayable ++ [.deliver unpayableSubmit none])).db.order? 2 = some o ∧
      o.type = .MARKET ∧ o.status = .OPEN := by
  have hmem : unpayableSubmit ∈ (exchange.run unpayable).db.commands := by decide +kernel
  have hfail : (dispatch unpayableSubmit ((exchange.run unpayable).withFaults none)).1 =
      .error .checkViolation := by decide +kernel
  have horder : (exchange.run unpayable).db.order? 2 =
      some ⟨2, "alice", "BTC-USDT", .BID, .MARKET, none, 10, 10, 0, .OPEN, some ⟨3⟩⟩ := by
    decide +kernel
  have hids : 2 ∉ ((exchange.run unpayable).queues "BTC-USDT").ids := by decide +kernel
  have hnot : ¬NothingToDo exchange unpayable unpayableSubmit := by
    rintro ⟨o, ho, hcase⟩
    obtain rfl := Option.some.inj (ho.symm.trans horder)
    rcases hcase with hterm | ⟨sub, hsub, -, hid⟩
    · cases hterm
    · obtain rfl := OrderCommand.SUBMIT.inj hsub
      exact hids hid
  refine ⟨hmem, hfail, hnot, fun hk => ?_,
    ⟨2, "alice", "BTC-USDT", .BID, .MARKET, none, 10, 10, 0, .OPEN, some ⟨3⟩⟩,
    by decide +kernel, rfl, rfl⟩
  rcases hk hmem with hok | hnoop
  · rw [hfail] at hok
    cases hok
  · exact hnot hnoop

end Orbit
