import Orbit.Matcher.Executions
import Orbit.Matcher.Restart

/-!
# Priority in time

The book of a market matches the best price first, and orders of one price in the order in which
they came to rest. The `SUBMIT`s of a market share a partition, so that they are consumed in the
order in which its orders were placed (`Matcher.InOrder`; a `SUBMIT` that was consumed before may
come again at any time). In a failure-free run every queue is then sorted by price, and by id within
a price: `run_queued`. It takes no restart to keep it so, and no restart changes it.

* `price_time_priority`: no trade passes over a live order with a better price, or with the same
  price that was placed before.
* `never_crossed`: two live orders of a market that could trade are never left in the book.
* `inOrder_transparent`: restarts that find no `SUBMIT` pending change neither trades, nor
  orders, nor wallets.
-/

namespace Orbit

open PriceTime Settler Consumer

variable {E : Engine} {m m' : Matcher E} {c : List ℕ}

/-! ## Deliveries in order -/

/-- A `SUBMIT` that is delivered was consumed before, or its order was placed after all orders of
its market whose `SUBMIT` was. -/
def Step.InOrder (c : List ℕ) (m : Matcher E) : Step → Prop
  | .deliver (.SUBMIT cmd) _ => .SUBMIT cmd ∈ m.db.commands → cmd.orderId ∈ c ∨
      ∀ o ∈ m.db.orders, o.id ∈ c → o.market = cmd.symbol → o.id < cmd.orderId
  | _ => True

instance (c : List ℕ) (m : Matcher E) (l : Step) : Decidable (l.InOrder c m) :=
  match l with
  | .deliver (.SUBMIT _) _ => inferInstanceAs (Decidable (_ → _ ∨ _))
  | .deliver (.CANCEL _) _ => isTrue trivial
  | .submit .. | .cancel .. | .forceCancel .. | .restart | .marketUpdate .. | .adjust ..
  | .tick _ => isTrue trivial

/-- The run delivers the `SUBMIT`s of each market in order. -/
def Matcher.InOrder (m : Matcher E) (steps : List Step) : Prop :=
  Justified (fun before l => l.InOrder (m.consumed [] before) (m.run before)) steps

instance (m : Matcher E) (steps : List Step) : Decidable (m.InOrder steps) :=
  inferInstanceAs (Decidable (Justified _ _))

theorem consumed_append (m : Matcher E) (c : List ℕ) (ls ls' : List Step) :
    m.consumed c (ls ++ ls') = (m.run ls).consumed (m.consumed c ls) ls' := by
  induction ls generalizing m c with
  | nil => rfl
  | cons l ls ih => exact ih (m.step l) (m.consumes l ++ c)

theorem failureFree_append {ls ls' : List Step} : FailureFree c m (ls ++ ls') ↔
    FailureFree c m ls ∧ FailureFree (m.consumed c ls) (m.run ls) ls' := by
  induction ls generalizing m c with
  | nil => exact ⟨fun h => ⟨trivial, h⟩, fun h => h.2⟩
  | cons l ls ih =>
    constructor
    · rintro ⟨hl, hls⟩
      obtain ⟨h₁, h₂⟩ := ih.mp hls
      exact ⟨⟨hl, h₁⟩, h₂⟩
    · rintro ⟨⟨hl, h₁⟩, h₂⟩
      exact ⟨hl, ih.mpr ⟨h₁, h₂⟩⟩

/-! ## Ranked books -/

/-- Every queue is sorted by price, and by id within a price. -/
def Matcher.Queued (m : Matcher E) : Prop :=
  ∀ symbol side, Ranked side ((m.queues symbol).queue side)

theorem Matcher.Queued.of_queues (h : m.Queued)
    (hq : ∀ symbol, m'.queues symbol = m.queues symbol) : m'.Queued := by
  intro symbol side
  rw [hq]
  exact h symbol side

/-- The book of one market changed. -/
theorem Matcher.Queued.of_book (h : m.Queued) {symbol : String}
    (hne : ∀ s, s ≠ symbol → m'.queues s = m.queues s)
    (hq : ∀ side, Ranked side ((m'.queues symbol).queue side)) : m'.Queued := by
  intro s side
  by_cases hs : s = symbol
  · subst hs
    exact hq side
  · rw [hne s hs]
    exact h s side

/-- **A submit keeps the queues ranked**, when it comes in order. -/
theorem submit_queued {cmd : OrderSubmitCommand} {r : Except Failure Result} (h : Agrees c m)
    (hq : m.Queued) (hcmd : .SUBMIT cmd ∈ m.db.commands) (ho : SubmitOutcome cmd m r m')
    (hclean : ∀ e, r = .error e → BookSpared (.SUBMIT cmd) m)
    (hin : cmd.orderId ∈ c ∨
      ∀ o ∈ m.db.orders, o.id ∈ c → o.market = cmd.symbol → o.id < cmd.orderId) :
    m'.Queued := by
  cases r with
  | error e =>
    obtain ⟨-, hqueues⟩ := submit_abort
      (fun o ho hlive => ((h.sound.rows _ _ ho).live hlive).2) ho
    exact hq.of_queues (hqueues.mpr (hclean e rfl))
  | ok r =>
    cases ho with
    | skipped hsame why => exact hq.of_queues hsame.queues
    | committedLimit market order price hb ht hp hfree hsub =>
      refine hq.of_book hsub.queues_ne fun side => ?_
      rw [hsub.queues_eq]
      rcases (sideToEngine order.side).eq_or_eq_opp side with rfl | rfl
      · rw [Book.queue_add]
        split
        · refine (hq cmd.symbol _).enqueue fun x hx => ?_
          -- what rests was consumed, and this order does not rest
          have hxc : x.id ∈ c := h.consumed _ _ (Book.mem_ids.mpr ⟨_, x, hx, rfl⟩)
          obtain ⟨o, hback⟩ := h.backed _ _ x hx
          have hid : order.id = cmd.orderId := Db.order?_id hb.horder
          rcases hin with hc | hin
          · exfalso
            have hact := ((h.sound.rows _ _ hb.horder).live hb.live).1
            have hrests := h.rests _ _ hb.horder ht hact hc
            rw [hb.market_eq h.sound hcmd, ← hid] at hrests
            exact hfree hrests
          · rw [← Db.order?_id hback.row] at hxc ⊢
            exact hid ▸ hin o (Db.mem_of_order? hback.row) hxc hback.market
        · exact hq cmd.symbol _
      · rw [Book.queue_opp_add]
        exact (hq cmd.symbol _).shrunk ((fill_consumed _ _ _).shrunk ((m.queues_wf _).pos _))
    | committedMarket market order l hb ht hl hsub =>
      refine hq.of_book hsub.queues_ne fun side => ?_
      rw [hsub.queues_eq]
      rcases (sideToEngine order.side).eq_or_eq_opp side with rfl | rfl
      · rw [Book.queue_set_opp']
        exact hq cmd.symbol _
      · rw [Book.queue_set_self]
        subst hl
        exact (hq cmd.symbol _).shrunk ((fill_consumed _ _ _).shrunk ((m.queues_wf _).pos _))

/-- **A cancel keeps the queues ranked.** -/
theorem cancel_queued {cmd : OrderCancelCommand} {r : Except Failure Result} (hq : m.Queued)
    (ho : CancelOutcome cmd m r m') : m'.Queued := by
  have hbook : ∀ {order : Order}, (∀ s, s ≠ order.market → m'.queues s = m.queues s) →
      m'.queues order.market = (m.queues order.market).cancel order.id → m'.Queued := by
    intro order hne heq
    refine hq.of_book hne fun side => ?_
    rw [heq, Book.queue_cancel]
    exact (hq order.market side).sublist List.filter_sublist
  cases ho with
  | unread e n hn hf hsame => exact hq.of_queues hsame.queues
  | skipped r hsame why => exact hq.of_queues hsame.queues
  | aborted e market order hf ho hm live hdb h => exact hbook h.queues_ne h.queues_eq
  | committed market order ho hm live h => exact hbook h.queues_ne h.queues_eq

theorem step_queued (h : Agrees c m) (hq : m.Queued) {l : Step} (hl : l.Clean c m)
    (hin : l.InOrder c m) : (m.step l).Queued := by
  by_cases hd : ∃ cmd faults, l = .deliver cmd faults
  · obtain ⟨cmd, faults, rfl⟩ := hd
    change (m.deliver cmd faults).Queued
    have h₀ := h.of_same (m.same_withFaults faults)
    have hq₀ : (m.withFaults faults).Queued := hq
    rcases deliver_eq m cmd faults with ⟨hcmd, e⟩ | ⟨hcmd, r, m₁, hd, e⟩
    · rwa [e]
    · rw [e]
      refine Matcher.Queued.of_queues ?_ (m₁.same_withFaults none).queues
      cases cmd with
      | SUBMIT cmd =>
        refine submit_queued h₀ hq₀ hcmd (dispatch_submit_of_sound h₀.sound hd) ?_ (hin hcmd)
        rintro e rfl
        exact (hl e m₁ hd).1
      | CANCEL cmd => exact cancel_queued hq₀ (dispatch_cancel hd)
  by_cases hr : l = .restart
  · subst hr
    exact fun symbol side => ((restart_perm h.safe (h.restsWhole hl)).2 symbol side).2
  · obtain ⟨-, hbooks⟩ := step_effect m l.adjusts_any (fun cmd faults e => hd ⟨cmd, faults, e⟩) hr
    exact hq.of_queues fun symbol => Matcher.queues_congr hbooks symbol

/-- **In a failure-free run that delivers in order, every queue is sorted** by price, and by id
within a price. -/
theorem run_queued (h : m.Initial) {steps : List Step} (hf : FailureFree [] m steps)
    (hin : m.InOrder steps) : (m.run steps).Queued := by
  induction steps using List.reverseRecOn with
  | nil =>
    intro symbol side
    rw [Matcher.run_nil, h.queues, Book.queue_empty]
    exact List.Pairwise.nil
  | append_singleton steps l ih =>
    obtain ⟨hf₀, hl, -⟩ := failureFree_append.mp hf
    obtain ⟨hin₀, hinl⟩ := justified_concat.mp hin
    rw [Matcher.run_append]
    exact step_queued (run_agrees (initial_agrees h) hf₀) (ih hf₀ hin₀) hl hinl

/-! ## Priority -/

/-- The order `x` comes before `y`: its price is better, or the same and it was placed before. -/
def Order.Precedes (x y : Order) : Prop :=
  ∃ p q, x.price = some p ∧ y.price = some q ∧
    (before (sideToEngine x.side) p q = true ∨ p = q ∧ x.id < y.id)

/-- **A committed submit passes over nobody**: the makers of its trades precede what is left of
their queue. -/
theorem Settler.Submitted.precedes {market : Market} {order : Order} {cmd : OrderSubmitCommand}
    {fs : List (Fill ℕ ℚ ℚ)} {finish : Order → Order} {release : List Posting} {q : Queues}
    {rest : List (Resting ℕ ℚ ℚ)} (hsub : Submitted market order cmd fs finish release q m m')
    (hc : Crossing m cmd.symbol order finish fs rest)
    (hopp : q.queue (sideToEngine order.side).opp = rest) (h : Agrees c m) (hq : m.Queued)
    {c' : List ℕ} (h' : Agrees c' m') {t : Trade} (ht : t ∈ m'.db.trades)
    (hnew : t ∉ m.db.trades) {x y : Order} (hx : m'.db.order? t.makerOrderId = some x)
    (hy : y ∈ m'.db.orders) (hlimit : y.type = .LIMIT) (hlive : y.active = true) (hyc : y.id ∈ c')
    (hm : y.market = x.market) (hside : y.side = x.side) (hne : y.id ≠ x.id) : x.Precedes y := by
  obtain ⟨rows, db₁, hset, -, htrades, -⟩ := hsub.settled
  rw [htrades, hset.trades, List.mem_append] at ht
  obtain ⟨t', ht', maker, hmaker, hrec⟩ := hset.records t (ht.resolve_left hnew)
  obtain ⟨f, hf, rfl⟩ := List.mem_map.mp ht'
  obtain ⟨maker', hmakes⟩ := h.safe.backed.makes tracks_le hc.consumed hf
  obtain rfl : maker' = maker := Option.some.inj (hmakes.row.symm.trans hmaker)
  -- the row of the maker, before and after
  rw [hrec.makerOrderId] at hx
  obtain ⟨x₀, hx₀, hfix, -⟩ := hsub.exists_row hc h.sound tracks_le h.safe.backed hx
  obtain rfl : x₀ = maker' := Option.some.inj (hx₀.symm.trans hmakes.row)
  have hid : x.id = f.id := Db.order?_id hx
  have hxside : sideToEngine x.side = (sideToEngine order.side).opp := by
    rw [hfix.side, hmakes.side]
  -- the other order is in what is left of the queue
  have hyrest : y.atRest ∈ rest := by
    have hmem := h'.mem_queue.mpr ⟨y, hy, hlimit, hlive, hyc, rfl, rfl, rfl⟩
    rwa [hm, hfix.market, hmakes.market, hsub.queues_eq, hside, hxside, hopp] at hmem
  obtain ⟨p, hp, -⟩ := (h'.sound.rows _ _ (h'.sound.order?_of_mem hy)).limit hlimit
  have hprice : y.atRest.price = p := by
    unfold Order.atRest
    rw [hp]
    rfl
  rcases hc.consumed.ahead (hq cmd.symbol _) ((m.queues_wf _).pos _) hf hyrest with he | hahead
  · exact absurd (he.trans hid.symm) hne
  · refine ⟨f.price, p, hfix.price.trans hmakes.price, hp, ?_⟩
    unfold Ahead at hahead
    rw [hxside, hid]
    rwa [hprice] at hahead

/-- **Price-time priority.** In a failure-free run that delivers in order, whoever a step trades
with precedes all other live orders of its side of the market whose `SUBMIT` was consumed: no trade
passes over a better price, or over an order of the same price that was placed before. -/
theorem price_time_priority (h : m.Initial) (steps : List Step) (l : Step)
    (hf : FailureFree [] m (steps ++ [l])) (hin : m.InOrder (steps ++ [l])) {t : Trade}
    (ht : t ∈ (m.run (steps ++ [l])).db.trades) (hnew : t ∉ (m.run steps).db.trades) {x y : Order}
    (hx : (m.run (steps ++ [l])).db.order? t.makerOrderId = some x)
    (hy : y ∈ (m.run (steps ++ [l])).db.orders) (hlimit : y.type = .LIMIT)
    (hlive : y.active = true) (hyc : y.id ∈ m.consumed [] (steps ++ [l]))
    (hm : y.market = x.market) (hside : y.side = x.side) (hne : y.id ≠ x.id) : x.Precedes y := by
  obtain ⟨hf₀, -⟩ := failureFree_append.mp hf
  obtain ⟨hin₀, -⟩ := justified_concat.mp hin
  have h₀ := run_agrees (initial_agrees h) hf₀
  have h₁ := run_agrees (initial_agrees h) hf
  have hq₀ := run_queued h hf₀ hin₀
  rw [Matcher.run_append] at ht hx hy h₁
  change t ∈ ((m.run steps).step l).db.trades at ht
  change ((m.run steps).step l).db.order? _ = some x at hx
  change y ∈ ((m.run steps).step l).db.orders at hy
  change Agrees _ ((m.run steps).step l) at h₁
  by_cases hd : ∃ cmd faults, l = .deliver cmd faults
  · obtain ⟨cmd, faults, rfl⟩ := hd
    change t ∈ ((m.run steps).deliver cmd faults).db.trades at ht
    change ((m.run steps).deliver cmd faults).db.order? _ = some x at hx
    change y ∈ ((m.run steps).deliver cmd faults).db.orders at hy
    change Agrees _ ((m.run steps).deliver cmd faults) at h₁
    rcases deliver_eq (m.run steps) cmd faults with ⟨-, e⟩ | ⟨hcmd, r, m₁, hd, e⟩
    · rw [e] at ht
      exact absurd ht hnew
    rw [e] at ht hx hy h₁
    have hs := h₀.of_same ((m.run steps).same_withFaults faults)
    have hs₁ : Agrees _ m₁ := h₁.of_same ((m₁.withFaults none).same_withFaults m₁.store.faults)
    have hq : ((m.run steps).withFaults faults).Queued := hq₀
    cases cmd with
    | CANCEL cmd =>
      rcases (dispatch_cancel hd).unchanged_or with hdb | ⟨_, _, _, _, _, hcan⟩
      · exact absurd (congrArg Db.trades hdb ▸ ht) hnew
      · exact absurd (hcan.trades ▸ ht) hnew
    | SUBMIT cmd =>
      have ho := dispatch_submit_of_sound hs.sound hd
      rcases ho.unchanged_or with hdb | rfl
      · exact absurd (congrArg Db.trades hdb ▸ ht) hnew
      cases ho with
      | committedLimit market order price hb htype hp hfree hsub =>
        exact hsub.precedes (crossing_limit price hs.sound hcmd hb htype hfree)
          (Book.queue_opp_add _ _ _ _ _) hs hq hs₁ ht hnew hx hy hlimit hlive hyc hm hside hne
      | committedMarket market order l hb htype hl hsub =>
        exact hsub.precedes (crossing_market hs.sound hs.backed hcmd hb htype hl)
          (Book.queue_set_self _ _ _) hs hq hs₁ ht hnew hx hy hlimit hlive hyc hm hside hne
  · by_cases hr : l = .restart
    · subst hr
      exact absurd ht hnew
    · have htrades := (step_effect (m.run steps) l.adjusts_any
        (fun cmd faults e => hd ⟨cmd, faults, e⟩) hr).1.trades
      exact absurd (htrades ▸ ht) hnew

namespace Sample

/-- `bob` asks 101, then twice 100, and the matcher is restarted. -/
def queueing : List Step :=
  [.submit "bob" (limit .ASK 101 1) none, .deliver (submitted 0 1 "bob" (limit .ASK 101 1)) none,
    .submit "bob" (limit .ASK 100 1) none, .deliver (submitted 3 2 "bob" (limit .ASK 100 1)) none,
    .submit "bob" (limit .ASK 100 1) none, .deliver (submitted 6 3 "bob" (limit .ASK 100 1)) none,
    .restart, .submit "alice" (limit .BID 110 1) none]

/-- `alice` buys one. -/
def buysOne : Step := .deliver (submitted 9 4 "alice" (limit .BID 110 1)) none

/-- The second order at 100. -/
def waiting : Order :=
  ⟨3, "bob", "BTC-USDT", .ASK, .LIMIT, some 100, 1, 1, 0, .OPEN, some ⟨6⟩⟩

theorem queueing_failureFree : FailureFree [] exchange (queueing ++ [buysOne]) := by
  have hnone : ∀ x ∈ (exchange.run (queueing.take 6)).db.commands,
      x.orderId ∈ exchange.consumed [] (queueing.take 6) := by decide +kernel
  exact ⟨trivial, Step.clean_of_ok (r := .ok) (by decide +kernel), trivial,
    Step.clean_of_ok (r := .ok) (by decide +kernel), trivial,
    Step.clean_of_ok (r := .ok) (by decide +kernel), fun cmd hcmd => hnone _ hcmd, trivial,
    Step.clean_of_ok (r := .ok) (by decide +kernel), trivial⟩

end Sample

/-- The better price goes first, and of two orders at one price the older one. -/
theorem price_time_priority_queueing : Sample.exchange.Initial ∧
    (Sample.exchange.run (Sample.queueing ++ [Sample.buysOne])).db.trades.map (·.makerOrderId) =
      [2] ∧
    ∀ t ∈ (Sample.exchange.run (Sample.queueing ++ [Sample.buysOne])).db.trades, ∀ x,
      (Sample.exchange.run (Sample.queueing ++ [Sample.buysOne])).db.order? t.makerOrderId =
        some x → x.Precedes Sample.waiting := by
  refine ⟨Sample.exchange_initial, by decide +kernel, fun t ht x hx => ?_⟩
  have hmaker : ∀ t ∈ (Sample.exchange.run (Sample.queueing ++ [Sample.buysOne])).db.trades,
      t.makerOrderId = 2 ∧ t ∉ (Sample.exchange.run Sample.queueing).db.trades := by decide +kernel
  obtain ⟨h2, hnew⟩ := hmaker t ht
  have hid := Db.order?_id hx
  rw [h2] at hid
  have hrow : ∀ o ∈ (Sample.exchange.run (Sample.queueing ++ [Sample.buysOne])).db.orders,
      o.id = 2 → o.market = "BTC-USDT" ∧ o.side = .ASK := by decide +kernel
  obtain ⟨hm, hside⟩ := hrow x (Db.mem_of_order? hx) hid
  refine price_time_priority Sample.exchange_initial Sample.queueing Sample.buysOne
    Sample.queueing_failureFree (by decide +kernel) ht hnew hx (by decide +kernel) rfl rfl
    (by decide +kernel) hm.symm hside.symm ?_
  rw [hid]
  decide

/-- **The live book is never crossed**: in a failure-free run a live `BID` of the table whose
`SUBMIT` was consumed is priced below every live `ASK` of its market. -/
theorem never_crossed (h : m.Initial) (steps : List Step) (hf : FailureFree [] m steps)
    {x y : Order} (hx : x ∈ (m.run steps).db.orders) (hy : y ∈ (m.run steps).db.orders)
    (hm : y.market = x.market) (hxside : x.side = .BID) (hyside : y.side = .ASK)
    (hlimit : x.type = .LIMIT ∧ y.type = .LIMIT) (hlive : x.active = true ∧ y.active = true)
    (hc : x.id ∈ m.consumed [] steps ∧ y.id ∈ m.consumed [] steps) :
    ∃ p q, x.price = some p ∧ y.price = some q ∧ p < q := by
  have hagrees := run_agrees (initial_agrees h) hf
  obtain ⟨p, hp, -⟩ := (hagrees.sound.rows _ _ (hagrees.sound.order?_of_mem hx)).limit hlimit.1
  obtain ⟨q, hq, -⟩ := (hagrees.sound.rows _ _ (hagrees.sound.order?_of_mem hy)).limit hlimit.2
  refine ⟨p, q, hp, hq, ?_⟩
  have hbid : x.atRest ∈ ((m.run steps).queues x.market).queue .bid :=
    hagrees.mem_queue.mpr ⟨x, hx, hlimit.1, hlive.1, hc.1, rfl, by rw [hxside]; rfl, rfl⟩
  have hask : y.atRest ∈ ((m.run steps).queues x.market).queue .ask :=
    hagrees.mem_queue.mpr ⟨y, hy, hlimit.2, hlive.2, hc.2, hm, by rw [hyside]; rfl, rfl⟩
  have huncrossed := ((m.run steps).queues_wf x.market).uncrossed .bid _ hbid _ hask
  simpa [Order.atRest, hp, hq, crosses] using huncrossed

namespace Sample

/-- `alice` bids 90 for what `bob` asks 100. -/
def bidding : List Step :=
  trading ++ [.submit "alice" (limit .BID 90 1) none,
    .deliver (submitted 6 3 "alice" (limit .BID 90 1)) none]

def lowBid : Order := ⟨3, "alice", "BTC-USDT", .BID, .LIMIT, some 90, 1, 1, 0, .OPEN, some ⟨6⟩⟩

def restingAsk : Order :=
  ⟨1, "bob", "BTC-USDT", .ASK, .LIMIT, some 100, 2, 1, 1, .PARTIAL, some ⟨0⟩⟩

theorem bidding_failureFree : FailureFree [] exchange bidding :=
  failureFree_append.mpr ⟨trading_failureFree, trivial,
    Step.clean_of_ok (r := .ok) (by decide +kernel), trivial⟩

end Sample

theorem never_crossed_bidding : FailureFree [] Sample.exchange Sample.bidding ∧
    ∃ p q, Sample.lowBid.price = some p ∧ Sample.restingAsk.price = some q ∧ p < q :=
  ⟨Sample.bidding_failureFree, never_crossed Sample.exchange_initial Sample.bidding
    Sample.bidding_failureFree (by decide +kernel) (by decide +kernel) rfl rfl rfl ⟨rfl, rfl⟩
    ⟨rfl, rfl⟩ (by decide +kernel)⟩

/-- **Restarts are transparent** in a failure-free run that delivers in order: they leave the
trades, the order rows and the wallets of the run without them. -/
theorem inOrder_transparent (h : m.Initial) (steps : List Step) (hf : FailureFree [] m steps)
    (hin : m.InOrder steps) : m.Transparent steps := by
  have hsteps : m.RestartsInStep steps := by
    rintro before l after rfl rfl
    obtain ⟨hf₀, hclean, -⟩ := failureFree_append.mp hf
    exact ⟨(run_agrees (initial_agrees h) hf₀).restsWhole hclean,
      run_queued h hf₀ (justified_append.mp hin).1⟩
  have htwin := (run_twin h hsteps).store
  exact ⟨htwin.exchanged, htwin.orders, htwin.wallets⟩

theorem inOrder_transparent_queueing : Sample.exchange.Initial ∧
    Step.restart ∈ Sample.queueing ++ [Sample.buysOne] ∧
    Sample.exchange.Transparent (Sample.queueing ++ [Sample.buysOne]) :=
  ⟨Sample.exchange_initial, by decide, inOrder_transparent Sample.exchange_initial _
    Sample.queueing_failureFree (by decide +kernel)⟩

end Orbit
