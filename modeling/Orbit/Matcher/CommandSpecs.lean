import Orbit.Matcher.Consumer
import Orbit.Matcher.SettleSpecs

/-!
# What a command does

`dispatch_submit` and `dispatch_cancel` say everything that handling one command can do: nothing, a
transaction that committed, or one that failed and left its marks on the book.

* A committed `SUBMIT` is `Submitted`: the trades of one crossing settled, the taker's row finished,
  and the book after it (`submitBody_limit_eq_ok`, `submitBody_market_eq_ok`).
* A committed `CANCEL` is `Cancelled`: the reservation released, the row cancelled, and the order
  gone from the book.
* A failed transaction restores the tables and leaves the book where the body got to
  (`submitBody_limit_snd`, `submitBody_market_snd`, `cancelBody_snd`).
-/

namespace Orbit

open PriceTime

namespace Settler

open Tx

variable {E : Engine}

/-! ## Transactions -/

/-- What a transaction does: it does not begin, or its body runs, and then the tables are restored
or everything is kept. -/
theorem transaction_cases {α : Type} {x : Act E α} {m m' : Matcher E} {r : Except Failure α}
    (h : transaction x m = (r, m')) :
    (m.store.faults = some 0 ∧ r = .error .fault ∧ m' = m) ∨
    (m.store.faults ≠ some 0 ∧
      ((∃ e, r = .error e ∧
        m' = m.rollback (x (m.withFaults (m.store.faults.map Nat.pred))).2) ∨
      ∃ a m₁ f, r = .ok a ∧ x (m.withFaults (m.store.faults.map Nat.pred)) = (.ok a, m₁) ∧
        m' = m₁.withFaults f)) := by
  by_cases hf : m.store.faults = some 0
  · refine Or.inl ⟨hf, ?_⟩
    have hbegin : onStore (E := E) Stm.stmt m = (.error .fault, m) := by
      simp [onStore, Tx.zoom, Stm.stmt_apply_error hf]
    rw [transaction, Tx.transaction_apply_error (Tx.bind_apply_error hbegin _), Prod.mk.injEq] at h
    exact ⟨h.1.symm, h.2.symm⟩
  refine Or.inr ⟨hf, ?_⟩
  have hbegin : onStore (E := E) Stm.stmt m =
      (.ok (), m.withFaults (m.store.faults.map Nat.pred)) := by
    simp [onStore, Tx.zoom, Stm.stmt_apply_ok hf, Matcher.withFaults]
  rcases hx : x (m.withFaults (m.store.faults.map Nat.pred)) with ⟨e | a, m₁⟩
  · rw [transaction, Tx.transaction_apply_error
      ((Tx.bind_apply_ok hbegin _).trans (Tx.bind_apply_error hx _)), Prod.mk.injEq] at h
    exact Or.inl ⟨e, h.1.symm, h.2.symm⟩
  by_cases hc : m₁.store.faults = some 0
  · have hcommit : onStore (E := E) Stm.stmt m₁ = (.error .fault, m₁) := by
      simp [onStore, Tx.zoom, Stm.stmt_apply_error hc]
    rw [transaction, Tx.transaction_apply_error ((Tx.bind_apply_ok hbegin _).trans
      ((Tx.bind_apply_ok hx _).trans (Tx.bind_apply_error hcommit _))), Prod.mk.injEq] at h
    exact Or.inl ⟨.fault, h.1.symm, h.2.symm⟩
  · have hcommit : onStore (E := E) Stm.stmt m₁ =
        (.ok (), m₁.withFaults (m₁.store.faults.map Nat.pred)) := by
      simp [onStore, Tx.zoom, Stm.stmt_apply_ok hc, Matcher.withFaults]
    have hok : transaction x m = (.ok a, m₁.withFaults (m₁.store.faults.map Nat.pred)) :=
      Tx.transaction_eq_ok.mpr ((Tx.bind_apply_ok hbegin _).trans
        ((Tx.bind_apply_ok hx _).trans (Tx.bind_apply_ok hcommit _)))
    rw [hok, Prod.mk.injEq] at h
    exact Or.inr ⟨a, m₁, _, h.1.symm, rfl, h.2.symm⟩

/-! ## The bodies, when they return -/

/-- **A committed `SUBMIT`**: the trades `fs` were settled, the taker's row was finished by `finish`
and its account by `release`, and the market's book is `q`. -/
structure Submitted (market : Market) (order : Order) (cmd : OrderSubmitCommand)
    (fs : List (Fill ℕ ℚ ℚ)) (finish : Order → Order) (release : List Posting) (q : Queues)
    (m m' : Matcher E) : Prop where
  framed : m.store.Framed m'.store
  settled : ∃ rows db₁, Settles market order
      ⟨feeRate market.makerFeeBp, feeRate market.takerFeeBp⟩ cmd.commandId 0 m.db
      (fs.map .ofFill) rows db₁ ∧
    m'.db.orders = Table.modify order.id finish db₁.orders ∧ m'.db.trades = db₁.trades ∧
    Posted db₁ m'.db release
  queues_eq : m'.queues cmd.symbol = q
  queues_ne : ∀ s, s ≠ cmd.symbol → m'.queues s = m.queues s

/-- The row of a `MARKET` order after its sweep. -/
def marketAfter (order : Order) (remaining : ℚ) (o : Order) : Order :=
  if 0 < remaining then residualAfter order remaining (orderAfterMatch remaining order.quantity o)
  else orderAfterMatch remaining order.quantity o

/-- The refund of a `MARKET` `ASK` that was not filled whole. -/
def residualPostings (market : Market) (order : Order) (remaining : ℚ) : List Posting :=
  if 0 < remaining ∧ order.side = .ASK then
    [⟨order.userId, market.baseAsset, remaining, -remaining⟩]
  else []

/-- The crossing that a `MARKET` order of quantity `q` makes of the opposite queue: no more than
what the levels of the snapshot hold, at any price. -/
def sweepFill (q : ℚ) (l : List (Resting ℕ ℚ ℚ)) : Filled ℕ ℚ ℚ :=
  fill (fun _ => true) (min q (depth bookLimit l)) l

/-- What the sweep leaves unmatched. -/
def sweepRemaining (q : ℚ) (l : List (Resting ℕ ℚ ℚ)) : ℚ := q - min q (depth bookLimit l)

section Bodies

variable {market : Market} {order : Order} {cmd : OrderSubmitCommand} {m m' : Matcher E}

/-- The levels that a sweep goes through are those of the opposite queue. -/
theorem getOrderbook_levels (m : Matcher E) (symbol : String) (side : OrderSide) :
    oppositeLevels side (E.getOrderbook (m.book symbol)) =
      ((levels ((m.queues symbol).queue (sideToEngine side).opp)).take bookLimit).map
        fun v => ⟨v.price, v.qty⟩ := by
  rw [E.getOrderbook_eq]
  cases side <;> rfl

theorem orderAfterMatch_id (l q : ℚ) (o : Order) : (orderAfterMatch l q o).id = o.id := rfl

/-- What `executeMarketOrder` does after the sweep. -/
theorem finishMarket_eq_ok {remaining : ℚ} {s s₁ s' : Store} {o : Order}
    (h₁ : updateOrderAfterMatch order.id remaining order.quantity s = (.ok o, s₁))
    (h₂ : (0 < remaining → settleResidual market order remaining s₁ = (.ok (), s')) ∧
      (¬0 < remaining → s' = s₁)) :
    s'.db.orders = Table.modify order.id (marketAfter order remaining) s.db.orders ∧
    s'.db.trades = s.db.trades ∧
    Posted s.db s'.db (residualPostings market order remaining) := by
  obtain ⟨-, ho₁, ht₁, hp₁⟩ := Stm.orderUpdate_tables (orderAfterMatch_id _ _) h₁
  by_cases h0 : 0 < remaining
  · have hfun : marketAfter order remaining =
        residualAfter order remaining ∘ orderAfterMatch remaining order.quantity := by
      funext o
      simp only [marketAfter, if_pos h0, Function.comp]
    have hres := h₂.1 h0
    rw [hfun, ← Table.modify_modify (f := orderAfterMatch remaining order.quantity)
      (orderAfterMatch_id _ _), ← ho₁, residualPostings]
    by_cases hside : order.side = .ASK
    · simp only [settleResidual, hside, if_true] at hres
      obtain ⟨_, s₂, hu, hres⟩ := Tx.bind_eq_ok.mp hres
      have hmoved := Stm.walletUpdate_eq_ok hu
      obtain ⟨_, s₃, ho, hres⟩ := Tx.bind_eq_ok.mp hres
      obtain ⟨-, ho₃, ht₃, hp₃⟩ := Stm.orderUpdate_tables (by intro o; rfl) ho
      obtain ⟨-, rfl⟩ := Tx.pure_eq_ok.mp hres
      rw [if_pos ⟨h0, hside⟩, ho₃, hmoved.orders, ht₃, hmoved.trades, ht₁]
      exact ⟨rfl, rfl, by simpa using (hp₁.trans hmoved.posted).trans hp₃⟩
    · simp only [settleResidual, hside, if_false] at hres
      obtain ⟨_, s₃, ho, hres⟩ := Tx.bind_eq_ok.mp hres
      obtain ⟨-, ho₃, ht₃, hp₃⟩ := Stm.orderUpdate_tables (by intro o; rfl) ho
      obtain ⟨-, rfl⟩ := Tx.pure_eq_ok.mp hres
      rw [if_neg fun h => hside h.2, ho₃, ht₃, ht₁]
      exact ⟨rfl, rfl, by simpa using hp₁.trans hp₃⟩
  · obtain rfl := h₂.2 h0
    have hfun : marketAfter order remaining = orderAfterMatch remaining order.quantity := by
      funext o
      simp only [marketAfter, if_neg h0]
    rw [residualPostings, if_neg fun h => h0 h.1, hfun]
    exact ⟨ho₁, ht₁, hp₁⟩

/-- After the matching a submit only reads the order and publishes. -/
theorem submitBody_eq_ok {r : Order × List Trade}
    (h : submitBody market order cmd m = (.ok r, m')) :
    ∃ rows m₁, matchSubmit market order cmd
      ⟨feeRate market.makerFeeBp, feeRate market.takerFeeBp⟩ m = (.ok rows, m₁) ∧
      Emitted m₁ m' := by
  obtain ⟨rows, m₁, h₁, h⟩ := Tx.bind_eq_ok.mp h
  refine ⟨rows, m₁, h₁, Keeps.of_eq ?_ h⟩
  exact (emits_onStore (Stm.emits_orderFindOrThrow _)).bind fun _ =>
    (emits_publishSubmitEvents _ _ _).bind fun _ => .pure _

/-- A committed `LIMIT` submit crosses the book once and rests with what is left. -/
theorem submitBody_limit_eq_ok (ht : order.type = .LIMIT) (h0 : 0 < order.leaveQty)
    {r : Order × List Trade} (h : submitBody market order cmd m = (.ok r, m')) :
    ∃ price, order.price = some price ∧ order.id ∉ (m.queues cmd.symbol).ids ∧
      Submitted market order cmd
        ((m.queues cmd.symbol).add order.id (sideToEngine order.side) price order.leaveQty).fills
        (orderAfterMatch ((m.queues cmd.symbol).add order.id (sideToEngine order.side) price
          order.leaveQty).leave order.quantity) []
        ((m.queues cmd.symbol).add order.id (sideToEngine order.side) price order.leaveQty).book
        m m' := by
  obtain ⟨rows, m₄, hmatch, hemit⟩ := submitBody_eq_ok h
  cases hp : order.price with
  | none => simp [matchSubmit_priceless ht hp] at hmatch
  | some price =>
    rw [matchSubmit_limit ht hp] at hmatch
    by_cases hid : order.id ∈ (m.queues cmd.symbol).ids
    · obtain ⟨msg, hadd⟩ := bookAdd_resting m cmd.symbol (sideToEngine order.side) price hid
        order.leaveQty
      rw [Tx.bind_apply_error hadd] at hmatch
      cases hmatch
    refine ⟨price, rfl, hid, ?_⟩
    obtain ⟨b, hb, hadd⟩ := bookAdd_new m cmd.symbol (sideToEngine order.side) price hid h0
    rw [Tx.bind_apply_ok hadd] at hmatch
    obtain ⟨rows', m₁, h₁, hmatch⟩ := Tx.bind_eq_ok.mp hmatch
    have hquiet := (quiet_settleTrades market order _ cmd.commandId 0 _).of_eq h₁
    obtain ⟨o, m₂, h₂, hmatch⟩ := Tx.bind_eq_ok.mp hmatch
    have hquiet₂ := (quiet_onStore (frames_updateOrderAfterMatch _ _ _)).of_eq h₂
    obtain ⟨s₂, hupdate, hm₂⟩ := onStore_eq_ok h₂
    obtain ⟨-, horders, htrades, hposted⟩ := Stm.orderUpdate_tables (orderAfterMatch_id _ _) hupdate
    obtain ⟨rfl, rfl⟩ := Tx.pure_eq_ok.mp hmatch
    have hquiet₄ := (hquiet.trans hquiet₂).trans hemit.unbooked
    refine ⟨hquiet₄.framed, ⟨rows', m₁.db, by simpa using settleTrades_eq_ok h₁, ?_, ?_, ?_⟩,
      ?_, ?_⟩
    · exact hemit.emitted.orders.trans (by rw [hm₂]; exact horders)
    · exact hemit.emitted.trades.trans (by rw [hm₂]; exact htrades)
    · refine Posted.of_wallets ?_ hemit.emitted.wallets
      rw [hm₂]
      exact hposted
    · rw [Matcher.queues_congr hquiet₄.books, Matcher.queues_setBook_self, hb]
    · intro s hs
      rw [Matcher.queues_congr hquiet₄.books, Matcher.queues_setBook_ne m hs]

/-- **A committed `MARKET` submit** is one crossing of the opposite side, at any price, with no more
than what the levels of the snapshot hold. -/
theorem submitBody_market_eq_ok (ht : order.type = .MARKET) (h0 : 0 < order.quantity)
    {r : Order × List Trade} (h : submitBody market order cmd m = (.ok r, m'))
    {l : List (Resting ℕ ℚ ℚ)}
    (hl : (m.queues cmd.symbol).queue (sideToEngine order.side).opp = l) :
    Submitted market order cmd (sweepFill order.quantity l).fills
      (marketAfter order (sweepRemaining order.quantity l))
      (residualPostings market order (sweepRemaining order.quantity l))
      ((m.queues cmd.symbol).set (sideToEngine order.side).opp (sweepFill order.quantity l).rest)
      m m' := by
  obtain ⟨rows, m₄, hmatch, hemit⟩ := submitBody_eq_ok h
  rw [matchSubmit_market ht, executeMarketOrder_eq] at hmatch
  obtain ⟨snapshot, m₀, hsnap, hmatch⟩ := Tx.bind_eq_ok.mp hmatch
  simp only [getOrderbook, Prod.mk.injEq, Except.ok.injEq] at hsnap
  obtain ⟨rfl, rfl⟩ := hsnap
  rw [getOrderbook_levels, hl] at hmatch
  obtain ⟨⟨collected, remaining⟩, m₁, h₁, hmatch⟩ := Tx.bind_eq_ok.mp hmatch
  obtain ⟨o, m₂, h₂, hmatch⟩ := Tx.bind_eq_ok.mp hmatch
  -- the sweep, as one crossing of the whole queue
  obtain ⟨front, back, hsplit, hG, hdepth⟩ := exists_front_of_depth bookLimit l
  have hpos : ∀ r ∈ front, 0 < r.qty := fun r hr =>
    (m.queues_wf cmd.symbol).pos (sideToEngine order.side).opp r (by rw [hl, hsplit]; simp [hr])
  obtain ⟨hrest, hsettles, hne, heq⟩ := sweepLevels_eq_ok hG h0.le (hl.trans hsplit) h₁
  obtain ⟨efills, erest, eleave⟩ := fill_front hpos h0.le back
  rw [← hsplit, hdepth] at efills erest
  rw [hdepth] at eleave
  have hremaining : remaining = sweepRemaining order.quantity l := hrest.trans eleave
  rw [erest] at heq
  rw [efills] at hsettles
  -- the row and the account of the order
  have hquiet₂ := (quiet_onStore (frames_updateOrderAfterMatch _ _ _)).of_eq h₂
  obtain ⟨s₂, hupdate, hm₂⟩ := onStore_eq_ok h₂
  have hfinish : ∃ s', (0 < remaining → settleResidual market order remaining s₂ = (.ok (), s')) ∧
      (¬0 < remaining → s' = s₂) ∧ m₄ = { m₂ with store := s' } := by
    by_cases hrem : 0 < remaining
    · simp only [hrem, if_true] at hmatch
      obtain ⟨_, m₃, h₃, hmatch⟩ := Tx.bind_eq_ok.mp hmatch
      obtain ⟨s₃, hres, rfl⟩ := onStore_eq_ok h₃
      obtain ⟨-, rfl⟩ := Tx.pure_eq_ok.mp hmatch
      rw [hm₂] at hres
      exact ⟨s₃, fun _ => hres, fun hn => absurd hrem hn, rfl⟩
    · simp only [hrem, if_false] at hmatch
      obtain ⟨-, rfl⟩ := Tx.pure_eq_ok.mp hmatch
      exact ⟨s₂, fun hp => absurd hp hrem, fun _ => rfl, by rw [hm₂]⟩
  obtain ⟨s', hres, hnres, rfl⟩ := hfinish
  obtain ⟨horders, htrades, hposted⟩ := finishMarket_eq_ok hupdate ⟨hres, hnres⟩
  have hquiet₄ : Unbooked m₂ { m₂ with store := s' } := by
    refine ⟨?_, rfl⟩
    by_cases hrem : 0 < remaining
    · rw [hm₂]
      exact (frames_settleResidual market order remaining).of_eq (hres hrem)
    · rw [hnres hrem, hm₂]
      exact .refl _
  rw [hremaining] at horders hposted
  have hquiet := (hquiet₂.trans hquiet₄).trans hemit.unbooked
  refine ⟨?_, ⟨collected, m₁.db, hsettles, ?_, ?_, ?_⟩, ?_, ?_⟩
  · have hm₁ : _ = m₁ := congrArg Prod.snd h₁
    refine Store.Framed.trans ?_ hquiet.framed
    rw [← hm₁]
    exact (sweepLevels_swept hG (hl.trans hsplit)).framed
  · exact hemit.emitted.orders.trans horders
  · exact hemit.emitted.trades.trans htrades
  · have := hposted.trans hemit.posted
    rwa [List.append_nil] at this
  · rw [Matcher.queues_congr hquiet.books, heq]
    rfl
  · intro s hs
    rw [Matcher.queues_congr hquiet.books, hne s hs]

/-- What `releaseReservation` gives back. -/
def releasePostings (market : Market) (order : Order) : List Posting :=
  if 0 < order.leaveQty then
    match order.side, order.price with
    | .BID, some price => [⟨order.userId, market.quoteAsset, price * order.leaveQty,
        -(price * order.leaveQty)⟩]
    | .BID, none => []
    | .ASK, _ => [⟨order.userId, market.baseAsset, order.leaveQty, -order.leaveQty⟩]
  else []

theorem releaseReservation_eq_ok {s s' : Store} {u : Unit}
    (h : releaseReservation market order s = (.ok u, s')) :
    Stm.Moved s s' (releasePostings market order) := by
  unfold releaseReservation at h
  unfold releasePostings
  have hnil : ∀ {s s' : Store}, (pure () : Stm Unit) s = (.ok u, s') → Stm.Moved s s' [] := by
    intro s s' h
    obtain ⟨-, rfl⟩ := Tx.pure_eq_ok.mp h
    exact ⟨rfl, rfl, rfl, Posted.refl_of_wallets rfl⟩
  split at h
  · rename_i h0
    rw [if_pos h0]
    cases hs : order.side <;> cases hp : order.price <;> simp only [hs, hp] at h
    · exact hnil h
    · exact Stm.walletUpdate_eq_ok h
    · exact Stm.walletUpdate_eq_ok h
    · exact Stm.walletUpdate_eq_ok h
  · rename_i h0
    rw [if_neg h0]
    exact hnil h

/-- **A committed `CANCEL`**: the reservation was released, the row is cancelled, and the order is
gone from the book. -/
structure Cancelled (market : Market) (order : Order) (m m' : Matcher E) : Prop where
  framed : m.store.Framed m'.store
  orders : m'.db.orders =
    Table.modify order.id (fun o => { o with status := .CANCELLED }) m.db.orders
  trades : m'.db.trades = m.db.trades
  posted : Posted m.db m'.db (releasePostings market order)
  queues_eq : m'.queues order.market = (m.queues order.market).cancel order.id
  queues_ne : ∀ s, s ≠ order.market → m'.queues s = m.queues s

/-- The book of one market is `q`, the others are as before, and so is the frame of the store. -/
structure Rebooked (symbol : String) (q : Queues) (m m' : Matcher E) : Prop where
  framed : m.store.Framed m'.store
  queues_eq : m'.queues symbol = q
  queues_ne : ∀ s, s ≠ symbol → m'.queues s = m.queues s

theorem Rebooked.unbooked {symbol : String} {q : Queues} {m₁ m₂ m₃ : Matcher E}
    (h : Rebooked symbol q m₁ m₂) (h' : Unbooked m₂ m₃) : Rebooked symbol q m₁ m₃ where
  framed := h.framed.trans h'.framed
  queues_eq := (Matcher.queues_congr h'.books _).trans h.queues_eq
  queues_ne s hs := (Matcher.queues_congr h'.books _).trans (h.queues_ne s hs)

/-- `bookCancel` removes the order, if it is there, and cannot fail. -/
theorem bookCancel_apply (m : Matcher E) (symbol : String) (id : ℕ) :
    ∃ m₁, bookCancel symbol id m = (.ok (), m₁) ∧ m₁.store = m.store ∧
      Rebooked symbol ((m.queues symbol).cancel id) m m₁ := by
  by_cases hid : id ∈ (m.queues symbol).ids
  · obtain ⟨b, hb, hcancel⟩ := bookCancel_resting m symbol hid
    exact ⟨_, hcancel, rfl, .refl _, by rw [Matcher.queues_setBook_self, hb],
      fun s hs => Matcher.queues_setBook_ne m hs b⟩
  · exact ⟨m, bookCancel_absent m symbol hid, rfl, .refl _, (Book.cancel_of_notMem hid).symm,
      fun _ _ => rfl⟩

/-- The rest of the body of a cancel, once the order is off the book. -/
theorem quiet_afterCancel (market : Market) (order : Order) :
    Quiet (onStore (releaseReservation market order) >>= fun _ =>
      onStore (Stm.orderUpdate order.id fun o => { o with status := .CANCELLED }) >>=
        fun persisted =>
        publishCancelEvents persisted >>= fun _ => pure persisted : Act E Order) :=
  (quiet_onStore (frames_releaseReservation _ _)).bind fun _ =>
    (quiet_onStore (Stm.frames_orderUpdate _ _)).bind fun _ =>
      (emits_publishCancelEvents _).quiet.bind fun _ => .pure _

/-- Every run of the body of a cancel takes the order off the book. -/
theorem cancelBody_rebooked (market : Market) (order : Order) (m : Matcher E) :
    Rebooked order.market ((m.queues order.market).cancel order.id) m
      (cancelBody market order m).2 := by
  obtain ⟨m₁, hcancel, -, hbook⟩ := bookCancel_apply m order.market order.id
  unfold cancelBody
  rw [Tx.bind_apply_ok hcancel]
  exact hbook.unbooked (quiet_afterCancel market order m₁)

theorem cancelBody_eq_ok {r : Order} (h : cancelBody market order m = (.ok r, m')) :
    Cancelled market order m m' := by
  have hbook := cancelBody_rebooked market order m
  rw [h] at hbook
  obtain ⟨m₁, hcancel, hstore, -⟩ := bookCancel_apply m order.market order.id
  unfold cancelBody at h
  rw [Tx.bind_apply_ok hcancel] at h
  obtain ⟨_, m₂, h₂, h⟩ := Tx.bind_eq_ok.mp h
  obtain ⟨s₂, hrelease, hm₂⟩ := onStore_eq_ok h₂
  have hmoved := releaseReservation_eq_ok hrelease
  rw [hstore] at hmoved
  obtain ⟨persisted, m₃, h₃, h⟩ := Tx.bind_eq_ok.mp h
  obtain ⟨s₃, hupdate, hm₃⟩ := onStore_eq_ok h₃
  obtain ⟨-, horders, htrades, hposted⟩ := Stm.orderUpdate_tables (by intro o; rfl) hupdate
  have hemit : Emitted m₃ m' :=
    Keeps.of_eq ((emits_publishCancelEvents persisted).bind fun _ => .pure _) h
  rw [hm₂] at horders htrades hposted
  refine ⟨hbook.framed, ?_, ?_, ?_, hbook.queues_eq, hbook.queues_ne⟩
  · refine hemit.emitted.orders.trans ?_
    rw [hm₃]
    exact horders.trans (by rw [hmoved.orders]; rfl)
  · refine hemit.emitted.trades.trans ?_
    rw [hm₃]
    exact htrades.trans hmoved.trades
  · have h₃' : Posted s₂.db m₃.db [] := by
      rw [hm₃]
      exact hposted
    have := (hmoved.posted.trans h₃').trans hemit.posted
    rwa [List.append_nil, List.append_nil] at this

/-! ## The bodies, whatever happens -/

/-- After the matching, a submit keeps off the books. -/
theorem submitBody_snd {r : Except Failure (List Trade)} {m₁ : Matcher E}
    (h : matchSubmit market order cmd ⟨feeRate market.makerFeeBp, feeRate market.takerFeeBp⟩ m =
      (r, m₁)) : Unbooked m₁ (submitBody market order cmd m).2 := by
  rw [submitBody_eq]
  cases r with
  | error e =>
    rw [Tx.bind_apply_error h]
    exact ⟨.refl _, rfl⟩
  | ok rows =>
    rw [Tx.bind_apply_ok h]
    exact ((emits_onStore (Stm.emits_orderFindOrThrow _)).bind fun _ =>
      (emits_publishSubmitEvents _ _ _).bind fun _ => .pure _).quiet m₁

/-- A `LIMIT` submit leaves the book alone, or adds the order to it and then keeps off it. -/
theorem submitBody_limit_snd (ht : order.type = .LIMIT) (h0 : 0 < order.leaveQty)
    (cmd : OrderSubmitCommand) (market : Market) (m : Matcher E) :
    ((order.price = none ∨ order.id ∈ (m.queues cmd.symbol).ids) ∧
      (submitBody market order cmd m).2 = m) ∨
    ∃ price, order.price = some price ∧ order.id ∉ (m.queues cmd.symbol).ids ∧
      Rebooked cmd.symbol
        ((m.queues cmd.symbol).add order.id (sideToEngine order.side) price order.leaveQty).book m
        (submitBody market order cmd m).2 := by
  cases hp : order.price with
  | none =>
    refine Or.inl ⟨Or.inl rfl, ?_⟩
    simp [submitBody_eq, matchSubmit_priceless ht hp]
  | some price =>
    by_cases hid : order.id ∈ (m.queues cmd.symbol).ids
    · refine Or.inl ⟨Or.inr hid, ?_⟩
      obtain ⟨msg, hadd⟩ := bookAdd_resting m cmd.symbol (sideToEngine order.side) price hid
        order.leaveQty
      have hmatch : matchSubmit market order cmd
          ⟨feeRate market.makerFeeBp, feeRate market.takerFeeBp⟩ m = (.error (.engine msg), m) := by
        rw [matchSubmit_limit ht hp]
        exact Tx.bind_apply_error hadd _
      rw [submitBody_eq]
      rw [Tx.bind_apply_error hmatch]
    · refine Or.inr ⟨price, rfl, hid, ?_⟩
      obtain ⟨b, hb, hadd⟩ := bookAdd_new m cmd.symbol (sideToEngine order.side) price hid h0
      have hbook : Rebooked cmd.symbol ((m.queues cmd.symbol).add order.id (sideToEngine order.side)
          price order.leaveQty).book m (m.setBook cmd.symbol b) :=
        ⟨.refl _, by rw [Matcher.queues_setBook_self, hb],
          fun s hs => Matcher.queues_setBook_ne m hs b⟩
      rcases hm : matchSubmit market order cmd
        ⟨feeRate market.makerFeeBp, feeRate market.takerFeeBp⟩ m with ⟨r, m₁⟩
      refine (hbook.unbooked ?_).unbooked (submitBody_snd hm)
      rw [matchSubmit_limit ht hp] at hm
      rw [Tx.bind_apply_ok hadd] at hm
      exact Keeps.of_eq ((quiet_settleTrades _ _ _ _ _ _).bind fun _ =>
        (quiet_onStore (frames_updateOrderAfterMatch _ _ _)).bind fun _ => .pure _) hm

/-- The sweep of a `MARKET` submit. -/
def marketSweep (market : Market) (order : Order) (cmd : OrderSubmitCommand) :
    List BookLevel → Act E (List Trade × ℚ) :=
  sweepLevels cmd.symbol market order ⟨feeRate market.makerFeeBp, feeRate market.takerFeeBp⟩
    cmd.commandId 0 0 order.quantity

/-- After its sweep a `MARKET` submit keeps off the books. -/
theorem submitBody_market_unbooked (ht : order.type = .MARKET) (cmd : OrderSubmitCommand)
    (market : Market) (m : Matcher E) :
    Unbooked (marketSweep market order cmd
        (((levels ((m.queues cmd.symbol).queue (sideToEngine order.side).opp)).take bookLimit).map
          fun v => ⟨v.price, v.qty⟩) m).2 (submitBody market order cmd m).2 := by
  rcases hm : matchSubmit market order cmd
    ⟨feeRate market.makerFeeBp, feeRate market.takerFeeBp⟩ m with ⟨r, m₁⟩
  refine Unbooked.trans ?_ (submitBody_snd hm)
  obtain rfl : (matchSubmit market order cmd
    ⟨feeRate market.makerFeeBp, feeRate market.takerFeeBp⟩ m).2 = m₁ := by rw [hm]
  rw [matchSubmit_market ht, executeMarketOrder_eq]
  have hsnap : getOrderbook cmd.symbol m = (.ok (E.getOrderbook (m.book cmd.symbol)), m) := rfl
  rw [Tx.bind_apply_ok hsnap, getOrderbook_levels]
  change Unbooked (marketSweep market order cmd _ m).2 ((marketSweep market order cmd _ >>= _) m).2
  rcases hs : marketSweep market order cmd (((levels ((m.queues cmd.symbol).queue
    (sideToEngine order.side).opp)).take bookLimit).map fun v =>
    ⟨v.price, v.qty⟩) m with ⟨e | r, m₂⟩
  · rw [Tx.bind_apply_error hs, hs]
    exact ⟨.refl _, rfl⟩
  rw [Tx.bind_apply_ok hs, hs]
  refine Quiet.bind (quiet_onStore (frames_updateOrderAfterMatch _ _ _)) (fun _ => ?_) m₂
  split
  · exact (quiet_onStore (frames_settleResidual _ _ _)).bind fun _ => .pure _
  · exact .pure _

/-- A `MARKET` submit at most takes away from the opposite side. -/
theorem submitBody_market_snd (ht : order.type = .MARKET) (cmd : OrderSubmitCommand)
    (market : Market) (m : Matcher E) :
    Swept cmd.symbol (sideToEngine order.side).opp m (submitBody market order cmd m).2 := by
  obtain ⟨front, back, hsplit, hG, -⟩ := exists_front_of_depth bookLimit
    ((m.queues cmd.symbol).queue (sideToEngine order.side).opp)
  exact (sweepLevels_swept hG hsplit).trans ((submitBody_market_unbooked ht cmd market m).swept _ _)

/-- It takes something away unless there is nothing, or its first sweep is refused. -/
theorem submitBody_market_kept (ht : order.type = .MARKET) (h0 : 0 < order.quantity)
    (cmd : OrderSubmitCommand) (market : Market) (m : Matcher E) :
    (submitBody market order cmd m).2.queues cmd.symbol = m.queues cmd.symbol ↔
      (m.queues cmd.symbol).queue (sideToEngine order.side).opp = [] ∨
        sweepId order.id 0 ∈ (m.queues cmd.symbol).ids := by
  rw [Matcher.queues_congr (submitBody_market_unbooked ht cmd market m).books]
  generalize hl : (m.queues cmd.symbol).queue (sideToEngine order.side).opp = l
  obtain ⟨front, back, hsplit, hG, -⟩ := exists_front_of_depth bookLimit l
  constructor
  · intro hsame
    by_contra hn
    rw [not_or] at hn
    have hlevels : (levels l).take bookLimit ≠ [] := by
      rw [Ne, List.take_eq_nil_iff, levels_eq_nil, not_or]
      exact ⟨by decide, hn.1⟩
    exact (sweepLevels_lt hG (hG.ne_nil hlevels) h0 hn.2 (hl.trans hsplit)).ne
      (congrArg (fun q : Queues => ((q.queue (sideToEngine order.side).opp).map (·.qty)).sum) hsame)
  · rintro (rfl | hid)
    · rfl
    · cases hv : (levels l).take bookLimit with
      | nil => rfl
      | cons v vs => exact congrArg (·.queues cmd.symbol) (sweepLevels_refused m hid h0)

end Bodies

/-! ## What a command can do to the set of books -/

/-- A relation between states that holds when the books are the same, and across a change of the
book of a market in `S`. -/
structure BookRelation (S : String → Prop) (R : Matcher E → Matcher E → Prop) : Prop where
  of_books : ∀ {m m'}, m'.books = m.books → R m m'
  trans : ∀ {m₁ m₂ m₃}, R m₁ m₂ → R m₂ m₃ → R m₁ m₃
  setBook : ∀ {symbol}, S symbol → ∀ m b, R m (m.setBook symbol b)

section BookRelation

variable {S : String → Prop} {R : Matcher E → Matcher E → Prop} (hR : BookRelation S R) {α β : Type}

include hR

theorem keeps_pure (a : α) : Keeps R (Pure.pure a : Act E α) := .pure (fun _ => hR.of_books rfl) a

theorem keeps_bind {x : Act E α} {f : α → Act E β} (hx : Keeps R x) (hf : ∀ a, Keeps R (f a)) :
    Keeps R (x >>= f) := Keeps.bind (R := R) hR.trans hx hf

theorem keeps_of_quiet {x : Act E α} (hx : Quiet x) : Keeps R x := fun m => hR.of_books (hx m).books

theorem keeps_onStore (x : Stm α) : Keeps R (onStore x : Act E α) := fun _ => hR.of_books rfl

theorem keeps_getEngine {symbol : String} (h : S symbol) :
    Keeps R (getEngine symbol : Act E Unit) :=
  fun m => hR.setBook h m _

theorem keeps_bookAdd {symbol : String} (h : S symbol) (id : ℕ) (side : Side) (price qty : ℚ) :
    Keeps R (bookAdd symbol id side price qty : Act E AddResult) := by
  intro m
  unfold bookAdd
  split
  · exact hR.setBook h m _
  · exact hR.of_books rfl

theorem keeps_bookCancel {symbol : String} (h : S symbol) (id : ℕ) :
    Keeps R (bookCancel symbol id : Act E Unit) := by
  intro m
  unfold bookCancel
  split
  · exact hR.setBook h m _
  · exact hR.of_books rfl

theorem keeps_sweepLevels {symbol : String} (h : S symbol) (market : Market) (order : Order)
    (rates : FeeRates) (commandId : Uuid) (counter idx : ℕ) (remaining : ℚ)
    (lvls : List BookLevel) :
    Keeps R (sweepLevels symbol market order rates commandId counter idx remaining lvls :
      Act E (List Trade × ℚ)) := by
  induction lvls generalizing counter idx remaining with
  | nil => exact keeps_pure hR _
  | cons lvl lvls ih =>
    rw [sweepLevels_cons]
    split
    · exact keeps_pure hR _
    · refine keeps_bind hR (keeps_bookAdd hR h _ _ _ _) fun sweep =>
        keeps_bind hR (keeps_of_quiet hR (quiet_settleTrades _ _ _ _ _ _)) fun fills => ?_
      have hrest := keeps_bind hR (ih (counter + 1) (idx + sweep.trades.length)
        (remaining - min lvl.quantity remaining)) fun r => keeps_pure hR (fills ++ r.1, r.2)
      split
      · exact keeps_bind hR (keeps_bookCancel hR h _) fun _ => hrest
      · exact hrest

theorem keeps_executeMarketOrder {symbol : String} (h : S symbol) (market : Market) (order : Order)
    (rates : FeeRates) (commandId : Uuid) :
    Keeps R (executeMarketOrder symbol market order rates commandId : Act E (List Trade)) := by
  rw [executeMarketOrder_eq]
  refine keeps_bind hR (keeps_of_quiet hR (emits_getOrderbook _).quiet) fun _ =>
    keeps_bind hR (keeps_sweepLevels hR h _ _ _ _ _ _ _ _) fun r =>
      keeps_bind hR (keeps_onStore hR _) fun _ => ?_
  dsimp only
  split
  · exact keeps_bind hR (keeps_onStore hR _) fun _ => keeps_pure hR _
  · exact keeps_pure hR _

theorem keeps_submitBody (market : Market) (order : Order)
    {cmd : OrderSubmitCommand} (h : S cmd.symbol) :
    Keeps R (submitBody market order cmd : Act E _) := by
  rw [submitBody_eq]
  refine keeps_bind hR ?_ fun _ => keeps_bind hR (keeps_onStore hR _) fun _ =>
    keeps_bind hR (keeps_of_quiet hR (emits_publishSubmitEvents _ _ _).quiet)
      fun _ => keeps_pure hR _
  unfold matchSubmit matchSubmitWith
  split
  · exact .fail (fun _ => hR.of_books rfl) _
  · exact keeps_bind hR (keeps_bookAdd hR h _ _ _ _) fun _ =>
      keeps_bind hR (keeps_of_quiet hR (quiet_settleTrades _ _ _ _ _ _)) fun _ =>
        keeps_bind hR (keeps_onStore hR _) fun _ => keeps_pure hR _
  · exact keeps_executeMarketOrder hR h _ _ _ _

theorem keeps_cancelBody (market : Market) {order : Order} (h : S order.market) :
    Keeps R (cancelBody market order : Act E Order) :=
  keeps_bind hR (keeps_bookCancel hR h _) fun _ => keeps_of_quiet hR
    (quiet_afterCancel market order)

/-- A failed transaction does not give the books back. -/
theorem keeps_transaction {x : Act E α} (hx : Keeps R x) : Keeps R (transaction x) := by
  have hbody : Keeps R (onStore Stm.stmt >>= fun _ => x >>= fun a =>
      onStore Stm.stmt >>= fun _ => Pure.pure a : Act E α) :=
    keeps_bind hR (keeps_onStore hR _) fun _ => keeps_bind hR hx fun a =>
      keeps_bind hR (keeps_onStore hR _) fun _ => keeps_pure hR a
  intro m
  have hrun := hbody m
  unfold transaction Tx.transaction
  split
  · rename_i h
    rwa [h] at hrun
  · rename_i h
    rw [h] at hrun
    exact hR.trans hrun (hR.of_books rfl)

end BookRelation

end Settler

/-! ## Handling a command -/

namespace Matcher

variable {E : Engine}

/-- The tables, the queues of every book and the frame of the store are the same. -/
structure Same (m m' : Matcher E) : Prop where
  framed : m.store.Framed m'.store
  db : m'.db = m.db
  queues : ∀ s, m'.queues s = m.queues s

theorem Same.refl (m : Matcher E) : Same m m := ⟨.refl _, rfl, fun _ => rfl⟩

theorem Same.trans {m₁ m₂ m₃ : Matcher E} (h₁ : Same m₁ m₂) (h₂ : Same m₂ m₃) : Same m₁ m₃ :=
  ⟨h₁.framed.trans h₂.framed, h₂.db.trans h₁.db, fun s => (h₂.queues s).trans (h₁.queues s)⟩

@[simp] theorem db_withFaults (m : Matcher E) (f : Option ℕ) : (m.withFaults f).db = m.db := rfl

theorem same_withFaults (m : Matcher E) (f : Option ℕ) : Same m (m.withFaults f) :=
  ⟨⟨rfl, rfl, rfl, rfl, rfl, rfl⟩, rfl, fun _ => rfl⟩

theorem same_setBook_book (m : Matcher E) (symbol : String) :
    Same m (m.setBook symbol (m.book symbol)) :=
  ⟨.refl _, rfl, m.queues_setBook_book symbol⟩

end Matcher

namespace Settler

variable {E : Engine} {symbol : String} {m m₀ m₁ m' : Matcher E}

/-- A change of one book, seen from a state with the same tables and queues. -/
theorem Rebooked.congr {q : Queues} (hb : Rebooked symbol q m₀ m₁) (h : m.Same m₀)
    (hf : m₀.store.Framed m'.store) (hbooks : m'.books = m₁.books) : Rebooked symbol q m m' where
  framed := h.framed.trans hf
  queues_eq := (Matcher.queues_congr hbooks _).trans hb.queues_eq
  queues_ne s hs := (Matcher.queues_congr hbooks _).trans ((hb.queues_ne s hs).trans (h.queues s))

theorem Swept.congr {side : Side} (hb : Swept symbol side m₀ m₁) (h : m.Same m₀)
    (hf : m₀.store.Framed m'.store) (hbooks : m'.books = m₁.books) : Swept symbol side m m' where
  framed := h.framed.trans hf
  queues_ne s hs := (Matcher.queues_congr hbooks _).trans ((hb.queues_ne s hs).trans (h.queues s))
  queues_eq := by
    obtain ⟨l, hl, e⟩ := hb.queues_eq
    rw [h.queues] at hl e
    exact ⟨l, hl, (Matcher.queues_congr hbooks _).trans e⟩

end Settler

namespace Consumer

open Settler

variable {E : Engine}

/-- A `SUBMIT` whose transaction begins: its market and order were read, and the guards let it
pass. -/
structure Begun (m : Matcher E) (cmd : OrderSubmitCommand) (market : Market) (order : Order) :
    Prop where
  hmarket : m.db.market? cmd.symbol = some market
  horder : m.db.order? cmd.orderId = some order
  commandId : ¬(order.commandId.isSome ∧ order.commandId ≠ some cmd.commandId)
  live : order.terminal = false
  faults : ∀ n ≤ 2, m.store.faults ≠ some n

/-- **What handling a `SUBMIT` can do.** -/
inductive SubmitOutcome (cmd : OrderSubmitCommand) (m : Matcher E) :
    Except Failure Result → Matcher E → Prop
  /-- A read, or the begin of the transaction, failed. -/
  | unread {m'} (e : Failure) (n : ℕ) (hn : n ≤ 2) (hf : m.store.faults = some n)
      (h : m.Same m') : SubmitOutcome cmd m (.error e) m'
  /-- There is nothing to do. -/
  | skipped {m'} (h : m.Same m')
      (why : m.db.market? cmd.symbol = none ∨ m.db.order? cmd.orderId = none ∨
        ∃ order, m.db.order? cmd.orderId = some order ∧
          ((order.commandId.isSome ∧ order.commandId ≠ some cmd.commandId) ∨
            order.terminal = true)) : SubmitOutcome cmd m (.ok .noop) m'
  /-- The book refused a `LIMIT` order. -/
  | refused {m'} (e : Failure) (market : Market) (order : Order) (hb : Begun m cmd market order)
      (ht : order.type = .LIMIT)
      (why : order.price = none ∨ order.id ∈ (m.queues cmd.symbol).ids) (h : m.Same m') :
      SubmitOutcome cmd m (.error e) m'
  /-- A `LIMIT` order was matched, and then the transaction failed. -/
  | abortedLimit {m'} (e : Failure) (market : Market) (order : Order) (price : ℚ)
      (hb : Begun m cmd market order) (ht : order.type = .LIMIT) (hp : order.price = some price)
      (hid : order.id ∉ (m.queues cmd.symbol).ids) (hdb : m'.db = m.db)
      (h : Rebooked cmd.symbol ((m.queues cmd.symbol).add order.id (sideToEngine order.side) price
        order.leaveQty).book m m') : SubmitOutcome cmd m (.error e) m'
  /-- A `MARKET` order was matched in part or whole, and then the transaction failed. -/
  | abortedMarket {m'} (e : Failure) (market : Market) (order : Order)
      (hb : Begun m cmd market order) (ht : order.type = .MARKET) (hdb : m'.db = m.db)
      (h : Swept cmd.symbol (sideToEngine order.side).opp m m')
      (kept : m'.queues cmd.symbol = m.queues cmd.symbol ↔
        (m.queues cmd.symbol).queue (sideToEngine order.side).opp = [] ∨
          sweepId order.id 0 ∈ (m.queues cmd.symbol).ids) : SubmitOutcome cmd m (.error e) m'
  | committedLimit {m'} (market : Market) (order : Order) (price : ℚ)
      (hb : Begun m cmd market order) (ht : order.type = .LIMIT) (hp : order.price = some price)
      (hid : order.id ∉ (m.queues cmd.symbol).ids)
      (h : Submitted market order cmd
        ((m.queues cmd.symbol).add order.id (sideToEngine order.side) price order.leaveQty).fills
        (orderAfterMatch ((m.queues cmd.symbol).add order.id (sideToEngine order.side) price
          order.leaveQty).leave order.quantity) []
        ((m.queues cmd.symbol).add order.id (sideToEngine order.side) price order.leaveQty).book
        m m') : SubmitOutcome cmd m (.ok .ok) m'
  | committedMarket {m'} (market : Market) (order : Order) (l : List (Resting ℕ ℚ ℚ))
      (hb : Begun m cmd market order) (ht : order.type = .MARKET)
      (hl : (m.queues cmd.symbol).queue (sideToEngine order.side).opp = l)
      (h : Submitted market order cmd (sweepFill order.quantity l).fills
        (marketAfter order (sweepRemaining order.quantity l))
        (residualPostings market order (sweepRemaining order.quantity l))
        ((m.queues cmd.symbol).set (sideToEngine order.side).opp (sweepFill order.quantity l).rest)
        m m') : SubmitOutcome cmd m (.ok .ok) m'

/-- **What handling a `CANCEL` can do.** -/
inductive CancelOutcome (cmd : OrderCancelCommand) (m : Matcher E) :
    Except Failure Result → Matcher E → Prop
  /-- A read, or the begin of the transaction, failed. -/
  | unread {m'} (e : Failure) (n : ℕ) (hn : n ≤ 2) (hf : m.store.faults = some n)
      (h : m.Same m') : CancelOutcome cmd m (.error e) m'
  /-- There is nothing to do. -/
  | skipped {m'} (r : Result) (h : m.Same m')
      (why : m.db.order? cmd.orderId = none ∨ ∃ order, m.db.order? cmd.orderId = some order ∧
        (order.terminal = true ∨ m.db.market? order.market = none)) :
      CancelOutcome cmd m (.ok r) m'
  /-- The order was taken off the book, and then the transaction failed. -/
  | aborted {m'} (e : Failure) (market : Market) (order : Order)
      (hf : ∀ n ≤ 2, m.store.faults ≠ some n) (ho : m.db.order? cmd.orderId = some order)
      (hm : m.db.market? order.market = some market) (live : order.terminal = false)
      (hdb : m'.db = m.db)
      (h : Rebooked order.market ((m.queues order.market).cancel order.id) m m') :
      CancelOutcome cmd m (.error e) m'
  | committed {m'} (market : Market) (order : Order)
      (ho : m.db.order? cmd.orderId = some order) (hm : m.db.market? order.market = some market)
      (live : order.terminal = false) (h : Cancelled market order m m') :
      CancelOutcome cmd m (.ok .ok) m'

section Dispatch

variable {m m' : Matcher E}

theorem SubmitOutcome.framed {cmd : OrderSubmitCommand} {r : Except Failure Result}
    (h : SubmitOutcome cmd m r m') : m.store.Framed m'.store := by
  cases h with
  | unread _ _ _ _ h => exact h.framed
  | skipped h => exact h.framed
  | refused _ _ _ _ _ _ h => exact h.framed
  | abortedLimit _ _ _ _ _ _ _ _ _ h => exact h.framed
  | abortedMarket _ _ _ _ _ _ h => exact h.framed
  | committedLimit _ _ _ _ _ _ _ h => exact h.framed
  | committedMarket _ _ _ _ _ _ h => exact h.framed

theorem CancelOutcome.framed {cmd : OrderCancelCommand} {r : Except Failure Result}
    (h : CancelOutcome cmd m r m') : m.store.Framed m'.store := by
  cases h with
  | unread _ _ _ _ h => exact h.framed
  | skipped _ h => exact h.framed
  | aborted _ _ _ _ _ _ _ _ h => exact h.framed
  | committed _ _ _ _ _ h => exact h.framed

/-- A `SUBMIT` that does not commit leaves the tables. -/
theorem SubmitOutcome.unchanged_or {cmd : OrderSubmitCommand} {r : Except Failure Result}
    (h : SubmitOutcome cmd m r m') : m'.db = m.db ∨ r = .ok .ok := by
  cases h with
  | unread _ _ _ _ h => exact .inl h.db
  | skipped h => exact .inl h.db
  | refused _ _ _ _ _ _ h => exact .inl h.db
  | abortedLimit _ _ _ _ _ _ _ _ hdb => exact .inl hdb
  | abortedMarket _ _ _ _ _ hdb => exact .inl hdb
  | committedLimit => exact .inr rfl
  | committedMarket => exact .inr rfl

/-- A `CANCEL` that does not commit leaves the tables. -/
theorem CancelOutcome.unchanged_or {cmd : OrderCancelCommand} {r : Except Failure Result}
    (h : CancelOutcome cmd m r m') : m'.db = m.db ∨ ∃ market order,
      m.db.order? cmd.orderId = some order ∧ m.db.market? order.market = some market ∧
        order.terminal = false ∧ Cancelled market order m m' := by
  cases h with
  | unread _ _ _ _ h => exact .inl h.db
  | skipped _ h => exact .inl h.db
  | aborted _ _ _ _ _ _ _ hdb => exact .inl hdb
  | committed market order ho hm live h => exact .inr ⟨market, order, ho, hm, live, h⟩

theorem onStore_query_ok {α : Type} (f : Db → α) (h : m.store.faults ≠ some 0) :
    onStore (Stm.query f) m = (.ok (f m.db), m.withFaults (m.store.faults.map Nat.pred)) := by
  simp [onStore, Tx.zoom, Stm.query_apply_ok f h, Matcher.withFaults, Matcher.db]

theorem onStore_query_error {α : Type} (f : Db → α) (h : m.store.faults = some 0) :
    onStore (Stm.query f) m = (.error .fault, m) := by
  simp [onStore, Tx.zoom, Stm.query_apply_error f h]

/-- A query does nothing but count down. -/
theorem onStore_query_cases {α : Type} (f : Db → α) (m : Matcher E) :
    onStore (Stm.query f) m = (.error .fault, m) ∨
      onStore (Stm.query f) m = (.ok (f m.db), m.withFaults (m.store.faults.map Nat.pred)) := by
  by_cases h : m.store.faults = some 0
  · exact .inl (onStore_query_error f h)
  · exact .inr (onStore_query_ok f h)

theorem onStore_query_eq_ok {α : Type} {f : Db → α} {a : α} {m' : Matcher E}
    (h : onStore (Stm.query f) m = (.ok a, m')) : a = f m.db ∧ m'.db = m.db := by
  obtain ⟨s, hs, rfl⟩ := Tx.zoom_eq_ok.mp h
  obtain ⟨ha, fl, rfl⟩ := Stm.query_eq_ok hs
  exact ⟨ha, rfl⟩

/-- A countdown that survives one statement and then has `n` left had `n + 1`. -/
theorem faults_of_map_pred {f : Option ℕ} (h0 : f ≠ some 0) {n : ℕ} (h : f.map Nat.pred = some n) :
    f = some (n + 1) := by
  cases f with
  | none => simp at h
  | some k =>
    cases k with
    | zero => exact absurd rfl h0
    | succ k => simpa using h

/-- A countdown that survives two statements and fails the next had two left. -/
theorem faults_of_two {f : Option ℕ} (h : ∀ n ≤ 1, f ≠ some n)
    (h0 : (f.map Nat.pred).map Nat.pred = some 0) : f = some 2 :=
  faults_of_map_pred (h 0 (by omega))
    (faults_of_map_pred (fun he => h 1 le_rfl (faults_of_map_pred (h 0 (by omega)) he)) h0)

/-- `settleSubmit` up to its transaction, which runs on the same tables and books. -/
theorem settleSubmit_cases {cmd : OrderSubmitCommand}
    {r : Except Failure (Option (Order × List Trade))}
    (h : settleSubmit cmd m = (r, m')) :
    (∃ n ≤ 1, m.store.faults = some n ∧ r = .error .fault ∧ ∃ f, m' = m.withFaults f) ∨
    (r = .ok none ∧ (∃ f, m' = m.withFaults f) ∧
      (m.db.market? cmd.symbol = none ∨ m.db.order? cmd.orderId = none ∨
        ∃ order, m.db.order? cmd.orderId = some order ∧
          ((order.commandId.isSome ∧ order.commandId ≠ some cmd.commandId) ∨
            order.terminal = true))) ∨
    ∃ market order f, m.db.market? cmd.symbol = some market ∧
      m.db.order? cmd.orderId = some order ∧
      ¬(order.commandId.isSome ∧ order.commandId ≠ some cmd.commandId) ∧ order.terminal = false ∧
      (∀ n ≤ 1, m.store.faults ≠ some n) ∧ f = (m.store.faults.map Nat.pred).map Nat.pred ∧
      (transaction (submitBody market order cmd) >>= fun a => pure (some a))
        ((m.withFaults f).setBook cmd.symbol (m.book cmd.symbol)) = (r, m') := by
  simp only [settleSubmit, settleSubmitWith, Stm.marketFind, Stm.orderFind] at h
  by_cases hf₀ : m.store.faults = some 0
  · rw [Tx.bind_apply_error (onStore_query_error _ hf₀), Prod.mk.injEq] at h
    exact Or.inl ⟨0, by omega, hf₀, h.1.symm, m.store.faults, h.2.symm⟩
  rw [Tx.bind_apply_ok (onStore_query_ok _ hf₀)] at h
  cases hmarket : m.db.market? cmd.symbol with
  | none =>
    simp only [hmarket, Tx.pure_apply, Prod.mk.injEq] at h
    exact Or.inr (Or.inl ⟨h.1.symm, ⟨_, h.2.symm⟩, Or.inl rfl⟩)
  | some market =>
    simp only [hmarket] at h
    by_cases hf₁ : m.store.faults.map Nat.pred = some 0
    · rw [Tx.bind_apply_error (onStore_query_error _ hf₁), Prod.mk.injEq] at h
      exact Or.inl ⟨1, le_rfl, faults_of_map_pred hf₀ hf₁, h.1.symm, _, h.2.symm⟩
    rw [Tx.bind_apply_ok (onStore_query_ok _ hf₁)] at h
    cases horder : m.db.order? cmd.orderId with
    | none =>
      simp only [Matcher.db_withFaults, horder, Tx.pure_apply, Prod.mk.injEq] at h
      exact Or.inr (Or.inl ⟨h.1.symm, ⟨_, h.2.symm⟩, Or.inr (Or.inl rfl)⟩)
    | some order =>
      simp only [Matcher.db_withFaults, horder] at h
      split at h
      · rename_i hcmd
        simp only [Tx.pure_apply, Prod.mk.injEq] at h
        exact Or.inr (Or.inl ⟨h.1.symm, ⟨_, h.2.symm⟩, Or.inr (Or.inr ⟨order, rfl, Or.inl hcmd⟩)⟩)
      rename_i hcmd
      split at h
      · rename_i hterm
        simp only [Tx.pure_apply, Prod.mk.injEq] at h
        exact Or.inr (Or.inl ⟨h.1.symm, ⟨_, h.2.symm⟩, Or.inr (Or.inr ⟨order, rfl, Or.inr hterm⟩)⟩)
      rename_i hterm
      refine Or.inr (Or.inr ⟨market, order, _, rfl, rfl, hcmd, by simpa using hterm, ?_, rfl, h⟩)
      intro n hn he
      rcases Nat.le_one_iff_eq_zero_or_eq_one.mp hn with rfl | rfl
      · exact hf₀ he
      · exact hf₁ (by rw [he]; rfl)

/-- A transaction runs on the same tables and queues. -/
theorem same_transaction (m : Matcher E) (f : Option ℕ) (symbol : String) :
    m.Same ((m.withFaults f).setBook symbol (m.book symbol)) :=
  (m.same_withFaults f).trans (Matcher.same_setBook_book _ symbol)

/-- The state that a failed transaction leaves, when the body changed no more than the books. -/
theorem rollback_same {m₀ m₁ : Matcher E} (h : m₀.Same m₁) : m₀.Same (m₀.rollback m₁) :=
  ⟨h.framed.rollback, rfl, h.queues⟩

/-- A submit committed from the same tables and queues. -/
theorem submitted_congr {market : Market} {order : Order} {cmd : OrderSubmitCommand}
    {fs : List (Fill ℕ ℚ ℚ)} {finish : Order → Order} {release : List Posting} {q : Queues}
    {m m₀ m₁ m' : Matcher E} (h : m.Same m₀)
      (hs : Submitted market order cmd fs finish release q m₀ m₁)
    (h' : m₁.Same m') : Submitted market order cmd fs finish release q m m' where
  framed := (h.framed.trans hs.framed).trans h'.framed
  settled := by
    obtain ⟨rows, db₁, h₁, h₂, h₃, h₄⟩ := hs.settled
    rw [h.db] at h₁
    rw [← h'.db] at h₂ h₃ h₄
    exact ⟨rows, db₁, h₁, h₂, h₃, h₄⟩
  queues_eq := (h'.queues _).trans hs.queues_eq
  queues_ne s hs' := (h'.queues s).trans ((hs.queues_ne s hs').trans (h.queues s))

theorem dispatch_submit_of_settle {cmd : OrderSubmitCommand} {m₁ : Matcher E}
    {r : Except Failure (Option (Order × List Trade))} (h : settleSubmit cmd m = (r, m₁)) :
    dispatch (.SUBMIT cmd) m = match r with
      | .error e => (.error e, m₁)
      | .ok none => (.ok .noop, m₁)
      | .ok (some _) => (.ok .ok, m₁.setBook cmd.symbol (m₁.book cmd.symbol)) := by
  rcases r with e | _ | a
  · exact Tx.bind_apply_error h _
  · exact Tx.bind_apply_ok h _
  · exact Tx.bind_apply_ok h _

/-- **Handling a `SUBMIT`**, for an order that has something left to match. -/
theorem dispatch_submit {cmd : OrderSubmitCommand} {r : Except Failure Result}
    (hpos : ∀ order, m.db.order? cmd.orderId = some order → order.terminal = false →
      0 < order.quantity ∧ 0 < order.leaveQty)
    (h : dispatch (.SUBMIT cmd) m = (r, m')) : SubmitOutcome cmd m r m' := by
  rcases hs : settleSubmit cmd m with ⟨r₁, m₁⟩
  rw [dispatch_submit_of_settle hs] at h
  rcases settleSubmit_cases hs with ⟨n, hn, hf, rfl, f, rfl⟩ | ⟨rfl, ⟨f, rfl⟩, why⟩ |
    ⟨market, order, f, hmarket, horder, hcmd, hlive, hf, hf₀, htx⟩
  · obtain ⟨rfl, rfl⟩ := Prod.mk.inj h
    exact .unread _ n (hn.trans (by omega)) hf (m.same_withFaults f)
  · obtain ⟨rfl, rfl⟩ := Prod.mk.inj h
    exact .skipped (m.same_withFaults f) why
  obtain ⟨hq, hleave⟩ := hpos order horder hlive
  have hsame := same_transaction m f cmd.symbol
  replace hf₀ : ((m.withFaults f).setBook cmd.symbol (m.book cmd.symbol)).store.faults = _ := hf₀
  generalize (m.withFaults f).setBook cmd.symbol (m.book cmd.symbol) = m₀ at hsame hf₀ htx
  rcases ht : transaction (submitBody market order cmd) m₀ with ⟨r₂, m₂⟩
  have hsame₀ := hsame.trans (m₀.same_withFaults (m₀.store.faults.map Nat.pred))
  rcases transaction_cases ht with ⟨hn, rfl, rfl⟩ | ⟨hn, hran⟩
  · -- the transaction did not begin
    rw [Tx.bind_apply_error ht, Prod.mk.injEq] at htx
    obtain ⟨rfl, rfl⟩ := htx
    obtain ⟨rfl, rfl⟩ := Prod.mk.inj h
    rw [hf₀] at hn
    exact .unread _ 2 le_rfl (faults_of_two hf hn) hsame
  have hbegun : Begun m cmd market order := by
    refine ⟨hmarket, horder, hcmd, hlive, fun n hn' he => ?_⟩
    rcases Nat.lt_or_ge n 2 with h | h
    · exact hf n (by omega) he
    · obtain rfl : n = 2 := by omega
      exact hn (by rw [hf₀, he]; rfl)
  rcases hran with ⟨e, rfl, rfl⟩ | ⟨a, m₃, f, rfl, hbody, rfl⟩
  · -- it failed
    rw [Tx.bind_apply_error ht, Prod.mk.injEq] at htx
    obtain ⟨rfl, rfl⟩ := htx
    obtain ⟨rfl, rfl⟩ := Prod.mk.inj h
    cases hty : order.type with
    | LIMIT =>
      rcases submitBody_limit_snd hty hleave cmd market
        (m₀.withFaults (m₀.store.faults.map Nat.pred)) with ⟨why, hbody⟩ | ⟨price, hp, hid, hbook⟩
      · rw [hsame₀.queues] at why
        refine .refused e market order hbegun hty why ?_
        rw [hbody]
        exact hsame.trans (rollback_same (m₀.same_withFaults _))
      · rw [hsame₀.queues] at hid hbook
        exact .abortedLimit e market order price hbegun hty hp hid hsame.db
          (hbook.congr hsame₀ (Store.Framed.rollback hbook.framed) rfl)
    | MARKET =>
      have hswept := submitBody_market_snd hty cmd market
        (m₀.withFaults (m₀.store.faults.map Nat.pred))
      have hkept := submitBody_market_kept hty hq cmd market
        (m₀.withFaults (m₀.store.faults.map Nat.pred))
      rw [hsame₀.queues] at hkept
      exact .abortedMarket e market order hbegun hty hsame.db
        (hswept.congr hsame₀ (Store.Framed.rollback hswept.framed) rfl) hkept
  · -- it committed
    rw [Tx.bind_apply_ok ht, Tx.pure_apply, Prod.mk.injEq] at htx
    obtain ⟨rfl, rfl⟩ := htx
    obtain ⟨rfl, rfl⟩ := Prod.mk.inj h
    have hafter := (m₃.same_withFaults f).trans (Matcher.same_setBook_book _ cmd.symbol)
    cases hty : order.type with
    | LIMIT =>
      obtain ⟨price, hp, hid, hsub⟩ := submitBody_limit_eq_ok hty hleave hbody
      rw [hsame₀.queues] at hid hsub
      exact .committedLimit market order price hbegun hty hp hid
        (submitted_congr hsame₀ hsub hafter)
    | MARKET =>
      have hsub := submitBody_market_eq_ok hty hq hbody rfl
      rw [hsame₀.queues] at hsub
      exact .committedMarket market order _ hbegun hty rfl (submitted_congr hsame₀ hsub hafter)

theorem dispatch_cancel_of_settle {cmd : OrderCancelCommand} {m₁ : Matcher E}
    {r : Except Failure (Option Order)} (h : settleCancel cmd m = (r, m₁)) :
    dispatch (.CANCEL cmd) m = match r with
      | .error e => (.error e, m₁)
      | .ok none => (.ok .noop, m₁)
      | .ok (some _) => (.ok .ok, m₁.setBook cmd.symbol (m₁.book cmd.symbol)) := by
  rcases r with e | _ | a
  · exact Tx.bind_apply_error h _
  · exact Tx.bind_apply_ok h _
  · exact Tx.bind_apply_ok h _

/-- `settleCancel` up to its transaction, which runs on the same tables and books. -/
theorem settleCancel_cases {cmd : OrderCancelCommand} {r : Except Failure (Option Order)}
    (h : settleCancel cmd m = (r, m')) :
    (∃ n ≤ 1, m.store.faults = some n ∧ r = .error .fault ∧ ∃ f, m' = m.withFaults f) ∨
    ((∃ f, m' = m.withFaults f) ∧
      ((r = .ok none ∧ m.db.order? cmd.orderId = none) ∨
      ∃ order, m.db.order? cmd.orderId = some order ∧
        ((r = .ok (some order) ∧ order.terminal = true) ∨
          (r = .ok none ∧ m.db.market? order.market = none)))) ∨
    ∃ market order f, m.db.order? cmd.orderId = some order ∧
      m.db.market? order.market = some market ∧ order.terminal = false ∧
      (∀ n ≤ 1, m.store.faults ≠ some n) ∧ f = (m.store.faults.map Nat.pred).map Nat.pred ∧
      (transaction (cancelBody market order) >>= fun a => pure (some a))
        ((m.withFaults f).setBook order.market (m.book order.market)) = (r, m') := by
  simp only [settleCancel, Stm.marketFind, Stm.orderFind] at h
  by_cases hf₀ : m.store.faults = some 0
  · rw [Tx.bind_apply_error (onStore_query_error _ hf₀), Prod.mk.injEq] at h
    exact Or.inl ⟨0, by omega, hf₀, h.1.symm, m.store.faults, h.2.symm⟩
  rw [Tx.bind_apply_ok (onStore_query_ok _ hf₀)] at h
  cases horder : m.db.order? cmd.orderId with
  | none =>
    simp only [horder, Tx.pure_apply, Prod.mk.injEq] at h
    exact Or.inr (Or.inl ⟨⟨_, h.2.symm⟩, Or.inl ⟨h.1.symm, rfl⟩⟩)
  | some order =>
    simp only [horder] at h
    split at h
    · rename_i hterm
      simp only [Tx.pure_apply, Prod.mk.injEq] at h
      exact Or.inr (Or.inl ⟨⟨_, h.2.symm⟩, Or.inr ⟨order, rfl, Or.inl ⟨h.1.symm, hterm⟩⟩⟩)
    rename_i hterm
    by_cases hf₁ : m.store.faults.map Nat.pred = some 0
    · rw [Tx.bind_apply_error (onStore_query_error _ hf₁), Prod.mk.injEq] at h
      exact Or.inl ⟨1, le_rfl, faults_of_map_pred hf₀ hf₁, h.1.symm, _, h.2.symm⟩
    rw [Tx.bind_apply_ok (onStore_query_ok _ hf₁)] at h
    cases hmarket : m.db.market? order.market with
    | none =>
      simp only [Matcher.db_withFaults, hmarket, Tx.pure_apply, Prod.mk.injEq] at h
      exact Or.inr (Or.inl ⟨⟨_, h.2.symm⟩, Or.inr ⟨order, rfl, Or.inr ⟨h.1.symm, hmarket⟩⟩⟩)
    | some market =>
      simp only [Matcher.db_withFaults, hmarket] at h
      refine Or.inr (Or.inr ⟨market, order, _, rfl, hmarket, by simpa using hterm, ?_, rfl, h⟩)
      intro n hn he
      rcases Nat.le_one_iff_eq_zero_or_eq_one.mp hn with rfl | rfl
      · exact hf₀ he
      · exact hf₁ (by rw [he]; rfl)

/-- A cancel committed from the same tables and queues. -/
theorem cancelled_congr {market : Market} {order : Order} {m m₀ m₁ m' : Matcher E} (h : m.Same m₀)
    (hc : Cancelled market order m₀ m₁) (h' : m₁.Same m') : Cancelled market order m m' where
  framed := (h.framed.trans hc.framed).trans h'.framed
  orders := by rw [h'.db, hc.orders, h.db]
  trades := by rw [h'.db, hc.trades, h.db]
  posted := by
    have := hc.posted
    rwa [h.db, ← h'.db] at this
  queues_eq := by rw [h'.queues, hc.queues_eq, h.queues]
  queues_ne s hs := by rw [h'.queues, hc.queues_ne s hs, h.queues]

/-- **Handling a `CANCEL`.** -/
theorem dispatch_cancel {cmd : OrderCancelCommand} {r : Except Failure Result}
    (h : dispatch (.CANCEL cmd) m = (r, m')) : CancelOutcome cmd m r m' := by
  rcases hs : settleCancel cmd m with ⟨r₁, m₁⟩
  rw [dispatch_cancel_of_settle hs] at h
  rcases settleCancel_cases hs with ⟨n, hn, hf, rfl, f, rfl⟩ |
    ⟨⟨f, rfl⟩, ⟨rfl, ho⟩ | ⟨order, ho, ⟨rfl, hterm⟩ | ⟨rfl, hmarket⟩⟩⟩ |
    ⟨market, order, f, horder, hmarket, hlive, hf, hf₀, htx⟩
  · obtain ⟨rfl, rfl⟩ := Prod.mk.inj h
    exact .unread _ n (hn.trans (by omega)) hf (m.same_withFaults f)
  · obtain ⟨rfl, rfl⟩ := Prod.mk.inj h
    exact .skipped _ (m.same_withFaults f) (Or.inl ho)
  · obtain ⟨rfl, rfl⟩ := Prod.mk.inj h
    exact .skipped _ ((m.same_withFaults f).trans (Matcher.same_setBook_book _ _))
      (Or.inr ⟨order, ho, Or.inl hterm⟩)
  · obtain ⟨rfl, rfl⟩ := Prod.mk.inj h
    exact .skipped _ (m.same_withFaults f) (Or.inr ⟨order, ho, Or.inr hmarket⟩)
  have hsame := same_transaction m f order.market
  replace hf₀ : ((m.withFaults f).setBook order.market (m.book order.market)).store.faults = _ :=
    hf₀
  generalize (m.withFaults f).setBook order.market (m.book order.market) = m₀ at hsame hf₀ htx
  rcases ht : transaction (cancelBody market order) m₀ with ⟨r₂, m₂⟩
  have hsame₀ := hsame.trans (m₀.same_withFaults (m₀.store.faults.map Nat.pred))
  have hbook := cancelBody_rebooked market order (m₀.withFaults (m₀.store.faults.map Nat.pred))
  rcases transaction_cases ht with ⟨hn, rfl, rfl⟩
    | ⟨hn, ⟨e, rfl, rfl⟩ | ⟨a, m₃, f, rfl, hbody, rfl⟩⟩
  · -- the transaction did not begin
    rw [Tx.bind_apply_error ht, Prod.mk.injEq] at htx
    obtain ⟨rfl, rfl⟩ := htx
    obtain ⟨rfl, rfl⟩ := Prod.mk.inj h
    rw [hf₀] at hn
    exact .unread _ 2 le_rfl (faults_of_two hf hn) hsame
  · -- it failed
    rw [Tx.bind_apply_error ht, Prod.mk.injEq] at htx
    obtain ⟨rfl, rfl⟩ := htx
    obtain ⟨rfl, rfl⟩ := Prod.mk.inj h
    rw [hsame₀.queues] at hbook
    refine .aborted e market order (fun n hle he => ?_) horder hmarket hlive hsame.db
      (hbook.congr hsame₀ (Store.Framed.rollback hbook.framed) rfl)
    rcases Nat.lt_or_ge n 2 with h | h
    · exact hf n (by omega) he
    · obtain rfl : n = 2 := by omega
      exact hn (by rw [hf₀, he]; rfl)
  · -- it committed
    rw [Tx.bind_apply_ok ht, Tx.pure_apply, Prod.mk.injEq] at htx
    obtain ⟨rfl, rfl⟩ := htx
    obtain ⟨rfl, rfl⟩ := Prod.mk.inj h
    exact .committed market order horder hmarket hlive (cancelled_congr hsame₀
      (cancelBody_eq_ok hbody) ((m₃.same_withFaults f).trans (Matcher.same_setBook_book _ _)))

end Dispatch

end Consumer

end Orbit
