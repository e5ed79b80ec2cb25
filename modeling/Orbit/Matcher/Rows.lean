import Orbit.Matcher.Safety

/-!
# What the order rows say of the trades

Three formulas write to `filledQty`, `leaveQty` and `status`: a maker is updated by what it
traded, from the row that was read (`makerAfter`), a `LIMIT` taker by what the book says is
left of it (`orderAfterMatch`), and a `MARKET` taker by what its sweep did not match
(`marketAfter`). They agree with the trade rows: in every reachable state `filledQty` is the
sum over the trades of the order.

* `Order.Reports` is what a row says, `Db.Reported` that every row of the tables does.
* A committed submit keeps it (`Submitted.reported`), and every step of a run does: `order_rows`.
-/

namespace Orbit

open PriceTime Settler Consumer

variable {E : Engine} {m m' : Matcher E}

/-- The quantity of a trade, if the order `id` is its maker or taker. -/
def Trade.quantityOf (id : ℕ) (t : Trade) : ℚ :=
  if t.makerOrderId = id ∨ t.takerOrderId = id then t.quantity else 0

/-- What the trades of the order `id` add up to. -/
def Db.traded (db : Db) (id : ℕ) : ℚ := (db.trades.map (Trade.quantityOf id)).sum

/-- The status of a `LIMIT` row that was not cancelled. -/
structure Order.LimitStatus (o : Order) : Prop where
  isOpen : o.status = .OPEN ↔ o.filledQty = 0
  isPartial : o.status = .PARTIAL ↔ 0 < o.filledQty ∧ o.filledQty < o.quantity
  isFilled : o.status = .FILLED ↔ o.leaveQty = 0

/-- A row reports the trades of its order. -/
structure Order.Reports (db : Db) (o : Order) : Prop where
  filled : o.filledQty = db.traded o.id
  limit : o.type = .LIMIT → o.status ≠ .CANCELLED → o.LimitStatus
  market : o.type = .MARKET → o.status = .OPEN ∧ o.filledQty = 0 ∨
    o.status = .CANCELLED ∧ o.filledQty = 0 ∨ o.status = .FILLED ∧ 0 < o.filledQty

/-- Every row reports the trades of its order, and every trade is of orders that have rows. -/
structure Db.Reported (db : Db) : Prop where
  rows : ∀ id o, db.order? id = some o → o.Reports db
  trades : ∀ t ∈ db.trades, 0 < t.quantity ∧ (db.order? t.makerOrderId).isSome ∧
    (db.order? t.takerOrderId).isSome

/-! ## The rows of the settled trades -/

section Settled

variable {market : Market} {order : Order} {rates : FeeRates} {commandId : Uuid} {idx : ℕ}
  {db db' : Db} {ts : List EngineTrade} {rows : List Trade} {fs : List (Fill ℕ ℚ ℚ)}

/-- The rows are those of the trades of the book, in order. -/
theorem Settler.Settles.map_rows (h : Settles market order rates commandId idx db ts rows db') :
    rows.map (fun row => (row.makerOrderId, row.takerOrderId, row.quantity)) =
      ts.map fun t => (t.makerOrderId, order.id, t.tradeQuantity) := by
  induction h with
  | nil => rfl
  | cons maker hf _ ih => rw [List.map_cons, List.map_cons, ih, hf.hrow]

theorem Settler.Settles.sum_quantityOf
    (h : Settles market order rates commandId idx db (fs.map .ofFill) rows db') (id : ℕ) :
    (rows.map (Trade.quantityOf id)).sum =
      (fs.map fun f => if f.id = id ∨ order.id = id then f.qty else 0).sum := by
  have hrows := congrArg (List.map fun x : ℕ × ℕ × ℚ => if x.1 = id ∨ x.2.1 = id then x.2.2 else 0)
    h.map_rows
  rw [List.map_map, List.map_map, List.map_map] at hrows
  exact congrArg List.sum hrows

/-- Of distinct orders, one at most is a given one. -/
theorem sum_qty_of_nodup (hd : (fs.map (·.id)).Nodup) {f : Fill ℕ ℚ ℚ} (hf : f ∈ fs) :
    (fs.map fun f' => if f'.id = f.id then f'.qty else 0).sum = f.qty := by
  induction fs with
  | nil => simp at hf
  | cons g fs ih =>
    rw [List.map_cons, List.nodup_cons] at hd
    rw [List.map_cons, List.sum_cons]
    rcases List.mem_cons.mp hf with rfl | hf
    · rw [if_pos rfl, List.sum_eq_zero, add_zero]
      intro x hx
      obtain ⟨f', hf', rfl⟩ := List.mem_map.mp hx
      exact if_neg fun e : f'.id = f.id => hd.1 (e ▸ List.mem_map_of_mem hf')
    · have hne : g.id ≠ f.id := fun e => hd.1 (e ▸ List.mem_map_of_mem hf)
      rw [ih hd.2 hf, if_neg hne, zero_add]

end Settled

/-! ## A submit that commits -/

section Submitted

variable {market : Market} {order : Order} {cmd : OrderSubmitCommand} {fs : List (Fill ℕ ℚ ℚ)}
  {finish : Order → Order} {release : List Posting} {q : Queues} {rest : List (Resting ℕ ℚ ℚ)}

/-- A maker's row after a trade. -/
theorem makerAfter_limitStatus {symbol : String} {side : Side} {f : Fill ℕ ℚ ℚ} {maker : Order}
    (h : Makes m.db symbol side f maker) (hs : maker.Sound) :
    (makerAfter maker f.qty maker).LimitStatus := by
  have hfilled : 0 < maker.filledQty + f.qty := add_pos_of_nonneg_of_pos hs.filled h.pos
  have hsum := hs.sum
  have hle := h.le
  by_cases hleave : maker.leaveQty - f.qty ≤ 0
  · have hzero : maker.leaveQty - f.qty = 0 := le_antisymm hleave (sub_nonneg.mpr hle)
    refine ⟨?_, ?_, ?_⟩
    · simp [makerAfter, hleave, hfilled.ne']
    · simp only [makerAfter, hleave, if_true, reduceCtorEq, false_iff, not_and, not_lt]
      intro _
      linarith
    · simp [makerAfter, hzero]
  · refine ⟨?_, ?_, ?_⟩
    · simp [makerAfter, hleave, hfilled.ne']
    · simp only [makerAfter, hleave, if_false, true_iff]
      exact ⟨hfilled, by linarith⟩
    · simp only [makerAfter, hleave, if_false, reduceCtorEq, false_iff]
      intro e
      exact hleave e.le

/-- The row of a `LIMIT` taker after its trades. -/
theorem orderAfterMatch_limitStatus {o : Order} {leave : ℚ} (h0 : 0 ≤ leave)
    (hle : leave ≤ o.quantity)
    (hq : 0 < o.quantity) : (orderAfterMatch leave o.quantity o).LimitStatus := by
  rcases h0.eq_or_lt with rfl | h0
  · refine ⟨?_, ?_, ?_⟩ <;> simp [orderAfterMatch, hq.ne']
  · have hn : ¬leave ≤ 0 := not_le.mpr h0
    by_cases hf : 0 < o.quantity - leave
    · refine ⟨?_, ?_, ?_⟩
      · simp [orderAfterMatch, hn, hf, hf.ne']
      · simp [orderAfterMatch, hn, hf, h0]
      · simp [orderAfterMatch, hn, hf, h0.ne']
    · have hzero : o.quantity - leave = 0 := le_antisymm (not_lt.mp hf) (sub_nonneg.mpr hle)
      refine ⟨?_, ?_, ?_⟩
      · simp [orderAfterMatch, hn, hzero]
      · simp [orderAfterMatch, hn, hzero]
      · simp [orderAfterMatch, hn, hzero, h0.ne']

/-- The row of a `MARKET` taker after its sweep. -/
theorem marketAfter_status {o : Order} {remaining : ℚ} (h0 : 0 ≤ remaining)
    (hle : remaining ≤ o.quantity) (hq : 0 < o.quantity) :
    (marketAfter o remaining o).status = .CANCELLED ∧ (marketAfter o remaining o).filledQty = 0 ∨
      (marketAfter o remaining o).status = .FILLED ∧ 0 < (marketAfter o remaining o).filledQty := by
  unfold marketAfter
  rcases h0.eq_or_lt with rfl | h0
  · rw [if_neg (lt_irrefl _)]
    exact Or.inr ⟨by simp [orderAfterMatch], by simpa [orderAfterMatch] using hq⟩
  · rw [if_pos h0]
    by_cases he : o.quantity = remaining
    · exact Or.inl ⟨by simp [residualAfter, he], by simp [residualAfter, orderAfterMatch, he]⟩
    · refine Or.inr ⟨by simp [residualAfter, he], ?_⟩
      exact sub_pos.mpr (lt_of_le_of_ne hle fun e => he e.symm)

/-- **A committed submit keeps the rows and the trades in agreement**, when the taker's row
says what it traded. -/
theorem Settler.Submitted.reported (h : Submitted market order cmd fs finish release q m m')
    (hc : Crossing m cmd.symbol order finish fs rest) (hs : Safe m) (hr : m.db.Reported)
    (hfilled : (finish order).filledQty = order.filledQty + (fs.map (·.qty)).sum)
    (hlimit : order.type = .LIMIT → (finish order).LimitStatus)
    (hmarket : order.type = .MARKET → (finish order).status = .CANCELLED ∧
      (finish order).filledQty = 0 ∨
      (finish order).status = .FILLED ∧ 0 < (finish order).filledQty) : m'.db.Reported := by
  obtain ⟨rows, db₁, hset, -, htrades, -⟩ := h.settled
  obtain ⟨htaker, hmakers, hothers⟩ := h.order? hc
  have htraded : ∀ id, m'.db.traded id = m.db.traded id +
      (fs.map fun f => if f.id = id ∨ order.id = id then f.qty else 0).sum := by
    intro id
    rw [Db.traded, htrades, hset.trades, List.map_append, List.sum_append, hset.sum_quantityOf]
    rfl
  have hsome : ∀ id, (m.db.order? id).isSome → (m'.db.order? id).isSome := fun id =>
    (Db.order?_isSome_of_keys (h.map_key hc) id).mpr
  refine ⟨fun id o' ho' => ?_, fun t ht => ?_⟩
  · by_cases h₁ : id = order.id
    · -- the taker
      subst h₁
      obtain rfl : finish order = o' := Option.some.inj (htaker.symm.trans ho')
      have hfix := hc.fixed order
      refine ⟨?_, fun ht _ => hlimit (hfix.type ▸ ht), fun ht => Or.inr (hmarket (hfix.type ▸ ht))⟩
      rw [hfilled, hfix.id, htraded, (hr.rows _ _ hc.horder).filled]
      simp
    have hne : ¬order.id = id := fun e => h₁ e.symm
    by_cases h₂ : id ∈ fs.map (·.id)
    · -- a maker
      obtain ⟨f, hf, rfl⟩ := List.mem_map.mp h₂
      obtain ⟨maker, hm, hm'⟩ := hmakers f hf
      obtain ⟨maker₀, hmakes⟩ := hs.backed.makes tracks_le hc.consumed hf
      obtain rfl : maker₀ = maker := Option.some.inj (hmakes.row.symm.trans hm)
      obtain rfl : makerAfter maker₀ f.qty maker₀ = o' := Option.some.inj (hm'.symm.trans ho')
      refine ⟨?_, fun _ _ => makerAfter_limitStatus hmakes (hs.sound.rows _ _ hm), fun ht => ?_⟩
      · have hid : maker₀.id = f.id := Db.order?_id hm
        change maker₀.filledQty + f.qty = m'.db.traded maker₀.id
        rw [htraded, (hr.rows _ _ hm).filled, hid]
        simp only [hne, or_false]
        rw [sum_qty_of_nodup hc.nodup hf]
      · exact absurd (hmakes.type.symm.trans ht) (by decide)
    · -- another order
      rw [hothers id h₁ h₂] at ho'
      have hid : o'.id = id := Db.order?_id ho'
      have hrow := hr.rows _ _ ho'
      refine ⟨?_, hrow.limit, hrow.market⟩
      rw [htraded, hrow.filled, hid, List.sum_eq_zero, add_zero]
      intro x hx
      obtain ⟨f, hf, rfl⟩ := List.mem_map.mp hx
      refine if_neg ?_
      rw [not_or]
      exact ⟨fun e => h₂ (e ▸ List.mem_map_of_mem hf), hne⟩
  · rw [htrades, hset.trades, List.mem_append] at ht
    rcases ht with ht | ht
    · obtain ⟨hpos, hmaker, htk⟩ := hr.trades t ht
      exact ⟨hpos, hsome _ hmaker, hsome _ htk⟩
    · have hmem := List.mem_map_of_mem (f := fun row : Trade =>
        (row.makerOrderId, row.takerOrderId, row.quantity)) ht
      rw [hset.map_rows, List.map_map] at hmem
      obtain ⟨f, hf, he⟩ := List.mem_map.mp hmem
      obtain ⟨he₁, he₂, he₃⟩ : f.id = t.makerOrderId ∧ order.id = t.takerOrderId ∧
          f.qty = t.quantity := by
        simpa [EngineTrade.ofFill] using he
      obtain ⟨maker, hmakes⟩ := hs.backed.makes tracks_le hc.consumed hf
      refine ⟨he₃ ▸ hmakes.pos, hsome _ ?_, hsome _ ?_⟩
      · rw [← he₁, hmakes.row]
        rfl
      · rw [← he₂, hc.horder]
        rfl

end Submitted

/-! ## Runs -/

section Runs

theorem submit_reported {cmd : OrderSubmitCommand} {r : Except Failure Result} (hs : Safe m)
    (hcmd : OrderCommand.SUBMIT cmd ∈ m.db.commands) (h : SubmitOutcome cmd m r m')
    (hr : m.db.Reported) : m'.db.Reported := by
  rcases h.unchanged_or with hdb | rfl
  · rwa [hdb]
  cases h with
  | committedLimit market order price hb ht hp hid hsub =>
    have hrow := hs.sound.rows _ _ hb.horder
    have hlive := (hrow.live hb.live).2
    have hsum := hrow.sum
    have hfilled := hrow.filled
    have hcons := fill_conserves (crosses (sideToEngine order.side) price) order.leaveQty
      ((m.queues cmd.symbol).queue (sideToEngine order.side).opp)
    have hle := fill_leave_le (crosses (sideToEngine order.side) price)
      ((m.queues_wf cmd.symbol).pos (sideToEngine order.side).opp) hlive.le
    refine hsub.reported (crossing_limit price hs.sound hcmd hb ht hid) hs hr ?_ (fun _ => ?_)
      fun hm => absurd (ht.symm.trans hm) (by decide)
    · rw [Book.add_leave, Book.add_fills]
      change order.quantity - _ = _
      linarith
    · rw [Book.add_leave]
      exact orderAfterMatch_limitStatus (fill_leave_nonneg _ hlive.le _) (by linarith) hrow.quantity
  | committedMarket market order l hb ht hl hsub =>
    have hrow := hs.sound.rows _ _ hb.horder
    have hpos : ∀ r ∈ l, 0 < r.qty := hl ▸ (m.queues_wf cmd.symbol).pos _
    have hwhole := hrow.whole ht (hrow.live hb.live).1
    have hsum := hrow.sum
    refine hsub.reported (crossing_market hs.sound hs.backed hcmd hb ht hl) hs hr ?_
      (fun hm => absurd (ht.symm.trans hm) (by decide)) fun _ => ?_
    · rw [sweepFill_sum hrow.quantity.le hpos, marketAfter_filledQty]
      linarith
    · exact marketAfter_status (sweepRemaining_nonneg _ _) (sweepRemaining_le hrow.quantity.le hpos)
        hrow.quantity

theorem cancel_reported {cmd : OrderCancelCommand} {r : Except Failure Result}
    (h : CancelOutcome cmd m r m') (hr : m.db.Reported) : m'.db.Reported := by
  rcases h.unchanged_or with hdb | ⟨market, order, ho, hm, live, hc⟩
  · rwa [hdb]
  have hmod := fun id => Db.order?_of_modify hc.orders (fun _ => rfl) id
  have htraded : ∀ id, m'.db.traded id = m.db.traded id := fun id => by
    unfold Db.traded
    rw [hc.trades]
  refine ⟨fun id o' ho' => ?_, fun t ht => ?_⟩
  · rw [hmod] at ho'
    split at ho'
    · rename_i e
      obtain ⟨o, ho₀, rfl⟩ := Option.map_eq_some_iff.mp ho'
      obtain rfl : order = o := by
        rw [← Db.order?_id ho] at ho
        exact Option.some.inj (ho.symm.trans (e ▸ ho₀))
      have hrow := hr.rows _ _ ho
      refine ⟨hrow.filled.trans (htraded _).symm, fun _ hne => absurd rfl hne, fun ht => ?_⟩
      -- a live `MARKET` order has no trade yet
      rcases hrow.market ht with ⟨-, h0⟩ | ⟨hst, -⟩ | ⟨hst, -⟩
      · exact Or.inr (Or.inl ⟨rfl, h0⟩)
      · simp [Order.terminal, hst] at live
      · simp [Order.terminal, hst] at live
    · have hrow := hr.rows _ _ ho'
      exact ⟨hrow.filled.trans (htraded _).symm, hrow.limit, hrow.market⟩
  · rw [hc.trades] at ht
    have hsome := Db.order?_isSome_of_keys (Db.map_key_of_modify hc.orders fun _ => rfl)
    obtain ⟨hpos, hmaker, htaker⟩ := hr.trades t ht
    exact ⟨hpos, (hsome _).mpr hmaker, (hsome _).mpr htaker⟩

theorem Db.Reported.congr {db db' : Db} (hr : db.Reported) (ho : db'.orders = db.orders)
    (ht : db'.trades = db.trades) : db'.Reported := by
  have htraded : ∀ id, db'.traded id = db.traded id := fun id => by
    unfold Db.traded
    rw [ht]
  refine ⟨fun id o h => ?_, fun t h => ?_⟩
  · rw [Db.order?_congr ho] at h
    have hrow := hr.rows id o h
    exact ⟨hrow.filled.trans (htraded _).symm, hrow.limit, hrow.market⟩
  · rw [Db.order?_congr ho, Db.order?_congr ho]
    exact hr.trades t (ht ▸ h)

/-- A new order has no trades. -/
theorem Placed.reported {s s' : Store} {o : Order} {market : Market} {cmd : OrderSubmitCommand}
    (h : Placed s s' o market cmd) (hs : s.Sound) (hr : s.db.Reported) : s'.db.Reported := by
  have htraded : ∀ id, s'.db.traded id = s.db.traded id := fun id => by
    unfold Db.traded
    rw [h.trades]
  have hkeep : ∀ id, (s.db.order? id).isSome → (s'.db.order? id).isSome := fun id hid => by
    obtain ⟨x, hx⟩ := Option.isSome_iff_exists.mp hid
    exact Option.isSome_iff_exists.mpr ⟨x, h.order?_of_some hx⟩
  refine ⟨fun id o' ho' => ?_, fun t ht => ?_⟩
  · rw [h.order? hs] at ho'
    split at ho'
    · obtain rfl := Option.some.inj ho'
      refine ⟨?_, fun _ _ => ⟨?_, ?_, ?_⟩, fun _ => Or.inl ⟨h.status, h.filledQty⟩⟩
      · -- every trade is of orders that had rows before
        rw [h.filledQty, htraded, Db.traded, List.sum_eq_zero]
        intro x hx
        obtain ⟨t, ht, rfl⟩ := List.mem_map.mp hx
        obtain ⟨-, hmaker, htaker⟩ := hr.trades t ht
        refine if_neg ?_
        rintro (e | e)
        · rw [e, h.order?_none hs] at hmaker
          cases hmaker
        · rw [e, h.order?_none hs] at htaker
          cases htaker
      · simp [h.status, h.filledQty]
      · simp [h.status, h.filledQty]
      · simp [h.status, h.leaveQty, h.quantity.ne']
    · have hrow := hr.rows _ _ ho'
      exact ⟨hrow.filled.trans (htraded _).symm, hrow.limit, hrow.market⟩
  · rw [h.trades] at ht
    obtain ⟨hpos, hmaker, htaker⟩ := hr.trades t ht
    exact ⟨hpos, hkeep _ hmaker, hkeep _ htaker⟩

theorem api_reported {A : WalletField → Prop} {s s' : Store} (hs : s.Sound) (h : ApiEffect A s s')
    (hr : s.db.Reported) : s'.db.Reported := by
  cases h with
  | idle hseq hdb => rwa [hdb]
  | placed o market cmd h => exact h.reported hs hr
  | requested cmd o hseq h =>
    obtain ⟨row, -, -, hdb⟩ := h.outbox
    exact hr.congr (by rw [hdb]) (by rw [hdb])
  | marketChanged symbol input hseq hdb => exact hr.congr (by rw [hdb]) (by rw [hdb])
  | adjusted userId asset field w value hfield hseq hw hn hdb =>
    exact hr.congr (by rw [hdb]) (by rw [hdb])

/-- **In every reachable state the rows report the trades.** -/
theorem run_reported (h : m.Initial) (steps : List Step) : (m.run steps).db.Reported := by
  refine run_tables (I := Db.Reported) h ?_ (fun hs hcmd ho => submit_reported hs hcmd ho)
    (fun _ ho => cancel_reported ho) (fun hs he => api_reported hs he)
    (A := fun _ => True) fun l _ => l.adjusts_any
  refine ⟨fun id o ho => ?_, fun t ht => ?_⟩
  · have hmem := Db.mem_of_order? ho
    rw [h.orders] at hmem
    simp at hmem
  · rw [h.trades] at ht
    simp at ht

/-- An order has traded nothing exactly when it has no trade. -/
theorem Db.Reported.traded_eq_zero_iff {db : Db} (hr : db.Reported) (id : ℕ) :
    db.traded id = 0 ↔ ∀ t ∈ db.trades, t.makerOrderId ≠ id ∧ t.takerOrderId ≠ id := by
  have hpos : ∀ t ∈ db.trades, 0 ≤ t.quantityOf id := by
    intro t ht
    unfold Trade.quantityOf
    split
    · exact (hr.trades t ht).1.le
    · exact le_rfl
  constructor
  · intro hzero t ht
    have hle := List.single_le_sum (by simpa using hpos) _
        (List.mem_map_of_mem (f := Trade.quantityOf id) ht)
    by_contra hn
    rw [not_and_or, not_not, not_not] at hn
    rw [show (db.trades.map (Trade.quantityOf id)).sum = 0 from hzero,
      Trade.quantityOf, if_pos hn] at hle
    exact absurd (hr.trades t ht).1 (not_lt.mpr hle)
  · intro hnone
    refine List.sum_eq_zero fun x hx => ?_
    obtain ⟨t, ht, rfl⟩ := List.mem_map.mp hx
    refine if_neg ?_
    rw [not_or]
    exact hnone t ht

/-- A `MARKET` order whose submit commits is closed. -/
theorem committed_market {cmd : OrderSubmitCommand} {o : Order} (hs : Safe m)
    (hcmd : OrderCommand.SUBMIT cmd ∈ m.db.commands) (h : SubmitOutcome cmd m (.ok .ok) m')
    (ho : m.db.order? cmd.orderId = some o) (ht : o.type = .MARKET) :
    ∃ o', m'.db.order? cmd.orderId = some o' ∧ o'.type = .MARKET ∧ o'.terminal = true := by
  cases h with
  | committedLimit market order price hb htype hp hid hsub =>
    obtain rfl : order = o := Option.some.inj (hb.horder.symm.trans ho)
    exact absurd (htype.symm.trans ht) (by decide)
  | committedMarket market order l hb htype hl hsub =>
    have hc := crossing_market hs.sound hs.backed hcmd hb htype hl
    have hrow := (hsub.order? hc).1
    rw [Db.order?_id hb.horder] at hrow
    exact ⟨_, hrow, (hc.fixed order).type.trans htype, marketAfter_terminal _ _ _⟩

/-- **The order rows.** In every reachable state each row has `filledQty` and `leaveQty` that add up
to its quantity, the first of them the sum over the trades of the order, and a `LIMIT` row that was
not cancelled has the status that they say. A `MARKET` order whose `SUBMIT` commits is cancelled if
it has no trade, and filled otherwise. -/
theorem order_rows (h : m.Initial) (steps : List Step) :
    (∀ o ∈ (m.run steps).db.orders, o.filledQty + o.leaveQty = o.quantity ∧ 0 ≤ o.leaveQty ∧
      o.filledQty = (m.run steps).db.traded o.id ∧
      (o.type = .LIMIT → o.status ≠ .CANCELLED →
        (o.status = .OPEN ↔ o.filledQty = 0) ∧
        (o.status = .PARTIAL ↔ 0 < o.filledQty ∧ o.filledQty < o.quantity) ∧
        (o.status = .FILLED ↔ o.leaveQty = 0))) ∧
    ∀ cmd faults o, OrderCommand.SUBMIT cmd ∈ (m.run steps).db.commands →
      (m.run steps).db.order? cmd.orderId = some o → o.type = .MARKET →
      (handleMessage (.SUBMIT cmd) ((m.run steps).withFaults faults)).1 = .ok →
      ∃ o', ((m.run steps).deliver (.SUBMIT cmd) faults).db.order? cmd.orderId = some o' ∧
        (o'.status = .CANCELLED ↔ ∀ t ∈ ((m.run steps).deliver (.SUBMIT cmd) faults).db.trades,
          t.makerOrderId ≠ o.id ∧ t.takerOrderId ≠ o.id) ∧
        (o'.status = .FILLED ↔ ∃ t ∈ ((m.run steps).deliver (.SUBMIT cmd) faults).db.trades,
          t.makerOrderId = o.id ∨ t.takerOrderId = o.id) := by
  have hs := run_safe h steps
  have hr := run_reported h steps
  refine ⟨fun o ho => ?_, fun cmd faults o hcmd ho ht hok => ?_⟩
  · have hget := hs.sound.order?_of_mem ho
    have hrow := hs.sound.rows _ _ hget
    have hrep := hr.rows _ _ hget
    refine ⟨hrow.sum, hrow.leave, hrep.filled, fun hl hc => ?_⟩
    have hst := hrep.limit hl hc
    exact ⟨hst.isOpen, hst.isPartial, hst.isFilled⟩
  · have hs₀ := hs.of_same ((m.run steps).same_withFaults faults)
    rcases deliver_eq (m.run steps) (.SUBMIT cmd) faults with ⟨hnot, -⟩ | ⟨-, r, m₁, hd, heq⟩
    · exact absurd hcmd hnot
    have hout := dispatch_submit_of_sound hs₀.sound hd
    have hr₁ : m₁.db.Reported :=
      submit_reported (m := (m.run steps).withFaults faults) hs₀ hcmd hout hr
    obtain rfl : r = .ok .ok := by
      rw [handleMessage, hd] at hok
      cases r with
      | error e => cases hok
      | ok r => exact congrArg _ hok
    obtain ⟨o', ho', ht', hterm⟩ := committed_market hs₀ hcmd hout ho ht
    have hid : o'.id = o.id := (Db.order?_id ho').trans (Db.order?_id ho).symm
    have hrow := hr₁.rows _ _ ho'
    have hnone := hr₁.traded_eq_zero_iff o.id
    rw [← hid, ← hrow.filled, hid] at hnone
    have hclosed : (o'.status = .CANCELLED ↔ o'.filledQty = 0) ∧
        (o'.status = .FILLED ↔ ¬o'.filledQty = 0) := by
      rcases hrow.market ht' with ⟨hst, -⟩ | ⟨hst, h0⟩ | ⟨hst, hpos⟩
      · simp [Order.terminal, hst] at hterm
      · simp [hst, h0]
      · simp [hst, hpos.ne']
    rw [heq]
    refine ⟨o', ho', hclosed.1.trans hnone, hclosed.2.trans ?_⟩
    rw [hnone]
    simp only [not_forall, not_and_or, not_not, exists_prop, ne_eq]
    rfl

/-- The order of `alice` is filled by one trade, and the one of `bob` in part. -/
theorem order_rows_trading : Sample.exchange.Initial ∧
    (Sample.exchange.run Sample.trading).db.traded 1 = 1 ∧
    (Sample.exchange.run Sample.trading).db.order? 1 =
      some ⟨1, "bob", "BTC-USDT", .ASK, .LIMIT, some 100, 2, 1, 1, .PARTIAL, some ⟨0⟩⟩ := by
  have hrow := (order_rows Sample.exchange_initial Sample.trading).1
    ⟨1, "bob", "BTC-USDT", .ASK, .LIMIT, some 100, 2, 1, 1, .PARTIAL, some ⟨0⟩⟩ (by decide +kernel)
  exact ⟨Sample.exchange_initial, hrow.2.2.1.symm, by decide +kernel⟩

end Runs

end Orbit
