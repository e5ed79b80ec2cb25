import Orbit.Matcher.Delivery
import Orbit.Matcher.Published

/-!
# Commands that change nothing

A command can be handled without a trace: the tables and the resting orders are the same afterwards.
When the settlement is reached this is rare, since a transaction that commits publishes at least one
event, and one that fails has changed the book before.

* `submit_inert_iff`: a `SUBMIT` changes nothing exactly when each order that it would
  settle is refused by the book at once, or is a `MARKET` order that finds nothing to match
  and cannot be refunded.
* `cancel_inert_iff`: a `CANCEL` changes nothing exactly when each order that it would cancel does
  not rest and its reservation cannot be released.
-/

namespace Orbit

open PriceTime Settler Consumer

variable {E : Engine} {m m' : Matcher E}

/-- The tables and the resting orders are the same. -/
def Matcher.Inert (m m' : Matcher E) : Prop :=
    m'.db = m.db ∧ ∀ symbol, m'.queues symbol = m.queues symbol

theorem Matcher.Same.inert (h : m.Same m') : m.Inert m' := ⟨h.db, h.queues⟩

theorem Matcher.Same.inert_iff {m₀ : Matcher E} (h : m.Same m') : m₀.Inert m' ↔ m₀.Inert m := by
  unfold Matcher.Inert
  rw [h.db]
  simp only [h.queues]

/-- Rows that were added to the outbox show. -/
theorem not_inert_of_adds {c : Topic × String × Payload} {cs : List (Topic × String × Payload)}
    (h : Adds m.db m'.db (c :: cs)) : ¬m.Inert m' := by
  rintro ⟨hdb, -⟩
  obtain ⟨out, hout, hcontents⟩ := h
  rw [hdb] at hout
  obtain rfl : out = [] := List.append_right_eq_self.mp hout.symm
  cases hcontents

/-! ## Submits -/

/-- The guards of `settleSubmit` let the command through to an order. -/
structure Lets (cmd : OrderSubmitCommand) (m : Matcher E) (market : Market)
    (order : Order) : Prop where
  hmarket : m.db.market? cmd.symbol = some market
  horder : m.db.order? cmd.orderId = some order
  commandId : ¬(order.commandId.isSome ∧ order.commandId ≠ some cmd.commandId)
  live : order.terminal = false

/-- The settlement of the order is given up before it has changed anything. -/
def SubmitStuck (cmd : OrderSubmitCommand) (m : Matcher E) (market : Market)
    (order : Order) : Prop :=
  match order.type with
  | .LIMIT => order.id ∈ (m.queues cmd.symbol).ids
  | .MARKET =>
    if (m.queues cmd.symbol).queue (sideToEngine order.side).opp = [] then
      ¬Affords m.db (residualPostings market order order.quantity)
    else sweepId order.id 0 ∈ (m.queues cmd.symbol).ids

section Submit

variable {cmd : OrderSubmitCommand} {market : Market} {order : Order}

/-- A sweep whose first turn is refused does not commit. -/
theorem submit_not_ok_of_refused (hcalm : m.store.Calm) (hlets : Lets cmd m market order)
    (ht : order.type = .MARKET) (h0 : 0 < order.quantity)
    (hopp : (m.queues cmd.symbol).queue (sideToEngine order.side).opp ≠ [])
    (hid : sweepId order.id 0 ∈ (m.queues cmd.symbol).ids) :
    (dispatch (.SUBMIT cmd) m).1 ≠ .ok .ok := by
  rw [Ne, dispatch_submit_isOk_iff]
  rintro ⟨r, m', h⟩
  obtain ⟨a, m₁, -, hbody⟩ := settleSubmit_eq_ok hcalm hlets.hmarket hlets.horder hlets.commandId
    hlets.live h
  obtain ⟨rows, m₂, hrun, -⟩ := submitBody_eq_ok hbody
  rw [matchSubmit_market ht, executeMarketOrder_eq] at hrun
  obtain ⟨snapshot, m₃, hsnap, hrun⟩ := Tx.bind_eq_ok.mp hrun
  cases hsnap
  obtain ⟨r', m₄, hlevels, -⟩ := Tx.bind_eq_ok.mp hrun
  rw [getOrderbook_levels, Matcher.queues_setBook_book] at hlevels
  have hne : (levels ((m.queues cmd.symbol).queue (sideToEngine order.side).opp)).take
      bookLimit ≠ [] := by
    rw [Ne, List.take_eq_nil_iff, levels_eq_nil, not_or]
    exact ⟨by decide, hopp⟩
  obtain ⟨v, vs, hv⟩ := List.exists_cons_of_ne_nil hne
  rw [hv, List.map_cons] at hlevels
  obtain ⟨msg, hrefused⟩ := sweepLevels_eq_refused (m.setBook cmd.symbol (m.book cmd.symbol))
    (by rwa [Matcher.queues_setBook_book]) h0 0 ⟨v.price, v.qty⟩ (vs.map fun v => ⟨v.price, v.qty⟩)
  rw [hrefused] at hlevels
  cases hlevels

/-- A `MARKET` order that finds nothing commits exactly when what was reserved for
it can be refunded. -/
theorem submit_ok_iff_of_nothing (hcalm : m.store.Calm) (hlets : Lets cmd m market order)
    (ht : order.type = .MARKET) (hrow : order.Sound)
    (hopp : (m.queues cmd.symbol).queue (sideToEngine order.side).opp = []) :
    (dispatch (.SUBMIT cmd) m).1 = .ok .ok ↔
      Affords m.db (residualPostings market order order.quantity) := by
  have hmatch : Matchable m.db cmd.commandId order
      ((sweepFill order.quantity []).fills.map .ofFill) :=
    { limit := fun _ => hrow.price_pos
      row := by rw [Db.order?_id hlets.horder, hlets.horder]; rfl
      makers := fun t ht => by cases ht
      nodup := List.nodup_nil
      fresh := fun _ _ k hk => absurd hk (Nat.not_lt_zero k) }
  have hiff := settleSubmit_market_iff hcalm hlets.hmarket hlets.horder
    hlets.commandId hlets.live ht
    hrow.quantity hopp hmatch
  have hremaining : sweepRemaining order.quantity [] = order.quantity := by
    change order.quantity - min order.quantity 0 = order.quantity
    rw [min_eq_right hrow.quantity.le, sub_zero]
  have hfree : TurnsFree order.id 0 ((m.queues cmd.symbol).queue (sideToEngine order.side)) []
      (levels ([] : List (Resting ℕ ℚ ℚ))) bookLimit order.quantity := fun n _ hn =>
    absurd hn (Nat.not_lt_zero n)
  rw [hremaining] at hiff
  rw [dispatch_submit_isOk_iff, hiff]
  exact and_iff_right hfree

/-- **A `SUBMIT` that changes nothing.** -/
theorem submit_inert_iff (hs : m.store.Sound) (hcalm : m.store.Calm) (cmd : OrderSubmitCommand) :
    m.Inert (dispatch (.SUBMIT cmd) m).2 ↔
      ∀ market order, Lets cmd m market order → SubmitStuck cmd m market order := by
  rcases hd : dispatch (.SUBMIT cmd) m with ⟨r, m'⟩
  have hok : r = .ok .ok → ¬m.Inert m' := by
    rintro rfl
    rcases dispatch_submit_published hd with ⟨hne, -⟩
      | ⟨-, o, persisted, rows, -, -, -, v, w, ts, hadds⟩
    · exact absurd rfl hne
    · exact not_inert_of_adds hadds
  -- once the transaction has begun, the condition is about the order that was read
  have hstuck : ∀ {market order}, Begun m cmd market order →
      ((∀ market order, Lets cmd m market order → SubmitStuck cmd m market order) ↔
        SubmitStuck cmd m market order) := by
    intro market order hb
    refine ⟨fun h => h market order ⟨hb.hmarket, hb.horder, hb.commandId, hb.live⟩, ?_⟩
    intro h market' order' hlets
    obtain rfl : market = market' := Option.some.inj (hb.hmarket.symm.trans hlets.hmarket)
    obtain rfl : order = order' := Option.some.inj (hb.horder.symm.trans hlets.horder)
    exact h
  have hstuckMarket : ∀ {market order}, order.type = .MARKET → (SubmitStuck cmd m market order ↔
      if (m.queues cmd.symbol).queue (sideToEngine order.side).opp = [] then
        ¬Affords m.db (residualPostings market order order.quantity)
      else sweepId order.id 0 ∈ (m.queues cmd.symbol).ids) := by
    intro market order ht
    rw [SubmitStuck, ht]
  cases dispatch_submit_of_sound hs hd with
  | unread e n hn hf hsame =>
    rw [hcalm] at hf
    cases hf
  | skipped hsame why =>
    refine iff_of_true hsame.inert fun market order hlets => ?_
    rcases why with hmarket | horder | ⟨o, ho, hguard | hterm⟩
    · rw [hlets.hmarket] at hmarket
      cases hmarket
    · rw [hlets.horder] at horder
      cases horder
    · obtain rfl : order = o := Option.some.inj (hlets.horder.symm.trans ho)
      exact absurd hguard hlets.commandId
    · obtain rfl : order = o := Option.some.inj (hlets.horder.symm.trans ho)
      rw [hlets.live] at hterm
      cases hterm
  | refused e market order hb ht why hsame =>
    rw [hstuck hb]
    refine iff_of_true hsame.inert ?_
    obtain ⟨p, hp, -⟩ := (hs.rows _ _ hb.horder).limit ht
    rw [SubmitStuck, ht]
    exact why.resolve_left (by simp [hp])
  | abortedLimit e market order price hb ht hp hid hdb hbook =>
    rw [hstuck hb, SubmitStuck, ht]
    refine iff_of_false (fun hinert => ?_) hid
    have hleave := ((hs.rows _ _ hb.horder).live hb.live).2
    exact Book.add_ne hid _ _ hleave (hbook.queues_eq.symm.trans (hinert.2 cmd.symbol))
  | abortedMarket e market order hb ht hdb hswept hkept =>
    rw [hstuck hb, hstuckMarket ht, Matcher.Inert, queues_eq_iff hswept.queues_ne, hkept,
      and_iff_right hdb]
    split_ifs with hopp
    · refine iff_of_true (Or.inl hopp) fun ha => ?_
      have hcommits := (submit_ok_iff_of_nothing hcalm
        ⟨hb.hmarket, hb.horder, hb.commandId, hb.live⟩ ht (hs.rows _ _ hb.horder) hopp).mpr ha
      rw [hd] at hcommits
      cases hcommits
    · exact or_iff_right hopp
  | committedLimit market order price hb ht hp hid hsub =>
    rw [hstuck hb, SubmitStuck, ht]
    exact iff_of_false (hok rfl) hid
  | committedMarket market order l hb ht hl hsub =>
    have hlets : Lets cmd m market order := ⟨hb.hmarket, hb.horder, hb.commandId, hb.live⟩
    have hrow := hs.rows _ _ hb.horder
    rw [hstuck hb, hstuckMarket ht]
    refine iff_of_false (hok rfl) ?_
    split_ifs with hopp
    · rw [not_not]
      exact (submit_ok_iff_of_nothing hcalm hlets ht hrow hopp).mp (by rw [hd])
    · exact fun hid => submit_not_ok_of_refused hcalm hlets ht hrow.quantity hopp hid (by rw [hd])

end Submit

/-! ## Cancels -/

/-- A commit closes the row. -/
theorem Settler.Cancelled.not_inert {market : Market} {order : Order} {id : ℕ}
    (h : Cancelled market order m m') (ho : m.db.order? id = some order)
    (hlive : order.terminal = false) :
    ¬m.Inert m' := by
  rintro ⟨hdb, -⟩
  have hself : m.db.order? order.id = some order := by rw [Db.order?_id ho, ho]
  have hrow : m'.db.order? order.id = some { order with status := .CANCELLED } := by
    have hmodify := Table.find?_modify_self (k := order.id)
      (f := fun o : Order => { o with status := .CANCELLED }) (fun _ => rfl) m.db.orders
    rw [Db.order?, h.orders, hmodify]
    exact congrArg _ hself
  rw [hdb, hself, Option.some.injEq] at hrow
  rw [hrow] at hlive
  cases hlive

/-- **A `CANCEL` that changes nothing.** -/
theorem cancel_inert_iff (hs : m.store.Sound) (hcalm : m.store.Calm) (cmd : OrderCancelCommand) :
    m.Inert (dispatch (.CANCEL cmd) m).2 ↔
      ∀ market order, m.db.order? cmd.orderId = some order →
      m.db.market? order.market = some market →
        order.terminal = false →
        order.id ∉ (m.queues order.market).ids ∧ ¬Affords m.db (releasePostings market order) := by
  rcases hd : dispatch (.CANCEL cmd) m with ⟨r, m'⟩
  have hiff : ∀ {market order}, m.db.order? cmd.orderId = some order →
      m.db.market? order.market = some market → order.terminal = false →
      (r = .ok .ok ↔ Affords m.db (releasePostings market order)) := by
    intro market order ho hm hlive
    rw [← settleCancel_iff hcalm ho hlive hm fun _ => (hs.rows _ _ ho).price_pos,
      ← dispatch_cancel_isOk_iff, hd]
  cases dispatch_cancel hd with
  | unread e n hn hf hsame =>
    rw [hcalm] at hf
    cases hf
  | skipped r hsame why =>
    refine iff_of_true hsame.inert fun market order ho hm hlive => ?_
    rcases why with hnone | ⟨o, ho', hterm | hnone⟩
    · rw [ho] at hnone
      cases hnone
    · obtain rfl : order = o := Option.some.inj (ho.symm.trans ho')
      rw [hlive] at hterm
      cases hterm
    · obtain rfl : order = o := Option.some.inj (ho.symm.trans ho')
      rw [hm] at hnone
      cases hnone
  | aborted e market order hf ho hm hlive hdb hbook =>
    rw [Matcher.Inert, queues_eq_iff hbook.queues_ne, hbook.queues_eq, Book.cancel_eq_iff,
      and_iff_right hdb]
    have hnot : ¬Affords m.db (releasePostings market order) := fun ha => by
      cases (hiff ho hm hlive).mpr ha
    refine ⟨fun hid market' order' ho' hm' _ => ?_, fun h => (h market order ho hm hlive).1⟩
    obtain rfl : order = order' := Option.some.inj (ho.symm.trans ho')
    obtain rfl : market = market' := Option.some.inj (hm.symm.trans hm')
    exact ⟨hid, hnot⟩
  | committed market order ho hm hlive hcancelled =>
    refine iff_of_false ?_ fun h => (h market order ho hm hlive).2 ((hiff ho hm hlive).mp rfl)
    exact hcancelled.not_inert ho hlive

end Orbit
