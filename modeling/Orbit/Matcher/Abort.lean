import Orbit.Matcher.Safety

/-!
# What an aborted transaction leaves in the book

A transaction of the settler that fails restores the tables. The book it works on is in memory, and
both kinds of submit and the cancel change it before their first statement: a `LIMIT` order is
added, a `MARKET` order sweeps the first level, and a cancelled order is taken off. So an abort
leaves the book as it was exactly when it comes before that change, or when there is nothing to
change: `abort_keeps_book_iff`.
-/

namespace Orbit

open PriceTime Settler Consumer

variable {E : Engine} {m m' : Matcher E}

/-- The command fails before its transaction begins, or its first operation on the book does
nothing: the order to add is refused, there is nothing to sweep or the first sweep is refused, or
the order to cancel does not rest. -/
def BookSpared (cmd : OrderCommand) (m : Matcher E) : Prop :=
  (∃ n ≤ 2, m.store.faults = some n) ∨
  match cmd with
  | .SUBMIT cmd => ∃ order, m.db.order? cmd.orderId = some order ∧
      match order.type with
      | .LIMIT => order.price = none ∨ order.id ∈ (m.queues cmd.symbol).ids
      | .MARKET => (m.queues cmd.symbol).queue (sideToEngine order.side).opp = [] ∨
          sweepId order.id 0 ∈ (m.queues cmd.symbol).ids
  | .CANCEL cmd => ∃ order, m.db.order? cmd.orderId = some order ∧
      order.id ∉ (m.queues order.market).ids

/-- A change of the book of one market is a change of the books. -/
theorem queues_eq_iff {symbol : String} (h : ∀ s, s ≠ symbol → m'.queues s = m.queues s) :
    (∀ s, m'.queues s = m.queues s) ↔ m'.queues symbol = m.queues symbol := by
  refine ⟨fun hall => hall symbol, fun heq s => ?_⟩
  by_cases hs : s = symbol
  · rw [hs, heq]
  · exact h s hs

theorem submit_abort {cmd : OrderSubmitCommand} {e : Failure}
    (hpos : ∀ order, m.db.order? cmd.orderId = some order → order.terminal = false →
      0 < order.leaveQty) (h : SubmitOutcome cmd m (.error e) m') :
    m'.db = m.db ∧ ((∀ s, m'.queues s = m.queues s) ↔ BookSpared (.SUBMIT cmd) m) := by
  -- once the transaction has begun, the condition is about the order that was read
  have hspared : ∀ {market order}, Begun m cmd market order → (BookSpared (.SUBMIT cmd) m ↔
      match order.type with
      | .LIMIT => order.price = none ∨ order.id ∈ (m.queues cmd.symbol).ids
      | .MARKET => (m.queues cmd.symbol).queue (sideToEngine order.side).opp = [] ∨
          sweepId order.id 0 ∈ (m.queues cmd.symbol).ids) := by
    intro market order hb
    refine ⟨?_, fun hc => Or.inr ⟨order, hb.horder, hc⟩⟩
    rintro (⟨n, hn, hf⟩ | ⟨o, ho, hc⟩)
    · exact absurd hf (hb.faults n hn)
    · obtain rfl : order = o := Option.some.inj (hb.horder.symm.trans ho)
      exact hc
  cases h with
  | unread e n hn hf hsame => exact ⟨hsame.db, fun _ => Or.inl ⟨n, hn, hf⟩, fun _ => hsame.queues⟩
  | refused e market order hb ht why hsame =>
    refine ⟨hsame.db, fun _ => (hspared hb).mpr ?_, fun _ => hsame.queues⟩
    rw [ht]
    exact why
  | abortedLimit e market order price hb ht hp hid hdb hbook =>
    refine ⟨hdb, ?_⟩
    rw [queues_eq_iff hbook.queues_ne, hbook.queues_eq, hspared hb, ht]
    refine ⟨fun heq => absurd heq (Book.add_ne hid _ _ (hpos order hb.horder hb.live)), ?_⟩
    rintro (hnone | hmem)
    · rw [hp] at hnone
      cases hnone
    · exact absurd hmem hid
  | abortedMarket e market order hb ht hdb hswept hkept =>
    refine ⟨hdb, ?_⟩
    rw [queues_eq_iff hswept.queues_ne, hkept, hspared hb, ht]

theorem cancel_abort {cmd : OrderCancelCommand} {e : Failure}
    (h : CancelOutcome cmd m (.error e) m') :
    m'.db = m.db ∧ ((∀ s, m'.queues s = m.queues s) ↔ BookSpared (.CANCEL cmd) m) := by
  cases h with
  | unread e n hn hf hsame => exact ⟨hsame.db, fun _ => Or.inl ⟨n, hn, hf⟩, fun _ => hsame.queues⟩
  | aborted e market order hf ho hm live hdb hbook =>
    refine ⟨hdb, ?_⟩
    rw [queues_eq_iff hbook.queues_ne, hbook.queues_eq, Book.cancel_eq_iff]
    refine ⟨fun hid => Or.inr ⟨order, ho, hid⟩, ?_⟩
    rintro (⟨n, hn, hn'⟩ | ⟨o, ho', hid⟩)
    · exact absurd hn' (hf n hn)
    · obtain rfl : order = o := Option.some.inj (ho.symm.trans ho')
      exact hid

/-- **An abort restores the tables, and leaves the book as it was exactly when the book was
spared.** The order of the command, unless it is closed, has a quantity and something left to match,
as every order that was placed has. -/
theorem abort_keeps_book_iff {cmd : OrderCommand} {e : Failure}
    (hpos : ∀ order, m.db.order? cmd.orderId = some order → order.terminal = false →
      0 < order.quantity ∧ 0 < order.leaveQty) (h : dispatch cmd m = (.error e, m')) :
    m'.db = m.db ∧ ((∀ symbol, m'.queues symbol = m.queues symbol) ↔ BookSpared cmd m) := by
  cases cmd with
  | SUBMIT cmd =>
    exact submit_abort (fun order ho hlive => (hpos order ho hlive).2) (dispatch_submit hpos h)
  | CANCEL cmd => exact cancel_abort (dispatch_cancel h)

namespace Sample

/-- `bob` asks 10 at 200, twice what `alice` has, and `alice` buys them at the market. -/
def unpayable : List Step :=
  [.submit "bob" (limit .ASK 200 10) none, .deliver (submitted 0 1 "bob" (limit .ASK 200 10)) none,
    .submit "alice" (market .BID 10) none]

/-- The `SUBMIT` of `alice`'s order. -/
def unpayableSubmit : OrderCommand := submitted 3 2 "alice" (market .BID 10)

end Sample

open Sample in
theorem unpayable_aborts : (dispatch unpayableSubmit (exchange.run unpayable)).1 =
    .error .checkViolation := by
  decide +kernel

open Sample in
/-- The swept book of an order that could not be paid is not spared. -/
theorem abort_keeps_book_iff_unpayable :
    (dispatch unpayableSubmit (exchange.run unpayable)).2.db = (exchange.run unpayable).db ∧
    ((∀ symbol, (dispatch unpayableSubmit (exchange.run unpayable)).2.queues symbol =
      (exchange.run unpayable).queues symbol) ↔
        BookSpared unpayableSubmit (exchange.run unpayable)) := by
  have hs := (run_safe exchange_initial unpayable).sound
  exact abort_keeps_book_iff
    (fun order ho hlive => ⟨(hs.rows _ _ ho).quantity, ((hs.rows _ _ ho).live hlive).2⟩)
    (Prod.ext unpayable_aborts rfl)

open Sample in
/-- **An abort that does not leave the book intact.** `alice` cannot pay, the transaction fails at
the debit of her wallet and the tables are restored, but `bob`'s order is gone from the book. -/
theorem abort_empties_book :
    (dispatch unpayableSubmit (exchange.run unpayable)).1 = .error .checkViolation ∧
    (dispatch unpayableSubmit (exchange.run unpayable)).2.db = (exchange.run unpayable).db ∧
    (exchange.run unpayable).queues "BTC-USDT" = ⟨[], [⟨1, 200, 10⟩]⟩ ∧
    (dispatch unpayableSubmit (exchange.run unpayable)).2.queues "BTC-USDT" = ⟨[], []⟩ := by
  decide +kernel

end Orbit
