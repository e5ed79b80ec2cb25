import Orbit.Matcher.Safety

/-!
# Replay

A restarted matcher adds the live `LIMIT` rows to empty books, in the order of their ids, and drops
whatever `add` returns. When no two of them cross, nothing is there to drop: every row rests whole
(`replay_exact`), and the orders of one price rest in the order of their ids. The books after a
restart then depend on the rows only, and not on how they came to rest.
-/

namespace Orbit

open PriceTime Settler

variable {E : Engine} {m : Matcher E}

/-- The order as it rests when nothing of it was matched: with all that its row has left. -/
def Order.atRest (o : Order) : Resting ℕ ℚ ℚ := ⟨o.id, o.price.getD 0, o.leaveQty⟩

namespace MatchingEngine

/-- What the `add` of a replayed row returns, which the source drops. -/
def replayedTrades (books : String → Option E.Book) (o : Order) : List EngineTrade :=
  match o.price with
  | none => []
  | some price =>
    match E.add ((books o.market).getD E.new) o.id (sideToEngine o.side) price o.leaveQty with
    | .ok (_, r) => r.trades
    | .error _ => []

/-- The trades that a replay drops. -/
def droppedTrades (books : String → Option E.Book) : List Order → List EngineTrade
  | [] => []
  | o :: os => replayedTrades books o ++ droppedTrades (replayOrder books o) os

/-- Rows that can be replayed without a match: priced, with something left, in the order of their
ids, and no two of a market that cross. -/
structure Replayable (os : List Order) : Prop where
  priced : ∀ o ∈ os, o.price.isSome
  pos : ∀ o ∈ os, 0 < o.leaveQty
  ids : os.Pairwise (·.id < ·.id)
  uncrossed : ∀ o ∈ os, ∀ o' ∈ os, o'.market = o.market →
    sideToEngine o'.side = (sideToEngine o.side).opp →
    crosses (sideToEngine o.side) o.atRest.price o'.atRest.price = false

/-- The rows rest whole, those of one price in the order of their ids, and nothing else does. -/
structure Holds (books : String → Option E.Book) (os : List Order) : Prop where
  mem : ∀ symbol side r, r ∈ (queues books symbol).queue side ↔
    ∃ o ∈ os, o.market = symbol ∧ sideToEngine o.side = side ∧ r = o.atRest
  ranked : ∀ symbol side, Ranked side ((queues books symbol).queue side)

theorem holds_nil {books : String → Option E.Book} (h : ∀ symbol, queues books symbol = .empty) :
    Holds books [] := by
  constructor
  · intro symbol side r
    rw [h, Book.queue_empty]
    simp
  · intro symbol side
    rw [h, Book.queue_empty]
    exact List.Pairwise.nil

theorem exists_mem_snoc {P : Order → Prop} {os : List Order} {o : Order} (h : ¬P o) :
    (∃ x ∈ os ++ [o], P x) ↔ ∃ x ∈ os, P x := by
  simp only [List.mem_append, List.mem_singleton, or_and_right, exists_or, exists_eq_left, h,
    or_false]

/-- **One replayed row** that crosses none of those before it, and has a higher id. -/
theorem Holds.replayOrder {books : String → Option E.Book} {os : List Order} {o : Order}
    (h : Holds books os) (hr : Replayable (os ++ [o])) :
    replayedTrades books o = [] ∧ Holds (replayOrder books o) (os ++ [o]) := by
  have hmem : o ∈ os ++ [o] := by simp
  obtain ⟨price, hp⟩ := Option.isSome_iff_exists.mp (hr.priced o hmem)
  have hpos := hr.pos o hmem
  have hrest : o.atRest = ⟨o.id, price, o.leaveQty⟩ := by rw [Order.atRest, hp]; rfl
  have hlt : ∀ x ∈ os, x.id < o.id := fun x hx =>
    (List.pairwise_append.mp hr.ids).2.2 x hx o (by simp)
  have hfree : o.id ∉ (queues books o.market).ids := by
    intro hid
    obtain ⟨side, r, hmem, e⟩ := Book.mem_ids.mp hid
    obtain ⟨x, hx, -, -, rfl⟩ := (h.mem _ _ _).mp hmem
    exact (hlt x hx).ne e
  -- nothing on the other side crosses it
  have hfill : fill (crosses (sideToEngine o.side) price) o.leaveQty
      ((queues books o.market).queue (sideToEngine o.side).opp) =
        ⟨[], (queues books o.market).queue (sideToEngine o.side).opp, o.leaveQty⟩ := by
    refine fill_of_not_crosses _ _ fun r hmem => ?_
    obtain ⟨x, hx, hm, hs, rfl⟩ := (h.mem _ _ _).mp hmem
    have hc := hr.uncrossed o (by simp) x (by simp [hx]) hm hs
    rwa [hrest] at hc
  obtain ⟨b, hadd, hb⟩ := E.add_new ((books o.market).getD E.new) o.id (sideToEngine o.side) price
    o.leaveQty hfree hpos
  have hbook : queues (MatchingEngine.replayOrder books o) o.market = (queues books o.market).set
      (sideToEngine o.side) (enqueue (before (sideToEngine o.side)) o.atRest
        ((queues books o.market).queue (sideToEngine o.side))) := by
    rcases replayOrder_cases books hp hpos with ⟨hid, -⟩ | ⟨-, heq, -⟩
    · exact absurd hid hfree
    · rw [heq, Book.add_book, hfill, if_pos hpos, Book.set_queue, hrest]
  have hother : ∀ s, s ≠ o.market →
      queues (MatchingEngine.replayOrder books o) s = queues books s := by
    rcases replayOrder_cases books hp hpos with ⟨hid, -⟩ | ⟨-, -, hne⟩
    · exact absurd hid hfree
    · exact hne
  refine ⟨?_, ⟨fun symbol side r => ?_, fun symbol side => ?_⟩⟩
  · simp only [replayedTrades, hp, hadd]
    change ((queues books o.market).add o.id (sideToEngine o.side) price o.leaveQty).fills.map
      EngineTrade.ofFill = []
    rw [Book.add_fills, hfill]
    rfl
  · by_cases hs : symbol = o.market
    · subst hs
      rw [hbook]
      rcases (sideToEngine o.side).eq_or_eq_opp side with rfl | rfl
      · rw [Book.queue_set_self, mem_enqueue, h.mem, or_comm]
        simp only [List.mem_append, List.mem_singleton, or_and_right, exists_or, exists_eq_left,
          true_and]
      · rw [Book.queue_set_opp, h.mem, exists_mem_snoc]
        exact fun hx => Side.opp_ne _ hx.2.1.symm
    · rw [hother symbol hs, h.mem, exists_mem_snoc]
      exact fun hx => hs hx.1.symm
  · by_cases hs : symbol = o.market
    · subst hs
      rw [hbook]
      rcases (sideToEngine o.side).eq_or_eq_opp side with rfl | rfl
      · rw [Book.queue_set_self]
        refine (h.ranked _ _).enqueue fun r hmem => ?_
        obtain ⟨x, hx, -, -, rfl⟩ := (h.mem _ _ _).mp hmem
        exact hlt x hx
      · rw [Book.queue_set_opp]
        exact h.ranked _ _
    · rw [hother symbol hs]
      exact h.ranked symbol side

theorem Replayable.sublist {os os' : List Order} (h : Replayable os) (hs : os'.Sublist os) :
    Replayable os' where
  priced o ho := h.priced o (hs.subset ho)
  pos o ho := h.pos o (hs.subset ho)
  ids := h.ids.sublist hs
  uncrossed o ho o' ho' := h.uncrossed o (hs.subset ho) o' (hs.subset ho')

/-- **Rows that do not cross are replayed whole**, and nothing is dropped. -/
theorem replay_exact {books : String → Option E.Book} (hempty : ∀ s, queues books s = .empty)
    {os : List Order} (hr : Replayable os) :
    droppedTrades books os = [] ∧ Holds (os.foldl MatchingEngine.replayOrder books) os := by
  have hfold : ∀ (todo done : List Order) (books : String → Option E.Book), Holds books done →
      Replayable (done ++ todo) → droppedTrades books todo = [] ∧
        Holds (todo.foldl MatchingEngine.replayOrder books) (done ++ todo) := by
    intro todo
    induction todo with
    | nil =>
      intro done books h _
      rw [List.append_nil]
      exact ⟨rfl, h⟩
    | cons o todo ih =>
      intro done books h hr
      have hsub : (done ++ [o]).Sublist (done ++ o :: todo) := by simp
      obtain ⟨hnone, hstep⟩ := h.replayOrder (hr.sublist hsub)
      rw [List.append_cons] at hr ⊢
      obtain ⟨hdrop, hholds⟩ := ih _ _ hstep hr
      exact ⟨by rw [droppedTrades, hnone, hdrop]; rfl, hholds⟩
  exact hfold os [] books (holds_nil hempty) hr

/-- The live `LIMIT` rows in the order of the table, which is that of their ids. -/
theorem openOrders_eq_filter {db : Db} (h : Table.KeysIncreasing db.orders) :
    openOrders db = db.orders.filter fun o => decide (o.active ∧ o.type = .LIMIT) := by
  unfold openOrders
  refine List.Pairwise.insertionSort_eq ?_
  exact ((List.pairwise_map.mp h).imp fun hlt => Nat.le_of_lt hlt).sublist List.filter_sublist

theorem openOrders_pairwise {db : Db} (h : Table.KeysIncreasing db.orders) :
    (openOrders db).Pairwise (·.id < ·.id) := by
  rw [openOrders_eq_filter h]
  exact (List.pairwise_map.mp h).sublist List.filter_sublist

end MatchingEngine

end Orbit
