import Orbit.Foundations.PriceTime
import Orbit.Store.Schema

/-!
# The matching engine

The matcher keeps its books in the npm package `orderbook-match-engine`, which is not part of the
repository. `Engine` is what the matcher relies on of it: the four operations, and that they are
those of a price-time priority book. A book of the engine is any type; `resting` reads off its
queues, and the laws say what each operation returns and what it does to them. They leave open what
`add` does with a quantity that is not positive.

`Engine.priceTime` is the engine whose books are the queues themselves.
-/

namespace Orbit

open PriceTime

/-- The resting orders of a market. -/
abbrev Queues := PriceTime.Book ℕ ℚ ℚ

/-- A trade as the engine reports it: the maker's id, the price and the quantity. -/
structure EngineTrade where
  makerOrderId : ℕ
  tradePrice : ℚ
  tradeQuantity : ℚ
  deriving DecidableEq, Repr

/-- The result of `add`: the quantity of the order left resting, and the trades. -/
structure AddResult where
  leaveQuantity : ℚ
  trades : List EngineTrade
  deriving DecidableEq, Repr

/-- The result of `getOrderbook`: the best levels of each side. -/
structure Snapshot where
  asks : List BookLevel
  bids : List BookLevel
  deriving DecidableEq, Repr

/-- The levels of a snapshot of a queue, best first. -/
def snapshotLevels (limit : ℕ) (l : List (Resting ℕ ℚ ℚ)) : List BookLevel :=
  ((levels l).take limit).map fun v => ⟨v.price, v.qty⟩

/-- The trade of the engine for a fill of the book. -/
def EngineTrade.ofFill (f : Fill ℕ ℚ ℚ) : EngineTrade := ⟨f.id, f.price, f.qty⟩

/-- `new Orderbook({ limit: 15 })`. -/
def bookLimit : ℕ := 15

/-- An engine whose books are price-time priority books. -/
structure Engine where
  Book : Type
  new : Book
  add : Book → ℕ → Side → ℚ → ℚ → Except String (Book × AddResult)
  cancel : Book → ℕ → Except String Book
  getOrderbook : Book → Snapshot
  /-- The queues of a book. -/
  resting : Book → Queues
  /-- The queues are sorted by price, hold positive quantities under distinct ids, and do not
  cross. -/
  resting_wf : ∀ b, (resting b).WF
  resting_new : resting new = .empty
  /-- A new id is matched in price-time order, at the makers' prices, and
  rests with what is left. -/
  add_new : ∀ b id side price qty, id ∉ (resting b).ids → 0 < qty → ∃ b',
    add b id side price qty = .ok (b', ⟨((resting b).add id side price qty).leave,
      ((resting b).add id side price qty).fills.map .ofFill⟩) ∧
    resting b' = ((resting b).add id side price qty).book
  /-- An id that is already resting is refused. -/
  add_resting : ∀ b id side price qty, id ∈ (resting b).ids →
    ∃ msg, add b id side price qty = .error msg
  cancel_resting : ∀ b id, id ∈ (resting b).ids →
    ∃ b', cancel b id = .ok b' ∧ resting b' = (resting b).cancel id
  cancel_absent : ∀ b id, id ∉ (resting b).ids → ∃ msg, cancel b id = .error msg
  /-- The snapshot lists the best levels of each side with their exact quantities. -/
  getOrderbook_eq : ∀ b, getOrderbook b =
    ⟨snapshotLevels bookLimit (resting b).asks, snapshotLevels bookLimit (resting b).bids⟩

/-- The engine whose books are the queues. -/
def Engine.priceTime : Engine where
  Book := { b : Queues // b.WF }
  new := ⟨.empty, .empty⟩
  add b id side price qty :=
    if h : id ∈ b.1.ids then .error "duplicate order id"
    else .ok (⟨_, b.2.add h side price qty⟩,
      ⟨(b.1.add id side price qty).leave, (b.1.add id side price qty).fills.map .ofFill⟩)
  cancel b id :=
    if id ∈ b.1.ids then .ok ⟨b.1.cancel id, b.2.cancel id⟩ else .error "order not found"
  getOrderbook b := ⟨snapshotLevels bookLimit b.1.asks, snapshotLevels bookLimit b.1.bids⟩
  resting b := b.1
  resting_wf b := b.2
  resting_new := rfl
  add_new _ _ _ _ _ h _ := ⟨_, dif_neg h, rfl⟩
  add_resting _ _ _ _ _ h := ⟨_, dif_pos h⟩
  cancel_resting _ _ h := ⟨_, if_pos h, rfl⟩
  cancel_absent _ _ h := ⟨_, if_neg h⟩
  getOrderbook_eq _ := rfl

end Orbit
