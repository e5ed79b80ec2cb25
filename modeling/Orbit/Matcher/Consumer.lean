import Mathlib.Data.List.Sort
import Orbit.Api.Admin
import Orbit.Api.OrderService
import Orbit.Matcher.Settler

/-!
# The exchange as a system

`CommandConsumerService.handleMessage` dispatches a command to the settler and returns normally
whatever happens: a failure is logged and swallowed. `restart` is the matcher process started anew,
`MatchingEngineService.onModuleInit`: the books are discarded and rebuilt from the `OPEN` and
`PARTIAL` `LIMIT` rows in the order of their ids, and whatever `add` returns is dropped.

A run of the exchange is a list of steps: calls of the api and of the admin pages, deliveries of
commands to the matcher, and restarts of it. A delivery takes any command that a committed outbox
row carries, at any time and any number of times, so that duplicates and every order of arrival are
included, and each call comes with the statement at which it fails, if any.
-/

namespace Orbit

namespace Consumer

open Settler

variable {E : Engine}

/-- What `handleMessage` records of a command. -/
inductive Result
  | ok
  | noop
  | error
  deriving DecidableEq, Repr

/-- The task that `handleMessage` queues, up to its `catch`, over any `creditWallet`. -/
def dispatchWith (credit : String → String → ℚ → Stm Unit) : OrderCommand → Act E Result
  | .SUBMIT cmd => do
    let some _ ← settleSubmitWith credit cmd | pure .noop
    getEngine cmd.symbol
    pure .ok
  | .CANCEL cmd => do
    let some _ ← settleCancel cmd | pure .noop
    getEngine cmd.symbol
    pure .ok

def dispatch : OrderCommand → Act E Result := dispatchWith creditWallet

/-- `handleMessage`: it returns normally also when the task failed. -/
def handleMessage (cmd : OrderCommand) (m : Matcher E) : Result × Matcher E :=
  match dispatch cmd m with
  | (.ok r, m') => (r, m')
  | (.error _, m') => (.error, m')

end Consumer

namespace MatchingEngine

open Settler

variable {E : Engine}

/-- The rows that `replayOpenOrders` selects. -/
def openOrders (db : Db) : List Order :=
  (db.orders.filter fun o => decide (o.active ∧ o.type = .LIMIT)).insertionSort (·.id ≤ ·.id)

/-- One turn of the loop of `replayOpenOrders`. -/
def replayOrder (books : String → Option E.Book) (o : Order) : String → Option E.Book :=
  match o.price with
  | none => books
  | some price =>
    let book := (books o.market).getD E.new
    match E.add book o.id (sideToEngine o.side) price o.leaveQty with
    | .ok (book', _) => Function.update books o.market (some book')
    | .error _ => Function.update books o.market (some book)

/-- The books of the enabled markets, before the replay. -/
def enabledBooks (db : Db) : String → Option E.Book := fun symbol =>
  if ∃ m ∈ db.markets, m.enabled = true ∧ m.symbol = symbol then some E.new else none

/-- `onModuleInit`: the books of a matcher that starts on the given tables. -/
def onModuleInit (db : Db) : String → Option E.Book :=
  (openOrders db).foldl replayOrder (enabledBooks db)

/-- The matcher process started anew. -/
def restart (m : Matcher E) : Matcher E :=
  { m with books := onModuleInit m.db, localSeq := 0, orderbookSeq := 0 }

end MatchingEngine

/-- A step of the exchange. `faults` is the statement of the call that fails, if any. -/
inductive Step
  | submit (userId : String) (dto : CreateOrderDto) (faults : Option ℕ)
  | cancel (userId : String) (orderId : ℕ) (faults : Option ℕ)
  | forceCancel (orderId : ℕ) (faults : Option ℕ)
  | deliver (cmd : OrderCommand) (faults : Option ℕ)
  | restart
  | marketUpdate (symbol : String) (input : MarketUpdateInput) (faults : Option ℕ)
  | adjust (userId asset : String) (field : WalletField) (delta : ℚ) (faults : Option ℕ)
  | tick (now : ℕ)
  deriving DecidableEq, Repr

namespace Matcher

variable {E : Engine}

def withFaults (m : Matcher E) (faults : Option ℕ) : Matcher E :=
  { m with store := { m.store with faults } }

theorem withFaults_withFaults (m : Matcher E) (f f' : Option ℕ) :
    (m.withFaults f).withFaults f' = m.withFaults f' := rfl

theorem withFaults_self {m : Matcher E} {f : Option ℕ} (h : m.store.faults = f) :
    m.withFaults f = m := by
  subst h
  rfl

/-- Run a call of the api. -/
def call {α : Type} (m : Matcher E) (faults : Option ℕ) (x : Stm α) : Matcher E :=
  { m with store := { (x { m.store with faults }).2 with faults := none } }

/-- Deliver a command: one that no committed outbox row carries never arrives. -/
def deliver (m : Matcher E) (cmd : OrderCommand) (faults : Option ℕ) : Matcher E :=
  if cmd ∈ m.db.commands then (Consumer.handleMessage cmd (m.withFaults faults)).2.withFaults none
  else m

/-- One step. -/
def step (m : Matcher E) : Step → Matcher E
  | .submit userId dto faults => m.call faults (OrderService.submit userId dto)
  | .cancel userId orderId faults => m.call faults (OrderService.cancel userId orderId)
  | .forceCancel orderId faults => m.call faults (Admin.forceCancel orderId)
  | .deliver cmd faults => m.deliver cmd faults
  | .restart => MatchingEngine.restart m
  | .marketUpdate symbol input faults => m.call faults (Admin.marketUpdate symbol input)
  | .adjust userId asset field delta faults => m.call faults (Admin.adjust userId asset field delta)
  | .tick now => { m with store := { m.store with now } }

/-- A run. -/
def run (m : Matcher E) (steps : List Step) : Matcher E := steps.foldl step m

@[simp] theorem run_nil (m : Matcher E) : m.run [] = m := rfl

@[simp] theorem run_cons (m : Matcher E) (l : Step) (ls : List Step) :
    m.run (l :: ls) = (m.step l).run ls := rfl

theorem run_append (m : Matcher E) (ls ls' : List Step) :
    m.run (ls ++ ls') = (m.run ls).run ls' := by
  simp [run]

/-- **The rule for invariants**: what every step keeps holds after every run. -/
theorem run_invariant {I : Matcher E → Prop} (hstep : ∀ m l, I m → I (m.step l)) {m : Matcher E}
    (h : I m) (steps : List Step) : I (m.run steps) := by
  induction steps generalizing m with
  | nil => exact h
  | cons l ls ih => exact ih (hstep m l h)

/-- An exchange that has not traded yet: no orders, trades or messages, nothing locked, and empty
books. -/
structure Initial (m : Matcher E) : Prop where
  orders : m.db.orders = []
  trades : m.db.trades = []
  outbox : m.db.outbox = []
  wallets : ∀ w ∈ m.db.wallets, 0 ≤ w.balance ∧ w.locked = 0
  queues : ∀ symbol, m.queues symbol = .empty
  faults : m.store.faults = none

end Matcher

/-! ## A small exchange -/

namespace Sample

/-- The small database, and the books of `Engine.priceTime`. -/
def exchange : Matcher Engine.priceTime where
  store := store
  books := fun _ => none
  localSeq := 0
  orderbookSeq := 0

theorem exchange_initial : exchange.Initial :=
  ⟨rfl, rfl, rfl, by decide, fun _ => rfl, rfl⟩

/-- The request of a `LIMIT` order. -/
def limit (side : OrderSide) (price quantity : ℚ) : CreateOrderDto :=
  ⟨"BTC-USDT", side, .LIMIT, some price, quantity⟩

/-- The request of a `MARKET` order. -/
def market (side : OrderSide) (quantity : ℚ) : CreateOrderDto :=
  ⟨"BTC-USDT", side, .MARKET, none, quantity⟩

/-- The `SUBMIT` of the order `orderId` that a request placed as command `n`. -/
def submitted (n orderId : ℕ) (userId : String) (dto : CreateOrderDto) : OrderCommand :=
  .SUBMIT ⟨⟨n⟩, orderId, userId, dto.market, dto.side, dto.type, dto.price, dto.quantity, 0⟩

/-- `bob` asks 2 at 100, and `alice` buys one of them for a limit of 110. -/
def trading : List Step :=
  [.submit "bob" (limit .ASK 100 2) none, .deliver (submitted 0 1 "bob" (limit .ASK 100 2)) none,
    .submit "alice" (limit .BID 110 1) none,
    .deliver (submitted 3 2 "alice" (limit .BID 110 1)) none]

end Sample

end Orbit
