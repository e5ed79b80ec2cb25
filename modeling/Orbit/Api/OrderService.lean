import Mathlib.Data.Rat.Floor
import Orbit.Store.Statements

/-!
# Submitting and cancelling orders

`OrderService` of `apps/api/src/order/order.service.ts`. `submit` validates the request, and in one
transaction locks the funds the order reserves, creates the order row and appends the `SUBMIT`
command to the outbox. `cancel` only appends a `CANCEL` command: the matcher does the rest.
-/

namespace Orbit

/-- `CreateOrderDto`, its decimal strings read as decimals. -/
structure CreateOrderDto where
  market : String
  side : OrderSide
  type : OrderType
  price : Option ℚ
  quantity : ℚ
  deriving DecidableEq, Repr

/-- `Decimal.mod`: the remainder of the division truncated towards zero, which has the sign of `x`;
none (`NaN`) for a divisor of zero. -/
def Decimal.mod (x y : ℚ) : Option ℚ :=
  if y = 0 then none
  else
    let n : ℤ := if 0 ≤ x / y then ⌊x / y⌋ else ⌈x / y⌉
    some (x - y * n)

namespace OrderService

open Stm

/-- `validateTickStep`. -/
def validateTickStep (dto : CreateOrderDto) (market : Market) : Except Failure Unit :=
  if Decimal.mod dto.quantity market.stepSize ≠ some 0 then
    .error (.badRequest "quantity violates stepSize")
  else
    match dto.type with
    | .MARKET => .ok ()
    | .LIMIT =>
      match dto.price with
      | none => .error (.badRequest "price required")
      | some p =>
        if Decimal.mod p market.tickSize ≠ some 0 then
          .error (.badRequest "price violates tickSize")
        else if p * dto.quantity < market.minNotional then .error (.badRequest "below minNotional")
        else .ok ()

/-- The `UPDATE` of `atomicLock`: the balance is checked by its `WHERE` clause. -/
def atomicLockUpdate (userId asset : String) (amt : ℚ) (db : Db) : Except Failure Db :=
  match db.wallet? userId asset with
  | none => .error (.badRequest "insufficient balance")
  | some w =>
    if amt ≤ w.balance then db.walletUpdate userId asset (-amt) amt
    else .error (.badRequest "insufficient balance")

/-- `atomicLock`. -/
def atomicLock (userId asset : String) (amount : ℚ) : Stm Unit :=
  write (atomicLockUpdate userId asset amount)

/-- `lockReservation`: a `MARKET` `BID` reserves nothing. -/
def lockReservation (userId : String) (market : Market) (dto : CreateOrderDto) (quantity : ℚ)
    (limitPrice : Option ℚ) : Stm Unit :=
  match dto.type, dto.side, limitPrice with
  | .LIMIT, .ASK, _ => atomicLock userId market.baseAsset quantity
  | .LIMIT, .BID, some p => atomicLock userId market.quoteAsset (p * quantity)
  | .LIMIT, .BID, none => Tx.fail .typeError
  | .MARKET, .ASK, _ => atomicLock userId market.baseAsset quantity
  | .MARKET, .BID, _ => pure ()

/-- The transaction of `_submitInner`. -/
def submitTx (userId : String) (market : Market) (dto : CreateOrderDto) (limitPrice : Option ℚ)
    (commandId : Uuid) : Stm Order :=
  Stm.transaction do
    lockReservation userId market dto dto.quantity limitPrice
    let created ← orderCreate fun id =>
      { id, userId, market := dto.market, side := dto.side, type := dto.type, price := limitPrice
        quantity := dto.quantity, leaveQty := dto.quantity, filledQty := 0, status := .OPEN
        commandId := some commandId }
    let ts ← dateNow
    publish .ORDER_COMMANDS dto.market (.command (.SUBMIT
      { commandId, orderId := created.id, userId, symbol := dto.market, side := dto.side
        ordType := dto.type, price := limitPrice, quantity := dto.quantity, ts }))
    pure created

/-- The price of a `LIMIT` order. -/
def limitPrice (dto : CreateOrderDto) : Option ℚ := if dto.type = .LIMIT then dto.price else none

/-- `_submitInner`. -/
def submit (userId : String) (dto : CreateOrderDto) : Stm Order := do
  let some user ← query (·.user? userId) | Tx.fail (.notFound "user not found")
  if user.frozen then Tx.fail (.forbidden "account is frozen — contact support")
  else
    let some market ← marketFind dto.market | Tx.fail (.notFound "market not found")
    if market.enabled = false then Tx.fail (.notFound "market not found")
    else
      Tx.ofExcept (validateTickStep dto market)
      if dto.quantity ≤ 0 then Tx.fail (.badRequest "quantity must be > 0")
      else
        if dto.type = .LIMIT ∧ (limitPrice dto).all (fun p => decide (p ≤ 0)) = true then
          Tx.fail (.badRequest "price required for LIMIT")
        else
          let commandId ← randomUUID
          submitTx userId market dto (limitPrice dto) commandId

/-- What the api shows of an order. -/
structure PresentedOrder where
  id : ℕ
  market : String
  side : OrderSide
  type : OrderType
  price : Option ℚ
  quantity : ℚ
  leaveQty : ℚ
  filledQty : ℚ
  status : OrderStatus
  deriving DecidableEq, Repr

/-- `presentOrder`. -/
def presentOrder (o : Order) : PresentedOrder where
  id := o.id
  market := o.market
  side := o.side
  type := o.type
  price := o.price
  quantity := o.quantity
  leaveQty := o.leaveQty
  filledQty := o.filledQty
  status := o.status

/-- `cancel`. -/
def cancel (userId : String) (orderId : ℕ) : Stm Order := do
  let some order ← orderFind orderId | Tx.fail (.notFound "order")
  if order.userId ≠ userId then Tx.fail (.notFound "order")
  else if order.terminal then Tx.fail (.badRequest "order not active")
  else
    let commandId ← randomUUID
    Stm.transaction do
      let ts ← dateNow
      publish .ORDER_COMMANDS order.market (.command (.CANCEL
        { commandId, orderId := order.id, userId, symbol := order.market, ts }))
    pure order

end OrderService

end Orbit
