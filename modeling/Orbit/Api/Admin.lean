import Orbit.Store.Statements

/-!
# Admin actions on the exchange's tables

The writes of `AdminMarketsService.update`, `AdminUsersService.setFrozen`,
`AdminWalletsService.adjust` and `AdminOrdersService.forceCancel`. The first accepts any value for
the fields it is given, the second bars a user from submitting orders or lets it, the third adds a
signed amount to one field of a wallet, and the last publishes the command that
`OrderService.cancel` publishes, for an order of any user.
-/

namespace Orbit

/-- `MarketUpdateInput`: the fields to change. -/
structure MarketUpdateInput where
  enabled : Option Bool
  tickSize : Option ℚ
  stepSize : Option ℚ
  minNotional : Option ℚ
  takerFeeBp : Option ℤ
  makerFeeBp : Option ℤ
  deriving DecidableEq, Repr

/-- The fields that `adjust` writes. -/
inductive WalletField
  | balance
  | locked
  deriving DecidableEq, Repr

namespace Admin

open Stm

/-- The market with the given fields changed. -/
def applyMarketUpdate (input : MarketUpdateInput) (m : Market) : Market :=
  { m with
    enabled := input.enabled.getD m.enabled
    tickSize := input.tickSize.getD m.tickSize
    stepSize := input.stepSize.getD m.stepSize
    minNotional := input.minNotional.getD m.minNotional
    takerFeeBp := input.takerFeeBp.getD m.takerFeeBp
    makerFeeBp := input.makerFeeBp.getD m.makerFeeBp }

/-- `AdminMarketsService.update`. -/
def marketUpdate (symbol : String) (input : MarketUpdateInput) : Stm Unit := do
  let some _ ← marketFind symbol | Tx.fail (.notFound "market not found")
  write fun db =>
    match db.market? symbol with
    | none => .error .recordNotFound
    | some _ =>
      .ok { db with markets := Table.modify symbol (applyMarketUpdate input) db.markets }

/-- The `UPDATE` of `setFrozen`. -/
def userUpdate (id : String) (frozen : Bool) (db : Db) : Except Failure Db :=
  match db.user? id with
  | none => .error .recordNotFound
  | some _ => .ok { db with users := Table.modify id (fun u => { u with frozen }) db.users }

/-- `AdminUsersService.setFrozen`, which returns the row it wrote. -/
def setFrozen (id : String) (frozen : Bool) : Stm User := do
  let some _ ← query (·.user? id) | Tx.fail (.notFound "user not found")
  write (userUpdate id frozen)
  let s ← Tx.get
  let some u := s.db.user? id | Tx.fail .recordNotFound
  pure u

/-- One field of a wallet. -/
def getField (field : WalletField) (w : Wallet) : ℚ :=
  match field with
  | .balance => w.balance
  | .locked => w.locked

/-- The name of a field. -/
def fieldText : WalletField → String
  | .balance => "balance"
  | .locked => "locked"

/-- The wallet with one field set. -/
def setField (field : WalletField) (value : ℚ) (w : Wallet) : Wallet :=
  match field with
  | .balance => { w with balance := value }
  | .locked => { w with locked := value }

/-- The `UPDATE` of `adjust`. -/
def setWallet (userId asset : String) (field : WalletField) (value : ℚ) (db : Db) :
    Except Failure Db :=
  match db.wallet? userId asset with
  | none => .error .recordNotFound
  | some w =>
    if (setField field value w).NonNegative then
      .ok { db with wallets := Table.modify (userId, asset) (setField field value) db.wallets }
    else .error .checkViolation

/-- The transaction of `AdminWalletsService.adjust`. -/
def adjust (userId asset : String) (field : WalletField) (delta : ℚ) : Stm Unit :=
  Stm.transaction do
    let some wallet ← query (·.wallet? userId asset)
      | Tx.fail (.notFound ("wallet " ++ asset ++ " not found"))
    if getField field wallet + delta < 0 then
      Tx.fail (.negativeResult (fieldText field) (getField field wallet + delta))
    else write (setWallet userId asset field (getField field wallet + delta))

/-- A status as it is printed. -/
def statusText : OrderStatus → String
  | .OPEN => "OPEN"
  | .PARTIAL => "PARTIAL"
  | .FILLED => "FILLED"
  | .CANCELLED => "CANCELLED"
  | .REJECTED => "REJECTED"

/-- `AdminOrdersService.forceCancel`. -/
def forceCancel (orderId : ℕ) : Stm Unit := do
  let some order ← orderFind orderId | Tx.fail (.notFound "order not found")
  if order.terminal then Tx.fail (.badRequest ("order is already " ++ statusText order.status))
  else
    let commandId ← randomUUID
    let ts ← dateNow
    Stm.transaction do
      publish .ORDER_COMMANDS order.market (.command (.CANCEL
        { commandId, orderId := order.id, userId := order.userId, symbol := order.market, ts }))

end Admin

end Orbit
