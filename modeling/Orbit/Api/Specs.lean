import Orbit.Api.Admin
import Orbit.Api.OrderService
import Orbit.Store.Specs

/-!
# What the api does

A call of the api that fails leaves the tables as they were (`Stm.Reverts`), and one that returns
has one of five effects, `ApiEffect`: none, an order placed, a cancel requested, a market changed,
or a wallet adjusted. `ApiEffect.placed` is the one that matters: the reservation is locked, the row
is `OPEN` with all of its quantity left, and its `SUBMIT` is in the outbox.
-/

namespace Orbit

/-! ## Failures leave the tables alone -/

namespace Stm

open Tx

variable {α β : Type}

/-- A run of `x` that fails leaves the tables as they were. -/
def Reverts (x : Stm α) : Prop := ∀ s e s', x s = (.error e, s') → s'.db = s.db

/-- No run of `x` changes the tables. -/
def Reads (x : Stm α) : Prop := Keeps (fun s s' => s'.db = s.db) x

theorem Reads.reverts {x : Stm α} (hx : Reads x) : Reverts x := fun _ _ _ h => Keeps.of_eq hx h

theorem reads_pure (a : α) : Reads (Pure.pure a : Stm α) := fun _ => rfl

theorem reads_fail (e : Failure) : Reads (Tx.fail e : Stm α) := fun _ => rfl

theorem reads_ofExcept (r : Except Failure α) : Reads (Tx.ofExcept r : Stm α) := fun _ => rfl

theorem Reads.bind {x : Stm α} {f : α → Stm β} (hx : Reads x) (hf : ∀ a, Reads (f a)) :
    Reads (x >>= f) :=
  Keeps.bind (fun h₁ h₂ => h₂.trans h₁) hx hf

theorem reads_stmt : Reads stmt := by
  intro s
  unfold stmt
  split <;> rfl

theorem reads_query (f : Db → α) : Reads (query f) :=
  reads_stmt.bind fun _ => Reads.bind (x := Tx.get) (fun _ => rfl) fun _ => reads_pure _

theorem reads_randomUUID : Reads randomUUID := fun _ => rfl

theorem reads_dateNow : Reads dateNow := fun _ => rfl

/-- Reads before a computation that reverts. -/
theorem Reverts.bind {x : Stm α} {f : α → Stm β} (hx : Reads x) (hf : ∀ a, Reverts (f a)) :
    Reverts (x >>= f) := by
  intro s e s' h
  have hs := hx s
  rcases hx' : x s with ⟨e' | a, s₁⟩
  · rw [bind_apply_error hx', Prod.mk.injEq] at h
    rw [hx'] at hs
    exact h.2 ▸ hs
  · rw [bind_apply_ok hx'] at h
    rw [hx'] at hs
    exact (hf a s₁ e s' h).trans hs

theorem reverts_write (f : Db → Except Failure Db) : Reverts (write f) := by
  refine Reverts.bind reads_stmt fun _ s e s' h => ?_
  cases hf : f s.db with
  | error e' =>
    simp only [Tx.get_bind_apply, hf, Tx.ofExcept_error_bind_apply, Prod.mk.injEq] at h
    rw [h.2]
  | ok db => simp [hf] at h

theorem reverts_transaction (x : Stm α) : Reverts (transaction x) := by
  intro s e s' h
  unfold transaction at h
  rcases hx : (do stmt; let a ← x; stmt; pure a : Stm α) s with ⟨e' | a, s₁⟩
  · rw [Tx.transaction_apply_error hx, Prod.mk.injEq] at h
    rw [← h.2]
    rfl
  · rw [Tx.transaction_eq_ok.mpr hx] at h
    cases h

theorem transaction_eq_ok {x : Stm α} {s s' : Store} {a : α} (h : transaction x s = (.ok a, s')) :
    ∃ f s₁ f', x { s with faults := f } = (.ok a, s₁) ∧ s' = { s₁ with faults := f' } := by
  obtain ⟨_, s₁, h₁, h⟩ := Tx.bind_eq_ok.mp (Tx.transaction_eq_ok.mp h)
  obtain ⟨-, rfl⟩ := stmt_eq_ok h₁
  obtain ⟨a', s₂, h₂, h⟩ := Tx.bind_eq_ok.mp h
  obtain ⟨_, s₃, h₃, h⟩ := Tx.bind_eq_ok.mp h
  obtain ⟨-, rfl⟩ := stmt_eq_ok h₃
  obtain ⟨rfl, rfl⟩ := Tx.pure_eq_ok.mp h
  exact ⟨_, s₂, _, h₂, rfl⟩

/-! ## The id sequence -/

/-- Ids of orders are only ever drawn. -/
def Draws (x : Stm α) : Prop := Keeps (fun s s' => s.seqs.order ≤ s'.seqs.order) x

theorem Draws.bind {x : Stm α} {f : α → Stm β} (hx : Draws x) (hf : ∀ a, Draws (f a)) :
    Draws (x >>= f) :=
  Keeps.bind (R := fun s s' : Store => s.seqs.order ≤ s'.seqs.order)
    (fun h₁ h₂ => h₁.trans h₂) hx hf

theorem Frames.draws {x : Stm α} (hx : Frames x) : Draws x := fun s => (hx s).order.ge

theorem draws_write (f : Db → Except Failure Db) : Draws (write f) := by
  refine frames_stmt.draws.bind fun _ s => ?_
  cases h : f s.db with
  | error e => simp [h]
  | ok db => simp [h]

theorem draws_publish (topic : Topic) (k : String) (p : Payload) : Draws (publish topic k p) :=
  frames_stmt.draws.bind fun _ _ => le_rfl

theorem draws_orderCreate (data : ℕ → Order) : Draws (orderCreate data) := by
  refine frames_stmt.draws.bind fun _ s => ?_
  simp only [Tx.get_bind_apply, Tx.modify_bind_apply]
  split
  · exact Nat.le_succ _
  · split <;> exact Nat.le_succ _

theorem draws_transaction {x : Stm α} (hx : Draws x) : Draws (transaction x) := by
  intro s
  have hall : Draws (do stmt; let a ← x; stmt; pure a : Stm α) :=
    frames_stmt.draws.bind fun _ => hx.bind fun _ => frames_stmt.draws.bind fun _ =>
      (Frames.pure _).draws
  have h := hall s
  unfold transaction
  rcases hr : (do stmt; let a ← x; stmt; pure a : Stm α) s with ⟨e' | a, s₁⟩
  · rw [Tx.transaction_apply_error hr]
    rwa [hr] at h
  · rw [Tx.transaction_eq_ok.mpr hr]
    rwa [hr] at h

/-- `order.create` appends the row, whose `commandId` no other row has. -/
theorem orderCreate_eq_ok {data : ℕ → Order} {s s' : Store} {o : Order}
    (h : orderCreate data s = (.ok o, s')) :
    o = data (s.seqs.order + 1) ∧
    ¬(o.commandId.isSome ∧ ∃ o' ∈ s.db.orders, o'.commandId = o.commandId) ∧
    (s.db.user? o.userId).isSome ∧ (s.db.market? o.market).isSome ∧
    ∃ fl, s' = { s with
      db := { s.db with orders := s.db.orders ++ [o] }
      seqs := { s.seqs with order := s.seqs.order + 1 }, faults := fl } := by
  obtain ⟨_, s₁, h₁, h⟩ := Tx.bind_eq_ok.mp h
  obtain ⟨-, rfl⟩ := stmt_eq_ok h₁
  simp only [Tx.get_bind_apply, Tx.modify_bind_apply] at h
  split at h
  · cases h
  rename_i hcmd
  split at h
  · cases h
  rename_i hkeys
  simp only [Tx.modify_bind_apply, Tx.pure_apply, Prod.mk.injEq, Except.ok.injEq] at h
  obtain ⟨rfl, rfl⟩ := h
  rw [not_or, Option.isNone_iff_eq_none, Option.isNone_iff_eq_none] at hkeys
  exact ⟨rfl, hcmd, Option.isSome_iff_ne_none.mpr hkeys.1, Option.isSome_iff_ne_none.mpr hkeys.2,
    _, rfl⟩

end Stm

/-! ## Placing an order -/

/-- What `lockReservation` locks. -/
def lockPostings (market : Market) (o : Order) : List Posting :=
  match o.type, o.side, o.price with
  | .LIMIT, .BID, some p => [⟨o.userId, market.quoteAsset, -(p * o.quantity), p * o.quantity⟩]
  | _, .ASK, _ => [⟨o.userId, market.baseAsset, -o.quantity, o.quantity⟩]
  | _, _, _ => []

/-- **An order placed**: its reservation is locked, its row is new, `OPEN` and unfilled, and its
`SUBMIT` is in the outbox. -/
structure Placed (s s' : Store) (o : Order) (market : Market)
    (cmd : OrderSubmitCommand) : Prop where
  id : o.id = s.seqs.order + 1
  seq : s'.seqs.order = s.seqs.order + 1
  hmarket : s.db.market? o.market = some market
  user : (s.db.user? o.userId).isSome
  commandId : o.commandId = some cmd.commandId
  fresh : ∀ o' ∈ s.db.orders, o'.commandId ≠ o.commandId
  quantity : 0 < o.quantity
  leaveQty : o.leaveQty = o.quantity
  filledQty : o.filledQty = 0
  status : o.status = .OPEN
  limit : o.type = .LIMIT → ∃ p, o.price = some p ∧ 0 < p
  marketPrice : o.type = .MARKET → o.price = none
  orders : s'.db.orders = s.db.orders ++ [o]
  trades : s'.db.trades = s.db.trades
  users : s'.db.users = s.db.users
  assets : s'.db.assets = s.db.assets
  markets : s'.db.markets = s.db.markets
  posted : Posted s.db s'.db (lockPostings market o)
  commands : s'.db.commands = s.db.commands ++ [.SUBMIT cmd]
  orderId : cmd.orderId = o.id
  symbol : cmd.symbol = o.market

namespace OrderService

open Stm

theorem atomicLock_eq_ok {u a : String} {amt : ℚ} {s s' : Store} {x : Unit}
    (h : atomicLock u a amt s = (.ok x, s')) :
    ∃ ws fl, s' = { s with db := { s.db with wallets := ws }, faults := fl } ∧
      Posted s.db { s.db with wallets := ws } [⟨u, a, -amt, amt⟩] := by
  obtain ⟨db, fl, hdb, rfl⟩ := write_eq_ok h
  unfold atomicLockUpdate at hdb
  split at hdb
  · cases hdb
  · split at hdb
    · obtain ⟨ws, rfl, hp⟩ := Db.walletUpdate_posted hdb
      exact ⟨ws, fl, rfl, hp⟩
    · cases hdb

theorem lockReservation_eq_ok {userId : String} {market : Market} {dto : CreateOrderDto}
    {price : Option ℚ} {o : Order} {s s' : Store} {x : Unit} (hu : o.userId = userId)
    (ht : o.type = dto.type) (hside : o.side = dto.side) (hp : o.price = price)
    (hq : o.quantity = dto.quantity)
    (h : lockReservation userId market dto dto.quantity price s = (.ok x, s')) :
    ∃ ws fl, s' = { s with db := { s.db with wallets := ws }, faults := fl } ∧
      Posted s.db { s.db with wallets := ws } (lockPostings market o) := by
  unfold lockReservation at h
  unfold lockPostings
  rw [hu, ht, hside, hp, hq]
  cases hty : dto.type <;> cases hsd : dto.side <;> cases price <;> simp only [hty, hsd] at h ⊢
  case LIMIT.BID.none => cases h
  case LIMIT.BID.some => exact atomicLock_eq_ok h
  case MARKET.BID.none =>
    obtain ⟨-, rfl⟩ := Tx.pure_eq_ok.mp h
    exact ⟨s.db.wallets, s.faults, rfl, Posted.refl_of_wallets rfl⟩
  case MARKET.BID.some =>
    obtain ⟨-, rfl⟩ := Tx.pure_eq_ok.mp h
    exact ⟨s.db.wallets, s.faults, rfl, Posted.refl_of_wallets rfl⟩
  all_goals exact atomicLock_eq_ok h

theorem submitTx_eq_ok {userId : String} {market : Market} {dto : CreateOrderDto}
    {price : Option ℚ} {commandId : Uuid} {s s' : Store} {o : Order}
    (h : submitTx userId market dto price commandId s = (.ok o, s'))
    (hmarket : s.db.market? dto.market = some market) (hq : 0 < dto.quantity)
    (hlimit : dto.type = .LIMIT → ∃ p, price = some p ∧ 0 < p)
    (hmkt : dto.type = .MARKET → price = none) : ∃ cmd, Placed s s' o market cmd := by
  obtain ⟨f, s₄, f', hbody, rfl⟩ := Stm.transaction_eq_ok h
  obtain ⟨_, s₁, h₁, hbody⟩ := Tx.bind_eq_ok.mp hbody
  obtain ⟨o', s₂, h₂, hbody⟩ := Tx.bind_eq_ok.mp hbody
  obtain ⟨ho, hcmd, huser, hmk, fl₂, rfl⟩ := orderCreate_eq_ok h₂
  obtain ⟨ts, s₃, h₃, hbody⟩ := Tx.bind_eq_ok.mp hbody
  obtain ⟨-, rfl⟩ := Prod.mk.inj h₃
  obtain ⟨_, s₅, h₅, hbody⟩ := Tx.bind_eq_ok.mp hbody
  obtain ⟨fl₅, rfl⟩ := publish_eq_ok h₅
  obtain ⟨rfl, rfl⟩ := Tx.pure_eq_ok.mp hbody
  obtain ⟨ws, fl₁, rfl, hposted⟩ := lockReservation_eq_ok (o := o') (by rw [ho]) (by rw [ho])
    (by rw [ho]) (by rw [ho]) (by rw [ho]) h₁
  have hsome : o'.commandId = some commandId := by rw [ho]
  refine ⟨⟨commandId, o'.id, userId, dto.market, dto.side, dto.type, price, dto.quantity, ts⟩, ?_⟩
  refine
    { id := by rw [ho]
      seq := rfl
      hmarket := by rw [ho]; exact hmarket
      user := huser
      commandId := hsome
      fresh := fun x hx he => hcmd ⟨by rw [hsome]; rfl, x, hx, he⟩
      quantity := by rw [ho]; exact hq
      leaveQty := by rw [ho]
      filledQty := by rw [ho]
      status := by rw [ho]
      limit := by rw [ho]; exact hlimit
      marketPrice := by rw [ho]; exact hmkt
      orders := rfl
      trades := rfl
      users := rfl
      assets := rfl
      markets := rfl
      posted := ?_
      commands := by simp [Db.commands]
      orderId := rfl
      symbol := by rw [ho] }
  exact hposted.of_wallets rfl

section Submit

variable {userId : String} {dto : CreateOrderDto} {s s' : Store}

/-- A `submit` that fails leaves the tables alone. -/
theorem submit_eq_error {e : Failure} (h : submit userId dto s = (.error e, s')) :
    s'.db = s.db := by
  refine Reverts.bind (reads_query _) (fun user? => ?_) s e s' h
  cases user? with
  | none => exact (reads_fail _).reverts
  | some user =>
    dsimp only
    split
    · exact (reads_fail _).reverts
    refine Reverts.bind (reads_query _) fun market? => ?_
    cases market? with
    | none => exact (reads_fail _).reverts
    | some market =>
      dsimp only
      split
      · exact (reads_fail _).reverts
      refine Reverts.bind (reads_ofExcept _) fun _ => ?_
      split
      · exact (reads_fail _).reverts
      split
      · exact (reads_fail _).reverts
      exact Reverts.bind reads_randomUUID fun _ => reverts_transaction _

/-- A `submit` that returns placed the order it returns. -/
theorem submit_eq_ok {o : Order} (h : submit userId dto s = (.ok o, s')) :
    ∃ market cmd, Placed s s' o market cmd := by
  obtain ⟨user?, s₁, h₁, h⟩ := Tx.bind_eq_ok.mp h
  obtain ⟨-, f₁, rfl⟩ := query_eq_ok h₁
  cases user? with
  | none => cases h
  | some user =>
    dsimp only at h
    split at h
    · cases h
    obtain ⟨market?, s₂, h₂, h⟩ := Tx.bind_eq_ok.mp h
    obtain ⟨hmarket, f₂, rfl⟩ := query_eq_ok h₂
    cases market? with
    | none => cases h
    | some market =>
      dsimp only at h
      split at h
      · cases h
      obtain ⟨_, s₃, h₃, h⟩ := Tx.bind_eq_ok.mp h
      obtain ⟨-, rfl⟩ := Prod.mk.inj h₃
      split at h
      · cases h
      rename_i hq
      split at h
      · cases h
      rename_i hprice
      obtain ⟨commandId, s₄, h₄, h⟩ := Tx.bind_eq_ok.mp h
      obtain ⟨-, rfl⟩ := Prod.mk.inj h₄
      have hlimit : dto.type = .LIMIT → ∃ p, limitPrice dto = some p ∧ 0 < p := by
        intro hty
        simp only [hty, limitPrice, if_true, true_and] at hprice ⊢
        cases hp : dto.price with
        | none => simp [hp] at hprice
        | some p => exact ⟨p, rfl, by simpa [hp] using hprice⟩
      obtain ⟨cmd, hplaced⟩ := submitTx_eq_ok h hmarket.symm (not_le.mp hq) hlimit
        (fun hty => by simp [limitPrice, hty])
      exact ⟨market, cmd, { hplaced with }⟩

/-- **`submit` places an order or leaves the tables alone.** -/
theorem submit_cases {r : Except Failure Order} (h : submit userId dto s = (r, s')) :
    s'.db = s.db ∨ ∃ o market cmd, r = .ok o ∧ Placed s s' o market cmd := by
  cases r with
  | error e => exact Or.inl (submit_eq_error h)
  | ok o =>
    obtain ⟨market, cmd, hplaced⟩ := submit_eq_ok h
    exact Or.inr ⟨o, market, cmd, rfl, hplaced⟩

end Submit

theorem draws_submit (userId : String) (dto : CreateOrderDto) : Draws (submit userId dto) := by
  have hfail : ∀ e, Draws (Tx.fail e : Stm Order) := fun e => (Frames.fail e).draws
  refine (frames_query _).draws.bind fun user? => ?_
  cases user? with
  | none => exact hfail _
  | some user =>
    dsimp only
    split
    · exact hfail _
    refine (frames_query _).draws.bind fun market? => ?_
    cases market? with
    | none => exact hfail _
    | some market =>
      dsimp only
      split
      · exact hfail _
      refine Draws.bind (fun _ => le_rfl) fun _ => ?_
      split
      · exact hfail _
      split
      · exact hfail _
      refine frames_randomUUID.draws.bind fun _ => draws_transaction ?_
      refine Draws.bind ?_ fun _ => (draws_orderCreate _).bind fun _ =>
        frames_dateNow.draws.bind fun _ => (draws_publish _ _ _).bind fun _ => (Frames.pure _).draws
      unfold lockReservation
      split
      · exact draws_write _
      · exact draws_write _
      · exact (Frames.fail _).draws
      · exact draws_write _
      · exact (Frames.pure _).draws

end OrderService

/-! ## The other calls -/

section Draws

open Stm

theorem OrderService.draws_cancel (userId : String) (orderId : ℕ) :
    Draws (OrderService.cancel userId orderId) := by
  refine (frames_query _).draws.bind fun order? => ?_
  cases order? with
  | none => exact (Frames.fail _).draws
  | some order =>
    dsimp only
    split
    · exact (Frames.fail _).draws
    split
    · exact (Frames.fail _).draws
    exact frames_randomUUID.draws.bind fun _ => (draws_transaction
      (frames_dateNow.draws.bind fun _ => draws_publish _ _ _)).bind fun _ => (Frames.pure _).draws

theorem Admin.draws_forceCancel (orderId : ℕ) : Draws (Admin.forceCancel orderId) := by
  refine (frames_query _).draws.bind fun order? => ?_
  cases order? with
  | none => exact (Frames.fail _).draws
  | some order =>
    dsimp only
    split
    · exact (Frames.fail _).draws
    exact frames_randomUUID.draws.bind fun _ => frames_dateNow.draws.bind fun _ =>
      draws_transaction (draws_publish _ _ _)

theorem Admin.draws_marketUpdate (symbol : String) (input : MarketUpdateInput) :
    Draws (Admin.marketUpdate symbol input) := by
  refine (frames_query _).draws.bind fun market? => ?_
  cases market? with
  | none => exact (Frames.fail _).draws
  | some market => exact draws_write _

theorem Admin.draws_adjust (userId asset : String) (field : WalletField) (delta : ℚ) :
    Draws (Admin.adjust userId asset field delta) := by
  refine draws_transaction ((frames_query _).draws.bind fun wallet? => ?_)
  cases wallet? with
  | none => exact (Frames.fail _).draws
  | some wallet =>
    dsimp only
    split
    · exact (Frames.fail _).draws
    · exact draws_write _

end Draws

/-- A `CANCEL` of an order is in the outbox, and nothing else changed. -/
structure Requested (s s' : Store) (cmd : OrderCancelCommand) (o : Order) : Prop where
  horder : s.db.order? cmd.orderId = some o
  symbol : cmd.symbol = o.market
  outbox : ∃ row : OutboxEvent, row.topic = .ORDER_COMMANDS ∧ row.payload = .command (.CANCEL cmd) ∧
    s'.db = { s.db with outbox := s.db.outbox ++ [row] }

theorem requested_of_publish {s s' : Store} {f : Option ℕ} {n : ℕ}
    {o : Order} {k : String} {u : Unit}
    {cmd : OrderCancelCommand} (ho : s.db.order? cmd.orderId = some o) (hs : cmd.symbol = o.market)
    (h : Stm.publish .ORDER_COMMANDS k (.command (.CANCEL cmd))
      { s with uuids := n, faults := f } = (.ok u, s')) : Requested s s' cmd o := by
  obtain ⟨fl, rfl⟩ := Stm.publish_eq_ok h
  exact ⟨ho, hs, _, rfl, rfl, rfl⟩

open Stm in
/-- A `cancel` that fails leaves the tables alone. -/
theorem OrderService.reverts_cancel (userId : String) (orderId : ℕ) :
    Reverts (OrderService.cancel userId orderId) := by
  refine Reverts.bind (reads_query _) fun order? => ?_
  cases order? with
  | none => exact (reads_fail _).reverts
  | some order =>
    dsimp only
    split
    · exact (reads_fail _).reverts
    split
    · exact (reads_fail _).reverts
    refine Reverts.bind reads_randomUUID fun _ => ?_
    intro s e s' h
    rcases ht : transaction (do
      let ts ← dateNow
      publish .ORDER_COMMANDS order.market (.command (.CANCEL
        { commandId := _, orderId := order.id, userId, symbol := order.market, ts }))) s with
      ⟨e' | u, s₁⟩
    · rw [Tx.bind_apply_error ht, Prod.mk.injEq] at h
      rw [← h.2]
      exact reverts_transaction _ s e' s₁ ht
    · rw [Tx.bind_apply_ok ht] at h
      cases h

open Stm in
theorem OrderService.cancel_cases {userId : String} {orderId : ℕ} {s s' : Store}
    {r : Except Failure Order} (h : OrderService.cancel userId orderId s = (r, s')) :
    s'.db = s.db ∨ ∃ cmd o, Requested s s' cmd o := by
  cases r with
  | error e => exact Or.inl (OrderService.reverts_cancel userId orderId s e s' h)
  | ok o =>
    refine Or.inr ?_
    obtain ⟨order?, s₁, h₁, h⟩ := Tx.bind_eq_ok.mp h
    obtain ⟨horder, f₁, rfl⟩ := query_eq_ok h₁
    cases order? with
    | none => cases h
    | some order =>
      dsimp only at h
      split at h
      · cases h
      split at h
      · cases h
      obtain ⟨commandId, s₂, h₂, h⟩ := Tx.bind_eq_ok.mp h
      obtain ⟨-, rfl⟩ := Prod.mk.inj h₂
      obtain ⟨_, s₃, h₃, h⟩ := Tx.bind_eq_ok.mp h
      obtain ⟨f₃, s₄, f₄, hbody, rfl⟩ := Stm.transaction_eq_ok h₃
      obtain ⟨ts, s₅, h₅, hbody⟩ := Tx.bind_eq_ok.mp hbody
      obtain ⟨-, rfl⟩ := Prod.mk.inj h₅
      obtain ⟨-, rfl⟩ := Tx.pure_eq_ok.mp h
      have hid : order.id = orderId := Table.key_of_find? horder.symm
      have hreq := requested_of_publish (s := s) (o := order) (by rw [hid]; exact horder.symm) rfl
        hbody
      exact ⟨_, order, { hreq with }⟩

open Stm in
/-- A `forceCancel` that fails leaves the tables alone. -/
theorem Admin.reverts_forceCancel (orderId : ℕ) : Reverts (Admin.forceCancel orderId) := by
  refine Reverts.bind (reads_query _) fun order? => ?_
  cases order? with
  | none => exact (reads_fail _).reverts
  | some order =>
    dsimp only
    split
    · exact (reads_fail _).reverts
    exact Reverts.bind reads_randomUUID fun _ => Reverts.bind reads_dateNow fun _ =>
      reverts_transaction _

open Stm in
theorem Admin.forceCancel_cases {orderId : ℕ} {s s' : Store} {r : Except Failure Unit}
    (h : Admin.forceCancel orderId s = (r, s')) :
    s'.db = s.db ∨ ∃ cmd o, Requested s s' cmd o := by
  cases r with
  | error e => exact Or.inl (Admin.reverts_forceCancel orderId s e s' h)
  | ok u =>
    refine Or.inr ?_
    obtain ⟨order?, s₁, h₁, h⟩ := Tx.bind_eq_ok.mp h
    obtain ⟨horder, f₁, rfl⟩ := query_eq_ok h₁
    cases order? with
    | none => cases h
    | some order =>
      dsimp only at h
      split at h
      · cases h
      obtain ⟨commandId, s₂, h₂, h⟩ := Tx.bind_eq_ok.mp h
      obtain ⟨-, rfl⟩ := Prod.mk.inj h₂
      obtain ⟨ts, s₃, h₃, h⟩ := Tx.bind_eq_ok.mp h
      obtain ⟨-, rfl⟩ := Prod.mk.inj h₃
      obtain ⟨f₃, s₄, f₄, hbody, rfl⟩ := Stm.transaction_eq_ok h
      have hid : order.id = orderId := Table.key_of_find? horder.symm
      have hreq := requested_of_publish (s := s) (o := order) (by rw [hid]; exact horder.symm) rfl
        hbody
      exact ⟨_, order, { hreq with }⟩

open Stm in
theorem Admin.marketUpdate_cases {symbol : String} {input : MarketUpdateInput} {s s' : Store}
    {r : Except Failure Unit} (h : Admin.marketUpdate symbol input s = (r, s')) :
    s'.db = s.db ∨ s'.db = { s.db with
      markets := Table.modify symbol (Admin.applyMarketUpdate input) s.db.markets } := by
  cases r with
  | error e =>
    refine Or.inl (Reverts.bind (reads_query _) (fun market? => ?_) s e s' h)
    cases market? with
    | none => exact (reads_fail _).reverts
    | some market => exact reverts_write _
  | ok u =>
    refine Or.inr ?_
    obtain ⟨market?, s₁, h₁, h⟩ := Tx.bind_eq_ok.mp h
    obtain ⟨-, f₁, rfl⟩ := query_eq_ok h₁
    cases market? with
    | none => cases h
    | some market =>
      obtain ⟨db, fl, hdb, rfl⟩ := write_eq_ok h
      dsimp only at hdb
      split at hdb
      · cases hdb
      · exact (Except.ok.inj hdb).symm

open Stm in
theorem Admin.adjust_cases {userId asset : String} {field : WalletField} {delta : ℚ} {s s' : Store}
    {r : Except Failure Unit} (h : Admin.adjust userId asset field delta s = (r, s')) :
    s'.db = s.db ∨ ∃ w value, s.db.wallet? userId asset = some w ∧
      (Admin.setField field value w).NonNegative ∧ s'.db = { s.db with
        wallets := Table.modify (userId, asset) (Admin.setField field value) s.db.wallets } := by
  cases r with
  | error e => exact Or.inl (reverts_transaction _ s e s' h)
  | ok u =>
    refine Or.inr ?_
    obtain ⟨f, s₁, f', hbody, rfl⟩ := Stm.transaction_eq_ok h
    obtain ⟨wallet?, s₂, h₂, hbody⟩ := Tx.bind_eq_ok.mp hbody
    obtain ⟨-, f₂, rfl⟩ := query_eq_ok h₂
    cases wallet? with
    | none => cases hbody
    | some wallet =>
      dsimp only at hbody
      split at hbody
      · cases hbody
      obtain ⟨db, fl, hdb, rfl⟩ := write_eq_ok hbody
      unfold Admin.setWallet at hdb
      split at hdb
      · cases hdb
      · rename_i w hw
        split at hdb
        · rename_i hn
          exact ⟨w, _, hw, hn, (Except.ok.inj hdb).symm⟩
        · cases hdb

end Orbit
