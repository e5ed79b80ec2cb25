import Mathlib.Tactic.FieldSimp
import Mathlib.Tactic.Linarith
import Orbit.Api.Specs
import Orbit.Store.Affords

/-!
# Which orders are accepted

`OrderService.submit` checks a request in four places: the user and the market are read before the
transaction, `validateTickStep` looks at the decimals, `_submitInner` at their signs,
and the balance is checked by the `UPDATE` of `atomicLock`. `Acceptable` says in one
place what they amount to.

* `submit_accepts_iff`: where no statement fails from outside a `submit` returns exactly when the
  request is acceptable. What it then writes is `Accepted`; otherwise the tables are as they were,
  also where a statement failed.
-/

namespace Orbit

/-- A remainder is zero exactly for the multiples of a divisor that is not zero. -/
theorem Decimal.mod_eq_zero {x y : ℚ} : Decimal.mod x y = some 0 ↔ y ≠ 0 ∧ ∃ n : ℤ, x = n * y := by
  unfold Decimal.mod
  split
  · rename_i hy
    exact ⟨nofun, fun h => absurd hy h.1⟩
  · rename_i hy
    simp only [Option.some.injEq, sub_eq_zero, ne_eq, hy, not_false_eq_true, true_and]
    constructor
    · intro h
      exact ⟨_, h.trans (mul_comm _ _)⟩
    · rintro ⟨n, rfl⟩
      have hdiv : (n * y : ℚ) / y = n := by field_simp
      rw [hdiv, Int.floor_intCast, Int.ceil_intCast, ite_self, mul_comm]

namespace OrderService

open Stm

/-- What an order reserves: an asset and an amount. -/
def reservation (market : Market) (dto : CreateOrderDto) : Option (String × ℚ) :=
  match dto.side, dto.type, dto.price with
  | .ASK, _, _ => some (market.baseAsset, dto.quantity)
  | .BID, .LIMIT, some p => some (market.quoteAsset, p * dto.quantity)
  | .BID, _, _ => none

/-- **The request is acceptable** for the market. -/
structure Acceptable (db : Db) (userId : String) (dto : CreateOrderDto)
    (market : Market) : Prop where
  user : ∃ user, db.user? userId = some user ∧ user.frozen = false
  found : db.market? dto.market = some market
  enabled : market.enabled = true
  positive : 0 < dto.quantity
  step : ∃ n : ℤ, dto.quantity = n * market.stepSize
  limit : dto.type = .LIMIT → ∃ p, dto.price = some p ∧ 0 < p ∧ (∃ n : ℤ, p = n * market.tickSize) ∧
    market.minNotional ≤ p * dto.quantity
  covered : ∀ asset r, reservation market dto = some (asset, r) →
    ∃ w, db.wallet? userId asset = some w ∧ r ≤ w.balance

/-- The row of the order that a `submit` creates. -/
def createdOrder (userId : String) (dto : CreateOrderDto) (s : Store) : Order where
  id := s.seqs.order + 1
  userId := userId
  market := dto.market
  side := dto.side
  type := dto.type
  price := limitPrice dto
  quantity := dto.quantity
  leaveQty := dto.quantity
  filledQty := 0
  status := .OPEN
  commandId := some ⟨s.uuids⟩

/-- Its outbox row. -/
def submitRow (userId : String) (dto : CreateOrderDto) (s : Store) : OutboxEvent where
  id := s.seqs.outbox + 1
  topic := .ORDER_COMMANDS
  key := dto.market
  payload := .command (.SUBMIT
    { commandId := ⟨s.uuids⟩, orderId := s.seqs.order + 1, userId, symbol := dto.market
      side := dto.side, ordType := dto.type, price := limitPrice dto, quantity := dto.quantity
      ts := s.now })

/-- The wallets with the reservation locked. -/
def lockedWallets (userId : String) (dto : CreateOrderDto) (market : Market)
    (db : Db) : List Wallet :=
  match reservation market dto with
  | none => db.wallets
  | some (asset, r) => Table.modify (userId, asset) (·.increment (-r) r) db.wallets

/-- **What an accepted request writes**, and nothing else. -/
structure Accepted (userId : String) (dto : CreateOrderDto) (market : Market)
    (s s' : Store) (o : Order) :
    Prop where
  order : o = createdOrder userId dto s
  db : s'.db = { s.db with
    wallets := lockedWallets userId dto market s.db
    orders := s.db.orders ++ [o]
    outbox := s.db.outbox ++ [submitRow userId dto s] }

section Checks

variable {market : Market} {dto : CreateOrderDto}

/-- What `validateTickStep` lets pass. -/
theorem validateTickStep_eq_ok : validateTickStep dto market = .ok () ↔
    (market.stepSize ≠ 0 ∧ ∃ n : ℤ, dto.quantity = n * market.stepSize) ∧
    (dto.type = .LIMIT → ∃ p, dto.price = some p ∧
      (market.tickSize ≠ 0 ∧ ∃ n : ℤ, p = n * market.tickSize) ∧
      market.minNotional ≤ p * dto.quantity) := by
  unfold validateTickStep
  rw [← Decimal.mod_eq_zero]
  by_cases hq : Decimal.mod dto.quantity market.stepSize = some 0
  · simp only [hq, ne_eq, not_true_eq_false, if_false, true_and]
    cases hty : dto.type with
    | MARKET => simp
    | LIMIT =>
      cases hp : dto.price with
      | none => simp
      | some p =>
        simp only [Option.some.injEq, exists_eq_left', forall_const, ← Decimal.mod_eq_zero]
        by_cases ht : Decimal.mod p market.tickSize = some 0
        · by_cases hn : p * dto.quantity < market.minNotional
          · simp [ht, hn]
          · simp [ht, hn, not_lt.mp hn]
        · simp [ht]
  · simp [hq]

/-- What is locked for an order whose price was checked. -/
theorem lockReservation_eq {userId : String} (hlimit : dto.type = .LIMIT → dto.price.isSome) :
    lockReservation userId market dto dto.quantity (limitPrice dto) =
      match reservation market dto with
      | none => pure ()
      | some (asset, r) => atomicLock userId asset r := by
  unfold lockReservation reservation limitPrice
  cases hty : dto.type <;> cases hside : dto.side <;> cases hp : dto.price <;> first | rfl | skip
  rw [hty, hp] at hlimit
  exact absurd (hlimit rfl) (by simp)

end Checks

/-! ## The transaction -/

section Transaction

variable {userId asset : String} {market : Market} {dto : CreateOrderDto} {r : ℚ} {s s' : Store}

/-- The reservation is locked where the balance covers it. -/
theorem atomicLock_writes {u : Unit} (h : atomicLock userId asset r s = (.ok u, s')) :
    (∃ w, s.db.wallet? userId asset = some w ∧ r ≤ w.balance) ∧
    ∃ fl, s' = { s with
      db := { s.db with wallets := Table.modify (userId, asset) (·.increment (-r) r) s.db.wallets }
      faults := fl } := by
  obtain ⟨db, fl, hdb, rfl⟩ := write_eq_ok h
  unfold atomicLockUpdate at hdb
  split at hdb
  · cases hdb
  · rename_i w hw
    split at hdb
    · rename_i hle
      obtain ⟨-, -, -, rfl⟩ := Db.walletUpdate_eq_ok.mp hdb
      exact ⟨⟨w, hw, hle⟩, fl, rfl⟩
    · cases hdb

theorem atomicLock_calm (hs : s.Calm) (hsolvent : s.db.Solvent) (hr : 0 ≤ r) {w : Wallet}
    (hw : s.db.wallet? userId asset = some w) (hle : r ≤ w.balance) :
    atomicLock userId asset r s = (.ok (), { s with
      db := { s.db with
        wallets := Table.modify (userId, asset) (·.increment (-r) r) s.db.wallets } }) := by
  have hn : (w.increment (-r) r).NonNegative := by
    have hlocked := (hsolvent w (Table.mem_of_find? hw)).2
    refine ⟨?_, ?_⟩
    · change 0 ≤ w.balance + -r
      linarith
    · change 0 ≤ w.locked + r
      linarith
  refine write_calm hs ?_
  unfold atomicLockUpdate
  rw [hw]
  dsimp only
  rw [if_pos hle]
  exact Db.walletUpdate_eq_ok.mpr ⟨w, hw, hn, rfl⟩

/-- A lock that returns. -/
theorem lockReservation_writes {u : Unit} (hlimit : dto.type = .LIMIT → dto.price.isSome)
    (h : lockReservation userId market dto dto.quantity (limitPrice dto) s = (.ok u, s')) :
    (∀ asset r, reservation market dto = some (asset, r) →
      ∃ w, s.db.wallet? userId asset = some w ∧ r ≤ w.balance) ∧
    ∃ fl, s' = { s with
      db := { s.db with wallets := lockedWallets userId dto market s.db }, faults := fl } := by
  rw [lockReservation_eq hlimit] at h
  unfold lockedWallets
  cases hres : reservation market dto with
  | none =>
    rw [hres] at h
    obtain ⟨-, rfl⟩ := Tx.pure_eq_ok.mp h
    exact ⟨nofun, s.faults, rfl⟩
  | some p =>
    rw [hres] at h
    obtain ⟨hcovered, fl, rfl⟩ := atomicLock_writes h
    refine ⟨?_, fl, rfl⟩
    rintro _ _ ⟨⟩
    exact hcovered

/-- A reservation takes nothing away from what is locked. -/
theorem reservation_nonneg (hq : 0 < dto.quantity)
    (hlimit : ∀ p, dto.type = .LIMIT → dto.price = some p → 0 < p)
    (h : reservation market dto = some (asset, r)) : 0 ≤ r := by
  unfold reservation at h
  split at h
  · cases h
    exact hq.le
  · rename_i p _ hty hp
    cases h
    exact mul_nonneg (hlimit p hty hp).le hq.le
  · cases h

theorem lockReservation_calm (hs : s.Calm) (hsolvent : s.db.Solvent)
    (h : Acceptable s.db userId dto market) :
    lockReservation userId market dto dto.quantity (limitPrice dto) s = (.ok (), { s with
      db := { s.db with wallets := lockedWallets userId dto market s.db } }) := by
  have hprice : ∀ p, dto.type = .LIMIT → dto.price = some p → 0 < p := by
    intro p hty hp
    obtain ⟨p', hp', hpos, -⟩ := h.limit hty
    rwa [Option.some.inj (hp.symm.trans hp')]
  have hsome : dto.type = .LIMIT → dto.price.isSome := by
    intro hty
    obtain ⟨p, hp, -⟩ := h.limit hty
    rw [hp]
    rfl
  rw [lockReservation_eq hsome]
  unfold lockedWallets
  cases hres : reservation market dto with
  | none => rfl
  | some p =>
    obtain ⟨w, hw, hle⟩ := h.covered p.1 p.2 hres
    exact atomicLock_calm hs hsolvent (reservation_nonneg h.positive hprice hres) hw hle

/-- A transaction that returns. -/
theorem submitTx_writes {o : Order} {id : Uuid} (hid : id = ⟨s.uuids⟩)
    (hlimit : dto.type = .LIMIT → dto.price.isSome) {n : ℕ} {f : Option ℕ}
    (h : submitTx userId market dto (limitPrice dto) id
      { s with uuids := n, faults := f } = (.ok o, s')) :
    (∀ asset r, reservation market dto = some (asset, r) →
      ∃ w, s.db.wallet? userId asset = some w ∧ r ≤ w.balance) ∧
    Accepted userId dto market s s' o := by
  obtain ⟨f₁, s₁, f₂, hbody, rfl⟩ := Stm.transaction_eq_ok h
  obtain ⟨_, s₂, h₂, hbody⟩ := Tx.bind_eq_ok.mp hbody
  obtain ⟨hcovered, f₃, rfl⟩ := lockReservation_writes hlimit h₂
  obtain ⟨o', s₃, h₃, hbody⟩ := Tx.bind_eq_ok.mp hbody
  obtain ⟨rfl, -, -, -, f₄, rfl⟩ := orderCreate_eq_ok h₃
  obtain ⟨ts, s₄, h₄, hbody⟩ := Tx.bind_eq_ok.mp hbody
  obtain ⟨hts, rfl⟩ := Prod.mk.inj h₄
  obtain rfl := Except.ok.inj hts
  obtain ⟨_, s₅, h₅, hbody⟩ := Tx.bind_eq_ok.mp hbody
  obtain ⟨f₅, rfl⟩ := publish_eq_ok h₅
  obtain ⟨rfl, rfl⟩ := Tx.pure_eq_ok.mp hbody
  subst hid
  exact ⟨hcovered, rfl, rfl⟩

theorem orderCreate_calm {data : ℕ → Order} {o : Order} (hs : s.Calm)
    (ho : o = data (s.seqs.order + 1))
    (hfresh : ∀ o' ∈ s.db.orders, o'.commandId ≠ o.commandId) (hu : (s.db.user? o.userId).isSome)
    (hm : (s.db.market? o.market).isSome) :
    orderCreate data s = (.ok o, { s with
      db := { s.db with orders := s.db.orders ++ [o] }
      seqs := { s.seqs with order := s.seqs.order + 1 } }) := by
  unfold orderCreate
  rw [Tx.bind_apply_ok (stmt_calm hs)]
  simp only [Tx.modify_bind_apply, Tx.get_bind_apply, ← ho]
  rw [if_neg, if_neg]
  · rfl
  · rintro (h | h)
    · rw [Option.isNone_iff_eq_none.mp h] at hu
      cases hu
    · rw [Option.isNone_iff_eq_none.mp h] at hm
      cases hm
  · rintro ⟨-, o', ho', he⟩
    exact hfresh o' ho' he

/-- A transaction of an acceptable request returns. -/
theorem submitTx_calm (hs : s.Calm) (hsolvent : s.db.Solvent) {id : Uuid}
    (hfresh : ∀ o ∈ s.db.orders, o.commandId ≠ some id) (h : Acceptable s.db userId dto market) :
    ∃ o s', submitTx userId market dto (limitPrice dto) id s = (.ok o, s') := by
  obtain ⟨user, huser, -⟩ := h.user
  let o : Order :=
    { id := s.seqs.order + 1, userId, market := dto.market, side := dto.side, type := dto.type
      price := limitPrice dto, quantity := dto.quantity, leaveQty := dto.quantity, filledQty := 0
      status := .OPEN, commandId := some id }
  let s₁ : Store := { s with db := { s.db with wallets := lockedWallets userId dto market s.db } }
  let s₂ : Store := { s₁ with
    db := { s₁.db with orders := s₁.db.orders ++ [o] }
    seqs := { s₁.seqs with order := s₁.seqs.order + 1 } }
  have hlock := lockReservation_calm hs hsolvent h
  have hcreate : orderCreate (fun id' => { o with id := id' }) s₁ = (.ok o, s₂) := by
    refine orderCreate_calm hs rfl hfresh ?_ ?_
    · change (s.db.user? userId).isSome
      rw [huser]
      rfl
    · change (s.db.market? dto.market).isSome
      rw [h.found]
      rfl
  obtain ⟨_, s₃, hpublish, hs₃⟩ := total_publish .ORDER_COMMANDS dto.market (.command (.SUBMIT
    { commandId := id, orderId := o.id, userId, symbol := dto.market, side := dto.side
      ordType := dto.type, price := limitPrice dto, quantity := dto.quantity, ts := s₂.now })) s₂ hs
  have hnow : dateNow s₂ = (.ok s₂.now, s₂) := rfl
  refine ⟨o, s₃, ?_⟩
  unfold submitTx transaction
  refine Tx.transaction_eq_ok.mpr ?_
  rw [Tx.bind_apply_ok (stmt_calm hs)]
  refine Tx.bind_eq_ok.mpr ⟨o, s₃, ?_, ?_⟩
  · rw [Tx.bind_apply_ok hlock, Tx.bind_apply_ok hcreate, Tx.bind_apply_ok hnow,
      Tx.bind_apply_ok hpublish]
    rfl
  · rw [Tx.bind_apply_ok (stmt_calm hs₃)]
    rfl

end Transaction

/-! ## The request -/

section Submit

variable {userId : String} {dto : CreateOrderDto} {s s' : Store}

/-- A `submit` that returns accepted the request. -/
theorem submit_writes {o : Order} (h : submit userId dto s = (.ok o, s')) :
    ∃ market, Acceptable s.db userId dto market ∧ Accepted userId dto market s s' o := by
  obtain ⟨user?, s₁, h₁, h⟩ := Tx.bind_eq_ok.mp h
  obtain ⟨huser, f₁, rfl⟩ := query_eq_ok h₁
  cases user? with
  | none => cases h
  | some user =>
    dsimp only at h
    split at h
    · cases h
    rename_i hfrozen
    obtain ⟨market?, s₂, h₂, h⟩ := Tx.bind_eq_ok.mp h
    obtain ⟨hmarket, f₂, rfl⟩ := query_eq_ok h₂
    cases market? with
    | none => cases h
    | some market =>
      dsimp only at h
      split at h
      · cases h
      rename_i henabled
      obtain ⟨_, s₃, h₃, h⟩ := Tx.bind_eq_ok.mp h
      obtain ⟨hvalid, rfl⟩ := Prod.mk.inj h₃
      split at h
      · cases h
      rename_i hq
      split at h
      · cases h
      rename_i hprice
      obtain ⟨commandId, s₄, h₄, h⟩ := Tx.bind_eq_ok.mp h
      obtain ⟨hid, rfl⟩ := Prod.mk.inj h₄
      obtain ⟨⟨-, hstep⟩, hlimit⟩ := validateTickStep_eq_ok.mp hvalid
      have hsome : dto.type = .LIMIT → dto.price.isSome := by
        intro hty
        obtain ⟨p, hp, -⟩ := hlimit hty
        rw [hp]
        rfl
      obtain ⟨hcovered, haccepted⟩ :=
        submitTx_writes (s := s) (Except.ok.inj hid).symm hsome h
      refine ⟨market, ?_, haccepted⟩
      refine
        { user := ⟨user, huser.symm, by simpa using hfrozen⟩
          found := hmarket.symm
          enabled := by simpa using henabled
          positive := not_le.mp hq
          step := hstep
          limit := fun hty => ?_
          covered := hcovered }
      obtain ⟨p, hp, ⟨-, htick⟩, hnotional⟩ := hlimit hty
      have hpos : 0 < p := by simpa [hty, limitPrice, hp] using hprice
      exact ⟨p, hp, hpos, htick, hnotional⟩

/-- A multiple that is positive is one of a number that is not zero. -/
theorem ne_zero_of_multiple {x y : ℚ} (hx : 0 < x) (h : ∃ n : ℤ, x = n * y) : y ≠ 0 := by
  rintro rfl
  obtain ⟨n, rfl⟩ := h
  exact absurd hx (by simp)

/-- An acceptable request is accepted. -/
theorem submit_calm (hs : s.Calm) (hsolvent : s.db.Solvent)
    (hfresh : ∀ o ∈ s.db.orders, o.commandId ≠ some ⟨s.uuids⟩) {market : Market}
    (h : Acceptable s.db userId dto market) : ∃ o s', submit userId dto s = (.ok o, s') := by
  obtain ⟨user, huser, hfrozen⟩ := h.user
  have hvalid : validateTickStep dto market = .ok () := by
    refine validateTickStep_eq_ok.mpr ⟨⟨ne_zero_of_multiple h.positive h.step, h.step⟩,
      fun hty => ?_⟩
    obtain ⟨p, hp, hpos, htick, hnotional⟩ := h.limit hty
    exact ⟨p, hp, ⟨ne_zero_of_multiple hpos htick, htick⟩, hnotional⟩
  have hprice : ¬(dto.type = .LIMIT ∧ (limitPrice dto).all (fun p => decide (p ≤ 0)) = true) := by
    rintro ⟨hty, hall⟩
    obtain ⟨p, hp, hpos, -⟩ := h.limit hty
    simp only [limitPrice, hty, if_true, hp, Option.all_some, decide_eq_true_eq] at hall
    linarith
  have huuid : randomUUID s = (.ok ⟨s.uuids⟩, { s with uuids := s.uuids + 1 }) := rfl
  obtain ⟨o, s', htx⟩ := submitTx_calm (s := { s with uuids := s.uuids + 1 }) hs hsolvent hfresh h
  refine ⟨o, s', ?_⟩
  unfold submit
  rw [Tx.bind_apply_ok (query_calm _ hs), huser]
  dsimp only
  rw [if_neg (by simp [hfrozen]), marketFind, Tx.bind_apply_ok (query_calm _ hs), h.found]
  dsimp only
  rw [if_neg (by simp [h.enabled]), hvalid, Tx.ofExcept_ok_bind_apply,
    if_neg (not_le.mpr h.positive),
    if_neg hprice, Tx.bind_apply_ok huuid]
  exact htx

end Submit

/-- What `submit` does with a request. -/
structure SubmitExact (userId : String) (dto : CreateOrderDto) (s : Store) : Prop where
  accepts : s.Calm →
    ((∃ o s', submit userId dto s = (.ok o, s')) ↔ ∃ market, Acceptable s.db userId dto market)
  writes : ∀ o s', submit userId dto s = (.ok o, s') →
    ∃ market, Acceptable s.db userId dto market ∧ Accepted userId dto market s s' o
  reverts : ∀ e s', submit userId dto s = (.error e, s') → s'.db = s.db

/-- **`submit` accepts exactly the valid orders, and all or nothing of each.** The `CHECK`
constraints of the wallets hold, and no order has the id that `randomUUID` is about to mint. -/
theorem submit_accepts_iff (userId : String) (dto : CreateOrderDto) (s : Store)
    (hsolvent : s.db.Solvent) (hfresh : ∀ o ∈ s.db.orders, o.commandId ≠ some ⟨s.uuids⟩) :
    SubmitExact userId dto s where
  accepts hs := by
    refine ⟨fun ⟨o, s', h⟩ => ?_, fun ⟨market, h⟩ => submit_calm hs hsolvent hfresh h⟩
    obtain ⟨market, h, -⟩ := submit_writes h
    exact ⟨market, h⟩
  writes o s' h := submit_writes h
  reverts e s' h := submit_eq_error h

/-- A bid of `alice` for 900 of her 1000 USDT, and one for 1100. -/
theorem submit_accepts_bid :
    SubmitExact "alice" ⟨"BTC-USDT", .BID, .LIMIT, some 300, 3⟩ Sample.store ∧
    (submit "alice" ⟨"BTC-USDT", .BID, .LIMIT, some 300, 3⟩ Sample.store).2.db.wallets =
      [⟨"alice", "USDT", 100, 900⟩, ⟨"bob", "BTC", 10, 0⟩] ∧
    (submit "alice" ⟨"BTC-USDT", .BID, .LIMIT, some 1100, 1⟩ Sample.store).2.db =
      Sample.store.db := by
  refine ⟨submit_accepts_iff "alice" _ Sample.store ?_ ?_, by decide +kernel, by decide +kernel⟩
  · unfold Db.Solvent
    decide +kernel
  · decide +kernel

end OrderService

end Orbit
