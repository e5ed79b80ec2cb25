import Orbit.Store.Statements

/-!
# What the statements do

The accounts of the database, `Db.balance` and `Db.locked`, read the wallet of a user in an asset,
with zero for one that does not exist. A `Posting` moves an account, and `Posted db db' ps` says
that the accounts of `db'` are those of `db` with the postings `ps` made, in wallets opened where
there were none. A statement that returns is then described by the tables it changed and the
postings it made: `walletUpdate_eq_ok`, `walletUpsert_eq_ok`, `orderUpdate_eq_ok`,
`tradeCreate_eq_ok`, `publish_eq_ok`.

`Store.Framed` is what settlement never changes, whether it returns or fails: the id sequence of the
orders, the clock, the users, assets and markets, and the commands in the outbox.
-/

namespace Orbit

/-! ## Accounts -/

/-- A change of the two amounts of a wallet. -/
structure Posting where
  userId : String
  asset : String
  balance : ℚ
  locked : ℚ
  deriving DecidableEq, Repr

namespace Posting

/-- What the postings add to the balance of `u` in `a`. -/
def balanceSum (u a : String) (ps : List Posting) : ℚ :=
  (ps.map fun p => if p.userId = u ∧ p.asset = a then p.balance else 0).sum

/-- What the postings add to the locked amount of `u` in `a`. -/
def lockedSum (u a : String) (ps : List Posting) : ℚ :=
  (ps.map fun p => if p.userId = u ∧ p.asset = a then p.locked else 0).sum

variable (u a : String)

@[simp] theorem balanceSum_nil : balanceSum u a [] = 0 := rfl

@[simp] theorem lockedSum_nil : lockedSum u a [] = 0 := rfl

@[simp] theorem balanceSum_cons (p : Posting) (ps : List Posting) : balanceSum u a (p :: ps) =
    (if p.userId = u ∧ p.asset = a then p.balance else 0) + balanceSum u a ps := by
  simp [balanceSum]

@[simp] theorem lockedSum_cons (p : Posting) (ps : List Posting) : lockedSum u a (p :: ps) =
    (if p.userId = u ∧ p.asset = a then p.locked else 0) + lockedSum u a ps := by
  simp [lockedSum]

@[simp] theorem balanceSum_append (ps qs : List Posting) :
    balanceSum u a (ps ++ qs) = balanceSum u a ps + balanceSum u a qs := by
  simp [balanceSum]

@[simp] theorem lockedSum_append (ps qs : List Posting) :
    lockedSum u a (ps ++ qs) = lockedSum u a ps + lockedSum u a qs := by
  simp [lockedSum]

end Posting

namespace Db

def balance (db : Db) (u a : String) : ℚ := ((db.wallet? u a).map (·.balance)).getD 0

def locked (db : Db) (u a : String) : ℚ := ((db.wallet? u a).map (·.locked)).getD 0

end Db

/-- No wallet has a negative amount. -/
def Db.Solvent (db : Db) : Prop := ∀ w ∈ db.wallets, w.NonNegative

/-- The accounts of `db'` are those of `db` with the postings made, each in a wallet that was there
or was opened for it, and no amount became negative. -/
structure Posted (db db' : Db) (ps : List Posting) : Prop where
  balance : ∀ u a, db'.balance u a = db.balance u a + Posting.balanceSum u a ps
  locked : ∀ u a, db'.locked u a = db.locked u a + Posting.lockedSum u a ps
  opened : ∀ u a, (db'.wallet? u a).isSome ↔
    (db.wallet? u a).isSome ∨ ∃ p ∈ ps, p.userId = u ∧ p.asset = a
  solvent : db.Solvent → db'.Solvent

namespace Posted

theorem refl_of_wallets {db db' : Db} (h : db'.wallets = db.wallets) : Posted db db' [] where
  balance u a := by simp [Db.balance, Db.wallet?, h]
  locked u a := by simp [Db.locked, Db.wallet?, h]
  opened u a := by simp [Db.wallet?, h]
  solvent hs w hw := hs w (h ▸ hw)

theorem trans {db₁ db₂ db₃ : Db} {ps qs : List Posting} (h₁ : Posted db₁ db₂ ps)
    (h₂ : Posted db₂ db₃ qs) : Posted db₁ db₃ (ps ++ qs) where
  balance u a := by rw [h₂.balance, h₁.balance, Posting.balanceSum_append, add_assoc]
  locked u a := by rw [h₂.locked, h₁.locked, Posting.lockedSum_append, add_assoc]
  opened u a := by
    simp only [h₂.opened, h₁.opened, List.mem_append, or_and_right, exists_or, or_assoc]
  solvent hs := h₂.solvent (h₁.solvent hs)

/-- The accounts are in the wallets. -/
theorem of_wallets {db db₁ db' : Db} {ps : List Posting} (h : Posted db db₁ ps)
    (hw : db'.wallets = db₁.wallets) : Posted db db' ps := by
  have := h.trans (refl_of_wallets hw)
  rwa [List.append_nil] at this

end Posted

theorem key_increment (b l : ℚ) (w : Wallet) : Table.key (w.increment b l) = Table.key w := rfl

namespace Db

theorem walletUpdate_eq_ok {db db' : Db} {u a : String} {b l : ℚ} :
    db.walletUpdate u a b l = .ok db' ↔ ∃ w, db.wallet? u a = some w ∧
      (w.increment b l).NonNegative ∧
      db' = { db with wallets := Table.modify (u, a) (·.increment b l) db.wallets } := by
  unfold walletUpdate
  cases hw : db.wallet? u a with
  | none => simp
  | some w =>
    by_cases hn : (w.increment b l).NonNegative
    · simp [hn, eq_comm]
    · simp [hn]

theorem wallet?_modify (db : Db) (u a u' a' : String) (b l : ℚ) :
    ({ db with wallets := Table.modify (u, a) (·.increment b l) db.wallets } : Db).wallet? u' a' =
      if u = u' ∧ a = a' then (db.wallet? u' a').map (·.increment b l) else db.wallet? u' a' := by
  unfold wallet?
  rw [Table.find?_modify (key_increment b l)]
  simp only [Prod.mk.injEq, eq_comm]

theorem posted_modify {db : Db} {u a : String} {w : Wallet} (hw : db.wallet? u a = some w)
    {b l : ℚ} (hn : (w.increment b l).NonNegative) :
    Posted db { db with wallets := Table.modify (u, a) (·.increment b l) db.wallets }
      [⟨u, a, b, l⟩] := by
  refine ⟨fun u' a' => ?_, fun u' a' => ?_, fun u' a' => ?_, fun hs x hx => ?_⟩
  · simp only [balance, wallet?_modify]
    by_cases h : u = u' ∧ a = a'
    · obtain ⟨rfl, rfl⟩ := h
      simp [hw, Wallet.increment]
    · simp [h]
  · simp only [locked, wallet?_modify]
    by_cases h : u = u' ∧ a = a'
    · obtain ⟨rfl, rfl⟩ := h
      simp [hw, Wallet.increment]
    · simp [h]
  · rw [wallet?_modify]
    by_cases h : u = u' ∧ a = a'
    · obtain ⟨rfl, rfl⟩ := h
      simp [hw]
    · simp [h]
  · rcases Table.mem_modify hx with hx | ⟨x₀, hx₀, rfl⟩
    · exact hs x hx
    · obtain rfl : w = x₀ := Option.some.inj (hw.symm.trans hx₀)
      exact hn

theorem walletUpdate_posted {db db' : Db} {u a : String} {b l : ℚ}
    (h : db.walletUpdate u a b l = .ok db') :
    ∃ ws, db' = { db with wallets := ws } ∧ Posted db db' [⟨u, a, b, l⟩] := by
  obtain ⟨w, hw, hn, rfl⟩ := walletUpdate_eq_ok.mp h
  exact ⟨_, rfl, posted_modify hw hn⟩

/-- A wallet created with `amt`. -/
theorem posted_append {db : Db} {u a : String} (hw : db.wallet? u a = none)
    {amt : ℚ} (hn : 0 ≤ amt) :
    Posted db { db with wallets := db.wallets ++ [⟨u, a, amt, 0⟩] } [⟨u, a, amt, 0⟩] := by
  have key : ∀ u' a', ({ db with wallets := db.wallets ++ [⟨u, a, amt, 0⟩] } : Db).wallet? u' a' =
      (db.wallet? u' a').or (if u = u' ∧ a = a' then some ⟨u, a, amt, 0⟩ else none) := by
    intro u' a'
    simp only [wallet?, Table.find?_append, Table.find?_cons, Table.find?_nil]
    congr 1
    simp only [Table.key, Prod.mk.injEq]
  refine ⟨fun u' a' => ?_, fun u' a' => ?_, fun u' a' => ?_, fun hs x hx => ?_⟩
  · simp only [balance, key]
    by_cases h : u = u' ∧ a = a'
    · obtain ⟨rfl, rfl⟩ := h
      simp [hw]
    · simp [h]
  · simp only [locked, key]
    by_cases h : u = u' ∧ a = a'
    · obtain ⟨rfl, rfl⟩ := h
      simp [hw]
    · simp [h]
  · rw [key]
    by_cases h : u = u' ∧ a = a' <;> simp [h]
  · rcases List.mem_append.mp hx with hx | hx
    · exact hs x hx
    · obtain rfl := List.mem_singleton.mp hx
      exact ⟨hn, le_rfl⟩

theorem walletUpsert_posted {db db' : Db} {u a : String} {amt : ℚ}
    (h : db.walletUpsert u a amt = .ok db') :
    ∃ ws, db' = { db with wallets := ws } ∧ Posted db db' [⟨u, a, amt, 0⟩] := by
  unfold walletUpsert at h
  cases hw : db.wallet? u a with
  | some w =>
    rw [hw] at h
    exact walletUpdate_posted h
  | none =>
    rw [hw] at h
    dsimp only at h
    split at h
    · split at h
      · rename_i hn
        obtain rfl := Except.ok.inj h
        exact ⟨_, rfl, posted_append hw hn⟩
      · cases h
    · cases h

end Db

/-! ## Statements that return -/

namespace Stm

variable {s s' : Store}

theorem stmt_apply_ok (h : s.faults ≠ some 0) :
    stmt s = (.ok (), { s with faults := s.faults.map Nat.pred }) := by
  obtain ⟨db, seqs, uuids, now, _ | _ | n⟩ := s
  · rfl
  · exact absurd rfl h
  · rfl

theorem stmt_apply_error (h : s.faults = some 0) : stmt s = (.error .fault, s) := by
  simp only [stmt, h]

theorem stmt_eq_ok {u : Unit} (h : stmt s = (.ok u, s')) :
    s.faults ≠ some 0 ∧ s' = { s with faults := s.faults.map Nat.pred } := by
  by_cases hf : s.faults = some 0
  · rw [stmt_apply_error hf] at h
    cases h
  · rw [stmt_apply_ok hf] at h
    exact ⟨hf, (Prod.mk.inj h).2.symm⟩

theorem query_apply_ok {α : Type} (f : Db → α) (h : s.faults ≠ some 0) :
    query f s = (.ok (f s.db), { s with faults := s.faults.map Nat.pred }) := by
  unfold query
  rw [Tx.bind_apply_ok (stmt_apply_ok h)]
  rfl

theorem query_apply_error {α : Type} (f : Db → α) (h : s.faults = some 0) :
    query f s = (.error .fault, s) := by
  unfold query
  rw [Tx.bind_apply_error (stmt_apply_error h)]

theorem query_eq_ok {α : Type} {f : Db → α} {a : α} (h : query f s = (.ok a, s')) :
    a = f s.db ∧ ∃ fl, s' = { s with faults := fl } := by
  by_cases hf : s.faults = some 0
  · rw [query_apply_error f hf] at h
    cases h
  · rw [query_apply_ok f hf, Prod.mk.injEq, Except.ok.injEq] at h
    exact ⟨h.1.symm, _, h.2.symm⟩

theorem write_eq_ok {f : Db → Except Failure Db} {u : Unit} (h : write f s = (.ok u, s')) :
    ∃ db fl, f s.db = .ok db ∧ s' = { s with db := db, faults := fl } := by
  obtain ⟨_, s₁, h₁, h⟩ := Tx.bind_eq_ok.mp h
  obtain ⟨-, rfl⟩ := stmt_eq_ok h₁
  cases hf : f s.db with
  | error e => simp [hf] at h
  | ok db =>
    simp only [Tx.get_bind_apply, hf, Tx.ofExcept_ok_bind_apply,
      Tx.modify_apply, Prod.mk.injEq] at h
    exact ⟨db, _, rfl, h.2.symm⟩

/-- The postings `ps` were made, and the other tables that settlement writes are as before. -/
structure Moved (s s' : Store) (ps : List Posting) : Prop where
  orders : s'.db.orders = s.db.orders
  trades : s'.db.trades = s.db.trades
  outbox : s'.db.outbox = s.db.outbox
  posted : Posted s.db s'.db ps

theorem Moved.trans {s₁ s₂ s₃ : Store} {ps qs : List Posting} (h₁ : Moved s₁ s₂ ps)
    (h₂ : Moved s₂ s₃ qs) : Moved s₁ s₃ (ps ++ qs) where
  orders := h₂.orders.trans h₁.orders
  trades := h₂.trades.trans h₁.trades
  outbox := h₂.outbox.trans h₁.outbox
  posted := h₁.posted.trans h₂.posted

theorem moved_of_wallets {ps : List Posting} {db : Db} {fl : Option ℕ}
    (h : ∃ ws, db = { s.db with wallets := ws } ∧ Posted s.db db ps) :
    Moved s { s with db := db, faults := fl } ps := by
  obtain ⟨ws, rfl, h⟩ := h
  exact ⟨rfl, rfl, rfl, h⟩

theorem walletUpdate_eq_ok {u a : String} {b l : ℚ} {x : Unit}
    (h : walletUpdate u a b l s = (.ok x, s')) : Moved s s' [⟨u, a, b, l⟩] := by
  obtain ⟨db, fl, hdb, rfl⟩ := write_eq_ok h
  exact moved_of_wallets (Db.walletUpdate_posted hdb)

theorem walletUpsert_eq_ok {u a : String} {amt : ℚ} {x : Unit}
    (h : walletUpsert u a amt s = (.ok x, s')) : Moved s s' [⟨u, a, amt, 0⟩] := by
  obtain ⟨db, fl, hdb, rfl⟩ := write_eq_ok h
  exact moved_of_wallets (Db.walletUpsert_posted hdb)

/-- `order.update` rewrites one row and returns it. -/
theorem orderUpdate_eq_ok {id : ℕ} {data : Order → Order} (hdata : ∀ o, (data o).id = o.id)
    {o' : Order} (h : orderUpdate id data s = (.ok o', s')) :
    ∃ o fl, s.db.order? id = some o ∧ o' = data o ∧ s' = { s with
      db := { s.db with orders := Table.modify id data s.db.orders }, faults := fl } := by
  obtain ⟨_, s₁, h₁, h⟩ := Tx.bind_eq_ok.mp h
  obtain ⟨db, fl, hdb, rfl⟩ := write_eq_ok h₁
  unfold Db.orderUpdate at hdb
  cases ho : s.db.order? id with
  | none => simp [ho] at hdb
  | some o =>
    rw [ho] at hdb
    obtain rfl := Except.ok.inj hdb
    have hfind : ({ s.db with orders := Table.modify id data s.db.orders } : Db).order? id =
        some (data o) := by
      unfold Db.order? at ho ⊢
      rw [Table.find?_modify_self hdata, ho, Option.map_some]
    simp only [Tx.get_bind_apply, hfind, Tx.pure_apply, Prod.mk.injEq, Except.ok.injEq] at h
    exact ⟨o, fl, rfl, h.1.symm, h.2.symm⟩

/-- `order.update` in terms of the tables. -/
theorem orderUpdate_tables {id : ℕ} {data : Order → Order} (hdata : ∀ o, (data o).id = o.id)
    {o' : Order} (h : orderUpdate id data s = (.ok o', s')) :
    (∃ o, s.db.order? id = some o ∧ o' = data o) ∧
    s'.db.orders = Table.modify id data s.db.orders ∧ s'.db.trades = s.db.trades ∧
    Posted s.db s'.db [] := by
  obtain ⟨o, fl, ho, rfl, rfl⟩ := orderUpdate_eq_ok hdata h
  exact ⟨⟨o, ho, rfl⟩, rfl, rfl, Posted.refl_of_wallets rfl⟩

theorem orderFindOrThrow_eq_ok {id : ℕ} {o : Order} (h : orderFindOrThrow id s = (.ok o, s')) :
    s.db.order? id = some o ∧ ∃ fl, s' = { s with faults := fl } := by
  obtain ⟨o?, s₁, h₁, h⟩ := Tx.bind_eq_ok.mp h
  obtain ⟨rfl, fl, rfl⟩ := query_eq_ok h₁
  cases ho : s.db.order? id with
  | none => simp [ho] at h
  | some o =>
    simp only [ho, Tx.pure_apply, Prod.mk.injEq, Except.ok.injEq] at h
    exact ⟨congrArg some h.1, fl, h.2.symm⟩

/-- `trade.create` appends the row, whose `matchId` no other row has. -/
theorem tradeCreate_eq_ok {data : ℕ → ℕ → Trade} {t : Trade}
    (h : tradeCreate data s = (.ok t, s')) :
    t = data (s.seqs.trade + 1) s.now ∧
    ¬(t.matchId.isSome ∧ ∃ t' ∈ s.db.trades, t'.matchId = t.matchId) ∧
    ∃ fl, s' = { s with
      db := { s.db with trades := s.db.trades ++ [t] }
      seqs := { s.seqs with trade := s.seqs.trade + 1 }, faults := fl } := by
  obtain ⟨_, s₁, h₁, h⟩ := Tx.bind_eq_ok.mp h
  obtain ⟨-, rfl⟩ := stmt_eq_ok h₁
  simp only [Tx.get_bind_apply, Tx.modify_bind_apply] at h
  split at h
  · cases h
  · rename_i hn
    simp only [Tx.modify_bind_apply, Tx.pure_apply, Prod.mk.injEq, Except.ok.injEq] at h
    obtain ⟨rfl, rfl⟩ := h
    exact ⟨rfl, hn, _, rfl⟩

theorem publish_eq_ok {topic : Topic} {k : String} {p : Payload} {u : Unit}
    (h : publish topic k p s = (.ok u, s')) :
    ∃ fl, s' = { s with
      db := { s.db with outbox := s.db.outbox ++ [⟨s.seqs.outbox + 1, topic, k, p⟩] }
      seqs := { s.seqs with outbox := s.seqs.outbox + 1 }, faults := fl } := by
  obtain ⟨_, s₁, h₁, h⟩ := Tx.bind_eq_ok.mp h
  obtain ⟨-, rfl⟩ := stmt_eq_ok h₁
  simp only [Tx.modify_bind_apply, Tx.modify_apply, Prod.mk.injEq] at h
  exact ⟨_, h.2.symm⟩

end Stm

/-! ## What settlement never changes -/

/-- The id sequence of the orders, the clock, the users, assets and markets, and the commands in the
outbox are as before. -/
structure Store.Framed (s s' : Store) : Prop where
  order : s'.seqs.order = s.seqs.order
  now : s'.now = s.now
  users : s'.db.users = s.db.users
  assets : s'.db.assets = s.db.assets
  markets : s'.db.markets = s.db.markets
  commands : s'.db.commands = s.db.commands

namespace Store.Framed

theorem refl (s : Store) : Framed s s := ⟨rfl, rfl, rfl, rfl, rfl, rfl⟩

theorem trans {s₁ s₂ s₃ : Store} (h₁ : Framed s₁ s₂) (h₂ : Framed s₂ s₃) : Framed s₁ s₃ where
  order := h₂.order.trans h₁.order
  now := h₂.now.trans h₁.now
  users := h₂.users.trans h₁.users
  assets := h₂.assets.trans h₁.assets
  markets := h₂.markets.trans h₁.markets
  commands := h₂.commands.trans h₁.commands

theorem rollback {s s' : Store} (h : Framed s s') : Framed s (Stm.rollback s s') :=
  ⟨h.order, h.now, rfl, rfl, rfl, rfl⟩

end Store.Framed

namespace Stm

open Tx

variable {α β : Type}

/-- Every run of `x`, failed or not, leaves the frame as it was. -/
abbrev Frames (x : Stm α) : Prop := Keeps Store.Framed x

theorem Frames.pure (a : α) : Frames (Pure.pure a : Stm α) := Keeps.pure Store.Framed.refl a

theorem Frames.fail (e : Failure) : Frames (Tx.fail e : Stm α) := Keeps.fail Store.Framed.refl e

theorem Frames.bind {x : Stm α} {f : α → Stm β} (hx : Frames x) (hf : ∀ a, Frames (f a)) :
    Frames (x >>= f) :=
  Keeps.bind (fun h₁ h₂ => h₁.trans h₂) hx hf

theorem frames_get : Frames (Tx.get : Stm Store) := Store.Framed.refl

theorem frames_stmt : Frames stmt := by
  intro s
  unfold stmt
  split <;> exact ⟨rfl, rfl, rfl, rfl, rfl, rfl⟩

theorem frames_query (f : Db → α) : Frames (query f) :=
  frames_stmt.bind fun _ => frames_get.bind fun _ => .pure _

theorem frames_randomUUID : Frames randomUUID := fun _ => ⟨rfl, rfl, rfl, rfl, rfl, rfl⟩

theorem frames_dateNow : Frames dateNow := Store.Framed.refl

/-- A write frames the store when what it writes does. -/
theorem frames_write {f : Db → Except Failure Db}
    (hf : ∀ db db', f db = .ok db' → db'.users = db.users ∧ db'.assets = db.assets ∧
      db'.markets = db.markets ∧ db'.outbox = db.outbox) : Frames (write f) := by
  refine frames_stmt.bind fun _ s => ?_
  cases h : f s.db with
  | error e =>
    simp only [Tx.get_bind_apply, h, Tx.ofExcept_error_bind_apply]
    exact .refl s
  | ok db =>
    simp only [Tx.get_bind_apply, h, Tx.ofExcept_ok_bind_apply, Tx.modify_apply]
    obtain ⟨hu, ha, hm, ho⟩ := hf _ _ h
    exact ⟨rfl, rfl, hu, ha, hm, by simp only [Db.commands, ho]⟩

theorem frames_walletUpdate (u a : String) (b l : ℚ) : Frames (walletUpdate u a b l) := by
  refine frames_write fun db db' h => ?_
  obtain ⟨ws, rfl, -⟩ := Db.walletUpdate_posted h
  exact ⟨rfl, rfl, rfl, rfl⟩

theorem frames_walletUpsert (u a : String) (amt : ℚ) : Frames (walletUpsert u a amt) := by
  refine frames_write fun db db' h => ?_
  obtain ⟨ws, rfl, -⟩ := Db.walletUpsert_posted h
  exact ⟨rfl, rfl, rfl, rfl⟩

theorem frames_orderUpdate (id : ℕ) (data : Order → Order) : Frames (orderUpdate id data) := by
  refine (frames_write fun db db' h => ?_).bind fun _ => frames_get.bind fun s => ?_
  · unfold Db.orderUpdate at h
    split at h
    · cases h
    · obtain rfl := Except.ok.inj h
      exact ⟨rfl, rfl, rfl, rfl⟩
  · cases s.db.order? id
    · exact .fail _
    · exact .pure _

theorem frames_orderFind (id : ℕ) : Frames (orderFind id) := frames_query _

theorem frames_orderFindOrThrow (id : ℕ) : Frames (orderFindOrThrow id) :=
  (frames_orderFind id).bind fun o? => by
    cases o?
    · exact .fail _
    · exact .pure _

theorem frames_tradeCreate (data : ℕ → ℕ → Trade) : Frames (tradeCreate data) := by
  refine frames_stmt.bind fun _ s => ?_
  simp only [Tx.get_bind_apply, Tx.modify_bind_apply]
  split <;> exact ⟨rfl, rfl, rfl, rfl, rfl, rfl⟩

end Stm

/-! ## What publishing never changes -/

/-- Besides the frame, the orders, trades and wallets are as before: at most outbox rows were
added. -/
structure Store.Emitted (s s' : Store) : Prop extends Store.Framed s s' where
  orders : s'.db.orders = s.db.orders
  trades : s'.db.trades = s.db.trades
  wallets : s'.db.wallets = s.db.wallets

namespace Store.Emitted

theorem refl (s : Store) : Emitted s s := ⟨.refl s, rfl, rfl, rfl⟩

theorem trans {s₁ s₂ s₃ : Store} (h₁ : Emitted s₁ s₂) (h₂ : Emitted s₂ s₃) : Emitted s₁ s₃ :=
  ⟨h₁.toFramed.trans h₂.toFramed, h₂.orders.trans h₁.orders, h₂.trades.trans h₁.trades,
    h₂.wallets.trans h₁.wallets⟩

end Store.Emitted

namespace Stm

open Tx

variable {α β : Type}

/-- Every run of `x`, failed or not, at most adds outbox rows. -/
abbrev Emits (x : Stm α) : Prop := Keeps Store.Emitted x

theorem Emits.pure (a : α) : Emits (Pure.pure a : Stm α) := Keeps.pure Store.Emitted.refl a

theorem Emits.bind {x : Stm α} {f : α → Stm β} (hx : Emits x) (hf : ∀ a, Emits (f a)) :
    Emits (x >>= f) :=
  Keeps.bind (fun h₁ h₂ => h₁.trans h₂) hx hf

theorem emits_stmt : Emits stmt := by
  intro s
  refine ⟨frames_stmt s, ?_, ?_, ?_⟩ <;> unfold stmt <;> split <;> rfl

theorem Emits.fail (e : Failure) : Emits (Tx.fail e : Stm α) := Keeps.fail Store.Emitted.refl e

theorem emits_get : Emits (Tx.get : Stm Store) := Store.Emitted.refl

theorem emits_query (f : Db → α) : Emits (query f) :=
  emits_stmt.bind fun _ => emits_get.bind fun _ => .pure _

theorem emits_orderFindOrThrow (id : ℕ) : Emits (orderFindOrThrow id) :=
  (emits_query _).bind fun o? => by
    cases o?
    · exact .fail _
    · exact .pure _

theorem emits_randomUUID : Emits randomUUID := fun s => ⟨frames_randomUUID s, rfl, rfl, rfl⟩

theorem emits_dateNow : Emits dateNow := Store.Emitted.refl

theorem emits_publish {topic : Topic} (h : topic ≠ .ORDER_COMMANDS) (k : String) (p : Payload) :
    Emits (publish topic k p) := by
  refine emits_stmt.bind fun _ s => ⟨⟨rfl, rfl, rfl, rfl, rfl, ?_⟩, rfl, rfl, rfl⟩
  cases topic <;> simp_all [Db.commands]

end Stm

end Orbit
