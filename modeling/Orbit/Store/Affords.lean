import Orbit.Foundations.History
import Orbit.Store.Specs

/-!
# Postings that the accounts can bear

A wallet statement is refused when it would make an amount negative, or when it is to create a
wallet for a user or an asset that has no row. `Affords db ps` says that the accounts of `db` can
bear the postings `ps`, made one after the other. When no statement fails from outside, that is
exactly what a sequence of wallet statements asks of the tables. Postings that take nothing but what
is locked need no more than that there is that much in all (`affords_of_releases`).

* `Posts x s ps`: from `s` the computation `x` makes the postings `ps`, and it returns exactly when
  the accounts can bear them. `Posts.bind` puts computations together.
* The statements of settlement: `posts_walletUpdate`, `posts_walletUpsert`, and with no postings
  `posts_orderUpdate`, `posts_orderFindOrThrow`, `posts_tradeCreate`.
-/

namespace Orbit

/-- No statement is going to fail from outside. -/
def Store.Calm (s : Store) : Prop := s.faults = none

namespace Db

/-- There is a wallet, or one can be created. -/
def Credits (db : Db) (u a : String) : Prop :=
  (db.wallet? u a).isSome ∨ (db.user? u).isSome ∧ (Table.find? a db.assets).isSome

instance (db : Db) (u a : String) : Decidable (db.Credits u a) :=
    inferInstanceAs (Decidable (_ ∨ _))

/-- The same wallets are there or can be created. -/
def SameAccounts (db db' : Db) : Prop := ∀ u a, db'.Credits u a ↔ db.Credits u a

theorem SameAccounts.trans {db₁ db₂ db₃ : Db} (h₁ : db₁.SameAccounts db₂)
    (h₂ : db₂.SameAccounts db₃) :
    db₁.SameAccounts db₃ := fun u a => (h₂ u a).trans (h₁ u a)

/-- Writes to the other tables leave the accounts alone. -/
theorem sameAccounts_of_eq {db db' : Db} (hw : db'.wallets = db.wallets) (hu : db'.users = db.users)
    (ha : db'.assets = db.assets) : db.SameAccounts db' := by
  intro u a
  unfold Credits wallet? user?
  rw [hw, hu, ha]

end Db

/-- The posting `p` can be made, after the postings `before`: neither amount of its wallet becomes
negative, and the wallet is there or can be created. -/
def Db.Bears (db : Db) (before : List Posting) (p : Posting) : Prop :=
  0 ≤ db.balance p.userId p.asset + Posting.balanceSum p.userId p.asset before + p.balance ∧
  0 ≤ db.locked p.userId p.asset + Posting.lockedSum p.userId p.asset before + p.locked ∧
  db.Credits p.userId p.asset

instance (db : Db) (before : List Posting) (p : Posting) : Decidable (db.Bears before p) :=
  inferInstanceAs (Decidable (_ ∧ _ ∧ _))

/-- **The accounts can bear the postings**, made one after the other. -/
def Affords (db : Db) (ps : List Posting) : Prop := Justified db.Bears ps

instance (db : Db) (ps : List Posting) : Decidable (Affords db ps) :=
  inferInstanceAs (Decidable (Justified _ _))

theorem affords_nil (db : Db) : Affords db [] := justified_nil

theorem affords_single {db : Db} {p : Posting} : Affords db [p] ↔ db.Bears [] p := by
  unfold Affords
  rw [justified_cons]
  simp

/-- What is left to be made, once the first postings are made. -/
theorem affords_append {db db₁ : Db} {ps qs : List Posting} (hp : Posted db db₁ ps)
    (ha : db.SameAccounts db₁) : Affords db (ps ++ qs) ↔ Affords db ps ∧ Affords db₁ qs := by
  have hbears : (fun before p => db.Bears (ps ++ before) p) = db₁.Bears := by
    funext before p
    unfold Db.Bears
    rw [hp.balance, hp.locked, Posting.balanceSum_append, Posting.lockedSum_append,
      propext (ha p.userId p.asset), ← add_assoc, ← add_assoc]
  unfold Affords
  rw [justified_append, hbears]

/-! ## Postings that only release -/

/-- The posting takes nothing but what is locked. -/
def Posting.Releases (p : Posting) : Prop := 0 ≤ p.balance ∧ p.locked ≤ 0

namespace Posting

variable {ps : List Posting}

theorem balanceSum_nonneg (h : ∀ p ∈ ps, p.Releases) (u a : String) : 0 ≤ balanceSum u a ps := by
  refine List.sum_nonneg fun x hx => ?_
  obtain ⟨p, hp, rfl⟩ := List.mem_map.mp hx
  split
  · exact (h p hp).1
  · exact le_rfl

theorem lockedSum_nonpos (h : ∀ p ∈ ps, p.Releases) (u a : String) : lockedSum u a ps ≤ 0 := by
  induction ps with
  | nil => exact le_rfl
  | cons p ps ih =>
    rw [lockedSum_cons]
    refine add_nonpos ?_ (ih fun x hx => h x (by simp [hx]))
    split
    · exact (h p (by simp)).2
    · exact le_rfl

end Posting

theorem Db.Solvent.balance_nonneg {db : Db} (h : db.Solvent) (u a : String) :
    0 ≤ db.balance u a := by
  unfold Db.balance
  cases hw : db.wallet? u a with
  | none => exact le_rfl
  | some w => exact (h w (Table.mem_of_find? hw)).1

/-- **Postings that only release** can be borne when what they take in all is locked, in accounts
that are there or can be opened. -/
theorem affords_of_releases {db : Db} {ps : List Posting} (hs : db.Solvent)
    (hps : ∀ p ∈ ps, p.Releases) (hc : ∀ p ∈ ps, db.Credits p.userId p.asset)
    (hl : ∀ u a, 0 ≤ db.locked u a + Posting.lockedSum u a ps) : Affords db ps := by
  rintro before p after rfl
  have hp := hps p (by simp)
  have hbefore : 0 ≤ Posting.balanceSum p.userId p.asset before :=
    Posting.balanceSum_nonneg (fun x hx => hps x (by simp [hx])) _ _
  have hafter : Posting.lockedSum p.userId p.asset after ≤ 0 :=
    Posting.lockedSum_nonpos (fun x hx => hps x (by simp [hx])) _ _
  have hall := hl p.userId p.asset
  rw [Posting.lockedSum_append, Posting.lockedSum_cons, if_pos ⟨rfl, rfl⟩] at hall
  refine ⟨add_nonneg (add_nonneg (hs.balance_nonneg _ _) hbefore) hp.1,
    hall.trans ?_, hc p (by simp)⟩
  rw [← add_assoc, ← add_assoc]
  exact add_le_of_nonpos_right hafter

namespace Db

variable {db db' : Db} {u a : String} {b l : ℚ}

theorem balance_of_wallet? {w : Wallet} (h : db.wallet? u a = some w) :
    db.balance u a = w.balance := by
  rw [balance, h, Option.map_some, Option.getD_some]

theorem locked_of_wallet? {w : Wallet} (h : db.wallet? u a = some w) :
    db.locked u a = w.locked := by
  rw [locked, h, Option.map_some, Option.getD_some]

/-- A wallet that is there bears a posting when its amounts do. -/
theorem bears_iff {w : Wallet} (h : db.wallet? u a = some w) :
    db.Bears [] ⟨u, a, b, l⟩ ↔ (w.increment b l).NonNegative := by
  have hcredits : db.Credits u a := Or.inl (by rw [h]; rfl)
  simp only [Bears, balance_of_wallet? h, locked_of_wallet? h, Posting.balanceSum_nil,
    Posting.lockedSum_nil, add_zero, hcredits, and_true]
  rfl

/-- A statement that takes something away is carried out exactly when the wallet can bear it. -/
theorem walletUpdate_isOk_iff (hneg : b < 0 ∨ l < 0) :
    (∃ db', db.walletUpdate u a b l = .ok db') ↔ db.Bears [] ⟨u, a, b, l⟩ := by
  cases hw : db.wallet? u a with
  | none =>
    refine ⟨fun ⟨db', h⟩ => ?_, fun ⟨hb, hl, _⟩ => ?_⟩
    · obtain ⟨w, hw', -⟩ := walletUpdate_eq_ok.mp h
      rw [hw] at hw'
      cases hw'
    · simp only [balance, locked, hw, Option.map_none, Option.getD_none, Posting.balanceSum_nil,
        Posting.lockedSum_nil, zero_add] at hb hl
      rcases hneg with hneg | hneg
      · exact absurd hb (not_le.mpr hneg)
      · exact absurd hl (not_le.mpr hneg)
  | some w =>
    rw [bears_iff hw]
    refine ⟨fun ⟨db', h⟩ => ?_, fun hn => ⟨_, walletUpdate_eq_ok.mpr ⟨w, hw, hn, rfl⟩⟩⟩
    obtain ⟨w', hw', hn, -⟩ := walletUpdate_eq_ok.mp h
    obtain rfl : w' = w := Option.some.inj (hw'.symm.trans hw)
    exact hn

/-- A credit is carried out exactly when the wallet can bear it, if need be a new one. -/
theorem walletUpsert_isOk_iff :
    (∃ db', db.walletUpsert u a b = .ok db') ↔ db.Bears [] ⟨u, a, b, 0⟩ := by
  cases hw : db.wallet? u a with
  | some w =>
    rw [bears_iff hw]
    simp only [walletUpsert, hw]
    refine ⟨fun ⟨db', h⟩ => ?_, fun hn => ⟨_, walletUpdate_eq_ok.mpr ⟨w, hw, hn, rfl⟩⟩⟩
    obtain ⟨w', hw', hn, -⟩ := walletUpdate_eq_ok.mp h
    obtain rfl : w' = w := Option.some.inj (hw'.symm.trans hw)
    exact hn
  | none =>
    simp only [walletUpsert, hw, Bears, Credits, balance, locked, Option.map_none, Option.getD_none,
      Posting.balanceSum_nil, Posting.lockedSum_nil, zero_add,
      Option.isSome_none, Bool.false_eq_true,
      false_or, le_refl, true_and]
    by_cases hk : (db.user? u).isSome ∧ (Table.find? a db.assets).isSome
    · by_cases hb : 0 ≤ b <;> simp [hk, hb]
    · simp [hk]

theorem walletUpdate_sameAccounts (h : db.walletUpdate u a b l = .ok db') :
    db.SameAccounts db' := by
  obtain ⟨w, hw, -, rfl⟩ := walletUpdate_eq_ok.mp h
  intro u' a'
  unfold Credits
  rw [wallet?_modify]
  split
  · rw [Option.isSome_map]
    rfl
  · rfl

theorem walletUpsert_sameAccounts (h : db.walletUpsert u a b = .ok db') : db.SameAccounts db' := by
  unfold walletUpsert at h
  cases hw : db.wallet? u a with
  | some w =>
    rw [hw] at h
    exact walletUpdate_sameAccounts h
  | none =>
    rw [hw] at h
    dsimp only at h
    split at h
    · rename_i hk
      split at h
      · obtain rfl := Except.ok.inj h
        intro u' a'
        -- the new wallet could be created before
        by_cases he : (u, a) = (u', a')
        · obtain ⟨rfl, rfl⟩ := Prod.mk.inj he
          exact ⟨fun _ => Or.inr hk, fun _ => Or.inr hk⟩
        · unfold Credits wallet?
          rw [Table.find?_append, Table.find?_cons,
            if_neg (show ¬Table.key (⟨u, a, b, 0⟩ : Wallet) = (u', a') from he), Table.find?_nil,
            Option.or_none]
          rfl
      · cases h
    · cases h

end Db

/-! ## Computations that make postings -/

/-- The postings were made and could be borne, the orders are those that were there, and no
statement is going to fail. -/
structure Store.Made (s s' : Store) (ps : List Posting) : Prop where
  affords : Affords s.db ps
  posted : Posted s.db s'.db ps
  accounts : s.db.SameAccounts s'.db
  keys : s'.db.orders.map Table.key = s.db.orders.map Table.key
  calm : s'.Calm

namespace Store.Made

variable {s s₁ s' : Store} {ps qs : List Posting}

theorem trans (h₁ : s.Made s₁ ps) (h₂ : s₁.Made s' qs) : s.Made s' (ps ++ qs) where
  affords := (affords_append h₁.posted h₁.accounts).mpr ⟨h₁.affords, h₂.affords⟩
  posted := h₁.posted.trans h₂.posted
  accounts := h₁.accounts.trans h₂.accounts
  keys := h₂.keys.trans h₁.keys
  calm := h₂.calm

/-- Nothing was posted. -/
theorem of_eq (hw : s'.db.wallets = s.db.wallets) (hu : s'.db.users = s.db.users)
    (ha : s'.db.assets = s.db.assets) (hk : s'.db.orders.map Table.key = s.db.orders.map Table.key)
    (hc : s'.Calm) : s.Made s' [] :=
  ⟨affords_nil _, Posted.refl_of_wallets hw, Db.sameAccounts_of_eq hw hu ha, hk, hc⟩

end Store.Made

/-- From `s` the computation makes the postings, and it returns exactly when the accounts can bear
them. The state of the computation holds a store. -/
structure Posts {σ α : Type} (store : σ → Store) (x : Tx Failure σ α) (s : σ) (ps : List Posting) :
    Prop where
  returns : Affords (store s).db ps → ∃ a s', x s = (.ok a, s')
  made : ∀ {a s'}, x s = (.ok a, s') → (store s).Made (store s') ps

namespace Posts

variable {σ α β : Type} {store : σ → Store} {s : σ} {ps qs : List Posting}

theorem of_eq {x : Tx Failure σ α} {a : α} {s' : σ} (h : x s = (.ok a, s'))
    (hm : (store s).Made (store s') []) : Posts store x s [] where
  returns _ := ⟨a, s', h⟩
  made h' := by
    rw [h] at h'
    obtain ⟨-, rfl⟩ := Prod.mk.inj h'
    exact hm

theorem pure (hc : (store s).Calm) (a : α) : Posts store (Pure.pure a) s [] :=
  .of_eq rfl (.of_eq rfl rfl rfl rfl hc)

theorem bind {x : Tx Failure σ α} {f : α → Tx Failure σ β} (hx : Posts store x s ps)
    (hf : ∀ a s', x s = (.ok a, s') → (store s).Made (store s') ps → Posts store (f a) s' qs) :
    Posts store (x >>= f) s (ps ++ qs) where
  returns ha := by
    obtain ⟨a, s₁, h₁⟩ := hx.returns (Justified.left ha)
    have hm := hx.made h₁
    obtain ⟨b, s', h₂⟩ := (hf a s₁ h₁ hm).returns ((affords_append hm.posted hm.accounts).mp ha).2
    exact ⟨b, s', Tx.bind_eq_ok.mpr ⟨a, s₁, h₁, h₂⟩⟩
  made h := by
    obtain ⟨a, s₁, h₁, h₂⟩ := Tx.bind_eq_ok.mp h
    have hm := hx.made h₁
    exact hm.trans ((hf a s₁ h₁ hm).made h₂)

/-- What follows posts nothing. -/
theorem bind_nil {x : Tx Failure σ α} {f : α → Tx Failure σ β} (hx : Posts store x s ps)
    (hf : ∀ a s', x s = (.ok a, s') → (store s).Made (store s') ps → Posts store (f a) s' []) :
    Posts store (x >>= f) s ps := by
  have := hx.bind hf
  rwa [List.append_nil] at this

/-- A computation on the store. -/
theorem zoom {put : σ → Store → σ} (hput : ∀ s t, store (put s t) = t) {x : Stm α}
    (hx : Posts id x (store s) ps) : Posts store (Tx.zoom store put x) s ps where
  returns ha := by
    obtain ⟨a, t, h⟩ := hx.returns ha
    exact ⟨a, put s t, Tx.zoom_eq_ok.mpr ⟨t, h, rfl⟩⟩
  made h := by
    obtain ⟨t, ht, rfl⟩ := Tx.zoom_eq_ok.mp h
    rw [hput]
    exact hx.made ht

/-- **A computation that makes postings returns exactly when they can be borne.** -/
theorem returns_iff {x : Tx Failure σ α} (hx : Posts store x s ps) :
    (∃ a s', x s = (.ok a, s')) ↔ Affords (store s).db ps :=
  ⟨fun ⟨_, _, h⟩ => (hx.made h).affords, hx.returns⟩

end Posts

namespace Stm

variable {s s' : Store}

theorem stmt_calm (h : s.Calm) : stmt s = (.ok (), s) := by
  simp only [stmt, show s.faults = none from h]

theorem query_calm {α : Type} (f : Db → α) (h : s.Calm) : query f s = (.ok (f s.db), s) := by
  unfold query
  rw [Tx.bind_apply_ok (stmt_calm h)]
  rfl

theorem write_calm {f : Db → Except Failure Db} {db : Db} (h : s.Calm) (hf : f s.db = .ok db) :
    write f s = (.ok (), { s with db }) := by
  unfold write
  rw [Tx.bind_apply_ok (stmt_calm h)]
  simp [hf]

/-! ## Statements -/

theorem posts_walletUpdate (h : s.Calm) (u a : String) {b l : ℚ} (hneg : b < 0 ∨ l < 0) :
    Posts id (walletUpdate u a b l) s [⟨u, a, b, l⟩] where
  returns ha := by
    obtain ⟨db, hdb⟩ := (Db.walletUpdate_isOk_iff hneg).mpr (affords_single.mp ha)
    exact ⟨(), _, write_calm h hdb⟩
  made hx := by
    have hmoved := walletUpdate_eq_ok hx
    obtain ⟨db, hdb⟩ : ∃ db, s.db.walletUpdate u a b l = .ok db := by
      obtain ⟨db, fl, hdb, -⟩ := write_eq_ok hx
      exact ⟨db, hdb⟩
    obtain ⟨-, rfl⟩ := Prod.mk.inj ((write_calm h hdb).symm.trans hx)
    exact ⟨affords_single.mpr ((Db.walletUpdate_isOk_iff hneg).mp ⟨db, hdb⟩), hmoved.posted,
      Db.walletUpdate_sameAccounts hdb, congrArg (List.map Table.key) hmoved.orders, h⟩

theorem posts_walletUpsert (h : s.Calm) (u a : String) (b : ℚ) :
    Posts id (walletUpsert u a b) s [⟨u, a, b, 0⟩] where
  returns ha := by
    obtain ⟨db, hdb⟩ := Db.walletUpsert_isOk_iff.mpr (affords_single.mp ha)
    exact ⟨(), _, write_calm h hdb⟩
  made hx := by
    have hmoved := walletUpsert_eq_ok hx
    obtain ⟨db, hdb⟩ : ∃ db, s.db.walletUpsert u a b = .ok db := by
      obtain ⟨db, fl, hdb, -⟩ := write_eq_ok hx
      exact ⟨db, hdb⟩
    obtain ⟨-, rfl⟩ := Prod.mk.inj ((write_calm h hdb).symm.trans hx)
    exact ⟨affords_single.mpr (Db.walletUpsert_isOk_iff.mp ⟨db, hdb⟩), hmoved.posted,
      Db.walletUpsert_sameAccounts hdb, congrArg (List.map Table.key) hmoved.orders, h⟩

theorem posts_orderUpdate {k : ℕ} {data : Order → Order} (h : s.Calm)
    (hdata : ∀ o, (data o).id = o.id) (ho : (s.db.order? k).isSome) :
    Posts id (orderUpdate k data) s [] := by
  obtain ⟨o, ho⟩ := Option.isSome_iff_exists.mp ho
  have hdb : s.db.orderUpdate k data =
      .ok { s.db with orders := Table.modify k data s.db.orders } := by
    simp only [Db.orderUpdate, ho]
  have hfind : ({ s.db with orders := Table.modify k data s.db.orders } : Db).order? k =
      some (data o) := by
    unfold Db.order? at ho ⊢
    rw [Table.find?_modify_self hdata, ho, Option.map_some]
  have hrow : orderUpdate k data s = (.ok (data o), { s with db := { s.db with
      orders := Table.modify k data s.db.orders } }) := by
    refine (Tx.bind_apply_ok (write_calm h hdb) _).trans ?_
    simp only [Tx.get_bind_apply, hfind, Tx.pure_apply]
  exact .of_eq hrow (.of_eq rfl rfl rfl (Table.map_key_modify hdata _) h)

theorem orderFindOrThrow_calm {id : ℕ} {o : Order} (h : s.Calm) (ho : s.db.order? id = some o) :
    orderFindOrThrow id s = (.ok o, s) := by
  unfold orderFindOrThrow orderFind
  rw [Tx.bind_apply_ok (query_calm _ h)]
  simp [ho]

theorem posts_orderFindOrThrow {k : ℕ} (h : s.Calm) (ho : (s.db.order? k).isSome) :
    Posts id (orderFindOrThrow k) s [] := by
  obtain ⟨o, ho⟩ := Option.isSome_iff_exists.mp ho
  exact .of_eq (orderFindOrThrow_calm h ho) (.of_eq rfl rfl rfl rfl h)

theorem posts_tradeCreate {data : ℕ → ℕ → Trade} (h : s.Calm)
    (hfresh : ∀ t ∈ s.db.trades, t.matchId ≠ (data (s.seqs.trade + 1) s.now).matchId) :
    Posts id (tradeCreate data) s [] := by
  have hnone : ¬((data (s.seqs.trade + 1) s.now).matchId.isSome ∧
      ∃ t ∈ s.db.trades, t.matchId = (data (s.seqs.trade + 1) s.now).matchId) :=
    fun hex => hex.2.elim fun t ht => hfresh t ht.1 ht.2
  have hrow : tradeCreate data s = (.ok (data (s.seqs.trade + 1) s.now),
      { s with
        db := { s.db with trades := s.db.trades ++ [data (s.seqs.trade + 1) s.now] }
        seqs := { s.seqs with trade := s.seqs.trade + 1 } }) := by
    refine (Tx.bind_apply_ok (stmt_calm h) _).trans ?_
    simp only [Tx.modify_bind_apply, Tx.get_bind_apply]
    rw [if_neg hnone]
    rfl
  exact .of_eq hrow (.of_eq rfl rfl rfl rfl h)

theorem total_publish (topic : Topic) (k : String) (p : Payload) :
    Tx.Total Store.Calm (publish topic k p) := by
  intro s h
  exact .bind (stmt_calm h) ⟨(), _, rfl, h⟩

theorem total_randomUUID : Tx.Total Store.Calm randomUUID := fun _ h => ⟨_, _, rfl, h⟩

theorem total_dateNow : Tx.Total Store.Calm dateNow := fun _ h => ⟨_, _, rfl, h⟩

end Stm

end Orbit
