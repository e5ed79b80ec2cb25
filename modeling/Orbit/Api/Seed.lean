import Orbit.Matcher.Growth

/-!
# The seed of the database

`prisma/seed.ts` fills the database with assets, markets and two users with their wallets, each by
an `upsert` that leaves what is there alone. It may be interrupted, and run again.

* `Platform.empty`: the exchange over an empty database.
* `seed_fresh`: wherever it is interrupted, the seed leaves a database that has not traded with its
  tables in order. A market is only added once both its assets are there.
* `seeded_founded`: so a platform is founded that was seeded, however often.
-/

namespace Orbit

open Table

namespace Registry

/-! ## The script -/

def seedAssets : List AssetInput :=
  [⟨"KRW", "Korean Won", 0⟩, ⟨"BTC", "Bitcoin", 8⟩, ⟨"ETH", "Ethereum", 8⟩, ⟨"USDT", "Tether", 6⟩]

def seedMarkets : List Market :=
  [{ symbol := "BTC-KRW", baseAsset := "BTC", quoteAsset := "KRW", tickSize := 1000
     stepSize := 1 / 100000000, minNotional := 5000, takerFeeBp := 20, makerFeeBp := 10
     enabled := true },
    { symbol := "ETH-KRW", baseAsset := "ETH", quoteAsset := "KRW", tickSize := 100
      stepSize := 1 / 100000000, minNotional := 5000, takerFeeBp := 20, makerFeeBp := 10
      enabled := true },
    { symbol := "BTC-USDT", baseAsset := "BTC", quoteAsset := "USDT", tickSize := 1 / 100
      stepSize := 1 / 100000000, minNotional := 1, takerFeeBp := 20, makerFeeBp := 10
      enabled := true }]

/-- The wallets of a demo user. -/
def demoSeed : List (String × ℚ) := [("KRW", 100000000), ("BTC", 2), ("ETH", 10), ("USDT", 50000)]

def demoUsers : List (String × List (String × ℚ)) :=
  [("alice@orbit.dev", demoSeed), ("bob@orbit.dev", demoSeed)]

/-- `asset.upsert`, with nothing to update. -/
def upsertAsset (a : AssetInput) : Call Unit :=
  write fun r => .ok <|
    if (find? a.symbol r.store.db.assets).isSome then r
    else { r with
      store := { r.store with
        db := { r.store.db with assets := r.store.db.assets ++ [⟨a.symbol⟩] } }
      details := r.details ++ [a] }

/-- `market.upsert`, with nothing to update. -/
def upsertMarket (m : Market) : Call Unit :=
  write fun r => .ok <|
    if (r.store.db.market? m.symbol).isSome then r
    else { r with
      store := { r.store with db := { r.store.db with markets := r.store.db.markets ++ [m] } } }

/-- The row of a new user without wallets. -/
def insertUser (a : Account) (r : Registry) : Except Failure Registry :=
  if (find? a.email r.accounts).isSome then .ok r
  else if (r.store.db.user? a.id).isSome then .error .uniqueViolation
  else .ok { r with
    store := { r.store with db := { r.store.db with users := r.store.db.users ++ [⟨a.id, false⟩] } }
    accounts := r.accounts ++ [a] }

/-- `user.upsert`, with nothing to update. It returns the row, new or not. -/
def upsertUser (a : Account) : Call Account := do
  write (insertUser a)
  let r ← Tx.get
  pure ((find? a.email r.accounts).getD a)

/-- The row of a new wallet. -/
def insertWallet (w : Wallet) (r : Registry) : Except Failure Registry :=
  if (r.store.db.wallet? w.userId w.asset).isSome then .ok r
  else if r.store.db.user? w.userId = none ∨ find? w.asset r.store.db.assets = none then
    .error .foreignKeyViolation
  else .ok { r with
    store := { r.store with db := { r.store.db with wallets := r.store.db.wallets ++ [w] } } }

/-- `wallet.upsert`, with nothing to update. -/
def upsertWallet (userId : String) (x : String × ℚ) : Call Unit :=
  write (insertWallet ⟨userId, x.1, x.2, 0⟩)

/-- A demo user and its wallets. `hash` and `id` say what the password is hashed to and which id the
user gets. -/
def seedUser (hash id : String → String) (u : String × List (String × ℚ)) : Call Unit := do
  let user ← upsertUser ⟨id u.1, u.1, hash u.1⟩
  u.2.forM (upsertWallet user.id)

/-- `main` of `prisma/seed.ts`. -/
def seed (hash id : String → String) : Call Unit := do
  seedAssets.forM upsertAsset
  seedMarkets.forM upsertMarket
  demoUsers.forM (seedUser hash id)

/-! ## What it leaves -/

/-- A database that has not traded yet, with its tables in order. -/
structure Fresh (r : Registry) : Prop where
  registered : r.Registered
  orders : r.store.db.orders = []
  trades : r.store.db.trades = []
  outbox : r.store.db.outbox = []
  wallets : ∀ w ∈ r.store.db.wallets, 0 ≤ w.balance ∧ w.locked = 0
  fees : ∀ market ∈ r.store.db.markets, market.FeesInRange

/-- The first assets of the seed are there. -/
def HasSeeded (done : List AssetInput) (r : Registry) : Prop :=
  ∀ a ∈ done, r.store.db.HasAsset a.symbol

variable {r r' : Registry}

theorem Fresh.same (h : r.Fresh) (hsame : Same r r') : r'.Fresh := by
  have hdb := hsame.db
  exact ⟨(Effect.idle hsame).registered h.registered, by rw [hdb, h.orders],
    by rw [hdb, h.trades], by rw [hdb, h.outbox], by rw [hdb]; exact h.wallets,
    by rw [hdb]; exact h.fees⟩

theorem HasSeeded.same {done : List AssetInput} (h : HasSeeded done r) (hsame : Same r r') :
    HasSeeded done r' := fun a ha => by
  rw [Db.HasAsset, hsame.db]
  exact h a ha

/-- A statement, by what it does to the rows. -/
theorem leads_write {P Q F : Registry → Prop} {f : Registry → Except Failure Registry}
    (hsame : ∀ {r r'}, P r → Same r r' → P r') (hF : ∀ {r}, P r → F r)
    (hf : ∀ {r r'}, P r → f r = .ok r' → Q r') : Tx.Leads P (write f) (fun _ => Q) F := by
  refine Tx.Leads.of_cases fun r hr => ?_
  rcases write_cases f r with ⟨e, r₁, h, hs⟩ | ⟨r₁, r', hs, hok, h⟩
  · exact Or.inr ⟨e, r₁, h, hF (hsame hr hs)⟩
  · exact Or.inl ⟨(), r', h, hf (hsame hr hs) hok⟩

/-! ### Statements -/

theorem upsertAsset_leads (done : List AssetInput) (a : AssetInput) :
    Tx.Leads (fun r => r.Fresh ∧ HasSeeded done r) (upsertAsset a)
      (fun _ r => r.Fresh ∧ HasSeeded (done ++ [a]) r) Fresh := by
  refine leads_write (fun h hs => ⟨h.1.same hs, h.2.same hs⟩) And.left fun {r r'} h hok => ?_
  obtain ⟨hfresh, hseeded⟩ := h
  obtain rfl := Except.ok.inj hok
  split
  · rename_i hsome
    refine ⟨hfresh, fun x hx => ?_⟩
    rcases List.mem_append.mp hx with hx | hx
    · exact hseeded x hx
    · rw [List.mem_singleton.mp hx]
      exact hsome
  · rename_i hnone
    have heffect : Effect r { r with
        store := { r.store with db := { r.store.db with
          assets := r.store.db.assets ++ [⟨a.symbol⟩] } }
        details := r.details ++ [a] } [] :=
      .listed a (Option.not_isSome_iff_eq_none.mp hnone) rfl rfl rfl rfl
    refine ⟨⟨heffect.registered hfresh.registered, hfresh.orders, hfresh.trades, hfresh.outbox,
      hfresh.wallets, hfresh.fees⟩, fun x hx => ?_⟩
    rcases List.mem_append.mp hx with hx | hx
    · exact find?_isSome_append _ (hseeded x hx)
    · rw [List.mem_singleton.mp hx]
      exact find?_isSome_append_self r.store.db.assets ⟨a.symbol⟩

theorem upsertMarket_leads {m : Market} {assets : List AssetInput}
    (hassets : ∀ {r}, HasSeeded assets r →
      r.store.db.HasAsset m.baseAsset ∧ r.store.db.HasAsset m.quoteAsset)
    (hfees : m.FeesInRange) :
    Tx.Leads (fun r => r.Fresh ∧ HasSeeded assets r) (upsertMarket m)
      (fun _ r => r.Fresh ∧ HasSeeded assets r) Fresh := by
  refine leads_write (fun h hs => ⟨h.1.same hs, h.2.same hs⟩) And.left fun {r r'} h hok => ?_
  obtain ⟨hfresh, hseeded⟩ := h
  obtain rfl := Except.ok.inj hok
  split
  · exact ⟨hfresh, hseeded⟩
  · have hreg := hfresh.registered
    have hreferences : Db.Referential { r.store.db with markets := r.store.db.markets ++ [m] } :=
      hreg.references.grow (fun _ h => h) (fun _ h => h) (fun market hm => ?_) (fun _ => Or.inl) rfl
        rfl
    · refine ⟨⟨⟨hreferences, hreg.users, hreg.ids, hreg.emails, hreg.assets, hreg.symbols⟩,
        hfresh.orders, hfresh.trades, hfresh.outbox, hfresh.wallets, fun market hm => ?_⟩, hseeded⟩
      rcases List.mem_append.mp hm with hm | hm
      · exact hfresh.fees market hm
      · rw [List.mem_singleton.mp hm]
        exact hfees
    · rcases List.mem_append.mp hm with hm | hm
      · exact Or.inl hm
      · rw [List.mem_singleton.mp hm]
        exact Or.inr (hassets hseeded)

theorem upsertUser_leads (a : Account) :
    Tx.Leads Fresh (upsertUser a) (fun _ => Fresh) Fresh := by
  have hwrite : Tx.Leads Fresh (write (insertUser a)) (fun _ => Fresh) Fresh := by
    refine leads_write Fresh.same id fun {r r'} hfresh hok => ?_
    unfold insertUser at hok
    split at hok
    · exact Except.ok.inj hok ▸ hfresh
    split at hok
    · cases hok
    rename_i hemail huser
    obtain rfl := Except.ok.inj hok
    have hreg := hfresh.registered
    have hid : a.id ∉ r.accounts.map (·.id) := by
      rw [hreg.users]
      exact fun hmem => huser (find?_isSome.mpr hmem)
    have hreferences : Db.Referential
        { r.store.db with users := r.store.db.users ++ [⟨a.id, false⟩] } :=
      hreg.references.grow (fun _ hu => find?_isSome_append _ hu) (fun _ h => h) (fun _ => Or.inl)
        (fun _ => Or.inl) rfl rfl
    refine ⟨⟨hreferences, ?_, ?_, ?_, hreg.assets, hreg.symbols⟩, hfresh.orders, hfresh.trades,
      hfresh.outbox, hfresh.wallets, hfresh.fees⟩
    · rw [List.map_append, List.map_append, hreg.users]
      rfl
    · rw [List.map_append, List.map_singleton, ← List.concat_eq_append]
      exact hreg.ids.concat hid
    · exact nodup_map_key_append hreg.emails (Option.not_isSome_iff_eq_none.mp hemail)
  refine hwrite.bind fun _ => Tx.Leads.of_cases fun r hr => Or.inl ⟨_, r, rfl, hr⟩

theorem upsertWallet_leads {userId : String} {x : String × ℚ} (hx : 0 ≤ x.2) :
    Tx.Leads Fresh (upsertWallet userId x) (fun _ => Fresh) Fresh := by
  refine leads_write Fresh.same id fun {r r'} hfresh hok => ?_
  unfold insertWallet at hok
  split at hok
  · exact Except.ok.inj hok ▸ hfresh
  split at hok
  · cases hok
  rename_i hforeign
  obtain ⟨huser, hasset⟩ := not_or.mp hforeign
  obtain rfl := Except.ok.inj hok
  have hreg := hfresh.registered
  have hreferences : Db.Referential
      { r.store.db with wallets := r.store.db.wallets ++ [⟨userId, x.1, x.2, 0⟩] } :=
    hreg.references.grow (fun _ h => h) (fun _ h => h) (fun _ => Or.inl) (fun w hw => ?_) rfl rfl
  · refine ⟨⟨hreferences, hreg.users, hreg.ids, hreg.emails, hreg.assets, hreg.symbols⟩,
      hfresh.orders, hfresh.trades, hfresh.outbox, fun w hw => ?_, hfresh.fees⟩
    rcases List.mem_append.mp hw with hw | hw
    · exact hfresh.wallets w hw
    · rw [List.mem_singleton.mp hw]
      exact ⟨hx, rfl⟩
  · rcases List.mem_append.mp hw with hw | hw
    · exact Or.inl hw
    · rw [List.mem_singleton.mp hw]
      exact Or.inr ⟨Option.isSome_iff_ne_none.mpr huser, Option.isSome_iff_ne_none.mpr hasset⟩

/-! ### The script -/

theorem seedUser_leads (hash id : String → String) {u : String × List (String × ℚ)}
    (hu : ∀ x ∈ u.2, 0 ≤ x.2) : Tx.Leads Fresh (seedUser hash id u) (fun _ => Fresh) Fresh :=
  (upsertUser_leads _).bind fun _ => Tx.Leads.forM (I := fun _ => Fresh)
    (fun _ x hx => upsertWallet_leads (hu x hx)) []

theorem seedMarkets_assets : ∀ m ∈ seedMarkets, ∀ {r : Registry}, HasSeeded seedAssets r →
    r.store.db.HasAsset m.baseAsset ∧ r.store.db.HasAsset m.quoteAsset := by
  have hassets : ∀ m ∈ seedMarkets, m.baseAsset ∈ seedAssets.map (·.symbol) ∧
      m.quoteAsset ∈ seedAssets.map (·.symbol) := by decide +kernel
  intro m hm r hr
  have hin : ∀ x ∈ seedAssets.map (·.symbol), r.store.db.HasAsset x := by
    intro x hx
    obtain ⟨a, ha, rfl⟩ := List.mem_map.mp hx
    exact hr a ha
  exact (hassets m hm).imp (hin _) (hin _)

theorem seedMarkets_fees : ∀ m ∈ seedMarkets, m.FeesInRange := by
  have hfees : ∀ m ∈ seedMarkets, m.makerFeeBp = 10 ∧ m.takerFeeBp = 20 := by decide +kernel
  intro m hm
  obtain ⟨hmaker, htaker⟩ := hfees m hm
  exact ⟨⟨by omega, by omega⟩, ⟨by omega, by omega⟩⟩

/-- **Wherever it is interrupted**, the seed leaves the tables in order. -/
theorem seed_fresh (hash id : String → String) (h : r.Fresh) : (seed hash id r).2.Fresh := by
  have hassets : Tx.Leads (fun r => r.Fresh ∧ HasSeeded [] r) (seedAssets.forM upsertAsset)
      (fun _ r => r.Fresh ∧ HasSeeded seedAssets r) Fresh :=
    Tx.Leads.forM (I := fun done r => r.Fresh ∧ HasSeeded done r)
      (fun done a _ => upsertAsset_leads done a) []
  have hmarkets : Tx.Leads (fun r => r.Fresh ∧ HasSeeded seedAssets r)
      (seedMarkets.forM upsertMarket) (fun _ r => r.Fresh ∧ HasSeeded seedAssets r) Fresh :=
    Tx.Leads.forM (I := fun _ r => r.Fresh ∧ HasSeeded seedAssets r)
      (fun _ m hm => upsertMarket_leads (seedMarkets_assets m hm) (seedMarkets_fees m hm)) []
  have husers : Tx.Leads Fresh (demoUsers.forM (seedUser hash id)) (fun _ => Fresh) Fresh := by
    refine Tx.Leads.forM (I := fun _ => Fresh) (fun _ u hu => seedUser_leads hash id ?_) []
    have hnonneg : ∀ u ∈ demoUsers, ∀ x ∈ u.2, 0 ≤ x.2 := by decide +kernel
    exact hnonneg u hu
  have hseed : Tx.Leads (fun r => r.Fresh ∧ HasSeeded [] r) (seed hash id) (fun _ => Fresh) Fresh :=
    hassets.bind fun _ => hmarkets.bind fun _ => husers.weaken (fun _ h => h.1) (fun _ _ h => h)
      fun _ h => h
  exact hseed.state ⟨h, fun _ ha => by cases ha⟩

end Registry

/-! ## Founding a platform -/

variable {E : Engine}

namespace Platform

/-- An exchange over an empty database. -/
def empty : Platform E where
  matcher :=
    { store := { db := ⟨[], [], [], [], [], [], []⟩, seqs := ⟨0, 0, 0⟩, uuids := 0, now := 0
                 faults := none }
      books := fun _ => none, localSeq := 0, orderbookSeq := 0 }
  accounts := []
  details := []

/-- One run of the script, in which some statement may fail. -/
structure Seeding where
  hash : String → String
  id : String → String
  faults : Option ℕ

/-- The script run a number of times. -/
def seeded (p : Platform E) (seedings : List Seeding) : Platform E :=
  seedings.foldl (fun p x => p.call x.faults (Registry.seed x.hash x.id)) p

variable {p : Platform E}

/-- The seed does not touch the matcher. -/
theorem seeded_fresh (seedings : List Seeding) (hp : (p.registry none).Fresh)
    (hqueues : ∀ symbol, p.matcher.queues symbol = .empty)
    (hfaults : p.matcher.store.faults = none) :
    ((p.seeded seedings).registry none).Fresh ∧
      (∀ symbol, (p.seeded seedings).matcher.queues symbol = .empty) ∧
      (p.seeded seedings).matcher.store.faults = none := by
  induction seedings generalizing p with
  | nil => exact ⟨hp, hqueues, hfaults⟩
  | cons x seedings ih =>
    have hstart : (p.registry x.faults).Fresh :=
      hp.same ⟨rfl, rfl, rfl, rfl⟩
    have hfresh := Registry.seed_fresh x.hash x.id hstart
    exact ih (hfresh.same ⟨rfl, rfl, rfl, rfl⟩) hqueues rfl

/-- **From an empty database.** However often the seed is run, and wherever it is interrupted, the
platform that it leaves is founded, with the fees of all markets in range. The ids and hashes that
the users get are any, where the database refuses an id that is taken. -/
theorem seeded_founded (seedings : List Seeding) :
    ((empty : Platform E).seeded seedings).Founded ∧
      ∀ market ∈ ((empty : Platform E).seeded seedings).matcher.db.markets,
        market.FeesInRange := by
  have hempty : ((empty : Platform E).registry none).Fresh := by
    refine ⟨⟨⟨?_, ?_, ?_, ?_⟩, rfl, List.nodup_nil, List.nodup_nil, rfl, List.nodup_nil⟩, rfl, rfl,
      rfl, ?_, ?_⟩ <;> exact fun _ h => by cases h
  have hqueues : ∀ symbol, (empty : Platform E).matcher.queues symbol = .empty :=
    fun _ => E.resting_new
  obtain ⟨hfresh, hq, hfaults⟩ := seeded_fresh seedings hempty hqueues rfl
  exact ⟨⟨⟨hfresh.orders, hfresh.trades, hfresh.outbox, hfresh.wallets, hq, hfaults⟩,
    hfresh.registered⟩, hfresh.fees⟩

/-- A seed that is interrupted at its sixth statement, and one that finishes the work. -/
example : ((empty : Platform Engine.priceTime).seeded
    [⟨id, id, some 5⟩, ⟨id, id, none⟩]).matcher.db.markets = Registry.seedMarkets ∧
    ((empty : Platform Engine.priceTime).seeded
      [⟨id, id, some 5⟩]).matcher.db.markets.length = 1 := by
  decide +kernel

end Platform

end Orbit
