import Orbit.Store.Statements

/-!
# Accounts and assets

The calls that add to the tables the exchange trades on: `AuthService.signup`, with `login`, and
`create`, `update` and `remove` of `AdminAssetsService`. `Registry` is the database with those
columns of the users and assets that trading does not read.

A signup looks the email up, hashes the password, and creates the user with the wallets it starts
with in one transaction. The hashing takes its time, so that other calls may come between the two
statements; `userCreate` is the second.

* `Registry.Effect`: what such a call can do to the tables, `signup_effect` and its siblings for
  every call, whatever fails.
* `loginAccount_iff`: a login succeeds with the password of the account that has the email.
-/

namespace Orbit

open Table

/-- The columns of a user that trading does not read, with its id. -/
structure Account where
  id : String
  email : String
  passwordHash : String
  deriving DecidableEq, Repr

instance : Keyed Account String where
  key a := a.email

/-- An asset: `AssetInput`, and the row of the table. -/
structure AssetInput where
  symbol : String
  name : String
  decimals : ℤ
  deriving DecidableEq, Repr

instance : Keyed AssetInput String where
  key a := a.symbol

/-- The fields of an asset to change. -/
structure AssetUpdate where
  name : Option String
  decimals : Option ℤ
  deriving DecidableEq, Repr

def AssetUpdate.apply (input : AssetUpdate) (a : AssetInput) : AssetInput :=
  { a with name := input.name.getD a.name, decimals := input.decimals.getD a.decimals }

structure Registry where
  store : Store
  accounts : List Account
  details : List AssetInput
  deriving DecidableEq, Repr

namespace Registry

/-- A call of the api. -/
abbrev Call := Tx Failure Registry

def onStore {α : Type} (x : Stm α) : Call α :=
  Tx.zoom Registry.store (fun r s => { r with store := s }) x

/-- A `SELECT`. -/
def query {α : Type} (f : Registry → α) : Call α := do
  onStore Stm.stmt
  let r ← Tx.get
  pure (f r)

/-- A statement that writes, or is refused by the data. -/
def write (f : Registry → Except Failure Registry) : Call Unit := do
  onStore Stm.stmt
  let r ← Tx.get
  let r' ← Tx.ofExcept (f r)
  Tx.modify fun _ => r'

/-! ## Signing up -/

/-- What a user starts with. -/
def endowment : List (String × ℚ) := [("KRW", 100000000), ("BTC", 1), ("ETH", 5), ("USDT", 10000)]

/-- `user.create` with the wallets. -/
def createUser (email passwordHash id : String) (r : Registry) : Except Failure Registry :=
  if (find? email r.accounts).isSome ∨ (r.store.db.user? id).isSome ∨
      ∃ x ∈ endowment, (r.store.db.wallet? id x.1).isSome then .error .uniqueViolation
  else if ∃ x ∈ endowment, find? x.1 r.store.db.assets = none then .error .foreignKeyViolation
  else .ok { r with
    store := { r.store with db := { r.store.db with
      users := r.store.db.users ++ [⟨id, false⟩]
      wallets := r.store.db.wallets ++ endowment.map fun x => ⟨id, x.1, x.2, 0⟩ } }
    accounts := r.accounts ++ [⟨id, email, passwordHash⟩] }

/-- What is left of a signup when the password is hashed; `id` is the one that the user gets. -/
def userCreate (email passwordHash id : String) : Call Account := do
  write (createUser email passwordHash id)
  pure ⟨id, email, passwordHash⟩

/-- `AuthService.signup`, up to the tokens, which are for the account. -/
def signup (email passwordHash id : String) : Call Account := do
  let exists? ← query fun r => find? email r.accounts
  if exists?.isSome then Tx.fail (.conflict "email already registered")
  else userCreate email passwordHash id

/-- The account that `login` issues tokens for; `none` is `invalid credentials`. `verify` is
`argon2.verify`. -/
def loginAccount (verify : String → String → Bool) (email password : String) (r : Registry) :
    Option Account :=
  match find? email r.accounts with
  | none => none
  | some a => if verify a.passwordHash password then some a else none

/-- `AuthService.login`. -/
def login (verify : String → String → Bool) (email password : String) : Call (Option Account) :=
  query (loginAccount verify email password)

/-! ## Assets -/

/-- `/^[A-Z0-9]{2,12}$/`. -/
def validSymbol (symbol : String) : Bool :=
  2 ≤ symbol.length ∧ symbol.length ≤ 12 ∧ symbol.toList.all fun c => c.isUpper ∨ c.isDigit

/-- `AdminAssetsService.create`. -/
def assetCreate (input : AssetInput) : Call Unit := do
  if !validSymbol input.symbol then
    Tx.fail (.badRequest "symbol must be 2-12 chars, [A-Z0-9]")
  else if input.decimals < 0 ∨ 18 < input.decimals then
    Tx.fail (.badRequest "decimals out of range")
  else
    let exists? ← query fun r => find? input.symbol r.store.db.assets
    if exists?.isSome then Tx.fail (.conflict "asset already exists")
    else write fun r =>
      if (find? input.symbol r.store.db.assets).isSome then .error .uniqueViolation
      else .ok { r with
        store := { r.store with db := { r.store.db with
          assets := r.store.db.assets ++ [⟨input.symbol⟩] } }
        details := r.details ++ [input] }

/-- `AdminAssetsService.update`. -/
def assetUpdate (symbol : String) (input : AssetUpdate) : Call Unit := do
  let asset? ← query fun r => find? symbol r.store.db.assets
  if asset?.isNone then Tx.fail (.notFound "asset not found")
  else write fun r =>
    if (find? symbol r.store.db.assets).isNone then .error .recordNotFound
    else .ok { r with details := Table.modify symbol input.apply r.details }

/-- `asset.delete`; the wallets refer to the assets. -/
def deleteAsset (symbol : String) (r : Registry) : Except Failure Registry :=
  if (find? symbol r.store.db.assets).isNone then .error .recordNotFound
  else if ∃ w ∈ r.store.db.wallets, w.asset = symbol then .error .foreignKeyViolation
  else .ok { r with
    store := { r.store with db := { r.store.db with
      assets := r.store.db.assets.filter (·.symbol ≠ symbol) } }
    details := r.details.filter (·.symbol ≠ symbol) }

/-- `AdminAssetsService.remove`. -/
def assetRemove (symbol : String) : Call Unit := do
  let used ← query fun r => r.store.db.markets.find? fun m =>
    decide (m.baseAsset = symbol ∨ m.quoteAsset = symbol)
  match used with
  | some market => Tx.fail (.conflict
      ("asset is referenced by market " ++ market.symbol ++ " — disable that market first"))
  | none =>
    let wallet ← query fun r => r.store.db.wallets.find? fun w => decide (w.asset = symbol)
    match wallet with
    | some _ => Tx.fail (.conflict "asset has user wallets — manual cleanup required")
    | none => write (deleteAsset symbol)

/-! ## Effects -/

/-- The tables are as they were. -/
structure Same (r r' : Registry) : Prop where
  db : r'.store.db = r.store.db
  seqs : r'.store.seqs = r.store.seqs
  accounts : r'.accounts = r.accounts
  details : r'.details = r.details

/-- What a call can do to the tables, and the accounts that it creates. -/
inductive Effect (r r' : Registry) : List Account → Prop
  | idle (h : Same r r') : Effect r r' []
  /-- A user has joined. -/
  | joined (a : Account) (hemail : find? a.email r.accounts = none)
      (huser : r.store.db.user? a.id = none)
      (hwallets : ∀ x ∈ endowment, r.store.db.wallet? a.id x.1 = none)
      (hassets : ∀ x ∈ endowment, (find? x.1 r.store.db.assets).isSome)
      (hdb : r'.store.db = { r.store.db with
        users := r.store.db.users ++ [⟨a.id, false⟩]
        wallets := r.store.db.wallets ++ endowment.map fun x => ⟨a.id, x.1, x.2, 0⟩ })
      (hseqs : r'.store.seqs = r.store.seqs) (haccounts : r'.accounts = r.accounts ++ [a])
      (hdetails : r'.details = r.details) : Effect r r' [a]
  /-- An asset was added. -/
  | listed (input : AssetInput) (hnew : find? input.symbol r.store.db.assets = none)
      (hdb : r'.store.db = { r.store.db with assets := r.store.db.assets ++ [⟨input.symbol⟩] })
      (hseqs : r'.store.seqs = r.store.seqs) (haccounts : r'.accounts = r.accounts)
      (hdetails : r'.details = r.details ++ [input]) : Effect r r' []
  /-- The name or the decimals of an asset were changed. -/
  | revised (symbol : String) (f : AssetInput → AssetInput) (hf : ∀ a, (f a).symbol = a.symbol)
      (hdb : r'.store.db = r.store.db) (hseqs : r'.store.seqs = r.store.seqs)
      (haccounts : r'.accounts = r.accounts)
      (hdetails : r'.details = Table.modify symbol f r.details) : Effect r r' []
  /-- An asset that nothing refers to was removed. -/
  | delisted (symbol : String)
      (hmarkets : ∀ m ∈ r.store.db.markets, m.baseAsset ≠ symbol ∧ m.quoteAsset ≠ symbol)
      (hwallets : ∀ w ∈ r.store.db.wallets, w.asset ≠ symbol)
      (hdb : r'.store.db = { r.store.db with
        assets := r.store.db.assets.filter (·.symbol ≠ symbol) })
      (hseqs : r'.store.seqs = r.store.seqs) (haccounts : r'.accounts = r.accounts)
      (hdetails : r'.details = r.details.filter (·.symbol ≠ symbol)) : Effect r r' []

/-- The registry when some statement may fail. -/
def withFaults (r : Registry) (faults : Option ℕ) : Registry :=
  { r with store := { r.store with faults } }

theorem Effect.withFaults {r r' : Registry} {js : List Account} (h : Effect r r' js)
    (faults faults' : Option ℕ) : Effect (r.withFaults faults) (r'.withFaults faults') js := by
  cases h with
  | idle h => exact .idle ⟨h.db, h.seqs, h.accounts, h.details⟩
  | joined a hemail huser hwallets hassets hdb hseqs haccounts hdetails =>
    exact .joined a hemail huser hwallets hassets hdb hseqs haccounts hdetails
  | listed input hnew hdb hseqs haccounts hdetails =>
    exact .listed input hnew hdb hseqs haccounts hdetails
  | revised symbol f hf hdb hseqs haccounts hdetails =>
    exact .revised symbol f hf hdb hseqs haccounts hdetails
  | delisted symbol hmarkets hwallets hdb hseqs haccounts hdetails =>
    exact .delisted symbol hmarkets hwallets hdb hseqs haccounts hdetails

/-- The account that a signup created, if it returned. -/
def created : Except Failure Account → List Account
  | .ok a => [a]
  | .error _ => []

namespace Same

variable {r r₁ r' : Registry}

theorem refl (r : Registry) : Same r r := ⟨rfl, rfl, rfl, rfl⟩

theorem trans (h₁ : Same r r₁) (h₂ : Same r₁ r') : Same r r' :=
  ⟨h₂.db.trans h₁.db, h₂.seqs.trans h₁.seqs, h₂.accounts.trans h₁.accounts,
    h₂.details.trans h₁.details⟩

theorem effect {js : List Account} (h : Same r r₁) (he : Effect r₁ r' js) : Effect r r' js := by
  obtain ⟨hdb₁, hseqs₁, haccounts₁, hdetails₁⟩ := h
  cases he with
  | idle h => exact .idle (trans ⟨hdb₁, hseqs₁, haccounts₁, hdetails₁⟩ h)
  | joined a hemail huser hwallets hassets hdb hseqs haccounts hdetails =>
    rw [hdb₁] at huser hwallets hassets hdb
    rw [haccounts₁] at hemail haccounts
    exact .joined a hemail huser hwallets hassets hdb (hseqs.trans hseqs₁) haccounts
      (hdetails.trans hdetails₁)
  | listed input hnew hdb hseqs haccounts hdetails =>
    rw [hdb₁] at hnew hdb
    exact .listed input hnew hdb (hseqs.trans hseqs₁) (haccounts.trans haccounts₁)
      (by rw [hdetails, hdetails₁])
  | revised symbol f hf hdb hseqs haccounts hdetails =>
    exact .revised symbol f hf (hdb.trans hdb₁) (hseqs.trans hseqs₁) (haccounts.trans haccounts₁)
      (by rw [hdetails, hdetails₁])
  | delisted symbol hmarkets hwallets hdb hseqs haccounts hdetails =>
    rw [hdb₁] at hmarkets hwallets hdb
    exact .delisted symbol hmarkets hwallets hdb (hseqs.trans hseqs₁)
      (haccounts.trans haccounts₁) (by rw [hdetails, hdetails₁])

end Same

theorem same_stmt (r : Registry) : Same r (onStore Stm.stmt r).2 := by
  rw [onStore, Tx.zoom, Stm.stmt]
  split <;> exact ⟨rfl, rfl, rfl, rfl⟩

theorem same_query {α : Type} (f : Registry → α) (r : Registry) : Same r (query f r).2 := by
  rcases h : onStore Stm.stmt r with ⟨e | u, r₁⟩
  · rw [query, Tx.bind_apply_error h]
    exact (congrArg Prod.snd h) ▸ same_stmt r
  · rw [query, Tx.bind_apply_ok h]
    exact (congrArg Prod.snd h) ▸ same_stmt r

/-- A call that starts with a `SELECT` does what it does with what was selected, or the `SELECT`
failed. -/
theorem effect_query {α β : Type} {f : Registry → α} {k : α → Call β} {r : Registry}
    {c : Except Failure β → List Account} (hc : ∀ e, c (.error e) = [])
    (hk : ∀ r₁, Same r r₁ → Effect r₁ (k (f r₁) r₁).2 (c (k (f r₁) r₁).1)) :
    Effect r ((query f >>= k) r).2 (c ((query f >>= k) r).1) := by
  have hsame := same_query f r
  rcases h : query f r with ⟨e | a, r₁⟩
  · rw [Tx.bind_apply_error h, hc]
    rw [h] at hsame
    exact .idle hsame
  · rw [Tx.bind_apply_ok h]
    rw [h] at hsame
    obtain rfl : f r₁ = a := by
      obtain ⟨-, r₂, -, h⟩ := Tx.bind_eq_ok.mp h
      obtain ⟨rfl, rfl⟩ := Tx.pure_eq_ok.mp h
      rfl
    exact hsame.effect (hk r₁ hsame)

/-- A statement that writes fails, or does what the data let it. -/
theorem write_cases (f : Registry → Except Failure Registry) (r : Registry) :
    (∃ e r₁, write f r = (.error e, r₁) ∧ Same r r₁) ∨
      ∃ r₁ r', Same r r₁ ∧ f r₁ = .ok r' ∧ write f r = (.ok (), r') := by
  have hsame := same_stmt r
  rcases h : onStore Stm.stmt r with ⟨e | u, r₁⟩
  · rw [h] at hsame
    exact Or.inl ⟨e, r₁, Tx.bind_apply_error h _, hsame⟩
  · rw [h] at hsame
    have hwrite : write f r = (Tx.ofExcept (f r₁) >>= fun r' => Tx.modify fun _ => r') r₁ := by
      rw [write, Tx.bind_apply_ok h, Tx.get_bind_apply]
    rcases hr : f r₁ with e | r'
    · exact Or.inl ⟨e, r₁, by rw [hwrite, hr]; rfl, hsame⟩
    · exact Or.inr ⟨r₁, r', hsame, hr, by rw [hwrite, hr]; rfl⟩

theorem effect_write {f : Registry → Except Failure Registry} {r : Registry}
    (hf : ∀ r₁ r', Same r r₁ → f r₁ = .ok r' → Effect r₁ r' []) :
    Effect r (write f r).2 [] := by
  rcases write_cases f r with ⟨e, r₁, h, hsame⟩ | ⟨r₁, r', hsame, hr, h⟩
  · rw [h]
    exact .idle hsame
  · rw [h]
    exact hsame.effect (hf r₁ r' hsame hr)

theorem createUser_effect {email passwordHash id : String} {r r' : Registry}
    (h : createUser email passwordHash id r = .ok r') :
    Effect r r' [⟨id, email, passwordHash⟩] := by
  unfold createUser at h
  split at h
  · cases h
  split at h
  · cases h
  · rename_i hunique hassets
    obtain rfl := Except.ok.inj h
    obtain ⟨hemail, hrest⟩ := not_or.mp hunique
    obtain ⟨huser, hwallets⟩ := not_or.mp hrest
    refine .joined ⟨id, email, passwordHash⟩ (Option.not_isSome_iff_eq_none.mp hemail)
      (Option.not_isSome_iff_eq_none.mp huser) (fun x hx => ?_) (fun x hx => ?_) rfl rfl rfl rfl
    · exact Option.not_isSome_iff_eq_none.mp fun h => hwallets ⟨x, hx, h⟩
    · exact Option.isSome_iff_ne_none.mpr fun h => hassets ⟨x, hx, h⟩

theorem userCreate_effect (email passwordHash id : String) (r : Registry) :
    Effect r (userCreate email passwordHash id r).2
      (created (userCreate email passwordHash id r).1) := by
  rcases write_cases (createUser email passwordHash id) r with
    ⟨e, r₁, h, hsame⟩ | ⟨r₁, r', hsame, hr, h⟩
  · rw [userCreate, Tx.bind_apply_error h]
    exact .idle hsame
  · rw [userCreate, Tx.bind_apply_ok h]
    exact hsame.effect (createUser_effect hr)

theorem signup_effect (email passwordHash id : String) (r : Registry) :
    Effect r (signup email passwordHash id r).2 (created (signup email passwordHash id r).1) := by
  refine effect_query (c := created) (fun _ => rfl) fun r₁ _ => ?_
  split
  · exact .idle (.refl r₁)
  · exact userCreate_effect email passwordHash id r₁

theorem assetCreate_effect (input : AssetInput) (r : Registry) :
    Effect r (assetCreate input r).2 [] := by
  unfold assetCreate
  split
  · exact .idle (.refl r)
  split
  · exact .idle (.refl r)
  refine effect_query (c := fun _ => []) (fun _ => rfl) fun r₁ _ => ?_
  split
  · exact .idle (.refl r₁)
  · refine effect_write fun r₂ r' _ h => ?_
    split at h
    · cases h
    · rename_i hnew
      obtain rfl := Except.ok.inj h
      exact .listed input (Option.not_isSome_iff_eq_none.mp hnew) rfl rfl rfl rfl

theorem assetUpdate_effect (symbol : String) (input : AssetUpdate) (r : Registry) :
    Effect r (assetUpdate symbol input r).2 [] := by
  refine effect_query (c := fun _ => []) (fun _ => rfl) fun r₁ _ => ?_
  split
  · exact .idle (.refl r₁)
  · refine effect_write fun r₂ r' _ h => ?_
    split at h
    · cases h
    · obtain rfl := Except.ok.inj h
      exact .revised symbol input.apply (fun _ => rfl) rfl rfl rfl rfl

/-- The market is looked for before the asset is deleted. -/
theorem deleteAsset_effect {symbol : String} {r r' : Registry}
    (hmarkets : ∀ m ∈ r.store.db.markets, m.baseAsset ≠ symbol ∧ m.quoteAsset ≠ symbol)
    (h : deleteAsset symbol r = .ok r') : Effect r r' [] := by
  unfold deleteAsset at h
  split at h
  · cases h
  split at h
  · cases h
  · rename_i hwallets
    obtain rfl := Except.ok.inj h
    exact .delisted symbol hmarkets (fun w hw e => hwallets ⟨w, hw, e⟩) rfl rfl rfl rfl

theorem assetRemove_effect (symbol : String) (r : Registry) :
    Effect r (assetRemove symbol r).2 [] := by
  refine effect_query (c := fun _ => []) (fun _ => rfl) fun r₁ _ => ?_
  rcases hused : r₁.store.db.markets.find? fun m =>
    decide (m.baseAsset = symbol ∨ m.quoteAsset = symbol) with _ | market
  · have hmarkets : ∀ m ∈ r₁.store.db.markets, m.baseAsset ≠ symbol ∧ m.quoteAsset ≠ symbol := by
      intro m hm
      have := List.find?_eq_none.mp hused m hm
      simpa only [decide_eq_true_eq, not_or] using this
    simp only [hused]
    refine effect_query (c := fun _ => []) (fun _ => rfl) fun r₂ h₂ => ?_
    rcases hwallet : r₂.store.db.wallets.find? fun w => decide (w.asset = symbol) with _ | wallet
    · simp only [hwallet]
      refine effect_write fun r₃ r' h₃ h => deleteAsset_effect (fun m hm => ?_) h
      rw [h₃.db, h₂.db] at hm
      exact hmarkets m hm
    · simp only [hwallet]
      exact .idle (.refl r₂)
  · simp only [hused]
    exact .idle (.refl r₁)

/-! ## Logging in -/

/-- **Who can log in.** -/
theorem loginAccount_iff {verify : String → String → Bool} {email password : String} {r : Registry}
    {a : Account} : loginAccount verify email password r = some a ↔
      find? email r.accounts = some a ∧ verify a.passwordHash password = true := by
  unfold loginAccount
  rcases find? email r.accounts with _ | b
  · simp
  · by_cases hv : verify b.passwordHash password = true
    · simp only [if_pos hv, Option.some.injEq]
      exact ⟨fun h => ⟨h, h ▸ hv⟩, fun h => h.1⟩
    · simp only [if_neg hv, reduceCtorEq, Option.some.injEq, false_iff]
      rintro ⟨rfl, h⟩
      exact hv h

end Registry

end Orbit
