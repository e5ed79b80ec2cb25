import Orbit.Api.Accounts
import Orbit.Matcher.Bystanders
import Orbit.Matcher.Commute
import Orbit.Matcher.Requests
import Orbit.Matcher.Supply

/-!
# A growing exchange

The exchange trades while users join it and assets come and go. `Platform` is the matcher with the
rest of the database, and an `Activity` is an operation of the exchange, or one of the calls of
`Registry`.

* `Db.Referential`: what a row refers to is there. The database checks some of these references;
  that no market is left without its assets is the work of `AdminAssetsService.remove`, and that no
  order is left without its user of the checks of `submit`.
-/

namespace Orbit

open PriceTime Settler Consumer Table

variable {E : Engine} {m m' : Matcher E}

/-! ## References -/

/-- The user is in the table. -/
def Db.HasUser (db : Db) (u : String) : Prop := (db.user? u).isSome

/-- The asset is in the table. -/
def Db.HasAsset (db : Db) (a : String) : Prop := (find? a db.assets).isSome

instance (db : Db) (u : String) : Decidable (db.HasUser u) :=
  inferInstanceAs (Decidable ((db.user? u).isSome = true))

instance (db : Db) (a : String) : Decidable (db.HasAsset a) :=
  inferInstanceAs (Decidable ((find? a db.assets).isSome = true))

/-- **What a row refers to is there.** -/
structure Db.Referential (db : Db) : Prop where
  markets : ∀ market ∈ db.markets, db.HasAsset market.baseAsset ∧ db.HasAsset market.quoteAsset
  wallets : ∀ w ∈ db.wallets, db.HasUser w.userId ∧ db.HasAsset w.asset
  orders : ∀ o ∈ db.orders, db.HasUser o.userId
  trades : ∀ t ∈ db.trades, db.HasUser t.makerUserId ∧ db.HasUser t.takerUserId

namespace Db.Referential

variable {db db' : Db}

/-- Postings of users that are there, in assets that are there. -/
theorem of_posted (h : db.Referential) {ps : List Posting} (hp : Posted db db' ps)
    (hps : ∀ p ∈ ps, db.HasUser p.userId ∧ db.HasAsset p.asset) {w : Wallet}
    (hw : w ∈ db'.wallets) : db.HasUser w.userId ∧ db.HasAsset w.asset := by
  have hsome : (db'.wallet? w.userId w.asset).isSome :=
    find?_isSome.mpr (List.mem_map_of_mem (f := key) hw)
  rcases (hp.opened _ _).mp hsome with hold | ⟨p, hmem, huser, hasset⟩
  · obtain ⟨w₀, hw₀, hkey⟩ := List.mem_map.mp (find?_isSome.mp hold)
    obtain ⟨huser, hasset⟩ := Prod.mk.inj hkey
    exact huser ▸ hasset ▸ h.wallets w₀ hw₀
  · exact huser ▸ hasset ▸ hps p hmem

/-- Where users, assets and markets are as they were, and so are the users of the rows. -/
theorem of_rows (h : db.Referential) (husers : db'.users = db.users)
    (hassets : db'.assets = db.assets) (hmarkets : db'.markets = db.markets)
    (hwallets : ∀ w ∈ db'.wallets, db.HasUser w.userId ∧ db.HasAsset w.asset)
    (horders : ∀ o ∈ db'.orders, db.HasUser o.userId)
    (htrades : ∀ t ∈ db'.trades, db.HasUser t.makerUserId ∧ db.HasUser t.takerUserId) :
    db'.Referential := by
  have huser : ∀ u, db'.HasUser u ↔ db.HasUser u := fun u => by
    rw [HasUser, HasUser, user?, user?, husers]
  have hasset : ∀ a, db'.HasAsset a ↔ db.HasAsset a := fun a => by
    rw [HasAsset, HasAsset, hassets]
  exact
    { markets := fun market hm => by
        rw [hasset, hasset]
        exact h.markets market (hmarkets ▸ hm)
      wallets := fun w hw => by
        rw [huser, hasset]
        exact hwallets w hw
      orders := fun o ho => (huser _).mpr (horders o ho)
      trades := fun t ht => by
        rw [huser, huser]
        exact htrades t ht }

/-- Where rows were added, which refer to rows that are there. -/
theorem grow (h : db.Referential) (husers : ∀ u, db.HasUser u → db'.HasUser u)
    (hassets : ∀ a, db.HasAsset a → db'.HasAsset a)
    (hmarkets : ∀ market ∈ db'.markets, market ∈ db.markets ∨
      db'.HasAsset market.baseAsset ∧ db'.HasAsset market.quoteAsset)
    (hwallets : ∀ w ∈ db'.wallets, w ∈ db.wallets ∨ db'.HasUser w.userId ∧ db'.HasAsset w.asset)
    (horders : db'.orders = db.orders) (htrades : db'.trades = db.trades) : db'.Referential where
  markets market hm := by
    rcases hmarkets market hm with hold | hnew
    · exact (h.markets market hold).imp (hassets _) (hassets _)
    · exact hnew
  wallets w hw := by
    rcases hwallets w hw with hold | hnew
    · exact (h.wallets w hold).imp (husers _) (hassets _)
    · exact hnew
  orders o ho := husers _ (h.orders o (horders ▸ ho))
  trades t ht := (h.trades t (htrades ▸ ht)).imp (husers _) (husers _)

theorem market (h : db.Referential) {symbol : String} {market : Market}
    (hm : db.market? symbol = some market) {a : String}
    (ha : a = market.baseAsset ∨ a = market.quoteAsset) : db.HasAsset a := by
  obtain ⟨hbase, hquote⟩ := h.markets market (mem_of_find? hm)
  rcases ha with rfl | rfl
  · exact hbase
  · exact hquote

theorem order (h : db.Referential) {id : ℕ} {o : Order} (ho : db.order? id = some o) :
    db.HasUser o.userId := h.orders o (mem_of_order? ho)

end Db.Referential

/-- Orders that differ from those that there were in what is left of them only. -/
theorem hasUser_of_asPlaced {db : Db} {os os' : List Order} (hos : ∀ o ∈ os, db.HasUser o.userId)
    (h : os'.map Order.asPlaced = os.map Order.asPlaced) : ∀ o ∈ os', db.HasUser o.userId := by
  intro o ho
  have hmem : o.asPlaced ∈ os.map Order.asPlaced := h ▸ List.mem_map_of_mem ho
  obtain ⟨o₀, ho₀, e⟩ := List.mem_map.mp hmem
  have huser : o₀.asPlaced.userId = o.asPlaced.userId := congrArg Order.userId e
  change o₀.userId = o.userId at huser
  exact huser ▸ hos o₀ ho₀

/-- The user and the asset of a posting for an order that is there. -/
theorem Posting.Of.has {db : Db} (h : db.Referential) {id : ℕ} {symbol : String} {market : Market}
    {o : Order} {p : Posting} (hp : p.Of market o) (ho : db.order? id = some o)
    (hm : db.market? symbol = some market) : db.HasUser p.userId ∧ db.HasAsset p.asset :=
  ⟨hp.userId ▸ h.order ho, h.market hm hp.asset⟩

theorem Settler.Submitted.referential {market : Market} {order : Order} {cmd : OrderSubmitCommand}
    {fs : List (Fill ℕ ℚ ℚ)} {finish : Order → Order} {release : List Posting} {q : Queues}
    {rest : List (Resting ℕ ℚ ℚ)} (h : Submitted market order cmd fs finish release q m m')
    (hc : Crossing m cmd.symbol order finish fs rest)
    (hm : m.db.market? cmd.symbol = some market) (hrelease : ∀ p ∈ release, p.Of market order)
    (hplaced : m'.db.orders.map Order.asPlaced = m.db.orders.map Order.asPlaced)
    (hr : m.db.Referential) : m'.db.Referential := by
  obtain ⟨rows, db₁, hset, horders, htrades, hposted⟩ := h.settled
  have hall : Posted m.db m'.db _ :=
    (hset.posted (by rw [map_makerOrderId]; exact hc.nodup)).trans hposted
  refine hr.of_rows h.framed.users h.framed.assets h.framed.markets
    (fun w hw => hr.of_posted hall (fun p hp => ?_) hw) (hasUser_of_asPlaced hr.orders hplaced)
    (fun t ht => ?_)
  · rcases List.mem_append.mp hp with hp | hp
    · rcases of_tradePostings hp with hof | ⟨t, -, maker, hmaker, hof⟩
      · exact hof.has hr hc.horder hm
      · exact hof.has hr hmaker hm
    · exact (hrelease p hp).has hr hc.horder hm
  · rw [htrades, hset.trades, List.mem_append] at ht
    rcases ht with ht | ht
    · exact hr.trades t ht
    · obtain ⟨t', -, maker, hmaker, hrow⟩ := hset.records t ht
      rw [hrow.makerUserId, hrow.takerUserId]
      exact ⟨hr.order hmaker, hr.order hc.horder⟩

theorem submit_referential (hs : Safe m) {cmd : OrderSubmitCommand} {r : Except Failure Result}
    (hcmd : OrderCommand.SUBMIT cmd ∈ m.db.commands) (h : SubmitOutcome cmd m r m')
    (hr : m.db.Referential) : m'.db.Referential := by
  have hplaced := submit_asPlaced hs hcmd h
  rcases h.unchanged_or with hdb | rfl
  · exact hdb ▸ hr
  cases h with
  | committedLimit market order price hb ht hp hid hsub =>
    exact hsub.referential (crossing_limit price hs.sound hcmd hb ht hid) hb.hmarket (by simp)
      hplaced hr
  | committedMarket market order l hb ht hl hsub =>
    exact hsub.referential (crossing_market hs.sound hs.backed hcmd hb ht hl) hb.hmarket
      (fun _ hp => of_residualPostings hp) hplaced hr

theorem cancel_referential {cmd : OrderCancelCommand} {r : Except Failure Result}
    (h : CancelOutcome cmd m r m') (hr : m.db.Referential) : m'.db.Referential := by
  have hplaced := cancel_asPlaced h
  rcases h.unchanged_or with hdb | ⟨market, order, ho, hm, live, hc⟩
  · exact hdb ▸ hr
  refine hr.of_rows hc.framed.users hc.framed.assets hc.framed.markets
    (fun w hw => hr.of_posted hc.posted (fun p hp => (of_releasePostings hp).has hr ho hm) hw)
    (hasUser_of_asPlaced hr.orders hplaced) (fun t ht => hr.trades t (hc.trades ▸ ht))

theorem api_referential {A : WalletField → Prop} {s s' : Store} (h : ApiEffect A s s')
    (hr : s.db.Referential) : s'.db.Referential := by
  cases h with
  | idle hseq hdb => exact hdb ▸ hr
  | placed o market cmd h =>
    refine hr.of_rows h.users h.assets h.markets (fun w hw => hr.of_posted h.posted
      (fun p hp => ?_) hw) (fun x hx => ?_) (fun t ht => hr.trades t (h.trades ▸ ht))
    · have hof := of_lockPostings hp
      exact ⟨hof.userId ▸ h.user, hr.market h.hmarket hof.asset⟩
    · rw [h.orders, List.mem_append, List.mem_singleton] at hx
      rcases hx with hx | rfl
      · exact hr.orders x hx
      · exact h.user
  | requested cmd o hseq h =>
    obtain ⟨row, -, -, hdb⟩ := h.outbox
    rw [hdb]
    exact ⟨hr.markets, hr.wallets, hr.orders, hr.trades⟩
  | marketChanged symbol input hseq hdb =>
    rw [hdb]
    refine ⟨fun market hm => ?_, hr.wallets, hr.orders, hr.trades⟩
    rcases mem_modify hm with hm | ⟨market₀, hm₀, rfl⟩
    · exact hr.markets market hm
    · exact hr.markets market₀ (mem_of_find? hm₀)
  | adjusted userId asset field w value hfield hseq hw hn hdb =>
    rw [hdb]
    refine ⟨hr.markets, fun x hx => ?_, hr.orders, hr.trades⟩
    rcases mem_modify hx with hx | ⟨x₀, hx₀, rfl⟩
    · exact hr.wallets x hx
    · have hkey : key (Admin.setField field value x₀) = key x₀ := by
        cases field <;> rfl
      obtain ⟨huser, hasset⟩ := Prod.mk.inj hkey
      exact huser ▸ hasset ▸ hr.wallets x₀ (mem_of_find? hx₀)

/-! ## The effects of growing -/

/-- The references after a call of the registry. -/
theorem Registry.Effect.referential {r r' : Registry} {js : List Account} (h : r.Effect r' js)
    (hr : r.store.db.Referential) : r'.store.db.Referential := by
  cases h with
  | idle h => exact h.db ▸ hr
  | joined a hemail huser hwallets hassets hdb hseqs haccounts hdetails =>
    have hnew : r'.store.db.HasUser a.id := by
      rw [hdb]
      exact find?_isSome_append_self r.store.db.users ⟨a.id, false⟩
    have hasset : ∀ x, r'.store.db.HasAsset x ↔ r.store.db.HasAsset x := fun x => by rw [hdb]; rfl
    refine hr.grow (fun u hu => ?_) (fun x => (hasset x).mpr) (fun market hm => Or.inl ?_)
      (fun w hw => ?_) (by rw [hdb]) (by rw [hdb])
    · rw [hdb]
      exact find?_isSome_append _ hu
    · rwa [hdb] at hm
    · rw [hdb] at hw
      rcases List.mem_append.mp hw with hw | hw
      · exact Or.inl hw
      · obtain ⟨x, hx, rfl⟩ := List.mem_map.mp hw
        exact Or.inr ⟨hnew, (hasset _).mpr (hassets x hx)⟩
  | listed input hnew hdb hseqs haccounts hdetails =>
    rw [hdb]
    exact hr.grow (fun _ h => h) (fun _ hx => find?_isSome_append _ hx) (fun _ => Or.inl)
      (fun _ => Or.inl) rfl rfl
  | revised symbol f hf hdb hseqs haccounts hdetails => exact hdb ▸ hr
  | delisted symbol hmarkets hwallets hdb hseqs haccounts hdetails =>
    have hold : ∀ x, x ≠ symbol → r.store.db.HasAsset x → r'.store.db.HasAsset x := by
      intro x hne hx
      obtain ⟨asset, hx⟩ := Option.isSome_iff_exists.mp hx
      have hsymbol : asset.symbol = x := key_of_find? hx
      rw [hdb]
      exact Option.isSome_of_eq_some (find?_filter hx (decide_eq_true (hsymbol.symm ▸ hne)))
    rw [hdb] at hold ⊢
    refine ⟨fun market hm => ?_, fun w hw => ?_, hr.orders, hr.trades⟩
    · obtain ⟨hbase, hquote⟩ := hmarkets market hm
      exact (hr.markets market hm).imp (hold _ hbase) (hold _ hquote)
    · exact (hr.wallets w hw).imp id (hold _ (hwallets w hw))

namespace Registry

/-- What a user starts with of an asset. -/
def granted (a : String) : ℚ := ((endowment.find? fun x => x.1 = a).map (·.2)).getD 0

/-- What new accounts bring a user. -/
def grants (js : List Account) (u a : String) : ℚ :=
  (js.map fun j => if j.id = u then granted a else 0).sum

theorem grants_append (js js' : List Account) (u a : String) :
    grants (js ++ js') u a = grants js u a + grants js' u a := by
  rw [grants, grants, grants, List.map_append, List.sum_append]

variable {r r' : Registry} {js : List Account} {u a : String}

/-- A new user's wallet. -/
theorem find?_endowment (id u a : String) (xs : List (String × ℚ)) :
    find? (u, a) (xs.map fun x => (⟨id, x.1, x.2, 0⟩ : Wallet)) =
      if id = u then (xs.find? fun x => x.1 = a).map fun x => ⟨id, x.1, x.2, 0⟩ else none := by
  induction xs with
  | nil => simp
  | cons x xs ih =>
    have hkey : key (⟨id, x.1, x.2, 0⟩ : Wallet) = (u, a) ↔ id = u ∧ x.1 = a := Prod.mk_inj
    rw [List.map_cons, find?_cons, if_congr hkey rfl rfl, ih, List.find?_cons]
    by_cases hid : id = u <;> by_cases hx : x.1 = a <;> simp [hid, hx]

/-- The wallets after a call: those that there were, and those of the new users. -/
theorem Effect.wallet? (h : Effect r r' js) (u a : String) :
    (∃ j ∈ js, j.id = u ∧ r.store.db.wallet? u a = none ∧ ∃ x ∈ endowment, x.1 = a ∧
      r'.store.db.wallet? u a = some ⟨u, a, x.2, 0⟩ ∧ grants js u a = x.2) ∨
    r'.store.db.wallet? u a = r.store.db.wallet? u a ∧ grants js u a = 0 := by
  cases h with
  | idle h => exact Or.inr ⟨by rw [h.db], rfl⟩
  | listed input hnew hdb => exact Or.inr ⟨by rw [hdb]; rfl, rfl⟩
  | revised symbol f hf hdb => exact Or.inr ⟨by rw [hdb], rfl⟩
  | delisted symbol hmarkets hwallets hdb => exact Or.inr ⟨by rw [hdb]; rfl, rfl⟩
  | joined j hemail huser hwallets hassets hdb =>
    have hfind : r'.store.db.wallet? u a = (r.store.db.wallet? u a).or
        (if j.id = u then (endowment.find? fun x => x.1 = a).map fun x => ⟨j.id, x.1, x.2, 0⟩
          else none) := by
      rw [hdb, Db.wallet?, find?_append, find?_endowment]
      rfl
    have hgrants : grants [j] u a = if j.id = u then granted a else 0 := by
      rw [grants, List.map_singleton, List.sum_singleton]
    by_cases hid : j.id = u
    · rcases hx : endowment.find? fun x => x.1 = a with _ | x
      · refine Or.inr ⟨?_, ?_⟩
        · rw [hfind, if_pos hid, hx, Option.map_none, Option.or_none]
        · rw [hgrants, if_pos hid, granted, hx]
          rfl
      · have hmem : x ∈ endowment := List.mem_of_find?_eq_some hx
        have hsymbol : x.1 = a := by simpa using List.find?_some hx
        have hnone : r.store.db.wallet? u a = none := by
          rw [← hid, ← hsymbol]
          exact hwallets x hmem
        refine Or.inl ⟨j, List.mem_cons_self, hid, hnone, x, hmem, hsymbol, ?_, ?_⟩
        · rw [hfind, hnone, if_pos hid, hx, Option.none_or, Option.map_some, hid, hsymbol]
        · rw [hgrants, if_pos hid, granted, hx]
          rfl
    · refine Or.inr ⟨?_, ?_⟩
      · rw [hfind, if_neg hid, Option.or_none]
      · rw [hgrants, if_neg hid]

theorem Effect.balance (h : Effect r r' js) (u a : String) :
    r'.store.db.balance u a = r.store.db.balance u a + grants js u a := by
  unfold Db.balance
  rcases h.wallet? u a with ⟨j, -, -, hnone, x, -, -, hsome, hgrants⟩ | ⟨hsame, hgrants⟩
  · rw [hsome, hnone, hgrants, Option.map_some, Option.map_none, Option.getD_some, Option.getD_none,
      zero_add]
  · rw [hsame, hgrants, add_zero]

theorem Effect.locked (h : Effect r r' js) (u a : String) :
    r'.store.db.locked u a = r.store.db.locked u a := by
  unfold Db.locked
  rcases h.wallet? u a with ⟨j, -, -, hnone, x, -, -, hsome, -⟩ | ⟨hsame, -⟩
  · rw [hsome, hnone]
    rfl
  · rw [hsame]

/-- The tables that trading writes, the wallets apart, are as they were. -/
theorem Effect.frame (h : Effect r r' js) :
    r'.store.seqs = r.store.seqs ∧ r'.store.db.markets = r.store.db.markets ∧
      r'.store.db.orders = r.store.db.orders ∧ r'.store.db.trades = r.store.db.trades ∧
      r'.store.db.outbox = r.store.db.outbox := by
  cases h with
  | idle h => exact ⟨h.seqs, by rw [h.db], by rw [h.db], by rw [h.db], by rw [h.db]⟩
  | joined j hemail huser hwallets hassets hdb hseqs =>
    exact ⟨hseqs, by rw [hdb], by rw [hdb], by rw [hdb], by rw [hdb]⟩
  | listed input hnew hdb hseqs =>
    exact ⟨hseqs, by rw [hdb], by rw [hdb], by rw [hdb], by rw [hdb]⟩
  | revised symbol f hf hdb hseqs =>
    exact ⟨hseqs, by rw [hdb], by rw [hdb], by rw [hdb], by rw [hdb]⟩
  | delisted symbol hmarkets hwallets hdb hseqs =>
    exact ⟨hseqs, by rw [hdb], by rw [hdb], by rw [hdb], by rw [hdb]⟩

theorem Effect.accounts (h : Effect r r' js) : r'.accounts = r.accounts ++ js := by
  cases h with
  | idle h => rw [h.accounts, List.append_nil]
  | joined j hemail huser hwallets hassets hdb hseqs haccounts => exact haccounts
  | listed input hnew hdb hseqs haccounts => rw [haccounts, List.append_nil]
  | revised symbol f hf hdb hseqs haccounts => rw [haccounts, List.append_nil]
  | delisted symbol hmarkets hwallets hdb hseqs haccounts => rw [haccounts, List.append_nil]

theorem endowment_nonneg : ∀ x ∈ endowment, 0 ≤ x.2 := by decide +kernel

theorem Effect.solvent (h : Effect r r' js) (hs : r.store.db.Solvent) : r'.store.db.Solvent := by
  cases h with
  | idle h => exact h.db ▸ hs
  | listed input hnew hdb =>
    rw [hdb]
    exact hs
  | revised symbol f hf hdb => exact hdb ▸ hs
  | delisted symbol hmarkets hwallets hdb =>
    rw [hdb]
    exact hs
  | joined j hemail huser hwallets hassets hdb =>
    rw [hdb]
    intro w hw
    rcases List.mem_append.mp hw with hw | hw
    · exact hs w hw
    · obtain ⟨x, hx, rfl⟩ := List.mem_map.mp hw
      exact ⟨endowment_nonneg x hx, le_rfl⟩

/-- **The tables of users and assets are in order**: every row refers to rows that are there, and
emails, users and symbols are unique. -/
structure Registered (r : Registry) : Prop where
  references : r.store.db.Referential
  users : r.accounts.map (·.id) = r.store.db.users.map key
  ids : (r.accounts.map (·.id)).Nodup
  emails : (r.accounts.map key).Nodup
  assets : r.details.map key = r.store.db.assets.map key
  symbols : (r.details.map key).Nodup

theorem Effect.registered (h : Effect r r' js) (hr : r.Registered) : r'.Registered := by
  have hreferences := h.referential hr.references
  cases h with
  | idle h =>
    exact ⟨hreferences, by rw [h.accounts, h.db, hr.users], by rw [h.accounts]; exact hr.ids,
      by rw [h.accounts]; exact hr.emails, by rw [h.details, h.db, hr.assets],
      by rw [h.details]; exact hr.symbols⟩
  | joined j hemail huser hwallets hassets hdb hseqs haccounts hdetails =>
    have hid : j.id ∉ r.accounts.map (·.id) := by
      rw [hr.users]
      exact fun hmem => Option.isSome_iff_ne_none.mp (find?_isSome.mpr hmem) huser
    refine ⟨hreferences, ?_, ?_, ?_, by rw [hdetails, hdb, hr.assets],
      by rw [hdetails]; exact hr.symbols⟩
    · rw [haccounts, hdb, List.map_append, List.map_append, hr.users]
      rfl
    · rw [haccounts, List.map_append, List.map_singleton, ← List.concat_eq_append]
      exact hr.ids.concat hid
    · rw [haccounts]
      exact nodup_map_key_append hr.emails hemail
  | listed input hnew hdb hseqs haccounts hdetails =>
    refine ⟨hreferences, by rw [haccounts, hdb, hr.users], by rw [haccounts]; exact hr.ids,
      by rw [haccounts]; exact hr.emails, ?_, ?_⟩
    · rw [hdetails, hdb, List.map_append, List.map_append, hr.assets]
      rfl
    · rw [hdetails]
      refine nodup_map_key_append hr.symbols (Option.not_isSome_iff_eq_none.mp fun hsome => ?_)
      rw [find?_isSome, hr.assets, ← find?_isSome] at hsome
      exact Option.isSome_iff_ne_none.mp hsome hnew
  | revised symbol f hf hdb hseqs haccounts hdetails =>
    refine ⟨hreferences, by rw [haccounts, hdb, hr.users], by rw [haccounts]; exact hr.ids,
      by rw [haccounts]; exact hr.emails, ?_, ?_⟩
    · rw [hdetails, map_key_modify hf, hdb, hr.assets]
    · rw [hdetails, map_key_modify hf]
      exact hr.symbols
  | delisted symbol hmarkets hwallets hdb hseqs haccounts hdetails =>
    refine ⟨hreferences, by rw [haccounts, hdb, hr.users], by rw [haccounts]; exact hr.ids,
      by rw [haccounts]; exact hr.emails, ?_, ?_⟩
    · have hdetail : ∀ as : List AssetInput, (as.filter (·.symbol ≠ symbol)).map key =
          (as.map key).filter (· ≠ symbol) := fun as => by
        rw [List.filter_map]
        rfl
      have hasset : ∀ as : List Asset, (as.filter (·.symbol ≠ symbol)).map key =
          (as.map key).filter (· ≠ symbol) := fun as => by
        rw [List.filter_map]
        rfl
      rw [hdetails, hdetail, hr.assets, hdb]
      exact (hasset _).symm
    · rw [hdetails]
      exact hr.symbols.sublist (List.filter_sublist.map key)

end Registry

/-! ## Activities -/

/-- The matcher, and the columns of the users and assets that it does not read. -/
structure Platform (E : Engine) where
  matcher : Matcher E
  accounts : List Account
  details : List AssetInput

/-- What is done on the platform. `userCreate` is the rest of a signup whose password took its time
to be hashed. -/
inductive Activity
  | operation (op : Operation)
  | signup (email passwordHash id : String) (faults : Option ℕ)
  | userCreate (email passwordHash id : String) (faults : Option ℕ)
  | assetCreate (input : AssetInput) (faults : Option ℕ)
  | assetUpdate (symbol : String) (input : AssetUpdate) (faults : Option ℕ)
  | assetRemove (symbol : String) (faults : Option ℕ)
  deriving DecidableEq, Repr

namespace Platform

/-- The database before a call of which some statement may fail. -/
def registry (p : Platform E) (faults : Option ℕ) : Registry :=
  ⟨{ p.matcher.store with faults }, p.accounts, p.details⟩

def call {α : Type} (p : Platform E) (faults : Option ℕ) (x : Registry.Call α) : Platform E :=
  let r := (x (p.registry faults)).2
  { matcher := { p.matcher with store := { r.store with faults := none } }
    accounts := r.accounts, details := r.details }

/-- What a call answers. -/
def answer {α : Type} (p : Platform E) (faults : Option ℕ) (x : Registry.Call α) :
    Except Failure α := (x (p.registry faults)).1

def step (p : Platform E) : Activity → Platform E
  | .operation op => { p with matcher := p.matcher.operate op }
  | .signup email passwordHash id faults => p.call faults (Registry.signup email passwordHash id)
  | .userCreate email passwordHash id faults =>
    p.call faults (Registry.userCreate email passwordHash id)
  | .assetCreate input faults => p.call faults (Registry.assetCreate input)
  | .assetUpdate symbol input faults => p.call faults (Registry.assetUpdate symbol input)
  | .assetRemove symbol faults => p.call faults (Registry.assetRemove symbol)

def run (p : Platform E) (acts : List Activity) : Platform E := acts.foldl step p

/-- The account that an activity creates, as the signup answers it. -/
def joins (p : Platform E) : Activity → List Account
  | .signup email passwordHash id faults =>
    Registry.created (p.answer faults (Registry.signup email passwordHash id))
  | .userCreate email passwordHash id faults =>
    Registry.created (p.answer faults (Registry.userCreate email passwordHash id))
  | _ => []

/-- The accounts that a run creates. -/
def joined (p : Platform E) : List Activity → List Account
  | [] => []
  | act :: acts => p.joins act ++ (p.step act).joined acts

variable {p : Platform E}

/-- What an activity is, in terms of what it can do. -/
theorem step_cases (p : Platform E) (act : Activity) :
    (∃ op, act = .operation op) ∨
      (p.registry none).Effect ((p.step act).registry none) (p.joins act) ∧
        (p.step act).matcher.books = p.matcher.books := by
  have hcall : ∀ {α : Type} (faults : Option ℕ) (x : Registry.Call α) {js : List Account},
      (p.registry faults).Effect (x (p.registry faults)).2 js →
        (p.registry none).Effect ((p.call faults x).registry none) js := fun faults x js h =>
    h.withFaults none none
  cases act with
  | operation op => exact Or.inl ⟨op, rfl⟩
  | signup email passwordHash id faults =>
    exact Or.inr ⟨hcall faults _ (Registry.signup_effect email passwordHash id _), rfl⟩
  | userCreate email passwordHash id faults =>
    exact Or.inr ⟨hcall faults _ (Registry.userCreate_effect email passwordHash id _), rfl⟩
  | assetCreate input faults =>
    exact Or.inr ⟨hcall faults _ (Registry.assetCreate_effect input _), rfl⟩
  | assetUpdate symbol input faults =>
    exact Or.inr ⟨hcall faults _ (Registry.assetUpdate_effect symbol input _), rfl⟩
  | assetRemove symbol faults =>
    exact Or.inr ⟨hcall faults _ (Registry.assetRemove_effect symbol _), rfl⟩

/-- **The rule for runs**: what holds after every operation that is like `Q`, and after every effect
on the registry, with the accounts that were created so far. -/
theorem run_rule {I : Platform E → List Account → Prop} {Q : Operation → Prop}
    (hoperation : ∀ {p : Platform E} {js op}, Q op → I p js → I (p.step (.operation op)) js)
    (heffect : ∀ {p p' : Platform E} {js js'}, (p.registry none).Effect (p'.registry none) js' →
      p'.matcher.books = p.matcher.books → I p js → I p' (js ++ js'))
    {acts : List Activity} (hQ : ∀ op, .operation op ∈ acts → Q op) {k : List Account}
    (h : I p k) : I (p.run acts) (k ++ p.joined acts) := by
  induction acts generalizing p k with
  | nil =>
    rw [joined, List.append_nil]
    exact h
  | cons act acts ih =>
    have hone : I (p.step act) (k ++ p.joins act) := by
      rcases step_cases p act with ⟨op, rfl⟩ | ⟨he, hbooks⟩
      · change I _ (k ++ [])
        rw [List.append_nil]
        exact hoperation (hQ op List.mem_cons_self) h
      · exact heffect he hbooks h
    have := ih (fun op hop => hQ op (List.mem_cons_of_mem act hop)) hone
    rwa [List.append_assoc] at this

end Platform

/-! ## Platforms in order -/

/-- Freezing a user leaves all references. -/
theorem Store.Refrozen.referential {id : String} {frozen : Bool} {s s' : Store}
    (h : s.Refrozen id frozen s') (hr : s.db.Referential) : s'.db.Referential := by
  have huser : ∀ u, s.db.HasUser u → s'.db.HasUser u := fun u hu =>
    find?_isSome.mpr (h.ids ▸ find?_isSome.mp hu)
  have hdb := h.db
  refine hr.grow huser (fun a ha => ?_) (fun market hm => Or.inl ?_) (fun w hw => Or.inl ?_)
    (by rw [hdb]) (by rw [hdb])
  · rw [hdb]
    exact ha
  · rwa [hdb] at hm
  · rwa [hdb] at hw

/-- An operation on a platform whose tables are in order. -/
theorem Registry.Registered.operate {p : Platform E} (h : (p.registry none).Registered)
    (hs : Safe p.matcher) (op : Operation) :
    ((p.step (.operation op)).registry none).Registered := by
  cases op with
  | step l =>
    obtain ⟨husers, hassets⟩ := step_users_assets hs l
    have hreferences : (p.matcher.step l).db.Referential :=
      step_tables (I := Db.Referential) (fun hs hcmd ho hI => submit_referential hs hcmd ho hI)
        (fun _ ho hI => cancel_referential ho hI) (fun _ he hI => api_referential he hI) hs
        l.adjusts_any h.references
    exact ⟨hreferences, h.users.trans (congrArg (List.map key) husers.symm), h.ids, h.emails,
      h.assets.trans (congrArg (List.map key) hassets.symm), h.symbols⟩
  | setFrozen id frozen faults =>
    have hfrozen := p.matcher.refrozen_call id frozen faults
    have hassets : (p.matcher.call faults (Admin.setFrozen id frozen)).store.db.assets =
        p.matcher.store.db.assets := by rw [hfrozen.db]
    exact ⟨hfrozen.referential h.references, h.users.trans hfrozen.ids.symm, h.ids, h.emails,
      h.assets.trans (congrArg (List.map key) hassets.symm), h.symbols⟩

/-- A growing exchange stays safe. -/
theorem Registry.Effect.safe {p p' : Platform E} {js : List Account}
    (h : (p.registry none).Effect (p'.registry none) js)
    (hbooks : p'.matcher.books = p.matcher.books) (hs : Safe p.matcher) : Safe p'.matcher := by
  obtain ⟨hseqs, hmarkets, horders, -, houtbox⟩ := h.frame
  change p'.matcher.store.seqs = p.matcher.store.seqs at hseqs
  change p'.matcher.store.db.markets = p.matcher.store.db.markets at hmarkets
  change p'.matcher.store.db.orders = p.matcher.store.db.orders at horders
  change p'.matcher.store.db.outbox = p.matcher.store.db.outbox at houtbox
  refine ⟨hs.sound.tables (by rw [hseqs]) horders (fun symbol hm => ?_) (fun c hc => Or.inl ?_),
    hs.backed.of_rows hbooks fun id o ho => (Db.order?_congr horders id).trans ho⟩
  · rwa [Db.market?, hmarkets]
  · rwa [Db.commands, houtbox] at hc

/-- The platform is in order: the matcher, the accounts of the users, and the tables around them. -/
structure Platform.Whole (p : Platform E) : Prop where
  safe : Safe p.matcher
  solvent : p.matcher.db.Solvent
  registered : (p.registry none).Registered

/-- A platform that has not traded yet. -/
structure Platform.Founded (p : Platform E) : Prop where
  initial : p.matcher.Initial
  registered : (p.registry none).Registered

namespace Platform

variable {p p' : Platform E}

theorem Founded.whole (h : p.Founded) : p.Whole where
  safe := initial_safe h.initial
  solvent w hw := ⟨(h.initial.wallets w hw).1, (h.initial.wallets w hw).2.ge⟩
  registered := h.registered

theorem Whole.operate (h : p.Whole) (op : Operation) : (p.step (.operation op)).Whole where
  safe := operate_safe h.safe op
  solvent := by
    cases op with
    | step l =>
      exact step_tables (I := Db.Solvent) (fun hs hcmd ho hI => submit_solvent hs hcmd ho hI)
        (fun _ ho hI => cancel_solvent ho hI) (fun _ he hI => api_solvent he hI) h.safe
        l.adjusts_any h.solvent
    | setFrozen id frozen faults =>
      have hwallets : (p.matcher.call faults (Admin.setFrozen id frozen)).store.db.wallets =
          p.matcher.store.db.wallets := by rw [(p.matcher.refrozen_call id frozen faults).db]
      exact fun w hw => h.solvent w (hwallets ▸ hw)
  registered := h.registered.operate h.safe op

theorem Whole.effect {js : List Account} (h : p.Whole)
    (he : (p.registry none).Effect (p'.registry none) js)
    (hbooks : p'.matcher.books = p.matcher.books) : p'.Whole where
  safe := he.safe hbooks h.safe
  solvent := he.solvent h.solvent
  registered := he.registered h.registered

end Platform

/-! ## What operations keep -/

/-- The operation adjusts no field of a wallet but those in `A`. -/
def Operation.Adjusts (A : WalletField → Prop) : Operation → Prop
  | .step l => l.Adjusts A
  | .setFrozen _ _ _ => True

/-- The operation sets no fee rate but between 0 and 10000 basis points. -/
def Operation.FeesInRange : Operation → Prop
  | .step l => l.FeesInRange
  | .setFrozen _ _ _ => True

section Operations

variable {u a : String} {op : Operation}

/-- What steps keep, and what does not depend on the users. -/
theorem operate_tables {I : Db → Prop} (husers : ∀ {db : Db} {us}, I db → I { db with users := us })
    (hstep : ∀ l, op = .step l → I (m.step l).db) (hI : I m.db) : I (m.operate op).db := by
  cases op with
  | step l => exact hstep l rfl
  | setFrozen id frozen faults =>
    have hdb := (m.refrozen_call id frozen faults).db
    change I (m.call faults (Admin.setFrozen id frozen)).store.db
    rw [hdb]
    exact husers hI

theorem operate_locked (hs : Safe m) (hop : op.Adjusts (· ≠ .locked))
    (h : m.db.locked u a = m.db.reserved u a) :
    (m.operate op).db.locked u a = (m.operate op).db.reserved u a := by
  refine operate_tables (I := fun db => db.locked u a = db.reserved u a) (fun h => h) ?_ h
  rintro l rfl
  exact step_tables (I := fun db => db.locked u a = db.reserved u a)
    (fun hs hcmd ho => submit_locked hs hcmd ho) (fun hs ho => cancel_locked hs ho)
    (fun _ he => api_locked he) hs hop h

theorem operate_reconciles {initial : ℚ} (hs : Safe m) (hop : op.Adjusts fun _ => False)
    (h : m.db.reconciles initial u a) : (m.operate op).db.reconciles initial u a := by
  refine operate_tables (I := Db.reconciles initial u a) (fun h => h) ?_ h
  rintro l rfl
  exact step_tables (I := Db.reconciles initial u a)
    (fun hs hcmd ho => submit_reconciles hs hcmd ho) (fun _ ho => cancel_reconciles ho)
    (fun _ he => api_reconciles he) hs hop h

theorem operate_charged (hs : Safe m) (hop : op.FeesInRange) (h : m.db.Charged) :
    (m.operate op).db.Charged := by
  refine operate_tables (I := Db.Charged) (fun h => ⟨h.markets, h.trades⟩) ?_ h
  rintro l rfl
  exact step_charged hs hop h

end Operations

/-! ## A small platform -/

namespace Sample

/-- The small exchange, with the accounts of `alice` and `bob`. -/
def platform : Platform Engine.priceTime where
  matcher := exchange
  accounts := [⟨"alice", "alice@orbit.dev", "a-hash"⟩, ⟨"bob", "bob@orbit.dev", "b-hash"⟩]
  details := [⟨"BTC", "Bitcoin", 8⟩, ⟨"USDT", "Tether", 6⟩]

theorem platform_founded : platform.Founded where
  initial := exchange_initial
  registered :=
    { references := ⟨by decide +kernel, by decide +kernel, by decide +kernel, by decide +kernel⟩
      users := by decide +kernel
      ids := by decide +kernel
      emails := by decide +kernel
      assets := by decide +kernel
      symbols := by decide +kernel }

/-- Two assets are added and `carol` signs up, who buys a BTC from `bob`. Then an admin tries to
remove an asset that has wallets. -/
def growth : List Activity :=
  [.assetCreate ⟨"KRW", "Korean Won", 0⟩ none, .assetCreate ⟨"ETH", "Ethereum", 8⟩ none,
    .signup "carol@orbit.dev" "c-hash" "carol" none,
    .operation (.step (.submit "bob" (limit .ASK 100 1) none)),
    .operation (.step (.deliver (submitted 0 1 "bob" (limit .ASK 100 1)) none)),
    .operation (.step (.submit "carol" (limit .BID 100 1) none)),
    .operation (.step (.deliver (submitted 3 2 "carol" (limit .BID 100 1)) none)),
    .assetRemove "ETH" none]

end Sample

/-! ## Runs -/

namespace Platform

variable {p : Platform E}

theorem run_whole (h : p.Whole) (acts : List Activity) : (p.run acts).Whole :=
  run_rule (I := fun p _ => p.Whole) (Q := fun _ => True) (k := [])
    (fun {_ _ op} _ hw => hw.operate op) (fun he hbooks hw => hw.effect he hbooks)
    (fun _ _ => trivial) h

/-- **A growing exchange stays in order.** Users sign up, while others are being signed up too, and
assets are added, renamed and removed, in between and in the middle of trading. In every state that
is reached the matcher is safe, no wallet is negative, every row refers to rows that are there
(markets to their assets, wallets to their users and assets, orders and trades to their users), no
two users share an id or an email, and, with exact decimals and as long as no `locked` column is
adjusted by hand, what is locked is what the live orders reserve. -/
theorem grown_whole (h : p.Founded) (acts : List Activity) : (p.run acts).Whole ∧
    ((∀ op, .operation op ∈ acts → op.Adjusts (· ≠ .locked)) → ∀ u a,
      (p.run acts).matcher.db.locked u a = (p.run acts).matcher.db.reserved u a) := by
  refine ⟨run_whole h.whole acts, fun hadjust u a => ?_⟩
  refine (run_rule (I := fun p _ => p.Whole ∧ p.matcher.db.locked u a = p.matcher.db.reserved u a)
    (Q := Operation.Adjusts (· ≠ .locked)) (k := []) (fun {_ _ op} hop hI => ?_)
    (fun {p p' js js'} he hbooks hI => ?_) hadjust ⟨h.whole, ?_⟩).2
  · exact ⟨hI.1.operate op, operate_locked hI.1.safe hop hI.2⟩
  · refine ⟨hI.1.effect he hbooks, (he.locked u a).trans (hI.2.trans ?_)⟩
    obtain ⟨-, hmarkets, horders, -⟩ := he.frame
    change p'.matcher.db.markets = p.matcher.db.markets at hmarkets
    change p'.matcher.db.orders = p.matcher.db.orders at horders
    rw [Db.reserved, Db.reserved, horders, Db.market?_congr hmarkets]
  · exact locked_eq_reserved h.initial [] (by simp) u a

/-- `carol` has joined, and everything is in order. -/
theorem grown_whole_carol : Sample.platform.Founded ∧
    (Sample.platform.run Sample.growth).accounts.map (·.id) = ["alice", "bob", "carol"] ∧
    (Sample.platform.run Sample.growth).Whole :=
  ⟨Sample.platform_founded, by decide +kernel,
    (grown_whole Sample.platform_founded Sample.growth).1⟩

/-- What every account holds: what it held, what it was granted, and what it gained by trading. -/
theorem run_reconciles (h : p.Whole) {acts : List Activity}
    (hadjust : ∀ op, .operation op ∈ acts → op.Adjusts fun _ => False) {initial : ℚ} {u a : String}
    (hr : p.matcher.db.reconciles initial u a) : (p.run acts).matcher.db.reconciles
      (initial + Registry.grants (p.joined acts) u a) u a := by
  refine (run_rule (I := fun p js => p.Whole ∧
      p.matcher.db.reconciles (initial + Registry.grants js u a) u a)
    (Q := Operation.Adjusts fun _ => False) (k := []) (fun {_ _ op} hop hI => ?_)
    (fun {p p' js js'} he hbooks hI => ?_) hadjust ⟨h, ?_⟩).2
  · exact ⟨hI.1.operate op, operate_reconciles hI.1.safe hop hI.2⟩
  · refine ⟨hI.1.effect he hbooks, ?_⟩
    have hbalance := he.balance u a
    have hlocked := he.locked u a
    have hrec := hI.2
    obtain ⟨-, hmarkets, -, htrades, -⟩ := he.frame
    change p'.matcher.db.balance u a = p.matcher.db.balance u a + _ at hbalance
    change p'.matcher.db.locked u a = p.matcher.db.locked u a at hlocked
    change p'.matcher.db.markets = p.matcher.db.markets at hmarkets
    change p'.matcher.db.trades = p.matcher.db.trades at htrades
    unfold Db.reconciles Db.total Db.gains at hrec ⊢
    rw [hbalance, hlocked, htrades, Db.market?_congr hmarkets, Registry.grants_append]
    linarith
  · have hnone : Registry.grants [] u a = 0 := rfl
    rwa [hnone, add_zero]

theorem run_charged (h : p.Whole) (hc : p.matcher.db.Charged) {acts : List Activity}
    (hfees : ∀ op, .operation op ∈ acts → op.FeesInRange) : (p.run acts).matcher.db.Charged := by
  refine (run_rule (I := fun p _ => p.Whole ∧ p.matcher.db.Charged) (Q := Operation.FeesInRange)
    (k := []) (fun {_ _ op} hop hI => ?_) (fun {p p' js js'} he hbooks hI => ?_) hfees ⟨h, hc⟩).2
  · exact ⟨hI.1.operate op, operate_charged hI.1.safe hop hI.2⟩
  · obtain ⟨-, hmarkets, -, htrades, -⟩ := he.frame
    exact ⟨hI.1.effect he hbooks, hI.2.congr hmarkets htrades⟩

/-- What new accounts are granted, summed over users that include them. -/
theorem sum_grants {js : List Account} {U : Finset String} (hU : ∀ j ∈ js, j.id ∈ U) (a : String) :
    ∑ u ∈ U, Registry.grants js u a = js.length * Registry.granted a := by
  induction js with
  | nil => simp [Registry.grants]
  | cons j js ih =>
    have hcons : ∀ u, Registry.grants (j :: js) u a =
        (if j.id = u then Registry.granted a else 0) + Registry.grants js u a := fun u => by
      rw [Registry.grants, List.map_cons, List.sum_cons]
      rfl
    simp only [hcons, Finset.sum_add_distrib, Finset.sum_ite_eq, hU j List.mem_cons_self, if_true]
    rw [ih fun x hx => hU x (List.mem_cons_of_mem j hx), List.length_cons]
    push_cast
    ring

/-- **Where the money of a growing exchange comes from.** With exact decimals, and as long as no
wallet is adjusted by hand, in every state that is reached the balance and the locked amount of each
wallet add up to the initial total, what the user was granted by signing up, and what the trade rows
say that it gained. Where the fee rates stay between 0 and 10000 basis points, the supply of an
asset is the initial one and a grant for each signup, less what the fees withhold. -/
theorem grown_total (h : p.Founded) (acts : List Activity)
    (hadjust : ∀ op, .operation op ∈ acts → op.Adjusts fun _ => False) :
    (∀ u a, (p.run acts).matcher.db.total u a = p.matcher.db.total u a +
      Registry.grants (p.joined acts) u a + (p.run acts).matcher.db.gains u a) ∧
    ((∀ market ∈ p.matcher.db.markets, market.FeesInRange) →
      (∀ op, .operation op ∈ acts → op.FeesInRange) → ∀ a,
        (p.run acts).matcher.db.supply a = p.matcher.db.supply a +
          (p.joined acts).length * Registry.granted a - (p.run acts).matcher.db.fees a) := by
  have htotal : ∀ u a, (p.run acts).matcher.db.total u a = p.matcher.db.total u a +
      Registry.grants (p.joined acts) u a + (p.run acts).matcher.db.gains u a := by
    intro u a
    refine run_reconciles h.whole hadjust ?_
    rw [Db.reconciles, Db.gains, h.initial.trades, List.map_nil, List.sum_nil, add_zero]
  refine ⟨htotal, fun hfees hsets a => ?_⟩
  have hc : (p.run acts).matcher.db.Charged := by
    refine run_charged h.whole ⟨hfees, fun t ht => ?_⟩ hsets
    rw [h.initial.trades] at ht
    cases ht
  -- the holders before and after, the parties of the trades, and the new users
  let parties := (p.run acts).matcher.db.trades.flatMap fun t => [t.makerUserId, t.takerUserId]
  let U := (p.matcher.db.holders ++ (p.run acts).matcher.db.holders ++ parties ++
    (p.joined acts).map (·.id)).toFinset
  have hparties : ∀ t ∈ (p.run acts).matcher.db.trades,
      t.makerUserId ∈ U ∧ t.takerUserId ∈ U := by
    intro t ht
    have hmem : ∀ u ∈ [t.makerUserId, t.takerUserId], u ∈ U := fun u hu =>
      List.mem_toFinset.mpr (List.mem_append_left _ (List.mem_append_right _
        (List.mem_flatMap.mpr ⟨t, ht, hu⟩)))
    exact ⟨hmem _ (by simp), hmem _ (by simp)⟩
  have hnew : ∀ j ∈ p.joined acts, j.id ∈ U := fun j hj =>
    List.mem_toFinset.mpr (List.mem_append_right _ (List.mem_map_of_mem hj))
  rw [Db.supply_eq_sum (p.run acts).matcher.db a (U := U) fun u hu => by simp [U, hu],
    Db.supply_eq_sum p.matcher.db a (U := U) fun u hu => by simp [U, hu]]
  have hgains : ∑ u ∈ U, (p.run acts).matcher.db.gains u a = -(p.run acts).matcher.db.fees a :=
    sum_gains (fun t ht => ⟨(hc.trades t ht).sides, (hc.trades t ht).quantity⟩) hparties
  simp only [htotal, Finset.sum_add_distrib]
  rw [hgains, sum_grants hnew]
  ring

/-- `carol` was granted a BTC, and bought one less the fee. -/
theorem grown_total_carol : Sample.platform.Founded ∧
    (∀ op, .operation op ∈ Sample.growth → op.Adjusts fun _ => False) ∧
    (Sample.platform.run Sample.growth).matcher.db.total "carol" "BTC" =
      Sample.platform.matcher.db.total "carol" "BTC" +
        Registry.grants (Sample.platform.joined Sample.growth) "carol" "BTC" +
        (Sample.platform.run Sample.growth).matcher.db.gains "carol" "BTC" ∧
    (Sample.platform.run Sample.growth).matcher.db.total "carol" "BTC" = 199 / 100 := by
  have hadjust : ∀ op, .operation op ∈ Sample.growth → op.Adjusts fun _ => False := by
    intro op hop
    simp only [Sample.growth, List.mem_cons, List.not_mem_nil, or_false, reduceCtorEq, false_or,
      Activity.operation.injEq] at hop
    rcases hop with rfl | rfl | rfl | rfl <;> trivial
  exact ⟨Sample.platform_founded, hadjust,
    (grown_total Sample.platform_founded Sample.growth hadjust).1 "carol" "BTC", by decide +kernel⟩

/-! ## Logging in -/

theorem run_accounts (p : Platform E) (acts : List Activity) :
    (p.run acts).accounts = p.accounts ++ p.joined acts := by
  refine run_rule (I := fun p' js => p'.accounts = p.accounts ++ js) (Q := fun _ => True)
    (fun _ h => h) (fun {p₁ p₂ js js'} he _ h => ?_) (fun _ _ => trivial)
    (List.append_nil _).symm
  have haccounts : p₂.accounts = p₁.accounts ++ js' := he.accounts
  rw [haccounts, h, List.append_assoc]

/-- A login that can read the database. -/
theorem answer_login (p : Platform E) (verify : String → String → Bool) (email password : String) :
    p.answer none (Registry.login verify email password) =
      .ok (Registry.loginAccount verify email password (p.registry none)) := rfl

/-- **Who can log in.** In every state that is reached a login succeeds with an email and a password
exactly when a signup returned an account with that email, in the run or before it, and the password
is the one that the account was created with. Then the login is to that account. -/
theorem grown_login (h : p.Founded) (acts : List Activity) (verify : String → String → Bool)
    (email password : String) (a : Account) :
    (p.run acts).answer none (Registry.login verify email password) = .ok (some a) ↔
      a ∈ p.accounts ++ p.joined acts ∧ a.email = email ∧
        verify a.passwordHash password = true := by
  have hemails : ((p.run acts).accounts.map key).Nodup :=
    (run_whole h.whole acts).registered.emails
  have haccounts := run_accounts p acts
  rw [answer_login, Except.ok.injEq, Registry.loginAccount_iff, ← haccounts, ← and_assoc]
  refine and_congr_left fun _ => ⟨fun hfind => ?_, ?_⟩
  · exact ⟨mem_of_find? hfind, key_of_find? hfind⟩
  · rintro ⟨hmem, rfl⟩
    exact find?_of_mem hemails hmem

/-- `carol` logs in with the password that the hash was made of. -/
theorem grown_login_carol : Sample.platform.Founded ∧
    (Sample.platform.run Sample.growth).answer none
      (Registry.login (fun hash password => hash = password ++ "-hash") "carol@orbit.dev" "c") =
        .ok (some ⟨"carol", "carol@orbit.dev", "c-hash"⟩) :=
  ⟨Sample.platform_founded, (grown_login Sample.platform_founded Sample.growth _ _ _ _).mpr
    ⟨by decide +kernel, rfl, by decide +kernel⟩⟩

end Platform

end Orbit
