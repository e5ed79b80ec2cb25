import Orbit.Api.Acceptance
import Orbit.Matcher.Executions
import Orbit.Matcher.Progress

/-!
# Bystanders

What the exchange does for some of its users leaves the others alone. `Db.Untouched u` says that the
accounts, the orders and the trades of the user `u` are as they were. A user none of whose orders is
live is untouched by every command and by every call that is not its own (`step_untouched`): neither
trading, nor fees, nor the restart of the matcher, nor a failure in the middle of any of them
reaches its accounts.

An admin can freeze a user. A frozen user's own requests are refused, so that from then on its
accounts are untouched by anything but an admin's `adjust`: `frozen_untouched`.
-/

namespace Orbit

open PriceTime Settler Consumer

/-! ## Postings of others -/

/-- No posting is one of the user. -/
def Spares (u : String) (ps : List Posting) : Prop := ∀ p ∈ ps, p.userId ≠ u

namespace Spares

variable {u : String} {ps qs : List Posting}

theorem nil : Spares u [] := fun _ hp => absurd hp List.not_mem_nil

theorem append (hp : Spares u ps) (hq : Spares u qs) : Spares u (ps ++ qs) := by
  intro p hmem
  rcases List.mem_append.mp hmem with h | h
  · exact hp p h
  · exact hq p h

theorem balanceSum (h : Spares u ps) (a : String) : Posting.balanceSum u a ps = 0 := by
  induction ps with
  | nil => rfl
  | cons p ps ih =>
    have hne : ¬(p.userId = u ∧ p.asset = a) := fun e => h p List.mem_cons_self e.1
    rw [Posting.balanceSum_cons, if_neg hne, zero_add]
    exact ih fun x hx => h x (List.mem_cons_of_mem p hx)

theorem lockedSum (h : Spares u ps) (a : String) : Posting.lockedSum u a ps = 0 := by
  induction ps with
  | nil => rfl
  | cons p ps ih =>
    have hne : ¬(p.userId = u ∧ p.asset = a) := fun e => h p List.mem_cons_self e.1
    rw [Posting.lockedSum_cons, if_neg hne, zero_add]
    exact ih fun x hx => h x (List.mem_cons_of_mem p hx)

end Spares

section Postings

variable {u : String} {market : Market} {o : Order} {p : Posting}

/-- A posting of the user of the order, in one of the two assets of the market. -/
structure Posting.Of (market : Market) (o : Order) (p : Posting) : Prop where
  userId : p.userId = o.userId
  asset : p.asset = market.baseAsset ∨ p.asset = market.quoteAsset

theorem of_lockPostings (hp : p ∈ lockPostings market o) : p.Of market o := by
  unfold lockPostings at hp
  split at hp
  · rw [List.mem_singleton.mp hp]
    exact ⟨rfl, Or.inr rfl⟩
  · rw [List.mem_singleton.mp hp]
    exact ⟨rfl, Or.inl rfl⟩
  · cases hp

theorem of_releasePostings (hp : p ∈ releasePostings market o) : p.Of market o := by
  unfold releasePostings at hp
  split at hp
  · split at hp
    · rw [List.mem_singleton.mp hp]
      exact ⟨rfl, Or.inr rfl⟩
    · cases hp
    · rw [List.mem_singleton.mp hp]
      exact ⟨rfl, Or.inl rfl⟩
  · cases hp

theorem of_residualPostings {remaining : ℚ} (hp : p ∈ residualPostings market o remaining) :
    p.Of market o := by
  unfold residualPostings at hp
  split at hp
  · rw [List.mem_singleton.mp hp]
    exact ⟨rfl, Or.inl rfl⟩
  · cases hp

theorem of_makerPostings {price qty rate : ℚ} (hp : p ∈ makerPostings market o price qty rate) :
    p.Of market o := by
  unfold makerPostings at hp
  split at hp
  · rcases List.mem_pair.mp hp with rfl | rfl
    · exact ⟨rfl, Or.inl rfl⟩
    · exact ⟨rfl, Or.inr rfl⟩
  · rcases List.mem_pair.mp hp with rfl | rfl
    · exact ⟨rfl, Or.inr rfl⟩
    · exact ⟨rfl, Or.inl rfl⟩

theorem of_takerPostings {price qty rate : ℚ} (hp : p ∈ takerPostings market o price qty rate) :
    p.Of market o := by
  unfold takerPostings at hp
  split at hp
  · rcases List.mem_pair.mp hp with rfl | rfl
    · split <;> exact ⟨rfl, Or.inr rfl⟩
    · exact ⟨rfl, Or.inl rfl⟩
  · rcases List.mem_pair.mp hp with rfl | rfl
    · exact ⟨rfl, Or.inl rfl⟩
    · exact ⟨rfl, Or.inr rfl⟩

/-- The postings of trades are the taker's and the makers'. -/
theorem of_tradePostings {db : Db} {rates : FeeRates} {ts : List EngineTrade}
    (hp : p ∈ tradePostings db market o rates ts) : p.Of market o ∨
      ∃ t ∈ ts, ∃ maker, db.order? t.makerOrderId = some maker ∧ p.Of market maker := by
  obtain ⟨t, ht, hp⟩ := List.mem_flatMap.mp hp
  cases hmaker : db.order? t.makerOrderId with
  | none =>
    rw [hmaker] at hp
    cases hp
  | some maker =>
    rw [hmaker] at hp
    rcases List.mem_append.mp hp with hp | hp
    · exact Or.inr ⟨t, ht, maker, hmaker, of_makerPostings hp⟩
    · exact Or.inl (of_takerPostings hp)

/-- An order of another user has postings of others. -/
theorem Spares.of_order {ps : List Posting} (hps : ∀ p ∈ ps, p.Of market o) (hu : o.userId ≠ u) :
    Spares u ps := fun p hp => (hps p hp).userId ▸ hu

/-- The trades of an order with makers of others. -/
theorem spares_tradePostings {db : Db} {taker : Order} {rates : FeeRates} {ts : List EngineTrade}
    (hu : taker.userId ≠ u)
    (hm : ∀ t ∈ ts, ∀ maker, db.order? t.makerOrderId = some maker → maker.userId ≠ u) :
    Spares u (tradePostings db market taker rates ts) := by
  intro p hp
  rcases of_tradePostings hp with hof | ⟨t, ht, maker, hmaker, hof⟩
  · exact hof.userId ▸ hu
  · exact hof.userId ▸ hm t ht maker hmaker

end Postings

/-! ## What is untouched -/

/-- **The accounts, the orders and the trades of the user are as they were.** -/
structure Db.Untouched (u : String) (db db' : Db) : Prop where
  balance : ∀ a, db'.balance u a = db.balance u a
  locked : ∀ a, db'.locked u a = db.locked u a
  orders : ∀ id o, o.userId = u → (db'.order? id = some o ↔ db.order? id = some o)
  trades : ∀ t, t.makerUserId = u ∨ t.takerUserId = u → (t ∈ db'.trades ↔ t ∈ db.trades)

/-- No order of the user is live. -/
def Db.Closed (u : String) (db : Db) : Prop :=
  ∀ id o, db.order? id = some o → o.userId = u → o.terminal = true

namespace Db.Untouched

variable {u : String} {db db₁ db' : Db}

theorem refl (u : String) (db : Db) : Untouched u db db :=
  ⟨fun _ => rfl, fun _ => rfl, fun _ _ _ => Iff.rfl, fun _ _ => Iff.rfl⟩

theorem trans (h₁ : Untouched u db db₁) (h₂ : Untouched u db₁ db') : Untouched u db db' where
  balance a := (h₂.balance a).trans (h₁.balance a)
  locked a := (h₂.locked a).trans (h₁.locked a)
  orders id o hu := (h₂.orders id o hu).trans (h₁.orders id o hu)
  trades t hu := (h₂.trades t hu).trans (h₁.trades t hu)

theorem closed (h : Untouched u db db') (hc : db.Closed u) : db'.Closed u :=
  fun id o ho hu => hc id o ((h.orders id o hu).mp ho) hu

/-- Where postings of others were made, and the other tables are as they were. -/
theorem of_posted {ps : List Posting} (hp : Posted db db' ps) (hs : Spares u ps)
    (ho : db'.orders = db.orders) (ht : db'.trades = db.trades) : Untouched u db db' where
  balance a := by rw [hp.balance, hs.balanceSum, add_zero]
  locked a := by rw [hp.locked, hs.lockedSum, add_zero]
  orders id o _ := by rw [Db.order?_congr ho]
  trades t _ := by rw [ht]

end Db.Untouched

/-! ## Commands -/

variable {E : Engine} {m m' : Matcher E} {u : String}

/-- An order that is live is of another user. -/
theorem Db.Closed.ne {db : Db} (hc : db.Closed u) {id : ℕ} {o : Order}
    (ho : db.order? id = some o) (hlive : o.terminal = false) : o.userId ≠ u := by
  intro hu
  rw [hc id o ho hu] at hlive
  cases hlive

/-- **A committed submit leaves alone** who has no live order. -/
theorem Settler.Submitted.untouched {market : Market} {order : Order} {cmd : OrderSubmitCommand}
    {fs : List (Fill ℕ ℚ ℚ)} {finish : Order → Order} {release : List Posting} {q : Queues}
    {rest : List (Resting ℕ ℚ ℚ)} (h : Submitted market order cmd fs finish release q m m')
    (hs : Safe m) (hc : Crossing m cmd.symbol order finish fs rest) (hlive : order.terminal = false)
    (hclosed : m.db.Closed u) (hrelease : Spares u release)
    (hkeep : ∀ {id o}, m.db.order? id = some o → o.terminal = true → m'.db.order? id = some o) :
    m.db.Untouched u m'.db := by
  have huser : order.userId ≠ u := hclosed.ne hc.horder hlive
  have hmakers : ∀ f ∈ fs, ∀ maker, m.db.order? f.id = some maker → maker.userId ≠ u := by
    intro f hf maker hm
    obtain ⟨maker', hmakes⟩ := hs.backed.makes tracks_le hc.consumed hf
    obtain rfl : maker' = maker := Option.some.inj (hmakes.row.symm.trans hm)
    exact hclosed.ne hm (Order.terminal_eq_false hmakes.active)
  obtain ⟨rows, db₁, hset, horders, htrades, hposted⟩ := h.settled
  have hspared : Spares u (tradePostings m.db market order
      ⟨feeRate market.makerFeeBp, feeRate market.takerFeeBp⟩ (fs.map .ofFill)) := by
    refine spares_tradePostings huser fun t ht maker hm => ?_
    obtain ⟨f, hf, rfl⟩ := List.mem_map.mp ht
    exact hmakers f hf maker hm
  have hall : Posted m.db m'.db _ :=
    (hset.posted (by rw [map_makerOrderId]; exact hc.nodup)).trans hposted
  refine
    { balance := fun a => by rw [hall.balance, (hspared.append hrelease).balanceSum, add_zero]
      locked := fun a => by rw [hall.locked, (hspared.append hrelease).lockedSum, add_zero]
      orders := fun id o hu => ⟨fun ho' => ?_, fun ho => hkeep ho (hclosed id o ho hu)⟩
      trades := fun t hu => ?_ }
  · -- the row that it was is closed, and has stayed as it was
    obtain ⟨o₀, ho₀, hfix, -⟩ := h.exists_row hc hs.sound tracks_le hs.backed ho'
    have hclosed₀ := hclosed id o₀ ho₀ (hfix.userId.symm.trans hu)
    obtain rfl : o = o₀ := Option.some.inj (ho'.symm.trans (hkeep ho₀ hclosed₀))
    exact ho₀
  · rw [htrades, hset.trades, List.mem_append]
    refine ⟨fun hmem => ?_, Or.inl⟩
    rcases hmem with hmem | hmem
    · exact hmem
    · obtain ⟨t', ht', maker, hm, hr⟩ := hset.records t hmem
      obtain ⟨f, hf, rfl⟩ := List.mem_map.mp ht'
      rw [hr.makerUserId, hr.takerUserId] at hu
      rcases hu with hu | hu
      · exact absurd hu (hmakers f hf maker hm)
      · exact absurd hu huser

theorem submit_untouched {cmd : OrderSubmitCommand} {r : Except Failure Result} (hs : Safe m)
    (hcmd : OrderCommand.SUBMIT cmd ∈ m.db.commands) (h : SubmitOutcome cmd m r m')
    (hclosed : m.db.Closed u) : m.db.Untouched u m'.db := by
  have hkeep : ∀ {id o}, m.db.order? id = some o → o.terminal = true →
      m'.db.order? id = some o := fun ho ht => submit_terminal hs hcmd h ho ht
  rcases h.unchanged_or with hdb | rfl
  · rw [hdb]
    exact .refl u m.db
  cases h with
  | committedLimit market order price hb ht hp hid hsub =>
    exact hsub.untouched hs (crossing_limit price hs.sound hcmd hb ht hid) hb.live hclosed .nil
      hkeep
  | committedMarket market order l hb ht hl hsub =>
    have huser : order.userId ≠ u := hclosed.ne hb.horder hb.live
    exact hsub.untouched hs (crossing_market hs.sound hs.backed hcmd hb ht hl) hb.live hclosed
      (.of_order (fun _ hp => of_residualPostings hp) huser) hkeep

/-- **A committed cancel leaves alone** whose order it is not. -/
theorem Settler.Cancelled.untouched {market : Market} {order : Order} {id₀ : ℕ}
    (hc : Cancelled market order m m') (ho : m.db.order? id₀ = some order)
    (huser : order.userId ≠ u) : m.db.Untouched u m'.db := by
  have hspared : Spares u (releasePostings market order) :=
    .of_order (fun _ hp => of_releasePostings hp) huser
  refine
    { balance := fun a => by rw [hc.posted.balance, hspared.balanceSum, add_zero]
      locked := fun a => by rw [hc.posted.locked, hspared.lockedSum, add_zero]
      orders := fun id o hu => ?_
      trades := fun t _ => by rw [hc.trades] }
  rw [Db.order?_of_modify hc.orders (fun _ => rfl)]
  by_cases hid : id = order.id
  · -- the row of the cancelled order is of another user, before and after
    subst hid
    have hrow : m.db.order? order.id = some order := by rw [Db.order?_id ho, ho]
    rw [if_pos rfl, hrow, Option.map_some]
    constructor
    · rintro ⟨rfl⟩
      exact absurd hu huser
    · rintro ⟨rfl⟩
      exact absurd hu huser
  · rw [if_neg hid]

theorem cancel_untouched {cmd : OrderCancelCommand} {r : Except Failure Result}
    (h : CancelOutcome cmd m r m') (hclosed : m.db.Closed u) : m.db.Untouched u m'.db := by
  rcases h.unchanged_or with hdb | ⟨market, order, ho, hm, live, hc⟩
  · rw [hdb]
    exact .refl u m.db
  · exact hc.untouched ho (hclosed.ne ho live)

/-! ## Steps -/

/-- The step is none of the user's own, and adjusts none of its wallets. -/
def Step.Spares (u : String) : Step → Prop
  | .submit userId _ _ => userId ≠ u
  | .adjust userId _ _ _ _ => userId ≠ u
  | _ => True

/-- An order placed by another user. -/
theorem Placed.untouched {s s' : Store} {o : Order} {market : Market} {cmd : OrderSubmitCommand}
    (h : Placed s s' o market cmd) (hs : s.Sound) (hu : o.userId ≠ u) :
    s.db.Untouched u s'.db := by
  have hspared : Spares u (lockPostings market o) :=
    .of_order (fun _ hp => of_lockPostings hp) hu
  refine
    { balance := fun a => by rw [h.posted.balance, hspared.balanceSum, add_zero]
      locked := fun a => by rw [h.posted.locked, hspared.lockedSum, add_zero]
      orders := fun id x hx => ?_
      trades := fun t _ => by rw [h.trades] }
  rw [h.order? hs]
  by_cases hid : id = o.id
  · subst hid
    rw [if_pos rfl, h.order?_none hs]
    constructor
    · rintro ⟨rfl⟩
      exact absurd hx hu
    · intro hnone
      cases hnone
  · rw [if_neg hid]

/-- A request to submit leaves other users alone, and its own if it is frozen. -/
theorem submitCall_untouched {userId : String} {dto : CreateOrderDto} {s s' : Store}
    {r : Except Failure Order} (hs : s.Sound) (h : OrderService.submit userId dto s = (r, s'))
    (hu : userId ≠ u ∨ ∀ user, s.db.user? u = some user → user.frozen = true) :
    s.db.Untouched u s'.db := by
  cases r with
  | error e =>
    rw [OrderService.submit_eq_error h]
    exact .refl u s.db
  | ok o =>
    obtain ⟨market, cmd, hplaced⟩ := OrderService.submit_eq_ok h
    obtain ⟨market', hacc, hw⟩ := OrderService.submit_writes h
    refine hplaced.untouched hs ?_
    have huser : o.userId = userId := by rw [hw.order]; rfl
    rw [huser]
    rcases hu with hne | hfrozen
    · exact hne
    · -- a frozen user's request is refused
      rintro rfl
      obtain ⟨user, hfind, hnot⟩ := hacc.user
      rw [hfrozen user hfind] at hnot
      cases hnot

/-- An adjusted wallet of another user. -/
theorem adjusted_untouched {db db' : Db} {userId asset : String} {field : WalletField} {value : ℚ}
    (hdb : db' = { db with
      wallets := Table.modify (userId, asset) (Admin.setField field value) db.wallets })
    (hu : userId ≠ u) : db.Untouched u db' := by
  have hwallet : ∀ a, db'.wallet? u a = db.wallet? u a := by
    intro a
    have hkey : ∀ w, Table.key (Admin.setField field value w) = Table.key w := by
      intro w
      cases field <;> rfl
    have hne : ¬(userId, asset) = (u, a) := fun e => hu (Prod.mk.inj e).1
    rw [hdb]
    unfold Db.wallet?
    rw [Table.find?_modify hkey, if_neg fun e => hne e.symm]
  exact
    { balance := fun a => by rw [Db.balance, Db.balance, hwallet]
      locked := fun a => by rw [Db.locked, Db.locked, hwallet]
      orders := fun id o _ => by rw [hdb]; rfl
      trades := fun t _ => by rw [hdb] }

/-- Where neither the accounts, nor the orders, nor the trades change. -/
theorem Db.Untouched.of_eq {db db' : Db} (hw : db'.wallets = db.wallets)
    (ho : db'.orders = db.orders) (ht : db'.trades = db.trades) : db.Untouched u db' :=
  .of_posted (Posted.refl_of_wallets hw) .nil ho ht

/-- **A step leaves a user alone** that has no live order, when it is neither a request of the user,
unless the user is frozen, nor an admin's adjustment of its wallets. -/
theorem step_untouched (hs : Safe m) {l : Step} (hclosed : m.db.Closed u)
    (hl : l.Spares u ∨ (∀ user, m.db.user? u = some user → user.frozen = true) ∧
      ∀ asset field delta faults, l ≠ .adjust u asset field delta faults) :
    m.db.Untouched u (m.step l).db := by
  cases l with
  | submit userId dto faults =>
    rcases h : OrderService.submit userId dto { m.store with faults } with ⟨r, s'⟩
    rw [Matcher.step, Matcher.call_db h]
    have hs₀ := (hs.of_same (m.same_withFaults faults)).sound
    exact submitCall_untouched (s := { m.store with faults }) hs₀ h (hl.imp id And.left)
  | cancel userId orderId faults =>
    rcases h : OrderService.cancel userId orderId { m.store with faults } with ⟨r, s'⟩
    rw [Matcher.step, Matcher.call_db h]
    rcases OrderService.cancel_cases h with hdb | ⟨cmd, o, hreq⟩
    · rw [hdb]
      exact .refl u m.db
    · obtain ⟨row, -, -, hdb⟩ := hreq.outbox
      rw [hdb]
      exact .of_eq rfl rfl rfl
  | forceCancel orderId faults =>
    rcases h : Admin.forceCancel orderId { m.store with faults } with ⟨r, s'⟩
    rw [Matcher.step, Matcher.call_db h]
    rcases Admin.forceCancel_cases h with hdb | ⟨cmd, o, hreq⟩
    · rw [hdb]
      exact .refl u m.db
    · obtain ⟨row, -, -, hdb⟩ := hreq.outbox
      rw [hdb]
      exact .of_eq rfl rfl rfl
  | deliver cmd faults =>
    change m.db.Untouched u (m.deliver cmd faults).db
    rcases deliver_eq m cmd faults with ⟨-, e⟩ | ⟨hcmd, r, m₁, hd, e⟩
    · rw [e]
      exact .refl u m.db
    · rw [e]
      have hs₀ := hs.of_same (m.same_withFaults faults)
      cases cmd with
      | SUBMIT cmd =>
        have houtcome := dispatch_submit_of_sound hs₀.sound hd
        have huntouched := submit_untouched hs₀ hcmd houtcome hclosed
        exact huntouched
      | CANCEL cmd =>
        have huntouched := cancel_untouched (dispatch_cancel hd) hclosed
        exact huntouched
  | restart => exact .refl u m.db
  | marketUpdate symbol input faults =>
    rcases h : Admin.marketUpdate symbol input { m.store with faults } with ⟨r, s'⟩
    rw [Matcher.step, Matcher.call_db h]
    rcases Admin.marketUpdate_cases h with hdb | hdb
    · rw [hdb]
      exact .refl u m.db
    · rw [hdb]
      exact .of_eq rfl rfl rfl
  | adjust userId asset field delta faults =>
    have hne : userId ≠ u := by
      rcases hl with hl | ⟨-, hl⟩
      · exact hl
      · rintro rfl
        exact hl asset field delta faults rfl
    rcases h : Admin.adjust userId asset field delta { m.store with faults } with ⟨r, s'⟩
    rw [Matcher.step, Matcher.call_db h]
    rcases Admin.adjust_cases h with hdb | ⟨w, value, -, -, hdb⟩
    · rw [hdb]
      exact .refl u m.db
    · exact adjusted_untouched hdb hne
  | tick now => exact .refl u m.db

/-! ## Frozen users -/

/-- The user is frozen, if it is a user at all. -/
def Db.Frozen (u : String) (db : Db) : Prop := ∀ user, db.user? u = some user → user.frozen = true

/-- What freezing the user `id`, or lifting it, can do: at most that to the row of the user. -/
structure Store.Refrozen (id : String) (frozen : Bool) (s s' : Store) : Prop where
  seq : s.seqs.order ≤ s'.seqs.order
  db : s'.db = { s.db with users := s'.db.users }
  ids : s'.db.users.map Table.key = s.db.users.map Table.key
  users : ∀ v user', s'.db.user? v = some user' → ∃ user, s.db.user? v = some user ∧
    (user'.frozen = user.frozen ∨ v = id ∧ user'.frozen = frozen)

namespace Store.Refrozen

variable {id : String} {frozen : Bool} {s s₁ s₂ s₃ s' : Store}

theorem of_db (hseq : s.seqs.order ≤ s'.seqs.order) (h : s'.db = s.db) :
    s.Refrozen id frozen s' where
  seq := hseq
  db := by rw [h]
  ids := by rw [h]
  users v user' hu := ⟨user', by rwa [h] at hu, Or.inl rfl⟩

theorem trans (h₁ : s₁.Refrozen id frozen s₂) (h₂ : s₂.Refrozen id frozen s₃) :
    s₁.Refrozen id frozen s₃ where
  seq := h₁.seq.trans h₂.seq
  db := by
    have h := h₂.db
    rw [h₁.db] at h
    exact h
  ids := h₂.ids.trans h₁.ids
  users v user₃ hu₃ := by
    obtain ⟨user₂, hu₂, h₂⟩ := h₂.users v user₃ hu₃
    obtain ⟨user₁, hu₁, h₁⟩ := h₁.users v user₂ hu₂
    refine ⟨user₁, hu₁, ?_⟩
    rcases h₂ with h₂ | h₂
    · rw [h₂]
      exact h₁
    · exact Or.inr h₂

theorem untouched (h : s.Refrozen id frozen s') : s.db.Untouched u s'.db := by
  rw [h.db]
  exact .of_eq rfl rfl rfl

end Store.Refrozen

open Stm in
/-- **`setFrozen`** writes at most one column of one row of the users. -/
theorem refrozen_setFrozen (id : String) (frozen : Bool) :
    Tx.Keeps (Store.Refrozen id frozen) (Admin.setFrozen id frozen) := by
  have hread : ∀ {α : Type} {x : Stm α}, Reads x → Draws x →
      Tx.Keeps (Store.Refrozen id frozen) x := fun hx hd s => .of_db (hd s) (hx s)
  have hfail : ∀ {α : Type} (e : Failure),
      Tx.Keeps (Store.Refrozen id frozen) (Tx.fail e : Stm α) := fun e =>
    hread (reads_fail e) (Frames.fail e).draws
  refine Tx.Keeps.bind .trans (hread (reads_query _) (frames_query _).draws) fun user? => ?_
  cases user? with
  | none => exact hfail _
  | some user =>
    refine Tx.Keeps.bind .trans (fun s => ?_) fun _ s => ?_
    · -- the `UPDATE`
      have hseq := draws_write (Admin.userUpdate id frozen)
      rcases h : write (Admin.userUpdate id frozen) s with ⟨e | x, s'⟩
      · exact .of_db (hseq.of_eq h) (reverts_write _ s e s' h)
      · have hle := hseq.of_eq h
        obtain ⟨db, fl, hdb, rfl⟩ := write_eq_ok h
        unfold Admin.userUpdate at hdb
        split at hdb
        · cases hdb
        · obtain rfl := Except.ok.inj hdb
          refine ⟨hle, rfl, Table.map_key_modify (f := fun u : User => { u with frozen })
            (fun _ => rfl) _, fun v user' hu => ?_⟩
          have hfind : (Table.find? v (Table.modify id (fun u : User => { u with frozen })
            s.db.users)) = some user' := hu
          rw [Table.find?_modify (f := fun u : User => { u with frozen }) (fun _ => rfl)] at hfind
          split at hfind
          · rename_i hv
            obtain ⟨user₀, h₀, rfl⟩ := Option.map_eq_some_iff.mp hfind
            exact ⟨user₀, h₀, Or.inr ⟨hv, rfl⟩⟩
          · exact ⟨user', hfind, Or.inl rfl⟩
    · -- the row that it returns
      simp only [Tx.get_bind_apply]
      cases s.db.user? id <;> exact .of_db le_rfl rfl

/-! ## Runs -/

/-- What is done to the exchange: a step of it, or an admin freezes a user or lifts it. -/
inductive Operation
  | step (l : Step)
  | setFrozen (id : String) (frozen : Bool) (faults : Option ℕ)
  deriving DecidableEq, Repr

namespace Matcher

def operate (m : Matcher E) : Operation → Matcher E
  | .step l => m.step l
  | .setFrozen id frozen faults => m.call faults (Admin.setFrozen id frozen)

def operates (m : Matcher E) (ops : List Operation) : Matcher E := ops.foldl operate m

theorem refrozen_call (m : Matcher E) (id : String) (frozen : Bool) (faults : Option ℕ) :
    m.store.Refrozen id frozen (m.call faults (Admin.setFrozen id frozen)).store := by
  have h := refrozen_setFrozen id frozen { m.store with faults }
  exact ⟨h.seq, h.db, h.ids, h.users⟩

end Matcher

theorem operate_safe (hs : Safe m) (op : Operation) : Safe (m.operate op) := by
  cases op with
  | step l => exact step_safe hs l
  | setFrozen id frozen faults =>
    have h := m.refrozen_call id frozen faults
    change Safe (m.call faults (Admin.setFrozen id frozen))
    generalize hm' : m.call faults (Admin.setFrozen id frozen) = m' at h
    have hdb : m'.db = { m.db with users := m'.db.users } := h.db
    have hbooks : m'.books = m.books := by
      rw [← hm']
      rfl
    have horder : ∀ k, m'.db.order? k = m.db.order? k := fun k => Db.order?_congr (by rw [hdb]) k
    refine ⟨hs.sound.tables h.seq (by rw [h.db]) (fun symbol hm => ?_) (fun c hc => Or.inl ?_),
      hs.backed.of_rows hbooks fun k o ho => (horder k).trans ho⟩
    · rw [h.db]
      exact hm
    · rw [h.db] at hc
      exact hc

theorem operates_safe (h : m.Initial) (ops : List Operation) : Safe (m.operates ops) := by
  have hrun : ∀ (ops : List Operation) (m : Matcher E), Safe m → Safe (m.operates ops) := by
    intro ops
    induction ops with
    | nil => exact fun _ hs => hs
    | cons op ops ih => exact fun m hs => ih _ (operate_safe hs op)
  exact hrun ops m (initial_safe h)

theorem ApiEffect.users_assets {A : WalletField → Prop} {s s' : Store} (h : ApiEffect A s s') :
    s'.db.users = s.db.users ∧ s'.db.assets = s.db.assets := by
  cases h with
  | idle hseq hdb => exact ⟨by rw [hdb], by rw [hdb]⟩
  | placed o market cmd h => exact ⟨h.users, h.assets⟩
  | requested cmd o hseq h =>
    obtain ⟨row, -, -, hdb⟩ := h.outbox
    exact ⟨by rw [hdb], by rw [hdb]⟩
  | marketChanged symbol input hseq hdb => exact ⟨by rw [hdb], by rw [hdb]⟩
  | adjusted userId asset field w value hfield hseq hw hn hdb =>
    exact ⟨by rw [hdb], by rw [hdb]⟩

/-- The steps of the exchange leave the users and the assets alone. -/
theorem step_users_assets (hs : Safe m) (l : Step) :
    (m.step l).db.users = m.db.users ∧ (m.step l).db.assets = m.db.assets := by
  refine step_tables (I := fun db => db.users = m.db.users ∧ db.assets = m.db.assets)
    (fun _ _ h hI => ?_) (fun _ h hI => ?_) (fun _ h hI => ?_) hs l.adjusts_any ⟨rfl, rfl⟩
  · exact ⟨h.framed.users.trans hI.1, h.framed.assets.trans hI.2⟩
  · exact ⟨h.framed.users.trans hI.1, h.framed.assets.trans hI.2⟩
  · exact ⟨h.users_assets.1.trans hI.1, h.users_assets.2.trans hI.2⟩

/-- The operation neither lifts the user's freeze nor adjusts its wallets. -/
def Operation.LeavesFrozen (u : String) : Operation → Prop
  | .step (.adjust userId _ _ _ _) => userId ≠ u
  | .setFrozen id frozen _ => id = u → frozen = true
  | _ => True

/-- The operation is no request of the user's to submit, and adjusts none of its wallets. -/
def Operation.Spares (u : String) : Operation → Prop
  | .step l => l.Spares u
  | .setFrozen _ _ _ => True

theorem operate_frozen (hs : Safe m) {op : Operation} (hf : m.db.Frozen u)
    (hop : op.LeavesFrozen u) : (m.operate op).db.Frozen u := by
  cases op with
  | step l =>
    intro user hu
    have husers : (m.operate (.step l)).db.user? u = m.db.user? u := by
      unfold Db.user?
      rw [show (m.operate (.step l)).db.users = m.db.users from (step_users_assets hs l).1]
    exact hf user (husers ▸ hu)
  | setFrozen id frozen faults =>
    intro user hu
    obtain ⟨user₀, h₀, he⟩ := (m.refrozen_call id frozen faults).users u user hu
    rcases he with he | ⟨rfl, he⟩
    · rw [he]
      exact hf user₀ h₀
    · rw [he]
      exact hop rfl

/-- **One operation.** -/
theorem operate_untouched (hs : Safe m) {op : Operation} (hclosed : m.db.Closed u)
    (hop : op.Spares u ∨ m.db.Frozen u ∧ op.LeavesFrozen u) :
    m.db.Untouched u (m.operate op).db := by
  cases op with
  | step l =>
    refine step_untouched hs hclosed (hop.imp id fun h => ⟨h.1, ?_⟩)
    rintro asset field delta faults rfl
    exact h.2 rfl
  | setFrozen id frozen faults => exact (m.refrozen_call id frozen faults).untouched

namespace Sample

/-- The trade of `alice` and `bob`, after which `alice` is frozen. -/
def frozenAlice : List Operation := trading.map .step ++ [.setFrozen "alice" true none]

/-- What happens then: `alice` tries to trade on, and what is left of the order of `bob` is
cancelled. -/
def afterFreeze : List Operation :=
  [.step (.submit "alice" (limit .BID 100 1) none), .step (.cancel "bob" 1 none), .step .restart]

end Sample

end Orbit
