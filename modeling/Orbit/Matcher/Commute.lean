import Orbit.Matcher.Lanes
import Orbit.Matcher.Supply

/-!
# Settlements of different markets

The settlements of two markets may hit the same wallets, and nothing else in common. What they do
there is add postings, so that two of them that commit in both orders leave the same state
(`settlements_commute`, from `ActsOn.commute`).

Whether one commits may depend on what the other left in the wallets. All but a `MARKET` `BID`
pay from what is locked, and of that each market has its share: what the live orders of its
lane reserve (`Wrote.covered`). So they commit in both orders or in none, as long as `locked`
is not adjusted by hand.

* `run_solvent`: no wallet ever has a negative amount.
* `submitPostings_releases`: a submit but that of a `MARKET` `BID` takes nothing but what is locked.
* `Matcher.Commits.transfer`: such a command that commits does so in any state
  that agrees on its lane.
* `cancels_locked_out`: what becomes of that when `locked` was adjusted.
-/

namespace Orbit

open PriceTime Settler Consumer

variable {E : Engine} {m m' : Matcher E}

/-! ## Solvent wallets -/

theorem Settler.Settles.solvent {market : Market} {order : Order}
    {rates : FeeRates} {commandId : Uuid}
    {idx : ℕ} {db db' : Db} {ts : List EngineTrade} {rows : List Trade}
    (h : Settles market order rates commandId idx db ts rows db')
      (hs : db.Solvent) : db'.Solvent := by
  induction h with
  | nil => exact hs
  | cons maker hf _ ih => exact ih (hf.posted.solvent hs)

theorem submit_solvent (hs : Safe m) {cmd : OrderSubmitCommand} {r : Except Failure Result}
    (hcmd : OrderCommand.SUBMIT cmd ∈ m.db.commands) (h : SubmitOutcome cmd m r m')
    (hsol : m.db.Solvent) : m'.db.Solvent := by
  rcases h.unchanged_or with hdb | rfl
  · exact hdb ▸ hsol
  obtain ⟨_, _, _, _, _, _, _, -, -, hsub⟩ := submit_crossing hs.sound hs.backed hcmd h
  obtain ⟨rows, db₁, hset, -, -, hposted⟩ := hsub.settled
  exact hposted.solvent (hset.solvent hsol)

theorem cancel_solvent {cmd : OrderCancelCommand} {r : Except Failure Result}
    (h : CancelOutcome cmd m r m') (hsol : m.db.Solvent) : m'.db.Solvent := by
  rcases h.unchanged_or with hdb | ⟨market, order, ho, hm, live, hc⟩
  · exact hdb ▸ hsol
  exact hc.posted.solvent hsol

theorem api_solvent {A : WalletField → Prop} {s s' : Store} (h : ApiEffect A s s')
    (hsol : s.db.Solvent) : s'.db.Solvent := by
  cases h with
  | idle hseq hdb => exact hdb ▸ hsol
  | placed o market cmd h => exact h.posted.solvent hsol
  | requested cmd o hseq h =>
    obtain ⟨row, -, -, hdb⟩ := h.outbox
    rw [hdb]
    exact hsol
  | marketChanged symbol input hseq hdb =>
    rw [hdb]
    exact hsol
  | adjusted userId asset field w value hfield hseq hw hn hdb =>
    rw [hdb]
    intro x hx
    rcases Table.mem_modify hx with hx | ⟨x₀, hx₀, rfl⟩
    · exact hsol x hx
    · obtain rfl : w = x₀ := Option.some.inj (hw.symm.trans hx₀)
      exact hn

/-- **No wallet ever has a negative amount.** -/
theorem run_solvent (h : m.Initial) (steps : List Step) : (m.run steps).db.Solvent := by
  refine run_tables (I := Db.Solvent) h ?_ (fun hs hcmd ho => submit_solvent hs hcmd ho)
    (fun _ ho => cancel_solvent ho) (fun _ he => api_solvent he)
    (A := fun _ => True) fun l _ => l.adjusts_any
  intro w hw
  obtain ⟨hb, hl⟩ := h.wallets w hw
  exact ⟨hb, hl.ge⟩

/-! ## What the lanes reserve -/

/-- What the orders of a lane reserve of `u`'s asset `a`. -/
def Lane.reserved (l : Lane) (u a : String) : ℚ :=
  (l.orders.map (Order.reservation (fun _ => l.market) u a)).sum

theorem Order.Sound.reservation_nonneg {o : Order} (h : o.Sound) (markets : String → Option Market)
    (u a : String) : 0 ≤ o.reservation markets u a := by
  have hbacking : ∀ market : Market, 0 ≤ o.backing market a o.leaveQty := by
    intro market
    unfold Order.backing
    split
    · rename_i p _ _ hp
      split
      · exact mul_nonneg (h.price_pos hp).le h.leave
      · exact le_rfl
    · exact le_rfl
    · exact le_rfl
    · split
      · exact h.leave
      · exact le_rfl
  unfold Order.reservation
  split
  · split
    · exact hbacking _
    · exact le_rfl
  · exact le_rfl

/-- What is reserved is what the lane reserves, and the others. -/
theorem reserved_eq_lane (m : Matcher E) (symbol u a : String) :
    m.db.reserved u a = (m.lane symbol).reserved u a +
      ((m.db.orders.filter fun o => !decide (o.market = symbol)).map
        (Order.reservation m.db.market? u a)).sum := by
  have hperm := List.filter_append_perm (fun o : Order => decide (o.market = symbol)) m.db.orders
  have hlane : (m.lane symbol).reserved u a = ((m.db.orders.filter (·.market = symbol)).map
      (Order.reservation m.db.market? u a)).sum := by
    refine congrArg List.sum (List.map_congr_left fun o ho => ?_)
    have hm : o.market = symbol := of_decide_eq_true (List.mem_filter.mp ho).2
    simp only [Order.reservation, Matcher.lane, hm]
  rw [hlane, ← List.sum_append, ← List.map_append]
  exact (hperm.map _).sum_eq.symm

/-- Each lane reserves no more than there is reserved. -/
theorem lane_reserved_le (hs : m.store.Sound) (symbol u a : String) :
    (m.lane symbol).reserved u a ≤ m.db.reserved u a := by
  rw [reserved_eq_lane m symbol]
  refine le_add_of_nonneg_right (List.sum_nonneg fun x hx => ?_)
  obtain ⟨o, ho, rfl⟩ := List.mem_map.mp hx
  exact (hs.rows _ _ (hs.order?_of_mem (List.mem_filter.mp ho).1)).reservation_nonneg _ _ _

theorem lane_reserved_nonneg (hs : m.store.Sound) (symbol u a : String) :
    0 ≤ (m.lane symbol).reserved u a := by
  refine List.sum_nonneg fun x hx => ?_
  obtain ⟨o, ho, rfl⟩ := List.mem_map.mp hx
  exact (hs.rows _ _ (hs.order?_of_mem (List.mem_filter.mp ho).1)).reservation_nonneg _ _ _

/-- What is locked of every asset is what the live orders reserve. -/
def Matcher.Locks (m : Matcher E) : Prop := ∀ u a, m.db.locked u a = m.db.reserved u a

section Covered

variable {symbol : String} {rows : List Trade} {contents : List (Topic × String × Payload)}
  {ps : List Posting} {x x' y : Matcher E}

/-- What a command posts to `locked` is what its lane reserves after it less what
it reserved before. -/
theorem Wrote.lockedSum (h : Wrote symbol x x' rows contents ps) (hx : x.Locks) (hx' : x'.Locks)
    (u a : String) : Posting.lockedSum u a ps =
      (x'.lane symbol).reserved u a - (x.lane symbol).reserved u a := by
  have hlocked := h.posted.locked u a
  have hothers := h.others (fun k => !decide (k = symbol)) (by simp)
  rw [hx u a, hx' u a, reserved_eq_lane x symbol, reserved_eq_lane x' symbol,
    hothers, h.market?] at hlocked
  linarith

/-- **What a command takes of what is locked, its lane has reserved**, in every state that agrees on
it. -/
theorem Wrote.covered (h : Wrote symbol x x' rows contents ps) (hx : x.Locks) (hx' : x'.Locks)
    (hs' : x'.store.Sound) (hy : y.Locks) (hsy : y.store.Sound)
    (hlane : y.lane symbol = x.lane symbol)
    (u a : String) : 0 ≤ y.db.locked u a + Posting.lockedSum u a ps := by
  have hle := lane_reserved_le hsy symbol u a
  have h0 := lane_reserved_nonneg hs' symbol u a
  rw [h.lockedSum hx hx' u a, hy u a]
  rw [hlane] at hle
  linarith

end Covered

/-! ## Postings that only release -/

section Releases

variable {market : Market} {order maker : Order} {price qty rate : ℚ}

theorem makerPostings_releases (hp : maker.price = some price) (h0 : 0 < price) (hq : 0 < qty)
    (hr : rate ≤ 1) : ∀ p ∈ makerPostings market maker price qty rate, p.Releases := by
  have hqty := mul_nonneg hq.le (sub_nonneg.mpr hr)
  have hvalue := mul_nonneg (mul_pos h0 hq).le (sub_nonneg.mpr hr)
  unfold makerPostings
  cases maker.side with
  | ASK =>
    exact List.forall_mem_cons.mpr ⟨⟨le_rfl, neg_nonpos.mpr hq.le⟩,
      List.forall_mem_singleton.mpr ⟨hvalue, le_rfl⟩⟩
  | BID =>
    rw [hp, Option.getD_some, sub_self]
    exact List.forall_mem_cons.mpr ⟨⟨le_rfl, neg_nonpos.mpr (mul_pos h0 hq).le⟩,
      List.forall_mem_singleton.mpr ⟨hqty, le_rfl⟩⟩

/-- A `BID` has to be `LIMIT`, and not below the price. -/
theorem takerPostings_releases (hbid : order.side = .BID → ∃ p, order.type = .LIMIT ∧
      order.price = some p ∧ price ≤ p) (h0 : 0 < price) (hq : 0 < qty) (hr : rate ≤ 1) :
    ∀ p ∈ takerPostings market order price qty rate, p.Releases := by
  have hqty := mul_nonneg hq.le (sub_nonneg.mpr hr)
  have hvalue := mul_nonneg (mul_pos h0 hq).le (sub_nonneg.mpr hr)
  unfold takerPostings
  cases hs : order.side with
  | ASK =>
    exact List.forall_mem_cons.mpr ⟨⟨le_rfl, neg_nonpos.mpr hq.le⟩,
      List.forall_mem_singleton.mpr ⟨hvalue, le_rfl⟩⟩
  | BID =>
    obtain ⟨p, ht, hp, hle⟩ := hbid hs
    rw [ht, hp]
    exact List.forall_mem_cons.mpr ⟨⟨sub_nonneg.mpr (mul_le_mul_of_nonneg_right hle hq.le),
      neg_nonpos.mpr (mul_pos (h0.trans_le hle) hq).le⟩,
      List.forall_mem_singleton.mpr ⟨hqty, le_rfl⟩⟩

theorem residualPostings_releases (market : Market) (order : Order) (remaining : ℚ) :
    ∀ p ∈ residualPostings market order remaining, p.Releases := by
  unfold residualPostings
  split
  · rename_i h
    exact List.forall_mem_singleton.mpr ⟨h.1.le, neg_nonpos.mpr h.1.le⟩
  · simp

theorem releasePostings_releases (market : Market) (hs : order.Sound) :
    ∀ p ∈ releasePostings market order, p.Releases := by
  unfold releasePostings
  split
  · rename_i h0
    split
    · rename_i p _ hp
      have hvalue := (mul_pos (hs.price_pos hp) h0).le
      exact List.forall_mem_singleton.mpr ⟨hvalue, neg_nonpos.mpr hvalue⟩
    · simp
    · exact List.forall_mem_singleton.mpr ⟨h0.le, neg_nonpos.mpr h0.le⟩
  · simp

/-- The trades of a `LIMIT` `BID` are not above its price. -/
theorem submitFills_price_le {symbol : String} (hs : order.Sound) (ht : order.type = .LIMIT)
    (hside : order.side = .BID) {f : Fill ℕ ℚ ℚ} (hf : f ∈ submitFills m symbol order) :
    ∃ p, order.type = .LIMIT ∧ order.price = some p ∧ f.price ≤ p := by
  obtain ⟨p, hp, -⟩ := hs.limit ht
  simp only [submitFills, ht, hp, Option.getD_some, hside, Book.add_fills] at hf
  have hcrosses := crosses_of_mem_fills _ hf
  exact ⟨p, ht, hp, of_decide_eq_true hcrosses⟩

/-- **All submits but that of a `MARKET` `BID` take nothing but what is locked.** -/
theorem submitPostings_releases (hs : Safe m) {symbol : String} {finish : Order → Order}
    {rest : List (Resting ℕ ℚ ℚ)}
    (hc : Crossing m symbol order finish (submitFills m symbol order) rest)
    (hfees : market.FeesInRange) (hbid : ¬(order.type = .MARKET ∧ order.side = .BID)) :
    ∀ p ∈ submitPostings m symbol market order, p.Releases := by
  have hrow := hs.sound.rows _ _ hc.horder
  have hrates := AtMostOne.rates ⟨hfees.maker.2, hfees.taker.2⟩
  rw [submitPostings_eq]
  refine List.forall_mem_append.mpr ⟨fun p hp => ?_, ?_⟩
  · obtain ⟨t, ht, hp⟩ := List.mem_flatMap.mp hp
    obtain ⟨f, hf, rfl⟩ := List.mem_map.mp ht
    obtain ⟨maker, hmake⟩ := hs.backed.makes tracks_le hc.consumed hf
    have h0 := (hs.sound.rows _ _ hmake.row).price_pos hmake.price
    rw [show m.db.order? (EngineTrade.ofFill f).makerOrderId = some maker from hmake.row,
      Option.map_some, Option.getD_some] at hp
    refine List.forall_mem_append.mpr ⟨makerPostings_releases hmake.price h0 hmake.pos hrates.maker,
      takerPostings_releases (fun hside => ?_) h0 hmake.pos hrates.taker⟩ p hp
    cases ht : order.type with
    | LIMIT => exact ht ▸ submitFills_price_le hrow ht hside hf
    | MARKET => exact absurd ⟨ht, hside⟩ hbid
  · unfold submitRelease
    cases order.type with
    | LIMIT => simp
    | MARKET => exact residualPostings_releases _ _ _

end Releases

/-! ## Commands that commit in both orders -/

/-- What holds of every state that is reached without adjusting `locked` by hand. -/
structure Matcher.Regular (m : Matcher E) : Prop where
  safe : Safe m
  calm : m.store.Calm
  stamped : m.db.Stamped
  solvent : m.db.Solvent
  locks : m.Locks

theorem run_regular (h : m.Initial) {steps : List Step}
    (hadjust : ∀ l ∈ steps, l.Adjusts (· ≠ .locked)) : (m.run steps).Regular where
  safe := run_safe h steps
  calm := run_calm h steps
  stamped := run_stamped h steps
  solvent := run_solvent h steps
  locks := locked_eq_reserved h steps hadjust

/-- **What another market leaves to a command**: its lane, the command itself, the trades that its
order took, and the wallets that are there or can be created, but not what is in them. -/
structure Matcher.Alike (cmd : OrderCommand) (x y : Matcher E) : Prop where
  lane : y.lane cmd.symbol = x.lane cmd.symbol
  commands : y.db.commands = x.db.commands
  trades : ∀ t : Trade, t.takerOrderId = cmd.orderId → (t ∈ y.db.trades ↔ t ∈ x.db.trades)
  accounts : x.db.SameAccounts y.db

namespace Matcher.Alike

variable {cmd : OrderCommand} {x y z : Matcher E}

theorem symm (h : x.Alike cmd y) : y.Alike cmd x where
  lane := h.lane.symm
  commands := h.commands.symm
  trades t ht := (h.trades t ht).symm
  accounts u a := (h.accounts u a).symm

theorem trans (h : x.Alike cmd y) (h' : y.Alike cmd z) : x.Alike cmd z where
  lane := h'.lane.trans h.lane
  commands := h'.commands.trans h.commands
  trades t ht := (h'.trades t ht).trans (h.trades t ht)
  accounts := h.accounts.trans h'.accounts

theorem of_same (hdb : y.db = x.db) (hq : y.queues = x.queues) : x.Alike cmd y where
  lane := Matcher.lane_congr hdb (congrFun hq _)
  commands := congrArg Db.commands hdb
  trades t _ := by rw [hdb]
  accounts := Db.sameAccounts_of_eq (congrArg Db.wallets hdb) (congrArg Db.users hdb)
    (congrArg Db.assets hdb)

end Matcher.Alike

/-- The row of a command's order. -/
theorem Db.Carries.row {db : Db} {cmd : OrderCommand} (h : db.Carries cmd) :
    ∃ o, db.order? cmd.orderId = some o ∧ o.market = cmd.symbol := by
  cases cmd with
  | SUBMIT cmd => exact h.imp fun _ ho => ⟨ho.1, ho.2.1⟩
  | CANCEL cmd => exact h

/-- Commands of different markets have different orders. -/
theorem orderId_ne (hs : m.store.Sound) {c₁ c₂ : OrderCommand} (h₁ : c₁ ∈ m.db.commands)
    (h₂ : c₂ ∈ m.db.commands) (hne : c₁.symbol ≠ c₂.symbol) : c₂.orderId ≠ c₁.orderId := by
  intro e
  obtain ⟨o₁, ho₁, hm₁⟩ := (hs.commands _ h₁).row
  obtain ⟨o₂, ho₂, hm₂⟩ := (hs.commands _ h₂).row
  rw [e] at ho₂
  obtain rfl : o₁ = o₂ := Option.some.inj (ho₁.symm.trans ho₂)
  exact hne (hm₁.symm.trans hm₂)

/-- A delivery that does not commit leaves the tables alone. -/
theorem deliver_db (hs : Safe m) (cmd : OrderCommand) (faults : Option ℕ) :
    m.Commits cmd faults ∨ (m.deliver cmd faults).db = m.db := by
  rcases deliver_eq m cmd faults with ⟨-, h⟩ | ⟨hcmd, r, m₁, hd, h⟩
  · exact Or.inr (by rw [h])
  have hs₀ := hs.of_same (m.same_withFaults faults)
  rw [h, Matcher.db_withFaults]
  cases cmd with
  | SUBMIT cmd =>
    rcases dispatch_submit_published hd with ⟨-, hdb⟩ | ⟨rfl, -⟩
    · exact Or.inr hdb
    obtain ⟨_, order, _, hb, -⟩ := submit_committed hs₀ hcmd (dispatch_submit_of_sound hs₀.sound hd)
    exact Or.inl ⟨hcmd, ⟨order, hb.horder, hb.live⟩, by rw [hd]⟩
  | CANCEL cmd =>
    have hok := congrArg Prod.fst hd
    cases dispatch_cancel hd with
    | unread e n hn hf hsame => exact Or.inr hsame.db
    | skipped r hsame why => exact Or.inr hsame.db
    | aborted e market order hf ho hm live hdb hbook => exact Or.inr hdb
    | committed market order ho hm live hc => exact Or.inl ⟨hcmd, ⟨order, ho, live⟩, hok⟩

/-- A commit that no failing statement comes between meets what `SubmitSettleable` says. -/
theorem Matcher.Commits.settleable {cmd : OrderCommand} (hs : Safe m) (hcalm : m.store.Calm)
    (h : m.Commits cmd none) : Settleable cmd m := by
  obtain ⟨o, ho, hlive⟩ := h.live
  have hok := h.ok
  rw [Matcher.withFaults_self hcalm] at hok
  exact (dispatch_ok_iff hs hcalm h.mem ho hlive).mp hok

/-- The postings of a commit open no wallet that could not be opened before. -/
theorem Wrote.sameAccounts {symbol : String} {rows : List Trade}
    {contents : List (Topic × String × Payload)} {ps : List Posting}
    (h : Wrote symbol m m' rows contents ps) (ha : Affords m.db ps) : m.db.SameAccounts m'.db := by
  have hcredits : ∀ p ∈ ps, m.db.Credits p.userId p.asset := by
    intro p hp
    obtain ⟨before, after, e⟩ := List.append_of_mem hp
    exact (ha before p after e).2.2
  have husers : m'.db.users = m.db.users := h.framed.users
  have hassets : m'.db.assets = m.db.assets := h.framed.assets
  intro u a
  have hopened := h.posted.opened u a
  constructor
  · rintro (hwallet | hnew)
    · rcases hopened.mp hwallet with hold | ⟨p, hp, rfl, rfl⟩
      · exact Or.inl hold
      · exact hcredits p hp
    · refine Or.inr ?_
      rwa [Db.user?, husers, hassets] at hnew
  · rintro (hwallet | hnew)
    · exact Or.inl (hopened.mpr (Or.inl hwallet))
    · refine Or.inr ?_
      rwa [Db.user?, husers, hassets]

/-- **What a commit writes**, with postings that the accounts bear. -/
theorem Matcher.Commits.wrote {cmd : OrderCommand} (hs : Safe m) (hcalm : m.store.Calm)
    (h : m.Commits cmd none) : ∃ rows contents ps,
      Wrote cmd.symbol m (m.deliver cmd none) rows contents ps ∧
      (∀ t ∈ rows, t.takerOrderId = cmd.orderId) ∧ Affords m.db ps := by
  have hset := h.settleable hs hcalm
  cases cmd with
  | SUBMIT cmd =>
    obtain ⟨market, order, rows, hw⟩ := h.submit hs
    obtain ⟨market', order', hmarket, horder, hset⟩ := hset
    obtain rfl : market' = market := Option.some.inj (hmarket.symm.trans hw.hmarket)
    obtain rfl : order' = order := Option.some.inj (horder.symm.trans hw.horder)
    obtain ⟨_, _, _, _, hwrote⟩ := hw.wrote
    exact ⟨rows, _, _, hwrote, hw.taker, hset.affords⟩
  | CANCEL cmd =>
    obtain ⟨market, order, hw⟩ := h.cancel hs
    obtain ⟨market', order', horder, hmarket, hafford⟩ := hset
    obtain rfl : order' = order := Option.some.inj (horder.symm.trans hw.horder)
    obtain rfl : market' = market := Option.some.inj (hmarket.symm.trans hw.hmarket)
    obtain ⟨_, _, _, _, _, hwrote⟩ := hw.wrote
    exact ⟨[], _, _, hwrote, by simp, hafford⟩

theorem deliver_commands (hs : Safe m) (hcalm : m.store.Calm) (cmd : OrderCommand) :
    (m.deliver cmd none).db.commands = m.db.commands := by
  rcases deliver_db hs cmd none with hc | hdb
  · obtain ⟨_, _, _, hw, -⟩ := hc.wrote hs hcalm
    exact hw.framed.commands
  · rw [hdb]

/-- **A delivery leaves alike what other markets' commands depend on.** -/
theorem deliver_alike (hs : Safe m) (hcalm : m.store.Calm) {c₁ c₂ : OrderCommand}
    (h₁ : c₁ ∈ m.db.commands) (hne : c₁.symbol ≠ c₂.symbol) : m.Alike c₁ (m.deliver c₂ none) := by
  have hlane := deliver_lane hs c₂ none hne
  rcases deliver_db hs c₂ none with hc | hdb
  · obtain ⟨rows, contents, ps, hw, htaker, hafford⟩ := hc.wrote hs hcalm
    have hid := orderId_ne hs.sound h₁ hc.mem hne
    refine ⟨hlane, hw.framed.commands, fun t ht => ?_, hw.sameAccounts hafford⟩
    rw [hw.trades, List.mem_append]
    exact or_iff_left fun hrow => hid ((htaker t hrow).symm.trans ht)
  · exact ⟨hlane, by rw [hdb], fun t _ => by rw [hdb],
      Db.sameAccounts_of_eq (by rw [hdb]) (by rw [hdb]) (by rw [hdb])⟩

/-- The command submits a `MARKET` `BID`. -/
def OrderCommand.IsMarketBid (db : Db) : OrderCommand → Prop
  | .SUBMIT cmd => ∃ o, db.order? cmd.orderId = some o ∧ o.type = .MARKET ∧ o.side = .BID
  | .CANCEL _ => False

section Transfer

variable {x y : Matcher E}

theorem Matcher.Alike.market? {cmd : OrderCommand} (h : x.Alike cmd y) :
    y.db.market? cmd.symbol = x.db.market? cmd.symbol := congrArg Lane.market h.lane

theorem Matcher.Alike.queues {cmd : OrderCommand} (h : x.Alike cmd y) :
    y.queues cmd.symbol = x.queues cmd.symbol := congrArg Lane.queues h.lane

/-- Accounts that bear the postings of a command in one state are there or can be
opened in the other. -/
theorem Matcher.Alike.credits {cmd : OrderCommand} (h : x.Alike cmd y) {ps : List Posting}
    (ha : Affords x.db ps) : ∀ p ∈ ps, y.db.Credits p.userId p.asset := by
  intro p hp
  obtain ⟨before, after, e⟩ := List.append_of_mem hp
  exact (h.accounts _ _).mpr (ha before p after e).2.2

/-- **A `SUBMIT` that can be settled in one state can be settled in the other**, if it is not that
of a `MARKET` `BID`. -/
theorem submit_transfer (hx : x.Regular) (hy : y.Regular) {cmd : OrderSubmitCommand}
    (hx' : (x.deliver (.SUBMIT cmd) none).Regular) (h : x.Alike (.SUBMIT cmd) y)
    (hfees : ∀ market, x.db.market? cmd.symbol = some market → market.FeesInRange)
    (hbid : ¬(OrderCommand.SUBMIT cmd).IsMarketBid x.db) (hc : x.Commits (.SUBMIT cmd) none) :
    Settleable (.SUBMIT cmd) y := by
  have hlane : y.lane cmd.symbol = x.lane cmd.symbol := h.lane
  have hq : y.queues cmd.symbol = x.queues cmd.symbol := h.queues
  obtain ⟨market, order, rows, hw⟩ := hc.submit hx.safe
  obtain ⟨market', order', hmarket, horder, hset⟩ := hc.settleable hx.safe hx.calm
  obtain rfl : market' = market := Option.some.inj (hmarket.symm.trans hw.hmarket)
  obtain rfl : order' = order := Option.some.inj (horder.symm.trans hw.horder)
  obtain ⟨_, _, _, _, hwrote⟩ := hw.wrote
  have hordery : y.db.order? cmd.orderId = some order' :=
    order?_of_lane hy.safe.sound hlane horder hw.hsymbol
  have hfills : submitFills y cmd.symbol order' = submitFills x cmd.symbol order' := by
    simp only [submitFills, hq]
  have hmakers : MakersOf cmd.symbol y.db ((submitFills y cmd.symbol order').map .ofFill) := by
    rw [hfills]
    intro t ht
    obtain ⟨o, ho, hm⟩ := hw.makers t ht
    exact ⟨o, order?_of_lane hy.safe.sound hlane ho hm, hm⟩
  refine ⟨market', order', h.market?.trans hmarket, hordery, ?_, ?_, ?_⟩
  · have hadmits := hset.admits
    unfold Admits at *
    rwa [hq]
  · -- trades with its match ids have its order as taker
    intro t ht k hk hid
    obtain ⟨o, ho, hcommand⟩ := hy.stamped.trades t ht _ k hid
    have hmem : OrderCommand.SUBMIT cmd ∈ y.db.commands := h.commands ▸ hc.mem
    obtain ⟨o', ho', -, hcommand'⟩ := hy.safe.sound.commands _ hmem
    have htaker := hy.stamped.orders ho ho' hcommand hcommand'
    rw [hfills] at hk
    exact hset.fresh t ((h.trades t htaker).mp ht) k hk hid
  · rw [submitPostings_of_lane hlane hw.makers hmakers]
    obtain ⟨x₁, hd, e⟩ := hc.deliver_eq
    rw [Matcher.withFaults_self hx.calm] at hd
    obtain ⟨_, order₁, rest, hbegun, hcross, -⟩ :=
      submit_committed hx.safe hc.mem (dispatch_submit_of_sound hx.safe.sound hd)
    obtain rfl : order₁ = order' := Option.some.inj (hbegun.horder.symm.trans horder)
    have hreleases := submitPostings_releases hx.safe hcross
      (hfees market' hmarket) fun hm => hbid ⟨order₁, horder, hm⟩
    exact affords_of_releases hy.solvent hreleases (h.credits hset.affords)
      (hwrote.covered hx.locks hx'.locks hx'.safe.sound hy.locks hy.safe.sound hlane)

theorem cancel_transfer (hx : x.Regular) (hy : y.Regular) {cmd : OrderCancelCommand}
    (hx' : (x.deliver (.CANCEL cmd) none).Regular) (h : x.Alike (.CANCEL cmd) y)
    (hc : x.Commits (.CANCEL cmd) none) : Settleable (.CANCEL cmd) y := by
  have hlane : y.lane cmd.symbol = x.lane cmd.symbol := h.lane
  obtain ⟨market, order, hw⟩ := hc.cancel hx.safe
  obtain ⟨market', order', horder, hmarket, hafford⟩ := hc.settleable hx.safe hx.calm
  obtain rfl : order' = order := Option.some.inj (horder.symm.trans hw.horder)
  obtain rfl : market' = market := Option.some.inj (hmarket.symm.trans hw.hmarket)
  obtain ⟨_, _, _, _, _, hwrote⟩ := hw.wrote
  have hmarkety : y.db.market? order'.market = some market' := by
    rw [hw.hsymbol] at hmarket ⊢
    exact h.market?.trans hmarket
  refine ⟨market', order', order?_of_lane hy.safe.sound hlane horder hw.hsymbol, hmarkety, ?_⟩
  exact affords_of_releases hy.solvent
    (releasePostings_releases market' (hx.safe.sound.rows _ _ horder)) (h.credits hafford)
    (hwrote.covered hx.locks hx'.locks hx'.safe.sound hy.locks hy.safe.sound hlane)

theorem OrderCommand.IsMarketBid.of_alike {cmd : OrderCommand} (hb : cmd.IsMarketBid y.db)
    (hsx : x.store.Sound) (hsy : y.store.Sound) (h : x.Alike cmd y) (hmem : cmd ∈ y.db.commands) :
    cmd.IsMarketBid x.db := by
  cases cmd with
  | SUBMIT cmd =>
    obtain ⟨o, ho, hmarketbid⟩ := hb
    obtain ⟨o', ho', hm, -⟩ := hsy.commands _ hmem
    obtain rfl : o' = o := Option.some.inj (ho'.symm.trans ho)
    exact ⟨o', order?_of_lane hsx h.lane.symm ho hm, hmarketbid⟩
  | CANCEL cmd => exact hb

/-- **A command that commits in one state commits in the other**, if it is not a `MARKET` `BID`. -/
theorem Matcher.Commits.transfer (hx : x.Regular) (hy : y.Regular) {cmd : OrderCommand}
    (hx' : (x.deliver cmd none).Regular) (h : x.Alike cmd y)
    (hfees : ∀ market, x.db.market? cmd.symbol = some market → market.FeesInRange)
    (hbid : ¬cmd.IsMarketBid x.db)
    (hc : x.Commits cmd none) : y.Commits cmd none := by
  have hmem : cmd ∈ y.db.commands := h.commands ▸ hc.mem
  obtain ⟨o, ho, hlive⟩ := hc.live
  obtain ⟨o', ho', hm⟩ := (hx.safe.sound.commands _ hc.mem).row
  obtain rfl : o' = o := Option.some.inj (ho'.symm.trans ho)
  have hoy := order?_of_lane hy.safe.sound h.lane ho hm
  refine ⟨hmem, ⟨o', hoy, hlive⟩, ?_⟩
  rw [Matcher.withFaults_self hy.calm, dispatch_ok_iff hy.safe hy.calm hmem hoy hlive]
  cases cmd with
  | SUBMIT cmd => exact submit_transfer hx hy hx' h hfees hbid hc
  | CANCEL cmd => exact cancel_transfer hx hy hx' h hc

end Transfer

/-- **Settlements of different markets commute.** From every reachable state, two commands of
different markets that commit in both orders lead to the same lanes and the same wallets. Whether a
command commits depends on whether it comes after the other one for a `MARKET` `BID` only, if
`locked` was never adjusted by hand. -/
theorem settlements_commute (h : m.Initial) (steps : List Step) {c₁ c₂ : OrderCommand}
    (hne : c₁.symbol ≠ c₂.symbol) :
    (∀ m₁ m₁₂ m₂ m₂₁, (m.run steps).CommitsTo c₁ m₁ → m₁.CommitsTo c₂ m₁₂ →
      (m.run steps).CommitsTo c₂ m₂ → m₂.CommitsTo c₁ m₂₁ →
      (∀ symbol, m₁₂.lane symbol = m₂₁.lane symbol) ∧
      ∀ u a, m₁₂.db.wallet? u a = m₂₁.db.wallet? u a) ∧
    ((∀ l ∈ steps, l.Adjusts (· ≠ .locked)) →
      (∀ market ∈ (m.run steps).db.markets, market.FeesInRange) →
      ¬c₁.IsMarketBid (m.run steps).db →
      ∀ now now', ((m.run steps).step (.tick now)).Commits c₁ none ↔
        (((m.run steps).deliver c₂ none).step (.tick now')).Commits c₁ none) := by
  have hs := run_safe h steps
  refine ⟨fun m₁ m₁₂ m₂ m₂₁ h₁ h₁₂ h₂ h₂₁ => ?_, fun hadjust hfees hbid now now' => ?_⟩
  · have hsafe : ∀ {x y : Matcher E} {cmd : OrderCommand}, Safe x → x.CommitsTo cmd y → Safe y := by
      rintro x y cmd hx ⟨now, faults, -, rfl⟩
      exact step_safe (step_safe hx (.tick now)) (.deliver cmd faults)
    have hcomm : ∀ f ∈ Set.range Posting.post, ∀ g ∈ Set.range Posting.post, ∀ accounts,
        f (g accounts) = g (f accounts) := by
      rintro _ ⟨ps, rfl⟩ _ ⟨qs, rfl⟩ accounts
      exact Posting.post_comm ps qs accounts
    obtain ⟨hlanes, haccounts⟩ := (actsOn_commit c₁).commute (actsOn_commit c₂) hne hcomm
      ⟨hs, h₁⟩ ⟨hsafe hs h₁, h₁₂⟩ ⟨hs, h₂⟩ ⟨hsafe hs h₂, h₂₁⟩
    exact ⟨hlanes, wallet?_of_account haccounts⟩
  · have hreg : ∀ ls : List Step, (∀ l ∈ ls, l.Adjusts (· ≠ .locked)) →
        ((m.run steps).run ls).Regular := by
      intro ls hls
      rw [← Matcher.run_append]
      exact run_regular h (List.forall_mem_append.mpr ⟨hadjust, hls⟩)
    have hm := hreg [] (by simp)
    have hx := hreg [.tick now] (by simp [Step.Adjusts])
    have hx' := hreg [.tick now, .deliver c₁ none] (by simp [Step.Adjusts])
    have hy := hreg [.deliver c₂ none, .tick now'] (by simp [Step.Adjusts])
    have hy' := hreg [.deliver c₂ none, .tick now', .deliver c₁ none] (by simp [Step.Adjusts])
    have halike : c₁ ∈ (m.run steps).db.commands → ((m.run steps).step (.tick now)).Alike c₁
        (((m.run steps).deliver c₂ none).step (.tick now')) := fun hmem =>
      .trans (y := m.run steps) (.of_same rfl rfl)
        (.trans (y := (m.run steps).deliver c₂ none) (deliver_alike hm.safe hm.calm hmem hne)
          (.of_same rfl rfl))
    have hfee : ∀ market, (m.run steps).db.market? c₁.symbol = some market → market.FeesInRange :=
      fun market hmarket => hfees market (Table.mem_of_find? hmarket)
    constructor
    · intro hc
      exact hc.transfer hx hy hx' (halike hc.mem) hfee hbid
    · intro hc
      have hcommands : ((m.run steps).deliver c₂ none).db.commands = (m.run steps).db.commands :=
        deliver_commands hm.safe hm.calm c₂
      have hmem : c₁ ∈ (m.run steps).db.commands := hcommands ▸ hc.mem
      have ha := halike hmem
      have hbidx : ¬c₁.IsMarketBid ((m.run steps).step (.tick now)).db := hbid
      refine hc.transfer hy hx hy' ha.symm (fun market hmarket => ?_) fun hb => hbidx ?_
      · exact hfee market (ha.market?.symm.trans hmarket)
      · exact hb.of_alike hx.safe.sound hy.safe.sound ha hc.mem

/-! ## Two markets of one exchange -/

namespace Sample

def ethUsdt : Market := { btcUsdt with symbol := "ETH-USDT", baseAsset := "ETH" }

/-- Two markets with the quote asset in common. `bob` has 10 ETH as well. -/
def twoMarkets : Matcher Engine.priceTime where
  store := { store with db := { store.db with
    assets := [⟨"BTC"⟩, ⟨"ETH"⟩, ⟨"USDT"⟩]
    markets := [btcUsdt, ethUsdt]
    wallets := store.db.wallets ++ [⟨"bob", "ETH", 10, 0⟩] } }
  books := fun _ => none
  localSeq := 0
  orderbookSeq := 0

theorem twoMarkets_initial : twoMarkets.Initial :=
  ⟨rfl, rfl, rfl, by decide, fun _ => rfl, rfl⟩

theorem twoMarkets_fees : ∀ market ∈ [btcUsdt, ethUsdt], market.FeesInRange :=
  List.forall_mem_cons.mpr ⟨⟨⟨by decide, by decide⟩, ⟨by decide, by decide⟩⟩,
    List.forall_mem_singleton.mpr ⟨⟨by decide, by decide⟩, ⟨by decide, by decide⟩⟩⟩

/-- The request of a `LIMIT` order for ETH. -/
def ethLimit (side : OrderSide) (price quantity : ℚ) : CreateOrderDto :=
  ⟨"ETH-USDT", side, .LIMIT, some price, quantity⟩

/-- `bob` asks in both markets, and `alice` has requested a bid in each. -/
def twoAsks : List Step :=
  [.submit "bob" (limit .ASK 100 1) none, .deliver (submitted 0 1 "bob" (limit .ASK 100 1)) none,
    .submit "bob" (ethLimit .ASK 120 1) none,
    .deliver (submitted 3 2 "bob" (ethLimit .ASK 120 1)) none,
    .submit "alice" (limit .BID 110 1) none, .submit "alice" (ethLimit .BID 120 1) none]

/-- The bids of `alice`. -/
def btcBid : OrderCommand := submitted 6 3 "alice" (limit .BID 110 1)

def ethBid : OrderCommand := submitted 7 4 "alice" (ethLimit .BID 120 1)

/-- `alice` bids in both markets, requests to cancel both orders, and an administrator takes 100 of
the 220 that are locked. -/
def takenOff : List Step :=
  [.submit "alice" (limit .BID 100 1) none, .submit "alice" (ethLimit .BID 120 1) none,
    .deliver (submitted 0 1 "alice" (limit .BID 100 1)) none,
    .deliver (submitted 1 2 "alice" (ethLimit .BID 120 1)) none,
    .cancel "alice" 1 none, .cancel "alice" 2 none, .adjust "alice" "USDT" .locked (-100) none]

end Sample

open Sample

/-- Both bids of `alice` trade, in either order, and pay from the same wallet. -/
theorem settlements_commute_asks : twoMarkets.Initial ∧ btcBid.symbol ≠ ethBid.symbol ∧
    ∃ m₁ m₁₂ m₂ m₂₁, (twoMarkets.run twoAsks).CommitsTo btcBid m₁ ∧ m₁.CommitsTo ethBid m₁₂ ∧
      (twoMarkets.run twoAsks).CommitsTo ethBid m₂ ∧ m₂.CommitsTo btcBid m₂₁ ∧
      ((∀ symbol, m₁₂.lane symbol = m₂₁.lane symbol) ∧
        ∀ u a, m₁₂.db.wallet? u a = m₂₁.db.wallet? u a) ∧
      (((twoMarkets.run twoAsks).step (.tick 1)).Commits btcBid none ↔
        (((twoMarkets.run twoAsks).deliver ethBid none).step (.tick 1)).Commits btcBid none) := by
  have hne : btcBid.symbol ≠ ethBid.symbol := by decide
  have hbtc : (twoMarkets.run twoAsks).db.order? 3 =
      some ⟨3, "alice", "BTC-USDT", .BID, .LIMIT, some 110, 1, 1, 0, .OPEN, some ⟨6⟩⟩ := by
    decide +kernel
  have hall := settlements_commute twoMarkets_initial twoAsks hne
  have h₁ : (twoMarkets.run twoAsks).CommitsTo btcBid _ := ⟨1, none, ⟨by decide +kernel,
    ⟨_, hbtc, rfl⟩, by decide +kernel⟩, rfl⟩
  have h₁₂ : (((twoMarkets.run twoAsks).step (.tick 1)).deliver btcBid none).CommitsTo ethBid _ :=
    ⟨2, none, ⟨by decide +kernel,
      ⟨⟨4, "alice", "ETH-USDT", .BID, .LIMIT, some 120, 1, 1, 0, .OPEN, some ⟨7⟩⟩,
      by decide +kernel,
        rfl⟩, by decide +kernel⟩, rfl⟩
  have h₂ : (twoMarkets.run twoAsks).CommitsTo ethBid _ := ⟨1, none, ⟨by decide +kernel,
    ⟨⟨4, "alice", "ETH-USDT", .BID, .LIMIT, some 120, 1, 1, 0, .OPEN, some ⟨7⟩⟩, by decide +kernel,
      rfl⟩, by decide +kernel⟩, rfl⟩
  have h₂₁ : (((twoMarkets.run twoAsks).step (.tick 1)).deliver ethBid none).CommitsTo btcBid _ :=
    ⟨2, none, ⟨by decide +kernel,
      ⟨⟨3, "alice", "BTC-USDT", .BID, .LIMIT, some 110, 1, 1, 0, .OPEN, some ⟨6⟩⟩,
      by decide +kernel,
        rfl⟩, by decide +kernel⟩, rfl⟩
  refine ⟨twoMarkets_initial, hne, _, _, _, _, h₁, h₁₂, h₂, h₂₁, hall.1 _ _ _ _ h₁ h₁₂ h₂ h₂₁,
    hall.2 (by simp [twoAsks, Step.Adjusts]) ?_ ?_ 1 1⟩
  · have hmarkets : (twoMarkets.run twoAsks).db.markets = [btcUsdt, ethUsdt] := by decide +kernel
    exact hmarkets ▸ twoMarkets_fees
  · rintro ⟨o, ho, htype, -⟩
    obtain rfl := Option.some.inj (ho.symm.trans hbtc)
    cases htype

/-- **Two cancels that lock each other out.** What is left of `locked` after an adjustment releases
one of the two bids of `alice`, whichever comes first: the other `CANCEL` aborts. -/
theorem cancels_locked_out : twoMarkets.Initial ∧
    ∃ c₁ c₂ : OrderCommand, c₁.symbol ≠ c₂.symbol ∧
      (∀ market ∈ (twoMarkets.run takenOff).db.markets, market.FeesInRange) ∧
      ¬c₁.IsMarketBid (twoMarkets.run takenOff).db ∧ ¬c₂.IsMarketBid (twoMarkets.run takenOff).db ∧
      (twoMarkets.run takenOff).Commits c₁ none ∧
      (dispatch c₁ ((twoMarkets.run takenOff).deliver c₂ none)).1 = .error .checkViolation ∧
      (twoMarkets.run takenOff).Commits c₂ none ∧
      (dispatch c₂ ((twoMarkets.run takenOff).deliver c₁ none)).1 = .error .checkViolation := by
  refine ⟨twoMarkets_initial, .CANCEL ⟨⟨6⟩, 1, "alice", "BTC-USDT", 0⟩,
    .CANCEL ⟨⟨7⟩, 2, "alice", "ETH-USDT", 0⟩, by decide, ?_, fun h => h, fun h => h,
    ⟨by decide +kernel, ⟨⟨1, "alice", "BTC-USDT", .BID, .LIMIT, some 100, 1, 1, 0, .OPEN, some ⟨0⟩⟩,
      by decide +kernel, rfl⟩, by decide +kernel⟩, by decide +kernel,
    ⟨by decide +kernel, ⟨⟨2, "alice", "ETH-USDT", .BID, .LIMIT, some 120, 1, 1, 0, .OPEN, some ⟨1⟩⟩,
      by decide +kernel, rfl⟩, by decide +kernel⟩, by decide +kernel⟩
  have hmarkets : (twoMarkets.run takenOff).db.markets = [btcUsdt, ethUsdt] := by decide +kernel
  exact hmarkets ▸ twoMarkets_fees

end Orbit
