import Mathlib.Data.List.Induction
import Orbit.Matcher.Delivery
import Orbit.Matcher.Published
import Orbit.Matcher.Redelivery

/-!
# Match ids

A trade carries the match id `commandId#idx`, with an index that `settleTrades` counts up from the
index it is given, and that a market sweep hands on from level to level. The database has a unique
index on the match ids, which is what would stop a `SUBMIT` from being settled twice.

* `Settler.Settles.map_matchId`: the match ids of one command's trades count up.
* `run_numbered`: in every reachable state they count up from zero, without gaps.
* `dispatch_collision`: a `SUBMIT` collides with a match id only if its order is live, does not rest
  if it is a `LIMIT` order, and a trade of its command is in the table.
* `run_no_collision`: no `SUBMIT` collides as long as the matcher is not restarted and no command
  aborts for another reason before it was settled.
-/

namespace Orbit

open PriceTime Settler Consumer Tx

variable {E : Engine} {m m' : Matcher E}

/-! ## Numbering -/

/-- The index of the match id of a trade, if it is one of the command `c`. -/
def matchIdxOf (c : Uuid) (t : Trade) : Option ℕ :=
  t.matchId.bind fun mid => if mid.commandId = c then some mid.matchIdx else none

/-- Every trade has a match id, and those of a command count up from zero along the table. -/
structure Db.Numbered (db : Db) : Prop where
  isSome : ∀ t ∈ db.trades, t.matchId.isSome
  range : ∀ c, ∃ n, db.trades.filterMap (matchIdxOf c) = List.range n

/-- **The match ids of one command's trades**, from the index given on. -/
theorem Settler.Settles.map_matchId {market : Market} {order : Order} {rates : FeeRates}
    {commandId : Uuid} {idx : ℕ} {db db' : Db} {ts : List EngineTrade} {rows : List Trade}
    (h : Settles market order rates commandId idx db ts rows db') :
    rows.map (·.matchId) = (List.range' idx ts.length).map fun k => some ⟨commandId, k⟩ := by
  induction h with
  | nil => rfl
  | cons maker hf _ ih =>
    rw [List.map_cons, ih, hf.hrow, List.length_cons,
      List.range'_succ, List.map_cons]

theorem Settler.Settles.filterMap_matchIdxOf {market : Market} {order : Order} {rates : FeeRates}
    {commandId : Uuid} {idx : ℕ} {db db' : Db} {ts : List EngineTrade} {rows : List Trade}
    (h : Settles market order rates commandId idx db ts rows db') (c : Uuid) :
    rows.filterMap (matchIdxOf c) = if commandId = c then List.range' idx ts.length else [] := by
  have hmap : rows.filterMap (matchIdxOf c) = (rows.map (·.matchId)).filterMap fun mid? =>
      mid?.bind fun mid => if mid.commandId = c then some mid.matchIdx else none := by
    rw [List.filterMap_map]
    rfl
  rw [hmap, h.map_matchId, List.filterMap_map]
  split
  · rename_i e
    subst e
    exact (List.filterMap_congr fun k _ => by simp).trans List.filterMap_some
  · rename_i hne
    exact List.filterMap_eq_nil_iff.mpr fun k _ => by simp [hne]

/-- **Settling keeps the numbering**: the first match id is new, so the command had none. -/
theorem Db.Numbered.settles {market : Market} {order : Order} {rates : FeeRates} {commandId : Uuid}
    {db db₁ db' : Db} {ts : List EngineTrade} {rows : List Trade} (hn : db.Numbered)
    (h : Settles market order rates commandId 0 db ts rows db₁) (ht : db'.trades = db₁.trades) :
    db'.Numbered := by
  have htrades : db'.trades = db.trades ++ rows := ht.trans h.trades
  refine ⟨fun t hmem => ?_, fun c => ?_⟩
  · rw [htrades, List.mem_append] at hmem
    exact hmem.elim (hn.isSome t) (h.matchId_isSome t)
  obtain ⟨n, hrange⟩ := hn.range c
  rw [htrades, List.filterMap_append, hrange, h.filterMap_matchIdxOf]
  split
  · rename_i e
    subst e
    rcases Nat.eq_zero_or_pos ts.length with h0 | hpos
    · exact ⟨n, by rw [h0]; simp⟩
    · -- a trade of the command would have the index zero
      have hzero : n = 0 := by
        by_contra hne
        have hmem : 0 ∈ db.trades.filterMap (matchIdxOf commandId) := by
          rw [hrange, List.mem_range]
          omega
        obtain ⟨t, ht, hidx⟩ := List.mem_filterMap.mp hmem
        refine h.fresh t ht 0 le_rfl (by omega) ?_
        obtain ⟨⟨c, k⟩, hmid, hk⟩ := Option.bind_eq_some_iff.mp hidx
        split at hk
        · rename_i hc
          obtain rfl := Option.some.inj hk
          obtain rfl : c = commandId := hc
          exact hmid
        · cases hk
      exact ⟨ts.length, by rw [hzero, List.range_zero, List.nil_append, List.range_eq_range']⟩
  · exact ⟨n, List.append_nil _⟩

theorem Db.Numbered.congr {db db' : Db} (h : db.Numbered) (ht : db'.trades = db.trades) :
    db'.Numbered :=
  ⟨fun t => ht ▸ h.isSome t, fun c => ht ▸ h.range c⟩

theorem ApiEffect.trades {A : WalletField → Prop} {s s' : Store} (h : ApiEffect A s s') :
    s'.db.trades = s.db.trades := by
  cases h with
  | idle hseq hdb => rw [hdb]
  | placed o market cmd h => exact h.trades
  | requested cmd o hseq h =>
    obtain ⟨row, -, -, hdb⟩ := h.outbox
    rw [hdb]
  | marketChanged symbol input hseq hdb => rw [hdb]
  | adjusted userId asset field w value hfield hseq hw hn hdb => rw [hdb]

theorem Consumer.CancelOutcome.trades {cmd : OrderCancelCommand} {r : Except Failure Result}
    (h : CancelOutcome cmd m r m') : m'.db.trades = m.db.trades := by
  rcases h.unchanged_or with hdb | ⟨market, order, ho, hm, live, hc⟩
  · rw [hdb]
  exact hc.trades

/-- The trades that a `SUBMIT` adds, if it commits. -/
theorem submit_settles {cmd : OrderSubmitCommand} {r : Except Failure Result} (hs : Safe m)
    (hcmd : OrderCommand.SUBMIT cmd ∈ m.db.commands) (h : SubmitOutcome cmd m r m') :
    m'.db.trades = m.db.trades ∨ ∃ market order rates ts rows db₁, order.id = cmd.orderId ∧
      Settles market order rates cmd.commandId 0 m.db ts rows db₁ ∧ m'.db.trades = db₁.trades := by
  rcases h.unchanged_or with hdb | rfl
  · exact .inl (by rw [hdb])
  obtain ⟨market, order, finish, fs, rest, release, q, hb, hc, hsub⟩ :=
    submit_crossing hs.sound hs.backed hcmd h
  obtain ⟨rows, db₁, hset, -, htrades, -⟩ := hsub.settled
  exact .inr ⟨market, order, _, _, rows, db₁, Db.order?_id hb.horder, hset, htrades⟩

/-- **In every reachable state the trades are numbered.** -/
theorem run_numbered (h : m.Initial) (steps : List Step) : (m.run steps).db.Numbered := by
  refine run_tables (I := Db.Numbered) h ?_ (fun hs hcmd ho hn => ?_)
    (fun _ ho hn => hn.congr ho.trades) (fun _ he hn => hn.congr he.trades)
    (A := fun _ => True) fun l _ => l.adjusts_any
  · refine ⟨fun t ht => ?_, fun c => ⟨0, by rw [h.trades]; rfl⟩⟩
    rw [h.trades] at ht
    cases ht
  · rcases submit_settles hs hcmd ho with ht | ⟨market, order, rates, ts, rows, db₁, -, hset, ht⟩
    · exact hn.congr ht
    · exact hn.settles hset ht

/-! ## What cannot collide -/

/-- No failure of `x` is that of a unique index. -/
abbrev Tx.NoCollision {σ α : Type} (x : Tx Failure σ α) : Prop :=
    Raises (· ≠ Failure.uniqueViolation) x

namespace Stm

variable {α : Type}

theorem noCollision_stmt : NoCollision stmt := by
  intro s e s' h
  unfold stmt at h
  split at h
  · cases (Prod.mk.inj h).1
  · obtain rfl := Except.error.inj (Prod.mk.inj h).1
    decide
  · cases (Prod.mk.inj h).1

theorem noCollision_query (f : Db → α) : NoCollision (query f) :=
  noCollision_stmt.bind fun _ => Raises.get.bind fun _ => .pure _

theorem noCollision_write {f : Db → Except Failure Db}
    (hf : ∀ db, f db ≠ .error .uniqueViolation) : NoCollision (write f) := by
  refine noCollision_stmt.bind fun _ => Raises.get.bind fun s => ?_
  refine Raises.bind ?_ fun _ => .modify _
  rintro s' e s'' h rfl
  exact hf _ (Prod.mk.inj h).1

theorem walletUpdate_ne_collision (u a : String) (b l : ℚ) (db : Db) :
    Db.walletUpdate u a b l db ≠ .error .uniqueViolation := by
  unfold Db.walletUpdate
  split
  · simp
  · split <;> simp

theorem noCollision_walletUpdate (u a : String) (b l : ℚ) : NoCollision (walletUpdate u a b l) :=
  noCollision_write (walletUpdate_ne_collision u a b l)

theorem noCollision_walletUpsert (u a : String) (amt : ℚ) : NoCollision (walletUpsert u a amt) := by
  refine noCollision_write fun db => ?_
  unfold Db.walletUpsert
  split
  · exact walletUpdate_ne_collision u a amt 0 db
  · split
    · split <;> simp
    · simp

theorem noCollision_orderUpdate (id : ℕ) (data : Order → Order) :
    NoCollision (orderUpdate id data) := by
  refine Raises.bind (noCollision_write fun db => ?_) fun _ => Raises.get.bind fun s => ?_
  · unfold Db.orderUpdate
    split <;> simp
  · cases s.db.order? id
    · exact .fail (by decide)
    · exact .pure _

theorem noCollision_orderFindOrThrow (id : ℕ) : NoCollision (orderFindOrThrow id) :=
  (noCollision_query _).bind fun o? => by
    cases o?
    · exact .fail (by decide)
    · exact .pure _

theorem noCollision_randomUUID : NoCollision randomUUID := .of_ok fun _ => ⟨_, _, rfl⟩

theorem noCollision_dateNow : NoCollision dateNow := .of_ok fun _ => ⟨_, _, rfl⟩

theorem noCollision_publish (topic : Topic) (key : String) (payload : Payload) :
    NoCollision (publish topic key payload) :=
  noCollision_stmt.bind fun _ => (Raises.modify _).bind fun _ => Raises.modify _

/-- A trade that collides has the match id of one in the table. -/
theorem tradeCreate_collision {data : ℕ → ℕ → Trade} {s s' : Store}
    (h : tradeCreate data s = (.error .uniqueViolation, s')) :
    ∃ t ∈ s.db.trades, t.matchId = (data (s.seqs.trade + 1) s.now).matchId := by
  rcases bind_eq_error.mp h with h | ⟨_, s₁, h₁, h⟩
  · exact absurd rfl (noCollision_stmt _ _ _ h)
  have hs₁ : s₁.db = s.db ∧ s₁.seqs = s.seqs ∧ s₁.now = s.now := by
    unfold stmt at h₁
    split at h₁ <;> obtain ⟨e, rfl⟩ := Prod.mk.inj h₁
    · exact ⟨rfl, rfl, rfl⟩
    · cases e
    · exact ⟨rfl, rfl, rfl⟩
  simp only [Tx.modify_bind_apply, Tx.get_bind_apply] at h
  split at h
  · rename_i hclash
    obtain ⟨-, t, ht, e⟩ := hclash
    rw [hs₁.1] at ht
    rw [hs₁.2.1, hs₁.2.2] at e
    exact ⟨t, ht, e⟩
  · cases (Prod.mk.inj h).1

end Stm

namespace Settler

open Stm

variable {α : Type} {market : Market} {order : Order} {rates : FeeRates} {commandId : Uuid}
  {symbol : String}

theorem noCollision_onStore {x : Stm α} (hx : NoCollision x) : NoCollision (onStore x : Act E α) :=
  hx.zoom

theorem noCollision_bookAdd (symbol : String) (id : ℕ) (side : Side) (price qty : ℚ) :
    NoCollision (bookAdd symbol id side price qty : Act E AddResult) := by
  intro m e m' h
  unfold bookAdd at h
  split at h
  · cases (Prod.mk.inj h).1
  · obtain rfl := Except.error.inj (Prod.mk.inj h).1
    simp

theorem noCollision_bookCancel (symbol : String) (id : ℕ) :
    NoCollision (bookCancel symbol id : Act E Unit) := by
  refine .of_ok fun m => ?_
  unfold bookCancel
  split <;> exact ⟨_, _, rfl⟩

theorem noCollision_settleMaker (market : Market) (maker : Order) (price qty rate : ℚ) :
    NoCollision (settleMaker market maker price qty rate) := by
  unfold settleMaker settleMakerWith
  split
  · exact (noCollision_walletUpdate _ _ _ _).bind fun _ => noCollision_walletUpsert _ _ _
  · split
    · exact .fail (by decide)
    · exact (noCollision_walletUpdate _ _ _ _).bind fun _ => noCollision_walletUpsert _ _ _

theorem noCollision_settleTaker (market : Market) (taker : Order) (price qty rate : ℚ) :
    NoCollision (settleTaker market taker price qty rate) := by
  unfold settleTaker settleTakerWith
  split
  · dsimp only
    split <;> exact (noCollision_walletUpdate _ _ _ _).bind fun _ => noCollision_walletUpsert _ _ _
  · exact (noCollision_walletUpdate _ _ _ _).bind fun _ => noCollision_walletUpsert _ _ _

theorem noCollision_settleResidual (market : Market) (order : Order) (remaining : ℚ) :
    NoCollision (settleResidual market order remaining) := by
  unfold settleResidual
  dsimp only
  split
  · exact (noCollision_walletUpdate _ _ _ _).bind fun _ =>
      (noCollision_orderUpdate _ _).bind fun _ => .pure _
  · exact (noCollision_orderUpdate _ _).bind fun _ => .pure _

theorem noCollision_releaseReservation (market : Market) (order : Order) :
    NoCollision (releaseReservation market order) := by
  unfold releaseReservation
  split
  · split
    · exact noCollision_walletUpdate _ _ _ _
    · exact .pure _
    · exact noCollision_walletUpdate _ _ _ _
  · exact .pure _

theorem noCollision_publishTrades (symbol : String) (ts : List Trade) :
    NoCollision (publishTrades symbol ts) := by
  induction ts with
  | nil => exact .pure _
  | cons t ts ih =>
    have hid : NoCollision (tradeEventId t) := by
      unfold tradeEventId
      split
      · exact .pure _
      · exact noCollision_randomUUID.bind fun _ => .pure _
    have htrade : NoCollision (publishTrade symbol t) :=
      hid.bind fun _ => (noCollision_publish _ _ _).bind fun _ => noCollision_dateNow.bind fun _ =>
        (noCollision_publish _ _ _).bind fun _ => noCollision_publish _ _ _
    exact htrade.bind fun _ => ih

theorem noCollision_publishSnapshot (symbol : String) :
    NoCollision (publishSnapshot symbol : Act E Unit) := by
  have hbook : NoCollision (getOrderbook symbol : Act E Snapshot) :=
    .of_ok fun _ => ⟨_, _, rfl⟩
  have hseq : NoCollision (nextOrderbookSeq : Act E ℕ) :=
    .of_ok fun _ => ⟨_, _, rfl⟩
  exact hbook.bind fun _ => (noCollision_onStore noCollision_randomUUID).bind fun _ =>
    hseq.bind fun _ => (noCollision_onStore noCollision_dateNow).bind fun _ =>
      noCollision_onStore (noCollision_publish _ _ _)

theorem noCollision_publishSubmitEvents (order : Order) (trades : List Trade) (symbol : String) :
    NoCollision (publishSubmitEvents order trades symbol : Act E Unit) :=
  (noCollision_onStore <| noCollision_randomUUID.bind fun _ => noCollision_dateNow.bind fun _ =>
    (noCollision_publish _ _ _).bind fun _ => noCollision_publishTrades _ _).bind fun _ =>
      noCollision_publishSnapshot _

theorem noCollision_publishCancelEvents (order : Order) :
    NoCollision (publishCancelEvents order : Act E Unit) :=
  (noCollision_onStore <| noCollision_randomUUID.bind fun _ => noCollision_dateNow.bind fun _ =>
    (noCollision_publish _ _ _).bind fun _ => noCollision_randomUUID.bind fun _ =>
      noCollision_dateNow.bind fun _ => noCollision_publish _ _ _).bind fun _ =>
        noCollision_publishSnapshot _

theorem noCollision_cancelBody (market : Market) (order : Order) :
    NoCollision (cancelBody market order : Act E Order) :=
  (noCollision_bookCancel _ _).bind fun _ =>
    (noCollision_onStore (noCollision_releaseReservation _ _)).bind fun _ =>
      (noCollision_onStore (noCollision_orderUpdate _ _)).bind fun _ =>
        (noCollision_publishCancelEvents _).bind fun _ => .pure _

/-! ## Collisions -/

theorem settleFill_collision {s s' : Store} {maker : Order} {t : EngineTrade} {matchId : MatchId}
    {sequence : ℕ}
    (h : settleFill market order maker t rates matchId sequence s = (.error .uniqueViolation, s')) :
    ∃ t ∈ s.db.trades, t.matchId = some matchId := by
  rcases bind_eq_error.mp h with h | ⟨row, s₁, -, h⟩
  · exact tradeCreate_collision h
  · have hrest : NoCollision (settleMaker market maker t.tradePrice t.tradeQuantity rates.maker >>=
        fun _ => settleTaker market order t.tradePrice t.tradeQuantity rates.taker >>= fun _ =>
          Stm.orderUpdate maker.id (makerAfter maker t.tradeQuantity) >>= fun _ => Pure.pure row) :=
      (noCollision_settleMaker _ _ _ _ _).bind fun _ =>
        (noCollision_settleTaker _ _ _ _ _).bind fun _ =>
        (noCollision_orderUpdate _ _).bind fun _ => .pure _
    exact absurd rfl (hrest _ _ _ h)

theorem settleTrade_collision {matchId : MatchId} {t : EngineTrade}
    (h : settleTrade market order rates matchId t m = (.error .uniqueViolation, m')) :
    ∃ t ∈ m.db.trades, t.matchId = some matchId := by
  rcases bind_eq_error.mp h with h | ⟨maker, m₁, h₁, h⟩
  · exact absurd rfl (noCollision_onStore (noCollision_orderFindOrThrow _) _ _ _ h)
  obtain ⟨s₁, hfind, rfl⟩ := onStore_eq_ok h₁
  obtain ⟨-, fl, rfl⟩ := Stm.orderFindOrThrow_eq_ok hfind
  rcases bind_eq_error.mp h with h | ⟨sequence, m₂, h₂, h⟩
  · cases (Prod.mk.inj h).1
  obtain ⟨-, rfl⟩ := Prod.mk.inj h₂
  obtain ⟨s₂, h⟩ := zoom_eq_error h
  exact settleFill_collision (s := { m.store with faults := fl }) h

/-- The trade that a collision is with was there before, and its index is not below the first. -/
theorem settleTrades_collision {idx : ℕ} {ts : List EngineTrade}
    (h : settleTrades market order rates commandId idx ts m = (.error .uniqueViolation, m')) :
    ∃ t ∈ m.db.trades, ∃ k ≥ idx, t.matchId = some ⟨commandId, k⟩ := by
  induction ts generalizing idx m with
  | nil => cases (Prod.mk.inj h).1
  | cons t ts ih =>
    rcases bind_eq_error.mp h with h | ⟨row, m₁, h₁, h⟩
    · obtain ⟨x, hx, e⟩ := settleTrade_collision h
      exact ⟨x, hx, idx, le_rfl, e⟩
    obtain ⟨maker, hfill⟩ := settleTrade_eq_ok h₁
    rcases bind_eq_error.mp h with h | ⟨out, m₂, -, h⟩
    · obtain ⟨x, hx, k, hk, e⟩ := ih h
      rw [hfill.trades, List.mem_append, List.mem_singleton] at hx
      rcases hx with hx | rfl
      · exact ⟨x, hx, k, (Nat.le_succ idx).trans hk, e⟩
      · -- the trade just made has the index before
        rw [hfill.hrow] at e
        have : idx = k := congrArg MatchId.matchIdx (Option.some.inj e)
        omega
    · cases (Prod.mk.inj h).1

theorem sweepLevels_collision {counter idx : ℕ} {remaining : ℚ} {lvls : List BookLevel}
    (h : sweepLevels symbol market order rates commandId counter idx remaining lvls m =
      (.error .uniqueViolation, m')) :
    ∃ t ∈ m.db.trades, ∃ k ≥ idx, t.matchId = some ⟨commandId, k⟩ := by
  induction lvls generalizing counter idx remaining m with
  | nil => cases (Prod.mk.inj h).1
  | cons lvl lvls ih =>
    rw [sweepLevels_cons] at h
    split at h
    · cases (Prod.mk.inj h).1
    rcases bind_eq_error.mp h with h | ⟨sweep, m₁, h₁, h⟩
    · exact absurd rfl (noCollision_bookAdd _ _ _ _ _ _ _ _ h)
    have hdb₁ : m₁.db = m.db := by rw [Matcher.db, store_bookAdd h₁]; rfl
    rcases bind_eq_error.mp h with h | ⟨fills, m₂, h₂, h⟩
    · rw [← hdb₁]
      exact settleTrades_collision h
    have hset := settleTrades_eq_ok h₂
    -- the rest of the loop, whose indices come after those of this level
    have hrest : ∀ m₃ : Matcher E, m₃.store = m₂.store →
        (sweepLevels symbol market order rates commandId (counter + 1) (idx + sweep.trades.length)
          (remaining - min lvl.quantity remaining) lvls >>= fun x => pure (fills ++ x.1, x.2)) m₃ =
          (.error .uniqueViolation, m') →
        ∃ t ∈ m.db.trades, ∃ k ≥ idx, t.matchId = some ⟨commandId, k⟩ := by
      intro m₃ hm₃ h
      rcases bind_eq_error.mp h with h | ⟨x, m₄, -, h⟩
      · obtain ⟨t, ht, k, hk, e⟩ := ih h
        rw [Matcher.db, hm₃, show m₂.store.db = m₂.db from rfl, hset.trades,
          hdb₁, List.mem_append] at ht
        rcases ht with ht | ht
        · exact ⟨t, ht, k, (Nat.le_add_right _ _).trans hk, e⟩
        · have hmem := List.mem_map_of_mem (f := (·.matchId)) ht
          rw [hset.map_matchId, e] at hmem
          obtain ⟨k', hk', e'⟩ := List.mem_map.mp hmem
          have : k' = k := congrArg MatchId.matchIdx (Option.some.inj e')
          rw [List.mem_range'_1] at hk'
          omega
      · cases (Prod.mk.inj h).1
    dsimp only at h
    split at h
    · rcases bind_eq_error.mp h with h | ⟨u, m₃, h₃, h⟩
      · exact absurd rfl (noCollision_bookCancel _ _ _ _ _ h)
      · exact hrest m₃ (store_bookCancel h₃) h
    · exact hrest m₂ rfl h

/-- A matching that collides got its order into the book. -/
theorem matchSubmit_collision {cmd : OrderSubmitCommand}
    (h : matchSubmit market order cmd rates m = (.error .uniqueViolation, m')) :
    (order.type = .LIMIT → order.id ∉ (m.queues cmd.symbol).ids) ∧
      ∃ t ∈ m.db.trades, ∃ k, t.matchId = some ⟨cmd.commandId, k⟩ := by
  cases ht : order.type with
  | LIMIT =>
    cases hp : order.price with
    | none => simp [matchSubmit_priceless ht hp] at h
    | some price =>
      rw [matchSubmit_limit ht hp] at h
      rcases bind_eq_error.mp h with h | ⟨res, m₁, h₁, h⟩
      · exact absurd rfl (noCollision_bookAdd _ _ _ _ _ _ _ _ h)
      refine ⟨fun _ hid => ?_, ?_⟩
      · obtain ⟨msg, hadd⟩ := bookAdd_resting m cmd.symbol (sideToEngine order.side)
          price hid order.leaveQty
        rw [hadd] at h₁
        cases (Prod.mk.inj h₁).1
      rcases bind_eq_error.mp h with h | ⟨rows, m₂, -, h⟩
      · obtain ⟨t, hmem, k, -, e⟩ := settleTrades_collision h
        rw [Matcher.db, store_bookAdd h₁] at hmem
        exact ⟨t, hmem, k, e⟩
      · have hfinish : NoCollision
            (onStore (updateOrderAfterMatch order.id res.leaveQuantity order.quantity) >>=
              fun _ => Pure.pure rows : Act E (List Trade)) :=
          (noCollision_onStore (noCollision_orderUpdate _ _)).bind fun _ => .pure _
        exact absurd rfl (hfinish _ _ _ h)
  | MARKET =>
    refine ⟨fun e => (by cases e), ?_⟩
    rw [matchSubmit_market ht, executeMarketOrder_eq] at h
    rcases bind_eq_error.mp h with h | ⟨snapshot, m₁, h₁, h⟩
    · cases (Prod.mk.inj h).1
    obtain ⟨-, rfl⟩ := Prod.mk.inj h₁
    rcases bind_eq_error.mp h with h | ⟨x, m₂, -, h⟩
    · obtain ⟨t, hmem, k, -, e⟩ := sweepLevels_collision h
      exact ⟨t, hmem, k, e⟩
    · have hfinish : NoCollision
          (onStore (updateOrderAfterMatch order.id x.2 order.quantity) >>= fun _ =>
            if 0 < x.2 then onStore (settleResidual market order x.2) >>= fun _ => Pure.pure x.1
            else Pure.pure x.1 : Act E (List Trade)) := by
        refine (noCollision_onStore (noCollision_orderUpdate _ _)).bind fun _ => ?_
        split
        · exact (noCollision_onStore (noCollision_settleResidual _ _ _)).bind fun _ => .pure _
        · exact .pure _
      exact absurd rfl (hfinish _ _ _ h)

theorem submitBody_collision {cmd : OrderSubmitCommand}
    (h : submitBody market order cmd m = (.error .uniqueViolation, m')) :
    (order.type = .LIMIT → order.id ∉ (m.queues cmd.symbol).ids) ∧
      ∃ t ∈ m.db.trades, ∃ k, t.matchId = some ⟨cmd.commandId, k⟩ := by
  rcases bind_eq_error.mp h with h | ⟨trades, m₁, -, h⟩
  · exact matchSubmit_collision h
  · have hpublish : NoCollision (onStore (Stm.orderFindOrThrow order.id) >>= fun persisted =>
        publishSubmitEvents persisted trades cmd.symbol >>= fun _ => Pure.pure (persisted, trades) :
          Act E (Order × List Trade)) :=
      (noCollision_onStore (noCollision_orderFindOrThrow _)).bind fun _ =>
        (noCollision_publishSubmitEvents _ _ _).bind fun _ => .pure _
    exact absurd rfl (hpublish _ _ _ h)

/-- A transaction collides where its body does. -/
theorem transaction_collision {x : Act E α} (h : transaction x m = (.error .uniqueViolation, m')) :
    ∃ m₁, x (m.withFaults (m.store.faults.map Nat.pred)) = (.error .uniqueViolation, m₁) := by
  have hstmt : NoCollision (onStore Stm.stmt : Act E Unit) := noCollision_onStore noCollision_stmt
  rcases transaction_cases h with ⟨-, he, -⟩ | ⟨hf, -⟩
  · cases he
  have hbegin : onStore (E := E) Stm.stmt m =
      (.ok (), m.withFaults (m.store.faults.map Nat.pred)) := by
    simp [onStore, Tx.zoom, Stm.stmt_apply_ok hf, Matcher.withFaults]
  rcases hrun : (onStore Stm.stmt >>= fun _ => x >>=
    fun a => onStore Stm.stmt >>= fun _ => Pure.pure a) m
    with ⟨e₁ | a, m₁⟩
  · rw [Settler.transaction, Tx.transaction_apply_error hrun] at h
    obtain rfl := Except.error.inj (Prod.mk.inj h).1
    rw [Tx.bind_apply_ok hbegin] at hrun
    rcases bind_eq_error.mp hrun with hx | ⟨a, m₂, -, hcommit⟩
    · exact ⟨m₁, hx⟩
    · have hlast : NoCollision (onStore Stm.stmt >>= fun _ => Pure.pure a : Act E α) :=
        hstmt.bind fun _ => .pure _
      exact absurd rfl (hlast _ _ _ hcommit)
  · rw [Settler.transaction, Tx.transaction_eq_ok.mpr hrun] at h
    cases (Prod.mk.inj h).1

theorem settleSubmit_collision {cmd : OrderSubmitCommand}
    (h : settleSubmit cmd m = (.error .uniqueViolation, m')) :
    ∃ order, m.db.order? cmd.orderId = some order ∧ order.terminal = false ∧
      (order.type = .LIMIT → order.id ∉ (m.queues cmd.symbol).ids) ∧
      ∃ t ∈ m.db.trades, ∃ k, t.matchId = some ⟨cmd.commandId, k⟩ := by
  rcases settleSubmit_cases h with ⟨n, -, -, he, -⟩ | ⟨he, -⟩ |
    ⟨market, order, f, -, horder, -, hlive, -, -, htx⟩
  · cases he
  · cases he
  rcases bind_eq_error.mp htx with htx | ⟨a, m₁, -, htx⟩
  · obtain ⟨m₁, hbody⟩ := transaction_collision htx
    obtain ⟨hfree, t, ht, k, e⟩ := submitBody_collision hbody
    refine ⟨order, horder, hlive, fun hl hid => hfree hl ?_, t, ht, k, e⟩
    rwa [((same_transaction m f cmd.symbol).trans (Matcher.same_withFaults _ _)).queues]
  · cases (Prod.mk.inj htx).1

theorem settleCancel_collision {cmd : OrderCancelCommand} :
    settleCancel cmd m ≠ (.error .uniqueViolation, m') := by
  intro h
  rcases settleCancel_cases h with ⟨n, -, -, he, -⟩ | ⟨-, ⟨he, -⟩ | ⟨order, -, ⟨he, -⟩ | ⟨he, -⟩⟩⟩ |
    ⟨market, order, f, -, -, -, -, -, htx⟩
  · cases he
  · cases he
  · cases he
  · cases he
  rcases bind_eq_error.mp htx with htx | ⟨a, m₁, -, htx⟩
  · obtain ⟨m₁, hbody⟩ := transaction_collision htx
    exact absurd rfl (noCollision_cancelBody _ _ _ _ _ hbody)
  · cases (Prod.mk.inj htx).1

end Settler

/-- **When a trade insert violates the unique index.** The command is a `SUBMIT`, its order is live
and does not rest if it is a `LIMIT` order, and the table has a trade of the command already. -/
theorem dispatch_collision {cmd : OrderCommand}
    (h : dispatch cmd m = (.error .uniqueViolation, m')) :
    ∃ sub order, cmd = .SUBMIT sub ∧ m.db.order? sub.orderId = some order ∧ order.terminal = false ∧
      (order.type = .LIMIT → order.id ∉ (m.queues sub.symbol).ids) ∧
      ∃ t ∈ m.db.trades, ∃ k, t.matchId = some ⟨sub.commandId, k⟩ := by
  cases cmd with
  | SUBMIT sub =>
    rcases hs : settleSubmit sub m with ⟨r, m₁⟩
    rw [dispatch_submit_of_settle hs] at h
    rcases r with e | _ | r
    · obtain rfl := Except.error.inj (Prod.mk.inj h).1
      obtain ⟨order, horder⟩ := settleSubmit_collision hs
      exact ⟨sub, order, rfl, horder⟩
    · cases (Prod.mk.inj h).1
    · cases (Prod.mk.inj h).1
  | CANCEL sub =>
    rcases hs : settleCancel sub m with ⟨r, m₁⟩
    rw [dispatch_cancel_of_settle hs] at h
    rcases r with e | _ | r
    · obtain rfl := Except.error.inj (Prod.mk.inj h).1
      exact absurd hs settleCancel_collision
    · cases (Prod.mk.inj h).1
    · cases (Prod.mk.inj h).1

/-! ## Runs -/

/-- The command was delivered in the run, and its handling returned. -/
def Handled (m : Matcher E) (steps : List Step) (cmd : OrderCommand) : Prop :=
  ∃ before faults after, steps = before ++ .deliver cmd faults :: after ∧
    cmd ∈ (m.run before).db.commands ∧
    ∃ r, (dispatch cmd ((m.run before).withFaults faults)).1 = .ok r

/-- The step is no restart, and a command that was not handled before fails, if it does, before its
transaction begins or for a match id that is taken. -/
def Undisturbed (m : Matcher E) (before : List Step) : Step → Prop
  | .deliver cmd faults => cmd ∈ (m.run before).db.commands → Handled m before cmd ∨
      (∃ n ≤ 2, faults = some n) ∨
      ∀ e, (dispatch cmd ((m.run before).withFaults faults)).1 = .error e → e = .uniqueViolation
  | .restart => False
  | _ => True

/-- The step violates the unique index on the match ids. -/
def Collides (m : Matcher E) (before : List Step) : Step → Prop
  | .deliver cmd faults => cmd ∈ (m.run before).db.commands ∧
      (dispatch cmd ((m.run before).withFaults faults)).1 = .error .uniqueViolation
  | _ => False

theorem Handled.of_concat {steps : List Step} {l : Step} {cmd : OrderCommand}
    (h : Handled m (steps ++ [l]) cmd) : Handled m steps cmd ∨
      ∃ faults, l = .deliver cmd faults ∧ cmd ∈ (m.run steps).db.commands ∧
        ∃ r, (dispatch cmd ((m.run steps).withFaults faults)).1 = .ok r := by
  obtain ⟨before, faults, after, heq, hcmd⟩ := h
  rcases after.eq_nil_or_concat with rfl | ⟨after, y, rfl⟩
  · obtain ⟨rfl, he⟩ := List.append_inj' heq rfl
    exact .inr ⟨faults, (List.cons.inj he).1, hcmd⟩
  · rw [List.concat_eq_append, ← List.cons_append, ← List.append_assoc] at heq
    obtain ⟨rfl, -⟩ := List.append_inj' heq rfl
    exact .inl ⟨before, faults, after, rfl, hcmd⟩

/-- A command that fails before its transaction begins leaves tables and queues as they are. -/
theorem dispatch_unread (hs : m.store.Sound) {cmd : OrderCommand} {n : ℕ} (hn : n ≤ 2)
    (hf : m.store.faults = some n) {e : Failure} (h : dispatch cmd m = (.error e, m')) :
    m.Same m' := by
  cases cmd with
  | SUBMIT sub =>
    cases dispatch_submit_of_sound hs h with
    | unread e n hn hf hsame => exact hsame
    | refused e market order hb ht why hsame => exact hsame
    | abortedLimit e market order price hb => exact absurd hf (hb.faults n hn)
    | abortedMarket e market order hb => exact absurd hf (hb.faults n hn)
  | CANCEL sub =>
    cases dispatch_cancel h with
    | unread e n hn hf hsame => exact hsame
    | aborted e market order hf' => exact absurd hf (hf' n hn)

theorem Settled.unread {c : List ℕ} {seen : List OrderCommand} (h : Settled c seen m)
    {cmd : OrderCommand} {n : ℕ} (hn : n ≤ 2) {e : Failure}
    (herr : (dispatch cmd (m.withFaults (some n))).1 = .error e) :
    Settled c seen (m.step (.deliver cmd (some n))) ∧
      (m.step (.deliver cmd (some n))).db = m.db := by
  change Settled c seen (m.deliver cmd (some n)) ∧ (m.deliver cmd (some n)).db = m.db
  rcases deliver_eq m cmd (some n) with ⟨-, heq⟩ | ⟨-, r, m₁, hd, heq⟩
  · rw [heq]
    exact ⟨h, rfl⟩
  rw [hd] at herr
  obtain rfl : r = .error e := herr
  have hs₀ := h.agrees.sound.congr (m.same_withFaults (some n)).framed
    (m.same_withFaults (some n)).db
  have hsame : m.Same (m.deliver cmd (some n)) := by
    rw [heq]
    exact ((m.same_withFaults (some n)).trans (dispatch_unread hs₀ hn rfl hd)).trans
      (m₁.same_withFaults none)
  have hgrows : m.Grows (m.deliver cmd (some n)) := by
    rw [heq]
    have hg := (keepsBooks_dispatch cmd).of_eq hd
    exact hg
  have hcalm : (m.deliver cmd (some n)).store.faults = none := by
    rw [heq]
    rfl
  exact ⟨h.step (.deliver cmd (some n)) (fun _ => id)
    (h.agrees.of_same hsame) hcalm hgrows, hsame.db⟩

/-- What was handled is settled, and the takers of all trades are orders of commands that were
handled. -/
structure Numbering (m : Matcher E) (steps : List Step) (c : List ℕ) (seen : List OrderCommand) :
    Prop where
  settled : Settled c seen (m.run steps)
  handled : ∀ cmd, Handled m steps cmd → cmd ∈ seen
  takers : ∀ t ∈ (m.run steps).db.trades, ∃ sub, OrderCommand.SUBMIT sub ∈ seen ∧
    sub.orderId = t.takerOrderId

/-- Nothing collides: what has traded is closed or rests. -/
theorem Numbering.not_collides (h : m.Initial) {steps : List Step} {c : List ℕ}
    {seen : List OrderCommand} (hn : Numbering m steps c seen) (l : Step) :
    ¬Collides m steps l := by
  cases l with
  | deliver cmd faults =>
    rintro ⟨hcmd, hcollision⟩
    obtain ⟨sub, order, rfl, horder, hlive, hfree, t, ht, k, hmid⟩ :=
      dispatch_collision (Prod.ext hcollision rfl)
    have hs := hn.settled.agrees.safe
    have hst := run_stamped h steps
    -- the trade is one of the order, whose `SUBMIT` was handled
    obtain ⟨o, ho, hsym, hcommand⟩ := hs.sound.commands _ hcmd
    obtain rfl : order = o := Option.some.inj (horder.symm.trans ho)
    obtain ⟨taker, htaker, hct⟩ := hst.trades t ht _ k hmid
    have hid : t.takerOrderId = sub.orderId := hst.orders htaker ho hct hcommand
    obtain ⟨sub', hseen, hid'⟩ := hn.takers t ht
    obtain ⟨hc, o', ho', hsettled⟩ := hn.settled.absorbed _ hseen
    rw [hid', hid] at ho' hc
    obtain rfl : o' = order := Option.some.inj (ho'.symm.trans ho)
    have htype : o'.type = .LIMIT := hsettled.resolve_right (by simp [hlive])
    have hrow := hs.sound.rows _ _ ho
    refine hfree htype ?_
    rw [Db.order?_id ho, ← hsym]
    exact hn.settled.agrees.rests _ _ ho htype (hrow.live hlive).1 hc
  | _ => exact id

theorem mem_step_trades (hs : Safe m) {l : Step} {t : Trade} (ht : t ∈ (m.step l).db.trades) :
    t ∈ m.db.trades ∨ ∃ sub faults, l = .deliver (.SUBMIT sub) faults ∧
      OrderCommand.SUBMIT sub ∈ m.db.commands ∧ sub.orderId = t.takerOrderId := by
  by_cases hd : ∃ cmd faults, l = .deliver cmd faults
  · obtain ⟨cmd, faults, rfl⟩ := hd
    change t ∈ (m.deliver cmd faults).db.trades at ht
    have hs₀ := hs.of_same (m.same_withFaults faults)
    rcases deliver_eq m cmd faults with ⟨-, h⟩ | ⟨hcmd, r, m₁, hd, h⟩
    · rw [h] at ht
      exact .inl ht
    rw [h] at ht
    change t ∈ m₁.db.trades at ht
    cases cmd with
    | SUBMIT sub =>
      rcases submit_settles (m := m.withFaults faults) hs₀ hcmd
        (dispatch_submit_of_sound hs₀.sound hd)
        with heq | ⟨market, order, rates, ts, rows, db₁, hid, hset, heq⟩
      · rw [heq] at ht
        exact .inl ht
      · rw [heq, hset.trades, List.mem_append] at ht
        exact ht.imp_right fun hrow =>
          ⟨sub, faults, rfl, hcmd, hid.symm.trans (hset.matchId t hrow).1.symm⟩
    | CANCEL sub =>
      rw [(dispatch_cancel hd).trades] at ht
      exact .inl ht
  by_cases hr : l = .restart
  · subst hr
    exact .inl ht
  · rw [show (m.step l).db.trades = m.db.trades from
      (step_effect m l.adjusts_any (fun cmd faults e => hd ⟨cmd, faults, e⟩) hr).1.trades] at ht
    exact .inl ht

/-- **One step.** -/
theorem Numbering.step (h : m.Initial) {steps : List Step} {c : List ℕ} {seen : List OrderCommand}
    (hn : Numbering m steps c seen) {l : Step} (hl : Undisturbed m steps l) :
    ∃ c' seen', Numbering m (steps ++ [l]) c' seen' := by
  have hrun : m.run (steps ++ [l]) = (m.run steps).step l := by
    rw [Matcher.run_append, Matcher.run_cons, Matcher.run_nil]
  by_cases hun : ∃ cmd faults, l = .deliver cmd faults ∧ cmd ∉ (m.run steps).db.commands
  · -- a command that was not published
    obtain ⟨cmd, faults, rfl, hcmd⟩ := hun
    have hsame : (m.run steps).step (.deliver cmd faults) = m.run steps := if_neg hcmd
    refine ⟨c, seen, by rw [hrun, hsame]; exact hn.settled, fun x hx => ?_, by
      rw [hrun, hsame]; exact hn.takers⟩
    rcases hx.of_concat with hx | ⟨f, e, hx, -⟩
    · exact hn.handled x hx
    · obtain ⟨rfl, -⟩ := Step.deliver.inj e
      exact absurd hx hcmd
  by_cases hread : ∃ cmd n e, n ≤ 2 ∧ l = .deliver cmd (some n) ∧ cmd ∈ (m.run steps).db.commands ∧
      (dispatch cmd ((m.run steps).withFaults (some n))).1 = .error e
  · -- a command that failed before its transaction
    obtain ⟨cmd, n, e, hle, rfl, hcmd, herr⟩ := hread
    obtain ⟨hsettled, hdb⟩ := hn.settled.unread hle herr
    refine ⟨c, seen, by rw [hrun]; exact hsettled, fun x hx => ?_, by
      rw [hrun, hdb]; exact hn.takers⟩
    rcases hx.of_concat with hx | ⟨f, heq, -, r, hr⟩
    · exact hn.handled x hx
    · obtain ⟨rfl, rfl⟩ := Step.deliver.inj heq
      cases herr.symm.trans hr
  have hcommitting : Committing seen (m.run steps) [l] := by
    refine ⟨?_, trivial⟩
    cases l with
    | deliver cmd faults =>
      have hcmd : cmd ∈ (m.run steps).db.commands := by
        by_contra hno
        exact hun ⟨cmd, faults, rfl, hno⟩
      rcases hr : (dispatch cmd ((m.run steps).withFaults faults)).1 with e | r
      · rcases hl hcmd with hdone | ⟨n, hle, rfl⟩ | hab
        · exact ⟨hcmd, .inl (hn.handled cmd hdone)⟩
        · exact absurd ⟨cmd, n, e, hle, rfl, hcmd, hr⟩ hread
        · obtain rfl := hab e hr
          exact absurd ⟨hcmd, hr⟩ (hn.not_collides h (.deliver cmd faults))
      · exact ⟨hcmd, .inr ⟨r, hr⟩⟩
    | restart => exact hl
    | _ => trivial
  obtain ⟨c', hsettled⟩ := step_settled hn.settled hcommitting
  refine ⟨c', l.delivered ++ seen, hrun ▸ hsettled, fun x hx => ?_, fun t ht => ?_⟩
  · rcases hx.of_concat with hx | ⟨f, rfl, -⟩
    · exact List.mem_append_right _ (hn.handled x hx)
    · exact List.mem_cons_self
  · rw [hrun] at ht
    rcases mem_step_trades hn.settled.agrees.safe ht with ht | ⟨sub, faults, rfl, -, hid⟩
    · obtain ⟨sub, hseen, hid⟩ := hn.takers t ht
      exact ⟨sub, List.mem_append_right _ hseen, hid⟩
    · exact ⟨sub, List.mem_cons_self, hid⟩

/-- **No trade insert violates the unique index**, in a run without restarts in which no settlement
aborts for another reason. -/
theorem run_no_collision (h : m.Initial) {steps : List Step}
    (hu : Justified (Undisturbed m) steps) :
    Justified (fun before l => ¬Collides m before l) steps := by
  have hrun : (∃ c seen, Numbering m steps c seen) ∧
      Justified (fun before l => ¬Collides m before l) steps := by
    induction steps using List.reverseRecOn with
    | nil =>
      refine ⟨⟨[], [], ⟨initial_agrees h, h.faults, fun cmd hcmd => by cases hcmd⟩, ?_, ?_⟩,
        justified_nil⟩
      · rintro cmd ⟨before, faults, after, heq, -⟩
        simp at heq
      · intro t ht
        rw [Matcher.run_nil, h.trades] at ht
        cases ht
    | append_singleton steps l ih =>
      obtain ⟨hsteps, hl⟩ := justified_concat.mp hu
      obtain ⟨⟨c, seen, hn⟩, hno⟩ := ih hsteps
      exact ⟨hn.step h hl, justified_concat.mpr ⟨hno, hn.not_collides h l⟩⟩
  exact hrun.2

end Orbit
