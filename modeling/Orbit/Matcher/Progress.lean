import Orbit.Matcher.Safety
import Orbit.Matcher.Sweep
import Orbit.Store.Affords

/-!
# When a command is settled

What a command asks of the tables and of the book for its transaction to commit, when no statement
fails from outside. The postings of a submit are those of its trades and of the refund of a `MARKET`
`ASK`, those of a cancel the release of its reservation.

* `posts_settleTrades`: trades with makers whose rows are there, under match ids that are new, are
  settled exactly when the accounts can bear their postings.
* `settleSubmit_limit_iff` and `settleSubmit_market_iff`: a submit commits exactly when the book
  lets its orders in and the accounts can bear its postings.
* `settleCancel_iff`: a cancel commits exactly when the accounts can bear the release.
-/

namespace Orbit

open PriceTime

namespace Settler

open Tx

variable {E : Engine}

/-! ## Trades -/

section Trades

variable {s : Store} {market : Market} {taker maker : Order} {price qty : ℚ} {rates : FeeRates}
  {commandId : Uuid}

/-- A wallet statement that takes something away, and a credit. -/
theorem posts_update_credit (hs : s.Calm) {u₁ a₁ u₂ a₂ : String} {b l c : ℚ}
    (hneg : b < 0 ∨ l < 0) :
    Posts id (Stm.walletUpdate u₁ a₁ b l >>= fun _ => creditWallet u₂ a₂ c) s
      [⟨u₁, a₁, b, l⟩, ⟨u₂, a₂, c, 0⟩] :=
  (Stm.posts_walletUpdate hs _ _ hneg).bind fun _ _ _ hm => Stm.posts_walletUpsert hm.calm _ _ _

theorem posts_settleMaker (hs : s.Calm) (market : Market) (rate : ℚ)
    (hlimit : ∃ p, maker.price = some p ∧ 0 < p) (hq : 0 < qty) :
    Posts id (settleMaker market maker price qty rate) s
      (makerPostings market maker price qty rate) := by
  obtain ⟨p, hp, h0⟩ := hlimit
  unfold settleMaker settleMakerWith makerPostings
  cases maker.side with
  | ASK =>
    exact posts_update_credit hs (Or.inr (neg_neg_of_pos hq))
  | BID =>
    simp only [hp, Option.getD_some]
    exact posts_update_credit hs (Or.inr (neg_neg_of_pos (mul_pos h0 hq)))

theorem posts_settleTaker (hs : s.Calm) (market : Market) (rate : ℚ)
    (hlimit : ∀ p, taker.price = some p → 0 < p) (hprice : 0 < price) (hq : 0 < qty) :
    Posts id (settleTaker market taker price qty rate) s
      (takerPostings market taker price qty rate) := by
  have hcost : -(price * qty) < 0 := neg_neg_of_pos (mul_pos hprice hq)
  unfold settleTaker settleTakerWith takerPostings
  cases taker.side with
  | ASK => exact posts_update_credit hs (Or.inr (neg_neg_of_pos hq))
  | BID =>
    cases taker.type with
    | MARKET => exact posts_update_credit hs (Or.inl hcost)
    | LIMIT =>
      cases hp : taker.price with
      | none => exact posts_update_credit hs (Or.inl hcost)
      | some p => exact posts_update_credit hs (Or.inr (neg_neg_of_pos (mul_pos (hlimit p hp) hq)))

/-- A trade of the engine with an order whose row is there, at its limit. -/
structure Tradable (db : Db) (t : EngineTrade) (maker : Order) : Prop where
  row : db.order? t.makerOrderId = some maker
  price : maker.price = some t.tradePrice
  price_pos : 0 < t.tradePrice
  qty_pos : 0 < t.tradeQuantity

/-- The postings of one trade. -/
def fillPostings (market : Market) (taker : Order) (rates : FeeRates) (t : EngineTrade)
    (maker : Order) : List Posting :=
  makerPostings market maker t.tradePrice t.tradeQuantity rates.maker ++
    takerPostings market taker t.tradePrice t.tradeQuantity rates.taker

/-- The postings of trades, with the makers that `db` has. -/
def tradePostings (db : Db) (market : Market) (taker : Order) (rates : FeeRates)
    (ts : List EngineTrade) : List Posting :=
  ts.flatMap fun t => ((db.order? t.makerOrderId).map (fillPostings market taker rates t)).getD []

theorem tradePostings_congr (market : Market) (taker : Order) (rates : FeeRates) {db db' : Db}
    {ts : List EngineTrade}
    (h : ∀ t ∈ ts, db'.order? t.makerOrderId = db.order? t.makerOrderId) :
    tradePostings db' market taker rates ts = tradePostings db market taker rates ts := by
  unfold tradePostings
  rw [List.flatMap_eq_foldl, List.flatMap_eq_foldl]
  exact List.foldl_ext _ _ _ fun _ t ht => by rw [h t ht]

/-- **Settled trades make their postings.** -/
theorem Settles.posted {idx : ℕ} {db db' : Db} {ts : List EngineTrade} {rows : List Trade}
    (h : Settles market taker rates commandId idx db ts rows db')
    (hd : (ts.map (·.makerOrderId)).Nodup) :
    Posted db db' (tradePostings db market taker rates ts) := by
  induction h with
  | nil => exact Posted.refl_of_wallets rfl
  | @cons idx db db₁ db' t ts row rows maker hf _ ih =>
    rw [List.map_cons, List.nodup_cons] at hd
    -- the rows of the other makers are as they were
    have hrest : tradePostings db₁ market taker rates ts =
        tradePostings db market taker rates ts := by
      refine tradePostings_congr market taker rates fun t' ht' => ?_
      rw [Db.order?_of_modify hf.orders (makerAfter_id _ _), if_neg]
      exact fun e => hd.1 (e ▸ List.mem_map_of_mem ht')
    have hhead : ((db.order? t.makerOrderId).map (fillPostings market taker rates t)).getD [] =
        fillPostings market taker rates t maker := by
      rw [hf.hmaker]
      rfl
    rw [tradePostings, List.flatMap_cons, hhead]
    have hposted := ih hd.2
    rw [hrest] at hposted
    exact hf.posted.trans hposted

variable (hlimit : ∀ p, taker.price = some p → 0 < p)

include hlimit in
theorem posts_settleFill {t : EngineTrade} {matchId : MatchId} (hs : s.Calm)
    (ht : Tradable s.db t maker) (hfresh : ∀ t' ∈ s.db.trades, t'.matchId ≠ some matchId)
    (market : Market) (rates : FeeRates) (sequence : ℕ) :
    Posts id (settleFill market taker maker t rates matchId sequence) s
      (fillPostings market taker rates t maker) := by
  have hmaker : ∃ p, maker.price = some p ∧ 0 < p := ⟨_, ht.price, ht.price_pos⟩
  have hkey : maker.id = t.makerOrderId := Table.key_of_find? ht.row
  refine (Stm.posts_tradeCreate hs hfresh).bind fun row s₁ h₁ hm₁ => ?_
  refine (posts_settleMaker hm₁.calm market _ hmaker ht.qty_pos).bind fun _ s₂ _ hm₂ => ?_
  refine (posts_settleTaker hm₂.calm market _ hlimit ht.price_pos ht.qty_pos).bind_nil
    fun _ s₃ _ hm₃ => ?_
  have hrow : (s₃.db.order? maker.id).isSome := by
    have hkeys : s₃.db.orders.map Table.key = s.db.orders.map Table.key :=
      hm₃.keys.trans (hm₂.keys.trans hm₁.keys)
    rw [Db.order?_isSome_of_keys hkeys, hkey, ht.row]
    rfl
  exact (Stm.posts_orderUpdate hm₃.calm (makerAfter_id maker _) hrow).bind_nil fun _ _ _ hm₄ =>
    .pure hm₄.calm _

theorem posts_onStore {α : Type} {m : Matcher E} {x : Stm α} {ps : List Posting}
    (hx : Posts id x m.store ps) : Posts Matcher.store (onStore x : Act E α) m ps :=
  hx.zoom fun _ _ => rfl

theorem onStore_query_calm {α : Type} {m : Matcher E} (hs : m.store.Calm) (f : Db → α) :
    onStore (Stm.query f) m = (.ok (f m.db), m) := by
  simp only [onStore, Tx.zoom, Stm.query_calm f hs]
  rfl

include hlimit in
theorem posts_settleTrade {m : Matcher E} {t : EngineTrade} {matchId : MatchId} (hs : m.store.Calm)
    (ht : Tradable m.db t maker) (hfresh : ∀ t' ∈ m.db.trades, t'.matchId ≠ some matchId)
    (market : Market) (rates : FeeRates) :
    Posts Matcher.store (settleTrade market taker rates matchId t) m
      (fillPostings market taker rates t maker) := by
  have hfind : (onStore (Stm.orderFindOrThrow t.makerOrderId) : Act E Order)
      m = (.ok maker, m) := by
    simp only [onStore, Tx.zoom, Stm.orderFindOrThrow_calm hs ht.row]
  have hread : Posts Matcher.store
      (onStore (Stm.orderFindOrThrow t.makerOrderId) : Act E Order) m [] :=
    .of_eq hfind (.of_eq rfl rfl rfl rfl hs)
  refine hread.bind fun maker' m₁ h₁ _ => ?_
  rw [hfind] at h₁
  cases h₁
  have hseq : Posts Matcher.store (nextSequence : Act E ℕ) m [] :=
    .of_eq rfl (.of_eq rfl rfl rfl rfl hs)
  refine hseq.bind fun n m₂ h₂ _ => ?_
  cases h₂
  exact posts_onStore (posts_settleFill hlimit hs ht hfresh market rates _)

include hlimit in
/-- **Trades are settled exactly when the accounts can bear their postings.** -/
theorem posts_settleTrades {ts : List EngineTrade} {m : Matcher E} {idx : ℕ} (hs : m.store.Calm)
    (ht : ∀ t ∈ ts, ∃ maker, Tradable m.db t maker) (hd : (ts.map (·.makerOrderId)).Nodup)
    (hfresh : ∀ t' ∈ m.db.trades, ∀ k, idx ≤ k → k < idx + ts.length →
      t'.matchId ≠ some ⟨commandId, k⟩) (market : Market) (rates : FeeRates) :
    Posts Matcher.store (settleTrades market taker rates commandId idx ts) m
      (tradePostings m.db market taker rates ts) := by
  induction ts generalizing m idx with
  | nil => exact .pure hs _
  | cons t ts ih =>
    obtain ⟨maker, hmaker⟩ := ht t (by simp)
    rw [List.map_cons, List.nodup_cons] at hd
    have hhead : ((m.db.order? t.makerOrderId).map (fillPostings market taker rates t)).getD [] =
        fillPostings market taker rates t maker := by
      rw [hmaker.row]
      rfl
    rw [tradePostings, List.flatMap_cons, hhead]
    have hone := posts_settleTrade hlimit hs hmaker
      (fun t' ht' => hfresh t' ht' idx le_rfl (by simp)) market rates
    refine hone.bind fun row m₁ h₁ hm₁ => ?_
    obtain ⟨maker', hfill⟩ := settleTrade_eq_ok h₁
    -- the other makers' rows are as they were, and the row of this trade has another match id
    have hsame : ∀ t' ∈ ts, m₁.db.order? t'.makerOrderId = m.db.order? t'.makerOrderId := by
      intro t' ht'
      rw [Db.order?_of_modify hfill.orders (makerAfter_id _ _), if_neg]
      exact fun e => hd.1 (e ▸ List.mem_map_of_mem ht')
    change Posts Matcher.store _ m₁ (tradePostings m.db market taker rates ts)
    rw [← tradePostings_congr market taker rates hsame]
    refine (ih hm₁.calm (fun t' ht' => ?_) hd.2 fun t' ht' k hk hk' => ?_).bind_nil
      fun _ _ _ hm => .pure hm.calm _
    · obtain ⟨x, hx⟩ := ht t' (by simp [ht'])
      exact ⟨x, { hx with row := (hsame t' ht').trans hx.row }⟩
    · rw [hfill.trades, List.mem_append, List.mem_singleton] at ht'
      rcases ht' with ht' | rfl
      · exact hfresh t' ht' k (by omega) (by rw [List.length_cons]; omega)
      · rw [hfill.hrow]
        intro e
        have : idx = k := congrArg MatchId.matchIdx (Option.some.inj e)
        omega

end Trades

/-! ## Events -/

section Events

theorem total_onStore {α : Type} {x : Stm α} (hx : Total Store.Calm x) :
    Total (fun m : Matcher E => m.store.Calm) (onStore x : Act E α) :=
  fun m hm => (hx m.store hm).zoom fun _ h => h

theorem total_publishTrades (symbol : String) (ts : List Trade) :
    Total Store.Calm (publishTrades symbol ts) := by
  induction ts with
  | nil => exact .pure _
  | cons t ts ih =>
    have hid : Total Store.Calm (tradeEventId t) := by
      unfold tradeEventId
      split
      · exact .pure _
      · exact Stm.total_randomUUID.bind fun _ => .pure _
    exact (hid.bind fun _ => (Stm.total_publish _ _ _).bind fun _ => Stm.total_dateNow.bind fun _ =>
      (Stm.total_publish _ _ _).bind fun _ => Stm.total_publish _ _ _).bind fun _ => ih

theorem total_publishSnapshot (symbol : String) :
    Total (fun m : Matcher E => m.store.Calm) (publishSnapshot symbol : Act E Unit) := by
  have hbook : Total (fun m : Matcher E => m.store.Calm) (getOrderbook symbol : Act E Snapshot) :=
    fun _ h => ⟨_, _, rfl, h⟩
  have hseq : Total (fun m : Matcher E => m.store.Calm) (nextOrderbookSeq : Act E ℕ) :=
    fun _ h => ⟨_, _, rfl, h⟩
  exact hbook.bind fun _ => (total_onStore Stm.total_randomUUID).bind fun _ => hseq.bind fun _ =>
    (total_onStore Stm.total_dateNow).bind fun _ => total_onStore (Stm.total_publish _ _ _)

theorem total_publishSubmitEvents (order : Order) (trades : List Trade) (symbol : String) :
    Total (fun m : Matcher E => m.store.Calm)
      (publishSubmitEvents order trades symbol : Act E Unit) :=
  (total_onStore <| Stm.total_randomUUID.bind fun _ => Stm.total_dateNow.bind fun _ =>
    (Stm.total_publish _ _ _).bind fun _ => total_publishTrades _ _).bind fun _ =>
      total_publishSnapshot _

theorem total_publishCancelEvents (order : Order) :
    Total (fun m : Matcher E => m.store.Calm) (publishCancelEvents order : Act E Unit) :=
  (total_onStore <| Stm.total_randomUUID.bind fun _ => Stm.total_dateNow.bind fun _ =>
    (Stm.total_publish _ _ _).bind fun _ => Stm.total_randomUUID.bind fun _ =>
      Stm.total_dateNow.bind fun _ => Stm.total_publish _ _ _).bind fun _ =>
        total_publishSnapshot _

/-- Events are published whatever the accounts are. -/
theorem posts_of_emits {α : Type} {m : Matcher E} {x : Act E α}
    (hx : Total (fun m : Matcher E => m.store.Calm) x) (he : Emits x) (hs : m.store.Calm) :
    Posts Matcher.store x m [] := by
  obtain ⟨a, m', hm', hc⟩ := hx m hs
  have hemit := (he.of_eq hm').emitted
  exact .of_eq hm' (.of_eq hemit.wallets hemit.users hemit.assets
    (congrArg (List.map Table.key) hemit.orders) hc)

end Events

/-! ## Submits -/

section Submits

variable {market : Market} {order : Order} {cmd : OrderSubmitCommand} {rates : FeeRates}
  {m : Matcher E} {ts : List EngineTrade}

/-- The trades `ts` can be recorded for a command of `order`: the rows of the orders are there, and
the match ids are new. -/
structure Matchable (db : Db) (commandId : Uuid) (order : Order)
    (ts : List EngineTrade) : Prop where
  limit : ∀ p, order.price = some p → 0 < p
  row : (db.order? order.id).isSome
  makers : ∀ t ∈ ts, ∃ maker, Tradable db t maker
  nodup : (ts.map (·.makerOrderId)).Nodup
  fresh : ∀ t' ∈ db.trades, ∀ k < ts.length, t'.matchId ≠ some ⟨commandId, k⟩

theorem Matchable.posts (h : Matchable m.db cmd.commandId order ts) (hs : m.store.Calm)
    (market : Market) (rates : FeeRates) :
    Posts Matcher.store (settleTrades market order rates cmd.commandId 0 ts) m
      (tradePostings m.db market order rates ts) :=
  posts_settleTrades h.limit hs h.makers h.nodup
    (fun t' ht' k _ hk => h.fresh t' ht' k (by omega)) market rates

/-- A row that was there is still there. -/
theorem isSome_of_made {s s' : Store} {ps : List Posting} (h : s.Made s' ps) {k : ℕ}
    (hk : (s.db.order? k).isSome) : (s'.db.order? k).isSome :=
  (Db.order?_isSome_of_keys h.keys k).mpr hk

/-- The matching of a `LIMIT` order that the book lets in. -/
theorem posts_matchSubmit_limit {price : ℚ} (hs : m.store.Calm) (ht : order.type = .LIMIT)
    (hp : order.price = some price) (h0 : 0 < order.leaveQty)
    (hid : order.id ∉ (m.queues cmd.symbol).ids)
    (hts : ts = ((m.queues cmd.symbol).add order.id (sideToEngine order.side) price
      order.leaveQty).fills.map .ofFill) (h : Matchable m.db cmd.commandId order ts)
    (market : Market) (rates : FeeRates) :
    Posts Matcher.store (matchSubmit market order cmd rates) m
      (tradePostings m.db market order rates ts) := by
  rw [matchSubmit_limit ht hp]
  obtain ⟨b, -, hadd⟩ := bookAdd_new m cmd.symbol (sideToEngine order.side) price hid h0
  have hbook : Posts Matcher.store (bookAdd cmd.symbol order.id (sideToEngine order.side) price
      order.leaveQty) m [] := .of_eq hadd (.of_eq rfl rfl rfl rfl hs)
  refine hbook.bind fun res m₁ h₁ _ => ?_
  rw [hadd] at h₁
  cases h₁
  rw [← hts]
  have hset : Posts Matcher.store (settleTrades market order rates cmd.commandId 0 ts)
      (m.setBook cmd.symbol b) (tradePostings m.db market order rates ts) :=
    Matchable.posts (m := m.setBook cmd.symbol b) h hs market rates
  refine hset.bind_nil fun rows m₂ _ hm₂ => ?_
  exact (posts_onStore (Stm.posts_orderUpdate hm₂.calm (orderAfterMatch_id _ _)
    (isSome_of_made hm₂ h.row))).bind_nil fun _ _ _ hm₃ => .pure hm₃.calm _

/-- A sweep that returns was not refused by the book. -/
theorem bookSweep_of_sweepLevels {symbol : String} {commandId : Uuid} {lvls : List BookLevel}
    {counter idx : ℕ} {remaining : ℚ} {m' : Matcher E} {r : List Trade × ℚ}
    (h : sweepLevels symbol market order rates commandId counter idx
      remaining lvls m = (.ok r, m')) :
    ∃ res, bookSweep order.id order.side counter remaining lvls (m.book symbol) = .ok res := by
  induction lvls generalizing counter idx remaining m m' r with
  | nil => exact ⟨_, rfl⟩
  | cons lvl lvls ih =>
    by_cases h0 : remaining ≤ 0
    · exact ⟨_, bookSweep_of_nonpos h0 _ _⟩
    rcases hadd : E.add (m.book symbol) (sweepId order.id counter)
      (sideToEngine order.side) lvl.price
      (min lvl.quantity remaining) with msg | ⟨b₁, sweep⟩
    · have hbook : bookAdd symbol (sweepId order.id counter) (sideToEngine order.side) lvl.price
          (min lvl.quantity remaining) m = (.error (.engine msg), m) := by
        simp only [bookAdd, hadd]
      rw [sweepLevels_cons, if_neg h0, Tx.bind_apply_error hbook] at h
      cases h
    rcases hset : settleTrades market order rates commandId idx sweep.trades m with ⟨e | fills, m₂⟩
    · rw [sweepTurn_error h0 hadd hset] at h
      cases h
    obtain ⟨books, hbooks, heq⟩ := sweepTurn_ok h0 hadd hset lvls
    rw [heq] at h
    obtain ⟨r', m₃, hrest, -⟩ := Tx.bind_eq_ok.mp h
    obtain ⟨⟨b', us, rest⟩, hus⟩ := ih hrest
    rw [Matcher.book_withBooks, hbooks] at hus
    exact ⟨_, (bookSweep_cons_eq_ok h0).mpr ⟨b₁, sweep, us, hadd, hus, rfl⟩⟩

/-- The sweep of a `MARKET` order that the book lets in. -/
theorem posts_sweepLevels {symbol : String} {commandId : Uuid} {lvls : List BookLevel} {left : ℚ}
    {b' : E.Book} {ps : List Posting}
    (hsweep : bookSweep order.id order.side 0 order.quantity lvls
      (m.book symbol) = .ok (b', ts, left))
    (hset : Posts Matcher.store (settleTrades market order rates commandId 0 ts) m ps) :
    Posts Matcher.store
      (sweepLevels symbol market order rates commandId 0 0 order.quantity lvls) m ps := by
  obtain ⟨books, heq, -⟩ := sweepLevels_eq_settleTrades market rates commandId 0 hsweep
  constructor
  · intro ha
    obtain ⟨rows, m', h⟩ := hset.returns ha
    rw [h] at heq
    exact ⟨_, _, heq⟩
  · intro a m' h
    rcases hrun : settleTrades market order rates commandId 0 ts m with ⟨e | rows, m₁⟩
    · rw [hrun, h] at heq
      cases heq
    · rw [hrun, h] at heq
      have hstore : m'.store = m₁.store := congrArg (·.2.store) heq
      rw [hstore]
      exact hset.made hrun

theorem residualAfter_id (order : Order) (r : ℚ) (o : Order) :
    (residualAfter order r o).id = o.id := rfl

/-- The matching of a `MARKET` order that the book lets in. -/
theorem posts_matchSubmit_market {left : ℚ} {b' : E.Book} (hs : m.store.Calm)
    (ht : order.type = .MARKET)
    (hsweep : bookSweep order.id order.side 0 order.quantity
      (oppositeLevels order.side (E.getOrderbook (m.book cmd.symbol))) (m.book cmd.symbol) =
        .ok (b', ts, left)) (h : Matchable m.db cmd.commandId order ts)
    (market : Market) (rates : FeeRates) :
    Posts Matcher.store (matchSubmit market order cmd rates) m
      (tradePostings m.db market order rates ts ++ residualPostings market order left) := by
  rw [matchSubmit_market ht, executeMarketOrder_eq]
  have hbook : Posts Matcher.store (getOrderbook cmd.symbol) m [] :=
    .of_eq rfl (.of_eq rfl rfl rfl rfl hs)
  refine hbook.bind fun snapshot m₁ h₁ _ => ?_
  cases h₁
  have hswept := posts_sweepLevels hsweep (h.posts hs market rates)
  refine hswept.bind fun r m₁ h₁ hm₁ => ?_
  -- what remains is what the book's sweep left
  obtain ⟨books, heq, -⟩ := sweepLevels_eq_settleTrades market rates cmd.commandId 0 hsweep
  obtain rfl : r.2 = left := by
    rcases hrun : settleTrades market order rates cmd.commandId 0 ts m with ⟨e | rows, m₂⟩
    · rw [hrun, h₁] at heq
      cases heq
    · rw [hrun, h₁] at heq
      exact congrArg Prod.snd (Except.ok.inj (Prod.mk.inj heq).1)
  have hupdate := posts_onStore (Stm.posts_orderUpdate hm₁.calm
    (orderAfterMatch_id r.2 order.quantity) (isSome_of_made hm₁ h.row))
  refine hupdate.bind fun o m₂ _ hm₂ => ?_
  have hrow : (m₂.store.db.order? order.id).isSome := isSome_of_made hm₂ (isSome_of_made hm₁ h.row)
  have hclose : ∀ {s : Store}, s.Calm → (s.db.order? order.id).isSome →
      Posts id (Stm.orderUpdate order.id (residualAfter order r.2) >>= fun _ => pure ()) s [] :=
    fun hc hr => (Stm.posts_orderUpdate hc (residualAfter_id order r.2) hr).bind_nil
      fun _ _ _ hm => .pure hm.calm _
  by_cases hleft : 0 < r.2
  · simp only [hleft, if_true]
    have hres : Posts id (settleResidual market order r.2) m₂.store
        (residualPostings market order r.2) := by
      unfold settleResidual residualPostings
      by_cases hside : order.side = .ASK
      · simp only [hside, if_true, hleft, true_and]
        exact (Stm.posts_walletUpdate hm₂.calm _ _ (Or.inr (neg_neg_of_pos hleft))).bind_nil
          fun _ _ _ hm => hclose hm.calm (isSome_of_made hm hrow)
      · simp only [hside, if_false, and_false]
        exact hclose hm₂.calm hrow
    exact (posts_onStore hres).bind_nil fun _ _ _ hm => .pure hm.calm _
  · have hnil : residualPostings market order r.2 = [] := if_neg fun h => hleft h.1
    simp only [hleft, if_false]
    change Posts Matcher.store _ m₂ (residualPostings market order r.2)
    rw [hnil]
    exact .pure hm₂.calm _

/-- A submit reads its order back and publishes. -/
theorem posts_submitBody {ps : List Posting} (hrow : (m.db.order? order.id).isSome)
    (h : Posts Matcher.store
      (matchSubmit market order cmd ⟨feeRate market.makerFeeBp, feeRate market.takerFeeBp⟩) m ps) :
    Posts Matcher.store (submitBody market order cmd) m ps := by
  refine h.bind_nil fun rows m₁ _ hm₁ => ?_
  refine (posts_onStore (Stm.posts_orderFindOrThrow hm₁.calm (isSome_of_made hm₁ hrow))).bind_nil
    fun o m₂ _ hm₂ => ?_
  exact (posts_of_emits (total_publishSubmitEvents _ _ _) (emits_publishSubmitEvents _ _ _)
    hm₂.calm).bind_nil fun _ _ _ hm => .pure hm.calm _

/-- A transaction begins and commits. -/
theorem posts_transaction {α : Type} {x : Act E α} {ps : List Posting}
    (hx : Posts Matcher.store x m ps) (hs : m.store.Calm) :
    Posts Matcher.store (transaction x) m ps := by
  have hstmt : ∀ {m : Matcher E}, m.store.Calm → onStore Stm.stmt m = (.ok (), m) := by
    intro m hm
    simp only [onStore, Tx.zoom, Stm.stmt_calm hm]
  have hposts : ∀ {m : Matcher E}, m.store.Calm → Posts Matcher.store (onStore Stm.stmt) m [] :=
    fun hm => .of_eq (hstmt hm) (.of_eq rfl rfl rfl rfl hm)
  have hbody : Posts Matcher.store (onStore Stm.stmt >>= fun _ => x >>= fun a =>
      onStore Stm.stmt >>= fun _ => pure a) m ps := by
    refine (hposts hs).bind fun _ m₁ h₁ _ => ?_
    rw [hstmt hs] at h₁
    cases h₁
    exact hx.bind_nil fun _ _ _ hm => (hposts hm.calm).bind_nil fun _ _ _ hm => .pure hm.calm _
  constructor
  · intro ha
    obtain ⟨a, m', h⟩ := hbody.returns ha
    exact ⟨a, m', Tx.transaction_eq_ok.mpr h⟩
  · intro a m' h
    exact hbody.made (Tx.transaction_eq_ok.mp h)

/-- `settleSubmit` of an order that passes the guards runs one transaction. -/
theorem settleSubmit_eq (hs : m.store.Calm) (hm : m.db.market? cmd.symbol = some market)
    (ho : m.db.order? cmd.orderId = some order)
    (hc : ¬(order.commandId.isSome ∧ order.commandId ≠ some cmd.commandId))
    (hlive : order.terminal = false) :
    settleSubmit cmd m = (transaction (submitBody market order cmd) >>= fun r => pure (some r))
      (m.setBook cmd.symbol (m.book cmd.symbol)) := by
  simp only [settleSubmit, settleSubmitWith, Stm.marketFind, Stm.orderFind]
  rw [Tx.bind_apply_ok (onStore_query_calm hs _)]
  simp only [hm]
  rw [Tx.bind_apply_ok (onStore_query_calm hs _)]
  simp only [ho]
  rw [if_neg hc, if_neg (Bool.eq_false_iff.mp hlive)]
  rfl

/-- A submit that passes the guards returns exactly when its body does, and its result then. -/
theorem settleSubmit_eq_ok (hs : m.store.Calm) (hm : m.db.market? cmd.symbol = some market)
    (ho : m.db.order? cmd.orderId = some order)
    (hc : ¬(order.commandId.isSome ∧ order.commandId ≠ some cmd.commandId))
    (hlive : order.terminal = false) {r : Option (Order × List Trade)} {m' : Matcher E}
    (h : settleSubmit cmd m = (.ok r, m')) :
    ∃ a m₁, r = some a ∧
      submitBody market order cmd (m.setBook cmd.symbol (m.book cmd.symbol)) = (.ok a, m₁) := by
  rw [settleSubmit_eq hs hm ho hc hlive] at h
  obtain ⟨a, m₁, h₁, h⟩ := Tx.bind_eq_ok.mp h
  obtain ⟨rfl, rfl⟩ := Tx.pure_eq_ok.mp h
  have hbody := Tx.transaction_eq_ok.mp h₁
  have hbegin : onStore Stm.stmt (m.setBook cmd.symbol (m.book cmd.symbol)) =
      (.ok (), m.setBook cmd.symbol (m.book cmd.symbol)) := by
    have hcalm : (m.setBook cmd.symbol (m.book cmd.symbol)).store.Calm := hs
    simp only [onStore, Tx.zoom, Stm.stmt_calm hcalm]
  rw [Tx.bind_apply_ok hbegin] at hbody
  obtain ⟨a', m₂, h₂, hbody⟩ := Tx.bind_eq_ok.mp hbody
  obtain ⟨_, m₃, -, hbody⟩ := Tx.bind_eq_ok.mp hbody
  obtain ⟨rfl, -⟩ := Tx.pure_eq_ok.mp hbody
  exact ⟨a', m₂, rfl, h₂⟩

theorem posts_settleSubmit {ps : List Posting} (hs : m.store.Calm)
    (hm : m.db.market? cmd.symbol = some market) (ho : m.db.order? cmd.orderId = some order)
    (hc : ¬(order.commandId.isSome ∧ order.commandId ≠ some cmd.commandId))
      (hlive : order.terminal = false)
    (h : Posts Matcher.store
      (matchSubmit market order cmd ⟨feeRate market.makerFeeBp, feeRate market.takerFeeBp⟩)
      (m.setBook cmd.symbol (m.book cmd.symbol)) ps) :
    Posts Matcher.store (settleSubmit cmd) m ps := by
  have hrow : (m.db.order? order.id).isSome := by
    rw [Db.order?_id ho, ho]
    rfl
  have hbody := posts_submitBody (m := m.setBook cmd.symbol (m.book cmd.symbol)) hrow h
  have htx := (posts_transaction hbody hs).bind_nil fun r m₁ _ hm₁ => Posts.pure hm₁.calm (some r)
  constructor
  · intro ha
    obtain ⟨r, m', h⟩ := htx.returns ha
    exact ⟨r, m', (settleSubmit_eq hs hm ho hc hlive).trans h⟩
  · intro r m' h
    exact htx.made ((settleSubmit_eq hs hm ho hc hlive).symm.trans h)

/-- **A `LIMIT` submit commits** exactly when its id does not rest and the accounts can bear the
postings of its trades. -/
theorem settleSubmit_limit_iff {price : ℚ} (hs : m.store.Calm)
    (hm : m.db.market? cmd.symbol = some market) (ho : m.db.order? cmd.orderId = some order)
    (hc : ¬(order.commandId.isSome ∧ order.commandId ≠ some cmd.commandId))
      (hlive : order.terminal = false)
    (ht : order.type = .LIMIT) (hp : order.price = some price) (h0 : 0 < order.leaveQty)
    (hts : ts = ((m.queues cmd.symbol).add order.id (sideToEngine order.side) price
      order.leaveQty).fills.map .ofFill)
    (hmatch : order.id ∉ (m.queues cmd.symbol).ids → Matchable m.db cmd.commandId order ts) :
    (∃ r m', settleSubmit cmd m = (.ok (some r), m')) ↔ order.id ∉ (m.queues cmd.symbol).ids ∧
      Affords m.db (tradePostings m.db market order
        ⟨feeRate market.makerFeeBp, feeRate market.takerFeeBp⟩ ts) := by
  have hq := m.queues_setBook_book cmd.symbol cmd.symbol
  have hposts : order.id ∉ (m.queues cmd.symbol).ids → Posts Matcher.store (settleSubmit cmd) m
      (tradePostings m.db market order ⟨feeRate market.makerFeeBp,
      feeRate market.takerFeeBp⟩ ts) := by
    intro hid
    refine posts_settleSubmit hs hm ho hc hlive ?_
    exact posts_matchSubmit_limit (m := m.setBook cmd.symbol (m.book cmd.symbol)) hs ht hp h0
      (by rwa [hq]) (by rw [hq]; exact hts) (hmatch hid) market _
  constructor
  · rintro ⟨r, m', h⟩
    obtain ⟨a, m₁, -, hbody⟩ := settleSubmit_eq_ok hs hm ho hc hlive h
    obtain ⟨-, -, hid, -⟩ := submitBody_limit_eq_ok ht h0 hbody
    rw [hq] at hid
    exact ⟨hid, ((hposts hid).made h).affords⟩
  · rintro ⟨hid, ha⟩
    obtain ⟨r, m', h⟩ := (hposts hid).returns ha
    obtain ⟨a, m₁, rfl, -⟩ := settleSubmit_eq_ok hs hm ho hc hlive h
    exact ⟨a, m', h⟩

/-- **A `MARKET` submit commits** exactly when the turns of its sweep find their ids free and the
accounts can bear the postings of its trades and its refund. -/
theorem settleSubmit_market_iff {l : List (Resting ℕ ℚ ℚ)} (hs : m.store.Calm)
    (hm : m.db.market? cmd.symbol = some market) (ho : m.db.order? cmd.orderId = some order)
    (hc : ¬(order.commandId.isSome ∧ order.commandId ≠ some cmd.commandId))
      (hlive : order.terminal = false)
    (ht : order.type = .MARKET) (h0 : 0 < order.quantity)
    (hl : (m.queues cmd.symbol).queue (sideToEngine order.side).opp = l)
    (hmatch : Matchable m.db cmd.commandId order ((sweepFill order.quantity l).fills.map .ofFill)) :
    (∃ r m', settleSubmit cmd m = (.ok (some r), m')) ↔
      TurnsFree order.id 0 ((m.queues cmd.symbol).queue (sideToEngine order.side)) l (levels l)
        bookLimit order.quantity ∧
      Affords m.db (tradePostings m.db market order
          ⟨feeRate market.makerFeeBp, feeRate market.takerFeeBp⟩
          ((sweepFill order.quantity l).fills.map .ofFill) ++
        residualPostings market order (sweepRemaining order.quantity l)) := by
  have hbook : (m.setBook cmd.symbol (m.book cmd.symbol)).book cmd.symbol = m.book cmd.symbol :=
    m.book_setBook_self _ _
  have hfree := bookSweep_snapshot_isOk_iff (m.book cmd.symbol) order.id order.side h0.le
  rw [show (E.resting (m.book cmd.symbol)).queue (sideToEngine order.side).opp = l from hl] at hfree
  have hposts : ∀ res, bookSweep order.id order.side 0 order.quantity
        (oppositeLevels order.side (E.getOrderbook (m.book cmd.symbol)))
        (m.book cmd.symbol) = .ok res →
      Posts Matcher.store (settleSubmit cmd) m (tradePostings m.db market order
          ⟨feeRate market.makerFeeBp, feeRate market.takerFeeBp⟩
          ((sweepFill order.quantity l).fills.map .ofFill) ++
        residualPostings market order (sweepRemaining order.quantity l)) := by
    rintro ⟨b', ts, left⟩ hsweep
    obtain ⟨hleft, hts, -⟩ := bookSweep_snapshot_eq_ok h0.le hsweep
    rw [show (E.resting (m.book cmd.symbol)).queue (sideToEngine order.side).opp = l from hl]
      at hleft hts
    change left = sweepRemaining order.quantity l at hleft
    change ts = (sweepFill order.quantity l).fills.map .ofFill at hts
    subst hleft hts
    refine posts_settleSubmit hs hm ho hc hlive ?_
    rw [← hbook] at hsweep
    exact posts_matchSubmit_market (m := m.setBook cmd.symbol (m.book cmd.symbol)) hs
      ht hsweep hmatch
      market _
  constructor
  · rintro ⟨r, m', h⟩
    obtain ⟨a, m₁, -, hbody⟩ := settleSubmit_eq_ok hs hm ho hc hlive h
    obtain ⟨rows, m₂, hrun, -⟩ := submitBody_eq_ok hbody
    rw [matchSubmit_market ht, executeMarketOrder_eq] at hrun
    obtain ⟨snapshot, m₃, hsnap, hrun⟩ := Tx.bind_eq_ok.mp hrun
    cases hsnap
    obtain ⟨r', m₄, hlevels, -⟩ := Tx.bind_eq_ok.mp hrun
    obtain ⟨res, hsweep⟩ := bookSweep_of_sweepLevels hlevels
    rw [hbook] at hsweep
    exact ⟨hfree.mp ⟨res, hsweep⟩, ((hposts res hsweep).made h).affords⟩
  · rintro ⟨hturns, ha⟩
    obtain ⟨res, hsweep⟩ := hfree.mpr hturns
    obtain ⟨r, m', h⟩ := (hposts res hsweep).returns ha
    obtain ⟨a, m₁, rfl, -⟩ := settleSubmit_eq_ok hs hm ho hc hlive h
    exact ⟨a, m', h⟩

/-- The trades of a crossing can be recorded, under match ids that are new. -/
theorem Crossing.matchable {finish : Order → Order} {fs : List (Fill ℕ ℚ ℚ)}
    {rest : List (Resting ℕ ℚ ℚ)} (h : Crossing m cmd.symbol order finish fs rest) (hs : Safe m)
    (hfresh : ∀ t ∈ m.db.trades, ∀ k < fs.length, t.matchId ≠ some ⟨cmd.commandId, k⟩) :
    Matchable m.db cmd.commandId order (fs.map .ofFill) where
  limit p hp := (hs.sound.rows _ _ h.horder).price_pos hp
  row := Option.isSome_of_eq_some h.horder
  makers t ht := by
    obtain ⟨f, hf, rfl⟩ := List.mem_map.mp ht
    obtain ⟨maker, hmakes⟩ := hs.backed.makes tracks_le h.consumed hf
    exact ⟨maker, hmakes.row, hmakes.price, (hs.sound.rows _ _ hmakes.row).price_pos hmakes.price,
      hmakes.pos⟩
  nodup := by
    rw [map_makerOrderId]
    exact h.nodup
  fresh := by
    rw [List.length_map]
    exact hfresh

end Submits

/-! ## Cancels -/

section Cancels

variable {market : Market} {order : Order} {cmd : OrderCancelCommand} {m : Matcher E}

theorem posts_releaseReservation {s : Store} (hs : s.Calm) (market : Market)
    (hlimit : ∀ p, order.price = some p → 0 < p) :
    Posts id (releaseReservation market order) s (releasePostings market order) := by
  unfold releaseReservation releasePostings
  by_cases h0 : 0 < order.leaveQty
  · simp only [h0, if_true]
    have hneg := Or.inr (a := order.leaveQty < 0) (neg_neg_of_pos h0)
    cases order.side with
    | ASK => exact Stm.posts_walletUpdate hs _ _ hneg
    | BID =>
      cases hp : order.price with
      | none => exact .pure hs _
      | some p =>
        exact Stm.posts_walletUpdate hs _ _ (Or.inr (neg_neg_of_pos (mul_pos (hlimit p hp) h0)))
  · simp only [h0, if_false]
    exact .pure hs _

/-- The body of a cancel. -/
theorem posts_cancelBody (hs : m.store.Calm) (market : Market)
    (hlimit : ∀ p, order.price = some p → 0 < p) (hrow : (m.db.order? order.id).isSome) :
    Posts Matcher.store (cancelBody market order) m (releasePostings market order) := by
  obtain ⟨m₁, hcancel, hstore, -⟩ := bookCancel_apply m order.market order.id
  have hmade : m.store.Made m₁.store [] := by
    rw [hstore]
    exact .of_eq rfl rfl rfl rfl hs
  have hbook : Posts Matcher.store (bookCancel order.market order.id) m [] := .of_eq hcancel hmade
  refine hbook.bind fun _ m₂ _ hm₂ => ?_
  refine (posts_onStore (posts_releaseReservation hm₂.calm market hlimit)).bind_nil
    fun _ m₃ _ hm₃ => ?_
  have hrow₃ : (m₃.store.db.order? order.id).isSome := isSome_of_made hm₃ (isSome_of_made hm₂ hrow)
  have hid : ∀ o : Order, ({ o with status := .CANCELLED } : Order).id = o.id := fun _ => rfl
  refine (posts_onStore (Stm.posts_orderUpdate hm₃.calm hid hrow₃)).bind_nil
    fun o m₄ _ hm₄ => ?_
  exact (posts_of_emits (total_publishCancelEvents _)
    (emits_publishCancelEvents _) hm₄.calm).bind_nil
    fun _ _ _ hm => .pure hm.calm _

/-- **A cancel of a live order commits** exactly when the accounts can bear the release of its
reservation. -/
theorem settleCancel_iff (hs : m.store.Calm) (ho : m.db.order? cmd.orderId = some order)
    (hlive : order.terminal = false) (hm : m.db.market? order.market = some market)
    (hlimit : ∀ p, order.price = some p → 0 < p) :
    (∃ o m', settleCancel cmd m = (.ok (some o), m')) ↔
      Affords m.db (releasePostings market order) := by
  have hrow : (m.db.order? order.id).isSome := by
    rw [Db.order?_id ho, ho]
    rfl
  have heq : settleCancel cmd m = (transaction (cancelBody market order) >>= fun r => pure (some r))
      (m.setBook order.market (m.book order.market)) := by
    simp only [settleCancel, Stm.marketFind, Stm.orderFind]
    rw [Tx.bind_apply_ok (onStore_query_calm hs _)]
    simp only [ho]
    rw [if_neg (Bool.eq_false_iff.mp hlive), Tx.bind_apply_ok (onStore_query_calm hs _)]
    simp only [hm]
    rfl
  have hbody := posts_cancelBody (m := m.setBook order.market (m.book order.market))
    hs market hlimit
    hrow
  have htx := (posts_transaction hbody hs).bind_nil fun r m₁ _ hm₁ => Posts.pure hm₁.calm (some r)
  rw [heq]
  refine Iff.trans ?_ htx.returns_iff
  constructor
  · rintro ⟨o, m', h⟩
    exact ⟨some o, m', h⟩
  · rintro ⟨r, m', h⟩
    obtain ⟨o, m₁, -, hr⟩ := Tx.bind_eq_ok.mp h
    obtain ⟨rfl, -⟩ := Tx.pure_eq_ok.mp hr
    exact ⟨o, m', h⟩

end Cancels

end Settler

end Orbit
