import Orbit.Matcher.Settler
import Orbit.Store.Specs

/-!
# What settlement does

The computations of the settler described by what they leave behind.

* `FillSettled` is one turn of the loop of `settleTrades`: one trade row, the postings to the
  accounts of the two parties, and the maker's row. `Settles` is the whole loop, one `FillSettled`
  after the other (`settleTrades_eq_ok`). Everything that is proved about settled trades is an
  induction on `Settles`.
* A market sweep settles the trades of one crossing of the orders on the levels of the snapshot, and
  leaves of the book what that crossing leaves: `sweepLevels_eq_ok`.
* Whatever happens, the loops of settlement keep the books off limits (`Quiet`), a sweep only takes
  away from the opposite side (`sweepLevels_shrinks`), and the frame of the store stays
  (`Store.Framed`).
-/

namespace Orbit

open PriceTime

namespace Matcher

variable {E : Engine} (m : Matcher E)

@[simp] theorem store_setBook (symbol : String) (b : E.Book) :
    (m.setBook symbol b).store = m.store :=
  rfl

@[simp] theorem db_setBook (symbol : String) (b : E.Book) : (m.setBook symbol b).db = m.db := rfl

@[simp] theorem book_setBook_self (symbol : String) (b : E.Book) :
    (m.setBook symbol b).book symbol = b := by
  simp [book, setBook]

theorem book_setBook_ne {symbol symbol' : String} (h : symbol' ≠ symbol) (b : E.Book) :
    (m.setBook symbol b).book symbol' = m.book symbol' := by
  simp [book, setBook, h]

@[simp] theorem queues_setBook_self (symbol : String) (b : E.Book) :
    (m.setBook symbol b).queues symbol = E.resting b := by
  simp [queues]

theorem queues_setBook_ne {symbol symbol' : String} (h : symbol' ≠ symbol) (b : E.Book) :
    (m.setBook symbol b).queues symbol' = m.queues symbol' := by
  simp [queues, book_setBook_ne m h]

theorem queues_wf (symbol : String) : (m.queues symbol).WF := E.resting_wf _

theorem queues_congr {m m' : Matcher E} (h : m'.books = m.books) (symbol : String) :
    m'.queues symbol = m.queues symbol := by
  simp [queues, book, h]

/-- Creating an empty book for a market that has none changes no queue. -/
theorem queues_setBook_book (symbol symbol' : String) :
    (m.setBook symbol (m.book symbol)).queues symbol' = m.queues symbol' := by
  by_cases h : symbol' = symbol
  · subst h
    simp [queues]
  · exact queues_setBook_ne m h _

end Matcher

namespace Settler

open Tx

variable {E : Engine}

theorem onStore_eq_ok {α : Type} {x : Stm α} {m m' : Matcher E} {a : α}
    (h : onStore x m = (.ok a, m')) : ∃ s, x m.store = (.ok a, s) ∧ m' = { m with store := s } :=
  Tx.zoom_eq_ok.mp h

/-! ## Postings -/

/-- The postings of `settleMaker`. -/
def makerPostings (market : Market) (maker : Order) (price qty makerFeeRate : ℚ) : List Posting :=
  match maker.side with
  | .ASK =>
    [⟨maker.userId, market.baseAsset, 0, -qty⟩,
      ⟨maker.userId, market.quoteAsset, price * qty * (1 - makerFeeRate), 0⟩]
  | .BID =>
    [⟨maker.userId, market.quoteAsset, maker.price.getD 0 * qty - price * qty,
        -(maker.price.getD 0 * qty)⟩,
      ⟨maker.userId, market.baseAsset, qty * (1 - makerFeeRate), 0⟩]

/-- The postings of `settleTaker`. -/
def takerPostings (market : Market) (taker : Order) (price qty takerFeeRate : ℚ) : List Posting :=
  match taker.side with
  | .BID =>
    [match taker.type, taker.price with
      | .LIMIT, some p => ⟨taker.userId, market.quoteAsset, p * qty - price * qty, -(p * qty)⟩
      | _, _ => ⟨taker.userId, market.quoteAsset, -(price * qty), 0⟩,
      ⟨taker.userId, market.baseAsset, qty * (1 - takerFeeRate), 0⟩]
  | .ASK =>
    [⟨taker.userId, market.baseAsset, 0, -qty⟩,
      ⟨taker.userId, market.quoteAsset, price * qty * (1 - takerFeeRate), 0⟩]

section Postings

variable {s s' : Store} {market : Market} {o : Order} {price qty rate : ℚ} {u : Unit}

/-- Two wallet statements in a row. -/
theorem moved_of_update_credit {u₁ a₁ u₂ a₂ : String} {b l c : ℚ}
    (h : (Stm.walletUpdate u₁ a₁ b l >>= fun _ => creditWallet u₂ a₂ c) s = (.ok u, s')) :
    Stm.Moved s s' [⟨u₁, a₁, b, l⟩, ⟨u₂, a₂, c, 0⟩] := by
  obtain ⟨_, s₁, h₁, h₂⟩ := Tx.bind_eq_ok.mp h
  exact (Stm.walletUpdate_eq_ok h₁).trans (Stm.walletUpsert_eq_ok h₂)

theorem settleMaker_eq_ok (h : settleMaker market o price qty rate s = (.ok u, s')) :
    Stm.Moved s s' (makerPostings market o price qty rate) := by
  unfold settleMaker settleMakerWith at h
  unfold makerPostings
  cases hs : o.side with
  | ASK =>
    simp only [hs] at h
    exact moved_of_update_credit h
  | BID =>
    cases hp : o.price with
    | none => simp [hs, hp] at h
    | some p =>
      simp only [hs, hp] at h
      exact moved_of_update_credit h

theorem settleTaker_eq_ok (h : settleTaker market o price qty rate s = (.ok u, s')) :
    Stm.Moved s s' (takerPostings market o price qty rate) := by
  unfold settleTaker settleTakerWith at h
  unfold takerPostings
  cases hs : o.side with
  | ASK =>
    simp only [hs] at h
    exact moved_of_update_credit h
  | BID =>
    simp only [hs] at h
    cases ht : o.type <;> cases hp : o.price <;> simp only [ht, hp] at h <;>
      exact moved_of_update_credit h

end Postings

/-! ## Settled trades -/

/-- **One settled trade.** The row created, and the tables after it. -/
structure FillSettled (market : Market) (taker : Order) (rates : FeeRates) (matchId : MatchId)
    (t : EngineTrade) (maker : Order) (db : Db) (row : Trade) (db' : Db) : Prop where
  hmaker : db.order? t.makerOrderId = some maker
  hrow : row =
    { id := row.id, sequence := row.sequence, market := market.symbol, price := t.tradePrice
      quantity := t.tradeQuantity, makerOrderId := t.makerOrderId, takerOrderId := taker.id
      makerSide := maker.side, takerSide := taker.side, makerUserId := maker.userId
      takerUserId := taker.userId, makerFee := t.tradeQuantity * rates.maker
      takerFee := t.tradeQuantity * rates.taker, matchId := some matchId
      createdAt := row.createdAt }
  fresh : ∀ t' ∈ db.trades, t'.matchId ≠ some matchId
  orders : db'.orders =
    Table.modify t.makerOrderId (makerAfter maker t.tradeQuantity) db.orders
  trades : db'.trades = db.trades ++ [row]
  posted : Posted db db' (makerPostings market maker t.tradePrice t.tradeQuantity rates.maker ++
    takerPostings market taker t.tradePrice t.tradeQuantity rates.taker)

/-- **Settled trades**, one after the other, with match indices from `idx` on. -/
inductive Settles (market : Market) (taker : Order) (rates : FeeRates) (commandId : Uuid) :
    ℕ → Db → List EngineTrade → List Trade → Db → Prop
  | nil {idx db} : Settles market taker rates commandId idx db [] [] db
  | cons {idx db db₁ db' t ts row rows} (maker : Order)
      (h : FillSettled market taker rates ⟨commandId, idx⟩ t maker db row db₁)
      (hs : Settles market taker rates commandId (idx + 1) db₁ ts rows db') :
      Settles market taker rates commandId idx db (t :: ts) (row :: rows) db'

section Settles

variable {market : Market} {taker maker : Order} {rates : FeeRates} {commandId : Uuid}

theorem settleFill_eq_ok {s s' : Store} {t : EngineTrade} {matchId : MatchId} {sequence : ℕ}
    {row : Trade} (hmaker : s.db.order? t.makerOrderId = some maker)
    (h : settleFill market taker maker t rates matchId sequence s = (.ok row, s')) :
    FillSettled market taker rates matchId t maker s.db row s'.db := by
  obtain ⟨row', s₁, h₁, h⟩ := Tx.bind_eq_ok.mp h
  obtain ⟨hrow, hfresh, fl, hs₁⟩ := Stm.tradeCreate_eq_ok h₁
  obtain ⟨_, s₂, h₂, h⟩ := Tx.bind_eq_ok.mp h
  have m₂ := settleMaker_eq_ok h₂
  obtain ⟨_, s₃, h₃, h⟩ := Tx.bind_eq_ok.mp h
  have m₃ := m₂.trans (settleTaker_eq_ok h₃)
  obtain ⟨o', s₄, h₄, h⟩ := Tx.bind_eq_ok.mp h
  obtain ⟨o, fl', -, -, hs₄⟩ := Stm.orderUpdate_eq_ok (by intro o; rfl) h₄
  obtain ⟨rfl, rfl⟩ := Tx.pure_eq_ok.mp h
  have hid : maker.id = t.makerOrderId := Table.key_of_find? hmaker
  have hbefore : Posted s.db s₁.db [] := Posted.refl_of_wallets (by rw [hs₁])
  have hafter : Posted s₃.db s₄.db [] := Posted.refl_of_wallets (by rw [hs₄])
  refine ⟨hmaker, ?_, ?_, ?_, ?_, ?_⟩
  · rw [hrow]
  · intro t' ht' e
    have hmid : row'.matchId = some matchId := by rw [hrow]
    exact hfresh ⟨by rw [hmid]; rfl, t', ht', e.trans hmid.symm⟩
  · rw [hs₄]
    change Table.modify maker.id _ s₃.db.orders = _
    rw [hid, m₃.orders, hs₁]
  · rw [hs₄]
    change s₃.db.trades = _
    rw [m₃.trades, hs₁]
  · simpa using (hbefore.trans m₃.posted).trans hafter

theorem settleTrade_eq_ok {m m' : Matcher E} {t : EngineTrade} {matchId : MatchId} {row : Trade}
    (h : settleTrade market taker rates matchId t m = (.ok row, m')) :
    ∃ maker, FillSettled market taker rates matchId t maker m.db row m'.db := by
  obtain ⟨maker, m₁, h₁, h⟩ := Tx.bind_eq_ok.mp h
  obtain ⟨s₁, hfind, rfl⟩ := onStore_eq_ok h₁
  obtain ⟨hmaker, fl, rfl⟩ := Stm.orderFindOrThrow_eq_ok hfind
  obtain ⟨sequence, m₂, h₂, h⟩ := Tx.bind_eq_ok.mp h
  obtain ⟨-, rfl⟩ := Prod.mk.inj h₂
  obtain ⟨s₂, hfill, rfl⟩ := onStore_eq_ok h
  exact ⟨maker, settleFill_eq_ok (s := { m.store with faults := fl }) hmaker hfill⟩

/-- **`settleTrades` settles its trades.** -/
theorem settleTrades_eq_ok {m m' : Matcher E} {idx : ℕ} {ts : List EngineTrade} {rows : List Trade}
    (h : settleTrades market taker rates commandId idx ts m = (.ok rows, m')) :
    Settles market taker rates commandId idx m.db ts rows m'.db := by
  induction ts generalizing idx m rows with
  | nil =>
    obtain ⟨rfl, rfl⟩ := Tx.pure_eq_ok.mp h
    exact .nil
  | cons t ts ih =>
    obtain ⟨row, m₁, h₁, h⟩ := Tx.bind_eq_ok.mp h
    obtain ⟨maker, hfill⟩ := settleTrade_eq_ok h₁
    obtain ⟨out, m₂, h₂, h⟩ := Tx.bind_eq_ok.mp h
    obtain ⟨rfl, rfl⟩ := Tx.pure_eq_ok.mp h
    exact .cons maker hfill (ih h₂)

theorem Settles.append {idx : ℕ} {db db₁ db' : Db} {ts ts' : List EngineTrade}
    {rows rows' : List Trade} (h : Settles market taker rates commandId idx db ts rows db₁)
    (h' : Settles market taker rates commandId (idx + ts.length) db₁ ts' rows' db') :
    Settles market taker rates commandId idx db (ts ++ ts') (rows ++ rows') db' := by
  induction h with
  | nil => exact h'
  | cons maker hf _ ih =>
    refine .cons maker hf (ih ?_)
    rwa [List.length_cons, ← add_assoc, Nat.add_right_comm] at h'

/-- The rows are appended to the trades. -/
theorem Settles.trades {idx : ℕ} {db db' : Db} {ts : List EngineTrade} {rows : List Trade}
    (h : Settles market taker rates commandId idx db ts rows db') :
    db'.trades = db.trades ++ rows := by
  induction h with
  | nil => simp
  | cons maker hf _ ih =>
    rw [ih, hf.trades, List.append_assoc]
    rfl

/-- Every row has a match id. -/
theorem Settles.matchId_isSome {idx : ℕ} {db db' : Db} {ts : List EngineTrade} {rows : List Trade}
    (h : Settles market taker rates commandId idx db ts rows db') :
    ∀ t ∈ rows, t.matchId.isSome := by
  induction h with
  | nil => exact fun t ht => absurd ht List.not_mem_nil
  | cons maker hf _ ih =>
    intro t ht
    rcases List.mem_cons.mp ht with rfl | ht
    · rw [hf.hrow]
      rfl
    · exact ih t ht

end Settles

/-! ## What every run leaves alone -/

/-- The books are the same, and the store is up to its frame. -/
structure Unbooked (m m' : Matcher E) : Prop where
  framed : m.store.Framed m'.store
  books : m'.books = m.books

/-- The books are the same, and the store is up to outbox rows. -/
structure Emitted (m m' : Matcher E) : Prop where
  emitted : m.store.Emitted m'.store
  books : m'.books = m.books

theorem Unbooked.trans {m₁ m₂ m₃ : Matcher E} (h₁ : Unbooked m₁ m₂) (h₂ : Unbooked m₂ m₃) :
    Unbooked m₁ m₃ :=
  ⟨h₁.framed.trans h₂.framed, h₂.books.trans h₁.books⟩

theorem Emitted.unbooked {m m' : Matcher E} (h : Emitted m m') : Unbooked m m' :=
  ⟨h.emitted.toFramed, h.books⟩

theorem Emitted.posted {m m' : Matcher E} (h : Emitted m m') : Posted m.db m'.db [] :=
  Posted.refl_of_wallets h.emitted.wallets

section Keeps

variable {α β : Type}

/-- Every run of `x` keeps off the books. -/
abbrev Quiet (x : Act E α) : Prop := Keeps Unbooked x

theorem Quiet.pure (a : α) : Quiet (Pure.pure a : Act E α) := Keeps.pure (fun _ => ⟨.refl _, rfl⟩) a

theorem Quiet.bind {x : Act E α} {f : α → Act E β} (hx : Quiet x) (hf : ∀ a, Quiet (f a)) :
    Quiet (x >>= f) :=
  Keeps.bind (fun h₁ h₂ => h₁.trans h₂) hx hf

theorem quiet_onStore {x : Stm α} (hx : Stm.Frames x) : Quiet (onStore x : Act E α) :=
  fun m => ⟨hx m.store, rfl⟩

theorem quiet_nextSequence : Quiet (nextSequence : Act E ℕ) := fun _ => ⟨.refl _, rfl⟩

/-- Every run of `x` at most adds outbox rows. -/
abbrev Emits (x : Act E α) : Prop := Keeps Emitted x

theorem Emits.pure (a : α) : Emits (Pure.pure a : Act E α) := Keeps.pure (fun _ => ⟨.refl _, rfl⟩) a

theorem Emits.bind {x : Act E α} {f : α → Act E β} (hx : Emits x) (hf : ∀ a, Emits (f a)) :
    Emits (x >>= f) :=
  Keeps.bind (fun h₁ h₂ => ⟨h₁.emitted.trans h₂.emitted, h₂.books.trans h₁.books⟩) hx hf

theorem emits_onStore {x : Stm α} (hx : Stm.Emits x) : Emits (onStore x : Act E α) :=
  fun m => ⟨hx m.store, rfl⟩

theorem Emits.quiet {x : Act E α} (hx : Emits x) : Quiet x := fun m => (hx m).unbooked

theorem emits_getOrderbook (symbol : String) : Emits (getOrderbook symbol : Act E Snapshot) :=
  fun _ => ⟨.refl _, rfl⟩

theorem emits_nextOrderbookSeq : Emits (nextOrderbookSeq : Act E ℕ) := fun _ => ⟨.refl _, rfl⟩

theorem frames_settleMaker (market : Market) (maker : Order) (price qty rate : ℚ) :
    Stm.Frames (settleMaker market maker price qty rate) := by
  unfold settleMaker settleMakerWith
  split
  · exact (Stm.frames_walletUpdate _ _ _ _).bind fun _ => Stm.frames_walletUpsert _ _ _
  · split
    · exact .fail _
    · exact (Stm.frames_walletUpdate _ _ _ _).bind fun _ => Stm.frames_walletUpsert _ _ _

theorem frames_settleTaker (market : Market) (taker : Order) (price qty rate : ℚ) :
    Stm.Frames (settleTaker market taker price qty rate) := by
  unfold settleTaker settleTakerWith
  split
  · dsimp only
    split <;> exact (Stm.frames_walletUpdate _ _ _ _).bind fun _ => Stm.frames_walletUpsert _ _ _
  · exact (Stm.frames_walletUpdate _ _ _ _).bind fun _ => Stm.frames_walletUpsert _ _ _

theorem quiet_settleTrade (market : Market) (taker : Order) (rates : FeeRates) (matchId : MatchId)
    (t : EngineTrade) : Quiet (settleTrade market taker rates matchId t : Act E Trade) :=
  (quiet_onStore (Stm.frames_orderFindOrThrow _)).bind fun _ => quiet_nextSequence.bind fun _ =>
    quiet_onStore <| (Stm.frames_tradeCreate _).bind fun _ =>
      (frames_settleMaker _ _ _ _ _).bind fun _ => (frames_settleTaker _ _ _ _ _).bind fun _ =>
        (Stm.frames_orderUpdate _ _).bind fun _ => .pure _

theorem quiet_settleTrades (market : Market) (taker : Order) (rates : FeeRates) (commandId : Uuid)
    (idx : ℕ) (ts : List EngineTrade) :
    Quiet (settleTrades market taker rates commandId idx ts : Act E (List Trade)) := by
  induction ts generalizing idx with
  | nil => exact .pure _
  | cons t ts ih => exact (quiet_settleTrade _ _ _ _ _).bind fun _ => (ih _).bind fun _ => .pure _

theorem frames_updateOrderAfterMatch (id : ℕ) (leaveQty originalQty : ℚ) :
    Stm.Frames (updateOrderAfterMatch id leaveQty originalQty) :=
  Stm.frames_orderUpdate _ _

theorem frames_settleResidual (market : Market) (order : Order) (remaining : ℚ) :
    Stm.Frames (settleResidual market order remaining) := by
  unfold settleResidual
  dsimp only
  split
  · exact (Stm.frames_walletUpdate _ _ _ _).bind fun _ =>
      (Stm.frames_orderUpdate _ _).bind fun _ => .pure _
  · exact (Stm.frames_orderUpdate _ _).bind fun _ => .pure _

theorem frames_releaseReservation (market : Market) (order : Order) :
    Stm.Frames (releaseReservation market order) := by
  unfold releaseReservation
  split
  · split
    · exact Stm.frames_walletUpdate _ _ _ _
    · exact .pure _
    · exact Stm.frames_walletUpdate _ _ _ _
  · exact .pure _

theorem emits_publishTrade (symbol : String) (t : Trade) : Stm.Emits (publishTrade symbol t) := by
  have hid : Stm.Emits (tradeEventId t) := by
    unfold tradeEventId
    split
    · exact .pure _
    · exact Stm.emits_randomUUID.bind fun _ => .pure _
  exact hid.bind fun _ => (Stm.emits_publish (by decide) _ _).bind fun _ =>
    Stm.emits_dateNow.bind fun _ => (Stm.emits_publish (by decide) _ _).bind fun _ =>
      Stm.emits_publish (by decide) _ _

theorem emits_publishTrades (symbol : String) (ts : List Trade) :
    Stm.Emits (publishTrades symbol ts) := by
  induction ts with
  | nil => exact .pure _
  | cons t ts ih => exact (emits_publishTrade symbol t).bind fun _ => ih

theorem emits_publishSnapshot (symbol : String) : Emits (publishSnapshot symbol : Act E Unit) :=
  (emits_getOrderbook symbol).bind fun _ => (emits_onStore Stm.emits_randomUUID).bind fun _ =>
    emits_nextOrderbookSeq.bind fun _ => (emits_onStore Stm.emits_dateNow).bind fun _ =>
      emits_onStore (Stm.emits_publish (by decide) _ _)

theorem emits_publishSubmitEvents (order : Order) (trades : List Trade) (symbol : String) :
    Emits (publishSubmitEvents order trades symbol : Act E Unit) :=
  (emits_onStore <| Stm.emits_randomUUID.bind fun _ => Stm.emits_dateNow.bind fun _ =>
    (Stm.emits_publish (by decide) _ _).bind fun _ => emits_publishTrades _ _).bind fun _ =>
      emits_publishSnapshot _

theorem emits_publishCancelEvents (order : Order) :
    Emits (publishCancelEvents order : Act E Unit) :=
  (emits_onStore <| Stm.emits_randomUUID.bind fun _ => Stm.emits_dateNow.bind fun _ =>
    (Stm.emits_publish (by decide) _ _).bind fun _ => Stm.emits_randomUUID.bind fun _ =>
      Stm.emits_dateNow.bind fun _ => Stm.emits_publish (by decide) _ _).bind fun _ =>
        emits_publishSnapshot _

end Keeps

/-! ## The books -/

section Books

variable (m : Matcher E) (symbol : String) {id : ℕ} (side : Side) (price : ℚ) {qty : ℚ}

theorem bookAdd_new (hid : id ∉ (m.queues symbol).ids) (hq : 0 < qty) :
    ∃ b, E.resting b = ((m.queues symbol).add id side price qty).book ∧
      bookAdd symbol id side price qty m =
        (.ok ⟨((m.queues symbol).add id side price qty).leave,
          ((m.queues symbol).add id side price qty).fills.map .ofFill⟩, m.setBook symbol b) := by
  obtain ⟨b, hadd, hb⟩ := E.add_new (m.book symbol) id side price qty hid hq
  exact ⟨b, hb, by simp only [bookAdd, hadd, Matcher.queues]⟩

theorem bookAdd_resting (hid : id ∈ (m.queues symbol).ids) (qty : ℚ) :
    ∃ msg, bookAdd symbol id side price qty m = (.error (.engine msg), m) := by
  obtain ⟨msg, hadd⟩ := E.add_resting (m.book symbol) id side price qty hid
  exact ⟨msg, by simp only [bookAdd, hadd]⟩

theorem bookCancel_resting (hid : id ∈ (m.queues symbol).ids) :
    ∃ b, E.resting b = (m.queues symbol).cancel id ∧
      bookCancel symbol id m = (.ok (), m.setBook symbol b) := by
  obtain ⟨b, hcancel, hb⟩ := E.cancel_resting (m.book symbol) id hid
  exact ⟨b, hb, by simp only [bookCancel, hcancel]⟩

theorem bookCancel_absent (hid : id ∉ (m.queues symbol).ids) :
    bookCancel symbol id m = (.ok (), m) := by
  obtain ⟨msg, hcancel⟩ := E.cancel_absent (m.book symbol) id hid
  simp only [bookCancel, hcancel]

/-- **One turn of a sweep.** Adding at a level's price at most the level's quantity matches it
whole, against orders of that level. -/
theorem bookAdd_level {g rest : List (Resting ℕ ℚ ℚ)} {v : Level ℚ ℚ}
    (hid : id ∉ (m.queues symbol).ids) (hg : (m.queues symbol).queue side.opp = g ++ rest)
    (hp : ∀ r ∈ g, r.price = v.price) (h0 : 0 < qty) (hle : qty ≤ (g.map (·.qty)).sum) :
    ∃ b, E.resting b = (m.queues symbol).set side.opp ((fill (fun _ => true) qty g).rest ++ rest) ∧
      bookAdd symbol id side v.price qty m =
        (.ok ⟨0, (fill (fun _ => true) qty g).fills.map .ofFill⟩, m.setBook symbol b) := by
  have hc : ∀ r ∈ g, crosses side v.price r.price = true := by
    intro r hr
    rw [hp r hr]
    cases side <;> simp [crosses]
  have hfill := fill_append_of_le (crosses side v.price) hc h0.le hle rest
  rw [← hg] at hfill
  obtain ⟨b, hb, hadd⟩ := bookAdd_new m symbol side v.price hid h0
  refine ⟨b, ?_, ?_⟩
  · rw [hb, Book.add_book, hfill]
    simp
  · rw [hadd, Book.add_leave, Book.add_fills, hfill]

end Books

/-! ## Sweeps -/

section Sweep

variable {market : Market} {order : Order} {rates : FeeRates} {commandId : Uuid} {symbol : String}

theorem sweepLevels_of_nonpos (counter idx : ℕ) {remaining : ℚ} (h : remaining ≤ 0)
    (lvls : List BookLevel) (m : Matcher E) :
    sweepLevels symbol market order rates commandId counter idx remaining lvls m =
      (.ok ([], remaining), m) := by
  cases lvls with
  | nil => rfl
  | cons lvl lvls => rw [sweepLevels_cons, if_pos h]; rfl

/-- A turn whose id rests already is refused. -/
theorem sweepLevels_eq_refused (m : Matcher E) {counter : ℕ} {remaining : ℚ}
    (hid : sweepId order.id counter ∈ (m.queues symbol).ids) (h0 : 0 < remaining) (idx : ℕ)
    (lvl : BookLevel) (lvls : List BookLevel) :
    ∃ msg, sweepLevels symbol market order rates commandId counter idx remaining (lvl :: lvls) m =
      (.error (.engine msg), m) := by
  obtain ⟨msg, hadd⟩ := bookAdd_resting m symbol (sideToEngine order.side) lvl.price hid
    (min lvl.quantity remaining)
  exact ⟨msg, by rw [sweepLevels_cons, if_neg (not_le.mpr h0), Tx.bind_apply_error hadd]⟩

theorem sweepLevels_refused (m : Matcher E) {counter : ℕ} {remaining : ℚ}
    (hid : sweepId order.id counter ∈ (m.queues symbol).ids) (h0 : 0 < remaining) {idx : ℕ}
    {lvl : BookLevel} {lvls : List BookLevel} :
    (sweepLevels symbol market order rates commandId counter idx remaining (lvl :: lvls) m).2 = m :=
  (sweepLevels_eq_refused m hid h0 idx lvl lvls).elim fun _ h => congrArg Prod.snd h

/-- What a sweep takes of one level: all of it, or what remains to be matched. -/
theorem fill_level {g : List (Resting ℕ ℚ ℚ)} {remaining : ℚ} (hg : ∀ r ∈ g, 0 < r.qty)
    (h0 : 0 ≤ remaining) (rest : List (Resting ℕ ℚ ℚ)) :
    fill (fun _ => true) remaining (g ++ rest) =
      if (g.map (·.qty)).sum ≤ remaining then
        ⟨(fill (fun _ => true) (g.map (·.qty)).sum g).fills ++
            (fill (fun _ => true) (remaining - (g.map (·.qty)).sum) rest).fills,
          (fill (fun _ => true) (remaining - (g.map (·.qty)).sum) rest).rest,
          (fill (fun _ => true) (remaining - (g.map (·.qty)).sum) rest).leave⟩
      else ⟨(fill (fun _ => true) remaining g).fills,
        (fill (fun _ => true) remaining g).rest ++ rest, 0⟩ := by
  split
  · rename_i h
    have := fill_append (fun _ => true) hg (fun _ _ => rfl) (sub_nonneg.mpr h) rest
    rw [add_sub_cancel] at this
    rw [this, fill_sum _ hg (fun _ _ => rfl)]
  · rename_i h
    exact fill_append_of_le _ (fun _ _ => rfl) h0 (not_le.mp h).le rest

/-- One turn of the loop, when its id is free: the trades of the level are settled on the book
without what it took, and the loop goes on. -/
theorem sweepLevels_level (m : Matcher E) {g rest : List (Resting ℕ ℚ ℚ)} {v : Level ℚ ℚ}
    {counter : ℕ} {remaining : ℚ} (hid : sweepId order.id counter ∉ (m.queues symbol).ids)
    (hg : (m.queues symbol).queue (sideToEngine order.side).opp = g ++ rest)
    (hpos : ∀ r ∈ g, 0 < r.qty) (hne : g ≠ []) (hp : ∀ r ∈ g, r.price = v.price)
    (hq : (g.map (·.qty)).sum = v.qty) (h0 : 0 < remaining) (idx : ℕ) (lvls : List BookLevel) :
    ∃ b, E.resting b = (m.queues symbol).set (sideToEngine order.side).opp
        ((fill (fun _ => true) (min v.qty remaining) g).rest ++ rest) ∧
      sweepLevels symbol market order rates commandId counter idx remaining
          (⟨v.price, v.qty⟩ :: lvls) m =
        (settleTrades market order rates commandId idx
            ((fill (fun _ => true) (min v.qty remaining) g).fills.map .ofFill) >>= fun fills =>
          sweepLevels symbol market order rates commandId (counter + 1)
              (idx + (fill (fun _ => true) (min v.qty remaining) g).fills.length)
              (remaining - min v.qty remaining) lvls >>= fun r =>
            pure (fills ++ r.1, r.2)) (m.setBook symbol b) := by
  have hv : 0 < v.qty := by
    rw [← hq]
    obtain ⟨r, g', rfl⟩ := List.exists_cons_of_ne_nil hne
    have h₁ := hpos r (by simp)
    have h₂ : 0 ≤ (g'.map (·.qty)).sum :=
      List.sum_nonneg (by simpa using fun x hx => (hpos x (by simp [hx])).le)
    rw [List.map_cons, List.sum_cons]
    linarith
  obtain ⟨b, hb, hadd⟩ := bookAdd_level m symbol (sideToEngine order.side) hid hg hp
    (lt_min hv h0) (hq ▸ min_le_left _ _)
  refine ⟨b, hb, ?_⟩
  rw [sweepLevels_cons, if_neg (not_le.mpr h0)]
  refine (Tx.bind_apply_ok hadd _).trans ?_
  simp only [lt_irrefl, if_false, List.length_map]

/-- **A sweep that returns settled one crossing** of the orders on its levels, at any price. -/
theorem sweepLevels_eq_ok {front back : List (Resting ℕ ℚ ℚ)} {vs : List (Level ℚ ℚ)}
    (hG : Grouped front vs) {m m' : Matcher E} {counter idx : ℕ} {remaining rest : ℚ}
    {rows : List Trade} (h0 : 0 ≤ remaining)
    (hQ : (m.queues symbol).queue (sideToEngine order.side).opp = front ++ back)
    (h : sweepLevels symbol market order rates commandId counter idx remaining
      (vs.map fun v => ⟨v.price, v.qty⟩) m = (.ok (rows, rest), m')) :
    rest = (fill (fun _ => true) remaining front).leave ∧
    Settles market order rates commandId idx m.db
      ((fill (fun _ => true) remaining front).fills.map .ofFill) rows m'.db ∧
    (∀ s, s ≠ symbol → m'.queues s = m.queues s) ∧
    m'.queues symbol = (m.queues symbol).set (sideToEngine order.side).opp
      ((fill (fun _ => true) remaining front).rest ++ back) := by
  induction hG generalizing m counter idx remaining rows with
  | nil =>
    obtain ⟨hr, rfl⟩ := Tx.pure_eq_ok.mp h
    obtain ⟨rfl, rfl⟩ := Prod.mk.inj hr
    refine ⟨rfl, .nil, fun _ _ => rfl, ?_⟩
    rw [fill_nil, ← hQ, Book.set_queue]
  | @cons g front vs v hne hp hq hG ih =>
    rw [List.append_assoc] at hQ
    have hpos : ∀ r ∈ g, 0 < r.qty := fun r hr =>
      (m.queues_wf symbol).pos (sideToEngine order.side).opp r (by rw [hQ]; simp [hr])
    rcases h0.eq_or_lt with rfl | h0
    · rw [sweepLevels_of_nonpos _ _ le_rfl, Prod.mk.injEq, Except.ok.injEq, Prod.mk.injEq] at h
      obtain ⟨⟨rfl, rfl⟩, rfl⟩ := h
      rw [fill_of_nonpos _ le_rfl]
      refine ⟨rfl, .nil, fun _ _ => rfl, ?_⟩
      rw [List.append_assoc, ← hQ, Book.set_queue]
    by_cases hid : sweepId order.id counter ∈ (m.queues symbol).ids
    · obtain ⟨msg, hadd⟩ := bookAdd_resting m symbol (sideToEngine order.side) v.price hid
        (min v.qty remaining)
      rw [List.map_cons, sweepLevels_cons, if_neg (not_le.mpr h0), Tx.bind_apply_error hadd] at h
      cases h
    obtain ⟨b, hb, heq⟩ := sweepLevels_level m hid hQ hpos hne hp hq h0 idx _
    rw [List.map_cons, heq] at h
    obtain ⟨fills, m₂, h₂, h⟩ := Tx.bind_eq_ok.mp h
    have hbooks := (quiet_settleTrades market order rates commandId idx _).of_eq h₂
    obtain ⟨⟨collected, rest'⟩, m₃, h₃, h⟩ := Tx.bind_eq_ok.mp h
    obtain ⟨hr, rfl⟩ := Tx.pure_eq_ok.mp h
    obtain ⟨rfl, rfl⟩ := Prod.mk.inj hr
    have hset := settleTrades_eq_ok h₂
    have hne₂ : ∀ s, s ≠ symbol → m₂.queues s = m.queues s := fun s hs => by
      rw [Matcher.queues_congr hbooks.books, Matcher.queues_setBook_ne m hs]
    have heq₂ : m₂.queues symbol = (m.queues symbol).set (sideToEngine order.side).opp
        ((fill (fun _ => true) (min v.qty remaining) g).rest ++ (front ++ back)) := by
      rw [Matcher.queues_congr hbooks.books, Matcher.queues_setBook_self, hb]
    rw [fill_level hpos h0.le, hq]
    split
    · rename_i hle
      rw [min_eq_left hle] at *
      have hall : (fill (fun _ => true) v.qty g).rest = [] := by
        rw [← hq, fill_sum _ hpos fun _ _ => rfl]
      rw [hall, List.nil_append] at heq₂
      obtain ⟨hrest, hs, hbne, hbeq⟩ := ih (sub_nonneg.mpr hle) (by rw [heq₂]; simp) h₃
      refine ⟨hrest, ?_, fun s hs => (hbne s hs).trans (hne₂ s hs), ?_⟩
      · rw [List.map_append]
        exact hset.append (by rwa [List.length_map])
      · rw [hbeq, heq₂, Book.set_set]
    · rename_i hle
      rw [min_eq_right (not_le.mp hle).le] at *
      rw [sub_self, sweepLevels_of_nonpos _ _ le_rfl, Prod.mk.injEq, Except.ok.injEq,
        Prod.mk.injEq] at h₃
      obtain ⟨⟨rfl, rfl⟩, rfl⟩ := h₃
      refine ⟨rfl, by simpa using hset, hne₂, ?_⟩
      rw [heq₂, List.append_assoc]

/-- At most orders of one side of one book were taken away. -/
structure Swept (symbol : String) (side : Side) (m m' : Matcher E) : Prop where
  framed : m.store.Framed m'.store
  queues_ne : ∀ s, s ≠ symbol → m'.queues s = m.queues s
  queues_eq : ∃ l, Shrunk l ((m.queues symbol).queue side) ∧
    m'.queues symbol = (m.queues symbol).set side l

theorem Unbooked.swept {m m' : Matcher E} (h : Unbooked m m') (symbol : String) (side : Side) :
    Swept symbol side m m' where
  framed := h.framed
  queues_ne s _ := Matcher.queues_congr h.books s
  queues_eq := ⟨_, .refl ((m.queues_wf symbol).pos side),
    by rw [Matcher.queues_congr h.books, Book.set_queue]⟩

theorem Swept.trans {side : Side} {m₁ m₂ m₃ : Matcher E} (h₁ : Swept symbol side m₁ m₂)
    (h₂ : Swept symbol side m₂ m₃) : Swept symbol side m₁ m₃ where
  framed := h₁.framed.trans h₂.framed
  queues_ne s hs := (h₂.queues_ne s hs).trans (h₁.queues_ne s hs)
  queues_eq := by
    obtain ⟨l₁, hl₁, e₁⟩ := h₁.queues_eq
    obtain ⟨l₂, hl₂, e₂⟩ := h₂.queues_eq
    rw [e₁, Book.queue_set_self] at hl₂
    exact ⟨l₂, hl₂.trans hl₁, by rw [e₂, e₁, Book.set_set]⟩

/-- The rest of a turn and of the loop, once the level is matched, at most takes away more. -/
theorem sweepTurn_swept (m : Matcher E) {g rest : List (Resting ℕ ℚ ℚ)} {v : Level ℚ ℚ}
    {counter : ℕ} {remaining : ℚ} {b : E.Book} (hpos : ∀ r ∈ g, 0 < r.qty)
    (hq : (g.map (·.qty)).sum = v.qty) (hb : E.resting b = (m.queues symbol).set
      (sideToEngine order.side).opp ((fill (fun _ => true) (min v.qty remaining) g).rest ++ rest))
    (idx idx' : ℕ) (ts : List EngineTrade) (lvls : List BookLevel)
    (htail : ∀ m : Matcher E, (m.queues symbol).queue (sideToEngine order.side).opp = rest →
      Swept symbol (sideToEngine order.side).opp m
        (sweepLevels symbol market order rates commandId counter idx'
        (remaining - v.qty) lvls m).2) :
    Swept symbol (sideToEngine order.side).opp (m.setBook symbol b)
      ((settleTrades market order rates commandId idx ts >>= fun fills =>
        sweepLevels symbol market order rates commandId counter idx'
          (remaining - min v.qty remaining)
          lvls >>= fun r => pure (fills ++ r.1, r.2)) (m.setBook symbol b)).2 := by
  have hrefl : ∀ m : Matcher E, Swept symbol (sideToEngine order.side).opp m m :=
    fun m => Unbooked.swept ⟨.refl _, rfl⟩ _ _
  have hbooks := quiet_settleTrades market order rates commandId idx ts (m.setBook symbol b)
  refine Tx.bind_rel (Swept symbol _) Swept.trans (hbooks.swept _ _) fun fills m₂ h₂ => ?_
  rw [h₂] at hbooks
  refine Tx.bind_rel (Swept symbol _) Swept.trans ?_ fun r m₃ _ => hrefl m₃
  -- the rest of the loop runs on what the level left, or has nothing left to match
  rcases le_or_gt v.qty remaining with hle | hlt
  · have hall : (fill (fun _ => true) v.qty g).rest = [] := by
      rw [← hq, fill_sum _ hpos fun _ _ => rfl]
    rw [min_eq_left hle]
    refine htail m₂ ?_
    rw [Matcher.queues_congr hbooks.books, Matcher.queues_setBook_self, hb, Book.queue_set_self,
      min_eq_left hle, hall, List.nil_append]
  · rw [min_eq_right hlt.le, sub_self, sweepLevels_of_nonpos _ _ le_rfl]
    exact hrefl m₂

/-- Every run of a sweep, failed or not, at most takes away from the opposite side. -/
theorem sweepLevels_swept {front back : List (Resting ℕ ℚ ℚ)} {vs : List (Level ℚ ℚ)}
    (hG : Grouped front vs) {m : Matcher E} {counter idx : ℕ} {remaining : ℚ}
    (hQ : (m.queues symbol).queue (sideToEngine order.side).opp = front ++ back) :
    Swept symbol (sideToEngine order.side).opp m
      (sweepLevels symbol market order rates commandId counter idx remaining
        (vs.map fun v => ⟨v.price, v.qty⟩) m).2 := by
  have hrefl : ∀ m : Matcher E, Swept symbol (sideToEngine order.side).opp m m :=
    fun m => Unbooked.swept ⟨.refl _, rfl⟩ _ _
  induction hG generalizing m counter idx remaining with
  | nil => exact hrefl m
  | @cons g front vs v hne hp hq hG ih =>
    rw [List.append_assoc] at hQ
    have hpos : ∀ r ∈ g, 0 < r.qty := fun r hr =>
      (m.queues_wf symbol).pos (sideToEngine order.side).opp r (by rw [hQ]; simp [hr])
    rcases le_or_gt remaining 0 with h0 | h0
    · rw [sweepLevels_of_nonpos _ _ h0]
      exact hrefl m
    by_cases hid : sweepId order.id counter ∈ (m.queues symbol).ids
    · rw [List.map_cons, sweepLevels_refused m hid h0]
      exact hrefl m
    obtain ⟨b, hb, heq⟩ := sweepLevels_level m hid hQ hpos hne hp hq h0 idx _
    rw [List.map_cons, heq]
    have hturn : Swept symbol (sideToEngine order.side).opp m (m.setBook symbol b) := by
      refine ⟨.refl _, fun s hs => Matcher.queues_setBook_ne m hs b, _, ?_,
        by rw [Matcher.queues_setBook_self, hb]⟩
      rw [hQ]
      refine ((fill_consumed _ _ g).append _).shrunk ?_
      rw [← hQ]
      exact (m.queues_wf symbol).pos _
    exact hturn.trans (sweepTurn_swept m hpos hq hb _ _ _ _ fun m hm => ih hm)

theorem Swept.sum_le {side : Side} {m m' : Matcher E} (h : Swept symbol side m m') :
    (((m'.queues symbol).queue side).map (·.qty)).sum ≤
      (((m.queues symbol).queue side).map (·.qty)).sum := by
  obtain ⟨l, hl, e⟩ := h.queues_eq
  rw [e, Book.queue_set_self]
  exact hl.sum_qty_le ((m.queues_wf symbol).pos side)

/-- **A sweep that gets its first order into the book takes something away**, whatever happens
then. -/
theorem sweepLevels_lt {front back : List (Resting ℕ ℚ ℚ)} {vs : List (Level ℚ ℚ)}
    (hG : Grouped front vs) (hfront : front ≠ []) {m : Matcher E} {counter idx : ℕ} {remaining : ℚ}
    (h0 : 0 < remaining) (hid : sweepId order.id counter ∉ (m.queues symbol).ids)
    (hQ : (m.queues symbol).queue (sideToEngine order.side).opp = front ++ back) :
    ((((sweepLevels symbol market order rates commandId counter idx remaining
        (vs.map fun v => ⟨v.price, v.qty⟩) m).2.queues symbol).queue
          (sideToEngine order.side).opp).map (·.qty)).sum <
      (((m.queues symbol).queue (sideToEngine order.side).opp).map (·.qty)).sum := by
  cases hG with
  | nil => exact absurd rfl hfront
  | @cons g front vs v hne hp hq hG =>
    rw [List.append_assoc] at hQ
    have hpos : ∀ r ∈ g, 0 < r.qty := fun r hr =>
      (m.queues_wf symbol).pos (sideToEngine order.side).opp r (by rw [hQ]; simp [hr])
    obtain ⟨b, hb, heq⟩ := sweepLevels_level m hid hQ hpos hne hp hq h0 idx _
    rw [List.map_cons, heq]
    refine lt_of_le_of_lt (sweepTurn_swept m hpos hq hb _ _ _ _ fun m hm =>
      sweepLevels_swept hG hm).sum_le ?_
    -- the first turn took a positive quantity off the level
    have htaken : ((fill (fun _ => true) (min v.qty remaining) g).rest.map (·.qty)).sum <
        (g.map (·.qty)).sum := by
      refine fill_rest_sum_lt (fun _ => true) (lt_min ?_ h0) hpos hne fun _ _ => rfl
      rw [← hq]
      exact List.sum_pos _ (by simpa using hpos) (by simpa using hne)
    rw [Matcher.queues_setBook_self, hb, Book.queue_set_self, hQ]
    simp only [List.map_append, List.sum_append]
    linarith

end Sweep

end Settler

end Orbit
