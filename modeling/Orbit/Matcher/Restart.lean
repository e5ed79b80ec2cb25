import Mathlib.Data.List.Induction
import Orbit.Foundations.History
import Orbit.Foundations.Lockstep
import Orbit.Matcher.Agreement

/-!
# Restarts that change nothing

A restart discards the books and replays the live `LIMIT` rows, in the order of their ids and
without looking at what `add` returns. When the books held exactly these rows, the orders of
one price in the order of their ids (`InStep`), they are the same afterwards. A matcher that is
restarted only then runs like one that is not: it makes the same trades, order rows and
wallets, and all that differs are the sequence numbers of trades and snapshots, which a process
counts from its start.

* `Matcher.Twin`: two matchers that differ in these numbers and in what their books are made of.
* `lockstep_dispatch` and `Matcher.Twin.step`: twins handle a command alike, and make the same step.
* `Matcher.InStep.twin_restart`: a matcher in step is the twin of what it is after a restart.
* `restarts_transparent`: a run whose restarts all find the matcher in step leaves the tables
  of the run without them.
* `restart_opaque`: a restart that finds a `SUBMIT` pending matches the order in the book
  and not in the tables.
-/

namespace Orbit

open PriceTime Settler Consumer

/-! ## Tables without the numbers of a process -/

def Trade.unnumbered (t : Trade) : Trade := { t with sequence := 0 }

def Payload.unnumbered : Payload → Payload
  | .trade evt => .trade { evt with sequence := 0 }
  | .orderbook evt => .orderbook { evt with seq := 0 }
  | .command cmd => .command cmd
  | .order evt => .order evt
  | .user evt => .user evt

def OutboxEvent.unnumbered (e : OutboxEvent) : OutboxEvent :=
    { e with payload := e.payload.unnumbered }

def Db.unnumbered (db : Db) : Db :=
  { db with
    trades := db.trades.map Trade.unnumbered
    outbox := db.outbox.map OutboxEvent.unnumbered }

def Store.unnumbered (s : Store) : Store := { s with db := s.db.unnumbered }

@[simp] theorem Db.order?_unnumbered (db : Db) (id : ℕ) :
    db.unnumbered.order? id = db.order? id := rfl

@[simp] theorem Db.wallet?_unnumbered (db : Db) (u a : String) :
    db.unnumbered.wallet? u a = db.wallet? u a :=
  rfl

@[simp] theorem Db.user?_unnumbered (db : Db) (u : String) :
    db.unnumbered.user? u = db.user? u := rfl

@[simp] theorem Db.market?_unnumbered (db : Db) (symbol : String) :
    db.unnumbered.market? symbol = db.market? symbol := rfl

@[simp] theorem Db.orders_unnumbered (db : Db) : db.unnumbered.orders = db.orders := rfl

@[simp] theorem Db.assets_unnumbered (db : Db) : db.unnumbered.assets = db.assets := rfl

@[simp] theorem Store.db_unnumbered (s : Store) : s.unnumbered.db = s.db.unnumbered := rfl

@[simp] theorem Store.seqs_unnumbered (s : Store) : s.unnumbered.seqs = s.seqs := rfl

/-- The commands carry no such number. -/
theorem Db.commands_unnumbered (db : Db) : db.unnumbered.commands = db.commands := by
  simp only [Db.commands, Db.unnumbered, List.filterMap_map]
  refine List.filterMap_congr fun e _ => ?_
  obtain ⟨id, topic, key, payload⟩ := e
  cases payload <;> cases topic <;> rfl

/-- The stores differ in the numbers only. -/
def Store.Twin (s t : Store) : Prop := s.unnumbered = t.unnumbered

namespace Store.Twin

variable {s t : Store}

theorem seqs (h : s.Twin t) : s.seqs = t.seqs := by
  have heq := congrArg Store.seqs h
  exact heq

theorem now (h : s.Twin t) : s.now = t.now := by
  have heq := congrArg Store.now h
  exact heq

theorem trades (h : s.Twin t) : s.db.trades.map Trade.unnumbered =
    t.db.trades.map Trade.unnumbered := by
  have heq := congrArg (fun s : Store => s.db.trades) h
  exact heq

theorem orders (h : s.Twin t) : s.db.orders = t.db.orders := by
  have heq := congrArg (fun s : Store => s.db.orders) h
  exact heq

theorem wallets (h : s.Twin t) : s.db.wallets = t.db.wallets := by
  have heq := congrArg (fun s : Store => s.db.wallets) h
  exact heq

theorem user? (h : s.Twin t) (u : String) : s.db.user? u = t.db.user? u := by
  have heq := congrArg (fun s : Store => s.db.user? u) h
  exact heq

theorem market? (h : s.Twin t) (symbol : String) : s.db.market? symbol = t.db.market? symbol := by
  have heq := congrArg (fun s : Store => s.db.market? symbol) h
  exact heq

theorem commands (h : s.Twin t) : s.db.commands = t.db.commands := by
  rw [← s.db.commands_unnumbered, ← t.db.commands_unnumbered]
  exact congrArg (fun s : Store => s.db.commands) h

end Store.Twin

/-- Trades that are equal but for their sequence numbers. -/
theorem Trade.eq_of_unnumbered {t t' : Trade} (h : t.unnumbered = t'.unnumbered) :
    t' = { t with sequence := t'.sequence } := by
  cases t
  cases t'
  simp only [Trade.unnumbered, Trade.mk.injEq] at h ⊢
  simp [h]

/-! ## Statements -/

namespace Stm

/-- The computation does not see the numbers. -/
abbrev Blind {α : Type} (x : Stm α) : Prop := Tx.Ignores (fun s (_ : Unit) => s.unnumbered) x

theorem Blind.simulates {α : Type} {x : Stm α} (h : Blind x) : Tx.Simulates Store.Twin Eq x x :=
  Tx.Ignores.simulates h

theorem blind_stmt : Blind stmt := by
  rintro ⟨db, seqs, uuids, now, _ | _ | n⟩ _ <;> rfl

theorem blind_fail {α : Type} (e : Failure) : Blind (Tx.fail e : Stm α) := fun _ _ => rfl

theorem blind_ofExcept {α : Type} (r : Except Failure α) : Blind (Tx.ofExcept r) := fun _ _ => rfl

theorem blind_query {α : Type} {f : Db → α} (hf : ∀ db, f db.unnumbered = f db) :
    Blind (query f) := by
  refine blind_stmt.bind fun _ s _ => ?_
  exact Prod.ext (congrArg Except.ok (hf s.db)) rfl

theorem blind_write {f : Db → Except Failure Db}
    (hf : ∀ db, f db.unnumbered = (f db).map Db.unnumbered) :
    Blind (write f) := by
  refine blind_stmt.bind fun _ s _ => ?_
  have hrun : ∀ s : Store, (Tx.get >>= fun s => Tx.ofExcept (f s.db) >>= fun db =>
      Tx.modify fun s => { s with db } : Stm Unit) s =
      match f s.db with
      | .ok db => (.ok (), { s with db })
      | .error e => (.error e, s) := by
    intro s
    simp only [Tx.get_bind_apply]
    cases f s.db <;> rfl
  rw [hrun, hrun, Store.db_unnumbered, hf]
  cases f s.db <;> rfl

theorem blind_randomUUID : Blind randomUUID := fun _ _ => rfl

theorem blind_dateNow : Blind dateNow := fun _ _ => rfl

theorem walletUpdate_unnumbered (u a : String) (b l : ℚ) (db : Db) :
    Db.walletUpdate u a b l db.unnumbered = (Db.walletUpdate u a b l db).map Db.unnumbered := by
  unfold Db.walletUpdate
  rw [Db.wallet?_unnumbered]
  cases db.wallet? u a with
  | none => rfl
  | some w =>
    simp only
    split <;> rfl

theorem blind_walletUpdate (u a : String) (b l : ℚ) : Blind (walletUpdate u a b l) :=
  blind_write (walletUpdate_unnumbered u a b l)

theorem blind_walletUpsert (u a : String) (b : ℚ) : Blind (walletUpsert u a b) := by
  refine blind_write fun db => ?_
  unfold Db.walletUpsert
  rw [Db.wallet?_unnumbered, Db.user?_unnumbered, Db.assets_unnumbered]
  cases db.wallet? u a with
  | none =>
    simp only
    split <;> first | rfl | (split <;> rfl)
  | some w => exact walletUpdate_unnumbered u a b 0 db

theorem blind_orderUpdate (id : ℕ) (data : Order → Order) : Blind (orderUpdate id data) := by
  have hwrite : Blind (write (Db.orderUpdate id data)) := by
    refine blind_write fun db => ?_
    unfold Db.orderUpdate
    rw [Db.order?_unnumbered]
    cases db.order? id <;> rfl
  refine hwrite.bind fun _ s _ => ?_
  simp only [Tx.get_bind_apply]
  rw [Store.db_unnumbered, Db.order?_unnumbered]
  cases s.db.order? id <;> rfl

theorem blind_orderFind (id : ℕ) : Blind (orderFind id) := blind_query fun _ => rfl

theorem blind_marketFind (symbol : String) : Blind (marketFind symbol) := blind_query fun _ => rfl

theorem blind_orderFindOrThrow (id : ℕ) : Blind (orderFindOrThrow id) := by
  refine (blind_orderFind id).bind fun o => ?_
  cases o with
  | none => exact blind_fail _
  | some o => exact .pure o

theorem simulates_orderCreate (data : ℕ → Order) :
    Tx.Simulates Store.Twin Eq (orderCreate data) (orderCreate data) := by
  refine blind_stmt.simulates.bind fun _ _ _ s t hst => ?_
  simp only [Tx.modify_bind_apply, Tx.get_bind_apply]
  rw [hst.seqs, hst.orders, hst.user?, hst.market?]
  have hdrawn := congrArg (fun u : Store =>
    { u with seqs := { t.seqs with order := t.seqs.order + 1 } }) hst
  split_ifs
  · exact ⟨.error _ _, hdrawn⟩
  · exact ⟨.error _ _, hdrawn⟩
  · have hcreated := congrArg (fun u : Store =>
      { u with db := { u.db with orders := u.db.orders ++ [data (t.seqs.order + 1)] } }) hdrawn
    exact ⟨.ok rfl, hcreated⟩

/-- Messages that differ in the numbers only. -/
theorem simulates_publish (topic : Topic) (key : String) {p p' : Payload}
    (h : p.unnumbered = p'.unnumbered) :
    Tx.Simulates Store.Twin Eq (publish topic key p) (publish topic key p') := by
  refine blind_stmt.simulates.bind fun _ _ _ s t hst => ⟨.ok rfl, ?_⟩
  -- the row is appended to the tables without the numbers
  have happend : ∀ (s : Store) (p : Payload), Store.unnumbered
      { s with
        seqs := { s.seqs with outbox := s.seqs.outbox + 1 }
        db := { s.db with outbox := s.db.outbox ++ [⟨s.seqs.outbox + 1, topic, key, p⟩] } } =
      { s.unnumbered with
        seqs := { s.unnumbered.seqs with outbox := s.unnumbered.seqs.outbox + 1 }
        db := { s.unnumbered.db with outbox := s.unnumbered.db.outbox ++
          [⟨s.unnumbered.seqs.outbox + 1, topic, key, p.unnumbered⟩] } } := by
    intro s p
    simp [Store.unnumbered, Db.unnumbered, OutboxEvent.unnumbered]
  unfold Store.Twin at hst
  exact (happend s p).trans ((by rw [hst, h] : _ = _).trans (happend t p').symm)

/-- Rows that differ in the sequence number only. -/
theorem simulates_tradeCreate {data data' : ℕ → ℕ → Trade}
    (h : ∀ id now, (data id now).unnumbered = (data' id now).unnumbered) :
    Tx.Simulates Store.Twin (fun t t' => t.unnumbered = t'.unnumbered) (tradeCreate data)
      (tradeCreate data') := by
  refine blind_stmt.simulates.bind fun _ _ _ s t hst => ?_
  simp only [Tx.modify_bind_apply, Tx.get_bind_apply]
  generalize hrow : data (s.seqs.trade + 1) s.now = row
  generalize hrow' : data' (t.seqs.trade + 1) t.now = row'
  have heq : row.unnumbered = row'.unnumbered := by
    rw [← hrow, ← hrow', hst.seqs, hst.now]
    exact h _ _
  have hmatch : row'.matchId = row.matchId := by rw [Trade.eq_of_unnumbered heq]
  -- the index is on a column that is no number
  have hindex : ∀ l : List Trade, (∃ x ∈ l, x.matchId = row.matchId) ↔
      row.matchId ∈ (l.map Trade.unnumbered).map (·.matchId) := by
    intro l
    simp [Trade.unnumbered]
  have hunique : (row.matchId.isSome ∧ ∃ x ∈ s.db.trades, x.matchId = row.matchId) ↔
      (row'.matchId.isSome ∧ ∃ x ∈ t.db.trades, x.matchId = row'.matchId) := by
    rw [hmatch, hindex, hindex, hst.trades]
  by_cases hdup : row.matchId.isSome ∧ ∃ x ∈ s.db.trades, x.matchId = row.matchId
  · rw [if_pos hdup, if_pos (hunique.mp hdup)]
    refine ⟨.error _ _, ?_⟩
    exact congrArg
      (fun u : Store => { u with seqs := { u.seqs with trade := u.seqs.trade + 1 } }) hst
  · rw [if_neg hdup, if_neg (hdup ∘ hunique.mpr)]
    refine ⟨.ok heq, ?_⟩
    have happend : ∀ (s : Store) (row : Trade), Store.unnumbered
        { s with
          seqs := { s.seqs with trade := s.seqs.trade + 1 }
          db := { s.db with trades := s.db.trades ++ [row] } } =
        { s.unnumbered with
          seqs := { s.unnumbered.seqs with trade := s.unnumbered.seqs.trade + 1 }
          db := { s.unnumbered.db with
            trades := s.unnumbered.db.trades ++ [row.unnumbered] } } := by
      intro s row
      simp [Store.unnumbered, Db.unnumbered]
    unfold Store.Twin at hst
    exact (happend s row).trans ((by rw [hst, heq] : _ = _).trans (happend t row').symm)

theorem twin_rollback {s s' t t' : Store} (hst : s.Twin t) (hst' : s'.Twin t') :
    (rollback s s').Twin (rollback t t') := by
  have hdb : s.db.unnumbered = t.db.unnumbered := by
    have heq := congrArg Store.db hst
    exact heq
  have hkept := congrArg (fun u : Store => { u with db := s.db.unnumbered }) hst'
  exact hkept.trans (by rw [hdb]; rfl)

/-- A transaction whose body runs in lockstep. -/
theorem simulates_transaction {α : Type} {body : Stm α} (h : Tx.Simulates Store.Twin Eq body body) :
    Tx.Simulates Store.Twin Eq (transaction body) (transaction body) := by
  exact Tx.Simulates.transaction (blind_stmt.simulates.bind fun _ _ _ => h.bind fun a b hab =>
    blind_stmt.simulates.bind fun _ _ _ => .pure hab) fun s t s' t' => twin_rollback

end Stm

/-! ## Twins -/

/-- The matchers differ in the numbers that they count and in what their books are made of. -/
structure Matcher.Twin {E : Engine} (m t : Matcher E) : Prop where
  store : m.store.Twin t.store
  queues : ∀ symbol, m.queues symbol = t.queues symbol

variable {E : Engine} {m t : Matcher E}

theorem Matcher.Twin.of_store (h : m.Twin t) {s s' : Store} (hs : s.Twin s') :
    Matcher.Twin { m with store := s } { t with store := s' } := ⟨hs, h.queues⟩

namespace Settler

theorem simulates_onStore {α β : Type} {Q : α → β → Prop} {x : Stm α} {y : Stm β}
    (h : Tx.Simulates Store.Twin Q x y) :
    Tx.Simulates Matcher.Twin Q (onStore x : Act E α) (onStore y : Act E β) :=
  h.zoom (fun _ _ ht => ht.store) fun _ _ _ _ ht hs => ht.of_store hs

theorem simulates_blind {α : Type} {x : Stm α} (h : Stm.Blind x) :
    Tx.Simulates Matcher.Twin Eq (onStore x : Act E α) (onStore x) := simulates_onStore h.simulates

theorem twin_setBook (h : m.Twin t) {symbol : String} {b b' : E.Book}
    (hb : E.resting b = E.resting b') :
    (m.setBook symbol b).Twin (t.setBook symbol b') := by
  refine ⟨h.store, fun s => ?_⟩
  by_cases hs : s = symbol
  · rw [hs, Matcher.queues_setBook_self, Matcher.queues_setBook_self, hb]
  · rw [Matcher.queues_setBook_ne _ hs, Matcher.queues_setBook_ne _ hs, h.queues]

theorem simulates_getEngine (symbol : String) :
    Tx.Simulates Matcher.Twin Eq (getEngine symbol : Act E Unit) (getEngine symbol) :=
  fun _ _ h => ⟨.ok rfl, twin_setBook h (h.queues symbol)⟩

theorem simulates_bookAdd (symbol : String) (id : ℕ) (side : Side) (price : ℚ)
    {qty : ℚ} (hq : 0 < qty) :
    Tx.Simulates Matcher.Twin Eq (bookAdd symbol id side price qty : Act E AddResult)
      (bookAdd symbol id side price qty) := by
  intro m t h
  by_cases hid : id ∈ (m.queues symbol).ids
  · obtain ⟨msg, hm⟩ := bookAdd_resting m symbol side price hid qty
    obtain ⟨msg', ht⟩ := bookAdd_resting t symbol side price (h.queues symbol ▸ hid) qty
    rw [hm, ht]
    exact ⟨.error _ _, h⟩
  · obtain ⟨b, hb, hm⟩ := bookAdd_new m symbol side price hid hq
    obtain ⟨b', hb', ht⟩ := bookAdd_new t symbol side price (h.queues symbol ▸ hid) hq
    rw [hm, ht]
    rw [h.queues symbol] at hb ⊢
    exact ⟨.ok rfl, twin_setBook h (hb.trans hb'.symm)⟩

theorem simulates_bookCancel (symbol : String) (id : ℕ) :
    Tx.Simulates Matcher.Twin Eq (bookCancel symbol id : Act E Unit) (bookCancel symbol id) := by
  intro m t h
  by_cases hid : id ∈ (m.queues symbol).ids
  · obtain ⟨b, hb, hm⟩ := bookCancel_resting m symbol hid
    obtain ⟨b', hb', ht⟩ := bookCancel_resting t symbol (h.queues symbol ▸ hid)
    rw [hm, ht]
    rw [h.queues symbol] at hb
    exact ⟨.ok rfl, twin_setBook h (hb.trans hb'.symm)⟩
  · rw [bookCancel_absent m symbol hid, bookCancel_absent t symbol (h.queues symbol ▸ hid)]
    exact ⟨.ok rfl, h⟩

/-- The snapshot is that of the queues. -/
theorem simulates_getOrderbook (symbol : String) :
    Tx.Simulates Matcher.Twin Eq (getOrderbook symbol : Act E Snapshot) (getOrderbook symbol) := by
  intro m t h
  refine ⟨.ok ?_, h⟩
  rw [E.getOrderbook_eq, E.getOrderbook_eq]
  have hq : E.resting (m.book symbol) = E.resting (t.book symbol) := h.queues symbol
  rw [hq]

/-! ## The computations of the settler -/

section Trades

variable (market : Market) (taker maker : Order) (rates : FeeRates)

theorem blind_settleMaker (price qty rate : ℚ) :
    Stm.Blind (settleMaker market maker price qty rate) := by
  unfold settleMaker settleMakerWith creditWallet
  split
  · exact (Stm.blind_walletUpdate _ _ _ _).bind fun _ => Stm.blind_walletUpsert _ _ _
  · split
    · exact Stm.blind_fail _
    · exact (Stm.blind_walletUpdate _ _ _ _).bind fun _ => Stm.blind_walletUpsert _ _ _

theorem blind_settleTaker (price qty rate : ℚ) :
    Stm.Blind (settleTaker market taker price qty rate) := by
  unfold settleTaker settleTakerWith creditWallet
  split
  · split
    · exact (Stm.blind_walletUpdate _ _ _ _).bind fun _ => Stm.blind_walletUpsert _ _ _
    · exact (Stm.blind_walletUpdate _ _ _ _).bind fun _ => Stm.blind_walletUpsert _ _ _
  · exact (Stm.blind_walletUpdate _ _ _ _).bind fun _ => Stm.blind_walletUpsert _ _ _

/-- Rows of trades that differ in their sequence numbers only. -/
abbrev SameTrades (rows rows' : List Trade) : Prop :=
  rows.map Trade.unnumbered = rows'.map Trade.unnumbered

theorem simulates_settleFill (t : EngineTrade) (matchId : MatchId) (sequence sequence' : ℕ) :
    Tx.Simulates Store.Twin (fun t t' => t.unnumbered = t'.unnumbered)
      (settleFill market taker maker t rates matchId sequence)
      (settleFill market taker maker t rates matchId sequence') := by
  unfold settleFill settleFillWith
  refine Tx.Simulates.bind (Stm.simulates_tradeCreate fun _ _ => ?_) fun row row' hrow => ?_
  · rfl
  refine (blind_settleMaker market maker _ _ _).simulates.bind fun _ _ _ => ?_
  refine (blind_settleTaker market taker _ _ _).simulates.bind fun _ _ _ => ?_
  exact (Stm.blind_orderUpdate _ _).simulates.bind fun _ _ _ => .pure hrow

/-- The sequence numbers are drawn from counters that may differ. -/
theorem simulates_nextSequence :
    Tx.Simulates Matcher.Twin (fun _ _ => True) (nextSequence : Act E ℕ) nextSequence :=
  fun _ _ h => ⟨.ok trivial, h.store, h.queues⟩

theorem simulates_settleTrade (t : EngineTrade) (matchId : MatchId) :
    Tx.Simulates Matcher.Twin (fun t t' => t.unnumbered = t'.unnumbered)
      (settleTrade market taker rates matchId t : Act E Trade)
      (settleTrade market taker rates matchId t) := by
  refine (simulates_blind (Stm.blind_orderFindOrThrow _)).bind fun maker maker' hmaker => ?_
  subst hmaker
  exact simulates_nextSequence.bind fun n n' _ =>
    simulates_onStore (simulates_settleFill market taker maker rates t matchId n n')

theorem simulates_settleTrades (commandId : Uuid) (idx : ℕ) (ts : List EngineTrade) :
    Tx.Simulates Matcher.Twin SameTrades
      (settleTrades market taker rates commandId idx ts : Act E (List Trade))
      (settleTrades market taker rates commandId idx ts) := by
  induction ts generalizing idx with
  | nil => exact .pure rfl
  | cons t ts ih =>
    refine (simulates_settleTrade market taker rates t _).bind fun row row' hrow => ?_
    refine (ih _).bind fun rows rows' hrows => .pure ?_
    rw [SameTrades, List.map_cons, List.map_cons, hrow, hrows]

/-- **A sweep** of levels that hold something. -/
theorem simulates_sweepLevels (symbol : String) (commandId : Uuid) (counter idx : ℕ) (remaining : ℚ)
    {lvls : List BookLevel} (hlvls : ∀ lvl ∈ lvls, 0 < lvl.quantity) :
    Tx.Simulates Matcher.Twin (fun p q => SameTrades p.1 q.1 ∧ p.2 = q.2)
      (sweepLevels symbol market taker rates commandId counter idx remaining lvls : Act E _)
      (sweepLevels symbol market taker rates commandId counter idx remaining lvls) := by
  induction lvls generalizing counter idx remaining with
  | nil => exact .pure ⟨rfl, rfl⟩
  | cons lvl lvls ih =>
    obtain ⟨hlvl, hlvls⟩ := List.forall_mem_cons.mp hlvls
    rw [sweepLevels_cons]
    split_ifs with h0
    · exact .pure ⟨rfl, rfl⟩
    have htake : 0 < min lvl.quantity remaining := lt_min hlvl (not_le.mp h0)
    refine (simulates_bookAdd symbol _ _ _ htake).bind fun sweep sweep' hsweep => ?_
    subst hsweep
    refine (simulates_settleTrades market taker rates commandId idx _).bind
      fun fills fills' hfills => ?_
    have hrest : Tx.Simulates Matcher.Twin (fun p q => SameTrades p.1 q.1 ∧ p.2 = q.2)
        (sweepLevels symbol market taker rates commandId (counter + 1) (idx + sweep.trades.length)
          (remaining - min lvl.quantity remaining) lvls >>= fun x =>
            pure (fills ++ x.1, x.2) : Act E (List Trade × ℚ))
        (sweepLevels symbol market taker rates commandId (counter + 1) (idx + sweep.trades.length)
          (remaining - min lvl.quantity remaining) lvls >>=
          fun x => pure (fills' ++ x.1, x.2)) := by
      refine (ih _ _ _ hlvls).bind fun p q hpq => .pure ⟨?_, hpq.2⟩
      rw [SameTrades, List.map_append, List.map_append, hfills, hpq.1]
    split_ifs
    · exact (simulates_bookCancel symbol _).bind fun _ _ _ => hrest
    · exact hrest

end Trades

/-! ## Events -/

theorem simulates_publishTrade (symbol : String) {t t' : Trade} (h : t.unnumbered = t'.unnumbered) :
    Tx.Simulates Store.Twin Eq (publishTrade symbol t) (publishTrade symbol t') := by
  rw [Trade.eq_of_unnumbered h]
  have hid : Stm.Blind (tradeEventId t) := by
    unfold tradeEventId
    split
    · exact .pure _
    · exact Stm.blind_randomUUID.bind fun _ => .pure _
  refine hid.simulates.bind fun eventId eventId' heventId => ?_
  subst heventId
  refine Tx.Simulates.bind (Stm.simulates_publish _ _ ?_) fun _ _ _ => ?_
  · rfl
  refine Stm.blind_dateNow.simulates.bind fun ts ts' hts => ?_
  subst hts
  exact (Stm.simulates_publish _ _ rfl).bind fun _ _ _ => Stm.simulates_publish _ _ rfl

theorem simulates_publishTrades (symbol : String) {rows rows' : List Trade}
    (h : SameTrades rows rows') :
    Tx.Simulates Store.Twin Eq (publishTrades symbol rows) (publishTrades symbol rows') := by
  induction rows generalizing rows' with
  | nil =>
    cases rows' with
    | nil => exact .pure rfl
    | cons row' rows' => cases h
  | cons row rows ih =>
    cases rows' with
    | nil => cases h
    | cons row' rows' =>
      obtain ⟨hrow, hrows⟩ := List.cons.inj h
      exact (simulates_publishTrade symbol hrow).bind fun _ _ _ => ih hrows

theorem simulates_publishSnapshot (symbol : String) :
    Tx.Simulates Matcher.Twin Eq (publishSnapshot symbol : Act E Unit)
      (publishSnapshot symbol) := by
  refine (simulates_getOrderbook symbol).bind fun ob ob' hob => ?_
  subst hob
  refine (simulates_blind Stm.blind_randomUUID).bind fun eventId eventId' heventId => ?_
  subst heventId
  have hseq : Tx.Simulates Matcher.Twin (fun _ _ => True)
      (nextOrderbookSeq : Act E ℕ) nextOrderbookSeq :=
    fun _ _ h => ⟨.ok trivial, h.store, h.queues⟩
  refine hseq.bind fun seq seq' _ => ?_
  refine (simulates_blind Stm.blind_dateNow).bind fun ts ts' hts => ?_
  subst hts
  exact simulates_onStore (Stm.simulates_publish _ _ rfl)

theorem simulates_publishSubmitEvents (order : Order) (symbol : String) {rows rows' : List Trade}
    (h : SameTrades rows rows') :
    Tx.Simulates Matcher.Twin Eq (publishSubmitEvents order rows symbol : Act E Unit)
      (publishSubmitEvents order rows' symbol) := by
  refine Tx.Simulates.bind (Q := Eq) (simulates_onStore ?_) fun _ _ _ =>
    simulates_publishSnapshot symbol
  refine Stm.blind_randomUUID.simulates.bind fun eventId eventId' heventId => ?_
  subst heventId
  refine Stm.blind_dateNow.simulates.bind fun ts ts' hts => ?_
  subst hts
  exact (Stm.simulates_publish _ _ rfl).bind fun _ _ _ => simulates_publishTrades symbol h

theorem simulates_publishCancelEvents (order : Order) :
    Tx.Simulates Matcher.Twin Eq (publishCancelEvents order : Act E Unit)
      (publishCancelEvents order) := by
  refine Tx.Simulates.bind (Q := Eq) (simulates_onStore ?_) fun _ _ _ => simulates_publishSnapshot _
  refine Stm.blind_randomUUID.simulates.bind fun eventId eventId' heventId => ?_
  subst heventId
  refine Stm.blind_dateNow.simulates.bind fun ts ts' hts => ?_
  subst hts
  refine (Stm.simulates_publish _ _ rfl).bind fun _ _ _ => ?_
  refine Stm.blind_randomUUID.simulates.bind fun userEventId userEventId' huserEventId => ?_
  subst huserEventId
  refine Stm.blind_dateNow.simulates.bind fun userTs userTs' huserTs => ?_
  subst huserTs
  exact Stm.simulates_publish _ _ rfl

/-! ## Commands -/

theorem simulates_actTransaction {α : Type} {Q : α → α → Prop} {body : Act E α}
    (h : Tx.Simulates Matcher.Twin Q body body) :
    Tx.Simulates Matcher.Twin Q (transaction body) (transaction body) := by
  have hstmt := simulates_blind (E := E) Stm.blind_stmt
  refine Tx.Simulates.transaction (hstmt.bind fun _ _ _ => h.bind fun a b hab =>
    hstmt.bind fun _ _ _ => .pure hab) fun m t m' t' hmt hmt' => ?_
  exact hmt'.of_store (Stm.twin_rollback hmt.store hmt'.store)

theorem simulates_executeMarketOrder (symbol : String) (market : Market) (order : Order)
    (rates : FeeRates) (commandId : Uuid) :
    Tx.Simulates Matcher.Twin SameTrades
      (executeMarketOrder symbol market order rates commandId : Act E (List Trade))
      (executeMarketOrder symbol market order rates commandId) := by
  intro m t hmt
  refine (simulates_getOrderbook symbol m t hmt).bind fun ob ob' m' t' hob _ heq hmt' => ?_
  subst heq
  have hlvls : ∀ lvl ∈ oppositeLevels order.side ob, 0 < lvl.quantity := by
    obtain ⟨rfl, rfl⟩ : ob = E.getOrderbook (m.book symbol) ∧ m' = m := by
      cases hob
      exact ⟨rfl, rfl⟩
    intro lvl hlvl
    rw [getOrderbook_levels] at hlvl
    obtain ⟨v, hv, rfl⟩ := List.mem_map.mp hlvl
    exact (levels_grouped _).pos ((m'.queues_wf symbol).pos _) v (List.mem_of_mem_take hv)
  refine ((simulates_sweepLevels market order rates symbol commandId 0 0 _ hlvls).bind ?_) m' t'
    hmt'
  rintro ⟨rows, remaining⟩ ⟨rows', remaining'⟩ ⟨hrows, hremaining⟩
  obtain rfl : remaining = remaining' := hremaining
  refine (simulates_blind (Stm.blind_orderUpdate _ _)).bind fun _ _ _ => ?_
  have hresidual : Stm.Blind (settleResidual market order remaining) := by
    unfold settleResidual
    split_ifs
    · exact (Stm.blind_walletUpdate _ _ _ _).bind fun _ =>
        (Stm.blind_orderUpdate _ _).bind fun _ => .pure _
    · exact (Stm.blind_orderUpdate _ _).bind fun _ => .pure _
  split_ifs
  · exact (simulates_blind hresidual).bind fun _ _ _ => .pure hrows
  · exact .pure hrows

theorem simulates_matchSubmit (market : Market) {order : Order} (cmd : OrderSubmitCommand)
    (rates : FeeRates) (h0 : 0 < order.leaveQty) :
    Tx.Simulates Matcher.Twin SameTrades (matchSubmit market order cmd rates : Act E (List Trade))
      (matchSubmit market order cmd rates) := by
  unfold matchSubmit matchSubmitWith
  split
  · exact .fail _ _
  · refine (simulates_bookAdd _ _ _ _ h0).bind fun res res' hres => ?_
    subst hres
    refine (simulates_settleTrades market order rates _ _ _).bind fun rows rows' hrows => ?_
    exact (simulates_blind (Stm.blind_orderUpdate _ _)).bind fun _ _ _ => .pure hrows
  · exact simulates_executeMarketOrder _ market order rates _

theorem simulates_submitBody (market : Market) {order : Order} (cmd : OrderSubmitCommand)
    (h0 : 0 < order.leaveQty) :
    Tx.Simulates Matcher.Twin (fun p q => SameTrades p.2 q.2)
      (submitBody market order cmd : Act E (Order × List Trade)) (submitBody market order cmd) := by
  refine (simulates_matchSubmit market cmd _ h0).bind fun rows rows' hrows => ?_
  refine (simulates_blind (Stm.blind_orderFindOrThrow _)).bind
    fun persisted persisted' hpersisted => ?_
  subst hpersisted
  exact (simulates_publishSubmitEvents persisted cmd.symbol hrows).bind fun _ _ _ => .pure hrows

theorem simulates_cancelBody (market : Market) (order : Order) :
    Tx.Simulates Matcher.Twin Eq (cancelBody market order : Act E Order)
      (cancelBody market order) := by
  have hrelease : Stm.Blind (releaseReservation market order) := by
    unfold releaseReservation
    split
    · split
      · exact Stm.blind_walletUpdate _ _ _ _
      · exact .pure _
      · exact Stm.blind_walletUpdate _ _ _ _
    · exact .pure _
  refine (simulates_bookCancel _ _).bind fun _ _ _ => ?_
  refine (simulates_blind hrelease).bind fun _ _ _ => ?_
  refine (simulates_blind (Stm.blind_orderUpdate _ _)).bind
    fun persisted persisted' hpersisted => ?_
  subst hpersisted
  exact (simulates_publishCancelEvents persisted).bind fun _ _ _ => .pure rfl

theorem lockstep_settleSubmit (h : m.Twin t) (hs : m.store.Sound) (cmd : OrderSubmitCommand) :
    Tx.Lockstep Matcher.Twin (fun a b => a.isSome = b.isSome) (settleSubmit cmd m)
      (settleSubmit cmd t) := by
  refine (simulates_blind (Stm.blind_marketFind cmd.symbol) m t h).bind
    fun market market' m₁ t₁ hm _ heq
    h₁ => ?_
  subst heq
  cases market with
  | none => exact ⟨.ok rfl, h₁⟩
  | some market =>
    refine (simulates_blind (Stm.blind_orderFind cmd.orderId) m₁ t₁ h₁).bind
      fun order order' m₂ t₂ ho _
      heq h₂ => ?_
    subst heq
    cases order with
    | none => exact ⟨.ok rfl, h₂⟩
    | some order =>
      dsimp only
      split_ifs with hguard hterm
      · exact ⟨.ok rfl, h₂⟩
      · exact ⟨.ok rfl, h₂⟩
      have hrow : m.db.order? cmd.orderId = some order := by
        rw [(onStore_query_eq_ok ho).1, (onStore_query_eq_ok hm).2]
      have h0 := ((hs.rows _ _ hrow).live (Bool.eq_false_iff.mpr hterm)).2
      refine Tx.Simulates.bind (simulates_getEngine cmd.symbol) (fun _ _ _ => ?_) m₂ t₂ h₂
      exact (simulates_actTransaction (simulates_submitBody market cmd h0)).bind
        fun _ _ _ => .pure rfl

theorem simulates_settleCancel (cmd : OrderCancelCommand) :
    Tx.Simulates Matcher.Twin (fun a b => a.isSome = b.isSome)
      (settleCancel cmd : Act E (Option Order)) (settleCancel cmd) := by
  refine (simulates_blind (Stm.blind_orderFind cmd.orderId)).bind fun order order' heq => ?_
  subst heq
  cases order with
  | none => exact .pure rfl
  | some order =>
    dsimp only
    split_ifs
    · exact .pure rfl
    refine (simulates_blind (Stm.blind_marketFind order.market)).bind fun market market' heq => ?_
    subst heq
    cases market with
    | none => exact .pure rfl
    | some market =>
      exact (simulates_getEngine order.market).bind fun _ _ _ =>
        (simulates_actTransaction (simulates_cancelBody market order)).bind fun _ _ _ => .pure rfl

end Settler

/-- **Twins handle a command alike.** -/
theorem lockstep_dispatch (h : m.Twin t) (hs : m.store.Sound) (cmd : OrderCommand) :
    Tx.Lockstep Matcher.Twin Eq (dispatch cmd m) (dispatch cmd t) := by
  have hdone : ∀ symbol, Tx.Simulates Matcher.Twin Eq
      (getEngine symbol >>= fun _ => pure Result.ok : Act E Result)
      (getEngine symbol >>= fun _ => pure Result.ok) := fun symbol =>
    (simulates_getEngine symbol).bind fun _ _ _ => .pure rfl
  cases cmd with
  | SUBMIT cmd =>
    refine (lockstep_settleSubmit h hs cmd).bind fun a b m' t' _ _ hab h' => ?_
    cases a <;> cases b
    · exact ⟨.ok rfl, h'⟩
    · cases hab
    · cases hab
    · exact hdone cmd.symbol m' t' h'
  | CANCEL cmd =>
    refine (simulates_settleCancel cmd m t h).bind fun a b m' t' _ _ hab h' => ?_
    cases a <;> cases b
    · exact ⟨.ok rfl, h'⟩
    · cases hab
    · cases hab
    · exact hdone cmd.symbol m' t' h'

/-! ## The api -/

namespace Api

open Stm

theorem simulates_lockReservation (userId : String) (market : Market)
    (dto : CreateOrderDto) (quantity : ℚ)
    (price : Option ℚ) : Blind (OrderService.lockReservation userId market dto quantity price) := by
  have hlock : ∀ asset amt, Blind (OrderService.atomicLock userId asset amt) := by
    refine fun asset amt => blind_write fun db => ?_
    unfold OrderService.atomicLockUpdate
    rw [Db.wallet?_unnumbered]
    cases db.wallet? userId asset with
    | none => rfl
    | some w =>
      dsimp only
      split_ifs
      · exact walletUpdate_unnumbered _ _ _ _ db
      · rfl
  unfold OrderService.lockReservation
  split
  · exact hlock _ _
  · exact hlock _ _
  · exact blind_fail _
  · exact hlock _ _
  · exact .pure _

theorem simulates_submitTx (userId : String) (market : Market)
    (dto : CreateOrderDto) (price : Option ℚ)
    (commandId : Uuid) : Tx.Simulates Store.Twin Eq
      (OrderService.submitTx userId market dto price commandId)
      (OrderService.submitTx userId market dto price commandId) := by
  refine simulates_transaction ?_
  refine (simulates_lockReservation userId market dto _ _).simulates.bind fun _ _ _ => ?_
  refine (simulates_orderCreate _).bind fun created created' hcreated => ?_
  subst hcreated
  refine blind_dateNow.simulates.bind fun ts ts' hts => ?_
  subst hts
  exact (simulates_publish _ _ rfl).bind fun _ _ _ => .pure rfl

theorem simulates_submit (userId : String) (dto : CreateOrderDto) :
    Tx.Simulates Store.Twin Eq (OrderService.submit userId dto)
      (OrderService.submit userId dto) := by
  refine (blind_query (f := (·.user? userId)) fun _ => rfl).simulates.bind
    fun user user' huser => ?_
  subst huser
  cases user with
  | none => exact .fail _ _
  | some user =>
    refine .ite (fun _ => .fail _ _) fun _ => ?_
    refine (blind_marketFind dto.market).simulates.bind fun market market' hmarket => ?_
    subst hmarket
    cases market with
    | none => exact .fail _ _
    | some market =>
      refine .ite (fun _ => .fail _ _) fun _ => ?_
      refine (blind_ofExcept _).simulates.bind fun _ _ _ => ?_
      refine .ite (fun _ => .fail _ _) fun _ => .ite (fun _ => .fail _ _) fun _ => ?_
      refine blind_randomUUID.simulates.bind fun commandId commandId' hid => ?_
      subst hid
      exact simulates_submitTx userId market dto _ commandId

theorem simulates_cancel (userId : String) (orderId : ℕ) :
    Tx.Simulates Store.Twin Eq (OrderService.cancel userId orderId)
      (OrderService.cancel userId orderId) := by
  refine (blind_orderFind orderId).simulates.bind fun order order' horder => ?_
  subst horder
  cases order with
  | none => exact .fail _ _
  | some order =>
    dsimp only
    split_ifs
    · exact .fail _ _
    · exact .fail _ _
    refine blind_randomUUID.simulates.bind fun commandId commandId' hid => ?_
    subst hid
    refine (simulates_transaction ?_).bind fun _ _ _ => .pure rfl
    refine blind_dateNow.simulates.bind fun ts ts' hts => ?_
    subst hts
    exact simulates_publish _ _ rfl

theorem simulates_forceCancel (orderId : ℕ) :
    Tx.Simulates Store.Twin Eq (Admin.forceCancel orderId) (Admin.forceCancel orderId) := by
  refine (blind_orderFind orderId).simulates.bind fun order order' horder => ?_
  subst horder
  cases order with
  | none => exact .fail _ _
  | some order =>
    dsimp only
    split_ifs
    · exact .fail _ _
    refine blind_randomUUID.simulates.bind fun commandId commandId' hid => ?_
    subst hid
    refine blind_dateNow.simulates.bind fun ts ts' hts => ?_
    subst hts
    exact simulates_transaction (simulates_publish _ _ rfl)

theorem blind_marketUpdate (symbol : String) (input : MarketUpdateInput) :
    Blind (Admin.marketUpdate symbol input) := by
  refine (blind_marketFind symbol).bind fun market => ?_
  cases market with
  | none => exact blind_fail _
  | some market =>
    refine blind_write fun db => ?_
    rw [Db.market?_unnumbered]
    cases db.market? symbol <;> rfl

theorem simulates_adjust (userId asset : String) (field : WalletField) (delta : ℚ) :
    Tx.Simulates Store.Twin Eq (Admin.adjust userId asset field delta)
      (Admin.adjust userId asset field delta) := by
  have hset : ∀ value, Blind (write (Admin.setWallet userId asset field value)) := by
    refine fun value => blind_write fun db => ?_
    unfold Admin.setWallet
    rw [Db.wallet?_unnumbered]
    cases db.wallet? userId asset with
    | none => rfl
    | some w =>
      dsimp only
      split_ifs <;> rfl
  refine simulates_transaction (Blind.simulates ?_)
  refine (blind_query (f := (·.wallet? userId asset)) fun _ => rfl).bind fun wallet => ?_
  cases wallet with
  | none => exact blind_fail _
  | some wallet =>
    dsimp only
    split_ifs
    · exact blind_fail _
    · exact hset _

end Api

/-! ## Steps -/

theorem Store.Twin.withFaults {s s' : Store} (h : s.Twin s') (faults : Option ℕ) :
    Store.Twin { s with faults } { s' with faults } := by
  have heq := congrArg (fun u : Store => { u with faults }) h
  exact heq

theorem Matcher.Twin.withFaults (h : m.Twin t) (faults : Option ℕ) :
    (m.withFaults faults).Twin (t.withFaults faults) := h.of_store (h.store.withFaults faults)

theorem Matcher.Twin.call {α : Type} {x : Stm α} (h : m.Twin t)
    (hx : Tx.Simulates Store.Twin Eq x x)
    (faults : Option ℕ) : (m.call faults x).Twin (t.call faults x) :=
  h.of_store ((hx _ _ (h.store.withFaults faults)).2.withFaults none)

theorem Matcher.Twin.deliver (h : m.Twin t) (hs : m.store.Sound)
    (cmd : OrderCommand) (faults : Option ℕ) :
    (m.deliver cmd faults).Twin (t.deliver cmd faults) := by
  have hcommands : m.db.commands = t.db.commands := h.store.commands
  have hrun := lockstep_dispatch (h.withFaults faults)
    (hs.congr (m.same_withFaults faults).framed (m.same_withFaults faults).db) cmd
  rcases deliver_eq m cmd faults with ⟨hcmd, hm⟩ | ⟨hcmd, r, m₁, hd, hm⟩
  · rcases deliver_eq t cmd faults with ⟨-, ht⟩ | ⟨hcmd', -⟩
    · rwa [hm, ht]
    · exact absurd (hcommands ▸ hcmd') hcmd
  · rcases deliver_eq t cmd faults with ⟨hcmd', -⟩ | ⟨-, r', t₁, hd', ht⟩
    · exact absurd (hcommands ▸ hcmd) hcmd'
    · rw [hd, hd'] at hrun
      rw [hm, ht]
      exact hrun.2.withFaults none

/-- **Twins make the same step**, but for a restart. -/
theorem Matcher.Twin.step (h : m.Twin t) (hs : m.store.Sound) {l : Step} (hl : l ≠ .restart) :
    (m.step l).Twin (t.step l) := by
  cases l with
  | submit userId dto faults => exact h.call (Api.simulates_submit userId dto) faults
  | cancel userId orderId faults => exact h.call (Api.simulates_cancel userId orderId) faults
  | forceCancel orderId faults => exact h.call (Api.simulates_forceCancel orderId) faults
  | deliver cmd faults => exact h.deliver hs cmd faults
  | restart => exact absurd rfl hl
  | marketUpdate symbol input faults =>
    exact h.call
      (Api.blind_marketUpdate symbol input).simulates faults
  | adjust userId asset field delta faults =>
      exact h.call (Api.simulates_adjust userId asset field delta) faults
  | tick now =>
    have heq := congrArg (fun u : Store => { u with now }) h.store
    exact h.of_store heq

/-! ## Restarts -/

/-- The books hold the live `LIMIT` rows with all that they have left, those of one price in the
order of their ids. -/
structure Matcher.InStep (m : Matcher E) : Prop where
  rests : RestsWhole m
  ranked : ∀ symbol side, Ranked side ((m.queues symbol).queue side)

/-- **A restart in step** changes the numbers only. -/
theorem Matcher.InStep.twin_restart (h : m.InStep) (hs : Safe m) :
    (MatchingEngine.restart m).Twin m := by
  obtain ⟨-, hperm⟩ := restart_perm hs h.rests
  refine ⟨rfl, fun symbol => Book.ext_queue fun side => ?_⟩
  obtain ⟨hp, hranked⟩ := hperm symbol side
  exact hranked.eq_of_perm (h.ranked symbol side) hp

/-- The step is no restart. -/
def Step.ordinary (l : Step) : Bool := l != .restart

/-- What a trade exchanges. -/
def Trade.exchanged (t : Trade) : ℕ × ℕ × ℚ × ℚ :=
    (t.makerOrderId, t.takerOrderId, t.price, t.quantity)

/-- The tables at the end of a run are those of the run without its restarts: the trades in order,
the order rows and the wallets. -/
def Matcher.Transparent (m : Matcher E) (steps : List Step) : Prop :=
  (m.run steps).db.trades.map Trade.exchanged =
      (m.run (steps.filter Step.ordinary)).db.trades.map Trade.exchanged ∧
    (m.run steps).db.orders = (m.run (steps.filter Step.ordinary)).db.orders ∧
    (m.run steps).db.wallets = (m.run (steps.filter Step.ordinary)).db.wallets

theorem Matcher.Twin.trans {u : Matcher E} (h : m.Twin t) (h' : t.Twin u) : m.Twin u :=
  ⟨h.store.trans h'.store, fun symbol => (h.queues symbol).trans (h'.queues symbol)⟩

theorem Store.Twin.exchanged {s t : Store} (h : s.Twin t) :
    s.db.trades.map Trade.exchanged = t.db.trades.map Trade.exchanged := by
  have heq := congrArg (List.map Trade.exchanged) h.trades
  rw [List.map_map, List.map_map] at heq
  exact heq

/-- Every restart of the run finds the matcher in step. -/
def Matcher.RestartsInStep (m : Matcher E) (steps : List Step) : Prop :=
  Justified (fun before l => l = .restart → (m.run before).InStep) steps

theorem run_twin (h : m.Initial) {steps : List Step} (hsteps : m.RestartsInStep steps) :
    (m.run steps).Twin (m.run (steps.filter Step.ordinary)) := by
  induction steps using List.reverseRecOn with
  | nil => exact ⟨rfl, fun _ => rfl⟩
  | append_singleton before l ih =>
    obtain ⟨hbefore, hl⟩ := justified_concat.mp hsteps
    have htwin := ih hbefore
    rw [List.filter_append, Matcher.run_append, Matcher.run_append]
    by_cases hr : l = .restart
    · subst hr
      exact ((hl rfl).twin_restart (run_safe h before)).trans htwin
    · rw [List.filter_singleton, Step.ordinary, bne_iff_ne.mpr hr]
      exact htwin.step (run_safe h before).sound hr

/-- **Restarts that find the matcher in step are transparent**: whatever the calls, deliveries and
failing statements of the run, its tables are those of the run without them. -/
theorem restarts_transparent (h : m.Initial) (steps : List Step) (hsteps : m.RestartsInStep steps) :
    m.Transparent steps :=
  have htwin := (run_twin h hsteps).store
  ⟨htwin.exchanged, htwin.orders, htwin.wallets⟩

instance (m : Matcher E) (steps : List Step) : Decidable (m.Transparent steps) :=
  inferInstanceAs (Decidable (_ ∧ _ ∧ _))

namespace Sample

/-- What is left of the order of `bob` rests, alone. -/
theorem trading_inStep : (exchange.run trading).InStep := by
  have hagrees := run_agrees (initial_agrees exchange_initial) trading_failureFree
  have hconsumed : ∀ c ∈ (exchange.run trading).db.commands, ∀ cmd, c = .SUBMIT cmd →
      cmd.orderId ∈ exchange.consumed [] trading := by
    have hcommands : (exchange.run trading).db.commands =
      [submitted 0 1 "bob" (limit .ASK 100 2), submitted 3 2 "alice" (limit .BID 110 1)] := by
      decide +kernel
    have hids : exchange.consumed [] trading = [2, 1] := by decide +kernel
    rw [hcommands, hids]
    rintro c hc cmd rfl
    simp [submitted] at hc
    rcases hc with rfl | rfl <;> simp
  refine ⟨hagrees.restsWhole fun cmd hcmd => hconsumed _ hcmd cmd rfl, fun symbol side => ?_⟩
  by_cases hs : symbol = "BTC-USDT"
  · subst hs
    cases side with
    | bid =>
      rw [show ((exchange.run trading).queues "BTC-USDT").queue .bid = [] by decide +kernel]
      exact List.Pairwise.nil
    | ask =>
      rw [show ((exchange.run trading).queues "BTC-USDT").queue .ask =
        [⟨1, 100, 1⟩] by decide +kernel]
      exact List.pairwise_singleton _ _
  · have hmarket : ∀ o ∈ (exchange.run trading).db.orders, o.market =
        "BTC-USDT" := by decide +kernel
    have hnone : ((exchange.run trading).queues symbol).queue side = [] := by
      refine List.eq_nil_iff_forall_not_mem.mpr fun r hr => hs ?_
      obtain ⟨o, ho⟩ := hagrees.backed symbol side r hr
      exact ho.market.symm.trans (hmarket o (Db.mem_of_order? ho.row))
    rw [hnone]
    exact List.Pairwise.nil

/-- The matcher is restarted before `alice` buys what is left. -/
def resumed : List Step :=
  trading ++ [.restart, .submit "alice" (limit .BID 110 1) none,
    .deliver (submitted 6 3 "alice" (limit .BID 110 1)) none]

/-- `bob` asks 1 at 100, `alice` bids for it, and the matcher is restarted while her
`SUBMIT` is pending. -/
def interrupted : List Step :=
  [.submit "bob" (limit .ASK 100 1) none, .deliver (submitted 0 1 "bob" (limit .ASK 100 1)) none,
    .submit "alice" (limit .BID 110 1) none, .restart,
    .deliver (submitted 3 2 "alice" (limit .BID 110 1)) none]

end Sample

theorem restarts_transparent_resumed : Sample.exchange.Transparent Sample.resumed := by
  have hfirst : Sample.exchange.RestartsInStep Sample.trading := by
    intro before l after heq hl
    have hmem : Step.restart ∈ Sample.trading := by
      rw [heq, hl]
      simp
    exact absurd hmem (by decide)
  refine restarts_transparent Sample.exchange_initial Sample.resumed ?_
  refine justified_append.mpr ⟨hfirst, justified_cons.mpr ⟨fun _ => ?_, ?_⟩⟩
  · rw [List.append_nil]
    exact Sample.trading_inStep
  · refine justified_cons.mpr ⟨fun h => ?_, justified_cons.mpr ⟨fun h => ?_, justified_nil⟩⟩
    · cases h
    · cases h

/-- **A restart with a `SUBMIT` pending**: the replay matches the order of `alice` and drops the
trade, and the redelivered `SUBMIT` finds nothing to match. -/
theorem restart_opaque : ¬Sample.exchange.Transparent Sample.interrupted := by
  decide +kernel

end Orbit
