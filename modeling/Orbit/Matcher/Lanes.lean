import Orbit.Foundations.Lanes
import Orbit.Matcher.OrdersTopic

/-!
# The lanes of the matcher

Each market is a lane of its own: its row, its book, its orders, its trades and the messages about
it. A command of a market reads and writes its lane, and the wallets, which all markets share and to
which it only ever adds postings. `Matcher.lane` reads a lane up to what is drawn from sequences, at
random or off the clock, and `Db.account` an account.

* `deliver_lane`: a delivery, whether it commits or not, leaves the other lanes alone.
* `actsOn_commit`: a command that commits acts on its lane, with its postings for the accounts.
-/

namespace Orbit

open PriceTime Settler Consumer

variable {E : Engine} {m m' : Matcher E}

/-! ## What is the same up to ids -/

/-- An event id without what is random in it, or drawn from the sequence of the trades. -/
def EventId.core : EventId → EventId
  | .random _ => .random ⟨0⟩
  | .takerOfTrade _ => .takerOfTrade 0
  | .makerOfTrade _ => .makerOfTrade 0
  | e => e

/-- A payload without ids, sequence numbers and timestamps. -/
def Payload.core : Payload → Payload
  | .command cmd => .command cmd
  | .order evt => .order { evt with eventId := evt.eventId.core, ts := 0 }
  | .trade evt => .trade { evt with eventId := evt.eventId.core, id := 0, sequence := 0, ts := 0 }
  | .user evt => .user { evt with eventId := evt.eventId.core, ts := 0 }
  | .orderbook evt => .orderbook { evt with eventId := evt.eventId.core, seq := 0, ts := 0 }

/-- The market that a payload is about. -/
def Payload.market : Payload → String
  | .command cmd => cmd.symbol
  | .order evt => evt.market
  | .trade evt => evt.market
  | .user evt => evt.market
  | .orderbook evt => evt.market

/-- A trade without its id, sequence number and timestamp. -/
def Trade.core (t : Trade) : Trade := { t with id := 0, sequence := 0, createdAt := 0 }

/-- The content of a message, up to ids. -/
def contentCore (c : Topic × String × Payload) : Topic × String × Payload :=
    (c.1, c.2.1, c.2.2.core)

/-- What there is of one market. -/
structure Lane where
  market : Option Market
  queues : Queues
  orders : List Order
  trades : List Trade
  messages : List (Topic × String × Payload)

/-- **The lane of a market**, up to ids, sequence numbers and timestamps. -/
def Matcher.lane (m : Matcher E) (symbol : String) : Lane where
  market := m.db.market? symbol
  queues := m.queues symbol
  orders := m.db.orders.filter (·.market = symbol)
  trades := (m.db.trades.filter (·.market = symbol)).map Trade.core
  messages := ((m.db.outbox.map (·.content)).filter (·.2.2.market = symbol)).map contentCore

theorem Matcher.Same.lane (h : m.Same m') (symbol : String) : m'.lane symbol = m.lane symbol := by
  unfold Matcher.lane
  rw [h.db, h.queues]

/-- A row of the market is found in its lane. -/
theorem order?_lane {symbol : String} {id : ℕ} {o : Order} (ho : m.db.order? id = some o)
    (hm : o.market = symbol) : Table.find? id (m.lane symbol).orders = some o :=
  Table.find?_filter ho (decide_eq_true hm)

/-- Rows of the market that two states have in common with equal lanes. -/
theorem order?_eq_of_lane {x y : Matcher E} {symbol : String}
    (h : y.lane symbol = x.lane symbol) {id : ℕ}
    {o o' : Order} (ho : x.db.order? id = some o) (hm : o.market = symbol)
    (ho' : y.db.order? id = some o') (hm' : o'.market = symbol) : o' = o := by
  have hx := order?_lane ho hm
  have hy := order?_lane ho' hm'
  rw [h] at hy
  exact Option.some.inj (hy.symm.trans hx)

/-- A row of the market is there in every state that agrees on its lane. -/
theorem order?_of_lane {x y : Matcher E} (hs : y.store.Sound) {symbol : String}
    (h : y.lane symbol = x.lane symbol) {id : ℕ} {o : Order} (ho : x.db.order? id = some o)
    (hm : o.market = symbol) : y.db.order? id = some o := by
  have hfind := order?_lane ho hm
  rw [← h] at hfind
  have hmem : o ∈ y.db.orders := (List.mem_filter.mp (Table.mem_of_find? hfind)).1
  rw [← Db.order?_id ho]
  exact hs.order?_of_mem hmem

/-! ## Accounts -/

/-- Whether there is a wallet, and its two amounts. -/
def Db.account (db : Db) (u a : String) : Prop × ℚ × ℚ :=
  ((db.wallet? u a).isSome, db.balance u a, db.locked u a)

/-- The postings made on accounts. -/
def Posting.post (ps : List Posting) (accounts : String → String → Prop × ℚ × ℚ) (u a : String) :
    Prop × ℚ × ℚ :=
  ((accounts u a).1 ∨ ∃ p ∈ ps, p.userId = u ∧ p.asset = a,
    (accounts u a).2.1 + balanceSum u a ps, (accounts u a).2.2 + lockedSum u a ps)

theorem Posting.post_comm (ps qs : List Posting) (accounts : String → String → Prop × ℚ × ℚ) :
    post ps (post qs accounts) = post qs (post ps accounts) := by
  funext u a
  simp only [post, Prod.mk.injEq, eq_iff_iff]
  exact ⟨or_right_comm, add_right_comm _ _ _, add_right_comm _ _ _⟩

theorem Posted.account {db db' : Db} {ps : List Posting} (h : Posted db db' ps) :
    db'.account = Posting.post ps db.account := by
  funext u a
  simp only [Db.account, Posting.post, h.opened, h.balance, h.locked]

/-- The accounts determine the wallets. -/
theorem wallet?_of_account {db db' : Db} (h : db'.account = db.account) (u a : String) :
    db'.wallet? u a = db.wallet? u a := by
  obtain ⟨hopen, hbalance, hlocked⟩ := by
    simpa only [Db.account, Prod.mk.injEq, eq_iff_iff] using congrFun (congrFun h u) a
  cases hw : db.wallet? u a with
  | none => simpa [hw] using hopen
  | some w =>
    obtain ⟨w', hw'⟩ := Option.isSome_iff_exists.mp (hopen.mpr (by rw [hw]; rfl))
    rw [Db.balance_of_wallet? hw, Db.balance_of_wallet? hw'] at hbalance
    rw [Db.locked_of_wallet? hw, Db.locked_of_wallet? hw'] at hlocked
    have hkey := (Table.key_of_find? hw').trans (Table.key_of_find? hw).symm
    obtain ⟨hu, ha⟩ := Prod.mk.inj hkey
    rw [hw']
    exact congrArg some (by cases w; cases w'; simp_all)

/-! ## What a command writes -/

/-- **What a command of the market `symbol` writes**: the trades `rows`, messages with the
`contents`, and the postings `ps`, in no other lane. -/
structure Wrote (symbol : String) (m m' : Matcher E) (rows : List Trade)
    (contents : List (Topic × String × Payload)) (ps : List Posting) : Prop where
  framed : m.store.Framed m'.store
  queues_ne : ∀ s, s ≠ symbol → m'.queues s = m.queues s
  others : ∀ q : String → Bool, q symbol = false →
    m'.db.orders.filter (q ·.market) = m.db.orders.filter (q ·.market)
  trades : m'.db.trades = m.db.trades ++ rows
  traded : ∀ t ∈ rows, t.market = symbol
  outbox : Adds m.db m'.db contents
  about : ∀ c ∈ contents, c.2.2.market = symbol
  posted : Posted m.db m'.db ps

namespace Wrote

variable {symbol : String} {rows : List Trade} {contents : List (Topic × String × Payload)}
  {ps : List Posting}

theorem market? (h : Wrote symbol m m' rows contents ps) : m'.db.market? = m.db.market? := by
  funext k
  exact congrArg (Table.find? k) h.framed.markets

theorem lane_ne (h : Wrote symbol m m' rows contents ps) {s : String} (hs : s ≠ symbol) :
    m'.lane s = m.lane s := by
  have hrows : rows.filter (·.market = s) = [] :=
    List.filter_eq_nil_iff.mpr fun t ht => by simp [h.traded t ht, Ne.symm hs]
  have hcontents : contents.filter (·.2.2.market = s) = [] :=
    List.filter_eq_nil_iff.mpr fun c hc => by simp [h.about c hc, Ne.symm hs]
  obtain ⟨out, hout, rfl⟩ := h.outbox
  unfold Matcher.lane
  rw [h.market?, h.queues_ne s hs, h.others (· = s) (by simp [Ne.symm hs]), h.trades,
    List.filter_append, hrows, List.append_nil, hout, List.map_append,
    List.filter_append, hcontents,
    List.append_nil]

theorem trades_self (h : Wrote symbol m m' rows contents ps) :
    (m'.lane symbol).trades = (m.lane symbol).trades ++ rows.map Trade.core := by
  have hrows : rows.filter (·.market = symbol) = rows :=
    List.filter_eq_self.mpr fun t ht => by simp [h.traded t ht]
  simp only [Matcher.lane, h.trades, List.filter_append, hrows, List.map_append]

theorem messages_self (h : Wrote symbol m m' rows contents ps) :
    (m'.lane symbol).messages = (m.lane symbol).messages ++ contents.map contentCore := by
  have hcontents : contents.filter (·.2.2.market = symbol) = contents :=
    List.filter_eq_self.mpr fun c hc => by simp [h.about c hc]
  obtain ⟨out, hout, rfl⟩ := h.outbox
  simp only [Matcher.lane, hout, List.map_append, List.filter_append, hcontents]

/-- Two states write alike what is alike in them. -/
theorem lane_self {x x' y y' : Matcher E} {rows' : List Trade}
    {contents' : List (Topic × String × Payload)} {ps' : List Posting}
    (hx : Wrote symbol x x' rows contents ps) (hy : Wrote symbol y y' rows' contents' ps')
    (h : y.lane symbol = x.lane symbol) (hqueues : y'.queues symbol = x'.queues symbol)
    (horders : (y'.lane symbol).orders = (x'.lane symbol).orders)
    (hrows : rows'.map Trade.core = rows.map Trade.core)
    (hcontents : contents'.map contentCore = contents.map contentCore) :
    y'.lane symbol = x'.lane symbol := by
  have htrades : (y'.lane symbol).trades = (x'.lane symbol).trades := by
    rw [hy.trades_self, hx.trades_self, h, hrows]
  have hmessages : (y'.lane symbol).messages = (x'.lane symbol).messages := by
    rw [hy.messages_self, hx.messages_self, h, hcontents]
  have hmarket : y'.db.market? symbol = x'.db.market? symbol := by
    rw [hy.market?, hx.market?]
    exact congrArg Lane.market h
  unfold Matcher.lane at *
  simp only [Lane.mk.injEq]
  exact ⟨hmarket, hqueues, horders, htrades, hmessages⟩

end Wrote

/-! ## Rows of orders -/

section Rows

variable {market : Market} {taker : Order} {rates : FeeRates} {commandId : Uuid} {idx : ℕ}
  {ts : List EngineTrade} {rows rows' : List Trade} {symbol : String}

/-- The makers of the trades are orders of the market. -/
def MakersOf (symbol : String) (db : Db) (ts : List EngineTrade) : Prop :=
  ∀ t ∈ ts, ∃ o, db.order? t.makerOrderId = some o ∧ o.market = symbol

theorem MakersOf.head {db : Db} {t : EngineTrade} {maker : Order} (h : MakersOf symbol db (t :: ts))
    (hm : db.order? t.makerOrderId = some maker) : maker.market = symbol := by
  obtain ⟨o, ho, hmarket⟩ := h t (by simp)
  obtain rfl : maker = o := Option.some.inj (hm.symm.trans ho)
  exact hmarket

/-- A fill keeps the markets of the orders. -/
theorem MakersOf.filled {db db₁ : Db} {t : EngineTrade} {maker : Order}
    {row : Trade} {matchId : MatchId}
    (h : MakersOf symbol db (t :: ts))
    (hf : FillSettled market taker rates matchId t maker db row db₁) : MakersOf symbol db₁ ts := by
  intro t' ht'
  obtain ⟨o, ho, hmarket⟩ := h t' (by simp [ht'])
  rw [Db.order?_of_modify hf.orders (makerAfter_id _ _), ho]
  split
  · exact ⟨_, rfl, hmarket⟩
  · exact ⟨o, rfl, hmarket⟩

/-- Settled trades rewrite rows of their market only. -/
theorem Settler.Settles.others {db db' : Db}
    (h : Settles market taker rates commandId idx db ts rows db') (hm : MakersOf symbol db ts)
    {q : String → Bool} (hq : q symbol = false) :
    db'.orders.filter (q ·.market) = db.orders.filter (q ·.market) := by
  induction h with
  | nil => rfl
  | @cons idx db db₁ db' t ts row rows maker hf _ ih =>
    rw [ih (hm.filled hf), hf.orders]
    exact Table.filter_modify_of_not (fun _ => rfl) hf.hmaker
      (show q maker.market = false by rw [hm.head hf.hmaker, hq])

/-- The rows of a trade of one market say so. -/
theorem Settler.Settles.row_market {db db' : Db}
    (h : Settles market taker rates commandId idx db ts rows db') :
    ∀ row ∈ rows, row.market = market.symbol := by
  induction h with
  | nil => simp
  | cons maker hf _ ih =>
    refine List.forall_mem_cons.mpr ⟨?_, ih⟩
    rw [hf.hrow]

/-- **Trades with the same makers** make the same rows, up to ids, and leave the
same rows of orders. -/
theorem Settler.Settles.alike {x x' y y' : Db}
    (hx : Settles market taker rates commandId idx x ts rows x')
    (hy : Settles market taker rates commandId idx y ts rows' y') (hmx : MakersOf symbol x ts)
    (hmy : MakersOf symbol y ts)
    (h : y.orders.filter (·.market = symbol) = x.orders.filter (·.market = symbol)) :
    rows'.map Trade.core = rows.map Trade.core ∧
    y'.orders.filter (·.market = symbol) = x'.orders.filter (·.market = symbol) := by
  induction hx generalizing y rows' with
  | nil =>
    cases hy
    exact ⟨rfl, h⟩
  | @cons idx x x₁ x' t ts row rows maker hf hs ih =>
    cases hy with
    | @cons _ _ y₁ _ _ _ row' rows' maker' hf' hs' =>
    have hmaker := hmx.head hf.hmaker
    have hmaker' := hmy.head hf'.hmaker
    have hfind := Table.find?_filter hf.hmaker (p := (·.market = symbol)) (decide_eq_true hmaker)
    have hfind' := Table.find?_filter hf'.hmaker (p := (·.market = symbol)) (decide_eq_true hmaker')
    rw [h] at hfind'
    obtain rfl : maker' = maker := Option.some.inj (hfind'.symm.trans hfind)
    have horders : y₁.orders.filter (·.market = symbol) = x₁.orders.filter (·.market = symbol) := by
      rw [hf.orders, hf'.orders,
        Table.filter_modify (f := makerAfter maker' t.tradeQuantity) (fun _ => rfl) hf.hmaker
          (decide_eq_true hmaker),
        Table.filter_modify (f := makerAfter maker' t.tradeQuantity) (fun _ => rfl) hf'.hmaker
          (decide_eq_true hmaker'), h]
    obtain ⟨hrows, hend⟩ := ih hs' (hmx.filled hf) (hmy.filled hf') horders
    refine ⟨?_, hend⟩
    rw [List.map_cons, List.map_cons, hrows, hf.hrow, hf'.hrow]
    rfl

end Rows

/-! ## Messages -/

section Messages

variable {symbol : String} {rows rows' : List Trade}

theorem about_tradesContents (symbol : String) (ts : ℕ) (rows : List Trade) :
    ∀ c ∈ tradesContents symbol ts rows, c.2.2.market = symbol := by
  intro c hc
  obtain ⟨t, -, hc⟩ := List.mem_flatMap.mp hc
  cases hm : t.matchId with
  | none => simp [hm] at hc
  | some matchId =>
    simp only [hm, Option.map_some, Option.getD_some, tradeContents,
      List.mem_cons, List.not_mem_nil,
      or_false] at hc
    rcases hc with rfl | rfl | rfl <;> rfl

/-- What a `SUBMIT` publishes is about its market. -/
theorem about_submitContents {o : Order} (ho : o.market = symbol) (q : Queues)
    (v w : Uuid) (seq ts : ℕ) :
    ∀ c ∈ submitContents o rows symbol q v w seq ts, c.2.2.market = symbol := by
  refine List.forall_mem_cons.mpr ⟨ho, List.forall_mem_append.mpr ⟨about_tradesContents _ _ _, ?_⟩⟩
  exact List.forall_mem_singleton.mpr rfl

/-- What a `CANCEL` publishes is about the market of the order. -/
theorem about_cancelContents (o : Order) (q : Queues) (v v' w : Uuid) (seq ts : ℕ) :
    ∀ c ∈ cancelContents o q v v' w seq ts, c.2.2.market = o.market := by
  refine List.forall_mem_cons.mpr ⟨rfl, List.forall_mem_cons.mpr ⟨rfl, ?_⟩⟩
  exact List.forall_mem_singleton.mpr rfl

theorem core_tradesContents (symbol : String) (ts : ℕ) (rows : List Trade) :
    (tradesContents symbol ts rows).map contentCore = tradesContents symbol 0
    (rows.map Trade.core) := by
  unfold tradesContents
  rw [List.map_flatMap, List.flatMap_map]
  congr 1
  funext t
  rw [show t.core.matchId = t.matchId from rfl]
  cases t.matchId <;> rfl

/-- Up to ids, a `SUBMIT` publishes the row as it ends, its trades and the book. -/
theorem core_submitContents (h : rows'.map Trade.core = rows.map Trade.core)
    (o : Order) (symbol : String)
    (q : Queues) (v w v' w' : Uuid) (seq ts seq' ts' : ℕ) :
    (submitContents o rows' symbol q v' w' seq' ts').map contentCore =
      (submitContents o rows symbol q v w seq ts).map contentCore := by
  simp only [submitContents, List.map_cons, List.map_append, core_tradesContents, h]
  rfl

theorem core_cancelContents (o : Order) (q : Queues)
    (v₁ v₂ w v₁' v₂' w' : Uuid) (seq ts seq' ts' : ℕ) :
    (cancelContents o q v₁' v₂' w' seq' ts').map contentCore =
      (cancelContents o q v₁ v₂ w seq ts).map contentCore := rfl

end Messages

/-! ## Submits -/

/-- **What a committed `SUBMIT` of `order` writes.** -/
structure SubmitWrites (cmd : OrderSubmitCommand) (market : Market)
    (order : Order) (rows : List Trade)
    (m m' : Matcher E) : Prop where
  hmarket : m.db.market? cmd.symbol = some market
  horder : m.db.order? cmd.orderId = some order
  hsymbol : order.market = cmd.symbol
  makers : MakersOf cmd.symbol m.db ((submitFills m cmd.symbol order).map .ofFill)
  fixed : ∀ o : Order, o.Fixed (submitFinish m cmd.symbol order o)
  settled : ∃ db₁, Settles market order ⟨feeRate market.makerFeeBp, feeRate market.takerFeeBp⟩
      cmd.commandId 0 m.db ((submitFills m cmd.symbol order).map .ofFill) rows db₁ ∧
    db₁.order? order.id = some order ∧
    m'.db.orders = Table.modify order.id (submitFinish m cmd.symbol order) db₁.orders
  queues_eq : m'.queues cmd.symbol = submitBook m cmd.symbol order
  wrote : ∃ v w seq ts, Wrote cmd.symbol m m' rows
    (submitContents (submitFinish m cmd.symbol order order) rows cmd.symbol
      (submitBook m cmd.symbol order) v w seq ts) (submitPostings m cmd.symbol market order)

theorem submitPostings_eq (m : Matcher E) (symbol : String) (market : Market) (order : Order) :
    submitPostings m symbol market order =
      tradePostings m.db market order ⟨feeRate market.makerFeeBp, feeRate market.takerFeeBp⟩
        ((submitFills m symbol order).map .ofFill) ++ submitRelease m symbol market order := by
  unfold submitPostings submitRelease
  cases order.type <;> rfl

theorem submit_writes (hs : Safe m) {cmd : OrderSubmitCommand}
    (hcmd : OrderCommand.SUBMIT cmd ∈ m.db.commands)
    (hd : dispatch (.SUBMIT cmd) m = (.ok .ok, m')) :
    ∃ market order rows, SubmitWrites cmd market order rows m m' := by
  obtain ⟨market, order, rest, hbegun, hc, hsub⟩ :=
    submit_committed hs hcmd (dispatch_submit_of_sound hs.sound hd)
  rcases dispatch_submit_published hd with ⟨hne, -⟩ |
    ⟨-, order', persisted, rows, horder, hpersisted, htraded, v, w, ts, hadds⟩
  · exact absurd rfl hne
  obtain rfl : order' = order := Option.some.inj (horder.symm.trans hbegun.horder)
  obtain rfl : persisted = submitFinish m cmd.symbol order' order' :=
    Option.some.inj (hpersisted.symm.trans (hsub.order? hc).1)
  obtain ⟨rows', db₁, hset, horders, htrades, hposted⟩ := hsub.settled
  obtain rfl : rows' = rows := by
    have := htrades.symm.trans htraded.1
    rw [hset.trades] at this
    exact List.append_cancel_left this
  have hmakers : MakersOf cmd.symbol m.db ((submitFills m cmd.symbol order').map .ofFill) := by
    intro t ht
    obtain ⟨f, hf, rfl⟩ := List.mem_map.mp ht
    obtain ⟨maker, hmake⟩ := hs.backed.makes tracks_le hc.consumed hf
    exact ⟨maker, hmake.row, hmake.market⟩
  have htaker : db₁.order? order'.id = some order' := by
    rw [hset.order?_of_notMem (by rw [map_makerOrderId]; exact hc.notMem)]
    exact hc.horder
  have hsymbol : market.symbol = cmd.symbol := Table.key_of_find? hbegun.hmarket
  rw [hsub.queues_eq] at hadds
  refine ⟨market, order', rows', hbegun.hmarket, hbegun.horder, hc.market, hmakers, hc.fixed,
    ⟨db₁, hset, htaker, horders⟩, hsub.queues_eq, v, w, _, ts, hsub.framed, hsub.queues_ne,
    fun q hq => ?_, htraded.1, fun t ht => (hset.row_market t ht).trans hsymbol, hadds,
    about_submitContents ((hc.fixed order').market.trans hc.market) _ _ _ _ _, ?_⟩
  · rw [horders, Table.filter_modify_of_not (p := (q ·.market))
      (fun o => congrArg q (hc.fixed o).market) htaker (by rw [hc.market, hq])]
    exact hset.others hmakers hq
  · rw [submitPostings_eq]
    exact (hset.posted (by rw [map_makerOrderId]; exact hc.nodup)).trans hposted

/-- The postings of a submit depend on the lane of its market. -/
theorem submitPostings_of_lane {x y : Matcher E} {symbol : String} {order : Order}
    (h : y.lane symbol = x.lane symbol)
    (hx : MakersOf symbol x.db ((submitFills x symbol order).map .ofFill))
    (hy : MakersOf symbol y.db ((submitFills y symbol order).map .ofFill)) (market : Market) :
    submitPostings y symbol market order = submitPostings x symbol market order := by
  have hq : y.queues symbol = x.queues symbol := congrArg Lane.queues h
  have hfills : submitFills y symbol order = submitFills x symbol order := by
    simp only [submitFills, hq]
  rw [submitPostings_eq, submitPostings_eq, hfills, submitRelease, submitRelease, hq]
  rw [hfills] at hy
  congr 1
  refine tradePostings_congr market order _ fun t ht => ?_
  obtain ⟨o, ho, hm⟩ := hx t ht
  obtain ⟨o', ho', hm'⟩ := hy t ht
  rw [ho, ho', order?_eq_of_lane h ho hm ho' hm']

/-- The order of the command is the taker of its trades. -/
theorem SubmitWrites.taker {cmd : OrderSubmitCommand} {market : Market} {order : Order}
    {rows : List Trade} (h : SubmitWrites cmd market order rows m m') :
    ∀ t ∈ rows, t.takerOrderId = cmd.orderId := by
  obtain ⟨db₁, hset, -⟩ := h.settled
  intro t ht
  rw [(hset.matchId t ht).1, Db.order?_id h.horder]

/-- **Two commits of a `SUBMIT`**, from states that agree on its lane. -/
theorem SubmitWrites.alike {x x' y y' : Matcher E} {cmd : OrderSubmitCommand}
    {market market' : Market}
    {order order' : Order} {rows rows' : List Trade} (hx : SubmitWrites cmd market order rows x x')
    (hy : SubmitWrites cmd market' order' rows' y y') (h : y.lane cmd.symbol = x.lane cmd.symbol) :
    y'.lane cmd.symbol = x'.lane cmd.symbol ∧
    submitPostings y cmd.symbol market' order' = submitPostings x cmd.symbol market order := by
  have hm : y.db.market? cmd.symbol = x.db.market? cmd.symbol := congrArg Lane.market h
  obtain rfl : market' = market :=
    Option.some.inj (hy.hmarket.symm.trans (hm.trans hx.hmarket))
  obtain rfl : order' = order := order?_eq_of_lane h hx.horder hx.hsymbol hy.horder hy.hsymbol
  have hq : y.queues cmd.symbol = x.queues cmd.symbol := congrArg Lane.queues h
  have hfills : submitFills y cmd.symbol order' = submitFills x cmd.symbol order' := by
    simp only [submitFills, hq]
  have hfinish : submitFinish y cmd.symbol order' = submitFinish x cmd.symbol order' := by
    simp only [submitFinish, hq]
  have hbook : submitBook y cmd.symbol order' = submitBook x cmd.symbol order' := by
    simp only [submitBook, hq]
  refine ⟨?_, submitPostings_of_lane h hx.makers hy.makers market'⟩
  obtain ⟨dbx, hsetx, htakerx, hordersx⟩ := hx.settled
  obtain ⟨dby, hsety, htakery, hordersy⟩ := hy.settled
  have hmy := hy.makers
  rw [hfills] at hsety hmy
  obtain ⟨hrows, horders⟩ := hsetx.alike hsety hx.makers hmy (congrArg Lane.orders h)
  obtain ⟨v, w, seq, ts, hwx⟩ := hx.wrote
  obtain ⟨v', w', seq', ts', hwy⟩ := hy.wrote
  refine hwx.lane_self hwy h ?_ ?_ hrows ?_
  · rw [hy.queues_eq, hx.queues_eq, hbook]
  · -- the rows of the taker are rewritten alike
    have hp : decide (order'.market = cmd.symbol) = true := decide_eq_true hx.hsymbol
    have hkeep : ∀ o : Order, decide ((submitFinish x cmd.symbol order' o).market = cmd.symbol) =
        decide (o.market = cmd.symbol) := fun o => by rw [(hx.fixed o).market]
    simp only [Matcher.lane]
    rw [hordersy, hordersx, hfinish, Table.filter_modify hkeep htakery hp,
      Table.filter_modify hkeep htakerx hp, horders]
  · rw [hfinish, hbook]
    exact core_submitContents hrows _ _ _ _ _ _ _ _ _ _ _

/-! ## Cancels -/

/-- **What a committed `CANCEL` of `order` writes.** -/
structure CancelWrites (cmd : OrderCancelCommand) (market : Market)
    (order : Order) (m m' : Matcher E) :
    Prop where
  horder : m.db.order? cmd.orderId = some order
  hmarket : m.db.market? order.market = some market
  hsymbol : order.market = cmd.symbol
  orders : m'.db.orders = Table.modify order.id
    (fun o => { o with status := .CANCELLED }) m.db.orders
  queues_eq : m'.queues cmd.symbol = (m.queues cmd.symbol).cancel order.id
  wrote : ∃ v v' w seq ts, Wrote cmd.symbol m m' []
    (cancelContents { order with status := .CANCELLED }
    ((m.queues cmd.symbol).cancel order.id) v v' w seq ts) (releasePostings market order)

theorem cancel_writes (hs : Safe m) {cmd : OrderCancelCommand}
    (hcmd : OrderCommand.CANCEL cmd ∈ m.db.commands) {o : Order}
    (ho : m.db.order? cmd.orderId = some o)
    (hlive : o.terminal = false) (hd : dispatch (.CANCEL cmd) m = (.ok .ok, m')) :
    ∃ market order, CancelWrites cmd market order m m' := by
  obtain ⟨o', ho', hsymbol⟩ := hs.sound.commands _ hcmd
  obtain rfl : o' = o := Option.some.inj (ho'.symm.trans ho)
  have hout := dispatch_cancel hd
  generalize hr : (Except.ok Result.ok : Except Failure Result) = r at hout
  cases hout with
  | unread => cases hr
  | aborted => cases hr
  | skipped r hsame why =>
    rcases why with hnone | ⟨x, hx, hterm | hmarket⟩
    · exact absurd (hnone.symm.trans ho) (by simp)
    · obtain rfl : x = o' := Option.some.inj (hx.symm.trans ho)
      exact absurd (hterm.symm.trans hlive) (by decide)
    · obtain rfl : x = o' := Option.some.inj (hx.symm.trans ho)
      have hsome : (m.db.market? x.market).isSome := hs.sound.markets _ _ ho
      rw [hmarket] at hsome
      cases hsome
  | committed market order hord hm live hc =>
    obtain rfl : order = o' := Option.some.inj (hord.symm.trans ho)
    have hid : m.db.order? order.id = some order := by
      rw [Db.order?_id ho]
      exact ho
    have hrow : m'.db.order? order.id = some { order with status := .CANCELLED } := by
      rw [Db.order?_of_modify hc.orders (fun _ => rfl), if_pos rfl, hid]
      rfl
    rcases dispatch_cancel_published hd with hdb
      | ⟨-, order', persisted, ho'', hpersisted, v, v', w, ts,
      hadds⟩
    · -- the row has changed
      rw [hdb, hid] at hrow
      rw [Option.some.inj hrow] at live
      cases live
    obtain rfl : order' = order := Option.some.inj (ho''.symm.trans ho)
    obtain rfl : persisted = { order' with status := .CANCELLED } :=
      Option.some.inj (hpersisted.symm.trans hrow)
    have hqueues := hc.queues_eq
    rw [hsymbol] at hqueues
    rw [show m'.queues order'.market = _ from (congrArg m'.queues hsymbol).trans hqueues] at hadds
    refine ⟨market, order', hord, hm, hsymbol, hc.orders, hqueues, v, v', w, _, ts, hc.framed,
      hsymbol ▸ hc.queues_ne, fun q hq => ?_, by rw [hc.trades, List.append_nil], by simp, hadds,
      fun c hcont => (about_cancelContents _ _ _ _ _ _ _ c hcont).trans hsymbol, hc.posted⟩
    rw [hc.orders]
    exact Table.filter_modify_of_not (f := fun o : Order => { o with status := .CANCELLED })
      (p := (q ·.market)) (fun _ => rfl) hid (by rw [hsymbol, hq])

/-- **Two commits of a `CANCEL`**, from states that agree on its lane. -/
theorem CancelWrites.alike {x x' y y' : Matcher E} {cmd : OrderCancelCommand}
    {market market' : Market}
    {order order' : Order} (hx : CancelWrites cmd market order x x')
    (hy : CancelWrites cmd market' order' y y') (h : y.lane cmd.symbol = x.lane cmd.symbol) :
    y'.lane cmd.symbol = x'.lane cmd.symbol ∧
    releasePostings market' order' = releasePostings market order := by
  obtain rfl : order' = order := order?_eq_of_lane h hx.horder hx.hsymbol hy.horder hy.hsymbol
  have hm : y.db.market? cmd.symbol = x.db.market? cmd.symbol := congrArg Lane.market h
  rw [← hx.hsymbol] at hm
  obtain rfl : market' = market := Option.some.inj (hy.hmarket.symm.trans (hm.trans hx.hmarket))
  have hq : y.queues cmd.symbol = x.queues cmd.symbol := congrArg Lane.queues h
  obtain ⟨v, v', w, seq, ts, hwx⟩ := hx.wrote
  obtain ⟨u, u', z, seq', ts', hwy⟩ := hy.wrote
  refine ⟨hwx.lane_self hwy h ?_ ?_ rfl ?_, rfl⟩
  · rw [hy.queues_eq, hx.queues_eq, hq]
  · have hp : decide (order'.market = cmd.symbol) = true := decide_eq_true hx.hsymbol
    have hmodify : ∀ {m : Matcher E}, m.db.order? cmd.orderId = some order' →
        (Table.modify order'.id (fun o => { o with status := .CANCELLED }) m.db.orders).filter
            (·.market = cmd.symbol) =
          Table.modify order'.id (fun o => { o with status := .CANCELLED })
            (m.lane cmd.symbol).orders :=
      fun ho => Table.filter_modify (f := fun o : Order => { o with status := .CANCELLED })
        (fun _ => rfl) (Db.order?_id ho ▸ ho) hp
    rw [Matcher.lane, Matcher.lane, hy.orders, hx.orders, hmodify hy.horder, hmodify hx.horder, h]
  · rw [hq]
    exact core_cancelContents _ _ _ _ _ _ _ _ _ _ _ _

/-! ## Deliveries -/

section WithFaults

variable {f f' : Option ℕ}

/-- Which statement fails is nothing that a command writes. -/
theorem Wrote.withFaults {symbol : String} {rows : List Trade}
    {contents : List (Topic × String × Payload)} {ps : List Posting}
    (h : Wrote symbol (m.withFaults f) m' rows contents ps) :
    Wrote symbol m (m'.withFaults f') rows contents ps :=
  { h with framed := ⟨h.framed.order, h.framed.now, h.framed.users, h.framed.assets,
      h.framed.markets, h.framed.commands⟩ }

theorem SubmitWrites.withFaults {cmd : OrderSubmitCommand} {market : Market} {order : Order}
    {rows : List Trade} (h : SubmitWrites cmd market order rows (m.withFaults f) m') :
    SubmitWrites cmd market order rows m (m'.withFaults f') := by
  obtain ⟨v, w, seq, ts, hwrote⟩ := h.wrote
  exact { h with wrote := ⟨v, w, seq, ts, hwrote.withFaults⟩ }

theorem CancelWrites.withFaults {cmd : OrderCancelCommand} {market : Market} {order : Order}
    (h : CancelWrites cmd market order (m.withFaults f) m') :
    CancelWrites cmd market order m (m'.withFaults f') := by
  obtain ⟨v, v', w, seq, ts, hwrote⟩ := h.wrote
  exact { h with wrote := ⟨v, v', w, seq, ts, hwrote.withFaults⟩ }

end WithFaults

theorem Matcher.lane_congr {symbol : String} (hdb : m'.db = m.db)
    (hq : m'.queues symbol = m.queues symbol) : m'.lane symbol = m.lane symbol := by
  unfold Matcher.lane
  rw [hdb, hq]

theorem submit_lane_ne (hs : Safe m) {cmd : OrderSubmitCommand}
    (hcmd : OrderCommand.SUBMIT cmd ∈ m.db.commands) {r : Except Failure Result}
    (hd : dispatch (.SUBMIT cmd) m = (r, m')) {symbol : String} (hne : symbol ≠ cmd.symbol) :
    m'.lane symbol = m.lane symbol := by
  have hcommit : r = .ok .ok → m'.lane symbol = m.lane symbol := by
    rintro rfl
    obtain ⟨market, order, rows, hw⟩ := submit_writes hs hcmd hd
    obtain ⟨v, w, seq, ts, hwrote⟩ := hw.wrote
    exact hwrote.lane_ne hne
  cases dispatch_submit_of_sound hs.sound hd with
  | unread e n hn hf hsame => exact hsame.lane symbol
  | skipped hsame why => exact hsame.lane symbol
  | refused e market order hb ht why hsame => exact hsame.lane symbol
  | abortedLimit e market order price hb ht hp hid hdb hbook =>
    exact Matcher.lane_congr hdb (hbook.queues_ne symbol hne)
  | abortedMarket e market order hb ht hdb hswept =>
    exact Matcher.lane_congr hdb (hswept.queues_ne symbol hne)
  | committedLimit => exact hcommit rfl
  | committedMarket => exact hcommit rfl

theorem cancel_lane_ne (hs : Safe m) {cmd : OrderCancelCommand}
    (hcmd : OrderCommand.CANCEL cmd ∈ m.db.commands) {r : Except Failure Result}
    (hd : dispatch (.CANCEL cmd) m = (r, m')) {symbol : String} (hne : symbol ≠ cmd.symbol) :
    m'.lane symbol = m.lane symbol := by
  cases dispatch_cancel hd with
  | unread e n hn hf hsame => exact hsame.lane symbol
  | skipped r hsame why => exact hsame.lane symbol
  | aborted e market order hf ho hm live hdb hbook =>
    obtain ⟨o, ho', hsymbol⟩ := hs.sound.commands _ hcmd
    obtain rfl : o = order := Option.some.inj (ho'.symm.trans ho)
    exact Matcher.lane_congr hdb (hbook.queues_ne symbol (hsymbol ▸ hne))
  | committed market order ho hm live hc =>
    obtain ⟨_, _, hw⟩ := cancel_writes hs hcmd ho live hd
    obtain ⟨v, v', w, seq, ts, hwrote⟩ := hw.wrote
    exact hwrote.lane_ne hne

/-- **A delivery leaves the other lanes alone**, whether it commits or not. -/
theorem deliver_lane (hs : Safe m) (cmd : OrderCommand) (faults : Option ℕ) {symbol : String}
    (hne : symbol ≠ cmd.symbol) : (m.deliver cmd faults).lane symbol = m.lane symbol := by
  rcases deliver_eq m cmd faults with ⟨-, h⟩ | ⟨hcmd, r, m₁, hd, h⟩
  · rw [h]
  have hs₀ := hs.of_same (m.same_withFaults faults)
  rw [h, (m₁.same_withFaults none).lane, ← (m.same_withFaults faults).lane]
  cases cmd with
  | SUBMIT cmd => exact submit_lane_ne (m := m.withFaults faults) hs₀ hcmd hd hne
  | CANCEL cmd => exact cancel_lane_ne (m := m.withFaults faults) hs₀ hcmd hd hne

/-- A delivery that commits returns. -/
theorem Matcher.Commits.deliver_eq {cmd : OrderCommand} {faults : Option ℕ}
    (h : m.Commits cmd faults) :
    ∃ m₁, dispatch cmd (m.withFaults faults) = (.ok .ok, m₁) ∧
      m.deliver cmd faults = m₁.withFaults none := by
  rcases Orbit.deliver_eq m cmd faults with ⟨hnot, -⟩ | ⟨-, r, m₁, hd, heq⟩
  · exact absurd h.mem hnot
  · have hok := h.ok
    rw [hd] at hok
    exact ⟨m₁, hd.trans (Prod.ext hok rfl), heq⟩

/-- What a `SUBMIT` that commits writes. -/
theorem Matcher.Commits.submit {cmd : OrderSubmitCommand} {faults : Option ℕ} (hs : Safe m)
    (h : m.Commits (.SUBMIT cmd) faults) :
    ∃ market order rows, SubmitWrites cmd market order rows m (m.deliver (.SUBMIT cmd) faults) := by
  obtain ⟨m₁, hd, e⟩ := h.deliver_eq
  have hs₀ := hs.of_same (m.same_withFaults faults)
  obtain ⟨market, order, rows, hw⟩ := submit_writes (m := m.withFaults faults) hs₀ h.mem hd
  rw [e]
  exact ⟨market, order, rows, hw.withFaults⟩

/-- What a `CANCEL` that commits writes. -/
theorem Matcher.Commits.cancel {cmd : OrderCancelCommand} {faults : Option ℕ} (hs : Safe m)
    (h : m.Commits (.CANCEL cmd) faults) :
    ∃ market order, CancelWrites cmd market order m (m.deliver (.CANCEL cmd) faults) := by
  obtain ⟨m₁, hd, e⟩ := h.deliver_eq
  have hs₀ := hs.of_same (m.same_withFaults faults)
  obtain ⟨o, ho, hlive⟩ := h.live
  obtain ⟨market, order, hw⟩ := cancel_writes (m := m.withFaults faults) hs₀ h.mem ho hlive hd
  rw [e]
  exact ⟨market, order, hw.withFaults⟩

/-- **Two commits of a command**, from states that agree on its lane, leave the same lane and
make the same postings. -/
theorem Matcher.Commits.alike {x y : Matcher E} (hsx : Safe x) (hsy : Safe y) {cmd : OrderCommand}
    {faults faults' : Option ℕ} (hx : x.Commits cmd faults) (hy : y.Commits cmd faults')
    (h : y.lane cmd.symbol = x.lane cmd.symbol) :
    (y.deliver cmd faults').lane cmd.symbol = (x.deliver cmd faults).lane cmd.symbol ∧
    ∃ ps, Posted x.db (x.deliver cmd faults).db ps ∧ Posted y.db (y.deliver cmd faults').db ps := by
  cases cmd with
  | SUBMIT cmd =>
    obtain ⟨_, _, _, hwx⟩ := hx.submit hsx
    obtain ⟨_, _, _, hwy⟩ := hy.submit hsy
    obtain ⟨hlane, hps⟩ := hwx.alike hwy h
    obtain ⟨_, _, _, _, hwrotex⟩ := hwx.wrote
    obtain ⟨_, _, _, _, hwrotey⟩ := hwy.wrote
    have hposted := hwrotey.posted
    rw [hps] at hposted
    exact ⟨hlane, _, hwrotex.posted, hposted⟩
  | CANCEL cmd =>
    obtain ⟨_, _, hwx⟩ := hx.cancel hsx
    obtain ⟨_, _, hwy⟩ := hy.cancel hsy
    obtain ⟨hlane, hps⟩ := hwx.alike hwy h
    obtain ⟨_, _, _, _, _, hwrotex⟩ := hwx.wrote
    obtain ⟨_, _, _, _, _, hwrotey⟩ := hwy.wrote
    have hposted := hwrotey.posted
    rw [hps] at hposted
    exact ⟨hlane, _, hwrotex.posted, hposted⟩

/-- The command is delivered, at some time, and its transaction commits. -/
def Matcher.CommitsTo (m : Matcher E) (cmd : OrderCommand) (m' : Matcher E) : Prop :=
  ∃ now faults, (m.step (.tick now)).Commits cmd faults ∧
    m' = (m.step (.tick now)).deliver cmd faults

/-- **A command that commits acts on the lane of its market**, and on the
accounts by its postings. -/
theorem actsOn_commit (cmd : OrderCommand) :
    ActsOn (fun symbol (m : Matcher E) => m.lane symbol) (fun m => m.db.account)
      (Set.range Posting.post) cmd.symbol (fun m m' => Safe m ∧ m.CommitsTo cmd m') where
  frame := by
    rintro m m' ⟨hs, now, faults, -, rfl⟩ symbol hne
    exact deliver_lane (step_safe hs (.tick now)) cmd faults hne
  own := by
    rintro x x' y y' ⟨hsx, now, faults, hx, rfl⟩ ⟨hsy, now', faults', hy, rfl⟩ h
    exact (hx.alike (step_safe hsx (.tick now)) (step_safe hsy (.tick now')) hy h).1
  shared := by
    rintro x x' y y' ⟨hsx, now, faults, hx, rfl⟩ ⟨hsy, now', faults', hy, rfl⟩ h
    obtain ⟨-, ps, hpx, hpy⟩ :=
      hx.alike (step_safe hsx (.tick now)) (step_safe hsy (.tick now')) hy h
    exact ⟨_, ⟨ps, rfl⟩, hpx.account, hpy.account⟩

end Orbit
