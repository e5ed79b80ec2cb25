import Orbit.Matcher.Backing

/-!
# No order is filled over

The invariant `Safe` of every run: sound tables, and books backed by their rows. Each step of the
exchange keeps it, whatever fails on the way (`step_safe`), so it holds in every reachable state
(`run_safe`).

* Commands: `submit_tracked` and `cancel_tracked` for those that commit, `submit_safe` and
  `cancel_safe` for all.
* Calls of the api: `Placed.safe`, and the other effects, which touch neither orders nor books.
* Restarts: `restart_backed`, by induction on the replayed rows.
-/

namespace Orbit

open PriceTime Settler Consumer

variable {E : Engine} {m m' : Matcher E} {ρ : ℚ → ℚ → Prop}

/-- Sound tables, and no order rests with more than its row has left. -/
structure Safe (m : Matcher E) : Prop where
  sound : m.store.Sound
  backed : Backed (· ≤ ·) m

/-! ## Commands that commit -/

/-- What rests on the side of an order after it was added. -/
theorem mem_queue_add {b : Queues} {id : ℕ} {side : Side} {price qty : ℚ} {r : Resting ℕ ℚ ℚ}
    (hr : r ∈ (b.add id side price qty).book.queue side) :
    r ∈ b.queue side ∨ (r = ⟨id, price, (b.add id side price qty).leave⟩ ∧
      0 < (b.add id side price qty).leave) := by
  rw [Book.queue_add] at hr
  split at hr
  · rename_i hpos
    rcases mem_enqueue.mp hr with rfl | hr
    · exact Or.inr ⟨rfl, hpos⟩
    · exact Or.inl hr
  · exact Or.inl hr

/-- **A submit that commits** keeps sound tables and tracked books. -/
theorem submit_tracked (hρ : Tracks ρ) {cmd : OrderSubmitCommand} {r : Result}
    (hcmd : OrderCommand.SUBMIT cmd ∈ m.db.commands) (hs : m.store.Sound) (hb : Backed ρ m)
    (h : SubmitOutcome cmd m (.ok r) m') : m'.store.Sound ∧ Backed ρ m' := by
  cases h with
  | skipped hsame why =>
    exact ⟨hs.congr hsame.framed hsame.db, hb.of_same hsame⟩
  | committedLimit market order price hbegun ht hp hid hsub =>
    have hc := crossing_limit price hs hcmd hbegun ht hid
    refine ⟨hsub.sound hc hs hρ hb, hsub.backed hc hρ hb (Book.queue_opp_add _ _ _ _ _) ?_⟩
    intro x hx
    rcases mem_queue_add hx with hx | ⟨rfl, hpos⟩
    · exact Or.inl hx
    · exact Or.inr ⟨rfl, ht, hp, orderAfterMatch_active hpos _ _, hρ.refl _⟩
  | committedMarket market order l hbegun ht hl hsub =>
    have hc := crossing_market hs hb hcmd hbegun ht hl
    refine ⟨hsub.sound hc hs hρ hb, hsub.backed hc hρ hb (Book.queue_set_self _ _ _) ?_⟩
    intro x hx
    rw [Book.queue_set_opp'] at hx
    exact Or.inl hx

/-- A cancelled row stays sound. -/
theorem cancelled_sound {o : Order} (h : o.Sound) :
    ({ o with status := .CANCELLED } : Order).Sound :=
  ⟨h.quantity, h.sum, h.filled, h.leave, h.limit, h.market,
    fun hl => by simp [Order.terminal] at hl,
    fun _ ha => by simp [Order.active] at ha⟩

/-- **A cancel that commits** keeps sound tables and tracked books. -/
theorem cancel_tracked {cmd : OrderCancelCommand} {r : Result} (hs : m.store.Sound)
    (hb : Backed ρ m) (h : CancelOutcome cmd m (.ok r) m') : m'.store.Sound ∧ Backed ρ m' := by
  cases h with
  | skipped r hsame why => exact ⟨hs.congr hsame.framed hsame.db, hb.of_same hsame⟩
  | committed market order ho hm live hc =>
    have hid : m.db.order? order.id = some order := by
      rw [Db.order?_id ho]
      exact ho
    have hfix : ∀ o : Order, o.Fixed { o with status := .CANCELLED } :=
      fun o => ⟨rfl, rfl, rfl, rfl, rfl, rfl, rfl, rfl⟩
    refine ⟨hs.modify hc.framed hfix hc.orders fun o ho => cancelled_sound (hs.rows _ _ ho), ?_⟩
    -- the rows of the other orders, which are the only ones that rest, are as before
    have hkeep : ∀ id, id ≠ order.id → m'.db.order? id = m.db.order? id := fun id hne => by
      rw [Db.order?_of_modify hc.orders (fun o => (hfix o).id), if_neg hne]
    have hrest : ∀ symbol side, ∀ x ∈ (m'.queues symbol).queue side,
        x ∈ (m.queues symbol).queue side ∧ x.id ≠ order.id := by
      intro symbol side x hx
      by_cases hsym : symbol = order.market
      · subst hsym
        rw [hc.queues_eq, Book.queue_cancel, List.mem_filter] at hx
        exact ⟨hx.1, by simpa using hx.2⟩
      · rw [hc.queues_ne symbol hsym] at hx
        refine ⟨hx, fun e => ?_⟩
        obtain ⟨o, hback⟩ := hb _ _ x hx
        obtain rfl : order = o := Option.some.inj (hid.symm.trans (e ▸ hback.row))
        exact hsym hback.market.symm
    intro symbol side x hx
    obtain ⟨hx, hne⟩ := hrest symbol side x hx
    obtain ⟨o, hback⟩ := hb _ _ x hx
    exact ⟨o, (hkeep _ hne).trans hback.row, hback.type, hback.market, hback.side, hback.price,
      hback.active, hback.qty⟩

/-! ## Commands that fail -/

/-- Taking away from the books keeps them backed. -/
theorem Backed.of_le (hb : Backed (· ≤ ·) m) (hdb : m'.db = m.db)
    (h : ∀ symbol side, ∀ r ∈ (m'.queues symbol).queue side,
      (∃ r₀ ∈ (m.queues symbol).queue side, r₀.id = r.id ∧ r₀.price = r.price ∧ r.qty ≤ r₀.qty) ∨
      ∃ o, Backs (· ≤ ·) m.db symbol side r o) : Backed (· ≤ ·) m' := by
  intro symbol side r hr
  rw [hdb]
  rcases h symbol side r hr with ⟨r₀, hr₀, hid, hprice, hle⟩ | ho
  · obtain ⟨o, ho⟩ := hb symbol side r₀ hr₀
    exact ⟨o, hid ▸ ho.row, ho.type, ho.market, ho.side, hprice ▸ ho.price, ho.active,
      hle.trans ho.qty⟩
  · exact ho

/-- An order of a queue that was taken away from. -/
theorem exists_le_of_shrunk {new old : List (Resting ℕ ℚ ℚ)} (h : Shrunk new old)
    {r : Resting ℕ ℚ ℚ} (hr : r ∈ new) :
    ∃ r₀ ∈ old, r₀.id = r.id ∧ r₀.price = r.price ∧ r.qty ≤ r₀.qty := by
  obtain ⟨r₀, hr₀, hid, hp, -, hle⟩ := h.exists_of_mem hr
  exact ⟨r₀, hr₀, hid, hp, hle⟩

/-- **A submit keeps the exchange safe**, whatever happens. -/
theorem submit_safe {cmd : OrderSubmitCommand} {r : Except Failure Result}
    (hcmd : OrderCommand.SUBMIT cmd ∈ m.db.commands) (hs : Safe m) (h : SubmitOutcome cmd m r m') :
    Safe m' := by
  have hself : ∀ {symbol side} {x : Resting ℕ ℚ ℚ}, x ∈ (m.queues symbol).queue side →
      ∃ r₀ ∈ (m.queues symbol).queue side, r₀.id = x.id ∧ r₀.price = x.price ∧ x.qty ≤ r₀.qty :=
    fun hx => ⟨_, hx, rfl, rfl, le_rfl⟩
  cases r with
  | ok r =>
    obtain ⟨h₁, h₂⟩ := submit_tracked tracks_le hcmd hs.sound hs.backed h
    exact ⟨h₁, h₂⟩
  | error e =>
    cases h with
    | unread e n hn hf hsame =>
      exact ⟨hs.sound.congr hsame.framed hsame.db,
        hs.backed.of_same hsame⟩
    | refused e market order hb ht why hsame =>
      exact ⟨hs.sound.congr hsame.framed hsame.db, hs.backed.of_same hsame⟩
    | abortedLimit e market order price hb ht hp hid hdb hbook =>
      refine ⟨hs.sound.congr hbook.framed hdb, hs.backed.of_le hdb fun symbol side x hx => ?_⟩
      by_cases hsym : symbol = cmd.symbol
      · subst hsym
        rw [hbook.queues_eq] at hx
        rcases (sideToEngine order.side).eq_or_eq_opp side with rfl | rfl
        · rcases mem_queue_add hx with hx | ⟨rfl, hpos⟩
          · exact Or.inl (hself hx)
          · -- what is left of the order rests, and its row still has all of it
            have hlive := (hs.sound.rows _ _ hb.horder).live hb.live
            exact Or.inr ⟨order, hb.order?_id, ht, hb.market_eq hs.sound hcmd, rfl, hp, hlive.1,
              fill_leave_le _ ((m.queues_wf _).pos _) hlive.2.le⟩
        · rw [Book.queue_opp_add] at hx
          exact Or.inl (exists_le_of_shrunk
            ((fill_consumed _ _ _).shrunk ((m.queues_wf _).pos _)) hx)
      · rw [hbook.queues_ne symbol hsym] at hx
        exact Or.inl (hself hx)
    | abortedMarket e market order hb ht hdb hswept =>
      refine ⟨hs.sound.congr hswept.framed hdb, hs.backed.of_le hdb fun symbol side x hx => ?_⟩
      by_cases hsym : symbol = cmd.symbol
      · subst hsym
        obtain ⟨l, hl, e⟩ := hswept.queues_eq
        rw [e] at hx
        rcases (sideToEngine order.side).eq_or_eq_opp side with rfl | rfl
        · rw [Book.queue_set_opp'] at hx
          exact Or.inl (hself hx)
        · rw [Book.queue_set_self] at hx
          exact Or.inl (exists_le_of_shrunk hl hx)
      · rw [hswept.queues_ne symbol hsym] at hx
        exact Or.inl (hself hx)

/-- **A cancel keeps the exchange safe**, whatever happens. -/
theorem cancel_safe {cmd : OrderCancelCommand} {r : Except Failure Result} (hs : Safe m)
    (h : CancelOutcome cmd m r m') : Safe m' := by
  cases r with
  | ok r =>
    obtain ⟨h₁, h₂⟩ := cancel_tracked hs.sound hs.backed h
    exact ⟨h₁, h₂⟩
  | error e =>
    cases h with
    | unread e n hn hf hsame =>
      exact ⟨hs.sound.congr hsame.framed hsame.db,
        hs.backed.of_same hsame⟩
    | aborted e market order hf ho hm live hdb hbook =>
      refine ⟨hs.sound.congr hbook.framed hdb, hs.backed.of_le hdb fun symbol side x hx => ?_⟩
      refine Or.inl ⟨x, ?_, rfl, rfl, le_rfl⟩
      by_cases hsym : symbol = order.market
      · subst hsym
        rw [hbook.queues_eq, Book.queue_cancel, List.mem_filter] at hx
        exact hx.1
      · rwa [hbook.queues_ne symbol hsym] at hx

/-! ## Calls of the api -/

/-- Changes to the other tables keep the orders sound. -/
theorem Store.Sound.tables {s s' : Store} (h : s.Sound) (hseq : s.seqs.order ≤ s'.seqs.order)
    (ho : s'.db.orders = s.db.orders)
    (hm : ∀ symbol, (s.db.market? symbol).isSome → (s'.db.market? symbol).isSome)
    (hc : ∀ cmd ∈ s'.db.commands, cmd ∈ s.db.commands ∨ s.db.Carries cmd) : s'.Sound where
  rows id o hid := h.rows id o (by rwa [Db.order?_congr ho] at hid)
  keys := by
    rw [ho]
    exact h.keys
  ids o hmem := (h.ids o (ho ▸ hmem)).trans hseq
  markets id o hid := hm _ (h.markets id o (by rwa [Db.order?_congr ho] at hid))
  commands cmd hcmd := by
    have hcarries : s.db.Carries cmd := (hc cmd hcmd).elim (h.commands cmd) id
    cases cmd <;> simpa only [Db.Carries, Db.order?_congr ho] using hcarries

theorem Requested.sound {s s' : Store} {cmd : OrderCancelCommand} {o : Order}
    (h : Requested s s' cmd o) (hs : s.Sound) (hseq : s.seqs.order ≤ s'.seqs.order) : s'.Sound := by
  obtain ⟨row, htopic, hpayload, hdb⟩ := h.outbox
  refine hs.tables hseq (by rw [hdb]) (fun symbol hm => by rw [hdb]; exact hm) fun c hc => ?_
  rw [hdb, Db.commands, List.filterMap_append, List.mem_append] at hc
  rcases hc with hc | hc
  · exact Or.inl hc
  · obtain rfl : c = .CANCEL cmd := by simpa [htopic, hpayload] using hc
    exact Or.inr ⟨o, h.horder, h.symbol.symm⟩

/-- The id of a new order has no row yet. -/
theorem Placed.order?_none {s s' : Store} {o : Order} {market : Market} {cmd : OrderSubmitCommand}
    (h : Placed s s' o market cmd) (hs : s.Sound) : s.db.order? o.id = none := by
  refine Table.find?_eq_none.mpr fun x hx e => ?_
  have h₁ := hs.ids x hx
  have h₂ := h.id
  have h₃ : x.id = o.id := e
  omega

/-- The rows after an order was placed. -/
theorem Placed.order? {s s' : Store} {o : Order} {market : Market} {cmd : OrderSubmitCommand}
    (h : Placed s s' o market cmd) (hs : s.Sound) (id : ℕ) :
    s'.db.order? id = if id = o.id then some o else s.db.order? id := by
  have hnone := h.order?_none hs
  unfold Db.order? at hnone ⊢
  rw [h.orders, Table.find?_append, Table.find?_cons, Table.find?_nil]
  by_cases e : id = o.id
  · subst e
    have hk : Table.key o = o.id := rfl
    rw [hnone, if_pos rfl, if_pos hk, Option.none_or]
  · rw [if_neg e, if_neg fun h' => e h'.symm, Option.or_none]

theorem Placed.row_sound {s s' : Store} {o : Order} {market : Market} {cmd : OrderSubmitCommand}
    (h : Placed s s' o market cmd) : o.Sound where
  quantity := h.quantity
  sum := by rw [h.leaveQty, h.filledQty, zero_add]
  filled := h.filledQty.ge
  leave := by
    rw [h.leaveQty]
    exact h.quantity.le
  limit := h.limit
  market := h.marketPrice
  live _ := ⟨by simp [Order.active, h.status], by rw [h.leaveQty]; exact h.quantity⟩
  whole _ _ := h.leaveQty

/-- Placing an order keeps the rows that there are. -/
theorem Placed.order?_of_some {s s' : Store} {o : Order} {market : Market}
    {cmd : OrderSubmitCommand} (h : Placed s s' o market cmd) {id : ℕ} {x : Order}
    (hx : s.db.order? id = some x) : s'.db.order? id = some x := by
  unfold Db.order? at hx ⊢
  rw [h.orders]
  exact Table.find?_append_of_some _ hx

theorem Placed.sound {s s' : Store} {o : Order} {market : Market} {cmd : OrderSubmitCommand}
    (h : Placed s s' o market cmd) (hs : s.Sound) : s'.Sound where
  rows id x hx := by
    rw [h.order? hs] at hx
    split at hx
    · obtain rfl := Option.some.inj hx
      exact h.row_sound
    · exact hs.rows id x hx
  keys := by
    rw [h.orders]
    refine hs.keys.append fun x hx => ?_
    change x.id < o.id
    rw [h.id]
    exact Nat.lt_succ_of_le (hs.ids x hx)
  ids x hx := by
    rw [h.orders, List.mem_append, List.mem_singleton] at hx
    rw [h.seq]
    rcases hx with hx | rfl
    · exact (hs.ids x hx).trans (Nat.le_succ _)
    · exact h.id.le
  markets id x hx := by
    rw [Db.market?, h.markets]
    rw [h.order? hs] at hx
    split at hx
    · obtain rfl := Option.some.inj hx
      exact Option.isSome_iff_exists.mpr ⟨market, h.hmarket⟩
    · exact hs.markets id x hx
  commands c hc := by
    rw [h.commands, List.mem_append, List.mem_singleton] at hc
    rcases hc with hc | rfl
    · have hold := hs.commands c hc
      cases c with
      | SUBMIT c =>
        obtain ⟨x, hx, hrest⟩ := hold
        exact ⟨x, h.order?_of_some hx, hrest⟩
      | CANCEL c =>
        obtain ⟨x, hx, hrest⟩ := hold
        exact ⟨x, h.order?_of_some hx, hrest⟩
    · exact ⟨o, by rw [h.order? hs, if_pos h.orderId], h.symbol.symm, h.commandId⟩

theorem market?_isSome_modify {db db' : Db} {symbol : String} {input : MarketUpdateInput}
    (h : db'.markets = Table.modify symbol (Admin.applyMarketUpdate input) db.markets) {k : String}
    (hk : (db.market? k).isSome) : (db'.market? k).isSome := by
  unfold Db.market? at hk ⊢
  rw [h, Table.find?_modify (f := Admin.applyMarketUpdate input) (fun _ => rfl)]
  split
  · simpa using hk
  · exact hk

/-- Books that stay, over rows that stay. -/
theorem Backed.of_rows (hb : Backed ρ m) (hbooks : m'.books = m.books)
    (h : ∀ id o, m.db.order? id = some o → m'.db.order? id = some o) : Backed ρ m' := by
  intro symbol side r hr
  rw [Matcher.queues_congr hbooks] at hr
  obtain ⟨o, ho⟩ := hb symbol side r hr
  exact ⟨o, h _ _ ho.row, ho.type, ho.market, ho.side, ho.price, ho.active, ho.qty⟩

/-! ## Restarts -/

namespace MatchingEngine

/-- The queues of a set of books. -/
def queues (books : String → Option E.Book) (symbol : String) : Queues :=
  E.resting ((books symbol).getD E.new)

theorem queues_enabledBooks (db : Db) (symbol : String) :
    queues (enabledBooks db : String → Option E.Book) symbol = .empty := by
  unfold queues enabledBooks
  split <;> exact E.resting_new

/-- One replayed row: the book refuses it, or it is added with what it has left. -/
theorem replayOrder_cases (books : String → Option E.Book) {o : Order} {price : ℚ}
    (hp : o.price = some price) (h0 : 0 < o.leaveQty) :
    (o.id ∈ (queues books o.market).ids ∧ ∀ s, queues (replayOrder books o) s = queues books s) ∨
    (o.id ∉ (queues books o.market).ids ∧
      queues (replayOrder books o) o.market =
        ((queues books o.market).add o.id (sideToEngine o.side) price o.leaveQty).book ∧
      ∀ s, s ≠ o.market → queues (replayOrder books o) s = queues books s) := by
  by_cases hid : o.id ∈ (queues books o.market).ids
  · refine Or.inl ⟨hid, fun s => ?_⟩
    obtain ⟨msg, hadd⟩ := E.add_resting _ o.id (sideToEngine o.side) price o.leaveQty hid
    simp only [replayOrder, hp, hadd]
    by_cases hs : s = o.market
    · subst hs
      simp [queues]
    · simp [queues, hs]
  · obtain ⟨b, hadd, hb⟩ := E.add_new _ o.id (sideToEngine o.side) price o.leaveQty hid h0
    refine Or.inr ⟨hid, ?_, fun s hs => ?_⟩
    · simp only [replayOrder, hp, hadd]
      simp only [queues, Function.update_self, Option.getD_some, hb]
    · simp only [replayOrder, hp, hadd]
      simp [queues, hs]

/-- What rests in the books is the work of live rows of the table. -/
def ReplayBacked (db : Db) (books : String → Option E.Book) : Prop :=
  ∀ symbol side, ∀ r ∈ (queues books symbol).queue side, ∃ o, Backs (· ≤ ·) db symbol side r o

theorem replayOrder_backed {db : Db} {books : String → Option E.Book} (h : ReplayBacked db books)
    {o : Order} {price : ℚ} (ho : db.order? o.id = some o) (ha : o.active = true)
    (ht : o.type = .LIMIT) (hp : o.price = some price) (h0 : 0 < o.leaveQty) :
    ReplayBacked db (replayOrder books o) := by
  have hwf : (queues books o.market).WF := E.resting_wf _
  rcases replayOrder_cases books hp h0 with ⟨-, hsame⟩ | ⟨-, heq, hne⟩
  · intro symbol side r hr
    rw [hsame] at hr
    exact h symbol side r hr
  · intro symbol side r hr
    by_cases hsym : symbol = o.market
    · subst hsym
      rw [heq] at hr
      rcases (sideToEngine o.side).eq_or_eq_opp side with rfl | rfl
      · rcases mem_queue_add hr with hr | ⟨rfl, hpos⟩
        · exact h _ _ r hr
        · exact ⟨o, ho, ht, rfl, rfl, hp, ha, fill_leave_le _ (hwf.pos _) h0.le⟩
      · rw [Book.queue_opp_add] at hr
        obtain ⟨r₀, hr₀, hid, hprice, hle⟩ :=
          exists_le_of_shrunk ((fill_consumed _ _ _).shrunk (hwf.pos _)) hr
        obtain ⟨o₀, ho₀⟩ := h _ _ r₀ hr₀
        exact ⟨o₀, hid ▸ ho₀.row, ho₀.type, ho₀.market, ho₀.side, hprice ▸ ho₀.price, ho₀.active,
          hle.trans ho₀.qty⟩
    · rw [hne symbol hsym] at hr
      exact h symbol side r hr

theorem mem_openOrders {db : Db} {o : Order} :
    o ∈ openOrders db ↔ o ∈ db.orders ∧ o.active = true ∧ o.type = .LIMIT := by
  simp [openOrders]

/-- **A restart leaves the books backed.** -/
theorem restart_backed (hs : m.store.Sound) : Backed (· ≤ ·) (restart m) := by
  have hfold : ∀ (os : List Order) (books : String → Option E.Book),
      (∀ o ∈ os, o ∈ openOrders m.db) → ReplayBacked m.db books →
      ReplayBacked m.db (os.foldl replayOrder books) := by
    intro os
    induction os with
    | nil => exact fun _ _ h => h
    | cons o os ih =>
      intro books hos h
      obtain ⟨hmem, ha, ht⟩ := mem_openOrders.mp (hos o (by simp))
      have hrow := hs.order?_of_mem hmem
      have hsound := hs.rows _ _ hrow
      obtain ⟨price, hp, -⟩ := hsound.limit ht
      exact ih _ (fun x hx => hos x (by simp [hx]))
        (replayOrder_backed h hrow ha ht hp (hsound.live (Order.terminal_eq_false ha)).2)
  refine hfold _ _ (fun _ h => h) fun symbol side r hr => ?_
  rw [queues_enabledBooks, Book.queue_empty] at hr
  simp at hr

end MatchingEngine

/-! ## Runs -/

theorem Safe.of_same (hs : Safe m) (h : m.Same m') : Safe m' :=
  ⟨hs.sound.congr h.framed h.db, hs.backed.of_same h⟩

/-- What a delivery does: it dispatches the command, or nothing. -/
theorem deliver_eq (m : Matcher E) (cmd : OrderCommand) (faults : Option ℕ) :
    (cmd ∉ m.db.commands ∧ m.deliver cmd faults = m) ∨
    (cmd ∈ m.db.commands ∧ ∃ r m₁, dispatch cmd (m.withFaults faults) = (r, m₁) ∧
      m.deliver cmd faults = m₁.withFaults none) := by
  by_cases h : cmd ∈ m.db.commands
  · refine Or.inr ⟨h, ?_⟩
    rcases hd : dispatch cmd (m.withFaults faults) with ⟨r, m₁⟩
    refine ⟨r, m₁, rfl, ?_⟩
    rw [Matcher.deliver, if_pos h, handleMessage, hd]
    cases r <;> rfl
  · exact Or.inl ⟨h, by rw [Matcher.deliver, if_neg h]⟩

/-- What handling a command can do, from a state with sound tables. -/
theorem dispatch_submit_of_sound (hs : m.store.Sound) {cmd : OrderSubmitCommand}
    {r : Except Failure Result} (h : dispatch (.SUBMIT cmd) m = (r, m')) :
    SubmitOutcome cmd m r m' :=
  dispatch_submit (fun _ ho hlive =>
    ⟨(hs.rows _ _ ho).quantity, ((hs.rows _ _ ho).live hlive).2⟩) h

theorem deliver_safe (hs : Safe m) (cmd : OrderCommand) (faults : Option ℕ) :
    Safe (m.deliver cmd faults) := by
  rcases deliver_eq m cmd faults with ⟨-, h⟩ | ⟨hcmd, r, m₁, hd, h⟩
  · rw [h]
    exact hs
  · rw [h]
    have hs₀ := hs.of_same (m.same_withFaults faults)
    refine Safe.of_same ?_ (m₁.same_withFaults none)
    cases cmd with
    | SUBMIT cmd =>
      exact submit_safe (m := m.withFaults faults) hcmd hs₀
        (dispatch_submit_of_sound hs₀.sound hd)
    | CANCEL cmd => exact cancel_safe hs₀ (dispatch_cancel hd)

/-- **What a step outside the matcher can do to the store**, with the fields of wallets that it may
adjust. -/
inductive ApiEffect (A : WalletField → Prop) (s : Store) : Store → Prop
  | idle {s'} (hseq : s.seqs.order ≤ s'.seqs.order) (hdb : s'.db = s.db) : ApiEffect A s s'
  | placed {s'} (o : Order) (market : Market) (cmd : OrderSubmitCommand)
      (h : Placed s s' o market cmd) : ApiEffect A s s'
  | requested {s'} (cmd : OrderCancelCommand) (o : Order) (hseq : s.seqs.order ≤ s'.seqs.order)
      (h : Requested s s' cmd o) : ApiEffect A s s'
  | marketChanged {s'} (symbol : String) (input : MarketUpdateInput)
      (hseq : s.seqs.order ≤ s'.seqs.order) (hdb : s'.db = { s.db with
        markets := Table.modify symbol (Admin.applyMarketUpdate input) s.db.markets }) :
      ApiEffect A s s'
  | adjusted {s'} (userId asset : String) (field : WalletField) (w : Wallet) (value : ℚ)
      (hfield : A field) (hseq : s.seqs.order ≤ s'.seqs.order)
      (hw : s.db.wallet? userId asset = some w)
      (hn : (Admin.setField field value w).NonNegative) (hdb : s'.db = { s.db with
        wallets := Table.modify (userId, asset) (Admin.setField field value) s.db.wallets }) :
      ApiEffect A s s'

/-- The step adjusts no field of a wallet but those in `A`. -/
def Step.Adjusts (A : WalletField → Prop) : Step → Prop
  | .adjust _ _ field _ _ => A field
  | _ => True

theorem ApiEffect.faults {A : WalletField → Prop} {s s' : Store} {f f' : Option ℕ}
    (h : ApiEffect A { s with faults := f } s') : ApiEffect A s { s' with faults := f' } := by
  cases h with
  | idle hseq hdb => exact .idle hseq hdb
  | placed o market cmd h => exact .placed o market cmd { h with }
  | requested cmd o hseq h => exact .requested cmd o hseq { h with }
  | marketChanged symbol input hseq hdb => exact .marketChanged symbol input hseq hdb
  | adjusted userId asset field w value hfield hseq hw hn hdb =>
    exact .adjusted userId asset field w value hfield hseq hw hn hdb

open Stm in
/-- **Every step but deliveries and restarts** has an effect on the store only. -/
theorem step_effect (m : Matcher E) {A : WalletField → Prop} {l : Step} (hA : l.Adjusts A)
    (hd : ∀ cmd faults, l ≠ .deliver cmd faults) (hr : l ≠ .restart) :
    ApiEffect A m.store (m.step l).store ∧ (m.step l).books = m.books := by
  cases l with
  | submit userId dto faults =>
    refine ⟨ApiEffect.faults (f := faults) ?_, rfl⟩
    rcases h : OrderService.submit userId dto { m.store with faults } with ⟨r, s'⟩
    rcases OrderService.submit_cases h with hdb | ⟨o, market, cmd, -, hp⟩
    · exact .idle ((OrderService.draws_submit userId dto).of_eq h) hdb
    · exact .placed o market cmd hp
  | cancel userId orderId faults =>
    refine ⟨ApiEffect.faults (f := faults) ?_, rfl⟩
    rcases h : OrderService.cancel userId orderId { m.store with faults } with ⟨r, s'⟩
    have hseq := (OrderService.draws_cancel userId orderId).of_eq h
    rcases OrderService.cancel_cases h with hdb | ⟨cmd, o, hreq⟩
    · exact .idle hseq hdb
    · exact .requested cmd o hseq hreq
  | forceCancel orderId faults =>
    refine ⟨ApiEffect.faults (f := faults) ?_, rfl⟩
    rcases h : Admin.forceCancel orderId { m.store with faults } with ⟨r, s'⟩
    have hseq := (Admin.draws_forceCancel orderId).of_eq h
    rcases Admin.forceCancel_cases h with hdb | ⟨cmd, o, hreq⟩
    · exact .idle hseq hdb
    · exact .requested cmd o hseq hreq
  | deliver cmd faults => exact absurd rfl (hd cmd faults)
  | restart => exact absurd rfl hr
  | marketUpdate symbol input faults =>
    refine ⟨ApiEffect.faults (f := faults) ?_, rfl⟩
    rcases h : Admin.marketUpdate symbol input { m.store with faults } with ⟨r, s'⟩
    have hseq := (Admin.draws_marketUpdate symbol input).of_eq h
    rcases Admin.marketUpdate_cases h with hdb | hdb
    · exact .idle hseq hdb
    · exact .marketChanged symbol input hseq hdb
  | adjust userId asset field delta faults =>
    refine ⟨ApiEffect.faults (f := faults) ?_, rfl⟩
    rcases h : Admin.adjust userId asset field delta { m.store with faults } with ⟨r, s'⟩
    have hseq := (Admin.draws_adjust userId asset field delta).of_eq h
    rcases Admin.adjust_cases h with hdb | ⟨w, value, hw, hn, hdb⟩
    · exact .idle hseq hdb
    · exact .adjusted userId asset field w value hA hseq hw hn hdb
  | tick now => exact ⟨.idle le_rfl rfl, rfl⟩

/-- A call of the api keeps the tables sound and the rows that there are. -/
theorem ApiEffect.sound {A : WalletField → Prop} {s s' : Store} (h : ApiEffect A s s')
    (hs : s.Sound) : s'.Sound ∧ ∀ id o, s.db.order? id = some o → s'.db.order? id = some o := by
  cases h with
  | idle hseq hdb =>
    exact ⟨hs.tables hseq (by rw [hdb]) (fun _ hm => by rwa [hdb])
      (fun c hc => Or.inl (hdb ▸ hc)), fun id o ho => by rwa [hdb]⟩
  | placed o market cmd h => exact ⟨h.sound hs, fun _ _ => h.order?_of_some⟩
  | requested cmd o hseq h =>
    refine ⟨h.sound hs hseq, fun id x hx => ?_⟩
    obtain ⟨row, -, -, hdb⟩ := h.outbox
    rwa [hdb]
  | marketChanged symbol input hseq hdb =>
    exact ⟨hs.tables hseq (by rw [hdb]) (fun k hk => market?_isSome_modify (by rw [hdb]) hk)
      (fun c hc => Or.inl (by rwa [hdb] at hc)), fun id o ho => by rwa [hdb]⟩
  | adjusted userId asset field w value hfield hseq hw hn hdb =>
    exact ⟨hs.tables hseq (by rw [hdb]) (fun _ hm => by rwa [hdb])
      (fun c hc => Or.inl (by rwa [hdb] at hc)), fun id o ho => by rwa [hdb]⟩

/-- Every step adjusts some field, or none. -/
theorem Step.adjusts_any (l : Step) : l.Adjusts fun _ => True := by
  cases l <;> trivial

/-- **Every step keeps the exchange safe.** -/
theorem step_safe (hs : Safe m) (l : Step) : Safe (m.step l) := by
  by_cases hd : ∃ cmd faults, l = .deliver cmd faults
  · obtain ⟨cmd, faults, rfl⟩ := hd
    exact deliver_safe hs cmd faults
  by_cases hr : l = .restart
  · subst hr
    refine ⟨?_, MatchingEngine.restart_backed hs.sound⟩
    exact hs.sound
  obtain ⟨heffect, hbooks⟩ := step_effect m l.adjusts_any
    (fun cmd faults e => hd ⟨cmd, faults, e⟩) hr
  obtain ⟨hsound, hrows⟩ := heffect.sound hs.sound
  exact ⟨hsound, hs.backed.of_rows hbooks hrows⟩

theorem initial_sound (h : m.Initial) : m.store.Sound := by
  have hnone : ∀ id, m.store.db.order? id = none := by
    intro id
    unfold Db.order?
    rw [show m.store.db.orders = [] from h.orders]
    rfl
  refine ⟨fun id o ho => ?_, ?_, fun o ho => ?_, fun id o ho => ?_, fun c hc => ?_⟩
  · rw [hnone] at ho
    cases ho
  · rw [show m.store.db.orders = [] from h.orders]
    exact List.Pairwise.nil
  · rw [show m.store.db.orders = [] from h.orders] at ho
    simp at ho
  · rw [hnone] at ho
    cases ho
  · rw [Db.commands, show m.store.db.outbox = [] from h.outbox] at hc
    simp at hc

theorem initial_safe (h : m.Initial) : Safe m := by
  refine ⟨initial_sound h, fun symbol side r hr => ?_⟩
  rw [h.queues, Book.queue_empty] at hr
  simp at hr

/-- **The exchange is safe in every reachable state.** -/
theorem run_safe (h : m.Initial) (steps : List Step) : Safe (m.run steps) :=
  Matcher.run_invariant (I := Safe) (fun _ l hs => step_safe hs l) (initial_safe h) steps

/-- One step keeps what commands keep, and calls of the api that adjust no more than `A`. -/
theorem step_tables {A : WalletField → Prop} {I : Db → Prop}
    (hsubmit : ∀ {m m' : Matcher E} {cmd r}, Safe m → OrderCommand.SUBMIT cmd ∈ m.db.commands →
      SubmitOutcome cmd m r m' → I m.db → I m'.db)
    (hcancel : ∀ {m m' : Matcher E} {cmd r}, Safe m → CancelOutcome cmd m r m' → I m.db → I m'.db)
    (hapi : ∀ {s s' : Store}, s.Sound → ApiEffect A s s' → I s.db → I s'.db) (hs : Safe m)
    {l : Step} (hl : l.Adjusts A) (hI : I m.db) : I (m.step l).db := by
  by_cases hd : ∃ cmd faults, l = .deliver cmd faults
  · obtain ⟨cmd, faults, rfl⟩ := hd
    change I (m.deliver cmd faults).db
    have hs₀ := hs.of_same (m.same_withFaults faults)
    rcases deliver_eq m cmd faults with ⟨-, h⟩ | ⟨hcmd, r, m₁, hd, h⟩
    · rwa [h]
    · rw [h]
      change I m₁.db
      cases cmd with
      | SUBMIT cmd =>
        exact hsubmit (m := m.withFaults faults) hs₀ hcmd
          (dispatch_submit_of_sound hs₀.sound hd) hI
      | CANCEL cmd => exact hcancel (m := m.withFaults faults) hs₀ (dispatch_cancel hd) hI
  by_cases hr : l = .restart
  · subst hr
    exact hI
  · exact hapi hs.sound (step_effect m hl (fun cmd faults e => hd ⟨cmd, faults, e⟩) hr).1 hI

/-- **The rule for invariants of the tables**: what commands keep, and calls of the api that adjust
no more than `A`, holds in every reachable state. -/
theorem run_tables {A : WalletField → Prop} {I : Db → Prop} (h : m.Initial) (h0 : I m.db)
    (hsubmit : ∀ {m m' : Matcher E} {cmd r}, Safe m → OrderCommand.SUBMIT cmd ∈ m.db.commands →
      SubmitOutcome cmd m r m' → I m.db → I m'.db)
    (hcancel : ∀ {m m' : Matcher E} {cmd r}, Safe m → CancelOutcome cmd m r m' → I m.db → I m'.db)
    (hapi : ∀ {s s' : Store}, s.Sound → ApiEffect A s s' → I s.db → I s'.db) {steps : List Step}
    (hA : ∀ l ∈ steps, l.Adjusts A) : I (m.run steps).db := by
  have hrun : ∀ (steps : List Step) (m : Matcher E), (∀ l ∈ steps, l.Adjusts A) → Safe m → I m.db →
      I (m.run steps).db := by
    intro steps
    induction steps with
    | nil => exact fun _ _ _ hI => hI
    | cons l ls ih =>
      exact fun m hA hs hI => ih _ (fun x hx => hA x (by simp [hx])) (step_safe hs l)
        (step_tables hsubmit hcancel hapi hs (hA l (by simp)) hI)
  exact hrun steps m hA (initial_safe h) h0

/-! ## Closed rows -/

/-- The crossing of a committed submit, of either type. -/
theorem submit_crossing (hs : m.store.Sound) (hb : Backed ρ m) {cmd : OrderSubmitCommand}
    (hcmd : OrderCommand.SUBMIT cmd ∈ m.db.commands) (h : SubmitOutcome cmd m (.ok .ok) m') :
    ∃ market order finish fs rest release q, Begun m cmd market order ∧
      Crossing m cmd.symbol order finish fs rest ∧
      Submitted market order cmd fs finish release q m m' := by
  cases h with
  | committedLimit market order price hbegun ht hp hid hsub =>
    exact ⟨market, order, _, _, _, _, _, hbegun, crossing_limit _ hs hcmd hbegun ht hid, hsub⟩
  | committedMarket market order l hbegun ht hl hsub =>
    exact ⟨market, order, _, _, _, _, _, hbegun, crossing_market hs hb hcmd hbegun ht hl, hsub⟩

/-- A command leaves closed rows alone. -/
theorem submit_terminal (hs : Safe m) {cmd : OrderSubmitCommand} {r : Except Failure Result}
    (hcmd : OrderCommand.SUBMIT cmd ∈ m.db.commands) (h : SubmitOutcome cmd m r m') {id : ℕ}
    {o : Order} (ho : m.db.order? id = some o) (ht : o.terminal = true) :
    m'.db.order? id = some o := by
  rcases h.unchanged_or with hdb | rfl
  · rwa [hdb]
  obtain ⟨market, order, finish, fs, rest, release, q, hbegun, hc, hsub⟩ :=
    submit_crossing hs.sound hs.backed hcmd h
  obtain ⟨-, -, hothers⟩ := hsub.order? hc
  rw [hothers id, ho]
  · rintro rfl
    obtain rfl : order = o := Option.some.inj (hc.horder.symm.trans ho)
    rw [hbegun.live] at ht
    cases ht
  · intro hmem
    obtain ⟨x, hx, rfl⟩ := hc.exists_resting hmem
    obtain ⟨o', ho'⟩ := hs.backed _ _ x hx
    obtain rfl : o' = o := Option.some.inj (ho'.row.symm.trans ho)
    rw [Order.terminal_eq_false ho'.active] at ht
    cases ht

theorem cancel_terminal {cmd : OrderCancelCommand} {r : Except Failure Result}
    (h : CancelOutcome cmd m r m') {id : ℕ} {o : Order} (ho : m.db.order? id = some o)
    (ht : o.terminal = true) : m'.db.order? id = some o := by
  rcases h.unchanged_or with hdb | ⟨market, order, hx, hm, live, hc⟩
  · rwa [hdb]
  rw [Db.order?_of_modify hc.orders (fun _ => rfl), if_neg, ho]
  rintro rfl
  rw [Db.order?_id hx, hx] at ho
  obtain rfl := Option.some.inj ho
  rw [live] at ht
  cases ht

theorem step_terminal (hs : Safe m) (l : Step) {id : ℕ} {o : Order}
    (ho : m.db.order? id = some o) (ht : o.terminal = true) : (m.step l).db.order? id = some o := by
  by_cases hd : ∃ cmd faults, l = .deliver cmd faults
  · obtain ⟨cmd, faults, rfl⟩ := hd
    change (m.deliver cmd faults).db.order? id = some o
    rcases deliver_eq m cmd faults with ⟨-, h⟩ | ⟨hcmd, r, m₁, hd, h⟩
    · rwa [h]
    · rw [h]
      have hs₀ := hs.of_same (m.same_withFaults faults)
      cases cmd with
      | SUBMIT cmd =>
        exact submit_terminal (m := m.withFaults faults) hs₀ hcmd
          (dispatch_submit_of_sound hs₀.sound hd) ho ht
      | CANCEL cmd => exact cancel_terminal (m := m.withFaults faults) (dispatch_cancel hd) ho ht
  by_cases hr : l = .restart
  · subst hr
    exact ho
  · exact ((step_effect m l.adjusts_any (fun cmd faults e => hd ⟨cmd, faults, e⟩) hr).1.sound
      hs.sound).2 id o ho

/-- **A closed row never changes again.** -/
theorem run_terminal (hs : Safe m) (steps : List Step) {id : ℕ} {o : Order}
    (ho : m.db.order? id = some o) (ht : o.terminal = true) :
    (m.run steps).db.order? id = some o := by
  induction steps generalizing m with
  | nil => exact ho
  | cons l ls ih => exact ih (step_safe hs l) (step_terminal hs l ho ht)

/-! ## Fixed columns -/

/-- A command keeps every row, and its fixed columns. -/
theorem submit_fixed (hs : Safe m) {cmd : OrderSubmitCommand} {r : Except Failure Result}
    (hcmd : OrderCommand.SUBMIT cmd ∈ m.db.commands) (h : SubmitOutcome cmd m r m') {id : ℕ}
    {o : Order} (ho : m.db.order? id = some o) : ∃ o', m'.db.order? id = some o' ∧ o.Fixed o' := by
  rcases h.unchanged_or with hdb | rfl
  · exact ⟨o, by rwa [hdb], .refl o⟩
  obtain ⟨market, order, finish, fs, rest, release, q, -, hc, hsub⟩ :=
    submit_crossing hs.sound hs.backed hcmd h
  obtain ⟨o', ho'⟩ := Option.isSome_iff_exists.mp
    ((Db.order?_isSome_of_keys (hsub.map_key hc) id).mpr (Option.isSome_of_eq_some ho))
  obtain ⟨o₀, ho₀, hfix, -⟩ := hsub.exists_row hc hs.sound tracks_le hs.backed ho'
  obtain rfl : o₀ = o := Option.some.inj (ho₀.symm.trans ho)
  exact ⟨o', ho', hfix⟩

theorem cancel_fixed {cmd : OrderCancelCommand} {r : Except Failure Result}
    (h : CancelOutcome cmd m r m') {id : ℕ} {o : Order} (ho : m.db.order? id = some o) :
    ∃ o', m'.db.order? id = some o' ∧ o.Fixed o' := by
  rcases h.unchanged_or with hdb | ⟨market, order, hx, hm, live, hc⟩
  · exact ⟨o, by rwa [hdb], .refl o⟩
  rw [Db.order?_of_modify hc.orders (fun _ => rfl), ho]
  split
  · exact ⟨_, rfl, rfl, rfl, rfl, rfl, rfl, rfl, rfl, rfl⟩
  · exact ⟨o, rfl, .refl o⟩

/-- **A row keeps its fixed columns**, whatever happens. -/
theorem step_fixed (hs : Safe m) (l : Step) {id : ℕ} {o : Order} (ho : m.db.order? id = some o) :
    ∃ o', (m.step l).db.order? id = some o' ∧ o.Fixed o' := by
  by_cases hd : ∃ cmd faults, l = .deliver cmd faults
  · obtain ⟨cmd, faults, rfl⟩ := hd
    change ∃ o', (m.deliver cmd faults).db.order? id = some o' ∧ o.Fixed o'
    rcases deliver_eq m cmd faults with ⟨-, h⟩ | ⟨hcmd, r, m₁, hd, h⟩
    · exact ⟨o, by rwa [h], .refl o⟩
    · rw [h]
      have hs₀ := hs.of_same (m.same_withFaults faults)
      cases cmd with
      | SUBMIT cmd =>
        exact submit_fixed (m := m.withFaults faults) hs₀ hcmd
          (dispatch_submit_of_sound hs₀.sound hd) ho
      | CANCEL cmd => exact cancel_fixed (m := m.withFaults faults) (dispatch_cancel hd) ho
  by_cases hr : l = .restart
  · subst hr
    exact ⟨o, ho, .refl o⟩
  · exact ⟨o, ((step_effect m l.adjusts_any (fun cmd faults e => hd ⟨cmd, faults, e⟩) hr).1.sound
      hs.sound).2 id o ho, .refl o⟩

/-- Along a run, every row stays, with its fixed columns. -/
theorem run_fixed (hs : Safe m) (steps : List Step) {id : ℕ} {o : Order}
    (ho : m.db.order? id = some o) : ∃ o', (m.run steps).db.order? id = some o' ∧ o.Fixed o' := by
  induction steps generalizing m o with
  | nil => exact ⟨o, ho, .refl o⟩
  | cons l ls ih =>
    obtain ⟨o₁, ho₁, hf₁⟩ := step_fixed hs l ho
    obtain ⟨o₂, ho₂, hf₂⟩ := ih (step_safe hs l) ho₁
    exact ⟨o₂, ho₂, hf₁.trans hf₂⟩

/-! ## Sweep ids -/

/-- The ids of a book, one side of which was taken away from. -/
theorem mem_ids_of_set {b : Queues} {side : Side} {l : List (Resting ℕ ℚ ℚ)}
    (hl : (l.map (·.id)).Sublist ((b.queue side).map (·.id))) {id : ℕ}
    (hid : id ∈ (b.set side l).ids) : id ∈ b.ids := by
  obtain ⟨t, r, hr, rfl⟩ := Book.mem_ids.mp hid
  rcases side.eq_or_eq_opp t with rfl | rfl
  · rw [Book.queue_set_self] at hr
    obtain ⟨r₀, hr₀, e⟩ := List.mem_map.mp (hl.subset (List.mem_map_of_mem hr))
    exact Book.mem_ids.mpr ⟨_, r₀, hr₀, e⟩
  · rw [Book.queue_set_opp] at hr
    exact Book.mem_ids.mpr ⟨_, r, hr, rfl⟩

/-- A `MARKET` order leaves no id resting that did not rest before, none of its sweeps' in
particular. -/
theorem submit_market_ids {cmd : OrderSubmitCommand} {r : Except Failure Result}
    (h : SubmitOutcome cmd m r m') {o : Order} (ho : m.db.order? cmd.orderId = some o)
    (ht : o.type = .MARKET) {symbol : String} {id : ℕ} (hid : id ∈ (m'.queues symbol).ids) :
    id ∈ (m.queues symbol).ids := by
  have hlimit : ∀ {market order}, Begun m cmd market order → order.type ≠ .LIMIT := by
    intro market order hb hty
    obtain rfl : order = o := Option.some.inj (hb.horder.symm.trans ho)
    rw [ht] at hty
    cases hty
  cases h with
  | unread e n hn hf hsame => rwa [hsame.queues] at hid
  | skipped hsame why => rwa [hsame.queues] at hid
  | refused e market order hb hty why hsame => rwa [hsame.queues] at hid
  | abortedLimit e market order price hb hty => exact absurd hty (hlimit hb)
  | committedLimit market order price hb hty => exact absurd hty (hlimit hb)
  | abortedMarket e market order hb hty hdb hswept =>
    by_cases hsym : symbol = cmd.symbol
    · subst hsym
      obtain ⟨l, hl, e⟩ := hswept.queues_eq
      rw [e] at hid
      exact mem_ids_of_set hl.map_id_sublist hid
    · rwa [hswept.queues_ne symbol hsym] at hid
  | committedMarket market order l hb hty hl hsub =>
    by_cases hsym : symbol = cmd.symbol
    · subst hsym
      rw [hsub.queues_eq] at hid
      refine mem_ids_of_set ?_ hid
      rw [hl]
      exact (fill_consumed _ _ l).rest_map_id_sublist
    · rwa [hsub.queues_ne symbol hsym] at hid

theorem deliver_market_ids (hs : Safe m) {cmd : OrderSubmitCommand} (faults : Option ℕ) {o : Order}
    (ho : m.db.order? cmd.orderId = some o) (ht : o.type = .MARKET) {symbol : String} {id : ℕ}
    (hid : id ∈ ((m.deliver (.SUBMIT cmd) faults).queues symbol).ids) :
    id ∈ (m.queues symbol).ids := by
  rcases deliver_eq m (.SUBMIT cmd) faults with ⟨-, h⟩ | ⟨hcmd, r, m₁, hd, h⟩
  · rwa [h] at hid
  · rw [h] at hid
    have hs₀ := hs.of_same (m.same_withFaults faults)
    exact submit_market_ids (m := m.withFaults faults) (dispatch_submit_of_sound hs₀.sound hd) ho ht
      hid

/-- **No over-fill.** In every reachable state each resting order is a live `LIMIT` row of its
market, with its side and price, resting with at most what the row has left. It is no order of a
sweep: a `MARKET` order leaves no id resting that did not rest before it, and as the resting ids
were drawn from the sequence of order ids, they differ from all sweep ids as long as that sequence
is below a billion. No row is filled over its quantity, and a closed row stays as it is. -/
theorem no_overfill (h : m.Initial) (steps : List Step) :
    (∀ symbol side, ∀ r ∈ ((m.run steps).queues symbol).queue side,
      (∃ o ∈ (m.run steps).db.orders, o.id = r.id ∧ o.type = .LIMIT ∧ o.market = symbol ∧
        (o.status = .OPEN ∨ o.status = .PARTIAL) ∧ sideToEngine o.side = side ∧
        o.price = some r.price ∧ r.qty ≤ o.leaveQty) ∧
      r.id ≤ (m.run steps).store.seqs.order ∧
      ((m.run steps).store.seqs.order < 1000000000 → ∀ orderId k, r.id ≠ sweepId orderId k)) ∧
    (∀ cmd faults, ∀ o ∈ (m.run steps).db.orders, o.id = cmd.orderId → o.type = .MARKET →
      ∀ symbol, ∀ id ∈ (((m.run steps).deliver (.SUBMIT cmd) faults).queues symbol).ids,
        id ∈ ((m.run steps).queues symbol).ids) ∧
    (∀ o ∈ (m.run steps).db.orders, 0 ≤ o.leaveQty ∧ o.filledQty ≤ o.quantity) ∧
    ∀ o ∈ (m.run steps).db.orders, o.status = .FILLED ∨ o.status = .CANCELLED →
      ∀ more, (m.run (steps ++ more)).db.order? o.id = some o := by
  have hs := run_safe h steps
  refine ⟨fun symbol side r hr => ?_, fun cmd faults o ho hid ht symbol id hmem => ?_,
    fun o ho => ?_, fun o ho ht more => ?_⟩
  · obtain ⟨o, hback⟩ := hs.backed symbol side r hr
    have hmem := Db.mem_of_order? hback.row
    have hid := Db.order?_id hback.row
    have hle : r.id ≤ (m.run steps).store.seqs.order := hid ▸ hs.sound.ids o hmem
    refine ⟨⟨o, hmem, hid, hback.type, hback.market, ?_, hback.side,
      hback.price, hback.qty⟩, hle, ?_⟩
    · simpa [Order.active] using hback.active
    · intro hlt orderId k e
      unfold sweepId at e
      omega
  · exact deliver_market_ids hs faults (hid ▸ hs.sound.order?_of_mem ho) ht hmem
  · have hrow := hs.sound.rows _ _ (hs.sound.order?_of_mem ho)
    have hsum := hrow.sum
    have hleave := hrow.leave
    exact ⟨hleave, by linarith⟩
  · rw [Matcher.run_append]
    exact run_terminal hs more (hs.sound.order?_of_mem ho) (by simpa [Order.terminal] using ht)

/-- The order of `alice` is filled, and stays so. -/
theorem no_overfill_trading : Sample.exchange.Initial ∧
    (Sample.exchange.run (Sample.trading ++ [.restart])).db.order? 2 =
      some ⟨2, "alice", "BTC-USDT", .BID, .LIMIT, some 110, 1, 0, 1, .FILLED, some ⟨3⟩⟩ :=
  ⟨Sample.exchange_initial, (no_overfill Sample.exchange_initial Sample.trading).2.2.2
    ⟨2, "alice", "BTC-USDT", .BID, .LIMIT, some 110, 1, 0, 1, .FILLED, some ⟨3⟩⟩
    (by decide +kernel) (Or.inl rfl) [.restart]⟩

end Orbit
