import Orbit.Api.Specs
import Orbit.Matcher.CommandSpecs

/-!
# Books backed by rows

Every order that rests in a book is a live `LIMIT` row of its market, with the same side and price,
and it rests with no more than the row has left. That is the safe direction of the divergence
between books and tables, and every step of the exchange keeps it: a match takes the same quantity
from the row and from the book, a cancel and an aborted transaction only take away from the book,
and a restart adds each live row with what it has left.

* `Order.Sound` is what every order row satisfies, `Store.Sound` what the tables do.
* `Backed ρ m` relates the quantity of each resting order to what its row has left by `ρ`. Commits
  keep it for any `ρ` that a common decrease preserves (`Submitted.backed`, `Cancelled.backed`);
  aborts keep it for `≤`.
* `Safe` is the invariant of every run: `run_safe`.
-/

namespace Orbit

open PriceTime Settler

/-! ## Rows -/

theorem Db.order?_of_modify {db db' : Db} {k : ℕ} {f : Order → Order}
    (h : db'.orders = Table.modify k f db.orders) (hf : ∀ o, (f o).id = o.id) (id : ℕ) :
    db'.order? id = if id = k then (db.order? id).map f else db.order? id := by
  unfold Db.order?
  rw [h, Table.find?_modify hf]

theorem Db.map_key_of_modify {db db' : Db} {k : ℕ} {f : Order → Order}
    (h : db'.orders = Table.modify k f db.orders) (hf : ∀ o, (f o).id = o.id) :
    db'.orders.map Table.key = db.orders.map Table.key := by
  rw [h, Table.map_key_modify hf]

theorem Db.order?_isSome_of_keys {db db' : Db}
    (h : db'.orders.map Table.key = db.orders.map Table.key) (id : ℕ) :
    (db'.order? id).isSome ↔ (db.order? id).isSome := by
  unfold Db.order?
  rw [Table.find?_isSome, Table.find?_isSome, h]

theorem Db.order?_congr {db db' : Db} (h : db'.orders = db.orders) (id : ℕ) :
    db'.order? id = db.order? id := by
  unfold Db.order?
  rw [h]

theorem Db.market?_congr {db db' : Db} (h : db'.markets = db.markets) :
    db'.market? = db.market? := by
  funext symbol
  rw [Db.market?, Db.market?, h]

theorem Db.order?_id {db : Db} {id : ℕ} {o : Order} (h : db.order? id = some o) : o.id = id :=
  Table.key_of_find? h

theorem Db.mem_of_order? {db : Db} {id : ℕ} {o : Order} (h : db.order? id = some o) :
    o ∈ db.orders :=
  Table.mem_of_find? h

/-- What every order row satisfies. -/
structure Order.Sound (o : Order) : Prop where
  quantity : 0 < o.quantity
  sum : o.filledQty + o.leaveQty = o.quantity
  filled : 0 ≤ o.filledQty
  leave : 0 ≤ o.leaveQty
  limit : o.type = .LIMIT → ∃ p, o.price = some p ∧ 0 < p
  market : o.type = .MARKET → o.price = none
  live : o.terminal = false → o.active = true ∧ 0 < o.leaveQty
  whole : o.type = .MARKET → o.active = true → o.leaveQty = o.quantity

/-- The price of a row, if it has one, is positive. -/
theorem Order.Sound.price_pos {o : Order} (h : o.Sound) {p : ℚ}
    (hp : o.price = some p) : 0 < p := by
  cases ht : o.type with
  | MARKET =>
    rw [h.market ht] at hp
    cases hp
  | LIMIT =>
    obtain ⟨p', hp', h0⟩ := h.limit ht
    rw [hp] at hp'
    rwa [Option.some.inj hp']

theorem Order.terminal_eq_false {o : Order} (h : o.active = true) : o.terminal = false := by
  unfold active at h
  unfold terminal
  cases hs : o.status <;> simp_all

theorem Order.active_eq_false {o : Order} (h : o.terminal = true) : o.active = false := by
  cases ha : o.active
  · rfl
  · rw [Order.terminal_eq_false ha] at h
    cases h

/-- The columns of an order that nothing ever rewrites. -/
structure Order.Fixed (o o' : Order) : Prop where
  id : o'.id = o.id
  userId : o'.userId = o.userId
  market : o'.market = o.market
  side : o'.side = o.side
  type : o'.type = o.type
  price : o'.price = o.price
  quantity : o'.quantity = o.quantity
  commandId : o'.commandId = o.commandId

namespace Order.Fixed

theorem refl (o : Order) : Fixed o o := ⟨rfl, rfl, rfl, rfl, rfl, rfl, rfl, rfl⟩

theorem trans {o₁ o₂ o₃ : Order} (h₁ : Fixed o₁ o₂) (h₂ : Fixed o₂ o₃) : Fixed o₁ o₃ :=
  ⟨h₂.id.trans h₁.id, h₂.userId.trans h₁.userId, h₂.market.trans h₁.market, h₂.side.trans h₁.side,
    h₂.type.trans h₁.type, h₂.price.trans h₁.price, h₂.quantity.trans h₁.quantity,
    h₂.commandId.trans h₁.commandId⟩

theorem makerAfter (maker : Order) (qty : ℚ) (o : Order) : Fixed o (makerAfter maker qty o) :=
  ⟨rfl, rfl, rfl, rfl, rfl, rfl, rfl, rfl⟩

theorem orderAfterMatch (leaveQty originalQty : ℚ) (o : Order) :
    Fixed o (orderAfterMatch leaveQty originalQty o) :=
  ⟨rfl, rfl, rfl, rfl, rfl, rfl, rfl, rfl⟩

theorem marketAfter (order : Order) (remaining : ℚ) (o : Order) :
    Fixed o (marketAfter order remaining o) := by
  unfold Settler.marketAfter
  split <;> exact ⟨rfl, rfl, rfl, rfl, rfl, rfl, rfl, rfl⟩

end Order.Fixed

namespace Settler

theorem makerAfter_id (maker : Order) (qty : ℚ) (o : Order) : (makerAfter maker qty o).id = o.id :=
  rfl

variable {market : Market} {taker : Order} {rates : FeeRates} {commandId : Uuid} {idx : ℕ}
  {db db' : Db} {ts : List EngineTrade} {rows : List Trade}

/-- Settlement leaves every row alone that is not a maker's. -/
theorem Settles.order?_of_notMem (h : Settles market taker rates commandId idx db ts rows db')
    {id : ℕ} (hid : id ∉ ts.map (·.makerOrderId)) : db'.order? id = db.order? id := by
  induction h with
  | nil => rfl
  | cons maker hf _ ih =>
    rw [List.map_cons, List.mem_cons, not_or] at hid
    rw [ih hid.2, Db.order?_of_modify hf.orders (makerAfter_id _ _), if_neg hid.1]

/-- Settlement fills the row of each maker once. -/
theorem Settles.order?_of_mem (h : Settles market taker rates commandId idx db ts rows db')
    (hd : (ts.map (·.makerOrderId)).Nodup) {t : EngineTrade} (ht : t ∈ ts) :
    ∃ maker, db.order? t.makerOrderId = some maker ∧
      db'.order? t.makerOrderId = some (makerAfter maker t.tradeQuantity maker) := by
  induction h with
  | nil => simp at ht
  | cons maker hf hs ih =>
    rw [List.map_cons, List.nodup_cons] at hd
    rcases List.mem_cons.mp ht with rfl | ht
    · refine ⟨maker, hf.hmaker, ?_⟩
      rw [hs.order?_of_notMem hd.1, Db.order?_of_modify hf.orders (makerAfter_id _ _), if_pos rfl,
        hf.hmaker, Option.map_some]
    · obtain ⟨maker', h₁, h₂⟩ := ih hd.2 ht
      refine ⟨maker', ?_, h₂⟩
      rw [Db.order?_of_modify hf.orders (makerAfter_id _ _), if_neg] at h₁
      · exact h₁
      · intro e
        exact hd.1 (e ▸ List.mem_map_of_mem ht)

theorem Settles.map_key (h : Settles market taker rates commandId idx db ts rows db') :
    db'.orders.map Table.key = db.orders.map Table.key := by
  induction h with
  | nil => rfl
  | cons maker hf _ ih => rw [ih, Db.map_key_of_modify hf.orders (makerAfter_id maker _)]

end Settler

/-! ## Sound tables -/

/-- A command carries the id and the market of its order. -/
def Db.Carries (db : Db) : OrderCommand → Prop
  | .SUBMIT cmd => ∃ o, db.order? cmd.orderId = some o ∧ o.market = cmd.symbol ∧
      o.commandId = some cmd.commandId
  | .CANCEL cmd => ∃ o, db.order? cmd.orderId = some o ∧ o.market = cmd.symbol

/-- What the tables and the id sequence satisfy. -/
structure Store.Sound (s : Store) : Prop where
  rows : ∀ id o, s.db.order? id = some o → o.Sound
  keys : Table.KeysIncreasing s.db.orders
  ids : ∀ o ∈ s.db.orders, o.id ≤ s.seqs.order
  markets : ∀ id o, s.db.order? id = some o → (s.db.market? o.market).isSome
  commands : ∀ cmd ∈ s.db.commands, s.db.Carries cmd

theorem Store.Sound.order?_of_mem {s : Store} (h : s.Sound) {o : Order} (ho : o ∈ s.db.orders) :
    s.db.order? o.id = some o :=
  h.keys.find?_eq_some ho

/-- The rows of `db'` are those of `db`, each with its fixed columns. -/
def Db.Rewrites (db db' : Db) : Prop :=
  ∀ id, (∀ o', db'.order? id = some o' → ∃ o, db.order? id = some o ∧ o.Fixed o') ∧
    ∀ o, db.order? id = some o → ∃ o', db'.order? id = some o' ∧ o.Fixed o'

theorem Db.Carries.rewrites {db db' : Db} (h : db.Rewrites db') {cmd : OrderCommand}
    (hc : db.Carries cmd) : db'.Carries cmd := by
  cases cmd with
  | SUBMIT cmd =>
    obtain ⟨o, ho, hm, hcmd⟩ := hc
    obtain ⟨o', ho', hfix⟩ := (h _).2 o ho
    exact ⟨o', ho', hfix.market.trans hm, hfix.commandId.trans hcmd⟩
  | CANCEL cmd =>
    obtain ⟨o, ho, hm⟩ := hc
    obtain ⟨o', ho', hfix⟩ := (h _).2 o ho
    exact ⟨o', ho', hfix.market.trans hm⟩

/-- Rewriting rows in place keeps the tables sound, when the rewritten rows are. -/
theorem Store.Sound.rewrites {s s' : Store} (h : s.Sound) (hf : s.Framed s')
    (hkeys : s'.db.orders.map Table.key = s.db.orders.map Table.key)
    (hrw : s.db.Rewrites s'.db) (hrows : ∀ id o, s'.db.order? id = some o → o.Sound) :
      s'.Sound where
  rows := hrows
  keys := by
    unfold Table.KeysIncreasing
    rw [hkeys]
    exact h.keys
  ids o ho := by
    have hmem : Table.key o ∈ s.db.orders.map Table.key := hkeys ▸ List.mem_map_of_mem ho
    obtain ⟨o₀, ho₀, e⟩ := List.mem_map.mp hmem
    rw [hf.order, show o.id = o₀.id from e.symm]
    exact h.ids o₀ ho₀
  markets id o ho := by
    obtain ⟨o₀, ho₀, hfix⟩ := (hrw id).1 o ho
    rw [Db.market?, hf.markets, hfix.market]
    exact h.markets id o₀ ho₀
  commands cmd hcmd := (h.commands cmd (hf.commands ▸ hcmd)).rewrites hrw

theorem Store.Sound.congr {s s' : Store} (h : s.Sound) (hf : s.Framed s') (hdb : s'.db = s.db) :
    s'.Sound := by
  refine h.rewrites hf (by rw [hdb]) (fun id => ?_) fun id o ho => h.rows id o (hdb ▸ ho)
  rw [hdb]
  exact ⟨fun o ho => ⟨o, ho, .refl _⟩, fun o ho => ⟨o, ho, .refl _⟩⟩

/-- Rewriting one row keeps the tables sound, when the rewritten row is. -/
theorem Store.Sound.modify {s s' : Store} (h : s.Sound) (hf : s.Framed s') {k : ℕ}
    {f : Order → Order} (hfix : ∀ o : Order, o.Fixed (f o))
    (hs : s'.db.orders = Table.modify k f s.db.orders)
    (hrow : ∀ o, s.db.order? k = some o → (f o).Sound) : s'.Sound := by
  have hmod := fun id => Db.order?_of_modify hs (fun o => (hfix o).id) id
  refine h.rewrites hf (Db.map_key_of_modify hs fun o => (hfix o).id)
    (fun id => ?_) fun id o ho => ?_
  · rw [hmod]
    split
    · refine ⟨fun o' ho' => ?_, fun o ho => ⟨f o, by rw [ho, Option.map_some], hfix o⟩⟩
      obtain ⟨o, ho, rfl⟩ := Option.map_eq_some_iff.mp ho'
      exact ⟨o, ho, hfix o⟩
    · exact ⟨fun o ho => ⟨o, ho, .refl _⟩, fun o ho => ⟨o, ho, .refl _⟩⟩
  · rw [hmod] at ho
    split at ho
    · rename_i e
      obtain ⟨o₀, ho₀, rfl⟩ := Option.map_eq_some_iff.mp ho
      exact hrow o₀ (e ▸ ho₀)
    · exact h.rows id o ho

/-! ## Backed books -/

variable {E : Engine}

/-- The row `o` stands behind the resting order `r`. -/
structure Backs (ρ : ℚ → ℚ → Prop) (db : Db) (symbol : String) (side : Side) (r : Resting ℕ ℚ ℚ)
    (o : Order) : Prop where
  row : db.order? r.id = some o
  type : o.type = .LIMIT
  market : o.market = symbol
  side : sideToEngine o.side = side
  price : o.price = some r.price
  active : o.active = true
  qty : ρ r.qty o.leaveQty

/-- Every resting order has a row behind it. -/
def Backed (ρ : ℚ → ℚ → Prop) (m : Matcher E) : Prop :=
  ∀ symbol side, ∀ r ∈ (m.queues symbol).queue side, ∃ o, Backs ρ m.db symbol side r o

/-- A relation between a resting quantity and what a row has left that a match preserves. -/
structure Tracks (ρ : ℚ → ℚ → Prop) : Prop where
  refl : ∀ a, ρ a a
  sub : ∀ a b c, ρ a b → ρ (a - c) (b - c)
  le : ∀ a b, ρ a b → a ≤ b

theorem tracks_le : Tracks (· ≤ ·) :=
  ⟨fun _ => le_rfl, fun _ _ c h => sub_le_sub_right h c, fun _ _ h => h⟩

theorem tracks_eq : Tracks (· = ·) :=
  ⟨fun _ => rfl, fun _ _ _ h => by rw [h], fun _ _ h => h.le⟩

/-- The row `maker` stands behind the trade `f`. -/
structure Makes (db : Db) (symbol : String) (side : Side) (f : Fill ℕ ℚ ℚ)
    (maker : Order) : Prop where
  row : db.order? f.id = some maker
  type : maker.type = .LIMIT
  market : maker.market = symbol
  side : sideToEngine maker.side = side
  price : maker.price = some f.price
  active : maker.active = true
  pos : 0 < f.qty
  le : f.qty ≤ maker.leaveQty

section Backed

variable {ρ : ℚ → ℚ → Prop} {m m' : Matcher E}

theorem Backed.of_same (h : Backed ρ m) (hs : m.Same m') : Backed ρ m' := by
  intro symbol side r hr
  rw [hs.queues] at hr
  rw [hs.db]
  exact h symbol side r hr

/-- The trades that consume a backed queue are with live rows that have the quantity. -/
theorem Backed.makes (hρ : Tracks ρ) (h : Backed ρ m) {symbol : String} {side : Side}
    {fs : List (Fill ℕ ℚ ℚ)} {rest : List (Resting ℕ ℚ ℚ)}
    (hc : Consumed ((m.queues symbol).queue side) fs rest) {f : Fill ℕ ℚ ℚ} (hf : f ∈ fs) :
    ∃ maker, Makes m.db symbol side f maker := by
  obtain ⟨r, hr, hid, hprice, hpos, hle⟩ := hc.exists_of_mem_fills
    ((m.queues_wf symbol).pos side) hf
  obtain ⟨o, ho⟩ := h symbol side r hr
  exact ⟨o, hid ▸ ho.row, ho.type, ho.market, ho.side, hprice ▸ ho.price, ho.active, hpos,
    hle.trans (hρ.le _ _ ho.qty)⟩

theorem nodup_queue (m : Matcher E) (symbol : String) (side : Side) :
    (((m.queues symbol).queue side).map (·.id)).Nodup := by
  have h := (m.queues_wf symbol).nodup
  rw [Book.ids, List.map_append] at h
  cases side with
  | bid => exact (List.nodup_append.mp h).1
  | ask => exact (List.nodup_append.mp h).2.1

/-- An id rests on one side only. -/
theorem id_ne_of_opp (m : Matcher E) (symbol : String) (side : Side) {r r' : Resting ℕ ℚ ℚ}
    (hr : r ∈ (m.queues symbol).queue side) (hr' : r' ∈ (m.queues symbol).queue side.opp) :
    r.id ≠ r'.id := by
  have h := (m.queues_wf symbol).nodup
  rw [Book.ids, List.map_append, List.nodup_append] at h
  cases side with
  | bid => exact h.2.2 _ (List.mem_map_of_mem hr) _ (List.mem_map_of_mem hr')
  | ask => exact (h.2.2 _ (List.mem_map_of_mem hr') _ (List.mem_map_of_mem hr)).symm

end Backed

namespace Consumer

variable {market : Market} {order : Order} {cmd : OrderSubmitCommand} {m : Matcher E}

theorem Begun.order?_id (hb : Begun m cmd market order) :
    m.db.order? order.id = some order := by
  rw [Db.order?_id hb.horder]
  exact hb.horder

theorem Begun.market_eq (hb : Begun m cmd market order) (hs : m.store.Sound)
    (hcmd : OrderCommand.SUBMIT cmd ∈ m.db.commands) : order.market = cmd.symbol := by
  obtain ⟨o, ho, hm, -⟩ := hs.commands _ hcmd
  obtain rfl : order = o := Option.some.inj (hb.horder.symm.trans ho)
  exact hm

/-- A `SUBMIT` that was published is skipped only when its order is closed. -/
theorem terminal_of_skipped (hs : m.store.Sound) (hcmd : OrderCommand.SUBMIT cmd ∈ m.db.commands)
    (why : m.db.market? cmd.symbol = none ∨ m.db.order? cmd.orderId = none ∨
      ∃ order, m.db.order? cmd.orderId = some order ∧
        ((order.commandId.isSome ∧ order.commandId ≠ some cmd.commandId) ∨ order.terminal = true)) :
    ∃ order, m.db.order? cmd.orderId = some order ∧ order.terminal = true := by
  obtain ⟨o, ho, hm, hc⟩ : ∃ o, m.db.order? cmd.orderId = some o ∧ o.market = cmd.symbol ∧
    o.commandId = some cmd.commandId := hs.commands _ hcmd
  rcases why with hnone | hnone | ⟨order, horder, hne | hterm⟩
  · have hsome : (m.db.market? o.market).isSome := hs.markets _ _ ho
    rw [hm, hnone] at hsome
    cases hsome
  · rw [ho] at hnone
    cases hnone
  · obtain rfl : order = o := Option.some.inj (horder.symm.trans ho)
    exact absurd hc hne.2
  · exact ⟨order, horder, hterm⟩

end Consumer

namespace Settler

variable {market : Market} {order : Order} {cmd : OrderSubmitCommand} {fs : List (Fill ℕ ℚ ℚ)}
  {finish : Order → Order} {release : List Posting} {q : Queues} {m m' : Matcher E}

theorem map_makerOrderId (fs : List (Fill ℕ ℚ ℚ)) :
    (fs.map EngineTrade.ofFill).map (·.makerOrderId) = fs.map (·.id) := by
  rw [List.map_map]
  rfl

/-- **The trades of a submit**: they consume the opposite queue of its market, the order itself does
not rest, and its row is finished soundly. -/
structure Crossing (m : Matcher E) (symbol : String) (order : Order) (finish : Order → Order)
    (fs : List (Fill ℕ ℚ ℚ)) (rest : List (Resting ℕ ℚ ℚ)) : Prop where
  horder : m.db.order? order.id = some order
  market : order.market = symbol
  consumed : Consumed ((m.queues symbol).queue (sideToEngine order.side).opp) fs rest
  free : order.id ∉ (m.queues symbol).ids
  fixed : ∀ o : Order, o.Fixed (finish o)
  sound : (finish order).Sound

namespace Crossing

variable {symbol : String} {rest : List (Resting ℕ ℚ ℚ)}

theorem nodup (h : Crossing m symbol order finish fs rest) : (fs.map (·.id)).Nodup :=
  (nodup_queue m symbol _).sublist h.consumed.map_id_sublist

/-- The makers rest on the opposite side. -/
theorem exists_resting (h : Crossing m symbol order finish fs rest) {id : ℕ}
    (hid : id ∈ fs.map (·.id)) :
    ∃ r ∈ (m.queues symbol).queue (sideToEngine order.side).opp, r.id = id := by
  have := h.consumed.map_id_sublist.subset hid
  simpa using this

theorem notMem (h : Crossing m symbol order finish fs rest) : order.id ∉ fs.map (·.id) := by
  intro hid
  obtain ⟨r, hr, e⟩ := h.exists_resting hid
  exact h.free (Book.mem_ids.mpr ⟨_, r, hr, e⟩)

end Crossing

section Submitted

variable {rest : List (Resting ℕ ℚ ℚ)} {ρ : ℚ → ℚ → Prop}

/-- The rows after a committed submit: the taker's is finished, the makers' are filled, and the
others are as before. -/
theorem Submitted.order? (h : Submitted market order cmd fs finish release q m m')
    (hc : Crossing m cmd.symbol order finish fs rest) :
    m'.db.order? order.id = some (finish order) ∧
    (∀ f ∈ fs, ∃ maker, m.db.order? f.id = some maker ∧
      m'.db.order? f.id = some (makerAfter maker f.qty maker)) ∧
    ∀ id, id ≠ order.id → id ∉ fs.map (·.id) → m'.db.order? id = m.db.order? id := by
  obtain ⟨rows, db₁, hset, horders, -, -⟩ := h.settled
  have hmod := fun id => Db.order?_of_modify horders (fun o => (hc.fixed o).id) id
  have hkeep : ∀ id, id ∉ fs.map (·.id) → db₁.order? id = m.db.order? id := fun id hid =>
    hset.order?_of_notMem (by rwa [map_makerOrderId])
  refine ⟨?_, fun f hf => ?_, fun id hid hnot => ?_⟩
  · rw [hmod, if_pos rfl, hkeep _ hc.notMem, hc.horder, Option.map_some]
  · obtain ⟨maker, h₁, h₂⟩ := hset.order?_of_mem (by rw [map_makerOrderId]; exact hc.nodup)
      (List.mem_map_of_mem hf)
    refine ⟨maker, h₁, ?_⟩
    have hne : f.id ≠ order.id := fun e => hc.notMem (e ▸ List.mem_map_of_mem hf)
    rw [hmod, if_neg hne]
    exact h₂
  · rw [hmod, if_neg hid, hkeep id hnot]

/-- A committed submit creates and deletes no row. -/
theorem Submitted.map_key (h : Submitted market order cmd fs finish release q m m')
    (hc : Crossing m cmd.symbol order finish fs rest) :
    m'.db.orders.map Table.key = m.db.orders.map Table.key := by
  obtain ⟨rows, db₁, hset, horders, -, -⟩ := h.settled
  rw [Db.map_key_of_modify horders fun o => (hc.fixed o).id, hset.map_key]

/-- A maker's row stays sound when it had the quantity. -/
theorem makerAfter_sound {symbol : String} {side : Side} {f : Fill ℕ ℚ ℚ} {maker : Order}
    (h : Makes m.db symbol side f maker) (hs : maker.Sound) :
    (makerAfter maker f.qty maker).Sound where
  quantity := hs.quantity
  sum := by
    change maker.filledQty + f.qty + (maker.leaveQty - f.qty) = maker.quantity
    rw [← hs.sum]
    ring
  filled := add_nonneg hs.filled h.pos.le
  leave := sub_nonneg.mpr h.le
  limit := hs.limit
  market := hs.market
  live := by
    intro hlive
    have hpos : 0 < maker.leaveQty - f.qty := by
      by_contra hn
      simp [makerAfter, Order.terminal, not_lt.mp hn] at hlive
    refine ⟨?_, hpos⟩
    simp [makerAfter, Order.active, not_le.mpr hpos]
  whole hm := by
    rw [show (makerAfter maker f.qty maker).type = maker.type from rfl, h.type] at hm
    cases hm

/-- The row that a row was before a committed submit: the taker's, that of a
live maker, or itself. -/
theorem Submitted.exists_row (h : Submitted market order cmd fs finish release q m m')
    (hc : Crossing m cmd.symbol order finish fs rest) (hs : m.store.Sound) (hρ : Tracks ρ)
    (hb : Backed ρ m) {id : ℕ} {o' : Order} (ho' : m'.db.order? id = some o') :
    ∃ o, m.db.order? id = some o ∧ o.Fixed o' ∧ o'.Sound ∧
      (id = order.id ∨ o.active = true ∨ o' = o) := by
  obtain ⟨htaker, hmakers, hothers⟩ := h.order? hc
  by_cases h₁ : id = order.id
  · subst h₁
    obtain rfl : finish order = o' := Option.some.inj (htaker.symm.trans ho')
    exact ⟨order, hc.horder, hc.fixed order, hc.sound, Or.inl rfl⟩
  by_cases h₂ : id ∈ fs.map (·.id)
  · obtain ⟨f, hf, rfl⟩ := List.mem_map.mp h₂
    obtain ⟨maker, hm, hm'⟩ := hmakers f hf
    obtain ⟨maker₀, hmakes⟩ := hb.makes hρ hc.consumed hf
    obtain rfl : maker₀ = maker := Option.some.inj (hmakes.row.symm.trans hm)
    obtain rfl : makerAfter maker₀ f.qty maker₀ = o' := Option.some.inj (hm'.symm.trans ho')
    exact ⟨maker₀, hm, .makerAfter _ _ _, makerAfter_sound hmakes (hs.rows _ _ hm),
      Or.inr (Or.inl hmakes.active)⟩
  · rw [hothers id h₁ h₂] at ho'
    exact ⟨o', ho', .refl _, hs.rows _ _ ho', Or.inr (Or.inr rfl)⟩

/-- **A committed submit keeps the tables sound.** -/
theorem Submitted.sound (h : Submitted market order cmd fs finish release q m m')
    (hc : Crossing m cmd.symbol order finish fs rest) (hs : m.store.Sound) (hρ : Tracks ρ)
    (hb : Backed ρ m) : m'.store.Sound := by
  obtain ⟨htaker, hmakers, hothers⟩ := h.order? hc
  refine hs.rewrites h.framed (h.map_key hc) (fun id => ⟨fun o' ho' => ?_, fun o ho => ?_⟩)
    fun id o' ho' => ?_
  · obtain ⟨o, ho, hfix, -⟩ := h.exists_row hc hs hρ hb ho'
    exact ⟨o, ho, hfix⟩
  · by_cases h₁ : id = order.id
    · subst h₁
      obtain rfl : order = o := Option.some.inj (hc.horder.symm.trans ho)
      exact ⟨_, htaker, hc.fixed _⟩
    by_cases h₂ : id ∈ fs.map (·.id)
    · obtain ⟨f, hf, rfl⟩ := List.mem_map.mp h₂
      obtain ⟨maker, hm, hm'⟩ := hmakers f hf
      obtain rfl : maker = o := Option.some.inj (hm.symm.trans ho)
      exact ⟨_, hm', .makerAfter _ _ _⟩
    · exact ⟨o, (hothers id h₁ h₂).trans ho, .refl _⟩
  · obtain ⟨o, -, -, hsound, -⟩ := h.exists_row hc hs hρ hb ho'
    exact hsound

/-- **A committed submit keeps the books backed.** -/
theorem Submitted.backed (h : Submitted market order cmd fs finish release q m m')
    (hc : Crossing m cmd.symbol order finish fs rest) (hρ : Tracks ρ) (hb : Backed ρ m)
    (hopp : q.queue (sideToEngine order.side).opp = rest)
    (hown : ∀ r ∈ q.queue (sideToEngine order.side),
      r ∈ (m.queues cmd.symbol).queue (sideToEngine order.side) ∨
      (r.id = order.id ∧ order.type = .LIMIT ∧ order.price = some r.price ∧
        (finish order).active = true ∧ ρ r.qty (finish order).leaveQty)) :
    Backed ρ m' := by
  obtain ⟨htaker, hmakers, hothers⟩ := h.order? hc
  -- a row that does not take part is as before
  have hkeep : ∀ symbol side r o, Backs ρ m.db symbol side r o → r.id ≠ order.id →
      r.id ∉ fs.map (·.id) → Backs ρ m'.db symbol side r o := fun symbol side r o ho h₁ h₂ =>
    ⟨(hothers _ h₁ h₂).trans ho.row, ho.type, ho.market, ho.side, ho.price, ho.active, ho.qty⟩
  intro symbol side r hr
  by_cases hsym : symbol = cmd.symbol
  · subst hsym
    rw [h.queues_eq] at hr
    rcases (sideToEngine order.side).eq_or_eq_opp side with rfl | rfl
    · rcases hown r hr with hr | ⟨hid, hty, hprice, hact, hqty⟩
      · obtain ⟨o, ho⟩ := hb _ _ r hr
        refine ⟨o, hkeep _ _ r o ho (Book.id_ne_of_mem_queue hc.free hr) fun hmem => ?_⟩
        obtain ⟨r', hr', e⟩ := hc.exists_resting hmem
        exact id_ne_of_opp m _ _ hr hr' e.symm
      · have hfix := hc.fixed order
        exact ⟨finish order, hid ▸ htaker, hfix.type.trans hty, hfix.market.trans hc.market,
          congrArg sideToEngine hfix.side, hfix.price.trans hprice, hact, hqty⟩
    · rw [hopp] at hr
      rcases hc.consumed.exists_of_mem_rest (nodup_queue m _ _) hr with ⟨hr, hnot⟩ |
        ⟨r₀, hr₀, f, hf, hid, rfl⟩
      · obtain ⟨o, ho⟩ := hb _ _ r hr
        exact ⟨o, hkeep _ _ r o ho (Book.id_ne_of_mem_queue hc.free hr) hnot⟩
      · obtain ⟨o, ho⟩ := hb _ _ r₀ hr₀
        obtain ⟨maker, hm, hm'⟩ := hmakers f hf
        rw [hid] at hm hm'
        obtain rfl : maker = o := Option.some.inj (hm.symm.trans ho.row)
        have hqty := hρ.sub _ _ f.qty ho.qty
        have hpos : 0 < maker.leaveQty - f.qty := by
          have h' := (m'.queues_wf cmd.symbol).pos (sideToEngine order.side).opp
            { r₀ with qty := r₀.qty - f.qty } (by rw [h.queues_eq, hopp]; exact hr)
          exact h'.trans_le (hρ.le _ _ hqty)
        refine ⟨makerAfter maker f.qty maker, hm', ho.type, ho.market, ho.side, ho.price, ?_, hqty⟩
        simp [makerAfter, Order.active, not_le.mpr hpos]
  · rw [h.queues_ne symbol hsym] at hr
    obtain ⟨o, ho⟩ := hb _ _ r hr
    refine ⟨o, hkeep _ _ r o ho (fun e => ?_) fun hmem => ?_⟩
    · -- the taker's row is of the command's market
      obtain rfl : order = o := Option.some.inj (hc.horder.symm.trans (e ▸ ho.row))
      exact hsym (ho.market.symm.trans hc.market)
    · -- and so are the makers'
      obtain ⟨r', hr', e⟩ := hc.exists_resting hmem
      obtain ⟨o', ho'⟩ := hb _ _ r' hr'
      obtain rfl : o' = o := Option.some.inj (ho'.row.symm.trans (e ▸ ho.row))
      exact hsym (ho.market.symm.trans ho'.market)

end Submitted

/-! ### The two kinds of submit -/

theorem orderAfterMatch_sound {o : Order} (hs : o.Sound) (ht : o.type = .LIMIT) {leave : ℚ}
    (h0 : 0 ≤ leave) (hle : leave ≤ o.leaveQty) : (orderAfterMatch leave o.quantity o).Sound where
  quantity := hs.quantity
  sum := by
    change o.quantity - leave + leave = o.quantity
    ring
  filled := by
    change 0 ≤ o.quantity - leave
    have := hs.sum
    have := hs.filled
    linarith
  leave := h0
  limit := hs.limit
  market := hs.market
  live hlive := by
    have hpos : 0 < leave := by
      by_contra hn
      simp [orderAfterMatch, Order.terminal, not_lt.mp hn] at hlive
    refine ⟨?_, hpos⟩
    by_cases hf : 0 < o.quantity - leave <;>
      simp [orderAfterMatch, Order.active, not_le.mpr hpos, hf]
  whole hm := by
    rw [show (orderAfterMatch leave o.quantity o).type = o.type from rfl, ht] at hm
    cases hm

theorem orderAfterMatch_active {leave : ℚ} (h : 0 < leave) (q : ℚ) (o : Order) :
    (orderAfterMatch leave q o).active = true := by
  by_cases hf : 0 < q - leave <;> simp [orderAfterMatch, Order.active, not_le.mpr h, hf]

/-- A `MARKET` order is closed by its sweep. -/
theorem marketAfter_terminal (order : Order) (remaining : ℚ) (o : Order) :
    (marketAfter order remaining o).terminal = true := by
  unfold marketAfter
  split
  · by_cases hq : order.quantity = remaining <;> simp [residualAfter, Order.terminal, hq]
  · rename_i h
    simp [orderAfterMatch, Order.terminal, not_lt.mp h]

theorem marketAfter_leaveQty (order : Order) (remaining : ℚ) (o : Order) :
    (marketAfter order remaining o).leaveQty = remaining := by
  unfold marketAfter
  split <;> rfl

theorem marketAfter_filledQty (order : Order) (remaining : ℚ) (o : Order) :
    (marketAfter order remaining o).filledQty = order.quantity - remaining := by
  unfold marketAfter
  split <;> rfl

theorem marketAfter_sound {o : Order} (hs : o.Sound) {remaining : ℚ} (h0 : 0 ≤ remaining)
    (hle : remaining ≤ o.quantity) : (marketAfter o remaining o).Sound := by
  have hterm := marketAfter_terminal o remaining o
  have hfix := Order.Fixed.marketAfter o remaining o
  have hleave := marketAfter_leaveQty o remaining o
  have hfilled := marketAfter_filledQty o remaining o
  refine ⟨?_, ?_, ?_, ?_, ?_, ?_, ?_, ?_⟩
  · rw [hfix.quantity]
    exact hs.quantity
  · rw [hleave, hfilled, hfix.quantity]
    ring
  · rw [hfilled]
    exact sub_nonneg.mpr hle
  · rw [hleave]
    exact h0
  · rw [hfix.type, hfix.price]
    exact hs.limit
  · rw [hfix.type, hfix.price]
    exact hs.market
  · intro hlive
    rw [hterm] at hlive
    cases hlive
  · intro _ ha
    rw [Order.active_eq_false hterm] at ha
    cases ha

theorem depth_nonneg {l : List (Resting ℕ ℚ ℚ)} (hl : ∀ r ∈ l, 0 < r.qty) (n : ℕ) :
    0 ≤ depth n l := by
  obtain ⟨front, back, rfl, -, hsum⟩ := exists_front_of_depth n l
  rw [← hsum]
  exact List.sum_nonneg (by simpa using fun x hx => (hl x (by simp [hx])).le)

theorem sweepRemaining_nonneg (q : ℚ) (l : List (Resting ℕ ℚ ℚ)) : 0 ≤ sweepRemaining q l :=
  sub_nonneg.mpr (min_le_left _ _)

theorem sweepRemaining_le {q : ℚ} {l : List (Resting ℕ ℚ ℚ)} (hq : 0 ≤ q)
    (hl : ∀ r ∈ l, 0 < r.qty) : sweepRemaining q l ≤ q := by
  have := le_min hq (depth_nonneg hl bookLimit)
  unfold sweepRemaining
  linarith

/-- What a sweep takes is what it does not leave. -/
theorem sweepFill_sum {q : ℚ} {l : List (Resting ℕ ℚ ℚ)} (hq : 0 ≤ q) (hl : ∀ r ∈ l, 0 < r.qty) :
    ((sweepFill q l).fills.map (·.qty)).sum = q - sweepRemaining q l := by
  obtain ⟨front, back, rfl, -, hdepth⟩ := exists_front_of_depth bookLimit l
  have h := fill_conserves (fun _ => true) q front
  have hfront : ∀ r ∈ front, 0 < r.qty := fun r hr => hl r (by simp [hr])
  obtain ⟨hfills, -, hleave⟩ := fill_front hfront hq back
  rw [hdepth] at hfills hleave
  rw [hfills, hleave] at h
  exact eq_sub_of_add_eq h

open Consumer

/-- The trades of a `LIMIT` submit. -/
theorem crossing_limit (price : ℚ) (hs : m.store.Sound)
    (hcmd : OrderCommand.SUBMIT cmd ∈ m.db.commands) (hb : Begun m cmd market order)
    (ht : order.type = .LIMIT) (hid : order.id ∉ (m.queues cmd.symbol).ids) :
    Crossing m cmd.symbol order
      (orderAfterMatch ((m.queues cmd.symbol).add order.id (sideToEngine order.side) price
        order.leaveQty).leave order.quantity)
      ((m.queues cmd.symbol).add order.id (sideToEngine order.side) price order.leaveQty).fills
      (fill (crosses (sideToEngine order.side) price) order.leaveQty
        ((m.queues cmd.symbol).queue (sideToEngine order.side).opp)).rest where
  horder := hb.order?_id
  market := hb.market_eq hs hcmd
  consumed := fill_consumed _ _ _
  free := hid
  fixed := .orderAfterMatch _ _
  sound := by
    have hrow := hs.rows _ _ hb.horder
    have h0 := (hrow.live hb.live).2.le
    exact orderAfterMatch_sound hrow ht (fill_leave_nonneg _ h0 _)
      (fill_leave_le _ ((m.queues_wf _).pos _) h0)

/-- The trades of a `MARKET` submit. -/
theorem crossing_market {ρ : ℚ → ℚ → Prop} {l : List (Resting ℕ ℚ ℚ)} (hs : m.store.Sound)
    (hback : Backed ρ m) (hcmd : OrderCommand.SUBMIT cmd ∈ m.db.commands)
    (hb : Begun m cmd market order) (ht : order.type = .MARKET)
    (hl : (m.queues cmd.symbol).queue (sideToEngine order.side).opp = l) :
    Crossing m cmd.symbol order (marketAfter order (sweepRemaining order.quantity l))
      (sweepFill order.quantity l).fills (sweepFill order.quantity l).rest where
  horder := hb.order?_id
  market := hb.market_eq hs hcmd
  consumed := by
    rw [hl]
    exact fill_consumed _ _ _
  free hmem := by
    obtain ⟨side, r, hr, e⟩ := Book.mem_ids.mp hmem
    obtain ⟨o, ho⟩ := hback _ _ r hr
    obtain rfl : order = o := Option.some.inj (hb.order?_id.symm.trans (e ▸ ho.row))
    exact absurd (ht.symm.trans ho.type) (by decide)
  fixed := .marketAfter _ _
  sound := by
    have hrow := hs.rows _ _ hb.horder
    refine marketAfter_sound hrow (sweepRemaining_nonneg _ _)
      (sweepRemaining_le hrow.quantity.le ?_)
    rw [← hl]
    exact (m.queues_wf _).pos _

end Settler

end Orbit
