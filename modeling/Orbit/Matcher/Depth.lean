import Orbit.Matcher.Priority
import Orbit.Matcher.SnapshotSeq

/-!
# What the snapshots show

Each commit publishes a snapshot of the book it leaves behind, the first `bookLimit` levels of each
side. Nothing else is published of a book, so between two commits in a market its last snapshot is
all that consumers have. It stays true for as long as the book does not move without a commit, which
an aborted transaction may bring about and a restart may too. In a failure-free run neither does.

* `Db.shown` is the last snapshot of a market, `Matcher.Shown` says that it depicts the book.
* `deliver_calm`: a clean delivery commits, or tables and books are as they were.
* `step_shown`, `run_shown`: in a failure-free run the books are depicted.
* `snapshot_depicts`: the last snapshot of a market depicts the live orders of the table.
-/

namespace Orbit

open PriceTime Settler Consumer

variable {E : Engine} {m m' : Matcher E} {c : List ℕ}

/-! ## The last snapshot -/

/-- The snapshot that a row of the outbox holds, if it is of the market. -/
def snapshotOfRow (symbol : String) : Topic × String × Payload → Option Snapshot
  | (.ORDERBOOK, _, .orderbook evt) =>
    if evt.market = symbol then some ⟨evt.asks, evt.bids⟩ else none
  | _ => none

/-- The last snapshot of the market, an empty one if there is none. -/
def Db.shown (db : Db) (symbol : String) : Snapshot :=
  ((db.read 0 (snapshotOfRow symbol)).getLast?).getD ⟨[], []⟩

/-- The levels of a side. -/
def Snapshot.levels (ob : Snapshot) : Side → List (Level ℚ ℚ)
  | .bid => ob.bids.map fun v => ⟨v.price, v.quantity⟩
  | .ask => ob.asks.map fun v => ⟨v.price, v.quantity⟩

theorem levels_snapshotOf (q : Queues) (side : Side) :
    (snapshotOf q).levels side = (PriceTime.levels (q.queue side)).take bookLimit := by
  cases side <;> simp [snapshotOf, Snapshot.levels, snapshotLevels, Book.queue, Function.comp_def]

/-- **The snapshot depicts the book.** -/
def Snapshot.Of (ob : Snapshot) (q : Queues) : Prop :=
  ∀ side, Depicts side bookLimit (q.queue side) (ob.levels side)

theorem Snapshot.of_snapshotOf {q : Queues} (h : q.WF) : (snapshotOf q).Of q := by
  intro side
  rw [levels_snapshotOf]
  exact (h.sorted side).depicts bookLimit

/-- The last snapshot of every market depicts its book. -/
def Matcher.Shown (m : Matcher E) : Prop := ∀ symbol, (m.db.shown symbol).Of (m.queues symbol)

theorem Matcher.Shown.congr (h : m.Shown) (hshown : ∀ s, m'.db.shown s = m.db.shown s)
    (hqueues : ∀ s, m'.queues s = m.queues s) : m'.Shown := by
  intro symbol
  rw [hshown, hqueues]
  exact h symbol

theorem snapshotOfRow_ne {topic : Topic} (h : topic ≠ .ORDERBOOK) (symbol key : String)
    (payload : Payload) : snapshotOfRow symbol (topic, key, payload) = none := by
  cases topic with
  | ORDERBOOK => exact absurd rfl h
  | _ => rfl

/-- A command shows nothing. -/
theorem shown_of_commands {s s' : Store} (h : Store.Appended OutboxEvent.IsCommand s s')
    (symbol : String) : s'.db.shown symbol = s.db.shown symbol := by
  have hread : s'.db.read 0 (snapshotOfRow symbol) = s.db.read 0 (snapshotOfRow symbol) :=
    read_of_commands h (Nat.zero_le _) fun _ _ => rfl
  rw [Db.shown, hread, Db.shown]

/-! ## Steps -/

/-- **A commit shows the book that it leaves.** -/
theorem Matcher.Commits.shown (hs : Safe m) {cmd : OrderCommand} {faults : Option ℕ}
    (h : m.Commits cmd faults) (s : String) : (m.deliver cmd faults).db.shown s =
      if cmd.symbol = s then snapshotOf ((m.deliver cmd faults).queues cmd.symbol)
      else m.db.shown s := by
  obtain ⟨u, ts, hread⟩ := h.read hs (fun _ key payload ht => snapshotOfRow_ne ht s key payload)
    (Nat.zero_le _)
  rw [Db.shown, hread]
  simp only [snapshotOfRow, snapshotContent]
  split
  · rw [Option.toList_some, List.getLast?_concat, Option.getD_some]
  · rw [Option.toList_none, List.append_nil, Db.shown]

/-- **A clean delivery commits, or tables and books are as they were.** -/
theorem deliver_calm (h : Agrees c m) {cmd : OrderCommand} {faults : Option ℕ}
    (hl : (Step.deliver cmd faults).Clean c m) : m.Commits cmd faults ∨
      (m.deliver cmd faults).db = m.db ∧ ∀ s, (m.deliver cmd faults).queues s = m.queues s := by
  rcases deliver_eq m cmd faults with ⟨-, e⟩ | ⟨hcmd, r, m₁, hd, e⟩
  · exact Or.inr (by rw [e]; exact ⟨rfl, fun _ => rfl⟩)
  have h₀ := h.of_same (m.same_withFaults faults)
  have hspared : ∀ e, r = .error e → BookSpared cmd (m.withFaults faults) := by
    rintro e rfl
    exact (hl e m₁ hd).1
  have hok := congrArg Prod.fst hd
  rw [e, Matcher.db_withFaults]
  cases cmd with
  | SUBMIT cmd =>
    have ho := dispatch_submit_of_sound h₀.sound hd
    cases r with
    | error e =>
      obtain ⟨hdb, hqueues⟩ := submit_abort
        (fun o ho hlive => ((h₀.sound.rows _ _ ho).live hlive).2) ho
      exact Or.inr ⟨hdb, hqueues.mpr (hspared e rfl)⟩
    | ok r =>
      cases ho with
      | skipped hsame why => exact Or.inr ⟨hsame.db, hsame.queues⟩
      | committedLimit market order price hb ht hp hfree hsub =>
        exact Or.inl ⟨hcmd, ⟨order, hb.horder, hb.live⟩, hok⟩
      | committedMarket market order l hb ht hl hsub =>
        exact Or.inl ⟨hcmd, ⟨order, hb.horder, hb.live⟩, hok⟩
  | CANCEL cmd =>
    have ho := dispatch_cancel hd
    cases r with
    | error e =>
      obtain ⟨hdb, hqueues⟩ := cancel_abort ho
      exact Or.inr ⟨hdb, hqueues.mpr (hspared e rfl)⟩
    | ok r =>
      cases ho with
      | skipped r hsame why => exact Or.inr ⟨hsame.db, hsame.queues⟩
      | committed market order ho hm live hc => exact Or.inl ⟨hcmd, ⟨order, ho, live⟩, hok⟩

theorem step_shown (h : Agrees c m) (hm : m.Shown) {l : Step} (hl : l.Clean c m) :
    (m.step l).Shown := by
  by_cases hd : ∃ cmd faults, l = .deliver cmd faults
  · obtain ⟨cmd, faults, rfl⟩ := hd
    change (m.deliver cmd faults).Shown
    rcases deliver_calm h hl with hc | ⟨hdb, hqueues⟩
    · intro s
      rw [hc.shown h.safe]
      split
      · next he =>
        subst he
        exact Snapshot.of_snapshotOf ((m.deliver cmd faults).queues_wf cmd.symbol)
      · next hne =>
        have hqueues : (m.deliver cmd faults).queues s = m.queues s :=
          congrArg Lane.queues (deliver_lane h.safe cmd faults (Ne.symm hne))
        rw [hqueues]
        exact hm s
    · exact hm.congr (fun s => by rw [hdb]) hqueues
  by_cases hr : l = .restart
  · subst hr
    intro s side
    exact (hm s side).perm ((restart_perm h.safe (h.restsWhole hl)).2 s side).1.symm
  · have hnd : ∀ cmd faults, l ≠ .deliver cmd faults := fun cmd faults e => hd ⟨cmd, faults, e⟩
    obtain ⟨-, hbooks⟩ := step_effect m l.adjusts_any hnd hr
    refine hm.congr (fun s => ?_) fun s => Matcher.queues_congr hbooks s
    exact shown_of_commands (step_appends m hnd) s

/-- **In a failure-free run the last snapshots depict the books.** -/
theorem run_shown (h : m.Initial) {steps : List Step} (hf : FailureFree [] m steps) :
    (m.run steps).Shown := by
  induction steps using List.reverseRecOn with
  | nil =>
    intro symbol side
    rw [Matcher.run_nil, h.queues, Book.queue_empty, Db.shown, Db.read, h.outbox]
    cases side <;> exact depicts_nil _ _
  | append_singleton steps l ih =>
    obtain ⟨hf₀, hl, -⟩ := failureFree_append.mp hf
    rw [Matcher.run_append]
    exact step_shown (run_agrees (initial_agrees h) hf₀) (ih hf₀) hl

/-! ## The live orders -/

/-- The live `LIMIT` orders of a side of a market whose `SUBMIT` was consumed, each at its price
with what it has left. -/
def Db.liveOrders (db : Db) (c : List ℕ) (symbol : String) (side : Side) :
    List (Resting ℕ ℚ ℚ) :=
  (db.orders.filter fun o => o.type = .LIMIT ∧ o.active = true ∧ o.id ∈ c ∧ o.market = symbol ∧
    sideToEngine o.side = side).map Order.atRest

/-- **What rests are the live orders.** -/
theorem Agrees.perm (h : Agrees c m) (symbol : String) (side : Side) :
    ((m.queues symbol).queue side).Perm (m.db.liveOrders c symbol side) := by
  refine (List.perm_ext_iff_of_nodup (nodup_queue m symbol side).of_map ?_).mpr fun r => ?_
  · have hkeys : (m.db.orders.map (·.id)).Nodup := List.Pairwise.imp ne_of_lt h.sound.keys
    have hids : ((m.db.liveOrders c symbol side).map (·.id)).Nodup := by
      rw [Db.liveOrders, List.map_map]
      exact hkeys.sublist (List.filter_sublist.map _)
    exact hids.of_map
  · rw [h.mem_queue, Db.liveOrders, List.mem_map]
    refine exists_congr fun o => ?_
    rw [List.mem_filter, decide_eq_true_eq]
    constructor
    · rintro ⟨ho, ht, ha, hc, hm, hs, rfl⟩
      exact ⟨⟨ho, ht, ha, hc, hm, hs⟩, rfl⟩
    · rintro ⟨⟨ho, ht, ha, hc, hm, hs⟩, rfl⟩
      exact ⟨ho, ht, ha, hc, hm, hs, rfl⟩

/-- **The feed shows the live orders.** In every failure-free run the last snapshot that was
published of a market, an empty one before the first, shows the best prices of its live `LIMIT`
orders whose `SUBMIT` was consumed, up to `bookLimit` of them on each side, best first, and at each
of these prices exactly what the orders have left. -/
theorem snapshot_depicts (h : m.Initial) (steps : List Step) (hf : FailureFree [] m steps)
    (symbol : String) (side : Side) :
    Depicts side bookLimit ((m.run steps).db.liveOrders (m.consumed [] steps) symbol side)
      (((m.run steps).db.shown symbol).levels side) :=
  (run_shown h hf symbol side).perm ((run_agrees (initial_agrees h) hf).perm symbol side)

theorem snapshot_depicts_bidding :
    (Sample.exchange.run Sample.bidding).db.shown "BTC-USDT" = ⟨[⟨100, 1⟩], [⟨90, 1⟩]⟩ ∧
    Depicts .bid bookLimit ((Sample.exchange.run Sample.bidding).db.liveOrders
        (Sample.exchange.consumed [] Sample.bidding) "BTC-USDT" .bid)
      (((Sample.exchange.run Sample.bidding).db.shown "BTC-USDT").levels .bid) :=
  ⟨by decide +kernel, snapshot_depicts Sample.exchange_initial Sample.bidding
    Sample.bidding_failureFree "BTC-USDT" .bid⟩

end Orbit
