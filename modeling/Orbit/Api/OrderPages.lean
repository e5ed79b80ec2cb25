import Orbit.Api.DlqPages
import Orbit.Foundations.Cursors
import Orbit.Matcher.Requests

/-!
# The pages of orders

`list` of `apps/api/src/admin/orders/admin-orders.service.ts`, on a table that does not stand still:
between one page and the next the exchange makes any number of steps.

All filters but the one on the status are on columns that are never rewritten. With these alone,
the pages show together the orders that were there and matched when the first page was read, however
many are placed in between. An order can leave a status, though, and enter another. If the order of
a cursor has left, the query leaves out the next order in its place.

* `orders_listed`: the pages of a listing without statuses.
* `orders_listed_status`: what holds with statuses, as long as the order of each cursor still has
  one of them.
-/

namespace Orbit.AdminOrders

open Cursors

/-! ## The listing -/

/-- `opts`; a cursor is the number that its text stands for, and so is a date. Without statuses, all
match. -/
structure ListOptions where
  userId : Option String
  market : Option String
  statuses : List OrderStatus
  since : Option ℕ
  «until» : Option ℕ
  take : Option ℕ
  cursor : Option ℕ
  deriving DecidableEq, Repr

/-- An order of the response. -/
structure Listed where
  id : String
  userId : String
  market : String
  side : OrderSide
  type : OrderType
  price : Option ℚ
  quantity : ℚ
  leaveQty : ℚ
  filledQty : ℚ
  status : OrderStatus
  createdAt : ℕ
  deriving DecidableEq, Repr

structure ListPage where
  items : List Listed
  nextCursor : Option ℕ
  deriving DecidableEq, Repr

def ListOptions.pageSize (opts : ListOptions) : ℕ := min (opts.take.getD 50) 200

-- the database dates a row when it is inserted, and nothing rewrites the date
variable (createdAt : ℕ → ℕ)

/-- The `where` of the query, but for the statuses. -/
def ListOptions.concerns (opts : ListOptions) (o : Order) : Bool :=
  Dlq.given opts.userId o.userId && Dlq.given opts.market o.market &&
  opts.since.all (fun date => decide (date ≤ createdAt o.id)) &&
  opts.until.all (fun date => decide (createdAt o.id ≤ date))

/-- The `where` of the query. -/
def ListOptions.selects (opts : ListOptions) (o : Order) : Bool :=
  opts.concerns createdAt o && decide (opts.statuses = [] ∨ o.status ∈ opts.statuses)

def present (o : Order) : Listed :=
  { id := Nat.repr o.id
    userId := o.userId
    market := o.market
    side := o.side
    type := o.type
    price := o.price
    quantity := o.quantity
    leaveQty := o.leaveQty
    filledQty := o.filledQty
    status := o.status
    createdAt := createdAt o.id }

def list (table : List Order) (opts : ListOptions) : ListPage :=
  let page := page (·.id) (opts.selects createdAt) opts.pageSize opts.cursor table
  { items := page.items.map (present createdAt), nextCursor := page.next }

/-- The items of the pages from a cursor on, each read from the next of the tables; `none` if there
are more pages. -/
def follow (opts : ListOptions) : Option ℕ → List (List Order) → Option (List Listed)
  | _, [] => none
  | cursor, table :: tables =>
    let page := list createdAt table { opts with cursor }
    match page.nextCursor with
    | none => some page.items
    | some c => (follow opts (some c) tables).map (page.items ++ ·)

variable {createdAt} {opts : ListOptions}

theorem follow_eq (cursor : Option ℕ) (tables : List (List Order)) :
    follow createdAt opts cursor tables =
      (walk (·.id) (opts.selects createdAt) opts.pageSize cursor tables).map
        (·.map (present createdAt)) := by
  induction tables generalizing cursor with
  | nil => rfl
  | cons table tables ih =>
    have hlist : list createdAt table { opts with cursor } =
        ⟨(page (·.id) (opts.selects createdAt) opts.pageSize cursor table).items.map
          (present createdAt),
          (page (·.id) (opts.selects createdAt) opts.pageSize cursor table).next⟩ := rfl
    rw [follow, walk, hlist]
    generalize page (·.id) (opts.selects createdAt) opts.pageSize cursor table = p
    obtain ⟨items, _ | c⟩ := p
    · rfl
    · dsimp only
      rw [ih, Option.map_map, Option.map_map]
      refine congrArg (Option.map · _) (funext fun later => ?_)
      exact (List.map_append).symm

/-! ## The table of a running exchange -/

section Tables

variable {E : Engine} {m : Matcher E}

/-- **The ids of the orders increase**, as they were placed. -/
structure Filed (m : Matcher E) : Prop where
  safe : Safe m
  increasing : (m.db.orders.map (·.id)).Pairwise (· < ·)

theorem id_of_places {l : Step} {o : Order} (ho : o ∈ m.places l) :
    m.places l = [o] ∧ o.id = m.store.seqs.order + 1 := by
  cases l with
  | submit userId dto faults =>
    rcases h : OrderService.submit userId dto { m.store with faults } with ⟨_ | o', s'⟩
    · simp only [Matcher.places, h] at ho
      cases ho
    · simp only [Matcher.places, h, List.mem_singleton] at ho ⊢
      subst ho
      obtain ⟨market, cmd, hp⟩ := OrderService.submit_eq_ok h
      exact ⟨rfl, hp.id⟩
  | _ => cases ho

/-- The ids after a step. -/
theorem step_ids (hs : Safe m) (l : Step) : (m.step l).db.orders.map (·.id) =
    m.db.orders.map (·.id) ++ (m.places l).map (·.id) := by
  have h := congrArg (List.map fun o : Order => o.id) (step_asPlaced hs l)
  rwa [List.map_append, List.map_map, List.map_map] at h

theorem Filed.step (h : Filed m) (l : Step) : Filed (m.step l) := by
  refine ⟨step_safe h.safe l, ?_⟩
  rw [step_ids h.safe l, List.pairwise_append]
  refine ⟨h.increasing, ?_, fun i hi j hj => ?_⟩
  · rcases hplaces : m.places l with _ | ⟨o, os⟩
    · exact List.Pairwise.nil
    · obtain ⟨hone, -⟩ := id_of_places (m := m) (l := l) (o := o) (by simp [hplaces])
      rw [← hplaces, hone]
      exact List.pairwise_singleton _ _
  · obtain ⟨x, hx, rfl⟩ := List.mem_map.mp hi
    obtain ⟨o, ho, rfl⟩ := List.mem_map.mp hj
    have hle := h.safe.sound.ids x hx
    have hnew := (id_of_places ho).2
    omega

theorem Filed.run (h : Filed m) (steps : List Step) : Filed (m.run steps) :=
  Matcher.run_invariant (I := Filed) (fun _ l hm => hm.step l) h steps

theorem initial_filed (h : m.Initial) : Filed m where
  safe := initial_safe h
  increasing := by
    rw [h.orders]
    exact List.Pairwise.nil

/-- The tables that the pages are read from: before each page the exchange makes steps. -/
def tables (m : Matcher E) : List (List Step) → List (List Order)
  | [] => []
  | ls :: lss => (m.run ls).db.orders :: tables (m.run ls) lss

theorem exists_run_of_mem_tables {lss : List (List Step)} {t : List Order} (ht : t ∈ tables m lss) :
    ∃ steps, t = (m.run steps).db.orders := by
  induction lss generalizing m with
  | nil => cases ht
  | cons ls lss ih =>
    rcases List.mem_cons.mp ht with rfl | ht
    · exact ⟨ls, rfl⟩
    · obtain ⟨steps, rfl⟩ := ih ht
      exact ⟨ls ++ steps, by rw [Matcher.run_append]⟩

theorem growing_tables (h : Filed m) (lss : List (List Step)) : Growing (·.id) (tables m lss) where
  increasing t ht := by
    obtain ⟨steps, rfl⟩ := exists_run_of_mem_tables ht
    exact (h.run steps).increasing
  kept := by
    induction lss generalizing m with
    | nil => exact List.Pairwise.nil
    | cons ls lss ih =>
      refine List.pairwise_cons.mpr ⟨fun t ht => ?_, ih (h.run ls)⟩
      obtain ⟨steps, rfl⟩ := exists_run_of_mem_tables ht
      have heq := congrArg (List.map fun o : Order => o.id) (run_asPlaced (h.run ls).safe steps)
      rw [List.map_append, List.map_map, List.map_map] at heq
      exact ⟨_, heq.symm⟩

/-- A row is later what it was when it was placed. -/
theorem Filed.asPlaced (h : Filed m) {steps : List Step} {o o' : Order} (ho : o ∈ m.db.orders)
    (ho' : o' ∈ (m.run steps).db.orders) (hid : o'.id = o.id) : o'.asPlaced = o.asPlaced := by
  have hmem : o.asPlaced ∈ (m.run steps).db.orders.map Order.asPlaced := by
    rw [run_asPlaced h.safe steps]
    exact List.mem_append_left _ (List.mem_map_of_mem ho)
  obtain ⟨x, hx, he⟩ := List.mem_map.mp hmem
  have hnodup := (h.run steps).increasing.imp fun {_ _} hlt => ne_of_lt hlt
  have hxid : x.id = o'.id := (congrArg Order.id he).trans hid.symm
  rw [← List.inj_on_of_nodup_map hnodup hx ho' hxid, he]

theorem concerns_asPlaced (createdAt : ℕ → ℕ) (opts : ListOptions) (o : Order) :
    opts.concerns createdAt o.asPlaced = opts.concerns createdAt o := rfl

/-- Without statuses the filter is on columns that are never rewritten. -/
theorem steady_tables (h : Filed m) (hst : opts.statuses = []) (lss : List (List Step)) :
    Steady (·.id) (opts.selects createdAt) (tables m lss) := by
  have hselects : ∀ o, opts.selects createdAt o = opts.concerns createdAt o.asPlaced := fun o => by
    rw [ListOptions.selects, hst, concerns_asPlaced, decide_eq_true (.inl rfl), Bool.and_true]
  induction lss generalizing m with
  | nil => exact List.Pairwise.nil
  | cons ls lss ih =>
    refine List.pairwise_cons.mpr ⟨fun t ht o ho o' ho' hid => ?_, ih (h.run ls)⟩
    obtain ⟨steps, rfl⟩ := exists_run_of_mem_tables ht
    rw [hselects, hselects, (h.run ls).asPlaced ho ho' hid]

end Tables

/-! ## Listings -/

section Listings

variable {E : Engine} {m : Matcher E}

theorem length_tables (m : Matcher E) (lss : List (List Step)) :
    (tables m lss).length = lss.length := by
  induction lss generalizing m with
  | nil => rfl
  | cons ls lss ih => exact congrArg (· + 1) (ih (m.run ls))

namespace PagesSample

/-- Pages of one order. -/
def singly (statuses : List OrderStatus) : ListOptions :=
  ⟨none, some "BTC-USDT", statuses, none, none, some 1, none⟩

/-- After the first page `alice` places another order, and it is matched. -/
def meanwhile : List (List Step) :=
  [[.submit "alice" (Sample.limit .BID 100 1) none,
      .deliver (Sample.submitted 6 3 "alice" (Sample.limit .BID 100 1)) none], []]

/-- What the pages are read from. -/
def observed : List (List Order) :=
  tables Sample.exchange (Sample.trading :: meanwhile)

end PagesSample

/-- **A listing with statuses**, as long as the order of each cursor still has one of them when the
page behind it is read: it ends, shows no order twice and none that was placed after the first page,
and it misses no order that matches all the time. -/
theorem orders_listed_status (h : m.Initial) (createdAt : ℕ → ℕ) (opts : ListOptions)
    (hn : 0 < opts.pageSize) (first : List Step) (lss : List (List Step))
    (hlen : (m.run first).db.orders.length < opts.pageSize * (lss.length + 1))
    (ha : Anchored (·.id) (opts.selects createdAt) opts.pageSize none (tables m (first :: lss))) :
    ∃ items : List Order, follow createdAt opts none (tables m (first :: lss)) =
        some (items.map (present createdAt)) ∧
      (items.Pairwise fun o o' => o'.id < o.id) ∧
      (∀ o ∈ items, opts.selects createdAt o = true ∧
        (∃ t ∈ tables m (first :: lss), o ∈ t) ∧ ((m.run first).db.order? o.id).isSome) ∧
      ∀ id, (∀ t ∈ tables m (first :: lss), ∃ o ∈ t, o.id = id ∧ opts.selects createdAt o = true) →
        ∃ o ∈ items, o.id = id := by
  have hg : Growing (·.id) ((m.run first).db.orders :: tables (m.run first) lss) :=
    growing_tables (initial_filed h) (first :: lss)
  obtain ⟨items, hw⟩ := Option.isSome_iff_exists.mp (walk_isSome hg ha (by
    refine (List.length_filter_le _ _).trans_lt ?_
    rwa [List.length_map, length_tables]))
  obtain ⟨hpair, hall⟩ := walk_sound hn hg ha hw
  refine ⟨items, ?_, hpair, fun o ho => ⟨(hall o ho).2.1, (hall o ho).2.2, ?_⟩, fun id hid => ?_⟩
  · rw [follow_eq]
    exact congrArg (Option.map _) hw
  · exact Table.find?_isSome.mpr (mem_head_of_walk hn hg ha hw ho)
  · exact List.mem_map.mp (walk_complete hn hg ha hw (fun _ hc => by cases hc) hid)

/-- The order of the first cursor is `FILLED` and stays so, and the other one comes to be. -/
theorem orders_listed_status_filled : Sample.exchange.Initial ∧
    (follow (fun _ => 0) (PagesSample.singly [.PARTIAL, .FILLED]) none PagesSample.observed).map
      (·.map fun o => (o.id, o.status)) = some [("2", .FILLED), ("1", .FILLED)] ∧
    ∃ items : List Order, follow (fun _ => 0) (PagesSample.singly [.PARTIAL, .FILLED]) none
      PagesSample.observed = some (items.map (present fun _ => 0)) ∧
      items.Pairwise fun o o' => o'.id < o.id := by
  obtain ⟨items, hfollow, hpair, -, -⟩ := orders_listed_status Sample.exchange_initial
    (fun _ => 0) (PagesSample.singly [.PARTIAL, .FILLED]) (by decide) Sample.trading
    PagesSample.meanwhile (by decide +kernel) (by decide +kernel)
  exact ⟨Sample.exchange_initial, by decide +kernel, items, hfollow, hpair⟩

-- The order of a cursor may leave: `bob`'s ask is `OPEN` on the first page and `FILLED` on the
-- second, and so the bid of `alice`, which is `OPEN` all the time, is not shown.
example : (follow (fun _ => 0) (PagesSample.singly [.OPEN]) none (tables Sample.exchange
    [[.submit "alice" (Sample.limit .BID 90 1) none,
        .deliver (Sample.submitted 0 1 "alice" (Sample.limit .BID 90 1)) none,
        .submit "bob" (Sample.limit .ASK 100 1) none,
        .deliver (Sample.submitted 3 2 "bob" (Sample.limit .ASK 100 1)) none],
      [.submit "alice" (Sample.limit .BID 100 1) none,
        .deliver (Sample.submitted 6 3 "alice" (Sample.limit .BID 100 1)) none]])).map
      (·.map fun o => (o.id, o.status)) = some [("2", .OPEN)] := by
  decide +kernel

end Listings

end Orbit.AdminOrders
