import Orbit.Matcher.Abort
import Orbit.Matcher.Replay

/-!
# Books and tables agree when nothing fails

In a run in which every transaction that starts matching commits, the book of a market holds exactly
its live `LIMIT` orders whose `SUBMIT` was consumed, each with what its row has left. The source
keeps the two in step by different means (the taker's row is written from what the engine returns, a
maker's from a read of its row, a sweep's from what it planned to take), and the invariant `Agrees`
says that they come to the same.

* `submit_agrees` and `cancel_agrees`: one command. The safe direction, that what rests is
  backed with equality, is `submit_tracked` and `cancel_tracked`; the other, that what is live
  rests, is `Submitted.rests`.
* `restart_agrees`: a restart with no `SUBMIT` pending. The live rows rest in one book, so they do
  not cross and are replayed whole.
-/

namespace Orbit

open PriceTime Settler Consumer

variable {E : Engine} {m m' : Matcher E}

/-! ## Consumed submits -/

/-- The order whose `SUBMIT` a step hands to the matcher. -/
def Matcher.consumes (m : Matcher E) : Step → List ℕ
  | .deliver (.SUBMIT cmd) _ => if .SUBMIT cmd ∈ m.db.commands then [cmd.orderId] else []
  | _ => []

/-- The orders whose `SUBMIT` was consumed, those of `c` and those of a run from `m`. -/
def Matcher.consumed (m : Matcher E) (c : List ℕ) : List Step → List ℕ
  | [] => c
  | l :: ls => (m.step l).consumed (m.consumes l ++ c) ls

/-- A delivery commits, or its transaction does not get to match: then it is not the `SUBMIT` of a
`LIMIT` order, but for one that rests already. A restart finds no `SUBMIT` pending. -/
def Step.Clean (c : List ℕ) (m : Matcher E) : Step → Prop
  | .deliver cmd faults => ∀ e m', dispatch cmd (m.withFaults faults) = (.error e, m') →
      BookSpared cmd (m.withFaults faults) ∧ ∀ sub order, cmd = .SUBMIT sub →
        m.db.order? sub.orderId = some order → order.type = .LIMIT →
        order.id ∈ (m.queues sub.symbol).ids
  | .restart => ∀ cmd, .SUBMIT cmd ∈ m.db.commands → cmd.orderId ∈ c
  | _ => True

/-- Every step of the run is clean. -/
def FailureFree (c : List ℕ) (m : Matcher E) : List Step → Prop
  | [] => True
  | l :: ls => l.Clean c m ∧ FailureFree (m.consumes l ++ c) (m.step l) ls

/-! ## The invariant -/

/-- **Books and tables agree**, when `c` are the orders whose `SUBMIT` was consumed. -/
structure Agrees (c : List ℕ) (m : Matcher E) : Prop where
  sound : m.store.Sound
  backed : Backed (· = ·) m
  /-- What rests was consumed. -/
  consumed : ∀ symbol, ∀ id ∈ (m.queues symbol).ids, id ∈ c
  /-- What is live and was consumed rests. -/
  rests : ∀ id o, m.db.order? id = some o → o.type = .LIMIT → o.active = true → id ∈ c →
    id ∈ (m.queues o.market).ids
  known : ∀ id ∈ c, (m.db.order? id).isSome
  /-- Every order has its `SUBMIT` in the outbox. -/
  submits : ∀ id o, m.db.order? id = some o → ∃ cmd, .SUBMIT cmd ∈ m.db.commands ∧ cmd.orderId = id

namespace Agrees

variable {c : List ℕ}

theorem of_same (h : Agrees c m) (hs : m.Same m') : Agrees c m' where
  sound := h.sound.congr hs.framed hs.db
  backed := h.backed.of_same hs
  consumed symbol id hid := h.consumed symbol id (by rwa [hs.queues] at hid)
  rests id o ho ht ha hc := by
    rw [hs.queues]
    exact h.rests id o (by rwa [hs.db] at ho) ht ha hc
  known id hid := by
    rw [hs.db]
    exact h.known id hid
  submits id o ho := by
    rw [hs.db] at ho ⊢
    exact h.submits id o ho

/-- An order that rests is backed by its row. -/
theorem backs (h : Agrees c m) {symbol : String} {id : ℕ} (hid : id ∈ (m.queues symbol).ids)
    {o : Order} (ho : m.db.order? id = some o) :
    o.type = .LIMIT ∧ o.market = symbol ∧ o.active = true ∧
      o.atRest ∈ (m.queues symbol).queue (sideToEngine o.side) := by
  obtain ⟨side, r, hr, rfl⟩ := Book.mem_ids.mp hid
  obtain ⟨o', hb⟩ := h.backed symbol side r hr
  obtain rfl : o' = o := Option.some.inj (hb.row.symm.trans ho)
  refine ⟨hb.type, hb.market, hb.active, ?_⟩
  have hrest : o'.atRest = r := by
    unfold Order.atRest
    rw [hb.price, ← hb.qty, Db.order?_id hb.row]
    rfl
  rw [hrest, hb.side]
  exact hr

/-- **The book, order by order.** -/
theorem mem_queue (h : Agrees c m) {symbol : String} {side : Side} {r : Resting ℕ ℚ ℚ} :
    r ∈ (m.queues symbol).queue side ↔ ∃ o ∈ m.db.orders, o.type = .LIMIT ∧ o.active = true ∧
      o.id ∈ c ∧ o.market = symbol ∧ sideToEngine o.side = side ∧ r = o.atRest := by
  constructor
  · intro hr
    obtain ⟨o, hb⟩ := h.backed symbol side r hr
    have hid := Db.order?_id hb.row
    refine ⟨o, Db.mem_of_order? hb.row, hb.type, hb.active, ?_, hb.market, hb.side, ?_⟩
    · rw [hid]
      exact h.consumed symbol _ (Book.mem_ids.mpr ⟨side, r, hr, rfl⟩)
    · unfold Order.atRest
      rw [hb.price, ← hb.qty, hid]
      rfl
  · rintro ⟨o, ho, ht, ha, hc, rfl, rfl, rfl⟩
    have hrow := h.sound.order?_of_mem ho
    exact (h.backs (h.rests _ _ hrow ht ha hc) hrow).2.2.2

end Agrees

/-! ## Commands -/

section Submit

variable {market : Market} {order : Order} {cmd : OrderSubmitCommand} {fs : List (Fill ℕ ℚ ℚ)}
  {finish : Order → Order} {release : List Posting} {q : Queues} {rest : List (Resting ℕ ℚ ℚ)}

/-- **A committed submit leaves resting what is live.** -/
theorem Settler.Submitted.rests (h : Submitted market order cmd fs finish release q m m')
    (hc : Crossing m cmd.symbol order finish fs rest) (hb : Backed (· = ·) m)
    (hopp : q.queue (sideToEngine order.side).opp = rest)
    (hown : ∀ r ∈ (m.queues cmd.symbol).queue (sideToEngine order.side),
      r ∈ q.queue (sideToEngine order.side))
    (hself : (finish order).type = .LIMIT → (finish order).active = true → order.id ∈ q.ids)
    {id : ℕ} {o : Order} (ho : m'.db.order? id = some o) (ht : o.type = .LIMIT)
    (ha : o.active = true) (hid : id = order.id ∨ id ∈ (m.queues o.market).ids) :
    id ∈ (m'.queues o.market).ids := by
  obtain ⟨htaker, hmakers, hothers⟩ := h.order? hc
  have hq := h.queues_eq
  by_cases h₁ : id = order.id
  · subst h₁
    obtain rfl : finish order = o := Option.some.inj (htaker.symm.trans ho)
    rw [(hc.fixed order).market, hc.market, hq]
    exact hself ht ha
  have hid := hid.resolve_left h₁
  by_cases h₂ : id ∈ fs.map (·.id)
  · -- a maker that is still live was filled in part
    obtain ⟨f, hf, rfl⟩ := List.mem_map.mp h₂
    obtain ⟨maker, hm, hm'⟩ := hmakers f hf
    obtain rfl : makerAfter maker f.qty maker = o := Option.some.inj (hm'.symm.trans ho)
    obtain ⟨maker', hmakes⟩ := hb.makes tracks_eq hc.consumed hf
    obtain rfl : maker' = maker := Option.some.inj (hmakes.row.symm.trans hm)
    obtain ⟨r, hr, hrid⟩ := hc.exists_resting h₂
    obtain ⟨o', hback⟩ := hb _ _ r hr
    obtain rfl : o' = maker' := Option.some.inj (hback.row.symm.trans (hrid ▸ hm))
    change f.id ∈ (m'.queues o'.market).ids
    rw [hmakes.market, hq]
    rcases hc.consumed.cases_of_mem (nodup_queue m _ _) hr with ⟨hmem, -⟩ |
      ⟨f', hf', hfid, hqty, -⟩ | ⟨f', hf', -, -, -, hmem⟩
    · exact Book.mem_ids.mpr ⟨_, r, hopp ▸ hmem, hrid⟩
    · exfalso
      obtain rfl : f' = f := List.inj_on_of_nodup_map hc.nodup hf' hf (hfid.trans hrid)
      have hzero : o'.leaveQty - f'.qty ≤ 0 := by rw [hqty, hback.qty, sub_self]
      simp [makerAfter, Order.active, hzero] at ha
    · exact Book.mem_ids.mpr ⟨_, { r with qty := r.qty - f'.qty }, hopp ▸ hmem, hrid⟩
  · by_cases hsym : o.market = cmd.symbol
    · rw [hsym] at hid ⊢
      rw [hq]
      obtain ⟨side, r, hr, rfl⟩ := Book.mem_ids.mp hid
      rcases (sideToEngine order.side).eq_or_eq_opp side with rfl | rfl
      · exact Book.mem_ids.mpr ⟨_, r, hown r hr, rfl⟩
      · rcases hc.consumed.cases_of_mem (nodup_queue m _ _) hr with ⟨hmem, -⟩ |
          ⟨f, hf, hfid, -, -⟩ | ⟨f, hf, hfid, -, -, -⟩
        · exact Book.mem_ids.mpr ⟨_, r, hopp ▸ hmem, rfl⟩
        · exact absurd (hfid ▸ List.mem_map_of_mem hf) h₂
        · exact absurd (hfid ▸ List.mem_map_of_mem hf) h₂
    · rwa [h.queues_ne _ hsym]

/-- What is left of an added order rests. -/
theorem mem_ids_add {b : Queues} {id : ℕ} {side : Side} {price qty : ℚ}
    (h : 0 < (b.add id side price qty).leave) : id ∈ (b.add id side price qty).book.ids := by
  refine Book.mem_ids.mpr ⟨side, ⟨id, price, (b.add id side price qty).leave⟩, ?_, rfl⟩
  rw [Book.queue_add, ← Book.add_leave b id, if_pos h]
  exact mem_enqueue.mpr (Or.inl rfl)

/-- What rests after a committed submit rested before, or is its order. -/
theorem mem_ids_committed {r : Result} (h : SubmitOutcome cmd m (.ok r) m')
    {symbol : String} {id : ℕ}
    (hid : id ∈ (m'.queues symbol).ids) : id ∈ (m.queues symbol).ids ∨ id = cmd.orderId := by
  cases h with
  | skipped hsame why =>
    rw [hsame.queues] at hid
    exact Or.inl hid
  | committedLimit market order price hb ht hp hfree hsub =>
    by_cases hsym : symbol = cmd.symbol
    · subst hsym
      rw [hsub.queues_eq] at hid
      obtain ⟨side, x, hx, rfl⟩ := Book.mem_ids.mp hid
      rcases (sideToEngine order.side).eq_or_eq_opp side with rfl | rfl
      · rcases mem_queue_add hx with hx | ⟨rfl, -⟩
        · exact Or.inl (Book.mem_ids.mpr ⟨_, x, hx, rfl⟩)
        · exact Or.inr (Db.order?_id hb.horder)
      · rw [Book.queue_opp_add] at hx
        have := (fill_consumed _ _ _).rest_map_id_sublist.subset (List.mem_map_of_mem hx)
        obtain ⟨y, hy, e⟩ := List.mem_map.mp this
        exact Or.inl (Book.mem_ids.mpr ⟨_, y, hy, e⟩)
    · rw [hsub.queues_ne symbol hsym] at hid
      exact Or.inl hid
  | committedMarket market order l hb ht hl hsub =>
    have hcommitted : SubmitOutcome cmd m (.ok .ok) m' :=
      .committedMarket market order l hb ht hl hsub
    exact Or.inl (submit_market_ids hcommitted hb.horder ht hid)

end Submit

namespace Agrees

variable {c : List ℕ}

/-- The orders known and their commands, across a change of the rows in place. -/
theorem known_submits (h : Agrees c m) (hf : m.store.Framed m'.store)
    (hkeys : m'.db.orders.map Table.key = m.db.orders.map Table.key) :
    (∀ id ∈ c, (m'.db.order? id).isSome) ∧
    ∀ id o, m'.db.order? id = some o → ∃ cmd, .SUBMIT cmd ∈ m'.db.commands ∧ cmd.orderId = id := by
  refine ⟨fun id hid => (Db.order?_isSome_of_keys hkeys id).mpr (h.known id hid), fun id o ho => ?_⟩
  obtain ⟨o₀, ho₀⟩ := Option.isSome_iff_exists.mp
    ((Db.order?_isSome_of_keys hkeys id).mp (Option.isSome_of_eq_some ho))
  obtain ⟨cmd, hcmd, hid⟩ := h.submits id o₀ ho₀
  refine ⟨cmd, ?_, hid⟩
  change _ ∈ m'.store.db.commands
  rw [hf.commands]
  exact hcmd

/-- One more order was consumed, and it rests if it is live. -/
theorem consume (h : Agrees c m) {id : ℕ} {o : Order} (ho : m.db.order? id = some o)
    (hrest : o.type = .LIMIT → o.active = true → id ∈ (m.queues o.market).ids) :
    Agrees (id :: c) m where
  sound := h.sound
  backed := h.backed
  consumed symbol k hk := List.mem_cons_of_mem _ (h.consumed symbol k hk)
  rests k x hx ht ha hk := by
    rcases List.mem_cons.mp hk with rfl | hk
    · obtain rfl : o = x := Option.some.inj (ho.symm.trans hx)
      exact hrest ht ha
    · exact h.rests k x hx ht ha hk
  known k hk := by
    rcases List.mem_cons.mp hk with rfl | hk
    · exact Option.isSome_of_eq_some ho
    · exact h.known k hk
  submits := h.submits

end Agrees

/-- **A submit that commits, or does not get to match, keeps books and tables in agreement.** -/
theorem submit_agrees {c : List ℕ} {cmd : OrderSubmitCommand} {r : Except Failure Result}
    (h : Agrees c m) (hcmd : .SUBMIT cmd ∈ m.db.commands) (ho : SubmitOutcome cmd m r m')
    (hclean : ∀ e, r = .error e → BookSpared (.SUBMIT cmd) m ∧ ∀ order,
      m.db.order? cmd.orderId = some order → order.type = .LIMIT →
      order.id ∈ (m.queues cmd.symbol).ids) : Agrees (cmd.orderId :: c) m' := by
  obtain ⟨order, horder, hmarket, hcommand⟩ := h.sound.commands _ hcmd
  have hid := Db.order?_id horder
  cases r with
  | error e =>
    obtain ⟨hspared, hrests⟩ := hclean e rfl
    obtain ⟨hdb, hqueues⟩ := submit_abort
      (fun o ho hlive => ((h.sound.rows _ _ ho).live hlive).2) ho
    have hsame : m.Same m' := ⟨ho.framed, hdb, hqueues.mpr hspared⟩
    refine (h.consume horder fun ht _ => ?_).of_same hsame
    rw [hmarket, ← hid]
    exact hrests order horder ht
  | ok r =>
    obtain ⟨hsound, hbacked⟩ := submit_tracked tracks_eq hcmd h.sound h.backed ho
    -- what every committed submit comes down to
    have hcommit : ∀ {market order fs finish release q rest},
        Submitted market order cmd fs finish release q m m' →
        Crossing m cmd.symbol order finish fs rest → order.id = cmd.orderId →
        q.queue (sideToEngine order.side).opp = rest →
        (∀ r ∈ (m.queues cmd.symbol).queue (sideToEngine order.side),
          r ∈ q.queue (sideToEngine order.side)) →
        ((finish order).type = .LIMIT → (finish order).active = true → order.id ∈ q.ids) →
        Agrees (cmd.orderId :: c) m' := by
      intro market order fs finish release q rest hsub hc hid hopp hown hself
      have hmem : ∀ k ∈ cmd.orderId :: c, (m.db.order? k).isSome := by
        intro k hk
        rcases List.mem_cons.mp hk with rfl | hk
        · exact Option.isSome_of_eq_some horder
        · exact h.known k hk
      obtain ⟨-, hsubmits⟩ := h.known_submits hsub.framed (hsub.map_key hc)
      refine ⟨hsound, hbacked, fun symbol k hk => ?_, fun k x hx ht ha hk => ?_,
        fun k hk => (Db.order?_isSome_of_keys (hsub.map_key hc) k).mpr (hmem k hk), hsubmits⟩
      · rcases mem_ids_committed ho hk with hk | rfl
        · exact List.mem_cons_of_mem _ (h.consumed symbol k hk)
        · exact List.mem_cons_self
      · refine hsub.rests hc h.backed hopp hown hself hx ht ha ?_
        obtain ⟨x₀, hx₀, hfix, -, hrow⟩ := hsub.exists_row hc h.sound tracks_eq h.backed hx
        by_cases hk' : k = order.id
        · exact Or.inl hk'
        have hact : x₀.active = true := by
          rcases hrow with e | hact | rfl
          · exact absurd e hk'
          · exact hact
          · exact ha
        rw [hfix.market]
        exact Or.inr (h.rests k x₀ hx₀ (hfix.type.symm.trans ht) hact
          ((List.mem_cons.mp hk).resolve_left (hid ▸ hk')))
    cases ho with
    | skipped hsame why =>
      obtain ⟨o, ho, hterm⟩ := terminal_of_skipped h.sound hcmd why
      refine (h.consume ho fun _ ha => ?_).of_same hsame
      rw [Order.active_eq_false hterm] at ha
      cases ha
    | committedLimit market order price hb ht hp hfree hsub =>
      refine hcommit hsub (crossing_limit price h.sound hcmd hb ht hfree) (Db.order?_id hb.horder)
        (Book.queue_opp_add _ _ _ _ _) (fun r hr => ?_) fun _ ha => ?_
      · rw [Book.queue_add]
        split
        · exact mem_enqueue.mpr (Or.inr hr)
        · exact hr
      · refine mem_ids_add ?_
        by_contra hn
        simp [orderAfterMatch, Order.active, not_lt.mp hn] at ha
    | committedMarket market order l hb ht hl hsub =>
      refine hcommit hsub (crossing_market h.sound h.backed hcmd hb ht hl) (Db.order?_id hb.horder)
        (Book.queue_set_self _ _ _) (fun r hr => ?_) fun hty _ => ?_
      · rwa [Book.queue_set_opp']
      · rw [(Order.Fixed.marketAfter order _ order).type, ht] at hty
        cases hty

/-- **A cancel that commits, or does not touch the book, keeps books and tables in agreement.** -/
theorem cancel_agrees {c : List ℕ} {cmd : OrderCancelCommand} {r : Except Failure Result}
    (h : Agrees c m) (ho : CancelOutcome cmd m r m')
    (hclean : ∀ e, r = .error e → BookSpared (.CANCEL cmd) m) : Agrees c m' := by
  cases r with
  | error e =>
    obtain ⟨hdb, hqueues⟩ := cancel_abort ho
    exact h.of_same ⟨ho.framed, hdb, hqueues.mpr (hclean e rfl)⟩
  | ok r =>
    obtain ⟨hsound, hbacked⟩ := cancel_tracked h.sound h.backed ho
    cases ho with
    | skipped r hsame why => exact h.of_same hsame
    | committed market order horder hm live hc =>
      obtain ⟨hknown, hsubmits⟩ := h.known_submits hc.framed
        (Db.map_key_of_modify hc.orders fun _ => rfl)
      refine ⟨hsound, hbacked, fun symbol id hid => h.consumed symbol id ?_,
        fun id o ho ht ha hid => ?_, hknown, hsubmits⟩
      · by_cases hs : symbol = order.market
        · subst hs
          rw [hc.queues_eq] at hid
          obtain ⟨side, x, hx, rfl⟩ := Book.mem_ids.mp hid
          rw [Book.queue_cancel, List.mem_filter] at hx
          exact Book.mem_ids.mpr ⟨side, x, hx.1, rfl⟩
        · rwa [hc.queues_ne symbol hs] at hid
      · -- a live row is not the cancelled one
        rw [Db.order?_of_modify hc.orders (fun _ => rfl)] at ho
        split at ho
        · obtain ⟨o₀, -, rfl⟩ := Option.map_eq_some_iff.mp ho
          simp [Order.active] at ha
        · rename_i hne
          obtain ⟨side, x, hx, rfl⟩ := Book.mem_ids.mp (h.rests id o ho ht ha hid)
          refine Book.mem_ids.mpr ⟨side, x, ?_, rfl⟩
          by_cases hs : o.market = order.market
          · rw [hs] at hx ⊢
            rw [hc.queues_eq, Book.queue_cancel, List.mem_filter]
            exact ⟨hx, by simpa using hne⟩
          · rwa [hc.queues_ne _ hs]

/-! ## Calls of the api -/

/-- An order is placed together with its `SUBMIT`, and commands are never withdrawn. -/
theorem ApiEffect.submits {A : WalletField → Prop} {s s' : Store} (he : ApiEffect A s s')
    (hs : s.Sound)
    (h : ∀ id o, s.db.order? id = some o → ∃ cmd, .SUBMIT cmd ∈ s.db.commands ∧ cmd.orderId = id)
    {id : ℕ} {o : Order} (ho : s'.db.order? id = some o) :
    ∃ cmd, .SUBMIT cmd ∈ s'.db.commands ∧ cmd.orderId = id := by
  cases he with
  | idle hseq hdb =>
    rw [hdb] at ho ⊢
    exact h id o ho
  | placed o' market cmd hp =>
    rw [hp.order? hs] at ho
    rw [hp.commands]
    split at ho
    · rename_i e
      exact ⟨cmd, by simp, hp.orderId.trans e.symm⟩
    · obtain ⟨cmd', hcmd', hid⟩ := h id o ho
      exact ⟨cmd', by simp [hcmd'], hid⟩
  | requested cmd o' hseq hr =>
    obtain ⟨row, -, -, hdb⟩ := hr.outbox
    rw [hdb] at ho ⊢
    obtain ⟨cmd', hcmd', hid⟩ := h id o ho
    refine ⟨cmd', ?_, hid⟩
    rw [Db.commands, List.filterMap_append]
    exact List.mem_append_left _ hcmd'
  | marketChanged symbol input hseq hdb =>
    rw [hdb] at ho ⊢
    exact h id o ho
  | adjusted userId asset field w value hfield hseq hw hn hdb =>
    rw [hdb] at ho ⊢
    exact h id o ho

/-- **A call of the api keeps books and tables in agreement.** -/
theorem api_agrees {A : WalletField → Prop} {c : List ℕ} (h : Agrees c m)
    (he : ApiEffect A m.store m'.store) (hbooks : m'.books = m.books) : Agrees c m' := by
  obtain ⟨hsound, hrows⟩ := he.sound h.sound
  have hqueues := Matcher.queues_congr hbooks
  -- rows that were there before are as they were, and a new one was not consumed
  have hback : ∀ id ∈ c, ∀ o, m'.db.order? id = some o → m.db.order? id = some o := by
    intro id hid o ho
    obtain ⟨o₀, ho₀⟩ := Option.isSome_iff_exists.mp (h.known id hid)
    obtain rfl : o₀ = o := Option.some.inj ((hrows id o₀ ho₀).symm.trans ho)
    exact ho₀
  refine ⟨hsound, h.backed.of_rows hbooks hrows, fun symbol id hid => ?_,
    fun id o ho ht ha hid => ?_,
    fun id hid => ?_, fun id o ho => ?_⟩
  · rw [hqueues] at hid
    exact h.consumed symbol id hid
  · rw [hqueues]
    exact h.rests id o (hback id hid o ho) ht ha hid
  · obtain ⟨o, ho⟩ := Option.isSome_iff_exists.mp (h.known id hid)
    exact Option.isSome_of_eq_some (hrows id o ho)
  · exact he.submits h.sound h.submits ho

/-! ## Restarts -/

/-- Every live `LIMIT` row rests with all that it has left. -/
def RestsWhole (m : Matcher E) : Prop :=
  ∀ o ∈ m.db.orders, o.type = .LIMIT → o.active = true →
    o.atRest ∈ (m.queues o.market).queue (sideToEngine o.side)

section Restart

/-- Live rows that rest in the books can be replayed without a match. -/
theorem replayable_openOrders (hs : m.store.Sound) (hrest : RestsWhole m) :
    MatchingEngine.Replayable (MatchingEngine.openOrders m.db) where
  priced o ho := by
    obtain ⟨hmem, ha, ht⟩ := MatchingEngine.mem_openOrders.mp ho
    obtain ⟨p, hp, -⟩ := (hs.rows _ _ (hs.order?_of_mem hmem)).limit ht
    exact Option.isSome_of_eq_some hp
  pos o ho := by
    obtain ⟨hmem, ha, ht⟩ := MatchingEngine.mem_openOrders.mp ho
    exact ((hs.rows _ _ (hs.order?_of_mem hmem)).live (Order.terminal_eq_false ha)).2
  ids := MatchingEngine.openOrders_pairwise hs.keys
  uncrossed o ho o' ho' hm hside := by
    obtain ⟨hmem, ha, ht⟩ := MatchingEngine.mem_openOrders.mp ho
    obtain ⟨hmem', ha', ht'⟩ := MatchingEngine.mem_openOrders.mp ho'
    have hr' := hrest o' hmem' ht' ha'
    rw [hm, hside] at hr'
    exact (m.queues_wf o.market).uncrossed _ _ (hrest o hmem ht ha) _ hr'

/-- When the live rows rest, nothing else does. -/
theorem RestsWhole.mem_queue (hrest : RestsWhole m) (hb : Backed (· ≤ ·) m) {symbol : String}
    {side : Side} {r : Resting ℕ ℚ ℚ} : r ∈ (m.queues symbol).queue side ↔
      ∃ o ∈ MatchingEngine.openOrders m.db, o.market = symbol ∧ sideToEngine o.side = side ∧
        r = o.atRest := by
  constructor
  · intro hr
    obtain ⟨o, ho⟩ := hb symbol side r hr
    have hmem := Db.mem_of_order? ho.row
    have hrest' := hrest o hmem ho.type ho.active
    rw [ho.market, ho.side] at hrest'
    exact ⟨o, MatchingEngine.mem_openOrders.mpr ⟨hmem, ho.active, ho.type⟩, ho.market, ho.side,
      List.inj_on_of_nodup_map (nodup_queue m symbol side) hr hrest' (Db.order?_id ho.row).symm⟩
  · rintro ⟨o, ho, rfl, rfl, rfl⟩
    obtain ⟨hmem, ha, ht⟩ := MatchingEngine.mem_openOrders.mp ho
    exact hrest o hmem ht ha

/-- **A restart of a matcher whose books hold the live rows** drops no trade, and its books hold the
same orders, those of one price in the order of their ids. -/
theorem restart_perm (hs : Safe m) (hrest : RestsWhole m) :
    MatchingEngine.droppedTrades (MatchingEngine.enabledBooks m.db : String → Option E.Book)
      (MatchingEngine.openOrders m.db) = [] ∧
    ∀ symbol side,
      (((MatchingEngine.restart m).queues symbol).queue side).Perm ((m.queues symbol).queue side) ∧
      Ranked side (((MatchingEngine.restart m).queues symbol).queue side) := by
  obtain ⟨hdrop, hholds⟩ := MatchingEngine.replay_exact (E := E)
    (MatchingEngine.queues_enabledBooks m.db) (replayable_openOrders hs.sound hrest)
  refine ⟨hdrop, fun symbol side => ⟨?_, hholds.ranked symbol side⟩⟩
  refine (List.perm_ext_iff_of_nodup ?_ ?_).mpr fun r => ?_
  · exact (nodup_queue (MatchingEngine.restart m) symbol side).of_map
  · exact (nodup_queue m symbol side).of_map
  · exact (hholds.mem symbol side r).trans (hrest.mem_queue hs.backed).symm

variable {c : List ℕ}

theorem Agrees.safe (h : Agrees c m) : Safe m := by
  refine ⟨h.sound, fun symbol side r hr => ?_⟩
  obtain ⟨o, ho⟩ := h.backed symbol side r hr
  exact ⟨o, { ho with qty := ho.qty.le }⟩

/-- With no `SUBMIT` pending, every live `LIMIT` row rests. -/
theorem Agrees.restsWhole (h : Agrees c m)
    (hc : ∀ cmd, .SUBMIT cmd ∈ m.db.commands → cmd.orderId ∈ c) : RestsWhole m := by
  intro o ho ht ha
  obtain ⟨cmd, hcmd, hid⟩ := h.submits _ _ (h.sound.order?_of_mem ho)
  exact h.mem_queue.mpr ⟨o, ho, ht, ha, hid ▸ hc cmd hcmd, rfl, rfl, rfl⟩

theorem restart_agrees (h : Agrees c m)
    (hc : ∀ cmd, .SUBMIT cmd ∈ m.db.commands → cmd.orderId ∈ c) :
    Agrees c (MatchingEngine.restart m) := by
  obtain ⟨-, hperm⟩ := restart_perm h.safe (h.restsWhole hc)
  have hids : ∀ symbol id, id ∈ ((MatchingEngine.restart m).queues symbol).ids ↔
      id ∈ (m.queues symbol).ids := by
    intro symbol id
    simp only [Book.mem_ids, (hperm symbol _).1.mem_iff]
  refine ⟨h.sound, fun symbol side r hr => ?_, fun symbol id hid => ?_, fun id o ho ht ha hid => ?_,
    h.known, h.submits⟩
  · exact h.backed symbol side r ((hperm symbol side).1.mem_iff.mp hr)
  · exact h.consumed symbol id ((hids symbol id).mp hid)
  · exact (hids _ _).mpr (h.rests id o ho ht ha hid)

end Restart

/-! ## Runs -/

theorem step_agrees {c : List ℕ} (h : Agrees c m) {l : Step} (hl : l.Clean c m) :
    Agrees (m.consumes l ++ c) (m.step l) := by
  by_cases hd : ∃ cmd faults, l = .deliver cmd faults
  · obtain ⟨cmd, faults, rfl⟩ := hd
    change Agrees _ (m.deliver cmd faults)
    have h₀ := h.of_same (m.same_withFaults faults)
    rcases deliver_eq m cmd faults with ⟨hcmd, e⟩ | ⟨hcmd, r, m₁, hd, e⟩
    · rw [e]
      cases cmd with
      | SUBMIT cmd =>
        rw [Matcher.consumes, if_neg hcmd]
        exact h
      | CANCEL cmd => exact h
    · rw [e]
      refine Agrees.of_same ?_ (m₁.same_withFaults none)
      cases cmd with
      | SUBMIT cmd =>
        rw [Matcher.consumes, if_pos hcmd]
        refine submit_agrees h₀ hcmd (dispatch_submit_of_sound h₀.sound hd) ?_
        rintro e rfl
        obtain ⟨hspared, hrests⟩ := hl e m₁ hd
        exact ⟨hspared, fun order ho ht => hrests cmd order rfl ho ht⟩
      | CANCEL cmd =>
        refine cancel_agrees h₀ (dispatch_cancel hd) ?_
        rintro e rfl
        exact (hl e m₁ hd).1
  by_cases hr : l = .restart
  · subst hr
    exact restart_agrees h hl
  · obtain ⟨heffect, hbooks⟩ := step_effect m l.adjusts_any
      (fun cmd faults e => hd ⟨cmd, faults, e⟩) hr
    have hnil : m.consumes l = [] := by
      cases l with
      | deliver cmd faults => exact absurd ⟨cmd, faults, rfl⟩ hd
      | _ => rfl
    rw [hnil]
    exact api_agrees h heffect hbooks

theorem initial_agrees (h : m.Initial) : Agrees [] m := by
  have hnone : ∀ id, m.db.order? id = none := by
    intro id
    unfold Db.order?
    rw [h.orders]
    rfl
  refine ⟨initial_sound h, fun symbol side r hr => ?_, fun symbol id hid => ?_, fun id o ho => ?_,
    fun id hid => ?_, fun id o ho => ?_⟩
  · rw [h.queues, Book.queue_empty] at hr
    cases hr
  · rw [h.queues] at hid
    cases hid
  · rw [hnone] at ho
    cases ho
  · cases hid
  · rw [hnone] at ho
    cases ho

theorem run_agrees {c : List ℕ} (h : Agrees c m) {steps : List Step} (hf : FailureFree c m steps) :
    Agrees (m.consumed c steps) (m.run steps) := by
  induction steps generalizing m c with
  | nil => exact h
  | cons l ls ih => exact ih (step_agrees h hf.1) hf.2

/-- **Book/DB agreement.** After every failure-free run the book of each market holds exactly its
`OPEN` and `PARTIAL` `LIMIT` orders whose `SUBMIT` was consumed, each with what its row has left;
and a restart with no `SUBMIT` pending drops no trade and rebuilds books with the same orders. -/
theorem book_agrees (h : m.Initial) (steps : List Step) (hf : FailureFree [] m steps) :
    (∀ symbol side r, r ∈ ((m.run steps).queues symbol).queue side ↔
      ∃ o ∈ (m.run steps).db.orders, o.type = .LIMIT ∧ (o.status = .OPEN ∨ o.status = .PARTIAL) ∧
        o.id ∈ m.consumed [] steps ∧ o.market = symbol ∧ sideToEngine o.side = side ∧
        r.id = o.id ∧ o.price = some r.price ∧ r.qty = o.leaveQty) ∧
    ((∀ cmd, .SUBMIT cmd ∈ (m.run steps).db.commands → cmd.orderId ∈ m.consumed [] steps) →
      MatchingEngine.droppedTrades
        (MatchingEngine.enabledBooks (m.run steps).db : String → Option E.Book)
        (MatchingEngine.openOrders (m.run steps).db) = [] ∧
      ∀ symbol side, (((MatchingEngine.restart (m.run steps)).queues symbol).queue side).Perm
        (((m.run steps).queues symbol).queue side)) := by
  have hagrees := run_agrees (initial_agrees h) hf
  refine ⟨fun symbol side r => ?_, fun hc => ?_⟩
  · rw [hagrees.mem_queue]
    refine exists_congr fun o => and_congr_right fun ho => ?_
    have hrow := hagrees.sound.rows _ _ (hagrees.sound.order?_of_mem ho)
    have hact : o.active = true ↔ o.status = .OPEN ∨ o.status = .PARTIAL := by simp [Order.active]
    rw [hact]
    refine and_congr_right fun ht => ?_
    obtain ⟨p, hp, -⟩ := hrow.limit ht
    obtain ⟨id, price, qty⟩ := r
    simp [Order.atRest, hp, eq_comm]
  · obtain ⟨hdrop, hperm⟩ := restart_perm hagrees.safe (hagrees.restsWhole hc)
    exact ⟨hdrop, fun symbol side => (hperm symbol side).1⟩

/-- A delivery that returns is clean. -/
theorem Step.clean_of_ok {c : List ℕ} {cmd : OrderCommand} {faults : Option ℕ} {r : Result}
    (h : (dispatch cmd (m.withFaults faults)).1 = .ok r) : (Step.deliver cmd faults).Clean c m := by
  intro e m' he
  rw [he] at h
  cases h

theorem Sample.trading_failureFree : FailureFree [] Sample.exchange Sample.trading :=
  ⟨trivial, Step.clean_of_ok (r := .ok) (by decide +kernel), trivial,
    Step.clean_of_ok (r := .ok) (by decide +kernel), trivial⟩

/-- What is left of the order of `bob` rests. -/
theorem book_agrees_trading : FailureFree [] Sample.exchange Sample.trading ∧
    ⟨1, 100, 1⟩ ∈ ((Sample.exchange.run Sample.trading).queues "BTC-USDT").queue .ask := by
  refine ⟨Sample.trading_failureFree, ?_⟩
  rw [(book_agrees Sample.exchange_initial Sample.trading Sample.trading_failureFree).1]
  exact ⟨⟨1, "bob", "BTC-USDT", .ASK, .LIMIT, some 100, 2, 1, 1, .PARTIAL, some ⟨0⟩⟩,
    by decide +kernel, rfl, Or.inr rfl, by decide +kernel, rfl, rfl, rfl, rfl, rfl⟩

end Orbit
