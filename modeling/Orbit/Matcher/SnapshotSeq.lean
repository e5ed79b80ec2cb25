import Orbit.Foundations.Sequences
import Orbit.Matcher.Commute

/-!
# The numbers of the snapshots

Each snapshot of a book carries the next number of one counter of the process, `orderbookSeq`, which
is there to show consumers what they have missed. It counts the snapshots of all markets, and it is
not set back when a transaction fails after it has drawn a number, so that the numbers of one market
are not consecutive in general.

* `Matcher.Commits.read`: the commit of a command adds one snapshot, of the book that it leaves and
  with the next number; `step_snapshots`: no other step adds any.
* `snapshots_consecutive_iff`: from any reachable state on, the numbers of every market are
  consecutive, and show what is lost, exactly when every command that commits finds the counter at
  the number of the last snapshot of its market, if there is one.
* `inStep_iff`: a command is in step when its market has no snapshot yet, or has the last number
  that was drawn. A command that commits draws a number, and so may one that fails
  (`step_draws`, `Matcher.Commits.draws`).
* `snapshots_skip`: two markets that take turns.
-/

namespace Orbit

open PriceTime Settler Consumer

variable {E : Engine} {m m' : Matcher E}

/-! ## Snapshots in the outbox -/

/-- The number of a row that holds a snapshot of the market. -/
def snapshotSeqOf (symbol : String) : Topic × String × Payload → Option ℕ
  | (.ORDERBOOK, _, .orderbook evt) => if evt.market = symbol then some evt.seq else none
  | _ => none

/-- The numbers of the snapshots of a market, in the order of their rows, after
the first `n` rows. -/
def Db.snapshotSeqs (db : Db) (n : ℕ) (symbol : String) : List ℕ :=
  ((db.outbox.drop n).map (·.content)).filterMap (snapshotSeqOf symbol)

/-- A command is no snapshot. -/
theorem snapshotSeqs_of_commands {s s' : Store}
    (h : Store.Appended OutboxEvent.IsCommand s s') {n : ℕ}
    (hn : n ≤ s.db.outbox.length) (symbol : String) :
    s'.db.snapshotSeqs n symbol = s.db.snapshotSeqs n symbol :=
  read_of_commands h hn fun _ _ => rfl

theorem snapshotSeqOf_ne {topic : Topic} (h : topic ≠ .ORDERBOOK) (symbol key : String)
    (payload : Payload) : snapshotSeqOf symbol (topic, key, payload) = none := by
  cases topic with
  | ORDERBOOK => exact absurd rfl h
  | _ => rfl

/-! ## The steps -/

section Read

variable {γ : Type} {f : Topic × String × Payload → Option γ}

/-- A `SUBMIT` publishes one snapshot. -/
theorem read_submitContents
    (hf : ∀ topic key payload, topic ≠ .ORDERBOOK → f (topic, key, payload) = none) (o : Order)
    (rows : List Trade) (symbol : String) (q : Queues) (v w : Uuid) (seq ts : ℕ) :
    (submitContents o rows symbol q v w seq ts).filterMap f =
      (f (snapshotContent symbol (snapshotOf q) w seq ts)).toList := by
  have horder : f (orderContent .ORDER_ADDED o symbol v ts) = none := hf _ _ _ (by decide)
  have htrades : (tradesContents symbol ts rows).filterMap f = [] :=
    filterMap_tradesContents_eq_nil _ _ _ fun t matchId => by simp [tradeContents, hf]
  rw [submitContents, List.filterMap_cons, horder, List.filterMap_append, htrades]
  cases h : f (snapshotContent symbol (snapshotOf q) w seq ts) <;> simp [h]

/-- And so does a `CANCEL`. -/
theorem read_cancelContents
    (hf : ∀ topic key payload, topic ≠ .ORDERBOOK → f (topic, key, payload) = none) (o : Order)
    (q : Queues) (v v' w : Uuid) (seq ts : ℕ) :
    (cancelContents o q v v' w seq ts).filterMap f =
      (f (snapshotContent o.market (snapshotOf q) w seq ts)).toList := by
  have horder : f (orderContent .ORDER_CANCELLED o o.market v ts) = none := hf _ _ _ (by decide)
  have huser : f (cancelledContent o v' ts) = none := hf _ _ _ (by decide)
  rw [cancelContents, List.filterMap_cons, horder, List.filterMap_cons, huser]
  cases h : f (snapshotContent o.market (snapshotOf q) w seq ts) <;> simp [h]

/-- **A commit publishes one snapshot**, of the book that it leaves and with the next number. -/
theorem Matcher.Commits.read (hs : Safe m) {cmd : OrderCommand} {faults : Option ℕ}
    (h : m.Commits cmd faults)
    (hf : ∀ topic key payload, topic ≠ .ORDERBOOK → f (topic, key, payload) = none) {n : ℕ}
    (hn : n ≤ m.db.outbox.length) :
    ∃ u ts, (m.deliver cmd faults).db.read n f = m.db.read n f ++
      (f (snapshotContent cmd.symbol (snapshotOf ((m.deliver cmd faults).queues cmd.symbol)) u
        (m.orderbookSeq + 1) ts)).toList := by
  obtain ⟨m₁, hd, e⟩ := h.deliver_eq
  rw [e, Matcher.db_withFaults]
  cases cmd with
  | SUBMIT cmd =>
    rcases dispatch_submit_published hd with ⟨hne, -⟩
      | ⟨-, o, persisted, rows, -, -, -, v, w, ts, hadds⟩
    · exact absurd rfl hne
    refine ⟨w, ts, ?_⟩
    rw [hadds.read hn, read_submitContents hf]
    rfl
  | CANCEL cmd =>
    obtain ⟨market, order, hw⟩ := h.cancel hs
    rcases dispatch_cancel_published hd with hdb
      | ⟨-, o, persisted, ho, hpersisted, v, v', w, ts, hadds⟩
    · -- a commit rewrites the row
      obtain ⟨_, _, _, _, _, hwrote⟩ := hw.wrote
      obtain ⟨out, hout, hcontents⟩ := hwrote.outbox
      rw [e, Matcher.db_withFaults, hdb] at hout
      obtain rfl : out = [] := List.append_right_eq_self.mp hout.symm
      cases hcontents
    obtain rfl : o = order := Option.some.inj (ho.symm.trans hw.horder)
    have hs₀ := hs.of_same (m.same_withFaults faults)
    obtain ⟨o', ho', hfix⟩ := cancel_fixed (dispatch_cancel hd) ((Db.order?_id ho).symm ▸ ho)
    obtain rfl : o' = persisted := Option.some.inj (ho'.symm.trans hpersisted)
    refine ⟨w, ts, ?_⟩
    rw [hadds.read hn, read_cancelContents hf, hfix.market, hw.hsymbol]
    rfl

end Read

/-- The snapshot of a commit is numbered next. -/
theorem Matcher.Commits.snapshot (hs : Safe m) {cmd : OrderCommand} {faults : Option ℕ}
    (h : m.Commits cmd faults) {n : ℕ} (hn : n ≤ m.db.outbox.length) (symbol : String) :
    (m.deliver cmd faults).db.snapshotSeqs n symbol = m.db.snapshotSeqs n symbol ++
      if cmd.symbol = symbol then [m.orderbookSeq + 1] else [] := by
  obtain ⟨u, ts, hread⟩ := h.read hs
    (fun _ key payload ht => snapshotSeqOf_ne ht symbol key payload) hn
  have hseq : (snapshotSeqOf symbol (snapshotContent cmd.symbol
      (snapshotOf ((m.deliver cmd faults).queues cmd.symbol)) u (m.orderbookSeq + 1) ts)).toList =
      if cmd.symbol = symbol then [m.orderbookSeq + 1] else [] := by
    simp only [snapshotSeqOf, snapshotContent]
    split <;> rfl
  rw [hseq] at hread
  exact hread

/-- No other step publishes one. -/
theorem step_snapshots (hs : Safe m) {l : Step}
    (hl : ∀ cmd faults, l = .deliver cmd faults → ¬m.Commits cmd faults) {n : ℕ}
    (hn : n ≤ m.db.outbox.length) (symbol : String) :
    (m.step l).db.snapshotSeqs n symbol = m.db.snapshotSeqs n symbol := by
  by_cases hd : ∃ cmd faults, l = .deliver cmd faults
  · obtain ⟨cmd, faults, rfl⟩ := hd
    have hdb := (deliver_db hs cmd faults).resolve_left (hl cmd faults rfl)
    rw [show m.step (.deliver cmd faults) = m.deliver cmd faults from rfl, hdb]
  · exact snapshotSeqs_of_commands (step_appends m fun cmd faults e =>
      hd ⟨cmd, faults, e⟩) hn symbol

/-! ## The counter -/

namespace Settler

variable {α β : Type}

/-- A run of `x` draws one number for a snapshot, or fails before that. -/
def DrawsOne (x : Act E α) : Prop :=
  ∀ m, (x m).2.orderbookSeq = m.orderbookSeq + 1 ∨
    (x m).2.orderbookSeq = m.orderbookSeq ∧ ∃ e, (x m).1 = .error e

theorem DrawsOne.after {x : Act E α} {f : α → Act E β} (hx : Unnumbered x)
    (hf : ∀ a, DrawsOne (f a)) : DrawsOne (x >>= f) := by
  intro m
  rcases h : x m with ⟨e | a, m₁⟩
  · rw [Tx.bind_apply_error h]
    exact Or.inr ⟨hx.of_eq h, e, rfl⟩
  · rw [Tx.bind_apply_ok h, ← hx.of_eq h]
    exact hf a m₁

theorem DrawsOne.before {x : Act E α} {f : α → Act E β} (hx : DrawsOne x)
    (hf : ∀ a, Unnumbered (f a)) : DrawsOne (x >>= f) := by
  intro m
  have hrun := hx m
  rcases h : x m with ⟨e | a, m₁⟩
  · rw [h] at hrun
    rw [Tx.bind_apply_error h]
    exact hrun.imp_right fun hrun => ⟨hrun.1, e, rfl⟩
  · rw [h] at hrun
    rw [Tx.bind_apply_ok h, hf a m₁]
    rcases hrun with hrun | ⟨-, e, he⟩
    · exact Or.inl hrun
    · cases he

/-- The number is not given back when the transaction fails. -/
theorem DrawsOne.transaction {x : Act E α} (hx : DrawsOne x) : DrawsOne (transaction x) := by
  have hstmt : Unnumbered (onStore Stm.stmt : Act E Unit) := unnumbered_onStore _
  have hbody : DrawsOne (onStore Stm.stmt >>= fun _ => x >>= fun a =>
      onStore Stm.stmt >>= fun _ => Pure.pure a : Act E α) :=
    .after hstmt fun _ => hx.before fun a => hstmt.bind fun _ => .pure a
  intro m
  have hrun := hbody m
  rcases h : (onStore Stm.stmt >>= fun _ => x >>= fun a =>
      onStore Stm.stmt >>= fun _ => Pure.pure a : Act E α) m with ⟨e | a, m₁⟩
  · rw [h] at hrun
    rw [Settler.transaction, Tx.transaction_apply_error h]
    exact hrun.imp_right fun hrun => ⟨hrun.1, e, rfl⟩
  · rw [h] at hrun
    rw [Settler.transaction, Tx.transaction_eq_ok.mpr h]
    exact hrun

theorem drawsOne_publishSnapshot (symbol : String) :
    DrawsOne (publishSnapshot symbol : Act E Unit) := by
  have hbook : Unnumbered (getOrderbook symbol : Act E Snapshot) := fun _ => rfl
  have hnext : DrawsOne (nextOrderbookSeq : Act E ℕ) := fun _ => Or.inl rfl
  exact .after hbook fun _ => .after (unnumbered_onStore _) fun _ => hnext.before fun _ =>
    (unnumbered_onStore _).bind fun _ => unnumbered_onStore _

theorem drawsOne_submitBody (market : Market) (order : Order) (cmd : OrderSubmitCommand) :
    DrawsOne (submitBody market order cmd : Act E (Order × List Trade)) := by
  refine .after (unnumbered_matchSubmit _ _ _ _) fun trades => .after (unnumbered_onStore _)
    fun persisted => ?_
  have hpublish : DrawsOne (publishSubmitEvents persisted trades cmd.symbol : Act E Unit) :=
    .after (unnumbered_onStore _) fun _ => drawsOne_publishSnapshot _
  exact hpublish.before fun _ => .pure _

theorem drawsOne_cancelBody (market : Market) (order : Order) :
    DrawsOne (cancelBody market order : Act E Order) := by
  refine .after (unnumbered_bookCancel _ _) fun _ => .after (unnumbered_onStore _) fun _ =>
    .after (unnumbered_onStore _) fun persisted => ?_
  have hpublish : DrawsOne (publishCancelEvents persisted : Act E Unit) :=
    .after (unnumbered_onStore _) fun _ => drawsOne_publishSnapshot _
  exact hpublish.before fun _ => .pure _

/-- What a settlement whose transaction draws a number does to the counter. -/
theorem DrawsOne.settled {x : Act E α} (hx : DrawsOne x) {r : Except Failure (Option α)}
    {m₀ : Matcher E} (hseq : m₀.orderbookSeq = m.orderbookSeq)
    (h : (Settler.transaction x >>= fun a => pure (some a)) m₀ = (r, m')) :
    m'.orderbookSeq = m.orderbookSeq + 1 ∧ r ≠ .ok none ∨
      m'.orderbookSeq = m.orderbookSeq ∧ ∃ e, r = .error e := by
  have hrun := hx.transaction.before (fun a => Unnumbered.pure (some a)) m₀
  rw [h, hseq] at hrun
  refine hrun.imp_left fun hrun => ⟨hrun, ?_⟩
  rintro rfl
  obtain ⟨a, m₁, -, h⟩ := Tx.bind_eq_ok.mp h
  cases (Tx.pure_eq_ok.mp h).1

end Settler

/-- **What a command does to the counter**: one that draws a number has found its order live, and
one that draws none does not commit. -/
theorem dispatch_counter {cmd : OrderCommand} {r : Except Failure Result}
    (h : dispatch cmd m = (r, m')) :
    m'.orderbookSeq = m.orderbookSeq + 1 ∧
      (∃ o, m.db.order? cmd.orderId = some o ∧ o.terminal = false) ∧
      (r = .ok .ok ∨ ∃ e, r = .error e) ∨
    m'.orderbookSeq = m.orderbookSeq ∧
      ((∃ o, m.db.order? cmd.orderId = some o ∧ o.terminal = false) → r ≠ .ok .ok) := by
  cases cmd with
  | SUBMIT cmd =>
    rcases hs : settleSubmit cmd m with ⟨r₁, m₁⟩
    rw [dispatch_submit_of_settle hs] at h
    rcases settleSubmit_cases hs with ⟨n, -, -, rfl, f, rfl⟩ | ⟨rfl, ⟨f, rfl⟩, -⟩ |
      ⟨market, order, f, -, ho, -, hlive, -, -, htx⟩
    · obtain ⟨rfl, rfl⟩ := Prod.mk.inj h
      exact Or.inr ⟨rfl, fun _ => nofun⟩
    · obtain ⟨rfl, rfl⟩ := Prod.mk.inj h
      exact Or.inr ⟨rfl, fun _ => nofun⟩
    have hseq : ((m.withFaults f).setBook cmd.symbol (m.book cmd.symbol)).orderbookSeq =
      m.orderbookSeq := rfl
    rcases (drawsOne_submitBody market order cmd).settled hseq htx with
      ⟨hdrawn, hne⟩ | ⟨hkept, e, rfl⟩
    · rcases r₁ with e | _ | a
      · obtain ⟨rfl, rfl⟩ := Prod.mk.inj h
        exact Or.inl ⟨hdrawn, ⟨order, ho, hlive⟩, Or.inr ⟨e, rfl⟩⟩
      · exact absurd rfl hne
      · obtain ⟨rfl, rfl⟩ := Prod.mk.inj h
        exact Or.inl ⟨hdrawn, ⟨order, ho, hlive⟩, Or.inl rfl⟩
    · obtain ⟨rfl, rfl⟩ := Prod.mk.inj h
      exact Or.inr ⟨hkept, fun _ => nofun⟩
  | CANCEL cmd =>
    rcases hs : settleCancel cmd m with ⟨r₁, m₁⟩
    rw [dispatch_cancel_of_settle hs] at h
    rcases settleCancel_cases hs with ⟨n, -, -, rfl, f, rfl⟩ |
      ⟨⟨f, rfl⟩, ⟨rfl, -⟩ | ⟨order, ho, ⟨rfl, hterm⟩ | ⟨rfl, -⟩⟩⟩ |
      ⟨market, order, f, ho, -, hlive, -, -, htx⟩
    · obtain ⟨rfl, rfl⟩ := Prod.mk.inj h
      exact Or.inr ⟨rfl, fun _ => nofun⟩
    · obtain ⟨rfl, rfl⟩ := Prod.mk.inj h
      exact Or.inr ⟨rfl, fun _ => nofun⟩
    · -- an order that is closed is not cancelled again
      obtain ⟨rfl, rfl⟩ := Prod.mk.inj h
      refine Or.inr ⟨rfl, fun ⟨o, ho', hlive⟩ => ?_⟩
      obtain rfl : order = o := Option.some.inj (ho.symm.trans ho')
      rw [hterm] at hlive
      cases hlive
    · obtain ⟨rfl, rfl⟩ := Prod.mk.inj h
      exact Or.inr ⟨rfl, fun _ => nofun⟩
    have hseq : ((m.withFaults f).setBook order.market (m.book order.market)).orderbookSeq =
      m.orderbookSeq := rfl
    rcases (drawsOne_cancelBody market order).settled hseq htx with
      ⟨hdrawn, hne⟩ | ⟨hkept, e, rfl⟩
    · rcases r₁ with e | _ | a
      · obtain ⟨rfl, rfl⟩ := Prod.mk.inj h
        exact Or.inl ⟨hdrawn, ⟨order, ho, hlive⟩, Or.inr ⟨e, rfl⟩⟩
      · exact absurd rfl hne
      · obtain ⟨rfl, rfl⟩ := Prod.mk.inj h
        exact Or.inl ⟨hdrawn, ⟨order, ho, hlive⟩, Or.inl rfl⟩
    · obtain ⟨rfl, rfl⟩ := Prod.mk.inj h
      exact Or.inr ⟨hkept, fun _ => nofun⟩

/-- The step draws a number. -/
def Matcher.Draws (m : Matcher E) (l : Step) : Prop := (m.step l).orderbookSeq = m.orderbookSeq + 1

/-- A commit draws a number. -/
theorem Matcher.Commits.draws {cmd : OrderCommand} {faults : Option ℕ} (h : m.Commits cmd faults) :
    m.Draws (.deliver cmd faults) := by
  obtain ⟨m₁, hd, e⟩ := h.deliver_eq
  show (m.deliver cmd faults).orderbookSeq = _
  rw [e]
  rcases dispatch_counter hd with ⟨hdrawn, -⟩ | ⟨-, hnot⟩
  · exact hdrawn
  · exact absurd rfl (hnot h.live)

/-- **Who draws a number**: only a command that commits, or that fails after it. The counter of a
process stands still otherwise. -/
theorem step_draws (m : Matcher E) {l : Step} (hl : l ≠ .restart) :
    (m.Draws l ∧ ∃ cmd faults, l = .deliver cmd faults ∧ (m.Commits cmd faults ∨
      ∃ e, (dispatch cmd (m.withFaults faults)).1 = .error e)) ∨
    (m.step l).orderbookSeq = m.orderbookSeq := by
  cases l with
  | submit userId dto faults => exact Or.inr rfl
  | cancel userId orderId faults => exact Or.inr rfl
  | forceCancel orderId faults => exact Or.inr rfl
  | restart => exact absurd rfl hl
  | marketUpdate symbol input faults => exact Or.inr rfl
  | adjust userId asset field delta faults => exact Or.inr rfl
  | tick now => exact Or.inr rfl
  | deliver cmd faults =>
    unfold Matcher.Draws
    rw [show m.step (.deliver cmd faults) = m.deliver cmd faults from rfl]
    rcases deliver_eq m cmd faults with ⟨-, h⟩ | ⟨hcmd, r, m₁, hd, h⟩
    · exact Or.inr (by rw [h])
    rw [h]
    have hok := congrArg Prod.fst hd
    rcases dispatch_counter hd with ⟨hdrawn, hlive, rfl | ⟨e, rfl⟩⟩ | ⟨hkept, -⟩
    · exact Or.inl ⟨hdrawn, cmd, faults, rfl, Or.inl ⟨hcmd, hlive, hok⟩⟩
    · exact Or.inl ⟨hdrawn, cmd, faults, rfl, Or.inr ⟨e, hok⟩⟩
    · exact Or.inr hkept

/-! ## Runs -/

/-- A command that commits after the steps `taken` finds the counter at the number of the last
snapshot of its market since the state `start`, if there is one. -/
def InStep (start : Matcher E) (taken : List Step) : Step → Prop
  | .deliver cmd faults => (start.run taken).Commits cmd faults →
      ∀ seq ∈ ((start.run taken).db.snapshotSeqs start.db.outbox.length cmd.symbol).getLast?,
        seq = (start.run taken).orderbookSeq
  | _ => True

theorem run_outbox_le (m : Matcher E) (steps : List Step) :
    m.db.outbox.length ≤ (m.run steps).db.outbox.length := by
  obtain ⟨rows, e, -⟩ := (run_appended m steps).rows
  have hout : (m.run steps).db.outbox = m.db.outbox ++ rows := e
  rw [hout, List.length_append]
  exact Nat.le_add_right _ _

/-- **The numbers of the snapshots.** Since any state `start` that was reached, for instance
since the process was started, the numbers of the snapshots of each market are consecutive, so
that whoever misses one sees a gap and nobody else does, exactly when every command that
committed was in step. -/
theorem snapshots_consecutive_iff (h : m.Initial) (before steps : List Step) :
    (∀ symbol, Consecutive (((m.run before).run steps).db.snapshotSeqs
        (m.run before).db.outbox.length symbol) ∧
      ShowsLosses (((m.run before).run steps).db.snapshotSeqs
        (m.run before).db.outbox.length symbol)) ↔
    Justified (InStep (m.run before)) steps := by
  have hs := run_safe h before
  generalize m.run before = start at hs
  simp only [← consecutive_iff_showsLosses, and_self]
  induction steps using List.reverseRecOn with
  | nil =>
    refine iff_of_true (fun symbol => ?_) justified_nil
    rw [Matcher.run_nil, Db.snapshotSeqs, List.drop_length]
    exact .nil
  | append_singleton taken l ih =>
    have hlen := run_outbox_le start taken
    have hsafe := Matcher.run_invariant (I := Safe) (fun _ l hs => step_safe hs l) hs taken
    rw [justified_concat, ← propext ih, Matcher.run_append, Matcher.run_cons, Matcher.run_nil]
    by_cases hc : ∃ cmd faults, l = .deliver cmd faults ∧ (start.run taken).Commits cmd faults
    · obtain ⟨cmd, faults, rfl, hc⟩ := hc
      have hsnapshot : ∀ symbol,
          ((start.run taken).step (.deliver cmd faults)).db.snapshotSeqs _ symbol = _ :=
        hc.snapshot hsafe hlen
      constructor
      · intro hall
        refine ⟨fun symbol => ?_, fun _ seq hseq => ?_⟩
        · have hnext := hall symbol
          rw [hsnapshot symbol] at hnext
          exact hnext.left
        · have hnext := hall cmd.symbol
          rw [hsnapshot cmd.symbol, if_pos rfl, Consecutive.concat_iff] at hnext
          exact (Nat.succ.inj (hnext.2 seq hseq)).symm
      · rintro ⟨hall, hin⟩ symbol
        rw [hsnapshot symbol]
        split
        · rename_i e
          rw [Consecutive.concat_iff]
          exact ⟨hall symbol, fun seq hseq => by rw [hin hc seq (e ▸ hseq)]⟩
        · rw [List.append_nil]
          exact hall symbol
    · have hl : ∀ cmd faults, l = .deliver cmd faults → ¬(start.run taken).Commits cmd faults :=
        fun cmd faults e hcommits => hc ⟨cmd, faults, e, hcommits⟩
      have hstep : InStep start taken l := by
        cases l with
        | deliver cmd faults => exact fun hcommits => absurd hcommits (hl cmd faults rfl)
        | _ => trivial
      simp only [step_snapshots hsafe hl hlen, hstep, and_true]

/-! ## Commands in step -/

section InStep

variable {start : Matcher E} {taken : List Step} {symbol : String}

/-- The step commits a command of the market. -/
def CommitsIn (start : Matcher E) (symbol : String) (taken : List Step) (l : Step) : Prop :=
  ∃ cmd faults, l = .deliver cmd faults ∧ cmd.symbol = symbol ∧
    (start.run taken).Commits cmd faults

/-- A step of a process, seen from one market: a commit of it, or none, with a number drawn or
not. -/
theorem step_seqs (hs : Safe (start.run taken)) {l : Step} (hl : l ≠ .restart) (symbol : String) :
    CommitsIn start symbol taken l ∧ (start.run taken).Draws l ∧
      ((start.run taken).step l).db.snapshotSeqs start.db.outbox.length symbol =
        (start.run taken).db.snapshotSeqs start.db.outbox.length symbol ++
          [(start.run taken).orderbookSeq + 1] ∨
    ¬CommitsIn start symbol taken l ∧
      ((start.run taken).Draws l ∨
        ((start.run taken).step l).orderbookSeq = (start.run taken).orderbookSeq) ∧
      ((start.run taken).step l).db.snapshotSeqs start.db.outbox.length symbol =
        (start.run taken).db.snapshotSeqs start.db.outbox.length symbol := by
  have hlen := run_outbox_le start taken
  have hcounter := (step_draws (start.run taken) hl).imp_left And.left
  by_cases hc : ∃ cmd faults, l = .deliver cmd faults ∧ (start.run taken).Commits cmd faults
  · obtain ⟨cmd, faults, rfl, hc⟩ := hc
    have hseqs := hc.snapshot hs hlen symbol
    by_cases hsymbol : cmd.symbol = symbol
    · rw [if_pos hsymbol] at hseqs
      exact Or.inl ⟨⟨cmd, faults, rfl, hsymbol, hc⟩, hc.draws, hseqs⟩
    · rw [if_neg hsymbol, List.append_nil] at hseqs
      refine Or.inr ⟨?_, hcounter, hseqs⟩
      rintro ⟨cmd', faults', e, hsymbol', -⟩
      obtain ⟨rfl, rfl⟩ := Step.deliver.inj e
      exact hsymbol hsymbol'
  · refine Or.inr ⟨fun ⟨cmd, faults, e, _, h⟩ => hc ⟨cmd, faults, e, h⟩, hcounter, ?_⟩
    exact step_snapshots hs (fun cmd faults e h => hc ⟨cmd, faults, e, h⟩) hlen symbol

/-- The numbers of a market that has had no commit, and of one that has. -/
theorem seqs_of_run (hs : Safe start) (hno : .restart ∉ taken) (symbol : String) :
    ((start.run taken).db.snapshotSeqs start.db.outbox.length symbol = [] ↔
      Justified (fun before l => ¬CommitsIn start symbol before l) taken) ∧
    (∀ seq ∈ (start.run taken).db.snapshotSeqs start.db.outbox.length symbol,
      seq ≤ (start.run taken).orderbookSeq) ∧
    ((start.run taken).orderbookSeq ∈
        ((start.run taken).db.snapshotSeqs start.db.outbox.length symbol).getLast? ↔
      Since (CommitsIn start symbol) (fun before l => (start.run before).Draws l) taken) := by
  induction taken using List.reverseRecOn with
  | nil =>
    have hnil : (start.run []).db.snapshotSeqs start.db.outbox.length symbol = [] := by
      rw [Matcher.run_nil, Db.snapshotSeqs, List.drop_length]
      rfl
    rw [hnil]
    refine ⟨by simp, by simp, iff_of_false (by simp) ?_⟩
    rintro ⟨before, e, after, h, -⟩
    simp at h
  | append_singleton taken l ih =>
    obtain ⟨hnil, hle, hlast⟩ := ih fun h => hno (List.mem_append_left _ h)
    have hl : l ≠ .restart := fun h => hno (by simp [h])
    have hsafe := Matcher.run_invariant (I := Safe) (fun _ l hs => step_safe hs l) hs taken
    rw [justified_concat, ← hnil, since_concat, ← hlast, Matcher.run_append, Matcher.run_cons,
      Matcher.run_nil]
    rcases step_seqs hsafe hl symbol with ⟨hcommit, hdraws, hseqs⟩ |
      ⟨hcommit, hdraws | hkept, hseqs⟩
    · rw [hseqs, show ((start.run taken).step l).orderbookSeq = _ from hdraws]
      refine ⟨by simp [hcommit], ?_, by simp [hcommit]⟩
      intro seq hseq
      rcases List.mem_append.mp hseq with hseq | hseq
      · exact (hle seq hseq).trans (Nat.le_succ _)
      · exact (List.mem_singleton.mp hseq).le
    · rw [hseqs, show ((start.run taken).step l).orderbookSeq = _ from hdraws]
      refine ⟨by simp [hcommit], fun seq hseq => (hle seq hseq).trans (Nat.le_succ _), ?_⟩
      -- a number that was drawn since is larger than any of the market
      refine iff_of_false (fun h => ?_) (by simp [hcommit, hdraws])
      exact absurd (hle _ (List.mem_of_getLast? h)) (by omega)
    · have hnot : ¬(start.run taken).Draws l := fun h => by
        unfold Matcher.Draws at h
        omega
      rw [hseqs, hkept]
      exact ⟨by simp [hcommit], hle, by simp [hcommit, hnot]⟩

/-- **When a command that commits is in step**: in a process that was not restarted, if its market
has had no commit before, or none of another market and no failure has drawn a number since the
last. -/
theorem inStep_iff (hs : Safe start) (hno : .restart ∉ taken) {cmd : OrderCommand}
    {faults : Option ℕ} (hc : (start.run taken).Commits cmd faults) :
    InStep start taken (.deliver cmd faults) ↔
      Justified (fun before l => ¬CommitsIn start cmd.symbol before l) taken ∨
      Since (CommitsIn start cmd.symbol) (fun before l => (start.run before).Draws l) taken := by
  obtain ⟨hnil, -, hlast⟩ := seqs_of_run hs hno cmd.symbol
  rw [← hnil, ← hlast, InStep]
  generalize (start.run taken).db.snapshotSeqs start.db.outbox.length cmd.symbol = seqs
  rcases seqs.eq_nil_or_concat with rfl | ⟨seqs, seq, rfl⟩
  · simp
  · simp [hc]

end InStep

open Sample

/-- The two commands of the run on one market are in step. -/
theorem snapshots_consecutive_trading : exchange.Initial ∧ Justified (InStep exchange) trading ∧
    (∀ symbol, Consecutive ((exchange.run trading).db.snapshotSeqs 0 symbol) ∧
      ShowsLosses ((exchange.run trading).db.snapshotSeqs 0 symbol)) ∧
    (exchange.run trading).db.snapshotSeqs 0 "BTC-USDT" = [1, 2] := by
  have hin : Justified (InStep exchange) trading := by
    simp only [trading, justified_cons, justified_nil, and_true]
    exact ⟨trivial, fun _ => by decide +kernel, trivial, fun _ => by decide +kernel⟩
  exact ⟨exchange_initial, hin, (snapshots_consecutive_iff exchange_initial [] trading).mpr hin,
    by decide +kernel⟩

/-- **A gap with nothing lost.** `bob` asks in two markets, and `alice` buys in the first one: the
second snapshot of that market has the number 3. -/
theorem snapshots_skip : twoMarkets.Initial ∧ Step.restart ∉ twoAsks ++ [.deliver btcBid none] ∧
    (twoMarkets.run (twoAsks ++ [.deliver btcBid none])).db.snapshotSeqs 0 "BTC-USDT" = [1, 3] ∧
    ¬Consecutive
      ((twoMarkets.run (twoAsks ++ [.deliver btcBid none])).db.snapshotSeqs 0 "BTC-USDT") ∧
    ¬ShowsLosses
      ((twoMarkets.run (twoAsks ++ [.deliver btcBid none])).db.snapshotSeqs 0 "BTC-USDT") := by
  have hseqs : (twoMarkets.run (twoAsks ++ [.deliver btcBid none])).db.snapshotSeqs 0 "BTC-USDT" =
      [1, 3] := by decide +kernel
  have hnot : ¬Consecutive [1, 3] := fun h => absurd (List.isChain_cons_cons.mp h).1 (by decide)
  refine ⟨twoMarkets_initial, by decide, hseqs, ?_, ?_⟩
  · rw [hseqs]
    exact hnot
  · rw [hseqs, ← consecutive_iff_showsLosses]
    exact hnot

end Orbit
