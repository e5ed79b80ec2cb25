import Orbit.Matcher.Agreement

/-!
# Redelivery

Kafka delivers a command at least once, and nothing but the guards of the settler keeps a second
copy from being settled again: a closed order is skipped by its status, and the `SUBMIT` of an order
that rests is refused by the book, inside the transaction and before any other statement. A copy
then does nothing at all, down to the counters, and a run with copies ends in the state of the run
without them (`redelivery_harmless`).

* `Settled`: what was delivered is closed or rests. It is `Agrees` and what the guards read.
* `settled_copy`: a copy of what was settled.
* `step_settled`: a step of a run in which everything commits.
-/

namespace Orbit

open PriceTime Settler Consumer Tx

variable {E : Engine} {m m' : Matcher E}

/-! ## Books are not dropped -/

/-- Every market that has a book keeps one. -/
def Matcher.Grows (m m' : Matcher E) : Prop := ∀ symbol, (m.books symbol).isSome →
    (m'.books symbol).isSome

theorem Matcher.Grows.trans {m₁ m₂ m₃ : Matcher E} (h₁ : m₁.Grows m₂) (h₂ : m₂.Grows m₃) :
    m₁.Grows m₃ := fun symbol h => h₂ symbol (h₁ symbol h)

theorem Matcher.grows_of_books (h : m'.books = m.books) : m.Grows m' := fun symbol hs => by rwa [h]

theorem Matcher.grows_setBook (m : Matcher E) (symbol : String) (b : E.Book) :
    m.Grows (m.setBook symbol b) := by
  intro s hs
  by_cases h : s = symbol
  · subst h
    simp [Matcher.setBook]
  · simpa [Matcher.setBook, h] using hs

namespace Settler

/-- The computation drops no book. -/
abbrev KeepsBooks {α : Type} (x : Act E α) : Prop := Keeps Matcher.Grows x

theorem bookRelation_grows : BookRelation (fun _ => True) (Matcher.Grows (E := E)) where
  of_books := Matcher.grows_of_books
  trans := Matcher.Grows.trans
  setBook _ m b := m.grows_setBook _ b

end Settler

theorem Consumer.keepsBooks_dispatch (cmd : OrderCommand) :
    KeepsBooks (dispatch cmd : Act E Result) := by
  have hR := bookRelation_grows (E := E)
  cases cmd with
  | SUBMIT cmd =>
    refine keeps_bind hR ?_ fun r => ?_
    · unfold settleSubmitWith
      refine keeps_bind hR (keeps_onStore hR _) fun market => ?_
      split
      · refine keeps_bind hR (keeps_onStore hR _) fun order => ?_
        split
        · split
          · exact keeps_pure hR _
          · split
            · exact keeps_pure hR _
            · exact keeps_bind hR (keeps_getEngine hR trivial) fun _ =>
                keeps_bind hR (keeps_transaction hR (keeps_submitBody hR _ _ trivial)) fun _ =>
                  keeps_pure hR _
        · exact keeps_pure hR _
      · exact keeps_pure hR _
    · split
      · exact keeps_bind hR (keeps_getEngine hR trivial) fun _ => keeps_pure hR _
      · exact keeps_pure hR _
  | CANCEL cmd =>
    refine keeps_bind hR ?_ fun r => ?_
    · unfold settleCancel
      refine keeps_bind hR (keeps_onStore hR _) fun order => ?_
      split
      · split
        · exact keeps_pure hR _
        · refine keeps_bind hR (keeps_onStore hR _) fun market => ?_
          split
          · exact keeps_bind hR (keeps_getEngine hR trivial) fun _ =>
              keeps_bind hR (keeps_transaction hR (keeps_cancelBody hR _ trivial)) fun _ =>
                keeps_pure hR _
          · exact keeps_pure hR _
      · exact keeps_pure hR _
    · split
      · exact keeps_bind hR (keeps_getEngine hR trivial) fun _ => keeps_pure hR _
      · exact keeps_pure hR _

/-! ## Copies -/

/-- `getEngine` does nothing for a market that has a book. -/
theorem Matcher.setBook_book {symbol : String} (h : (m.books symbol).isSome) :
    m.setBook symbol (m.book symbol) = m := by
  obtain ⟨b, hb⟩ := Option.isSome_iff_exists.mp h
  have hbooks : Function.update m.books symbol (some (m.book symbol)) = m.books := by
    rw [Matcher.book, hb, Option.getD_some, ← hb, Function.update_eq_self]
  unfold Matcher.setBook
  rw [hbooks]

/-- An order rests in a book that exists. -/
theorem Matcher.books_isSome {symbol : String} {id : ℕ} (h : id ∈ (m.queues symbol).ids) :
    (m.books symbol).isSome := by
  cases hb : m.books symbol with
  | some b => rfl
  | none =>
    exfalso
    unfold Matcher.queues Matcher.book at h
    rw [hb, Option.getD_none, E.resting_new] at h
    cases h

/-- **A `SUBMIT` of an order that rests is refused and leaves no trace.** -/
theorem transaction_resting {market : Market} {order : Order} {cmd : OrderSubmitCommand}
    (ht : order.type = .LIMIT) (h0 : 0 < order.leaveQty)
    (hid : order.id ∈ (m.queues cmd.symbol).ids)
    {r : Except Failure (Order × List Trade)}
    (h : transaction (submitBody market order cmd) m = (r, m')) :
    (∃ e, r = .error e) ∧ ∃ f, m' = m.withFaults f := by
  rcases transaction_cases h with ⟨-, rfl, rfl⟩ | ⟨-, ⟨e, rfl, rfl⟩ | ⟨a, m₁, f, rfl, hbody, -⟩⟩
  · exact ⟨⟨_, rfl⟩, m'.store.faults, rfl⟩
  · refine ⟨⟨e, rfl⟩, m.store.faults.map Nat.pred, ?_⟩
    rcases submitBody_limit_snd ht h0 cmd market (m.withFaults (m.store.faults.map Nat.pred)) with
      ⟨-, hbody⟩ | ⟨price, -, hfree, -⟩
    · rw [hbody]
      rfl
    · exact absurd hid hfree
  · obtain ⟨price, -, hfree, -⟩ := submitBody_limit_eq_ok ht h0 hbody
    exact absurd hid hfree

/-- A copy of the command finds nothing to do: the order of a `CANCEL` is closed, and that of a
`SUBMIT` is closed or a `LIMIT` order, which rests as long as it is live. -/
def Absorbed (c : List ℕ) (m : Matcher E) : OrderCommand → Prop
  | .SUBMIT cmd => cmd.orderId ∈ c ∧
      ∃ o, m.db.order? cmd.orderId = some o ∧ (o.type = .LIMIT ∨ o.terminal = true)
  | .CANCEL cmd => (m.books cmd.symbol).isSome ∧
      ∃ o, m.db.order? cmd.orderId = some o ∧ o.terminal = true

/-- Everything that was delivered is settled. -/
structure Settled (c : List ℕ) (seen : List OrderCommand) (m : Matcher E) : Prop where
  agrees : Agrees c m
  faults : m.store.faults = none
  absorbed : ∀ cmd ∈ seen, Absorbed c m cmd

section Copy

variable {c c' : List ℕ} {seen : List OrderCommand}

/-- **A copy of a `SUBMIT` that was settled** changes nothing. -/
theorem copy_submit (h : Settled c seen m) {cmd : OrderSubmitCommand} (hseen : .SUBMIT cmd ∈ seen)
    (hcmd : .SUBMIT cmd ∈ m.db.commands) (faults : Option ℕ) :
    ∃ f, (dispatch (.SUBMIT cmd) (m.withFaults faults)).2 = m.withFaults f := by
  obtain ⟨hc, o, ho, hsettled⟩ := h.absorbed _ hseen
  rcases hs : settleSubmit cmd (m.withFaults faults) with ⟨r, m₁⟩
  rw [dispatch_submit_of_settle hs]
  rcases settleSubmit_cases hs with ⟨n, -, -, rfl, f, rfl⟩ | ⟨rfl, ⟨f, rfl⟩, -⟩ |
    ⟨market, order, f, -, horder, -, hlive, -, -, htx⟩
  · exact ⟨f, rfl⟩
  · exact ⟨f, rfl⟩
  -- the order is live: it is a `LIMIT` order, and rests
  obtain rfl : o = order := Option.some.inj (ho.symm.trans horder)
  have htype : o.type = .LIMIT := hsettled.resolve_right (by simp [hlive])
  have hrow := h.agrees.sound.rows _ _ ho
  obtain ⟨hact, hpos⟩ := hrow.live hlive
  obtain ⟨o', ho', hmarket, -⟩ := h.agrees.sound.commands _ hcmd
  obtain rfl : o' = o := Option.some.inj (ho'.symm.trans ho)
  have hid : o'.id ∈ (m.queues cmd.symbol).ids := by
    rw [Db.order?_id ho, ← hmarket]
    exact h.agrees.rests _ _ ho htype hact hc
  rw [Matcher.withFaults_withFaults, show (m.withFaults faults).book = m.book from rfl,
    show m.book = (m.withFaults f).book from rfl,
    Matcher.setBook_book (m := m.withFaults f) (Matcher.books_isSome hid)] at htx
  rcases ht : transaction (submitBody market o' cmd) (m.withFaults f) with ⟨r₂, m₂⟩
  obtain ⟨⟨e, rfl⟩, f', rfl⟩ := transaction_resting htype hpos (m := m.withFaults f) hid ht
  rw [Tx.bind_apply_error ht, Prod.mk.injEq] at htx
  obtain ⟨rfl, rfl⟩ := htx
  exact ⟨f', rfl⟩

/-- **A copy of a `CANCEL` that was settled** changes nothing. -/
theorem copy_cancel (h : Settled c seen m) {cmd : OrderCancelCommand} (hseen : .CANCEL cmd ∈ seen)
    (faults : Option ℕ) : ∃ f, (dispatch (.CANCEL cmd) (m.withFaults faults)).2 =
    m.withFaults f := by
  obtain ⟨hbook, o, ho, hterm⟩ := h.absorbed _ hseen
  rcases hs : settleCancel cmd (m.withFaults faults) with ⟨r, m₁⟩
  rw [dispatch_cancel_of_settle hs]
  rcases settleCancel_cases hs with ⟨n, -, -, rfl, f, rfl⟩ |
    ⟨⟨f, rfl⟩, ⟨rfl, -⟩ | ⟨order, -, ⟨rfl, -⟩ | ⟨rfl, -⟩⟩⟩ |
    ⟨market, order, f, horder, -, hlive, -, -, -⟩
  · exact ⟨f, rfl⟩
  · exact ⟨f, rfl⟩
  · exact ⟨f, Matcher.setBook_book (m := m.withFaults f) hbook⟩
  · exact ⟨f, rfl⟩
  · obtain rfl : o = order := Option.some.inj (ho.symm.trans horder)
    rw [hlive] at hterm
    cases hterm

/-- **A copy of what was settled changes nothing.** -/
theorem settled_copy (h : Settled c seen m) {cmd : OrderCommand} (hseen : cmd ∈ seen)
    (faults : Option ℕ) : m.step (.deliver cmd faults) = m := by
  change m.deliver cmd faults = m
  rcases deliver_eq m cmd faults with ⟨-, e⟩ | ⟨hcmd, r, m₁, hd, e⟩
  · exact e
  have hcopy : ∃ f, (dispatch cmd (m.withFaults faults)).2 = m.withFaults f := by
    cases cmd with
    | SUBMIT cmd => exact copy_submit h hseen hcmd faults
    | CANCEL cmd => exact copy_cancel h hseen faults
  obtain ⟨f, hf⟩ := hcopy
  rw [hd] at hf
  change m₁ = m.withFaults f at hf
  rw [e, hf, Matcher.withFaults_withFaults, Matcher.withFaults_self h.faults]

/-! ## Runs -/

/-- What was settled stays so across a step that keeps books and tables in agreement. -/
theorem Settled.step (h : Settled c seen m) (l : Step) (hc : ∀ id ∈ c, id ∈ c')
    (ha : Agrees c' (m.step l)) (hf : (m.step l).store.faults = none) (hg : m.Grows (m.step l)) :
    Settled c' seen (m.step l) := by
  refine ⟨ha, hf, fun cmd hseen => ?_⟩
  have habs := h.absorbed cmd hseen
  cases cmd with
  | SUBMIT cmd =>
    obtain ⟨hid, o, ho, ht | ht⟩ := habs
    · obtain ⟨o', ho', hfix⟩ := step_fixed h.agrees.safe l ho
      exact ⟨hc _ hid, o', ho', Or.inl (hfix.type.trans ht)⟩
    · exact ⟨hc _ hid, o, step_terminal h.agrees.safe l ho ht, Or.inr ht⟩
  | CANCEL cmd =>
    obtain ⟨hbook, o, ho, ht⟩ := habs
    exact ⟨hg _ hbook, o, step_terminal h.agrees.safe l ho ht, ht⟩

/-- A `SUBMIT` that returns leaves nothing for a copy to do. -/
theorem absorbed_submit (hs : Safe m) {cmd : OrderSubmitCommand}
    (hcmd : .SUBMIT cmd ∈ m.db.commands)
    {r : Result} (h : SubmitOutcome cmd m (.ok r) m') (hc : cmd.orderId ∈ c) :
    Absorbed c m' (.SUBMIT cmd) := by
  refine ⟨hc, ?_⟩
  cases h with
  | skipped hsame why =>
    obtain ⟨o, ho, ht⟩ := terminal_of_skipped hs.sound hcmd why
    exact ⟨o, by rwa [hsame.db], Or.inr ht⟩
  | committedLimit market order price hb ht hp hid hsub =>
    obtain ⟨o', ho', hfix⟩ := submit_fixed hs hcmd
      (.committedLimit market order price hb ht hp hid hsub) hb.horder
    exact ⟨o', ho', Or.inl (hfix.type.trans ht)⟩
  | committedMarket market order l hb ht hl hsub =>
    have hrow := (hsub.order? (crossing_market hs.sound hs.backed hcmd hb ht hl)).1
    rw [Db.order?_id hb.horder] at hrow
    exact ⟨_, hrow, Or.inr (marketAfter_terminal order _ order)⟩

/-- The `CANCEL` of an order that exists, on a market that exists, is not skipped. -/
theorem settleCancel_isSome (hs : m.store.Sound) {cmd : OrderCancelCommand}
    (hcmd : .CANCEL cmd ∈ m.db.commands) {o? : Option Order}
    (h : settleCancel cmd m = (.ok o?, m')) : o?.isSome := by
  obtain ⟨o, ho, -⟩ := hs.commands _ hcmd
  rcases settleCancel_cases h with ⟨n, -, -, he, -⟩ |
    ⟨-, ⟨-, hnone⟩ | ⟨order, horder, ⟨he, -⟩ | ⟨-, hnone⟩⟩⟩ | ⟨market, order, f, -, -, -, -, -, htx⟩
  · cases he
  · cases hnone.symm.trans ho
  · cases he
    rfl
  · exact absurd hnone (Option.isSome_iff_ne_none.mp (hs.markets _ _ horder))
  · obtain ⟨a, m₁, -, h₂⟩ := Tx.bind_eq_ok.mp htx
    obtain ⟨rfl, -⟩ := Tx.pure_eq_ok.mp h₂
    rfl

/-- A `CANCEL` that returns leaves nothing for a copy to do. -/
theorem absorbed_cancel (hs : m.store.Sound) {cmd : OrderCancelCommand}
    (hcmd : .CANCEL cmd ∈ m.db.commands) {r : Result} (h : dispatch (.CANCEL cmd) m = (.ok r, m')) :
    Absorbed c m' (.CANCEL cmd) := by
  constructor
  · rcases hset : settleCancel cmd m with ⟨e | o?, m₁⟩
    · rw [dispatch_cancel_of_settle hset] at h
      cases h
    · obtain ⟨o, rfl⟩ := Option.isSome_iff_exists.mp (settleCancel_isSome hs hcmd hset)
      rw [dispatch_cancel_of_settle hset] at h
      obtain ⟨-, rfl⟩ := Prod.mk.inj h
      simp [Matcher.setBook]
  · obtain ⟨o, ho, -⟩ := hs.commands _ hcmd
    have hout := dispatch_cancel h
    cases hout with
    | skipped r hsame why =>
      rcases why with hnone | ⟨order, horder, ht | hnone⟩
      · cases hnone.symm.trans ho
      · exact ⟨order, by rwa [hsame.db], ht⟩
      · exact absurd hnone (Option.isSome_iff_ne_none.mp (hs.markets _ _ horder))
    | committed market order horder hm live hc =>
      refine ⟨{ order with status := .CANCELLED }, ?_, rfl⟩
      rw [Db.order?_of_modify hc.orders (fun _ => rfl), if_pos (Db.order?_id horder).symm, horder]
      rfl

end Copy

/-- The command that a step hands to the matcher. -/
def Step.delivered : Step → List OrderCommand
  | .deliver cmd _ => [cmd]
  | _ => []

/-- A log of commands, between calls of the api, in which each command commits unless it is a copy
of one that was delivered before. -/
def Committing (seen : List OrderCommand) (m : Matcher E) : List Step → Prop
  | [] => True
  | l :: ls =>
    (match l with
      | .deliver cmd faults => cmd ∈ m.db.commands ∧
          (cmd ∈ seen ∨ ∃ r, (dispatch cmd (m.withFaults faults)).1 = .ok r)
      | .restart => False
      | _ => True) ∧ Committing (l.delivered ++ seen) (m.step l) ls

/-- The second log is the first with copies of commands inserted after they were first delivered,
each of which may fail at any statement. -/
inductive Redelivers : List OrderCommand → List Step → List Step → Prop
  | nil (seen : List OrderCommand) : Redelivers seen [] []
  | step {seen : List OrderCommand} {log log' : List Step} (l : Step)
      (h : Redelivers (l.delivered ++ seen) log log') : Redelivers seen (l :: log) (l :: log')
  | copy {seen : List OrderCommand} {log log' : List Step} (cmd : OrderCommand) (faults : Option ℕ)
      (hcmd : cmd ∈ seen) (h : Redelivers seen log log') :
      Redelivers seen log (.deliver cmd faults :: log')

/-- The steps but deliveries and restarts leave the books and the countdown of failures alone. -/
theorem step_books (m : Matcher E) (hf : m.store.faults = none) {l : Step}
    (hd : ∀ cmd faults, l ≠ .deliver cmd faults) (hr : l ≠ .restart) :
    (m.step l).books = m.books ∧ (m.step l).store.faults = none := by
  cases l with
  | deliver cmd faults => exact absurd rfl (hd cmd faults)
  | restart => exact absurd rfl hr
  | tick now => exact ⟨rfl, hf⟩
  | _ => exact ⟨rfl, rfl⟩

/-- **A step that commits** leaves what was delivered settled. -/
theorem step_settled {c : List ℕ} {seen : List OrderCommand} (h : Settled c seen m) {l : Step}
    {ls : List Step} (hl : Committing seen m (l :: ls)) :
    ∃ c', Settled c' (l.delivered ++ seen) (m.step l) := by
  by_cases hd : ∃ cmd faults, l = .deliver cmd faults
  · obtain ⟨cmd, faults, rfl⟩ := hd
    obtain ⟨⟨hcmd, hseen | ⟨r, hok⟩⟩, -⟩ := hl
    · -- a copy
      rw [settled_copy h hseen]
      refine ⟨c, h.agrees, h.faults, fun x hx => ?_⟩
      rcases List.mem_cons.mp hx with rfl | hx
      · exact h.absorbed x hseen
      · exact h.absorbed x hx
    · obtain ⟨m₁, hdisp⟩ : ∃ m₁, dispatch cmd (m.withFaults faults) = (.ok r, m₁) :=
        ⟨_, Prod.ext hok rfl⟩
      have hstep : m.step (.deliver cmd faults) = m₁.withFaults none := by
        change m.deliver cmd faults = _
        rw [Matcher.deliver, if_pos hcmd, handleMessage, hdisp]
      have hagrees := step_agrees h.agrees (l := .deliver cmd faults) (Step.clean_of_ok hok)
      have hgrows : m.Grows (m.step (.deliver cmd faults)) := by
        rw [hstep]
        have hg := (keepsBooks_dispatch cmd).of_eq hdisp
        exact hg
      have hold := h.step (.deliver cmd faults) (fun _ => List.mem_append_right _) hagrees
        (by rw [hstep]; rfl) hgrows
      refine ⟨_, hold.agrees, hold.faults, fun x hx => ?_⟩
      rcases List.mem_cons.mp hx with rfl | hx
      · have hs₀ := h.agrees.safe.of_same (m.same_withFaults faults)
        rw [hstep]
        cases x with
        | SUBMIT cmd =>
          change Absorbed _ m₁ (.SUBMIT cmd)
          refine absorbed_submit hs₀ hcmd (dispatch_submit_of_sound hs₀.sound hdisp) ?_
          rw [Matcher.consumes, if_pos hcmd]
          exact List.mem_cons_self
        | CANCEL cmd =>
          change Absorbed c m₁ (.CANCEL cmd)
          exact absorbed_cancel hs₀.sound hcmd hdisp
      · exact hold.absorbed x hx
  by_cases hr : l = .restart
  · subst hr
    exact absurd hl.1 id
  · have hd' : ∀ cmd faults, l ≠ .deliver cmd faults := fun cmd faults e => hd ⟨cmd, faults, e⟩
    have hclean : l.Clean c m := by
      cases l with
      | deliver cmd faults => exact absurd rfl (hd' cmd faults)
      | restart => exact absurd rfl hr
      | _ => trivial
    have hnil : l.delivered = [] := by
      cases l with
      | deliver cmd faults => exact absurd rfl (hd' cmd faults)
      | _ => rfl
    obtain ⟨hbooks, hfaults⟩ := step_books m h.faults hd' hr
    rw [hnil]
    exact ⟨_, h.step l (fun _ => List.mem_append_right _) (step_agrees h.agrees hclean) hfaults
      (Matcher.grows_of_books hbooks)⟩

/-- Copies of what was settled leave the run as it is. -/
theorem run_redelivers {c : List ℕ} {seen : List OrderCommand} {log log' : List Step}
    (hr : Redelivers seen log log') (h : Settled c seen m) (hc : Committing seen m log) :
    m.run log' = m.run log := by
  induction hr generalizing m c with
  | nil seen => rfl
  | step l _ ih =>
    obtain ⟨c', h'⟩ := step_settled h hc
    exact ih h' hc.2
  | copy cmd faults hcmd _ ih =>
    rw [Matcher.run_cons, settled_copy h hcmd]
    exact ih h hc

/-- **Command redelivery is harmless.** A log in which every command commits, run with any number of
copies of its commands inserted after their first delivery, each failing at any statement, ends in
the same state: wallets, orders, trades, outbox rows and books. -/
theorem redelivery_harmless (h : m.Initial) {log log' : List Step} (hc : Committing [] m log)
    (hr : Redelivers [] log log') : m.run log' = m.run log := by
  refine run_redelivers hr (c := []) ⟨initial_agrees h, h.faults, fun cmd hcmd => ?_⟩ hc
  cases hcmd

namespace Sample

/-- The order of `bob` delivered twice, the second time while it rests, and once more when it is
filled in part. -/
def redelivered : List Step :=
  [.submit "bob" (limit .ASK 100 2) none, .deliver (submitted 0 1 "bob" (limit .ASK 100 2)) none,
    .deliver (submitted 0 1 "bob" (limit .ASK 100 2)) none, .submit "alice" (limit .BID 110 1) none,
    .deliver (submitted 3 2 "alice" (limit .BID 110 1)) none,
    .deliver (submitted 0 1 "bob" (limit .ASK 100 2)) none,
    .deliver (submitted 3 2 "alice" (limit .BID 110 1)) (some 4)]

theorem redelivered_redelivers : Redelivers [] trading redelivered :=
  .step _ (.step _ (.copy _ _ (by decide) (.step _ (.step _ (.copy _ _ (by decide)
    (.copy _ _ (by decide) (.nil _)))))))

theorem trading_committing : Committing [] exchange trading :=
  ⟨trivial, ⟨by decide +kernel, Or.inr ⟨.ok, by decide +kernel⟩⟩, trivial,
    ⟨by decide +kernel, Or.inr ⟨.ok, by decide +kernel⟩⟩, trivial⟩

end Sample

/-- The copies made no further trade. -/
theorem redelivery_harmless_trading : Committing [] Sample.exchange Sample.trading ∧
    Redelivers [] Sample.trading Sample.redelivered ∧
    Sample.exchange.run Sample.redelivered = Sample.exchange.run Sample.trading ∧
    (Sample.exchange.run Sample.redelivered).db.trades.length = 1 := by
  have heq := redelivery_harmless Sample.exchange_initial Sample.trading_committing
    Sample.redelivered_redelivers
  refine ⟨Sample.trading_committing, Sample.redelivered_redelivers, heq, ?_⟩
  rw [heq]
  decide +kernel

end Orbit
