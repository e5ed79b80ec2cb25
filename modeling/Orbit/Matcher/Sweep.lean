import Orbit.Matcher.SettleSpecs

/-!
# Market sweeps

`executeMarketOrder` plans from a snapshot of the opposite side: at each level it adds an order of
its own for what the level holds, or what is left to match, and settles the trades. `bookSweep` is
what this loop does to the book, with the settlement left out; the loop settles the trades that
`bookSweep` lists, as one `settleTrades` would (`sweepLevels_eq_settleTrades`).

* `market_sweep_iff`: the trades and the remaining quantity of a sweep are those of one order that
  crosses the whole opposite side, exactly when the ids it uses are free when it uses them, and the
  levels of the snapshot hold the quantity or are all that there are.
-/

namespace Orbit

open PriceTime

namespace Matcher

variable {E : Engine}

def withBooks (m : Matcher E) (books : String → Option E.Book) : Matcher E := { m with books }

theorem book_withBooks (m : Matcher E) {books : String → Option E.Book} {symbol : String} :
    (m.withBooks books).book symbol = (books symbol).getD E.new := rfl

end Matcher

namespace Settler

variable {E : Engine}

/-! ## The book alone -/

/-- `try { book.cancel(id) } catch {}`, on a book. -/
def cancelled (b : E.Book) (id : ℕ) : E.Book :=
  match E.cancel b id with
  | .ok b' => b'
  | .error _ => b

/-- The loop of `executeMarketOrder` over the levels of the snapshot, on the book alone: the book
after it, the trades, and what remains of the quantity. -/
def bookSweep (orderId : ℕ) (side : OrderSide) : ℕ → ℚ → List BookLevel → E.Book →
    Except String (E.Book × List EngineTrade × ℚ)
  | _, remaining, [], b => .ok (b, [], remaining)
  | counter, remaining, lvl :: lvls, b =>
    if remaining ≤ 0 then .ok (b, [], remaining)
    else
      let take := min lvl.quantity remaining
      match E.add b (sweepId orderId counter) (sideToEngine side) lvl.price take with
      | .error msg => .error msg
      | .ok (b', sweep) =>
        let b'' := if 0 < sweep.leaveQuantity then cancelled b' (sweepId orderId counter) else b'
        match bookSweep orderId side (counter + 1) (remaining - take) lvls b'' with
        | .error msg => .error msg
        | .ok (b₁, trades, rest) => .ok (b₁, sweep.trades ++ trades, rest)

theorem bookSweep_of_nonpos {orderId : ℕ} {side : OrderSide} {counter : ℕ} {remaining : ℚ}
    (h0 : remaining ≤ 0) (lvls : List BookLevel) (b : E.Book) :
    bookSweep orderId side counter remaining lvls b = .ok (b, [], remaining) := by
  cases lvls with
  | nil => rfl
  | cons lvl lvls => rw [bookSweep, if_pos h0]

/-- A turn of the loop that is not refused. -/
theorem bookSweep_cons_eq_ok {orderId : ℕ} {side : OrderSide} {counter : ℕ} {remaining rest : ℚ}
    {lvl : BookLevel} {lvls : List BookLevel} {b b' : E.Book} {ts : List EngineTrade}
    (h0 : ¬remaining ≤ 0) :
    bookSweep orderId side counter remaining (lvl :: lvls) b = .ok (b', ts, rest) ↔
      ∃ b₁ sweep us, E.add b (sweepId orderId counter) (sideToEngine side) lvl.price
          (min lvl.quantity remaining) = .ok (b₁, sweep) ∧
        bookSweep orderId side (counter + 1) (remaining - min lvl.quantity remaining) lvls
          (if 0 < sweep.leaveQuantity then cancelled b₁ (sweepId orderId counter) else b₁) =
            .ok (b', us, rest) ∧ ts = sweep.trades ++ us := by
  rw [bookSweep, if_neg h0]
  dsimp only
  rcases hadd : E.add b (sweepId orderId counter) (sideToEngine side) lvl.price
    (min lvl.quantity remaining) with msg | ⟨b₁, sweep⟩
  · simp
  · dsimp only
    rcases hrest : bookSweep orderId side (counter + 1)
      (remaining - min lvl.quantity remaining) lvls
      (if 0 < sweep.leaveQuantity then cancelled b₁ (sweepId orderId counter) else b₁) with
      msg | ⟨b₂, us, rest'⟩
    · simp only [reduceCtorEq, false_iff]
      rintro ⟨b₁', sweep', us, he, hr, -⟩
      cases he
      rw [hrest] at hr
      cases hr
    · simp only [Except.ok.injEq, Prod.mk.injEq]
      constructor
      · rintro ⟨rfl, rfl, rfl⟩
        exact ⟨b₁, sweep, us, ⟨rfl, rfl⟩, hrest, rfl⟩
      · rintro ⟨b₁', sweep', us', ⟨rfl, rfl⟩, hr, rfl⟩
        rw [hrest] at hr
        cases hr
        exact ⟨rfl, rfl, rfl⟩

section Settlement

variable {market : Market} {order : Order} {rates : FeeRates} {commandId : Uuid} {symbol : String}

theorem ignores_onStore {α : Type} (x : Stm α) :
    Tx.Ignores Matcher.withBooks (onStore x : Act E α) := fun _ _ => rfl

variable (market order rates commandId) in
/-- Settling trades has nothing to do with the books. -/
theorem ignores_settleTrades (idx : ℕ) (ts : List EngineTrade) :
    Tx.Ignores Matcher.withBooks
      (settleTrades market order rates commandId idx ts : Act E (List Trade)) := by
  induction ts generalizing idx with
  | nil => exact .pure _
  | cons t ts ih =>
    have hseq : Tx.Ignores Matcher.withBooks (nextSequence : Act E ℕ) := fun _ _ => rfl
    have hturn : Tx.Ignores Matcher.withBooks
        (settleTrade market order rates ⟨commandId, idx⟩ t : Act E Trade) :=
      (ignores_onStore _).bind fun _ => hseq.bind fun _ => ignores_onStore _
    exact hturn.bind fun _ => (ih (idx + 1)).bind fun _ => .pure _

theorem settleTrades_append (idx : ℕ) (ts us : List EngineTrade) :
    (settleTrades market order rates commandId idx (ts ++ us) : Act E (List Trade)) =
      settleTrades market order rates commandId idx ts >>= fun fills =>
        settleTrades market order rates commandId (idx + ts.length) us >>= fun fills' =>
          pure (fills ++ fills') := by
  induction ts generalizing idx with
  | nil => simp [settleTrades_nil]
  | cons t ts ih =>
    have hidx : idx + 1 + ts.length = idx + (ts.length + 1) := by omega
    simp [settleTrades_cons, ih, hidx]

variable (symbol) in
/-- `bookCancel` on the book that it finds. -/
theorem bookCancel_eq (id : ℕ) (m : Matcher E) : ∃ books, bookCancel symbol id m =
    (.ok (), m.withBooks books) ∧ (books symbol).getD E.new = cancelled (m.book symbol) id := by
  unfold bookCancel cancelled
  rcases E.cancel (m.book symbol) id with msg | b
  · exact ⟨m.books, rfl, rfl⟩
  · exact ⟨(m.setBook symbol b).books, rfl, by simp [Matcher.setBook]⟩

section Turn

variable {counter idx : ℕ} {remaining : ℚ} {lvl : BookLevel} {m m₂ : Matcher E} {b₁ : E.Book}
  {sweep : AddResult}

/-- A turn whose trades are refused. -/
theorem sweepTurn_error (h0 : ¬remaining ≤ 0)
    (hadd : E.add (m.book symbol) (sweepId order.id counter)
      (sideToEngine order.side) lvl.price (min lvl.quantity remaining) =
      .ok (b₁, sweep)) {e : Failure}
    (hset : settleTrades market order rates commandId idx sweep.trades m = (.error e, m₂))
    (lvls : List BookLevel) :
    sweepLevels symbol market order rates commandId counter idx remaining (lvl :: lvls) m =
      (.error e, m₂.withBooks (m.setBook symbol b₁).books) := by
  have hbook : bookAdd symbol (sweepId order.id counter) (sideToEngine order.side) lvl.price
      (min lvl.quantity remaining) m = (.ok sweep, m.setBook symbol b₁) := by
    simp only [bookAdd, hadd]
  have hquiet := ignores_settleTrades market order rates commandId idx sweep.trades m
    (m.setBook symbol b₁).books
  rw [hset] at hquiet
  rw [sweepLevels_cons, if_neg h0]
  exact (Tx.bind_apply_ok hbook _).trans (Tx.bind_apply_error hquiet _)

/-- A turn whose trades are settled. -/
theorem sweepTurn_ok (h0 : ¬remaining ≤ 0) (hadd : E.add (m.book symbol) (sweepId order.id counter)
      (sideToEngine order.side) lvl.price (min lvl.quantity remaining) = .ok (b₁, sweep))
    {fills : List Trade}
    (hset : settleTrades market order rates commandId idx sweep.trades m = (.ok fills, m₂))
    (lvls : List BookLevel) :
    ∃ books, (books symbol).getD E.new =
        (if 0 < sweep.leaveQuantity then cancelled b₁ (sweepId order.id counter) else b₁) ∧
      sweepLevels symbol market order rates commandId counter idx remaining (lvl :: lvls) m =
        (sweepLevels symbol market order rates commandId (counter + 1) (idx + sweep.trades.length)
          (remaining - min lvl.quantity remaining) lvls >>= fun r => pure (fills ++ r.1, r.2))
          (m₂.withBooks books) := by
  have hbook : bookAdd symbol (sweepId order.id counter) (sideToEngine order.side) lvl.price
      (min lvl.quantity remaining) m = (.ok sweep, m.setBook symbol b₁) := by
    simp only [bookAdd, hadd]
  have hquiet := ignores_settleTrades market order rates commandId idx sweep.trades m
    (m.setBook symbol b₁).books
  rw [hset] at hquiet
  have hb₁ : (m₂.withBooks (m.setBook symbol b₁).books).book symbol = b₁ := by
    simp [Matcher.book, Matcher.withBooks, Matcher.setBook]
  rw [sweepLevels_cons, if_neg h0]
  obtain ⟨books, hcancel, hbooks⟩ := bookCancel_eq symbol (sweepId order.id counter)
    (m₂.withBooks (m.setBook symbol b₁).books)
  by_cases hleave : 0 < sweep.leaveQuantity
  · refine ⟨books, by rw [hbooks, hb₁, if_pos hleave], (Tx.bind_apply_ok hbook _).trans ?_⟩
    refine (Tx.bind_apply_ok hquiet _).trans ?_
    dsimp only
    rw [if_pos hleave]
    exact Tx.bind_apply_ok hcancel _
  · refine ⟨(m.setBook symbol b₁).books, ?_, (Tx.bind_apply_ok hbook _).trans ?_⟩
    · rw [if_neg hleave]
      exact hb₁
    · refine (Tx.bind_apply_ok hquiet _).trans ?_
      dsimp only
      rw [if_neg hleave]

end Turn

/-- **A sweep settles the trades of the book's sweep**, as one `settleTrades` would. -/
theorem sweepLevels_eq_settleTrades (market : Market) (rates : FeeRates)
    (commandId : Uuid) (idx : ℕ)
    {lvls : List BookLevel} {counter : ℕ} {remaining rest : ℚ} {m : Matcher E}
      {b' : E.Book} {ts : List EngineTrade}
    (h : bookSweep order.id order.side counter remaining lvls
      (m.book symbol) = .ok (b', ts, rest)) :
    ∃ books, sweepLevels symbol market order rates commandId counter idx remaining lvls m =
        ((settleTrades market order rates commandId idx ts m).1.map fun rows => (rows, rest),
          (settleTrades market order rates commandId idx ts m).2.withBooks books) ∧
      ∀ rows, (settleTrades market order rates commandId idx ts m).1 = .ok rows →
        (books symbol).getD E.new = b' := by
  induction lvls generalizing counter idx remaining m b' ts with
  | nil =>
    cases h
    exact ⟨m.books, rfl, fun _ _ => rfl⟩
  | cons lvl lvls ih =>
    by_cases h0 : remaining ≤ 0
    · rw [bookSweep_of_nonpos h0] at h
      cases h
      exact ⟨m.books, by rw [sweepLevels_cons, if_pos h0]; rfl, fun _ _ => rfl⟩
    obtain ⟨b₁, sweep, us, hadd, hus, rfl⟩ := (bookSweep_cons_eq_ok h0).mp h
    rw [settleTrades_append]
    rcases hset : settleTrades market order rates commandId idx sweep.trades m with ⟨e | fills, m₂⟩
    · rw [Tx.bind_apply_error hset]
      exact ⟨_, sweepTurn_error h0 hadd hset lvls, fun _ hok => by cases hok⟩
    · rw [Tx.bind_apply_ok hset]
      obtain ⟨books, hbooks, heq⟩ := sweepTurn_ok h0 hadd hset lvls
      rw [← hbooks] at hus
      obtain ⟨books', htail, hbooks'⟩ := @ih (idx + sweep.trades.length) _ _
        (m₂.withBooks books) _ _ hus
      rw [ignores_settleTrades] at htail hbooks'
      rcases hset' : settleTrades market order rates commandId
        (idx + sweep.trades.length) us m₂ with
        ⟨e | fills', m₃⟩
      · rw [hset'] at htail
        rw [Tx.bind_apply_error hset', heq, Tx.bind_apply_error htail]
        exact ⟨books', rfl, fun _ hok => by cases hok⟩
      · rw [hset'] at htail hbooks'
        rw [Tx.bind_apply_ok hset', heq, Tx.bind_apply_ok htail]
        exact ⟨books', rfl, fun _ _ => hbooks' fills' rfl⟩

end Settlement

/-! ## The trades of a sweep -/

section Book

variable {orderId : ℕ} {side : OrderSide} {counter : ℕ} {remaining : ℚ} {b : E.Book}
  {g rest : List (Resting ℕ ℚ ℚ)} {v : Level ℚ ℚ}

/-- The levels of a snapshot. -/
def toBookLevels (vs : List (Level ℚ ℚ)) : List BookLevel := vs.map fun v => ⟨v.price, v.qty⟩

/-- Adding at a level's price at most the level's quantity matches it whole, against orders of that
level. -/
theorem add_level {id : ℕ} {s : Side} {qty : ℚ} (hid : id ∉ (E.resting b).ids)
    (hg : (E.resting b).queue s.opp = g ++ rest) (hp : ∀ r ∈ g, r.price = v.price) (h0 : 0 < qty)
    (hle : qty ≤ (g.map (·.qty)).sum) :
    ∃ b₁, E.resting b₁ = (E.resting b).set s.opp ((fill (fun _ => true) qty g).rest ++ rest) ∧
      E.add b id s v.price qty = .ok (b₁, ⟨0, (fill (fun _ => true) qty g).fills.map .ofFill⟩) := by
  have hc : ∀ r ∈ g, crosses s v.price r.price = true := by
    intro r hr
    rw [hp r hr]
    cases s <;> simp [crosses]
  have hfill := fill_append_of_le (crosses s v.price) hc h0.le hle rest
  rw [← hg] at hfill
  obtain ⟨b₁, hadd, hb₁⟩ := E.add_new b id s v.price qty hid h0
  refine ⟨b₁, ?_, ?_⟩
  · rw [hb₁, Book.add_book, hfill]
    simp
  · rw [hadd, Book.add_leave, Book.add_fills, hfill]

/-- A turn of the loop whose id is free. -/
theorem bookSweep_cons (hid : sweepId orderId counter ∉ (E.resting b).ids)
    (hg : (E.resting b).queue (sideToEngine side).opp = g ++ rest) (hp : ∀ r ∈ g, r.price = v.price)
    (hq : (g.map (·.qty)).sum = v.qty) (hv : 0 < v.qty) (h0 : 0 < remaining) :
    ∃ b₁, E.resting b₁ = (E.resting b).set (sideToEngine side).opp
        ((fill (fun _ => true) (min v.qty remaining) g).rest ++ rest) ∧
      ∀ lvls b' ts left, (bookSweep orderId side counter remaining (⟨v.price, v.qty⟩ :: lvls)
        b = .ok (b', ts, left) ↔
        ∃ us, bookSweep orderId side (counter + 1) (remaining - min v.qty remaining) lvls b₁ =
            .ok (b', us, left) ∧
          ts = (fill (fun _ => true) (min v.qty remaining) g).fills.map .ofFill ++ us) := by
  obtain ⟨b₁, hb₁, hadd⟩ := add_level hid hg hp (lt_min hv h0) (hq ▸ min_le_left _ _)
  refine ⟨b₁, hb₁, fun lvls b' ts left => ?_⟩
  rw [bookSweep_cons_eq_ok (not_le.mpr h0)]
  constructor
  · rintro ⟨b₂, sweep, us, hadd', hus, rfl⟩
    rw [hadd] at hadd'
    cases hadd'
    rw [if_neg (lt_irrefl _)] at hus
    exact ⟨us, hus, rfl⟩
  · rintro ⟨us, hus, rfl⟩
    refine ⟨b₁, _, us, hadd, ?_, rfl⟩
    rwa [if_neg (lt_irrefl _)]

/-- A turn of the loop whose id rests. -/
theorem bookSweep_refused (hid : sweepId orderId counter ∈ (E.resting b).ids) (h0 : 0 < remaining)
    (lvl : BookLevel) (lvls : List BookLevel) (res : E.Book × List EngineTrade × ℚ) :
    bookSweep orderId side counter remaining (lvl :: lvls) b ≠ .ok res := by
  intro h
  obtain ⟨b₁, sweep, us, hadd, -⟩ := (bookSweep_cons_eq_ok (not_le.mpr h0)).mp h
  obtain ⟨msg, herr⟩ := E.add_resting b (sweepId orderId counter) (sideToEngine side) lvl.price
    (min lvl.quantity remaining) hid
  rw [herr] at hadd
  cases hadd

/-- **The trades of a sweep** that is not refused are those of one crossing of the orders on its
levels. -/
theorem bookSweep_eq_ok {front back : List (Resting ℕ ℚ ℚ)} {vs : List (Level ℚ ℚ)}
    (hG : Grouped front vs) (h0 : 0 ≤ remaining)
    (hQ : (E.resting b).queue (sideToEngine side).opp = front ++ back) {b' : E.Book}
    {ts : List EngineTrade} {left : ℚ}
    (h : bookSweep orderId side counter remaining (toBookLevels vs) b = .ok (b', ts, left)) :
    left = (fill (fun _ => true) remaining front).leave ∧
    ts = (fill (fun _ => true) remaining front).fills.map .ofFill ∧
    E.resting b' = (E.resting b).set (sideToEngine side).opp
      ((fill (fun _ => true) remaining front).rest ++ back) := by
  induction hG generalizing b counter remaining ts with
  | nil =>
    cases h
    refine ⟨rfl, rfl, ?_⟩
    rw [fill_nil, ← hQ, Book.set_queue]
  | @cons g front vs v hne hp hq hG ih =>
    rcases h0.eq_or_lt with rfl | h0
    · rw [bookSweep_of_nonpos le_rfl] at h
      cases h
      rw [fill_of_nonpos _ le_rfl]
      refine ⟨rfl, rfl, ?_⟩
      rw [← hQ, Book.set_queue]
    by_cases hid : sweepId orderId counter ∈ (E.resting b).ids
    · exact absurd h (bookSweep_refused hid h0 _ _ _)
    rw [List.append_assoc] at hQ
    have hpos : ∀ r ∈ g ++ front, 0 < r.qty := fun r hr =>
      (E.resting_wf b).pos (sideToEngine side).opp r (by rw [hQ]; simp at hr ⊢; tauto)
    have hposg : ∀ r ∈ g, 0 < r.qty := fun r hr => hpos r (by simp [hr])
    have hv := (Grouped.cons v hne hp hq hG).pos hpos v (by simp)
    obtain ⟨b₁, hb₁, hcons⟩ := bookSweep_cons hid hQ hp hq hv h0
    obtain ⟨us, hus, rfl⟩ := (hcons _ _ _ _).mp h
    rw [fill_level hposg h0.le, hq]
    split
    · rename_i hle
      rw [min_eq_left hle] at *
      have hall : (fill (fun _ => true) v.qty g).rest = [] := by
        rw [← hq, fill_sum _ hposg fun _ _ => rfl]
      rw [hall, List.nil_append] at hb₁
      obtain ⟨hleft, rfl, hrest⟩ := ih (sub_nonneg.mpr hle) (by rw [hb₁]; simp) hus
      refine ⟨hleft, by rw [List.map_append], ?_⟩
      rw [hrest, hb₁, Book.set_set]
    · rename_i hle
      rw [min_eq_right (not_le.mp hle).le, sub_self, bookSweep_of_nonpos le_rfl] at hus
      cases hus
      rw [min_eq_right (not_le.mp hle).le] at hb₁ ⊢
      refine ⟨rfl, by simp, ?_⟩
      rw [hb₁, List.append_assoc]

/-- The turns of a sweep over the first `k` levels find their ids free: in a turn that still has
something to match, neither the order's side `own` nor the orders on the level or behind it hold its
id. -/
def TurnsFree (orderId counter : ℕ) (own l : List (Resting ℕ ℚ ℚ)) (vs : List (Level ℚ ℚ)) (k : ℕ)
    (remaining : ℚ) : Prop :=
  ∀ n < k, n < vs.length → ((vs.take n).map (·.qty)).sum < remaining →
    (∀ r ∈ own, r.id ≠ sweepId orderId (counter + n)) ∧
    ∀ v ∈ vs.drop n, ∀ r ∈ l, r.price = v.price → r.id ≠ sweepId orderId (counter + n)

instance (orderId counter : ℕ) (own l : List (Resting ℕ ℚ ℚ)) (vs : List (Level ℚ ℚ)) (k : ℕ)
    (remaining : ℚ) : Decidable (TurnsFree orderId counter own l vs k remaining) := by
  unfold TurnsFree
  infer_instance

/-- Behind a level that is taken whole the turns go on as on the levels behind it. -/
theorem turnsFree_cons {vs : List (Level ℚ ℚ)} {own : List (Resting ℕ ℚ ℚ)} {k : ℕ}
    (hp : ∀ r ∈ g, r.price = v.price) (hne : ∀ w ∈ vs, v.price ≠ w.price)
    (hown : ∀ r ∈ own, r.id ≠ sweepId orderId counter)
    (hl : ∀ r ∈ g ++ rest, r.id ≠ sweepId orderId counter) :
    TurnsFree orderId counter own (g ++ rest) (v :: vs) (k + 1) remaining ↔
      TurnsFree orderId (counter + 1) own rest vs k (remaining - v.qty) := by
  have hc : ∀ n, counter + 1 + n = counter + (n + 1) := fun n => by omega
  constructor
  · intro h n hn hlen hlt
    obtain ⟨h₁, h₂⟩ := h (n + 1) (by omega) (by simpa using hlen) (by
      rw [List.take_succ_cons, List.map_cons, List.sum_cons]
      linarith)
    rw [hc n]
    exact ⟨h₁, fun w hw r hr => h₂ w (by simpa using hw) r (by simp [hr])⟩
  · intro h n hn hlen hlt
    cases n with
    | zero => exact ⟨hown, fun _ _ r hr _ => hl r hr⟩
    | succ n =>
      rw [List.take_succ_cons, List.map_cons, List.sum_cons] at hlt
      obtain ⟨h₁, h₂⟩ := h n (by omega) (by simpa using hlen) (by linarith)
      rw [hc n] at h₁ h₂
      refine ⟨h₁, fun w hw r hr he => ?_⟩
      rw [List.drop_succ_cons] at hw
      rcases List.mem_append.mp hr with hr | hr
      · exact absurd ((hp r hr).symm.trans he) (hne w (List.mem_of_mem_drop hw))
      · exact h₂ w hw r hr he

theorem sum_take_nonneg {vs : List (Level ℚ ℚ)} (h : ∀ w ∈ vs, 0 < w.qty) (n : ℕ) :
    0 ≤ ((vs.take n).map (·.qty)).sum := by
  refine List.sum_nonneg fun q hq => ?_
  obtain ⟨w, hw, rfl⟩ := List.mem_map.mp hq
  exact (h w (List.mem_of_mem_take hw)).le

/-- **A sweep is not refused** exactly when its turns find their ids free. -/
theorem bookSweep_isOk_iff {l : List (Resting ℕ ℚ ℚ)} {vs : List (Level ℚ ℚ)} (hG : Grouped l vs)
    (hd : (vs.map (·.price)).Nodup) (hQ : (E.resting b).queue (sideToEngine side).opp = l) (k : ℕ)
    (h0 : 0 ≤ remaining) :
    (∃ res, bookSweep orderId side counter remaining (toBookLevels (vs.take k)) b = .ok res) ↔
      TurnsFree orderId counter ((E.resting b).queue (sideToEngine side)) l vs k remaining := by
  induction hG generalizing b counter remaining k with
  | nil => exact ⟨fun _ n _ hn => absurd hn (by simp), fun _ => ⟨_, by rw [List.take_nil]; rfl⟩⟩
  | @cons g rest vs v hne hp hq hG ih =>
    cases k with
    | zero => exact ⟨fun _ n hn => absurd hn (by omega), fun _ => ⟨_, rfl⟩⟩
    | succ k =>
      have hpos : ∀ r ∈ g ++ rest, 0 < r.qty := fun r hr =>
        (E.resting_wf b).pos (sideToEngine side).opp r (hQ ▸ hr)
      have hposg : ∀ r ∈ g, 0 < r.qty := fun r hr => hpos r (by simp [hr])
      have hpvs := (Grouped.cons v hne hp hq hG).pos hpos
      rcases h0.eq_or_lt with rfl | h0
      · refine ⟨fun _ n _ _ hlt => absurd hlt (not_lt.mpr (sum_take_nonneg hpvs n)), fun _ => ?_⟩
        exact ⟨_, bookSweep_of_nonpos le_rfl _ _⟩
      rw [List.take_succ_cons, toBookLevels, List.map_cons]
      by_cases hid : sweepId orderId counter ∈ (E.resting b).ids
      · -- the first turn is refused
        refine ⟨fun ⟨res, h⟩ => absurd h (bookSweep_refused hid h0 _ _ _), fun hfree => ?_⟩
        obtain ⟨hown, hopp⟩ := hfree 0 (by omega) (by simp) (by simpa using h0)
        obtain ⟨s, r, hr, he⟩ := Book.mem_ids.mp hid
        rcases Side.eq_or_eq_opp (sideToEngine side) s with rfl | rfl
        · exact absurd he (hown r hr)
        · rw [hQ] at hr
          obtain ⟨w, hw, hrw⟩ := (Grouped.cons v hne hp hq hG).exists_level hr
          exact absurd he (hopp w (by simpa using hw) r hr hrw)
      have hown : ∀ r ∈ (E.resting b).queue (sideToEngine side), r.id ≠ sweepId orderId counter :=
        fun r hr => Book.id_ne_of_mem_queue hid hr
      have hl : ∀ r ∈ g ++ rest, r.id ≠ sweepId orderId counter :=
        fun r hr => Book.id_ne_of_mem_queue hid (hQ ▸ hr)
      obtain ⟨b₁, hb₁, hcons⟩ := bookSweep_cons hid hQ hp hq (hpvs v (by simp)) h0
      have hturn : (∃ res, bookSweep orderId side counter remaining
            (⟨v.price, v.qty⟩ :: toBookLevels (vs.take k)) b = .ok res) ↔
          ∃ res, bookSweep orderId side (counter + 1) (remaining - min v.qty remaining)
            (toBookLevels (vs.take k)) b₁ = .ok res := by
        constructor
        · rintro ⟨⟨b', ts, left⟩, h⟩
          obtain ⟨us, hus, -⟩ := (hcons _ _ _ _).mp h
          exact ⟨_, hus⟩
        · rintro ⟨⟨b', us, left⟩, h⟩
          exact ⟨_, (hcons _ _ _ _).mpr ⟨us, h, rfl⟩⟩
      refine hturn.trans ?_
      rcases le_or_gt v.qty remaining with hle | hlt
      · have hall : (fill (fun _ => true) v.qty g).rest = [] := by
          rw [← hq, fill_sum _ hposg fun _ _ => rfl]
        rw [min_eq_left hle] at hb₁ ⊢
        rw [hall, List.nil_append] at hb₁
        have hd' := List.nodup_cons.mp hd
        rw [ih hd'.2 (by rw [hb₁]; simp) k (sub_nonneg.mpr hle), hb₁, Book.queue_set_opp']
        refine (turnsFree_cons hp (fun w hw he => hd'.1 ?_) hown hl).symm
        exact List.mem_map.mpr ⟨w, hw, he.symm⟩
      · rw [min_eq_right hlt.le, sub_self]
        refine ⟨fun _ n _ _ hn => ?_, fun _ => ⟨_, bookSweep_of_nonpos le_rfl _ _⟩⟩
        cases n with
        | zero => exact ⟨hown, fun _ _ r hr _ => hl r hr⟩
        | succ n =>
          have := sum_take_nonneg (fun w hw => hpvs w (List.mem_cons_of_mem v hw)) n
          rw [List.take_succ_cons, List.map_cons, List.sum_cons] at hn
          linarith

end Book

/-! ## One crossing -/

/-- The sweep of `executeMarketOrder` for `order` has the trades `ts`, leaves the quantity `left`,
and leaves the book `b'`: the loop settles these trades, as one `settleTrades` would. -/
structure SweepsTo (m : Matcher E) (symbol : String) (order : Order)
    (ts : List EngineTrade) (left : ℚ)
    (b' : E.Book) : Prop where
  book : bookSweep order.id order.side 0 order.quantity
    (oppositeLevels order.side (E.getOrderbook (m.book symbol)))
    (m.book symbol) = .ok (b', ts, left)
  settled : ∀ market rates commandId, ∃ books,
    sweepLevels symbol market order rates commandId 0 0 order.quantity
        (oppositeLevels order.side (E.getOrderbook (m.book symbol))) m =
      ((settleTrades market order rates commandId 0 ts m).1.map fun rows => (rows, left),
        (settleTrades market order rates commandId 0 ts m).2.withBooks books) ∧
    ∀ rows, (settleTrades market order rates commandId 0 ts m).1 = .ok rows →
      (books symbol).getD E.new = b'

theorem oppositeLevels_eq (b : E.Book) (side : OrderSide) :
    oppositeLevels side (E.getOrderbook b) = toBookLevels
      ((levels ((E.resting b).queue (sideToEngine side).opp)).take bookLimit) := by
  rw [E.getOrderbook_eq]
  cases side <;> rfl

/-- The depth of a queue is all that it holds when it has no more levels. -/
theorem depth_eq_sum_iff {l : List (Resting ℕ ℚ ℚ)} (hpos : ∀ r ∈ l, 0 < r.qty) (n : ℕ) :
    depth n l = (l.map (·.qty)).sum ↔ (levels l).length ≤ n := by
  have hG := levels_grouped l
  rw [hG.sum_qty, depth]
  conv_lhs => rhs; rw [← List.take_append_drop n (levels l)]
  rw [List.map_append, List.sum_append]
  constructor
  · intro h
    by_contra hlen
    have hdrop : 0 < (((levels l).drop n).map (·.qty)).sum := by
      refine List.sum_pos _ (fun q hq => ?_) ?_
      · obtain ⟨w, hw, rfl⟩ := List.mem_map.mp hq
        exact hG.pos hpos w (List.mem_of_mem_drop hw)
      · simp only [ne_eq, List.map_eq_nil_iff, List.drop_eq_nil_iff]
        exact hlen
    linarith
  · intro h
    simp [List.drop_eq_nil_of_le h]

/-- The depth of a queue matches as much of a quantity as the whole queue, when it holds the
quantity or has all the levels. -/
theorem min_depth_eq_iff {l : List (Resting ℕ ℚ ℚ)} (hpos : ∀ r ∈ l, 0 < r.qty) (n : ℕ) (q : ℚ) :
    min q (depth n l) = min q (l.map (·.qty)).sum ↔ q ≤ depth n l ∨ (levels l).length ≤ n := by
  have hle : depth n l ≤ (l.map (·.qty)).sum := by
    rw [(levels_grouped l).sum_qty]
    exact ((List.take_sublist n (levels l)).map (·.qty)).sum_le_sum fun q hq => by
      obtain ⟨w, hw, rfl⟩ := List.mem_map.mp hq
      exact ((levels_grouped l).pos hpos w hw).le
  rw [← depth_eq_sum_iff hpos n]
  constructor
  · intro h
    rcases le_or_gt q (depth n l) with hq | hq
    · exact Or.inl hq
    · rw [min_eq_right hq.le] at h
      rcases min_choice q (l.map (·.qty)).sum with hm | hm
      · exact absurd (h.trans hm) hq.ne
      · exact Or.inr (h.trans hm)
  · rintro (hq | h)
    · rw [min_eq_left hq, min_eq_left (hq.trans hle)]
    · rw [h]

/-- The sweep of a snapshot is not refused exactly when its turns find their ids free. -/
theorem bookSweep_snapshot_isOk_iff (b : E.Book) (orderId : ℕ)
    (side : OrderSide) {q : ℚ} (hq : 0 ≤ q) :
    (∃ res, bookSweep orderId side 0 q (oppositeLevels side (E.getOrderbook b)) b = .ok res) ↔
      TurnsFree orderId 0 ((E.resting b).queue (sideToEngine side))
        ((E.resting b).queue (sideToEngine side).opp)
        (levels ((E.resting b).queue (sideToEngine side).opp)) bookLimit q := by
  have hnodup := ((E.resting_wf b).sorted (sideToEngine side).opp).levels.imp before_ne
  rw [oppositeLevels_eq]
  exact bookSweep_isOk_iff (levels_grouped _) hnodup rfl bookLimit hq

/-- The trades of a sweep that is not refused, as a crossing of the whole side. -/
theorem bookSweep_snapshot_eq_ok {b b' : E.Book} {orderId : ℕ} {side : OrderSide} {q left : ℚ}
    {ts : List EngineTrade} (hq : 0 ≤ q)
    (h : bookSweep orderId side 0 q (oppositeLevels side (E.getOrderbook b))
      b = .ok (b', ts, left)) :
    left = q - min q (depth bookLimit ((E.resting b).queue (sideToEngine side).opp)) ∧
    ts = (fill (fun _ => true)
      (min q (depth bookLimit ((E.resting b).queue (sideToEngine side).opp)))
      ((E.resting b).queue (sideToEngine side).opp)).fills.map .ofFill ∧
    E.resting b' = (E.resting b).set (sideToEngine side).opp
      (fill (fun _ => true) (min q (depth bookLimit ((E.resting b).queue (sideToEngine side).opp)))
        ((E.resting b).queue (sideToEngine side).opp)).rest := by
  obtain ⟨front, back, hl, hG, hd⟩ := exists_front_of_depth bookLimit
    ((E.resting b).queue (sideToEngine side).opp)
  rw [oppositeLevels_eq] at h
  obtain ⟨hleft, hts, hrest⟩ := bookSweep_eq_ok hG hq hl h
  have hpos : ∀ r ∈ front, 0 < r.qty := fun r hr =>
    (E.resting_wf b).pos (sideToEngine side).opp r (by rw [hl]; simp [hr])
  obtain ⟨hfills, hback, hleave⟩ := fill_front hpos hq back
  rw [hd, ← hl] at hfills hback
  rw [hd] at hleave
  refine ⟨hleft.trans hleave, ?_, ?_⟩
  · rw [hts, hfills]
  · rw [hrest, hback]

/-- **When a market sweep is one crossing.** The trades and the remaining quantity of the sweep of
`order` are those of one order at a price that crosses the whole opposite side, and something
remains only if that side is empty afterwards, exactly when its turns find their ids free and the
levels of the snapshot hold the quantity of the order or are all levels there are. -/
theorem market_sweep_iff (m : Matcher E) (symbol : String) (order : Order) (hq : 0 < order.quantity)
    (id : ℕ) (hid : id ∉ (m.queues symbol).ids) (price : ℚ)
    (hprice : ∀ r ∈ (m.queues symbol).queue (sideToEngine order.side).opp,
      crosses (sideToEngine order.side) price r.price = true) :
    (∃ b' b₁ cross, E.add (m.book symbol) id (sideToEngine order.side) price order.quantity =
        .ok (b₁, cross) ∧
      SweepsTo m symbol order cross.trades cross.leaveQuantity b' ∧
      (E.resting b').queue (sideToEngine order.side).opp =
        (E.resting b₁).queue (sideToEngine order.side).opp ∧
      (0 < cross.leaveQuantity → (E.resting b').queue (sideToEngine order.side).opp = [])) ↔
    TurnsFree order.id 0 ((m.queues symbol).queue (sideToEngine order.side))
        ((m.queues symbol).queue (sideToEngine order.side).opp)
        (levels ((m.queues symbol).queue (sideToEngine order.side).opp)) bookLimit order.quantity ∧
      (order.quantity ≤ depth bookLimit ((m.queues symbol).queue (sideToEngine order.side).opp) ∨
        (levels ((m.queues symbol).queue (sideToEngine order.side).opp)).length ≤ bookLimit) := by
  unfold Matcher.queues at *
  have hpos := (E.resting_wf (m.book symbol)).pos (sideToEngine order.side).opp
  have hok := bookSweep_snapshot_isOk_iff (m.book symbol) order.id order.side hq.le
  -- the single order crosses the whole side
  obtain ⟨b₁, hadd, hb₁⟩ := E.add_new (m.book symbol) id
    (sideToEngine order.side) price order.quantity
    hid hq
  obtain ⟨hfills, hrest, hleave⟩ := fill_front hpos hq.le []
  simp only [List.append_nil] at hfills hrest
  rw [Book.add_leave, Book.add_fills, fill_of_crosses _ hprice, hfills, hleave] at hadd
  have hopp := (E.resting (m.book symbol)).queue_opp_add id (sideToEngine order.side) price
    order.quantity
  rw [← hb₁, fill_of_crosses _ hprice] at hopp
  rw [← min_depth_eq_iff hpos]
  constructor
  · rintro ⟨b', b₂, cross, hadd', hsweep, -, -⟩
    rw [hadd] at hadd'
    cases hadd'
    obtain ⟨hleft, -⟩ := bookSweep_snapshot_eq_ok hq.le hsweep.book
    exact ⟨hok.mp ⟨_, hsweep.book⟩, (sub_right_injective hleft).symm⟩
  · rintro ⟨hfree, hmin⟩
    obtain ⟨⟨b', ts, left⟩, hsweep⟩ := hok.mpr hfree
    obtain ⟨rfl, rfl, hb'⟩ := bookSweep_snapshot_eq_ok hq.le hsweep
    rw [hmin] at hsweep hb'
    have hqueue : (E.resting b').queue (sideToEngine order.side).opp =
        (E.resting b₁).queue (sideToEngine order.side).opp := by
      rw [hb', Book.queue_set_self, hopp, ← hrest]
    refine ⟨b', b₁, _, hadd, ⟨hsweep, fun _ _ _ => sweepLevels_eq_settleTrades _ _ _ _ hsweep⟩,
      hqueue,
      fun hpositive => ?_⟩
    rw [hqueue, hopp]
    refine List.eq_nil_iff_forall_not_mem.mpr fun r hr => ?_
    have := not_crosses_of_leave_pos (fun _ => true) (List.pairwise_of_forall fun _ _ h => h)
      (hleave ▸ hpositive) r hr
    cases this

namespace SweepSample

/-- A book with asks of one unit at the prices `1` to `n`. -/
def asks (n : ℕ) : Engine.priceTime.Book :=
  (List.range n).foldl (fun b i =>
    match Engine.priceTime.add b (i + 1) .ask (i + 1) 1 with
    | .ok (b', _) => b'
    | .error _ => b) Engine.priceTime.new

/-- A matcher with that book. -/
def matcher (n : ℕ) : Matcher Engine.priceTime where
  store := Orbit.Sample.store
  books symbol := if symbol = "BTC-USDT" then some (asks n) else none
  localSeq := 0
  orderbookSeq := 0

/-- A `MARKET` `BID` of `n` units. -/
def bid (n : ℕ) : Order where
  id := 100
  userId := "alice"
  market := "BTC-USDT"
  side := .BID
  type := .MARKET
  price := none
  quantity := n
  leaveQty := n
  filledQty := 0
  status := .OPEN
  commandId := none

end SweepSample

/-- A bid for all of two levels is filled as by one crossing order. -/
theorem market_sweep_two_levels : 0 < (SweepSample.bid 2).quantity ∧
    ∃ b', SweepsTo (SweepSample.matcher 2) "BTC-USDT" (SweepSample.bid 2)
      [⟨1, 1, 1⟩, ⟨2, 2, 1⟩] 0 b' := by
  refine ⟨by decide +kernel, ?_⟩
  have hcross : (Engine.priceTime.add ((SweepSample.matcher 2).book "BTC-USDT") 101 .bid 2
      (SweepSample.bid 2).quantity).map (·.2) = .ok ⟨0, [⟨1, 1, 1⟩, ⟨2, 2, 1⟩]⟩ := by decide +kernel
  obtain ⟨b', b₁, cross, hadd, hsweep, -, -⟩ := (market_sweep_iff (SweepSample.matcher 2) "BTC-USDT"
    (SweepSample.bid 2) (by decide +kernel) 101 (by decide +kernel) 2 (by decide +kernel)).mpr
      (by decide +kernel)
  obtain rfl : cross = ⟨0, [⟨1, 1, 1⟩, ⟨2, 2, 1⟩]⟩ := by
    rw [show Engine.priceTime.add ((SweepSample.matcher 2).book "BTC-USDT") 101 .bid 2
      (SweepSample.bid 2).quantity = .ok (b₁, cross) from hadd] at hcross
    exact Except.ok.inj hcross
  exact ⟨b', hsweep⟩

/-- A bid for sixteen levels stops behind the fifteenth. -/
theorem market_sweep_sixteen_levels : 0 < (SweepSample.bid 16).quantity ∧
    101 ∉ ((SweepSample.matcher 16).queues "BTC-USDT").ids ∧
    (∀ r ∈ ((SweepSample.matcher 16).queues "BTC-USDT").queue .ask,
      crosses .bid 16 r.price = true) ∧
    ¬∃ b' b₁ cross, Engine.priceTime.add ((SweepSample.matcher 16).book "BTC-USDT") 101 .bid 16
        (SweepSample.bid 16).quantity = .ok (b₁, cross) ∧
      SweepsTo (SweepSample.matcher 16) "BTC-USDT" (SweepSample.bid 16) cross.trades
        cross.leaveQuantity b' := by
  refine ⟨by decide +kernel, by decide +kernel, by decide +kernel, ?_⟩
  rintro ⟨b', b₁, cross, hadd, hsweep⟩
  have hcross : (Engine.priceTime.add ((SweepSample.matcher 16).book "BTC-USDT") 101 .bid 16
      (SweepSample.bid 16).quantity).map (·.2.leaveQuantity) = .ok 0 := by decide +kernel
  have hswept : (bookSweep (SweepSample.bid 16).id (SweepSample.bid 16).side 0
      (SweepSample.bid 16).quantity
      (oppositeLevels (SweepSample.bid 16).side
        (Engine.priceTime.getOrderbook ((SweepSample.matcher 16).book "BTC-USDT")))
      ((SweepSample.matcher 16).book "BTC-USDT")).map (·.2.2) = .ok 1 := by decide +kernel
  rw [hadd] at hcross
  rw [hsweep.book] at hswept
  have h₀ : cross.leaveQuantity = 0 := Except.ok.inj hcross
  have h₁ : cross.leaveQuantity = 1 := Except.ok.inj hswept
  rw [h₀] at h₁
  exact absurd h₁ (by decide)

end Settler

end Orbit
