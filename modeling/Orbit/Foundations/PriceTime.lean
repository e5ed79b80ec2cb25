import Mathlib.Algebra.Order.Ring.Defs
import Mathlib.Algebra.Order.BigOperators.Group.List
import Mathlib.Data.List.Pairwise
import Mathlib.Tactic.Linarith
import Mathlib.Tactic.Ring

/-!
# Price-time priority books

A book holds, for each side, the queue of its resting orders in the order in which they are
matched: best price first and, at one price, first come first. `add` crosses an incoming order with
the opposite queue from its head (`fill`), every trade at the resting order's price, and queues what
is left behind the orders of its own side with a price at least as good (`enqueue`). `cancel`
removes an order, and `levels` aggregates a queue by price.

* Matching conserves quantity: `fill_conserves`.
* Matching consumes the opposite queue from its head: `Consumed`, `fill_consumed`.
* Matching and cancelling only ever take away from a queue: `Shrunk`, `Consumed.shrunk`,
  `filter_shrunk`.
* `Book.WF` (queues sorted by price, ids distinct, quantities positive, sides uncrossed) is kept by
  both operations: `Book.WF.add`, `Book.WF.cancel`.
* A queue is grouped into its levels, `levels_grouped`, and a sweep by levels consumes one group
  after the other: `fill_append`, `fill_append_of_le`.
-/

namespace Orbit.PriceTime

/-- The two sides of a book. -/
inductive Side
  | bid
  | ask
  deriving DecidableEq, Repr

/-- The side an order trades against. -/
def Side.opp : Side → Side
  | .bid => .ask
  | .ask => .bid

@[simp] theorem Side.opp_opp (s : Side) : s.opp.opp = s := by cases s <;> rfl

theorem Side.opp_ne (s : Side) : s.opp ≠ s := by cases s <;> simp [opp]

theorem Side.eq_or_eq_opp (s t : Side) : t = s ∨ t = s.opp := by cases s <;> cases t <;> simp [opp]

/-- An order resting in a queue. -/
structure Resting (ι P Q : Type) where
  id : ι
  price : P
  qty : Q
  deriving DecidableEq, Repr

/-- A trade with the resting order `id`, at its price. -/
structure Fill (ι P Q : Type) where
  id : ι
  price : P
  qty : Q
  deriving DecidableEq, Repr

/-- The aggregate of the orders of one price. -/
structure Level (P Q : Type) where
  price : P
  qty : Q
  deriving DecidableEq, Repr

/-- What crossing a queue gives: the trades, the queue that remains, and the quantity left. -/
structure Filled (ι P Q : Type) where
  fills : List (Fill ι P Q)
  rest : List (Resting ι P Q)
  leave : Q

variable {ι P Q : Type}

section Queue

variable [CommRing Q] [LinearOrder Q]

/-- Cross quantity `q` with a queue, from its head, while `crosses` holds of the price. -/
def fill (crosses : P → Bool) : Q → List (Resting ι P Q) → Filled ι P Q
  | q, [] => ⟨[], [], q⟩
  | q, r :: rs =>
    if crosses r.price = true ∧ 0 < q then
      if r.qty ≤ q then
        let f := fill crosses (q - r.qty) rs
        ⟨⟨r.id, r.price, r.qty⟩ :: f.fills, f.rest, f.leave⟩
      else ⟨[⟨r.id, r.price, q⟩], { r with qty := r.qty - q } :: rs, 0⟩
    else ⟨[], r :: rs, q⟩

/-- Queue an order behind those that `before` does not let it overtake. -/
def enqueue (before : P → P → Bool) (r : Resting ι P Q) :
    List (Resting ι P Q) → List (Resting ι P Q)
  | [] => [r]
  | x :: xs => if before r.price x.price = true then r :: x :: xs else x :: enqueue before r xs

/-- The levels of a queue: adjacent orders of one price, aggregated. -/
def levels [DecidableEq P] : List (Resting ι P Q) → List (Level P Q)
  | [] => []
  | r :: rs =>
    match levels rs with
    | [] => [⟨r.price, r.qty⟩]
    | l :: ls =>
      if l.price = r.price then ⟨r.price, r.qty + l.qty⟩ :: ls else ⟨r.price, r.qty⟩ :: l :: ls

/-! ## Taking away from a queue -/

/-- `Shrunk new old`: `new` is `old` with some orders removed and some quantities reduced. -/
inductive Shrunk : List (Resting ι P Q) → List (Resting ι P Q) → Prop
  | nil : Shrunk [] []
  | drop {new old} (r : Resting ι P Q) (h : Shrunk new old) : Shrunk new (r :: old)
  | keep {new old} (r : Resting ι P Q) {q : Q} (hq : 0 < q) (hle : q ≤ r.qty)
      (h : Shrunk new old) : Shrunk ({ r with qty := q } :: new) (r :: old)

namespace Shrunk

theorem refl : ∀ {l : List (Resting ι P Q)}, (∀ r ∈ l, 0 < r.qty) → Shrunk l l
  | [], _ => .nil
  | r :: _, h => .keep r (h r (by simp)) le_rfl (refl fun x hx => h x (by simp [hx]))

theorem trans {a b c : List (Resting ι P Q)} (h₁ : Shrunk a b) (h₂ : Shrunk b c) : Shrunk a c := by
  induction h₂ generalizing a with
  | nil => exact h₁
  | drop r _ ih => exact .drop r (ih h₁)
  | keep r hq hle _ ih =>
    cases h₁ with
    | drop _ h => exact .drop r (ih h)
    | keep _ hq' hle' h => exact .keep r hq' (hle'.trans hle) (ih h)

/-- An order of the smaller queue is one of the larger, with at most its quantity. -/
theorem exists_of_mem {new old : List (Resting ι P Q)} (h : Shrunk new old) {r : Resting ι P Q}
    (hr : r ∈ new) : ∃ r₀ ∈ old, r₀.id = r.id ∧ r₀.price = r.price ∧
    0 < r.qty ∧ r.qty ≤ r₀.qty := by
  induction h with
  | nil => simp at hr
  | drop x _ ih =>
    obtain ⟨r₀, h₀, h⟩ := ih hr
    exact ⟨r₀, by simp [h₀], h⟩
  | keep x hq hle _ ih =>
    rcases List.mem_cons.mp hr with rfl | hr
    · exact ⟨x, by simp, rfl, rfl, hq, hle⟩
    · obtain ⟨r₀, h₀, h⟩ := ih hr
      exact ⟨r₀, by simp [h₀], h⟩

theorem map_id_sublist {new old : List (Resting ι P Q)} (h : Shrunk new old) :
    (new.map (·.id)).Sublist (old.map (·.id)) := by
  induction h with
  | nil => simp
  | drop r _ ih => exact ih.cons _
  | keep r _ _ _ ih => exact ih.cons_cons _

theorem sum_qty_le [IsStrictOrderedRing Q] {new old : List (Resting ι P Q)} (h : Shrunk new old)
    (hold : ∀ r ∈ old, 0 < r.qty) : (new.map (·.qty)).sum ≤ (old.map (·.qty)).sum := by
  induction h with
  | nil => simp
  | drop r _ ih =>
    have := hold r (by simp)
    have := ih fun x hx => hold x (by simp [hx])
    simp only [List.map_cons, List.sum_cons]
    linarith
  | keep r _ hle _ ih =>
    have := ih fun x hx => hold x (by simp [hx])
    simp only [List.map_cons, List.sum_cons]
    linarith

theorem map_price_sublist {new old : List (Resting ι P Q)} (h : Shrunk new old) :
    (new.map (·.price)).Sublist (old.map (·.price)) := by
  induction h with
  | nil => simp
  | drop r _ ih => exact ih.cons _
  | keep r _ _ _ ih => exact ih.cons_cons _

end Shrunk

theorem filter_shrunk {l : List (Resting ι P Q)} (hl : ∀ r ∈ l, 0 < r.qty)
    (p : Resting ι P Q → Bool) : Shrunk (l.filter p) l := by
  induction l with
  | nil => exact .nil
  | cons r l ih =>
    have ih := ih fun x hx => hl x (by simp [hx])
    by_cases hp : p r = true
    · rw [List.filter_cons_of_pos hp]
      exact .keep r (hl r (by simp)) le_rfl ih
    · rw [List.filter_cons_of_neg hp]
      exact .drop r ih

/-! ## Crossing a queue -/

section Crossing

variable (crosses : P → Bool)

@[simp] theorem fill_nil (q : Q) : fill crosses q ([] : List (Resting ι P Q)) = ⟨[], [], q⟩ := rfl

theorem fill_cons_full {q : Q} {r : Resting ι P Q} (hc : crosses r.price = true) (hq : 0 < q)
    (hr : r.qty ≤ q) (rs : List (Resting ι P Q)) :
    fill crosses q (r :: rs) = ⟨⟨r.id, r.price, r.qty⟩ :: (fill crosses (q - r.qty) rs).fills,
      (fill crosses (q - r.qty) rs).rest, (fill crosses (q - r.qty) rs).leave⟩ := by
  rw [fill, if_pos ⟨hc, hq⟩, if_pos hr]

theorem fill_cons_part {q : Q} {r : Resting ι P Q} (hc : crosses r.price = true) (hq : 0 < q)
    (hr : q < r.qty) (rs : List (Resting ι P Q)) :
    fill crosses q (r :: rs) =
      ⟨[⟨r.id, r.price, q⟩], { r with qty := r.qty - q } :: rs, 0⟩ := by
  rw [fill, if_pos ⟨hc, hq⟩, if_neg (not_le.mpr hr)]

theorem fill_cons_stop {q : Q} {r : Resting ι P Q} (h : ¬(crosses r.price = true ∧ 0 < q))
    (rs : List (Resting ι P Q)) : fill crosses q (r :: rs) = ⟨[], r :: rs, q⟩ := by
  rw [fill, if_neg h]

/-- A rule of induction for `fill`: the queue ends, the head is filled whole, the head is filled in
part, or the head stops the matching. -/
theorem fill_induction {motive : Q → List (Resting ι P Q) → Filled ι P Q → Prop}
    (nil : ∀ q, motive q [] ⟨[], [], q⟩)
    (full : ∀ q r rs, crosses r.price = true → 0 < q → r.qty ≤ q →
      motive (q - r.qty) rs (fill crosses (q - r.qty) rs) →
      motive q (r :: rs) ⟨⟨r.id, r.price, r.qty⟩ :: (fill crosses (q - r.qty) rs).fills,
        (fill crosses (q - r.qty) rs).rest, (fill crosses (q - r.qty) rs).leave⟩)
    (part : ∀ q r rs, crosses r.price = true → 0 < q → q < r.qty →
      motive q (r :: rs) ⟨[⟨r.id, r.price, q⟩], { r with qty := r.qty - q } :: rs, 0⟩)
    (stop : ∀ q r rs, ¬(crosses r.price = true ∧ 0 < q) → motive q (r :: rs) ⟨[], r :: rs, q⟩)
    (q : Q) (l : List (Resting ι P Q)) : motive q l (fill crosses q l) := by
  induction l generalizing q with
  | nil => exact nil q
  | cons r rs ih =>
    by_cases h : crosses r.price = true ∧ 0 < q
    · rcases le_or_gt r.qty q with hr | hr
      · rw [fill_cons_full crosses h.1 h.2 hr]
        exact full q r rs h.1 h.2 hr (ih _)
      · rw [fill_cons_part crosses h.1 h.2 hr]
        exact part q r rs h.1 h.2 hr
    · rw [fill_cons_stop crosses h]
      exact stop q r rs h

/-- **Matching conserves quantity**: what was traded and what is left add up to what came in. -/
theorem fill_conserves (q : Q) (l : List (Resting ι P Q)) :
    ((fill crosses q l).fills.map (·.qty)).sum + (fill crosses q l).leave = q := by
  refine fill_induction crosses (motive := fun q _ f => (f.fills.map (·.qty)).sum + f.leave = q)
    (fun q => by simp) (fun q r rs _ _ _ ih => ?_) (fun q r rs _ _ _ => by simp)
    (fun q r rs _ => by simp) q l
  simp only [List.map_cons, List.sum_cons, add_assoc, ih]
  ring

section Ordered

variable [IsStrictOrderedRing Q]

theorem fill_leave_nonneg {q : Q} (hq : 0 ≤ q) (l : List (Resting ι P Q)) :
    0 ≤ (fill crosses q l).leave := by
  refine fill_induction crosses (motive := fun q _ f => 0 ≤ q → 0 ≤ f.leave) (fun q h => h)
    (fun q r rs _ _ hr ih _ => ih (sub_nonneg.mpr hr)) (fun q r rs _ _ _ _ => le_rfl)
    (fun q r rs _ h => h) q l hq

theorem fill_leave_le {q : Q} {l : List (Resting ι P Q)} (hl : ∀ r ∈ l, 0 < r.qty) (hq : 0 ≤ q) :
    (fill crosses q l).leave ≤ q := by
  refine fill_induction crosses
    (motive := fun q l f => (∀ r ∈ l, 0 < r.qty) → 0 ≤ q → f.leave ≤ q) (fun q _ _ => le_rfl)
    (fun q r rs _ _ hr ih hl _ => ?_) (fun q r rs _ h _ _ _ => h.le) (fun q r rs _ _ _ => le_rfl)
    q l hl hq
  have := ih (fun x hx => hl x (by simp [hx])) (sub_nonneg.mpr hr)
  have := hl r (by simp)
  linarith

omit [IsStrictOrderedRing Q] in
theorem crosses_of_mem_fills {q : Q} {l : List (Resting ι P Q)} {f : Fill ι P Q}
    (hf : f ∈ (fill crosses q l).fills) : crosses f.price = true := by
  refine fill_induction crosses (motive := fun _ _ g => ∀ f ∈ g.fills, crosses f.price = true)
    (fun q f hf => by simp at hf) (fun q r rs hc _ _ ih f hf => ?_)
    (fun q r rs hc _ _ f hf => ?_) (fun q r rs _ f hf => by simp at hf) q l f hf
  · rcases List.mem_cons.mp hf with rfl | hf
    · exact hc
    · exact ih f hf
  · obtain rfl : f = ⟨r.id, r.price, q⟩ := by simpa using hf
    exact hc

omit [IsStrictOrderedRing Q] in
/-- What is left of an order that is not filled whole crosses nothing that remains, when the queue
is sorted so that an order behind one that does not cross does not cross either. -/
theorem not_crosses_of_leave_pos {l : List (Resting ι P Q)}
    (hl : l.Pairwise fun x y => crosses y.price = true → crosses x.price = true) {q : Q}
    (h : 0 < (fill crosses q l).leave) : ∀ r ∈ (fill crosses q l).rest,
      crosses r.price = false := by
  refine fill_induction crosses (motive := fun _ l f =>
    l.Pairwise (fun x y => crosses y.price = true → crosses x.price = true) → 0 < f.leave →
      ∀ r ∈ f.rest, crosses r.price = false)
    (fun q _ _ r hr => by simp at hr) (fun q r rs _ _ _ ih hl => ih (List.pairwise_cons.mp hl).2)
    (fun q r rs _ _ _ _ h => absurd h (lt_irrefl _)) (fun q r rs hstop hl h x hx => ?_) q l hl h
  have hr : ¬crosses r.price = true := fun hc => hstop ⟨hc, h⟩
  rcases List.mem_cons.mp hx with rfl | hx
  · simpa using hr
  · simpa using fun hc => hr ((List.pairwise_cons.mp hl).1 x hx hc)

omit [IsStrictOrderedRing Q] in
/-- Crossing a queue that crosses whole. -/
theorem fill_of_crosses {l : List (Resting ι P Q)} (hc : ∀ r ∈ l, crosses r.price = true) (q : Q) :
    fill crosses q l = fill (fun _ => true) q l := by
  induction l generalizing q with
  | nil => rfl
  | cons r rs ih =>
    have ih := ih fun x hx => hc x (by simp [hx])
    rw [fill, fill, hc r (by simp), ih]

/-- Crossing a queue whose first orders all cross and add up to `a`, with at least `a`: they are
filled whole, and matching goes on behind them. -/
theorem fill_append {front : List (Resting ι P Q)} (hpos : ∀ r ∈ front, 0 < r.qty)
    (hc : ∀ r ∈ front, crosses r.price = true) {b : Q} (hb : 0 ≤ b)
    (back : List (Resting ι P Q)) :
    fill crosses ((front.map (·.qty)).sum + b) (front ++ back) =
      ⟨front.map (fun r => ⟨r.id, r.price, r.qty⟩) ++ (fill crosses b back).fills,
        (fill crosses b back).rest, (fill crosses b back).leave⟩ := by
  induction front with
  | nil => simp
  | cons r rs ih =>
    have h0 := hpos r (by simp)
    have hrs : 0 ≤ (rs.map (·.qty)).sum :=
      List.sum_nonneg (by simpa using fun x hx => (hpos x (by simp [hx])).le)
    have ih := ih (fun x hx => hpos x (by simp [hx])) (fun x hx => hc x (by simp [hx]))
    have e : r.qty + (rs.map (·.qty)).sum + b - r.qty = (rs.map (·.qty)).sum + b := by ring
    rw [List.map_cons, List.sum_cons, List.cons_append,
      fill_cons_full crosses (hc r (by simp)) (by linarith) (by linarith), e, ih]
    rfl

/-- Crossing a queue with all that it holds. -/
theorem fill_sum {l : List (Resting ι P Q)} (hpos : ∀ r ∈ l, 0 < r.qty)
    (hc : ∀ r ∈ l, crosses r.price = true) :
    fill crosses (l.map (·.qty)).sum l = ⟨l.map (fun r => ⟨r.id, r.price, r.qty⟩), [], 0⟩ := by
  simpa using fill_append crosses hpos hc le_rfl []

omit [IsStrictOrderedRing Q] in
theorem fill_of_nonpos {q : Q} (hq : q ≤ 0) (l : List (Resting ι P Q)) :
    fill crosses q l = ⟨[], l, q⟩ := by
  cases l with
  | nil => rfl
  | cons r rs => exact fill_cons_stop crosses (fun h => absurd h.2 (not_lt.mpr hq)) rs

omit [IsStrictOrderedRing Q] in
theorem fill_of_not_crosses (q : Q) {l : List (Resting ι P Q)}
    (hl : ∀ r ∈ l, crosses r.price = false) : fill crosses q l = ⟨[], l, q⟩ := by
  cases l with
  | nil => rfl
  | cons r rs =>
    refine fill_cons_stop crosses (fun h => ?_) rs
    rw [hl r (by simp)] at h
    cases h.1

/-- Crossing a queue whose first orders all cross and add up to at least the quantity that comes in:
nothing is left of it, and nothing behind them is touched. -/
theorem fill_append_of_le {front : List (Resting ι P Q)} (hc : ∀ r ∈ front, crosses r.price = true)
    {q : Q} (h0 : 0 ≤ q) (hq : q ≤ (front.map (·.qty)).sum) (back : List (Resting ι P Q)) :
    fill crosses q (front ++ back) =
      ⟨(fill (fun _ => true) q front).fills, (fill (fun _ => true) q front).rest ++ back, 0⟩ := by
  induction front generalizing q with
  | nil =>
    obtain rfl : q = 0 := le_antisymm (by simpa using hq) h0
    rw [List.nil_append, fill_of_nonpos crosses le_rfl]
    simp
  | cons r rs ih =>
    rcases h0.eq_or_lt with rfl | h0
    · rw [fill_of_nonpos crosses le_rfl, fill_of_nonpos _ le_rfl]
    rcases le_or_gt r.qty q with hr | hr
    · rw [List.cons_append, fill_cons_full crosses (hc r (by simp)) h0 hr,
        fill_cons_full _ rfl h0 hr, ih (fun x hx => hc x (by simp [hx])) (sub_nonneg.mpr hr)]
      simp only [List.map_cons, List.sum_cons] at hq
      linarith
    · rw [List.cons_append, fill_cons_part crosses (hc r (by simp)) h0 hr,
        fill_cons_part _ rfl h0 hr]
      rfl

end Ordered

end Crossing

/-! ## Consuming a queue from its head -/

/-- `Consumed l fs rest`: the trades `fs` take orders off the head of `l`, each for its whole
quantity but the last, which may take a part, and `rest` is what remains. -/
inductive Consumed : List (Resting ι P Q) → List (Fill ι P Q) → List (Resting ι P Q) → Prop
  | refl (l) : Consumed l [] l
  | full {l fs rest} (r : Resting ι P Q) (h : Consumed l fs rest) :
      Consumed (r :: l) (⟨r.id, r.price, r.qty⟩ :: fs) rest
  | part (l) (r : Resting ι P Q) {q : Q} (h0 : 0 < q) (hq : q < r.qty) :
      Consumed (r :: l) [⟨r.id, r.price, q⟩] ({ r with qty := r.qty - q } :: l)

/-- Crossing a queue consumes it. -/
theorem fill_consumed (crosses : P → Bool) (q : Q) (l : List (Resting ι P Q)) :
    Consumed l (fill crosses q l).fills (fill crosses q l).rest :=
  fill_induction crosses (motive := fun _ l f => Consumed l f.fills f.rest) (fun _ => .refl _)
    (fun _ r _ _ _ _ ih => .full r ih) (fun _ r rs _ h0 hr => .part rs r h0 hr)
    (fun _ _ _ _ => .refl _) q l

namespace Consumed

variable {l rest : List (Resting ι P Q)} {fs : List (Fill ι P Q)}

theorem append (h : Consumed l fs rest) (back : List (Resting ι P Q)) :
    Consumed (l ++ back) fs (rest ++ back) := by
  induction h with
  | refl l => exact .refl _
  | full r _ ih => exact .full r ih
  | part l r h0 hq => exact .part (l ++ back) r h0 hq

theorem map_id_sublist (h : Consumed l fs rest) :
    (fs.map (·.id)).Sublist (l.map (·.id)) := by
  induction h with
  | refl l => simp
  | full r _ ih => exact ih.cons_cons _
  | part l r _ _ => exact (List.nil_sublist _).cons_cons _

theorem rest_map_id_sublist (h : Consumed l fs rest) :
    (rest.map (·.id)).Sublist (l.map (·.id)) := by
  induction h with
  | refl l => exact .refl _
  | full r _ ih => exact ih.cons _
  | part l r _ _ => exact .refl _

/-- What was traded and what remains add up to what there was. -/
theorem sum_qty (h : Consumed l fs rest) :
    (fs.map (·.qty)).sum + (rest.map (·.qty)).sum = (l.map (·.qty)).sum := by
  induction h with
  | refl l => simp
  | full r _ ih =>
    simp only [List.map_cons, List.sum_cons, ← ih]
    ring
  | part l r _ _ =>
    simp only [List.map_cons, List.sum_cons, List.map_nil, List.sum_nil]
    ring

/-- A trade is with an order of the queue, at its price, for at most its quantity. -/
theorem exists_of_mem_fills (h : Consumed l fs rest) (hl : ∀ r ∈ l, 0 < r.qty) {f : Fill ι P Q}
    (hf : f ∈ fs) : ∃ r ∈ l, r.id = f.id ∧ r.price = f.price ∧ 0 < f.qty ∧ f.qty ≤ r.qty := by
  induction h with
  | refl l => simp at hf
  | full r _ ih =>
    rcases List.mem_cons.mp hf with rfl | hf
    · exact ⟨r, by simp, rfl, rfl, hl r (by simp), le_rfl⟩
    · obtain ⟨x, hx, h⟩ := ih (fun x hx => hl x (by simp [hx])) hf
      exact ⟨x, by simp [hx], h⟩
  | part l r h0 hq =>
    obtain rfl : f = ⟨r.id, r.price, _⟩ := by simpa using hf
    exact ⟨r, by simp, rfl, rfl, h0, hq.le⟩

/-- **What a trade leaves of an order**: an order of the queue is untouched, or one trade takes it
whole and it is gone, or one trade takes a part and the rest stays. -/
theorem cases_of_mem (h : Consumed l fs rest) (hd : (l.map (·.id)).Nodup) {r : Resting ι P Q}
    (hr : r ∈ l) :
    (r ∈ rest ∧ r.id ∉ fs.map (·.id)) ∨
    (∃ f ∈ fs, f.id = r.id ∧ f.qty = r.qty ∧ r.id ∉ rest.map (·.id)) ∨
    (∃ f ∈ fs, f.id = r.id ∧ 0 < f.qty ∧ f.qty < r.qty ∧
      { r with qty := r.qty - f.qty } ∈ rest) := by
  induction h with
  | refl l => exact Or.inl ⟨hr, by simp⟩
  | @full l fs rest x h ih =>
    rw [List.map_cons, List.nodup_cons] at hd
    rcases List.mem_cons.mp hr with rfl | hr
    · refine Or.inr (Or.inl ⟨_, List.mem_cons_self, rfl, rfl, fun hmem => hd.1 ?_⟩)
      exact h.rest_map_id_sublist.subset hmem
    · have hne : r.id ≠ x.id := fun e => hd.1 (e ▸ List.mem_map_of_mem hr)
      rcases ih hd.2 hr with ⟨h₁, h₂⟩ | ⟨f, hf, h⟩ | ⟨f, hf, h⟩
      · refine Or.inl ⟨h₁, ?_⟩
        rw [List.map_cons, List.mem_cons, not_or]
        exact ⟨hne, h₂⟩
      · exact Or.inr (Or.inl ⟨f, List.mem_cons_of_mem _ hf, h⟩)
      · exact Or.inr (Or.inr ⟨f, List.mem_cons_of_mem _ hf, h⟩)
  | @part l x q h0 hq =>
    rw [List.map_cons, List.nodup_cons] at hd
    rcases List.mem_cons.mp hr with rfl | hr
    · exact Or.inr (Or.inr ⟨_, List.mem_cons_self, rfl, h0, hq, List.mem_cons_self⟩)
    · refine Or.inl ⟨List.mem_cons_of_mem _ hr, ?_⟩
      have hne : r.id ≠ x.id := fun e => hd.1 (e ▸ List.mem_map_of_mem hr)
      simpa using hne

/-- What remains of a queue was there before: untouched, or one trade took a part of it. -/
theorem exists_of_mem_rest (h : Consumed l fs rest) (hd : (l.map (·.id)).Nodup)
    {r : Resting ι P Q} (hr : r ∈ rest) :
    (r ∈ l ∧ r.id ∉ fs.map (·.id)) ∨
    ∃ r₀ ∈ l, ∃ f ∈ fs, f.id = r₀.id ∧ r = { r₀ with qty := r₀.qty - f.qty } := by
  induction h with
  | refl l => exact Or.inl ⟨hr, by simp⟩
  | @full l fs rest x h ih =>
    rw [List.map_cons, List.nodup_cons] at hd
    rcases ih hd.2 hr with ⟨h₁, h₂⟩ | ⟨r₀, hr₀, f, hf, h⟩
    · refine Or.inl ⟨List.mem_cons_of_mem _ h₁, ?_⟩
      rw [List.map_cons, List.mem_cons, not_or]
      have hne : r.id ≠ x.id := fun e => hd.1 (e ▸ List.mem_map_of_mem h₁)
      exact ⟨hne, h₂⟩
    · exact Or.inr ⟨r₀, List.mem_cons_of_mem _ hr₀, f, List.mem_cons_of_mem _ hf, h⟩
  | @part l x q h0 hq =>
    rw [List.map_cons, List.nodup_cons] at hd
    rcases List.mem_cons.mp hr with rfl | hr
    · exact Or.inr ⟨x, List.mem_cons_self, _, List.mem_cons_self, rfl, rfl⟩
    · refine Or.inl ⟨List.mem_cons_of_mem _ hr, ?_⟩
      have hne : r.id ≠ x.id := fun e => hd.1 (e ▸ List.mem_map_of_mem hr)
      simpa using hne

theorem shrunk [IsStrictOrderedRing Q] (h : Consumed l fs rest) (hl : ∀ r ∈ l, 0 < r.qty) :
    Shrunk rest l := by
  induction h with
  | refl l => exact .refl hl
  | full r _ ih => exact .drop r (ih fun x hx => hl x (by simp [hx]))
  | part l r h0 hq =>
    exact .keep r (sub_pos.mpr hq) (by linarith) (.refl fun x hx => hl x (by simp [hx]))

end Consumed

/-! ## Levels -/

/-- `Grouped l vs`: the queue `l` is made of one run of orders for each level of `vs`, all of its
price, and adding up to its quantity. -/
inductive Grouped : List (Resting ι P Q) → List (Level P Q) → Prop
  | nil : Grouped [] []
  | cons {g rest vs} (v : Level P Q) (hne : g ≠ []) (hp : ∀ r ∈ g, r.price = v.price)
      (hq : (g.map (·.qty)).sum = v.qty) (h : Grouped rest vs) : Grouped (g ++ rest) (v :: vs)

omit [LinearOrder Q] in
/-- **A queue is grouped into its levels.** -/
theorem levels_grouped [DecidableEq P] (l : List (Resting ι P Q)) : Grouped l (levels l) := by
  induction l with
  | nil => exact .nil
  | cons r rs ih =>
    rw [levels]
    cases hrs : levels rs with
    | nil =>
      rw [hrs] at ih
      exact .cons (g := [r]) ⟨r.price, r.qty⟩ (by simp) (by simp) (by simp) ih
    | cons w ws =>
      rw [hrs] at ih
      by_cases hp : w.price = r.price
      · simp only [if_pos hp]
        cases ih with
        | @cons g rest _ _ hne hg hq h =>
          refine .cons (g := r :: g) ⟨r.price, r.qty + w.qty⟩ (by simp) ?_ (by simp [hq]) h
          intro x hx
          rcases List.mem_cons.mp hx with rfl | hx
          · rfl
          · exact (hg x hx).trans hp
      · simp only [if_neg hp]
        exact .cons (g := [r]) ⟨r.price, r.qty⟩ (by simp) (by simp) (by simp) ih

omit [LinearOrder Q] in
/-- The first levels of a queue are those of the orders at its head. -/
theorem Grouped.take {l : List (Resting ι P Q)} {vs : List (Level P Q)} (h : Grouped l vs) (n : ℕ) :
    ∃ front back, l = front ++ back ∧ Grouped front (vs.take n) := by
  induction h generalizing n with
  | nil => exact ⟨[], [], rfl, by simpa using .nil⟩
  | @cons g rest vs v hne hp hq _ ih =>
    cases n with
    | zero => exact ⟨[], g ++ rest, rfl, .nil⟩
    | succ n =>
      obtain ⟨front, back, rfl, h⟩ := ih n
      exact ⟨g ++ front, back, by simp, .cons v hne hp hq h⟩

omit [LinearOrder Q] in
theorem Grouped.ne_nil {l : List (Resting ι P Q)} {vs : List (Level P Q)} (h : Grouped l vs)
    (hvs : vs ≠ []) : l ≠ [] := by
  cases h with
  | nil => exact absurd rfl hvs
  | cons v hne => simp [hne]

omit [LinearOrder Q] in
theorem Grouped.sum_qty {l : List (Resting ι P Q)} {vs : List (Level P Q)} (h : Grouped l vs) :
    (l.map (·.qty)).sum = (vs.map (·.qty)).sum := by
  induction h with
  | nil => simp
  | cons v _ _ hq _ ih => simp [hq, ih]

omit [LinearOrder Q] in
/-- Every order of a queue is on one of its levels. -/
theorem Grouped.exists_level {l : List (Resting ι P Q)} {vs : List (Level P Q)} (h : Grouped l vs)
    {r : Resting ι P Q} (hr : r ∈ l) : ∃ v ∈ vs, r.price = v.price := by
  induction h with
  | nil => simp at hr
  | @cons g rest vs v _ hp _ _ ih =>
    rcases List.mem_append.mp hr with hr | hr
    · exact ⟨v, by simp, hp r hr⟩
    · obtain ⟨w, hw, he⟩ := ih hr
      exact ⟨w, by simp [hw], he⟩

omit [LinearOrder Q] in
theorem Grouped.exists_order {l : List (Resting ι P Q)} {vs : List (Level P Q)} (h : Grouped l vs)
    {v : Level P Q} (hv : v ∈ vs) : ∃ r ∈ l, r.price = v.price := by
  induction h with
  | nil => simp at hv
  | @cons g rest vs w hne hp _ _ ih =>
    rcases List.mem_cons.mp hv with rfl | hv
    · obtain ⟨r, hr⟩ := List.exists_mem_of_ne_nil g hne
      exact ⟨r, by simp [hr], hp r hr⟩
    · obtain ⟨r, hr, he⟩ := ih hv
      exact ⟨r, by simp [hr], he⟩

theorem Grouped.pos [IsStrictOrderedRing Q] {l : List (Resting ι P Q)} {vs : List (Level P Q)}
    (h : Grouped l vs) (hpos : ∀ r ∈ l, 0 < r.qty) : ∀ v ∈ vs, 0 < v.qty := by
  induction h with
  | nil => simp
  | @cons g rest vs w hne _ hq _ ih =>
    intro v hv
    rcases List.mem_cons.mp hv with rfl | hv
    · rw [← hq]
      exact List.sum_pos _ (by simpa using fun r hr => hpos r (by simp [hr])) (by simpa using hne)
    · exact ih (fun r hr => hpos r (by simp [hr])) v hv

/-- The quantity on the first `n` levels of a queue. -/
def depth [DecidableEq P] (n : ℕ) (l : List (Resting ι P Q)) : Q :=
  (((levels l).take n).map (·.qty)).sum

omit [LinearOrder Q] in
/-- The first `n` levels are those of the orders at the head of the queue that add up to its
depth. -/
theorem exists_front_of_depth [DecidableEq P] (n : ℕ) (l : List (Resting ι P Q)) :
    ∃ front back, l = front ++ back ∧ Grouped front ((levels l).take n) ∧
      (front.map (·.qty)).sum = depth n l := by
  obtain ⟨front, back, hl, h⟩ := (levels_grouped l).take n
  exact ⟨front, back, hl, h, h.sum_qty⟩

/-- A positive quantity that crosses takes something off the queue. -/
theorem fill_rest_sum_lt [IsStrictOrderedRing Q] (crosses : P → Bool) {q : Q} (hq : 0 < q)
    {l : List (Resting ι P Q)} (hpos : ∀ r ∈ l, 0 < r.qty) (hne : l ≠ [])
    (hc : ∀ r ∈ l, crosses r.price = true) :
    ((fill crosses q l).rest.map (·.qty)).sum < (l.map (·.qty)).sum := by
  have hfills : (fill crosses q l).fills ≠ [] := by
    obtain ⟨r, rs, rfl⟩ := List.exists_cons_of_ne_nil hne
    rcases le_or_gt r.qty q with h | h
    · simp [fill_cons_full crosses (hc r (by simp)) hq h]
    · simp [fill_cons_part crosses (hc r (by simp)) hq h]
  have htaken : 0 < ((fill crosses q l).fills.map (·.qty)).sum := by
    refine List.sum_pos _ ?_ (by simpa using hfills)
    intro x hx
    obtain ⟨f, hf, rfl⟩ := List.mem_map.mp hx
    obtain ⟨_, -, -, -, h, -⟩ := (fill_consumed crosses q l).exists_of_mem_fills hpos hf
    exact h
  rw [← (fill_consumed crosses q l).sum_qty]
  linarith

/-- Crossing the orders at the head of a queue is crossing the queue with no more than they hold. -/
theorem fill_front [IsStrictOrderedRing Q] {front : List (Resting ι P Q)}
    (hpos : ∀ r ∈ front, 0 < r.qty) {q : Q} (h0 : 0 ≤ q) (back : List (Resting ι P Q)) :
    (fill (fun _ => true) q front).fills =
        (fill (fun _ => true) (min q (front.map (·.qty)).sum) (front ++ back)).fills ∧
      (fill (fun _ => true) q front).rest ++ back =
        (fill (fun _ => true) (min q (front.map (·.qty)).sum) (front ++ back)).rest ∧
      (fill (fun _ => true) q front).leave = q - min q (front.map (·.qty)).sum := by
  rcases le_total q (front.map (·.qty)).sum with h | h
  · have hle := fill_append_of_le (fun _ => true) (fun _ _ => rfl) h0 h back
    have hnil := fill_append_of_le (fun _ => true) (fun _ _ => rfl) h0 h ([] : List (Resting ι P Q))
    rw [List.append_nil, List.append_nil] at hnil
    rw [min_eq_left h, hle, hnil, sub_self]
    exact ⟨rfl, rfl, rfl⟩
  · have hge := fill_append (fun _ => true) hpos (fun _ _ => rfl) (sub_nonneg.mpr h)
      ([] : List (Resting ι P Q))
    have hall := fill_append (fun _ => true) hpos (fun _ _ => rfl) le_rfl back
    rw [add_sub_cancel, List.append_nil, fill_nil, List.append_nil] at hge
    rw [add_zero, fill_of_nonpos _ le_rfl, List.append_nil] at hall
    rw [min_eq_right h, hge, hall]
    exact ⟨rfl, rfl, rfl⟩

omit [LinearOrder Q] in
theorem levels_eq_nil [DecidableEq P] {l : List (Resting ι P Q)} : levels l = [] ↔ l = [] := by
  cases l with
  | nil => simp [levels]
  | cons r rs =>
    rw [levels]
    cases levels rs with
    | nil => simp
    | cons w ws => by_cases hp : w.price = r.price <;> simp [hp]

end Queue

/-! ## Books -/

/-- A book: the queue of each side, in the order in which it is matched. -/
structure Book (ι P Q : Type) where
  bids : List (Resting ι P Q)
  asks : List (Resting ι P Q)
  deriving DecidableEq, Repr

/-- Whether an order on side `s` with limit `limit` trades at the resting price `p`. -/
def crosses [LinearOrder P] (s : Side) (limit p : P) : Bool :=
  match s with
  | .bid => decide (p ≤ limit)
  | .ask => decide (limit ≤ p)

/-- Whether `p` is a strictly better price than `p'` on side `s`. -/
def before [LinearOrder P] (s : Side) (p p' : P) : Bool :=
  match s with
  | .bid => decide (p' < p)
  | .ask => decide (p < p')

namespace Book

/-- The empty book. -/
def empty : Book ι P Q := ⟨[], []⟩

/-- The queue of a side. -/
def queue (b : Book ι P Q) : Side → List (Resting ι P Q)
  | .bid => b.bids
  | .ask => b.asks

/-- The book with the queue of side `s` replaced. -/
def set (b : Book ι P Q) (s : Side) (l : List (Resting ι P Q)) : Book ι P Q :=
  match s with
  | .bid => { b with bids := l }
  | .ask => { b with asks := l }

@[simp] theorem queue_empty (s : Side) : (empty : Book ι P Q).queue s = [] := by cases s <;> rfl

@[simp] theorem queue_set_self (b : Book ι P Q) (s : Side) (l : List (Resting ι P Q)) :
    (b.set s l).queue s = l := by cases s <;> rfl

@[simp] theorem queue_set_opp (b : Book ι P Q) (s : Side) (l : List (Resting ι P Q)) :
    (b.set s l).queue s.opp = b.queue s.opp := by cases s <;> rfl

@[simp] theorem queue_set_opp' (b : Book ι P Q) (s : Side) (l : List (Resting ι P Q)) :
    (b.set s.opp l).queue s = b.queue s := by cases s <;> rfl

@[simp] theorem set_set (b : Book ι P Q) (s : Side) (l l' : List (Resting ι P Q)) :
    (b.set s l).set s l' = b.set s l' := by cases s <;> rfl

@[simp] theorem set_queue (b : Book ι P Q) (s : Side) : b.set s (b.queue s) = b := by
  cases s <;> rfl

theorem ext_queue {b b' : Book ι P Q} (h : ∀ s, b.queue s = b'.queue s) : b = b' := by
  obtain ⟨bids, asks⟩ := b
  obtain ⟨bids', asks'⟩ := b'
  obtain rfl : bids = bids' := h .bid
  obtain rfl : asks = asks' := h .ask
  rfl

/-- The ids of the resting orders. -/
def ids (b : Book ι P Q) : List ι := (b.bids ++ b.asks).map (·.id)

theorem mem_ids {b : Book ι P Q} {i : ι} : i ∈ b.ids ↔ ∃ s, ∃ r ∈ b.queue s, r.id = i := by
  simp only [ids, List.mem_map, List.mem_append]
  constructor
  · rintro ⟨r, hr | hr, rfl⟩
    · exact ⟨.bid, r, hr, rfl⟩
    · exact ⟨.ask, r, hr, rfl⟩
  · rintro ⟨s, r, hr, rfl⟩
    cases s
    · exact ⟨r, Or.inl hr, rfl⟩
    · exact ⟨r, Or.inr hr, rfl⟩

theorem id_ne_of_mem_queue {b : Book ι P Q} {id : ι} (hid : id ∉ b.ids)
    {s : Side} {r : Resting ι P Q}
    (hr : r ∈ b.queue s) : r.id ≠ id :=
  fun h => hid (Book.mem_ids.mpr ⟨s, r, hr, h⟩)

/-- Remove an order. -/
def cancel [DecidableEq ι] (b : Book ι P Q) (id : ι) : Book ι P Q :=
  ⟨b.bids.filter (fun r => decide (r.id ≠ id)), b.asks.filter (fun r => decide (r.id ≠ id))⟩

@[simp] theorem queue_cancel [DecidableEq ι] (b : Book ι P Q) (id : ι) (s : Side) :
    (b.cancel id).queue s = (b.queue s).filter (fun r => decide (r.id ≠ id)) := by
  cases s <;> rfl

theorem cancel_of_notMem [DecidableEq ι] {b : Book ι P Q} {id : ι} (h : id ∉ b.ids) :
    b.cancel id = b := by
  refine ext_queue fun s => ?_
  rw [queue_cancel, List.filter_eq_self]
  intro r hr
  simpa using id_ne_of_mem_queue h hr

theorem cancel_eq_iff [DecidableEq ι] {b : Book ι P Q} {id : ι} : b.cancel id = b ↔ id ∉ b.ids := by
  refine ⟨fun h hid => ?_, cancel_of_notMem⟩
  rw [← h] at hid
  obtain ⟨s, r, hr, rfl⟩ := mem_ids.mp hid
  simp at hr

section Operations

variable [CommRing Q] [LinearOrder Q]

/-- What `add` gives: the book after it, the trades, and the quantity of the order left resting. -/
structure Added (ι P Q : Type) where
  book : Book ι P Q
  fills : List (Fill ι P Q)
  leave : Q

/-- Cross an order with the opposite side and queue what is left. -/
def add [LinearOrder P] (b : Book ι P Q) (id : ι) (s : Side) (price : P) (qty : Q) :
    Added ι P Q :=
  let f := fill (crosses s price) qty (b.queue s.opp)
  let b' := b.set s.opp f.rest
  ⟨if 0 < f.leave then b'.set s (enqueue (before s) ⟨id, price, f.leave⟩ (b'.queue s)) else b',
    f.fills, f.leave⟩

section Add

variable [LinearOrder P] (b : Book ι P Q) (id : ι) (s : Side) (price : P) (qty : Q)

theorem add_fills : (b.add id s price qty).fills =
    (fill (crosses s price) qty (b.queue s.opp)).fills := rfl

theorem add_leave : (b.add id s price qty).leave =
    (fill (crosses s price) qty (b.queue s.opp)).leave := rfl

theorem add_book : (b.add id s price qty).book =
    if 0 < (fill (crosses s price) qty (b.queue s.opp)).leave then
      (b.set s.opp (fill (crosses s price) qty (b.queue s.opp)).rest).set s
        (enqueue (before s) ⟨id, price, (fill (crosses s price) qty (b.queue s.opp)).leave⟩
          (b.queue s))
    else b.set s.opp (fill (crosses s price) qty (b.queue s.opp)).rest := by
  simp [add]

theorem queue_opp_add : (b.add id s price qty).book.queue s.opp =
    (fill (crosses s price) qty (b.queue s.opp)).rest := by
  rw [add_book]
  split <;> simp

/-- What is left of the order rests on its side. -/
theorem queue_add : (b.add id s price qty).book.queue s =
    if 0 < (fill (crosses s price) qty (b.queue s.opp)).leave then
      enqueue (before s) ⟨id, price, (fill (crosses s price) qty (b.queue s.opp)).leave⟩ (b.queue s)
    else b.queue s := by
  rw [add_book]
  split <;> simp

end Add

end Operations

end Book

/-! ## Well-formed books -/

section WellFormed

variable [CommRing Q] [LinearOrder Q]

omit [CommRing Q] [LinearOrder Q] in
theorem perm_enqueue (lt : P → P → Bool) (r : Resting ι P Q) (l : List (Resting ι P Q)) :
    (enqueue lt r l).Perm (r :: l) := by
  induction l with
  | nil => exact .refl _
  | cons x l ih =>
    rw [enqueue]
    split
    · exact .refl _
    · exact (ih.cons x).trans (.swap r x l)

omit [CommRing Q] [LinearOrder Q] in
theorem mem_enqueue {lt : P → P → Bool} {r x : Resting ι P Q} {l : List (Resting ι P Q)} :
    x ∈ enqueue lt r l ↔ x = r ∨ x ∈ l := by
  rw [(perm_enqueue lt r l).mem_iff, List.mem_cons]

section Sorted

variable [LinearOrder P]

/-- No order of the queue has a better price than one ahead of it. -/
def Sorted (s : Side) (l : List (Resting ι P Q)) : Prop :=
  (l.map (·.price)).Pairwise fun p p' => before s p' p = false

theorem before_trans {s : Side} {p q r : P} (h₁ : before s q p = false)
    (h₂ : before s r q = false) :
    before s r p = false := by
  cases s <;> simp only [before, decide_eq_false_iff_not, not_lt] at *
  · exact h₂.trans h₁
  · exact h₁.trans h₂

theorem before_asymm {s : Side} {p q : P} (h : before s p q = true) : before s q p = false := by
  cases s <;> simp only [before, decide_eq_true_eq, decide_eq_false_iff_not, not_lt] at * <;>
    exact h.le

theorem Sorted.shrunk {s : Side} {new old : List (Resting ι P Q)} (h : Sorted s old)
    (hs : Shrunk new old) : Sorted s new :=
  List.Pairwise.sublist hs.map_price_sublist h

omit [CommRing Q] [LinearOrder Q] in
theorem Sorted.enqueue {s : Side} {l : List (Resting ι P Q)} (h : Sorted s l)
    (r : Resting ι P Q) : Sorted s (enqueue (before s) r l) := by
  induction l with
  | nil => simp [PriceTime.enqueue, Sorted]
  | cons x l ih =>
    simp only [Sorted, List.map_cons, List.pairwise_cons] at h
    rw [PriceTime.enqueue]
    split
    · rename_i hb
      have hx := before_asymm hb
      simp only [Sorted, List.map_cons, List.pairwise_cons, List.mem_cons]
      refine ⟨?_, h⟩
      rintro p (rfl | hp)
      · exact hx
      · exact before_trans hx (h.1 p hp)
    · rename_i hb
      simp only [Sorted, List.map_cons, List.pairwise_cons]
      refine ⟨?_, ih h.2⟩
      intro p hp
      obtain ⟨y, hy, rfl⟩ := List.mem_map.mp hp
      rcases mem_enqueue.mp hy with rfl | hy
      · simpa using hb
      · exact h.1 _ (List.mem_map_of_mem hy)

omit [CommRing Q] [LinearOrder Q] in
/-- In a sorted queue an order behind one that does not cross does not cross either. -/
theorem Sorted.pairwise_crosses {s : Side} {l : List (Resting ι P Q)} (h : Sorted s.opp l)
    (limit : P) :
    l.Pairwise fun x y => crosses s limit y.price = true → crosses s limit x.price = true := by
  refine (List.pairwise_map.mp h).imp ?_
  intro x y hxy hy
  cases s <;> simp only [Side.opp, before, crosses, decide_eq_true_eq, decide_eq_false_iff_not,
    not_lt] at *
  · exact hxy.trans hy
  · exact hy.trans hxy

theorem before_of_ne {s : Side} {p q : P} (h : before s q p = false) (hne : p ≠ q) :
    before s p q = true := by
  cases s <;> simp only [before, decide_eq_true_eq, decide_eq_false_iff_not, not_lt] at *
  · exact lt_of_le_of_ne h hne.symm
  · exact lt_of_le_of_ne h hne

omit [CommRing Q] [LinearOrder Q] in
theorem before_ne {s : Side} {p q : P} (h : before s p q = true) : p ≠ q := by
  rintro rfl
  cases s <;> simp [before] at h

omit [LinearOrder Q] in
/-- The levels of a sorted queue have distinct prices, from the best on. -/
theorem Sorted.levels {s : Side} {l : List (Resting ι P Q)} (h : Sorted s l) :
    ((levels l).map (·.price)).Pairwise fun p p' => before s p p' = true := by
  induction l with
  | nil => simp [PriceTime.levels]
  | cons r rs ih =>
    obtain ⟨hr, hrs⟩ := List.pairwise_cons.mp h
    have ih := ih hrs
    rw [PriceTime.levels]
    cases hl : PriceTime.levels rs with
    | nil => simp
    | cons w ws =>
      rw [hl, List.map_cons] at ih
      dsimp only
      split
      · rename_i hp
        rw [List.map_cons, ← hp]
        exact ih
      · rename_i hp
        rw [List.map_cons, List.map_cons]
        refine List.pairwise_cons.mpr ⟨fun p hw => ?_, ih⟩
        -- no order of the rest is better than `r`, and the levels of the rest start at another
        -- price
        have hbehind : ∀ v ∈ w :: ws, before s v.price r.price = false := by
          intro v hv
          obtain ⟨x, hx, hxp⟩ := (levels_grouped rs).exists_order (hl ▸ hv)
          exact hxp ▸ hr _ (List.mem_map_of_mem hx)
        obtain ⟨v, hv, rfl⟩ := List.mem_map.mp (show p ∈ (w :: ws).map (·.price) from hw)
        refine before_of_ne (hbehind v hv) fun he => ?_
        rcases List.mem_cons.mp hv with rfl | hv
        · exact hp he.symm
        · have hlt := (List.pairwise_cons.mp ih).1 _ (List.mem_map_of_mem hv)
          rw [← he, hbehind w (by simp)] at hlt
          cases hlt

/-! ## Depth -/

omit [LinearOrder Q] in
/-- The quantity that orders hold at a price. -/
def heldAt (l : List (Resting ι P Q)) (p : P) : Q :=
  ((l.filter fun r => r.price = p).map (·.qty)).sum

/-- **The levels show the `n` best prices of the orders**, in whatever order these are listed. -/
structure Depicts (s : Side) (n : ℕ) (l : List (Resting ι P Q)) (vs : List (Level P Q)) : Prop where
  best : (vs.map (·.price)).Pairwise fun p p' => before s p p' = true
  length : vs.length ≤ n
  level : ∀ v ∈ vs, (∃ r ∈ l, r.price = v.price) ∧ v.qty = heldAt l v.price
  rest : ∀ r ∈ l, (∃ v ∈ vs, v.price = r.price) ∨
    vs.length = n ∧ ∀ v ∈ vs, before s v.price r.price = true

omit [LinearOrder Q] in
theorem heldAt_append (l l' : List (Resting ι P Q)) (p : P) :
    heldAt (l ++ l') p = heldAt l p + heldAt l' p := by
  simp [heldAt]

omit [LinearOrder Q] in
theorem heldAt_eq_zero {l : List (Resting ι P Q)} {p : P} (h : ∀ r ∈ l, r.price ≠ p) :
    heldAt l p = 0 := by
  rw [heldAt, List.filter_eq_nil_iff.mpr fun r hr => by simpa using h r hr]
  rfl

omit [LinearOrder Q] in
/-- A level holds what the orders of its price hold. -/
theorem Grouped.heldAt_eq {l : List (Resting ι P Q)} {vs : List (Level P Q)} (h : Grouped l vs)
    (hne : (vs.map (·.price)).Nodup) {v : Level P Q} (hv : v ∈ vs) : heldAt l v.price = v.qty := by
  induction h with
  | nil => cases hv
  | @cons g rest vs w _ hp hq hrest ih =>
    obtain ⟨hnot, hne⟩ := List.nodup_cons.mp hne
    rw [heldAt_append]
    rcases List.mem_cons.mp hv with rfl | hv
    · have hall : (g.filter fun r => r.price = v.price) = g :=
        List.filter_eq_self.mpr fun r hr => decide_eq_true (hp r hr)
      have hzero : heldAt rest v.price = 0 := heldAt_eq_zero fun r hr he => by
        obtain ⟨w, hw, hrw⟩ := hrest.exists_level hr
        exact hnot (List.mem_map.mpr ⟨w, hw, hrw.symm.trans he⟩)
      rw [hzero, add_zero, heldAt, hall, hq]
    · have hzero : heldAt g v.price = 0 := heldAt_eq_zero fun r hr he =>
        hnot (List.mem_map.mpr ⟨v, hv, he.symm.trans (hp r hr)⟩)
      rw [hzero, zero_add, ih hne hv]

omit [LinearOrder Q] in
/-- **The first levels of a sorted queue depict it.** -/
theorem Sorted.depicts {s : Side} {l : List (Resting ι P Q)} (h : Sorted s l) (n : ℕ) :
    Depicts s n l ((PriceTime.levels l).take n) := by
  have hbest := h.levels
  have hgrouped := levels_grouped l
  refine ⟨?_, List.length_take_le _ _, fun v hv => ?_, fun r hr => ?_⟩
  · rw [List.map_take]
    exact hbest.sublist (List.take_sublist _ _)
  · have hv := List.mem_of_mem_take hv
    exact ⟨hgrouped.exists_order hv,
      (hgrouped.heldAt_eq (hbest.imp fun hlt => before_ne hlt) hv).symm⟩
  · obtain ⟨v, hv, he⟩ := hgrouped.exists_level hr
    rw [← List.take_append_drop n (PriceTime.levels l)] at hv hbest
    rcases List.mem_append.mp hv with hv | hv
    · exact Or.inl ⟨v, hv, he.symm⟩
    · -- a level that is cut off comes behind `n` others
      have hlt : n < (PriceTime.levels l).length := by
        by_contra hle
        rw [List.drop_eq_nil_of_le (not_lt.mp hle)] at hv
        cases hv
      rw [List.map_append, List.pairwise_append] at hbest
      refine Or.inr ⟨List.length_take_of_le hlt.le, fun w hw => ?_⟩
      rw [he]
      exact hbest.2.2 _ (List.mem_map_of_mem hw) _ (List.mem_map_of_mem hv)

omit [LinearOrder Q] in
theorem Depicts.perm {s : Side} {n : ℕ} {l l' : List (Resting ι P Q)} {vs : List (Level P Q)}
    (h : Depicts s n l vs) (hp : l.Perm l') : Depicts s n l' vs where
  best := h.best
  length := h.length
  level v hv := by
    obtain ⟨⟨r, hr, he⟩, hq⟩ := h.level v hv
    exact ⟨⟨r, hp.mem_iff.mp hr, he⟩, hq.trans ((hp.filter _).map _).sum_eq⟩
  rest r hr := h.rest r (hp.mem_iff.mpr hr)

omit [LinearOrder Q] in
theorem depicts_nil (s : Side) (n : ℕ) : Depicts s n ([] : List (Resting ι P Q)) [] :=
  ⟨List.Pairwise.nil, Nat.zero_le n, by simp, by simp⟩

section Ranked

variable [LinearOrder ι]

/-- The order `x` is matched before `y` when orders of one price are matched in the order of their
ids. -/
def Ahead (s : Side) (x y : Resting ι P Q) : Prop :=
  before s x.price y.price = true ∨ (x.price = y.price ∧ x.id < y.id)

/-- The queue is sorted by price, and by id within a price. -/
def Ranked (s : Side) (l : List (Resting ι P Q)) : Prop := l.Pairwise (Ahead s)

omit [CommRing Q] [LinearOrder Q] in
theorem Ahead.asymm {s : Side} {x y : Resting ι P Q} (h : Ahead s x y) : ¬Ahead s y x := by
  rintro (h' | ⟨e', hlt'⟩)
  · rcases h with h | ⟨e, -⟩
    · rw [before_asymm h] at h'
      cases h'
    · rw [e] at h'
      cases s <;> simp [before] at h'
  · rcases h with h | ⟨-, hlt⟩
    · rw [e'] at h
      cases s <;> simp [before] at h
    · exact lt_asymm hlt hlt'

omit [CommRing Q] [LinearOrder Q] in
theorem before_of_ahead {s : Side} {p : P} {x y : Resting ι P Q} (h : before s p x.price = true)
    (hxy : Ahead s x y) : before s p y.price = true := by
  rcases hxy with hxy | ⟨e, -⟩
  · cases s <;> simp only [before, decide_eq_true_eq] at *
    · exact hxy.trans h
    · exact h.trans hxy
  · rwa [← e]

omit [CommRing Q] [LinearOrder Q] in
/-- An order with a new highest id goes behind those of its price. -/
theorem Ranked.enqueue {s : Side} {l : List (Resting ι P Q)} (h : Ranked s l) {r : Resting ι P Q}
    (hr : ∀ x ∈ l, x.id < r.id) : Ranked s (enqueue (before s) r l) := by
  induction l with
  | nil => simp [PriceTime.enqueue, Ranked]
  | cons x l ih =>
    obtain ⟨hx, hl⟩ := List.pairwise_cons.mp h
    rw [PriceTime.enqueue]
    split
    · rename_i hb
      refine List.pairwise_cons.mpr ⟨fun y hy => ?_, h⟩
      rcases List.mem_cons.mp hy with rfl | hy
      · exact Or.inl hb
      · exact Or.inl (before_of_ahead hb (hx y hy))
    · rename_i hb
      refine List.pairwise_cons.mpr ⟨fun y hy => ?_, ih hl fun z hz => hr z (by simp [hz])⟩
      rcases mem_enqueue.mp hy with rfl | hy
      · by_cases he : x.price = y.price
        · exact Or.inr ⟨he, hr x (by simp)⟩
        · exact Or.inl (before_of_ne (by simpa using hb) he)
      · exact hx y hy

omit [CommRing Q] [LinearOrder Q] in
/-- A ranked queue is determined by its orders. -/
theorem Ranked.eq_of_perm {s : Side} {l l' : List (Resting ι P Q)} (h : Ranked s l)
    (h' : Ranked s l') (hp : l.Perm l') : l = l' :=
  hp.eq_of_pairwise (fun _ _ _ _ h₁ h₂ => absurd h₂ h₁.asymm) h h'

/-- Taking away from a queue keeps the rest in its order. -/
theorem Ranked.shrunk {s : Side} {new old : List (Resting ι P Q)}
    (h : Ranked s old) (hs : Shrunk new old) : Ranked s new := by
  induction hs with
  | nil => exact h
  | drop r _ ih => exact ih (List.pairwise_cons.mp h).2
  | keep r _ _ hs ih =>
    obtain ⟨hr, hl⟩ := List.pairwise_cons.mp h
    refine List.pairwise_cons.mpr ⟨fun y hy => ?_, ih hl⟩
    obtain ⟨y₀, hy₀, hid, hprice, -⟩ := hs.exists_of_mem hy
    have hahead := hr y₀ hy₀
    unfold Ahead at hahead ⊢
    rwa [hid, hprice] at hahead

/-- **Who trades is ahead of who is left**, in a ranked queue. -/
theorem Consumed.ahead [IsStrictOrderedRing Q] {s : Side} {l rest : List (Resting ι P Q)}
    {fs : List (Fill ι P Q)} (h : Consumed l fs rest) (hl : Ranked s l)
    (hpos : ∀ r ∈ l, 0 < r.qty) {f : Fill ι P Q} (hf : f ∈ fs) {r : Resting ι P Q}
    (hr : r ∈ rest) :
    r.id = f.id ∨ Ahead s ⟨f.id, f.price, f.qty⟩ r := by
  induction h with
  | refl l => cases hf
  | full x h ih =>
    obtain ⟨hx, hl⟩ := List.pairwise_cons.mp hl
    have hpos' := fun y hy => hpos y (List.mem_cons_of_mem x hy)
    rcases List.mem_cons.mp hf with rfl | hf
    · obtain ⟨r₀, hr₀, hid, hprice, -⟩ := (h.shrunk hpos').exists_of_mem hr
      have hahead := hx r₀ hr₀
      unfold Ahead at hahead
      rw [hid, hprice] at hahead
      exact Or.inr hahead
    · exact ih hl hpos' hf hr
  | part l x h0 hq =>
    obtain rfl := List.mem_singleton.mp hf
    rcases List.mem_cons.mp hr with rfl | hr
    · exact Or.inl rfl
    · exact Or.inr ((List.pairwise_cons.mp hl).1 r hr)

end Ranked

theorem crosses_comm (s : Side) (p q : P) : crosses s p q = crosses s.opp q p := by
  cases s <;> rfl

/-- Queues sorted by price, distinct ids, positive quantities, and no order that crosses one of the
other side. -/
structure Book.WF (b : Book ι P Q) : Prop where
  sorted : ∀ s, Sorted s (b.queue s)
  nodup : b.ids.Nodup
  pos : ∀ s, ∀ r ∈ b.queue s, 0 < r.qty
  uncrossed : ∀ s, ∀ x ∈ b.queue s, ∀ y ∈ b.queue s.opp, crosses s x.price y.price = false

namespace Book.WF

theorem empty : (Book.empty : Book ι P Q).WF := by
  constructor <;> simp [Sorted, Book.ids, Book.empty] <;> intro s <;> cases s <;> simp [Book.queue]

theorem shrunk {b b' : Book ι P Q} (h : b.WF) (hs : ∀ s, Shrunk (b'.queue s) (b.queue s)) :
    b'.WF where
  sorted s := (h.sorted s).shrunk (hs s)
  nodup := by
    have h₁ := (hs .bid).map_id_sublist
    have h₂ := (hs .ask).map_id_sublist
    refine h.nodup.sublist ?_
    simp only [Book.ids, List.map_append]
    exact h₁.append h₂
  pos s r hr := by
    obtain ⟨r₀, -, -, -, h₀, -⟩ := (hs s).exists_of_mem hr
    exact h₀
  uncrossed s x hx y hy := by
    obtain ⟨x₀, hx₀, -, ex, -⟩ := (hs s).exists_of_mem hx
    obtain ⟨y₀, hy₀, -, ey, -⟩ := (hs s.opp).exists_of_mem hy
    rw [← ex, ← ey]
    exact h.uncrossed s x₀ hx₀ y₀ hy₀

theorem cancel [DecidableEq ι] {b : Book ι P Q} (h : b.WF) (id : ι) : (b.cancel id).WF :=
  h.shrunk fun s => by
    rw [Book.queue_cancel]
    exact filter_shrunk (h.pos s) _

/-- Crossing the opposite side leaves a well-formed book. -/
theorem set_fill [IsStrictOrderedRing Q] {b : Book ι P Q} (h : b.WF) (s : Side) (c : P → Bool)
    (qty : Q) : (b.set s.opp (fill c qty (b.queue s.opp)).rest).WF :=
  h.shrunk fun t => by
    rcases s.eq_or_eq_opp t with rfl | rfl
    · rw [Book.queue_set_opp']
      exact .refl (h.pos _)
    · rw [Book.queue_set_self]
      exact (fill_consumed c qty _).shrunk (h.pos _)

/-- Queueing an order that crosses nothing leaves a well-formed book. -/
theorem set_enqueue {b : Book ι P Q} (h : b.WF) {id : ι} (hid : id ∉ b.ids) (s : Side) {price : P}
    {qty : Q} (hq : 0 < qty) (hc : ∀ r ∈ b.queue s.opp, crosses s price r.price = false) :
    (b.set s (enqueue (before s) ⟨id, price, qty⟩ (b.queue s))).WF where
  sorted t := by
    rcases s.eq_or_eq_opp t with rfl | rfl
    · rw [Book.queue_set_self]
      exact (h.sorted _).enqueue _
    · rw [Book.queue_set_opp]
      exact h.sorted _
  nodup := by
    have hp := (perm_enqueue (before s) ⟨id, price, qty⟩ (b.queue s)).map (·.id)
    have hmem : (id :: b.ids).Nodup := List.nodup_cons.mpr ⟨hid, h.nodup⟩
    refine (List.Perm.nodup_iff ?_).mp hmem
    cases s <;> simp only [Book.ids, Book.set, Book.queue, List.map_append] at hp ⊢
    · exact (hp.append_right _).symm
    · exact (List.perm_middle.symm.trans (hp.symm.append_left _))
  pos t r hr := by
    rcases s.eq_or_eq_opp t with rfl | rfl
    · rw [Book.queue_set_self, mem_enqueue] at hr
      rcases hr with rfl | hr
      · exact hq
      · exact h.pos _ r hr
    · rw [Book.queue_set_opp] at hr
      exact h.pos _ r hr
  uncrossed t x hx y hy := by
    rcases s.eq_or_eq_opp t with rfl | rfl
    · rw [Book.queue_set_self, mem_enqueue] at hx
      rw [Book.queue_set_opp] at hy
      rcases hx with rfl | hx
      · exact hc y hy
      · exact h.uncrossed _ x hx y hy
    · rw [Book.queue_set_opp] at hx
      rw [Side.opp_opp, Book.queue_set_self, mem_enqueue] at hy
      rcases hy with rfl | hy
      · rw [crosses_comm, Side.opp_opp]
        exact hc x hx
      · exact h.uncrossed _ x hx y (by rwa [Side.opp_opp])

/-- **Adding an order keeps a book well formed.** -/
theorem add [IsStrictOrderedRing Q] {b : Book ι P Q} (h : b.WF) {id : ι} (hid : id ∉ b.ids)
    (s : Side) (price : P) (qty : Q) : (b.add id s price qty).book.WF := by
  have h' := h.set_fill s (crosses s price) qty
  rw [Book.add_book]
  split
  · rename_i hleave
    rw [← Book.queue_set_opp' b s (fill (crosses s price) qty (b.queue s.opp)).rest]
    refine h'.set_enqueue ?_ s hleave ?_
    · intro hmem
      obtain ⟨t, r, hr, rfl⟩ := Book.mem_ids.mp hmem
      rcases s.eq_or_eq_opp t with rfl | rfl
      · rw [Book.queue_set_opp'] at hr
        exact Book.id_ne_of_mem_queue hid hr rfl
      · rw [Book.queue_set_self] at hr
        obtain ⟨r₀, hr₀, e, -⟩ := ((fill_consumed _ qty _).shrunk (h.pos _)).exists_of_mem hr
        exact Book.id_ne_of_mem_queue hid hr₀ e
    · rw [Book.queue_set_self]
      exact not_crosses_of_leave_pos _ ((h.sorted _).pairwise_crosses price) hleave
  · exact h'

end Book.WF

/-- A new order with a positive quantity changes the book: it takes something off the other side, or
it rests. -/
theorem Book.add_ne [IsStrictOrderedRing Q] {b : Book ι P Q} {id : ι} (hid : id ∉ b.ids) (s : Side)
    (price : P) {qty : Q} (hq : 0 < qty) : (b.add id s price qty).book ≠ b := by
  intro e
  have htaken := (fill_consumed (crosses s price) qty (b.queue s.opp)).sum_qty
  have hsum := fill_conserves (crosses s price) qty (b.queue s.opp)
  rw [← Book.queue_opp_add b id, e] at htaken
  by_cases hl : 0 < (fill (crosses s price) qty (b.queue s.opp)).leave
  · have hqueue := Book.queue_add b id s price qty
    rw [if_pos hl, e] at hqueue
    have hmem : ⟨id, price, (fill (crosses s price) qty (b.queue s.opp)).leave⟩ ∈ b.queue s := by
      rw [hqueue]
      exact mem_enqueue.mpr (Or.inl rfl)
    exact hid (Book.mem_ids.mpr ⟨s, _, hmem, rfl⟩)
  · linarith

end Sorted

end WellFormed

end Orbit.PriceTime
