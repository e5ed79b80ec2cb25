import Mathlib.Algebra.Order.BigOperators.Group.List
import Mathlib.Data.Rat.Floor
import Orbit.Api.Specs
import Orbit.Foundations.Decimal
import Orbit.Matcher.SettleSpecs

/-!
# The reservation of a bid in decimal arithmetic

The other modules compute with exact amounts. Here the quote wallet of one `LIMIT` `BID` is followed
in the arithmetic of the code: products and differences of `decimal.js` have 20 significant digits,
and an assignment to a `numeric(28, 12)` column keeps 12 decimals, both with halves away from zero.
The lock is one rounded product, and each fill and the cancel release another one; the remainder of
a resting order is rounded twice at each fill.

* `round_trip_iff`: whatever the wallet and the fills, the lock moves an amount from the balance to
  the locked funds and the releases give back exactly that amount, exactly when the product of the
  price with `k` steps rounds to `k` times one number, for the step counts up to the quantity and
  for the remainders that the row can hold.
* `proportional_of_scale`: that is so when the price of one step has at most 12 decimals and the
  amounts have at most 20 digits.
-/

namespace Orbit.Precision

open Decimal

/-- `mul` of `decimal.js`. -/
def mul (x y : ℚ) : ℚ := toPrecision 20 (x * y)

/-- `sub` of `decimal.js`. -/
def sub (x y : ℚ) : ℚ := toPrecision 20 (x - y)

/-- What a `numeric(28, 12)` column keeps of a value. -/
def numeric (x : ℚ) : ℚ := toScale 12 x

/-- The two amounts of a wallet. -/
structure Funds where
  balance : ℚ
  locked : ℚ
  deriving DecidableEq, Repr

/-- An update by increments, under the `CHECK` of the two columns. -/
def Funds.update (w : Funds) (balance locked : ℚ) : Option Funds :=
  let w' : Funds := ⟨numeric (w.balance + balance), numeric (w.locked + locked)⟩
  if 0 ≤ w'.balance ∧ 0 ≤ w'.locked then some w' else none

/-- `atomicLock`. -/
def atomicLock (amount : ℚ) (w : Funds) : Option Funds :=
  if amount ≤ w.balance then w.update (-amount) amount else none

/-- `lockReservation` of a `LIMIT` `BID`. -/
def lockReservation (limitPrice quantity : ℚ) (w : Funds) : Option Funds :=
  atomicLock (mul limitPrice quantity) w

/-- The quote leg of a `BID` in `settleTrades`, of a taker or a maker. -/
def settleBid (limit price qty : ℚ) (w : Funds) : Option Funds :=
  let reserved := mul limit qty
  let quoteAmt := mul price qty
  let refund := sub reserved quoteAmt
  w.update refund (-reserved)

/-- The fills of the order as taker, each of a price and a number of steps. -/
def takerFills (limit step : ℚ) : List (ℚ × ℕ) → Funds → Option Funds
  | [], w => some w
  | t :: ts, w => (settleBid limit t.1 (t.2 * step) w).bind (takerFills limit step ts)

/-- The wallet and the remainder of the order. -/
structure Bid where
  funds : Funds
  leaveQty : ℚ
  deriving DecidableEq, Repr

/-- `settleSubmit`: the fills as taker, and the remainder that the book reports. -/
def settleSubmit (limit step : ℚ) (n : ℕ) (ts : List (ℚ × ℕ)) (w : Funds) : Option Bid :=
  (takerFills limit step ts w).map fun funds =>
    ⟨funds, numeric (n * step - (ts.map (·.2)).sum * step)⟩

/-- A fill of the order as maker, at its own price; the remainder is computed from the row. -/
def makerFill (limit : ℚ) (s : Bid) (qty : ℚ) : Option Bid :=
  (settleBid limit limit qty s.funds).map fun funds => ⟨funds, numeric (sub s.leaveQty qty)⟩

/-- The fills as maker, each of a number of steps. -/
def makerFills (limit step : ℚ) : List ℕ → Bid → Option Bid
  | [], s => some s
  | k :: ks, s => (makerFill limit s (k * step)).bind (makerFills limit step ks)

/-- The release of `settleCancel`. -/
def settleCancel (limit : ℚ) (s : Bid) : Option Funds :=
  if 0 < s.leaveQty then s.funds.update (mul limit s.leaveQty) (-mul limit s.leaveQty)
  else some s.funds

/-- The fills of an order of `n` steps. -/
def fills (limit step : ℚ) (n : ℕ) (ts : List (ℚ × ℕ)) (ks : List ℕ) (w : Funds) : Option Bid :=
  (settleSubmit limit step n ts w).bind (makerFills limit step ks)

/-- The fills are of at most `n` steps together, at prices not over the limit. -/
structure Partition (limit : ℚ) (n : ℕ) (ts : List (ℚ × ℕ)) (ks : List ℕ) : Prop where
  takers : ∀ t ∈ ts, 0 < t.1 ∧ t.1 ≤ limit ∧ 0 < t.2
  makers : ∀ k ∈ ks, 0 < k
  sum : (ts.map (·.2)).sum + ks.sum ≤ n

/-- The amounts of a wallet are stored with 12 decimals, and not negative. -/
structure Funds.Stored (w : Funds) : Prop where
  balance : ∃ z : ℕ, w.balance = (z : ℤ) / 10 ^ 12
  locked : ∃ z : ℕ, w.locked = (z : ℤ) / 10 ^ 12

/-- **The reservation goes round**, for every wallet that has the amount and all fills: the lock
keeps the sum of the two amounts, no fill takes the locked funds below what they were before it, and
when the order is filled or cancelled they are what they were. -/
def RoundTrips (limit step : ℚ) (n : ℕ) : Prop :=
  ∀ w : Funds, w.Stored → mul limit (n * step) ≤ w.balance →
    ∃ w₁, lockReservation limit (n * step) w = some w₁ ∧
      w₁.balance + w₁.locked = w.balance + w.locked ∧
      ∀ ts ks, Partition limit n ts ks →
        ∃ s, fills limit step n ts ks w₁ = some s ∧ w.locked ≤ s.funds.locked ∧
          ((ts.map (·.2)).sum + ks.sum = n → s.funds.locked = w.locked) ∧
          ((ts.map (·.2)).sum + ks.sum < n →
            ∃ w', settleCancel limit s = some w' ∧ w'.locked = w.locked)

/-- The remainders that the row of an order of `n` steps can hold with `k` steps left. -/
inductive Remainder (step : ℚ) (n : ℕ) : ℕ → ℚ → Prop
  /-- After fills of `j` steps as taker. -/
  | taken {k j : ℕ} (h : k + j = n) : Remainder step n k (numeric (n * step - j * step))
  /-- After a fill of `j` steps as maker. -/
  | made {k j : ℕ} {leaveQty : ℚ} (hj : 0 < j) (h : Remainder step n (k + j) leaveQty) :
      Remainder step n k (numeric (sub leaveQty (j * step)))

/-- The product of the price with a quantity, in units of the last of the 12 decimals. -/
def product (limit qty : ℚ) : ℚ := mul limit qty * 10 ^ 12

/-- The products round to multiples of one number, in proportion to the steps. -/
structure Proportional (limit step : ℚ) (n : ℕ) (c : ℤ) : Prop where
  steps : ∀ k ≤ n, |product limit (k * step) - (k * c : ℤ)| < 1 / 2
  rest : ∀ k leaveQty, 0 < k → Remainder step n k leaveQty → 0 < leaveQty →
    |product limit leaveQty - (k * c : ℤ)| < 1 / 2
  lost : ∀ k leaveQty, 0 < k → Remainder step n k leaveQty → leaveQty ≤ 0 → c = 0

/-! ## Updates in units -/

section Units

variable {w w' : Funds} {M : ℤ} {limit price qty : ℚ}

theorem pow_ne : (10 : ℚ) ^ 12 ≠ 0 := by norm_num

theorem mul_eq_product (limit qty : ℚ) : mul limit qty = product limit qty / 10 ^ 12 := by
  rw [product, mul_div_cancel_right₀ _ pow_ne]

theorem product_nonneg (hl : 0 ≤ limit) (hq : 0 ≤ qty) : 0 ≤ product limit qty :=
  mul_nonneg (toPrecision_nonneg (mul_nonneg hl hq)) (by norm_num)

theorem numeric_sub (M : ℤ) (r : ℚ) :
    numeric ((M : ℚ) / 10 ^ 12 + -(r / 10 ^ 12)) = roundAway ((M : ℚ) - r) / 10 ^ 12 := by
  unfold numeric toScale
  congr 3
  field_simp
  ring

theorem numeric_add (M : ℤ) (r : ℚ) :
    numeric ((M : ℚ) / 10 ^ 12 + r / 10 ^ 12) = roundAway ((M : ℚ) + r) / 10 ^ 12 := by
  unfold numeric toScale
  congr 3
  field_simp

theorem div_pow_nonneg {z : ℤ} : (0 : ℚ) ≤ (z : ℚ) / 10 ^ 12 ↔ 0 ≤ z := by
  rw [le_div_iff₀ (by norm_num), zero_mul, Int.cast_nonneg_iff]

theorem div_pow_inj {z z' : ℤ} : (z : ℚ) / 10 ^ 12 = (z' : ℚ) / 10 ^ 12 ↔ z = z' := by
  rw [div_left_inj' pow_ne, Int.cast_inj]

/-- An update that the `CHECK` lets pass takes a rounded amount off the locked funds. -/
theorem update_eq_some {b r : ℚ} (h : w.update b (-(r / 10 ^ 12)) = some w')
    (hM : w.locked = (M : ℚ) / 10 ^ 12) :
    -(1 / 2) < (M : ℚ) - r ∧ w'.locked = ((M - ⌈r - 1 / 2⌉ : ℤ) : ℚ) / 10 ^ 12 := by
  unfold Funds.update at h
  rw [hM, numeric_sub] at h
  dsimp only at h
  split at h
  · rename_i hcheck
    cases h
    have hlt := lt_of_roundAway_nonneg (div_pow_nonneg.mp hcheck.2)
    exact ⟨hlt, by rw [roundAway_sub hlt]⟩
  · cases h

/-- An update that the `CHECK` has to let pass. -/
theorem update_isSome {b r : ℚ} {d : ℤ} (hM : w.locked = (M : ℚ) / 10 ^ 12) (hb : 0 ≤ w.balance + b)
    (hr : |r - d| < 1 / 2) (hd : d ≤ M) : ∃ w', w.update b (-(r / 10 ^ 12)) = some w' ∧
      w'.locked = ((M - d : ℤ) : ℚ) / 10 ^ 12 ∧ 0 ≤ w'.balance := by
  have hceil := (abs_sub_lt_half_iff.mp hr).2
  have hlt : -(1 / 2) < (M : ℚ) - r := by
    have hcast : (d : ℚ) ≤ M := by exact_mod_cast hd
    have := (abs_lt.mp hr).2
    linarith
  have hlocked : numeric (w.locked + -(r / 10 ^ 12)) = ((M - d : ℤ) : ℚ) / 10 ^ 12 := by
    rw [hM, numeric_sub, roundAway_sub hlt, hceil]
  have hbalance : 0 ≤ numeric (w.balance + b) := toScale_nonneg hb
  refine ⟨⟨numeric (w.balance + b), numeric (w.locked + -(r / 10 ^ 12))⟩, ?_, hlocked, hbalance⟩
  have hcheck : 0 ≤ numeric (w.locked + -(r / 10 ^ 12)) := by
    rw [hlocked, div_pow_nonneg]
    omega
  exact if_pos ⟨hbalance, hcheck⟩

/-- A fill does not lower the balance. -/
theorem refund_nonneg (hp : 0 ≤ price) (hle : price ≤ limit) (hq : 0 ≤ qty) :
    0 ≤ sub (mul limit qty) (mul price qty) :=
  toPrecision_nonneg (sub_nonneg.mpr (toPrecision_mono (by norm_num) (mul_nonneg hp hq)
    (mul_le_mul_of_nonneg_right hle hq)))

end Units

/-! ## The lock -/

/-- The amount that the lock takes off the balance is rounded with halves down, and the one that it
adds to the locked funds with halves up. -/
theorem lockReservation_eq {limit step : ℚ} {n : ℕ} {w : Funds} (hw : w.Stored)
    (hA : 0 ≤ product limit (n * step)) (h : mul limit (n * step) ≤ w.balance) :
    ∃ B L : ℤ, 0 ≤ L ∧ w.balance = (B : ℚ) / 10 ^ 12 ∧ w.locked = (L : ℚ) / 10 ^ 12 ∧
      lockReservation limit (n * step) w =
        some ⟨((B - ⌈product limit (n * step) - 1 / 2⌉ : ℤ) : ℚ) / 10 ^ 12,
          ((L + ⌊product limit (n * step) + 1 / 2⌋ : ℤ) : ℚ) / 10 ^ 12⟩ ∧
      0 ≤ B - ⌈product limit (n * step) - 1 / 2⌉ := by
  obtain ⟨B, hB⟩ := hw.balance
  obtain ⟨L, hL⟩ := hw.locked
  have hle : product limit (n * step) ≤ ((B : ℤ) : ℚ) := by
    rw [hB, mul_eq_product, div_le_div_iff_of_pos_right (by norm_num)] at h
    exact h
  have hsub : 0 ≤ (((B : ℤ) : ℚ) - product limit (n * step)) := sub_nonneg.mpr hle
  have hadd : (0 : ℚ) ≤ (((L : ℤ) : ℚ) + product limit (n * step)) := by positivity
  have h₁ : numeric (w.balance + -mul limit (n * step)) =
      (((B : ℤ) - ⌈product limit (n * step) - 1 / 2⌉ : ℤ) : ℚ) / 10 ^ 12 := by
    rw [hB, mul_eq_product, numeric_sub, roundAway_sub (by linarith)]
  have h₂ : numeric (w.locked + mul limit (n * step)) =
      (((L : ℤ) + ⌊product limit (n * step) + 1 / 2⌋ : ℤ) : ℚ) / 10 ^ 12 := by
    rw [hL, mul_eq_product, numeric_add, roundAway_add hadd]
  have hn₁ : 0 ≤ (B : ℤ) - ⌈product limit (n * step) - 1 / 2⌉ := by
    rw [← roundAway_sub (by linarith)]
    exact roundAway_nonneg hsub
  have hn₂ : 0 ≤ (L : ℤ) + ⌊product limit (n * step) + 1 / 2⌋ := by
    rw [← roundAway_add hadd]
    exact roundAway_nonneg hadd
  refine ⟨B, L, by positivity, hB, hL, ?_, hn₁⟩
  unfold lockReservation atomicLock Funds.update
  rw [if_pos h, h₁, h₂]
  exact if_pos ⟨div_pow_nonneg.mpr hn₁, div_pow_nonneg.mpr hn₂⟩

/-! ## Proportional products are enough -/

section Enough

variable {limit step : ℚ} {n : ℕ} {c L : ℤ}

theorem Proportional.nonneg (h : Proportional limit step n c) (hl : 0 ≤ limit) (hs : 0 ≤ step)
    (hn : 0 < n) : 0 ≤ c := by
  have hp := product_nonneg hl (show 0 ≤ ((1 : ℕ) : ℚ) * step by positivity)
  have hlt := abs_lt.mp (h.steps 1 hn)
  push_cast at hlt hp
  have : (-1 : ℚ) < c := by linarith [hlt.2]
  have : (-1 : ℤ) < c := by exact_mod_cast this
  omega

/-- One fill, with `m` steps left. -/
theorem Proportional.settleBid (h : Proportional limit step n c) (hs : 0 ≤ step) (hc : 0 ≤ c)
    (hL : 0 ≤ L) {w : Funds} {m k : ℕ} (hw : w.locked = ((L + m * c : ℤ) : ℚ) / 10 ^ 12)
    (hb : 0 ≤ w.balance) (hkm : k ≤ m) (hm : m ≤ n) {price : ℚ} (hp : 0 < price)
    (hle : price ≤ limit) : ∃ w', settleBid limit price (k * step) w = some w' ∧
      w'.locked = ((L + (m - k : ℕ) * c : ℤ) : ℚ) / 10 ^ 12 ∧ 0 ≤ w'.balance := by
  have hrefund := refund_nonneg hp.le hle (mul_nonneg (Nat.cast_nonneg k) hs)
  have hkc : (k * c : ℤ) ≤ L + m * c := by
    have := mul_le_mul_of_nonneg_right (show (k : ℤ) ≤ m by exact_mod_cast hkm) hc
    linarith
  obtain ⟨w', hw', hlocked, hbalance⟩ := update_isSome hw (add_nonneg hb hrefund)
    (h.steps k (hkm.trans hm)) hkc
  refine ⟨w', ?_, ?_, hbalance⟩
  · unfold Precision.settleBid
    rw [mul_eq_product limit (k * step)] at *
    exact hw'
  · rw [hlocked]
    congr 2
    push_cast [hkm]
    ring

theorem Proportional.takerFills (h : Proportional limit step n c) (hs : 0 ≤ step) (hc : 0 ≤ c)
    (hL : 0 ≤ L) {ts : List (ℚ × ℕ)} (hts : ∀ t ∈ ts, 0 < t.1 ∧ t.1 ≤ limit ∧ 0 < t.2) {w : Funds}
    {m : ℕ} (hw : w.locked = ((L + m * c : ℤ) : ℚ) / 10 ^ 12) (hb : 0 ≤ w.balance)
    (hsum : (ts.map (·.2)).sum ≤ m) (hm : m ≤ n) : ∃ w', takerFills limit step ts w = some w' ∧
      w'.locked = ((L + (m - (ts.map (·.2)).sum : ℕ) * c : ℤ) : ℚ) / 10 ^ 12 ∧ 0 ≤ w'.balance := by
  induction ts generalizing w m with
  | nil => exact ⟨w, rfl, hw, hb⟩
  | cons t ts ih =>
    rw [List.map_cons, List.sum_cons] at hsum
    obtain ⟨hp, hle, -⟩ := hts t (by simp)
    obtain ⟨w₁, hw₁, hlocked, hb₁⟩ := h.settleBid hs hc hL hw hb (show t.2 ≤ m by omega) hm hp hle
    obtain ⟨w', hw', hlocked', hb'⟩ := ih (fun t ht => hts t (by simp [ht])) hlocked hb₁ (by omega)
      (by omega)
    refine ⟨w', ?_, ?_, hb'⟩
    · rw [Precision.takerFills, hw₁]
      exact hw'
    · rw [hlocked', List.map_cons, List.sum_cons, Nat.sub_sub]

theorem Proportional.makerFills (h : Proportional limit step n c) (hl : 0 < limit) (hs : 0 ≤ step)
    (hc : 0 ≤ c) (hL : 0 ≤ L) {ks : List ℕ} (hks : ∀ k ∈ ks, 0 < k) {s : Bid} {m : ℕ}
    (hw : s.funds.locked = ((L + m * c : ℤ) : ℚ) / 10 ^ 12) (hb : 0 ≤ s.funds.balance)
    (hr : Remainder step n m s.leaveQty) (hsum : ks.sum ≤ m) (hm : m ≤ n) :
    ∃ s', makerFills limit step ks s = some s' ∧
      s'.funds.locked = ((L + (m - ks.sum : ℕ) * c : ℤ) : ℚ) / 10 ^ 12 ∧ 0 ≤ s'.funds.balance ∧
      Remainder step n (m - ks.sum) s'.leaveQty := by
  induction ks generalizing s m with
  | nil => exact ⟨s, rfl, hw, hb, hr⟩
  | cons k ks ih =>
    rw [List.sum_cons] at hsum
    obtain ⟨w₁, hw₁, hlocked, hb₁⟩ := h.settleBid hs hc hL hw hb (show k ≤ m by omega) hm hl le_rfl
    have hr₁ : Remainder step n (m - k) (numeric (sub s.leaveQty (k * step))) :=
      .made (hks k (by simp)) (by rwa [Nat.sub_add_cancel (by omega)])
    obtain ⟨s', hs', hlocked', hb', hr'⟩ := ih (fun x hx => hks x (by simp [hx]))
      (s := ⟨w₁, numeric (sub s.leaveQty (k * step))⟩) hlocked hb₁ hr₁ (by omega) (by omega)
    refine ⟨s', ?_, ?_, hb', ?_⟩
    · rw [Precision.makerFills, makerFill, hw₁]
      exact hs'
    · rw [hlocked', List.sum_cons, Nat.sub_sub]
    · rwa [List.sum_cons, ← Nat.sub_sub]

/-- **Proportional products let the reservation go round.** -/
theorem Proportional.roundTrips (h : Proportional limit step n c) (hl : 0 < limit) (hs : 0 < step)
    (hn : 0 < n) : RoundTrips limit step n := by
  intro w hw hle
  have hc := h.nonneg hl.le hs.le hn
  have hA := product_nonneg hl.le (show 0 ≤ n * step by positivity)
  obtain ⟨B, L, hL, hB, hlocked, hlock, hpos⟩ := lockReservation_eq hw hA hle
  obtain ⟨hfloor, hceil⟩ := abs_sub_lt_half_iff.mp (h.steps n le_rfl)
  rw [hfloor, hceil] at hlock
  rw [hceil] at hpos
  refine ⟨_, hlock, ?_, fun ts ks hp => ?_⟩
  · rw [hB, hlocked]
    push_cast
    ring
  have hsum := hp.sum
  obtain ⟨w₁, hw₁, hlocked₁, hb₁⟩ := h.takerFills hs.le hc hL hp.takers
    (w := ⟨((B - n * c : ℤ) : ℚ) / 10 ^ 12, ((L + n * c : ℤ) : ℚ) / 10 ^ 12⟩) rfl
    (div_pow_nonneg.mpr hpos) (by omega) le_rfl
  have hr₁ : Remainder step n (n - (ts.map (·.2)).sum)
      (numeric (n * step - ((ts.map (·.2)).sum : ℕ) * step)) := .taken (by omega)
  obtain ⟨s, hs₁, hlocked₂, hb₂, hr₂⟩ := h.makerFills hl hs.le hc hL
    hp.makers (s := ⟨w₁, _⟩) hlocked₁
    hb₁ hr₁ (by omega) (by omega)
  refine ⟨s, ?_, ?_, fun hall => ?_, fun hpart => ?_⟩
  · rw [fills, settleSubmit, hw₁]
    exact hs₁
  · have hrest : (0 : ℤ) ≤ (n - (ts.map (·.2)).sum - ks.sum : ℕ) * c :=
      mul_nonneg (by positivity) hc
    rw [hlocked, hlocked₂]
    refine div_le_div_of_nonneg_right ?_ (by norm_num)
    exact_mod_cast le_add_of_nonneg_right hrest
  · rw [hlocked, hlocked₂, show n - (ts.map (·.2)).sum - ks.sum = 0 by omega]
    simp
  · have hk : 0 < n - (ts.map (·.2)).sum - ks.sum := by omega
    unfold settleCancel
    split
    · rename_i hleave
      obtain ⟨w', hw', hlocked', -⟩ := update_isSome hlocked₂
        (add_nonneg hb₂ (toPrecision_nonneg (mul_nonneg hl.le hleave.le)))
        (h.rest _ _ hk hr₂ hleave) (le_add_of_nonneg_left hL)
      rw [← mul_eq_product] at hw'
      refine ⟨w', hw', ?_⟩
      rw [hlocked', hlocked, add_sub_cancel_right]
    · rename_i hleave
      have hzero := h.lost _ _ hk hr₂ (not_lt.mp hleave)
      refine ⟨s.funds, rfl, ?_⟩
      rw [hlocked₂, hlocked, hzero, mul_zero, add_zero]

end Enough

/-! ## Proportional products are needed -/

section Needed

variable {limit step : ℚ} {n : ℕ}

/-- What a fill of `k` steps takes off the locked funds, in units. -/
def released (limit step : ℚ) (k : ℕ) : ℤ := ⌈product limit (k * step) - 1 / 2⌉

theorem settleBid_eq_some {w w' : Funds} {price : ℚ} {k : ℕ} {M : ℤ}
    (h : settleBid limit price (k * step) w = some w') (hM : w.locked = (M : ℚ) / 10 ^ 12) :
    -(1 / 2) < (M : ℚ) - product limit (k * step) ∧
      w'.locked = ((M - released limit step k : ℤ) : ℚ) / 10 ^ 12 := by
  unfold settleBid at h
  rw [mul_eq_product limit (k * step)] at h
  exact update_eq_some h hM

theorem takerFills_locked {ts : List (ℚ × ℕ)} {w w' : Funds} {M : ℤ}
    (h : takerFills limit step ts w = some w') (hM : w.locked = (M : ℚ) / 10 ^ 12) :
    w'.locked = ((M - (ts.map fun t => released limit step t.2).sum : ℤ) : ℚ) / 10 ^ 12 := by
  induction ts generalizing w M with
  | nil =>
    cases h
    simpa using hM
  | cons t ts ih =>
    obtain ⟨w₁, h₁, h⟩ := Option.bind_eq_some_iff.mp h
    rw [ih h (settleBid_eq_some h₁ hM).2, List.map_cons, List.sum_cons, sub_sub]

theorem makerFills_locked {ks : List ℕ} {s s' : Bid} {M : ℤ}
    (h : makerFills limit step ks s = some s') (hM : s.funds.locked = (M : ℚ) / 10 ^ 12) :
    s'.funds.locked = ((M - (ks.map (released limit step)).sum : ℤ) : ℚ) / 10 ^ 12 := by
  induction ks generalizing s M with
  | nil =>
    cases h
    simpa using hM
  | cons k ks ih =>
    obtain ⟨s₁, h₁, h⟩ := Option.bind_eq_some_iff.mp h
    obtain ⟨w₁, hw₁, rfl⟩ := Option.map_eq_some_iff.mp h₁
    rw [ih h (settleBid_eq_some hw₁ hM).2, List.map_cons, List.sum_cons, sub_sub]

theorem makerFills_append (ks ks' : List ℕ) (s : Bid) :
    makerFills limit step (ks ++ ks') s =
      (makerFills limit step ks s).bind (makerFills limit step ks') := by
  induction ks generalizing s with
  | nil => rfl
  | cons k ks ih =>
    rw [List.cons_append, makerFills, makerFills]
    cases makerFill limit s (k * step) with
    | none => rfl
    | some s₁ => exact ih s₁

/-- The fills of an order from locked funds of `M` units. -/
theorem fills_locked {ts : List (ℚ × ℕ)} {ks : List ℕ} {w : Funds} {s : Bid} {M : ℤ}
    (h : fills limit step n ts ks w = some s) (hM : w.locked = (M : ℚ) / 10 ^ 12) :
    s.funds.locked = ((M - (ts.map fun t => released limit step t.2).sum -
      (ks.map (released limit step)).sum : ℤ) : ℚ) / 10 ^ 12 := by
  obtain ⟨s₁, h₁, h⟩ := Option.bind_eq_some_iff.mp h
  obtain ⟨w₁, hw₁, rfl⟩ := Option.map_eq_some_iff.mp h₁
  exact makerFills_locked h (takerFills_locked hw₁ hM)

/-- Every remainder is reached by some fills. -/
theorem Remainder.exists_fills (hl : 0 < limit) {k : ℕ} {leaveQty : ℚ}
    (h : Remainder step n k leaveQty) : ∃ ts ks, Partition limit n ts ks ∧
      (ts.map (·.2)).sum + ks.sum + k = n ∧
      ∀ w s, fills limit step n ts ks w = some s → s.leaveQty = leaveQty := by
  induction h with
  | @taken k j hkj =>
    -- one fill as taker, or none
    refine ⟨if j = 0 then [] else [(limit, j)], [], ?_, ?_, fun w s hfills => ?_⟩
    · refine ⟨fun t ht => ?_, by simp, ?_⟩
      · split at ht
        · simp at ht
        · rename_i hj
          obtain rfl : t = (limit, j) := by simpa using ht
          exact ⟨hl, le_rfl, Nat.pos_of_ne_zero hj⟩
      · split <;> simp
        omega
    · split <;> simp <;> omega
    · obtain ⟨s₁, h₁, hs⟩ := Option.bind_eq_some_iff.mp hfills
      obtain ⟨w₁, hw₁, rfl⟩ := Option.map_eq_some_iff.mp h₁
      cases hs
      dsimp only
      congr 3
      split
      · rename_i hj
        simp [hj]
      · simp
  | @made k j leaveQty hj h ih =>
    obtain ⟨ts, ks, hp, hsum, hleave⟩ := ih
    refine ⟨ts, ks ++ [j], ⟨hp.takers, fun x hx => ?_, ?_⟩, ?_, fun w s hfills => ?_⟩
    · rcases List.mem_append.mp hx with hx | hx
      · exact hp.makers x hx
      · obtain rfl := List.mem_singleton.mp hx
        exact hj
    · simp only [List.sum_append, List.sum_singleton]
      omega
    · simp only [List.sum_append, List.sum_singleton]
      omega
    · obtain ⟨s₁, h₁, hs⟩ := Option.bind_eq_some_iff.mp hfills
      rw [makerFills_append] at hs
      obtain ⟨s₂, h₂, hs⟩ := Option.bind_eq_some_iff.mp hs
      obtain ⟨s₃, h₃, hs⟩ := Option.bind_eq_some_iff.mp hs
      obtain ⟨w₃, hw₃, rfl⟩ := Option.map_eq_some_iff.mp h₃
      cases hs
      have hfills₂ : fills limit step n ts ks w = some s₂ := by
        rw [fills, h₁]
        exact h₂
      rw [← hleave w s₂ hfills₂]

/-- Locked funds that are released to nothing were near to the product. -/
theorem near_of_released {r : ℚ} {M : ℤ} (hlt : -(1 / 2) < (M : ℚ) - r) (h : M - ⌈r - 1 / 2⌉ = 0) :
    |r - M| < 1 / 2 := by
  have hceil : ⌈r - 1 / 2⌉ = M := by omega
  obtain ⟨hlow, -⟩ := Int.ceil_eq_iff.mp hceil
  rw [abs_lt]
  constructor <;> linarith

theorem sum_released {c : ℤ} (ks : List ℕ) (h : ∀ k ∈ ks, released limit step k = k * c) :
    (ks.map (released limit step)).sum = ks.sum * c := by
  induction ks with
  | nil => simp
  | cons k ks ih =>
    rw [List.map_cons, List.sum_cons, List.sum_cons, h k (by simp),
      ih fun x hx => h x (by simp [hx])]
    push_cast
    ring

/-- All fills of an order of `n` steps, and the cancel of the rest, leave nothing locked in `w`. -/
def Empties (limit step : ℚ) (n : ℕ) (w : Funds) : Prop :=
  ∀ ts ks, Partition limit n ts ks → ∃ s, fills limit step n ts ks w = some s ∧
    ((ts.map (·.2)).sum + ks.sum = n → s.funds.locked = 0) ∧
    ((ts.map (·.2)).sum + ks.sum < n → ∃ w', settleCancel limit s = some w' ∧ w'.locked = 0)

/-- The lock of a wallet with nothing locked before it. -/
theorem RoundTrips.exists_empties (h : RoundTrips limit step n) (hl : 0 < limit) (hs : 0 < step) :
    ∃ (w : Funds) (M : ℤ), w.locked = (M : ℚ) / 10 ^ 12 ∧ Empties limit step n w := by
  have hA := product_nonneg hl.le (show 0 ≤ n * step by positivity)
  obtain ⟨B, hB⟩ := Int.eq_ofNat_of_zero_le (Int.ceil_nonneg hA)
  have hstored : (⟨((B : ℤ) : ℚ) / 10 ^ 12, 0⟩ : Funds).Stored := ⟨⟨B, rfl⟩, ⟨0, by simp⟩⟩
  have hle : mul limit (n * step) ≤ ((B : ℤ) : ℚ) / 10 ^ 12 := by
    rw [mul_eq_product, ← hB]
    exact div_le_div_of_nonneg_right (Int.le_ceil _) (by norm_num)
  obtain ⟨w₁, hlock, -, hall⟩ := h _ hstored hle
  obtain ⟨B', L, -, -, -, hlock', -⟩ := lockReservation_eq hstored hA hle
  have hw₁ := Option.some.inj (hlock.symm.trans hlock')
  refine ⟨w₁, L + ⌊product limit (n * step) + 1 / 2⌋, by rw [hw₁], fun ts ks hp => ?_⟩
  obtain ⟨s, hfills, -, hfull, hcancel⟩ := hall ts ks hp
  exact ⟨s, hfills, hfull, hcancel⟩

/-- Fills of single steps, and a last one of `k` steps, release all that was locked. -/
theorem Empties.last_fill {w : Funds} {M : ℤ} (h : Empties limit step n w)
    (hM : w.locked = (M : ℚ) / 10 ^ 12) {k : ℕ} (hk : 0 < k) (hkn : k ≤ n) :
    M - (n - k : ℕ) * released limit step 1 - released limit step k = 0 ∧
      -(1 / 2) < ((M - (n - k : ℕ) * released limit step 1 : ℤ) : ℚ) -
        product limit (k * step) := by
  have hsum : (([] : List (ℚ × ℕ)).map (·.2)).sum + (List.replicate (n - k) 1 ++ [k]).sum = n := by
    simp
    omega
  have hpos : ∀ x ∈ List.replicate (n - k) 1 ++ [k], 0 < x := by
    intro x hx
    rcases List.mem_append.mp hx with hx | hx
    · rw [List.eq_of_mem_replicate hx]
      norm_num
    · rw [List.mem_singleton.mp hx]
      exact hk
  obtain ⟨s, hfills, hfull, -⟩ := h [] (List.replicate (n - k) 1 ++ [k]) ⟨by simp, hpos, hsum.le⟩
  obtain ⟨s₁, h₁, hmake⟩ := Option.bind_eq_some_iff.mp hfills
  cases h₁
  rw [makerFills_append] at hmake
  obtain ⟨s₂, h₂, hmake⟩ := Option.bind_eq_some_iff.mp hmake
  obtain ⟨s₃, h₃, hmake⟩ := Option.bind_eq_some_iff.mp hmake
  obtain ⟨w₃, hw₃, rfl⟩ := Option.map_eq_some_iff.mp h₃
  cases hmake
  have hbefore := makerFills_locked h₂ hM
  simp only [List.map_replicate, List.sum_replicate, nsmul_eq_mul] at hbefore
  obtain ⟨hlt, hafter⟩ := settleBid_eq_some hw₃ hbefore
  refine ⟨div_pow_inj.mp (hafter.symm.trans ((hfull hsum).trans ?_)), hlt⟩
  simp

/-- What the fills release is in proportion to their steps. -/
theorem Empties.released_eq {w : Funds} {M : ℤ} (h : Empties limit step n w)
    (hM : w.locked = (M : ℚ) / 10 ^ 12) (hn : 0 < n) :
    M = n * released limit step 1 ∧ ∀ k ≤ n, released limit step k = k * released limit step 1 := by
  have hall : M = n * released limit step 1 := by
    have := (h.last_fill hM one_pos hn).1
    push_cast [hn] at this
    linarith
  refine ⟨hall, fun k hkn => ?_⟩
  rcases Nat.eq_zero_or_pos k with rfl | hk
  · have hzero : product limit ((0 : ℕ) * step) = 0 := by simp [product, mul, toPrecision]
    rw [released, hzero, Int.ceil_eq_iff]
    norm_num
  · have := (h.last_fill hM hk hkn).1
    push_cast [hkn] at this
    linarith

/-- **A reservation that goes round has proportional products.** A wallet with nothing locked shows
it: single steps, and the fill of `k` steps after them, have to release what was locked. -/
theorem RoundTrips.proportional (h : RoundTrips limit step n) (hl : 0 < limit) (hs : 0 < step)
    (hn : 0 < n) : Proportional limit step n (released limit step 1) := by
  obtain ⟨w, M, hM, hempties⟩ := h.exists_empties hl hs
  obtain ⟨hall, hreleased⟩ := hempties.released_eq hM hn
  -- the locked funds when a remainder of `k` steps is in the row
  have hremainder : ∀ k leaveQty, 0 < k → Remainder step n k leaveQty → ∃ s, s.leaveQty = leaveQty ∧
      s.funds.locked = ((k * released limit step 1 : ℤ) : ℚ) / 10 ^ 12 ∧
      ∃ w', settleCancel limit s = some w' ∧ w'.locked = 0 := by
    intro k leaveQty hk hr
    obtain ⟨ts, ks, hp, hsum, hleave⟩ := hr.exists_fills hl
    obtain ⟨s, hfills, -, hcancel⟩ := hempties ts ks hp
    refine ⟨s, hleave w s hfills, ?_, hcancel (by omega)⟩
    have hts : ((ts.map fun t => released limit step t.2).sum : ℤ) =
        ((ts.map (·.2)).sum : ℕ) * released limit step 1 := by
      have := sum_released (ts.map (·.2))
        fun x hx => hreleased x ((List.single_le_sum (by simp) x hx).trans (by omega))
      rwa [List.map_map] at this
    have hks := sum_released ks
      fun x hx => hreleased x ((List.single_le_sum (by simp) x hx).trans (by omega))
    rw [fills_locked hfills hM, hts, hks, hall]
    congr 2
    have hn' : (n : ℤ) = ((ts.map (·.2)).sum : ℕ) + (ks.sum : ℕ) + k := by exact_mod_cast hsum.symm
    rw [hn']
    ring
  refine ⟨fun k hkn => ?_, fun k leaveQty hk hr hpos => ?_, fun k leaveQty hk hr hle₀ => ?_⟩
  · rcases Nat.eq_zero_or_pos k with rfl | hk
    · have hzero : product limit ((0 : ℕ) * step) = 0 := by simp [product, mul, toPrecision]
      rw [hzero]
      norm_num
    · obtain ⟨hrel, hlt⟩ := hempties.last_fill hM hk hkn
      have hbefore : M - (n - k : ℕ) * released limit step 1 = k * released limit step 1 := by
        rw [hall]
        push_cast [hkn]
        ring
      rw [hbefore] at hrel hlt
      exact near_of_released hlt hrel
  · obtain ⟨s, rfl, hlocked, w', hcancel, hzero⟩ := hremainder k leaveQty hk hr
    rw [settleCancel, if_pos hpos, mul_eq_product limit s.leaveQty] at hcancel
    obtain ⟨hlt, hlocked'⟩ := update_eq_some hcancel hlocked
    refine near_of_released hlt (div_pow_inj.mp (hlocked'.symm.trans (hzero.trans ?_)))
    simp
  · obtain ⟨s, rfl, hlocked, w', hcancel, hzero⟩ := hremainder k leaveQty hk hr
    rw [settleCancel, if_neg (not_lt.mpr hle₀)] at hcancel
    cases hcancel
    have hunits : (k * released limit step 1 : ℤ) = 0 :=
      div_pow_inj.mp (hlocked.symm.trans (hzero.trans (by simp)))
    exact (mul_eq_zero.mp hunits).resolve_left (by exact_mod_cast hk.ne')

/-- **When the reservation of a bid goes round.** Whatever the wallet, the fills and the cancel: the
lock keeps the sum of the two amounts, no release takes the locked funds below what they were before
the order, and at its end they are what they were, exactly when the products of the price with the
steps, and with the remainders that the row can hold, round in proportion to the steps. -/
theorem round_trip_iff (hl : 0 < limit) (hs : 0 < step) (hn : 0 < n) :
    RoundTrips limit step n ↔ ∃ c, Proportional limit step n c :=
  ⟨fun h => ⟨_, h.proportional hl hs hn⟩, fun ⟨_, h⟩ => h.roundTrips hl hs hn⟩

end Needed

/-! ## Exact amounts -/

section Exact

variable {x y limit price qty step : ℚ} {w : Funds} {n : ℕ}

/-- An amount with at most 12 decimals and 20 digits. -/
def Exact (x : ℚ) : Prop := ∃ a : ℕ, a < 10 ^ 20 ∧ x = (a : ℤ) / 10 ^ 12

theorem Exact.toPrecision (h : Exact x) : toPrecision 20 x = x := by
  obtain ⟨a, ha, rfl⟩ := h
  have hpow : ((a : ℤ) : ℚ) / 10 ^ 12 = ((a : ℤ) : ℚ) * 10 ^ (-12 : ℤ) := by
    rw [zpow_neg, div_eq_mul_inv]
    rfl
  rw [hpow]
  exact toPrecision_of_digits (by rw [Nat.abs_cast]; exact_mod_cast ha)

theorem mul_of_exact (h : Exact (x * y)) : mul x y = x * y := h.toPrecision

theorem sub_of_exact (h : Exact (x - y)) : sub x y = x - y := h.toPrecision

theorem Exact.sub (hx : Exact x) (hy : Exact y) (h : y ≤ x) : Exact (x - y) := by
  obtain ⟨a, ha, rfl⟩ := hx
  obtain ⟨b, hb, rfl⟩ := hy
  have hle : b ≤ a := by
    rw [div_le_div_iff_of_pos_right (by norm_num)] at h
    exact_mod_cast h
  exact ⟨a - b, by omega, by push_cast [hle]; ring⟩

/-- An update by amounts that are stored exactly. -/
theorem update_of_exact {b l : ℚ} {B L : ℕ} (hb : w.balance + b = (B : ℤ) / 10 ^ 12)
    (hl : w.locked + l = (L : ℤ) / 10 ^ 12) :
    w.update b l = some ⟨w.balance + b, w.locked + l⟩ := by
  have h₁ : numeric (w.balance + b) = w.balance + b := by
    rw [hb]
    exact toScale_intCast_div _
  have h₂ : numeric (w.locked + l) = w.locked + l := by
    rw [hl]
    exact toScale_intCast_div _
  unfold Funds.update
  rw [h₁, h₂]
  refine if_pos ⟨?_, ?_⟩
  · rw [hb]
    positivity
  · rw [hl]
    positivity

/-- **The lock of exact amounts** is the one of the exact model. -/
theorem lockReservation_of_exact (market : Market) (o : Order) (ht : o.type = .LIMIT)
    (hside : o.side = .BID) (hp : o.price = some limit) (hw : w.Stored)
    (he : Exact (limit * o.quantity)) (hle : limit * o.quantity ≤ w.balance) :
    ∃ p, lockPostings market o = [p] ∧
      lockReservation limit o.quantity w = some ⟨w.balance + p.balance, w.locked + p.locked⟩ := by
  refine ⟨⟨o.userId, market.quoteAsset, -(limit * o.quantity), limit * o.quantity⟩, ?_, ?_⟩
  · simp [lockPostings, ht, hside, hp]
  · obtain ⟨B, hB⟩ := hw.balance
    obtain ⟨L, hL⟩ := hw.locked
    rw [lockReservation, mul_of_exact he, atomicLock, if_pos hle]
    obtain ⟨a, -, ha⟩ := he
    have haB : a ≤ B := by
      rw [ha, hB, div_le_div_iff_of_pos_right (by norm_num)] at hle
      exact_mod_cast hle
    refine update_of_exact (B := B - a) (L := L + a) ?_ ?_
    · rw [hB, ha]
      push_cast [haB]
      ring
    · rw [hL, ha]
      push_cast
      ring

/-- **A fill of exact amounts** moves what the exact model posts. -/
theorem settleBid_of_exact (market : Market) (o : Order) (rate : ℚ) (ht : o.type = .LIMIT)
    (hside : o.side = .BID) (hp : o.price = some limit) (hw : w.Stored)
    (he : Exact (limit * qty)) (he' : Exact (price * qty)) (hle : price * qty ≤ limit * qty)
    (hlocked : limit * qty ≤ w.locked) :
    ∃ p q, Settler.takerPostings market o price qty rate = [p, q] ∧
      settleBid limit price qty w = some ⟨w.balance + p.balance, w.locked + p.locked⟩ := by
  refine ⟨⟨o.userId, market.quoteAsset, limit * qty - price * qty, -(limit * qty)⟩,
    ⟨o.userId, market.baseAsset, qty * (1 - rate), 0⟩, ?_, ?_⟩
  · simp only [Settler.takerPostings, hside, ht, hp]
  · obtain ⟨B, hB⟩ := hw.balance
    obtain ⟨L, hL⟩ := hw.locked
    have hrefund := he.sub he' hle
    unfold settleBid
    rw [mul_of_exact he, mul_of_exact he']
    dsimp only
    rw [sub_of_exact hrefund]
    obtain ⟨a, -, ha⟩ := he
    obtain ⟨b, -, hb⟩ := hrefund
    have haL : a ≤ L := by
      rw [ha, hL, div_le_div_iff_of_pos_right (by norm_num)] at hlocked
      exact_mod_cast hlocked
    refine update_of_exact (B := B + b) (L := L - a) ?_ ?_
    · rw [hB, hb]
      push_cast
      ring
    · rw [hL, ha]
      push_cast [haL]
      ring

/-- With exact amounts the row holds the exact remainder. -/
theorem Remainder.eq {S k : ℕ} {leaveQty : ℚ}
    (hS : step = (S : ℤ) / 10 ^ 12) (hnS : n * S < 10 ^ 20)
    (h : Remainder step n k leaveQty) : leaveQty = k * step ∧ k ≤ n := by
  have hexact : ∀ k : ℕ, (k : ℚ) * step = ((k * S : ℕ) : ℤ) / 10 ^ 12 := fun k => by
    rw [hS]
    push_cast
    ring
  have hnumeric : ∀ k : ℕ, numeric (k * step) = k * step := fun k => by
    rw [hexact]
    exact toScale_intCast_div _
  induction h with
  | @taken k j hkj =>
    have e : (n : ℚ) * step - j * step = k * step := by
      rw [← hkj]
      push_cast
      ring
    rw [e, hnumeric]
    exact ⟨rfl, by omega⟩
  | @made k j leaveQty hj h ih =>
    obtain ⟨rfl, hle⟩ := ih
    have e : ((k + j : ℕ) : ℚ) * step - j * step = k * step := by
      push_cast
      ring
    have hk : Exact (((k + j : ℕ) : ℚ) * step - j * step) := by
      refine ⟨k * S, lt_of_le_of_lt (Nat.mul_le_mul_right S (by omega)) hnS, ?_⟩
      rw [e, hexact]
    rw [sub_of_exact hk, e, hnumeric]
    exact ⟨rfl, by omega⟩

/-- **Exact amounts are proportional**: the price of a step has at most 12 decimals, and the amounts
of the order have at most 20 digits. -/
theorem proportional_of_scale {z S : ℕ} (hs : 0 < step) (hz : limit * step = (z : ℤ) / 10 ^ 12)
    (hnz : n * z < 10 ^ 20) (hS : step = (S : ℤ) / 10 ^ 12) (hnS : n * S < 10 ^ 20) :
    Proportional limit step n z := by
  have hproduct : ∀ k ≤ n, product limit (k * step) = ((k * z : ℤ) : ℚ) := by
    intro k hkn
    have e : limit * (k * step) = ((k * z : ℕ) : ℤ) / 10 ^ 12 := by
      rw [mul_left_comm, hz]
      push_cast
      ring
    have he : Exact (limit * (k * step)) :=
      ⟨k * z, lt_of_le_of_lt (Nat.mul_le_mul_right z hkn) hnz, e⟩
    rw [product, mul_of_exact he, e, div_mul_cancel₀ _ pow_ne]
    push_cast
    rfl
  refine ⟨fun k hkn => ?_, fun k leaveQty hk hr _ => ?_, fun k leaveQty hk hr hle => ?_⟩
  · rw [hproduct k hkn]
    norm_num
  · obtain ⟨rfl, hkn⟩ := hr.eq hS hnS
    rw [hproduct k hkn]
    norm_num
  · obtain ⟨rfl, -⟩ := hr.eq hS hnS
    exact absurd (mul_pos (by exact_mod_cast hk) hs) (not_lt.mpr hle)

end Exact

/-- The reservation of 3 steps of `0.00000001` at `60000.01` goes round. -/
theorem round_trip_three_steps : (0 : ℚ) < 6000001 / 100 ∧
    RoundTrips (6000001 / 100) (1 / 10 ^ 8) 3 := by
  refine ⟨by norm_num, (round_trip_iff (by norm_num) (by norm_num)
    (by norm_num)).mpr ⟨600000100, ?_⟩⟩
  exact proportional_of_scale (z := 600000100) (S := 10000) (by norm_num)
    (by norm_num) (by norm_num)
    (by norm_num) (by norm_num)

/-- **A reservation that does not go round**: 2 steps of `0.000001` at `1.0000004`. The
lock is rounded up, the two fills of one step release an amount rounded down each, and
a unit stays locked. -/
theorem round_trip_drifts : ¬RoundTrips (10000004 / 10 ^ 7) (1 / 10 ^ 6) 2 := by
  intro h
  have hp := h.proportional (by norm_num) (by norm_num) (by norm_num)
  have hproduct : ∀ k : ℕ, k ≤ 2 → product (10000004 / 10 ^ 7)
      (k * (1 / 10 ^ 6)) = k * 10000004 / 10 := by
    intro k hk
    have e : (10000004 / 10 ^ 7 : ℚ) * (k * (1 / 10 ^ 6)) =
        ((k * 10000004 : ℤ) : ℚ) * 10 ^ (-13 : ℤ) := by
      push_cast
      rw [zpow_neg]
      norm_num
      ring
    rw [product, mul, e, toPrecision_of_digits]
    · push_cast
      rw [zpow_neg]
      norm_num
      ring
    · rw [abs_of_nonneg (by positivity)]
      push_cast
      omega
  have h₁ := abs_lt.mp (hp.steps 1 (by norm_num))
  have h₂ := abs_lt.mp (hp.steps 2 (by norm_num))
  rw [hproduct 1 (by norm_num)] at h₁
  rw [hproduct 2 (by norm_num)] at h₂
  generalize released (10000004 / 10 ^ 7) (1 / 10 ^ 6) 1 = c at h₁ h₂
  push_cast at h₁ h₂
  have hupper : (c : ℚ) < ((1000001 : ℤ) : ℚ) := by
    push_cast
    linarith [h₁.1]
  have hlower : ((1000000 : ℤ) : ℚ) < c := by
    push_cast
    linarith [h₂.2]
  have := Int.cast_lt.mp hupper
  have := Int.cast_lt.mp hlower
  omega

end Orbit.Precision
