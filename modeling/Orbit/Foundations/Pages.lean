import Mathlib.Data.List.Basic
import Mathlib.Order.Lattice

/-!
# Pages of a list that is filtered late

A list is shown in pages of `n` items. For a page its first `n + 1` items are taken, and those that
pass the filter `p` are kept; if more than `n` are left, `n` of them are shown and the next page
goes on behind them, and otherwise the page is the last one (`follow`). As a page has a successor
only if the filter drops none of its items, the pages together look at an initial part of the list,
whose length follows from the first item that does not pass (`follow_eq`).

* `follow_eq_filter_iff`: the pages show exactly the items that pass when none of these comes after
  the page on which the first other item stands.
* `filter_lt_eq_drop`: in a list with decreasing keys, what comes after an
  item are the smaller keys.
-/

namespace Orbit.Pages

variable {α : Type*} (p : α → Bool) (n : ℕ)

/-- What the pages of `l` show together; `none` if there are more of them than the fuel. -/
def follow : ℕ → List α → Option (List α)
  | 0, _ => none
  | fuel + 1, l =>
    let rows := (l.take (n + 1)).filter p
    if n < rows.length then (follow fuel (l.drop n)).map (rows.take n ++ ·) else some rows

/-- How many items the pages look at. -/
def reach (l : List α) : ℕ := n * (((l.takeWhile p).length - 1) / n + 1) + 1

variable {p n} {l : List α}

/-! ## The items up to the first that does not pass -/

theorem le_length_takeWhile_iff {m : ℕ} :
    m ≤ (l.takeWhile p).length ↔ m ≤ l.length ∧ ∀ x ∈ l.take m, p x = true := by
  induction l generalizing m with
  | nil => simp
  | cons a l ih =>
    cases m with
    | zero => simp
    | succ m =>
      by_cases ha : p a = true
      · simp [ha, ih]
      · simp [ha]

/-- A page has a successor exactly when all its items pass. -/
theorem lt_length_rows_iff :
    n < ((l.take (n + 1)).filter p).length ↔ n + 1 ≤ (l.takeWhile p).length := by
  rw [le_length_takeWhile_iff]
  have hle := List.length_filter_le p (l.take (n + 1))
  have hlen := List.length_take (i := n + 1) (l := l)
  constructor
  · intro h
    have heq : ((l.take (n + 1)).filter p).length = (l.take (n + 1)).length := by omega
    exact ⟨by omega, List.length_filter_eq_length_iff.mp heq⟩
  · intro ⟨hl, hall⟩
    rw [List.filter_eq_self.mpr hall]
    omega

/-- Behind a page that has a successor, the pages look at as many items as from its successor on. -/
theorem reach_eq_add (hn : 0 < n) (h : n + 1 ≤ (l.takeWhile p).length) :
    reach p n l = n + reach p n (l.drop n) := by
  have hall := (le_length_takeWhile_iff.mp h).2
  have htake : ∀ x ∈ l.take n, p x = true := fun x hx =>
    hall x ((List.take_prefix_take_left (Nat.le_succ n)).subset hx)
  have hwhile : l.takeWhile p = l.take n ++ (l.drop n).takeWhile p := by
    conv_lhs => rw [← List.take_append_drop n l]
    exact List.takeWhile_append_of_pos htake
  have hlen : (l.takeWhile p).length = n + ((l.drop n).takeWhile p).length := by
    have hn' : (l.take n).length = n :=
      List.length_take_of_le (by have := (le_length_takeWhile_iff.mp h).1; omega)
    rw [hwhile, List.length_append, hn']
  obtain ⟨b, hb⟩ : ∃ b, ((l.drop n).takeWhile p).length = b + 1 :=
    Nat.exists_eq_add_of_le' (by omega)
  have hdiv : (n + (b + 1) - 1) / n = b / n + 1 := by
    rw [show n + (b + 1) - 1 = b + n by omega, Nat.add_div_right b hn]
  rw [reach, reach, hlen, hb, hdiv, Nat.add_sub_cancel, Nat.mul_succ n (b / n + 1)]
  omega

/-! ## The pages together -/

/-- **What the pages show**: the items that pass, among those they look at. -/
theorem follow_eq (hn : 0 < n) {fuel : ℕ} (hfuel : l.length < fuel) :
    follow p n fuel l = some ((l.take (reach p n l)).filter p) := by
  induction fuel generalizing l with
  | zero => omega
  | succ fuel ih =>
    simp only [follow]
    by_cases hmore : n < ((l.take (n + 1)).filter p).length
    · have hfull := lt_length_rows_iff.mp hmore
      obtain ⟨hlen, hall⟩ := le_length_takeWhile_iff.mp hfull
      have hshown : ((l.take (n + 1)).filter p).take n = (l.take n).filter p := by
        rw [List.filter_eq_self.mpr hall, List.take_take, Nat.min_eq_left (Nat.le_succ n)]
        exact (List.filter_eq_self.mpr fun x hx =>
          hall x ((List.take_prefix_take_left (Nat.le_succ n)).subset hx)).symm
      rw [if_pos hmore, ih (by rw [List.length_drop]; omega), hshown, Option.map_some,
        reach_eq_add hn hfull, List.take_add, List.filter_append]
    · have hfirst : ((l.takeWhile p).length - 1) / n = 0 := by
        rw [lt_length_rows_iff] at hmore
        exact Nat.div_eq_of_lt (by omega)
      rw [if_neg hmore, reach, hfirst, Nat.zero_add, Nat.mul_one]

/-- No item that passes stands behind the page on which an item stands that does not. -/
def Unbroken (p : α → Bool) (n : ℕ) (l : List α) : Prop :=
  ∀ i j, (∃ x ∈ l[i]?, p x = false) → (∃ x ∈ l[j]?, p x = true) → j ≤ n * ((i - 1) / n + 1)

/-- The first item that does not pass decides. -/
theorem unbroken_iff (hn : 0 < n) : Unbroken p n l ↔ ∀ x ∈ l.drop (reach p n l), p x = false := by
  set a := (l.takeWhile p).length with ha
  have hreach : a ≤ n * ((a - 1) / n + 1) := by
    have := Nat.lt_mul_div_succ (a - 1) hn
    omega
  constructor
  · intro h x hx
    by_contra hpass
    obtain ⟨k, hk⟩ := List.mem_iff_getElem?.mp hx
    rw [List.getElem?_drop] at hk
    have hlt : a < l.length := by
      have := (List.getElem?_eq_some_iff.mp hk).1
      rw [reach, ← ha] at this
      omega
    have hfails : p l[a] = false := by
      by_contra hpa
      have hnot : ¬a + 1 ≤ (l.takeWhile p).length := by omega
      refine hnot (le_length_takeWhile_iff.mpr ⟨hlt, fun y hy => ?_⟩)
      rw [List.take_add_one, List.getElem?_eq_getElem hlt] at hy
      rcases List.mem_append.mp hy with hy | hy
      · exact (le_length_takeWhile_iff.mp (Nat.le_refl (l.takeWhile p).length)).2 y hy
      · rw [List.mem_singleton.mp hy]
        simpa using hpa
    have hle := h a _ ⟨l[a], List.getElem?_eq_getElem hlt, hfails⟩ ⟨x, hk, by simpa using hpass⟩
    rw [reach, ← ha] at hle
    omega
  · intro h i j ⟨x, hx, hfails⟩ ⟨y, hy, hpass⟩
    have hai : a ≤ i := by
      by_contra hlt
      have hle : i + 1 ≤ (l.takeWhile p).length := by omega
      have hmem : x ∈ l.take (i + 1) :=
        List.mem_of_getElem? (i := i) (by rw [List.getElem?_take_of_lt (Nat.lt_succ_self i), hx])
      rw [(le_length_takeWhile_iff.mp hle).2 x hmem] at hfails
      cases hfails
    have hj : j < reach p n l := by
      by_contra hle
      have hmem : y ∈ l.drop (reach p n l) :=
        List.mem_iff_getElem?.mpr ⟨j - reach p n l, by
          rw [List.getElem?_drop, Nat.add_sub_cancel' (by omega)]; exact hy⟩
      rw [h y hmem] at hpass
      cases hpass
    have hmono : n * ((a - 1) / n + 1) ≤ n * ((i - 1) / n + 1) :=
      Nat.mul_le_mul_left n (Nat.add_le_add_right (Nat.div_le_div_right (by omega)) 1)
    rw [reach, ← ha] at hj
    omega

/-- **When the pages show everything that passes.** -/
theorem follow_eq_filter_iff (hn : 0 < n) {fuel : ℕ} (hfuel : l.length < fuel) :
    follow p n fuel l = some (l.filter p) ↔ Unbroken p n l := by
  rw [follow_eq hn hfuel, unbroken_iff hn, Option.some.injEq]
  have hsplit : l.filter p =
      (l.take (reach p n l)).filter p ++ (l.drop (reach p n l)).filter p := by
    rw [← List.filter_append, List.take_append_drop]
  rw [hsplit, List.self_eq_append_right, List.filter_eq_nil_iff]
  simp

/-! ## Cursors -/

/-- In a list with decreasing keys, what comes after an item are the smaller keys. -/
theorem filter_lt_eq_drop {κ : Type*} [LinearOrder κ] {key : α → κ}
    (hl : l.Pairwise fun x y => key y < key x) {x : α} {i : ℕ} (hx : l[i]? = some x) :
    l.filter (fun y => decide (key y < key x)) = l.drop (i + 1) := by
  induction l generalizing i with
  | nil => simp at hx
  | cons a l ih =>
    obtain ⟨ha, hl⟩ := List.pairwise_cons.mp hl
    cases i with
    | zero =>
      obtain rfl : a = x := by simpa using hx
      rw [List.filter_cons, if_neg (by simp), List.filter_eq_self.mpr
        fun y hy => by simpa using ha y hy]
      rfl
    | succ i =>
      have hmem : x ∈ l := List.mem_of_getElem? (by simpa using hx)
      rw [List.filter_cons, if_neg (by simpa using (ha x hmem).le), ih hl (by simpa using hx)]
      rfl

end Orbit.Pages
