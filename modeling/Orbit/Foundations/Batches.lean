import Mathlib.Data.List.Basic
import Mathlib.Logic.Function.Iterate
import Mathlib.Order.Monotone.Basic

/-!
# Batches from the front

A queue is worked off in passes. A pass tries its first `B` items: the `stuck` ones stay where they
are, and the others leave (`pass`). What `k` passes have tried is an initial part of the queue,
whose length `reach` follows from the stuck items in it alone: they are tried again every time, and
what is left of the batch goes to items that were not tried before (`iterate_pass`).

* `all_leave_iff`: everything that is not stuck has left exactly when only stuck
  items are out of reach.
* `exists_all_leave_iff`: some number of passes is enough exactly when fewer than `B` stuck items
  are in front of every other item.
-/

namespace Orbit

variable {α : Type*} (B : ℕ) (stuck : α → Bool)

/-- A pass over the queue. -/
def pass (l : List α) : List α := (l.take B).filter stuck ++ l.drop B

/-- How many items, from the front of the queue, the first `k` passes have tried. -/
def reach (l : List α) : ℕ → ℕ
  | 0 => 0
  | k + 1 => reach l k + (B - (l.take (reach l k)).countP stuck)

variable {B stuck} {l : List α} {k : ℕ}

/-- Who stays in a queue without repetitions: the stuck items and those that were not tried. -/
theorem pass_eq_filter [DecidableEq α] (hl : l.Nodup) :
    pass B stuck l = l.filter fun x => decide (stuck x = true ∨ x ∉ l.take B) := by
  have hdisjoint : ∀ x ∈ l.drop B, x ∉ l.take B := fun x hx hx' =>
    List.disjoint_take_drop hl le_rfl hx' hx
  conv_rhs => enter [2]; rw [← List.take_append_drop B l]
  rw [List.filter_append, pass]
  congr 1
  · refine List.filter_congr fun x hx => ?_
    simp [hx]
  · refine (List.filter_eq_self.mpr fun x hx => ?_).symm
    simp [hdisjoint x hx]

/-- The stuck items never fill more than a batch. -/
theorem countP_reach_le : (l.take (reach B stuck l k)).countP stuck ≤ B := by
  induction k with
  | zero => simp [reach]
  | succ k ih =>
    have htried : ((l.drop (reach B stuck l k)).take
        (B - (l.take (reach B stuck l k)).countP stuck)).countP stuck ≤
        B - (l.take (reach B stuck l k)).countP stuck :=
      le_trans List.countP_le_length (List.length_take_le _ _)
    rw [reach, List.take_add, List.countP_append]
    omega

/-- **The queue after some passes**: of what they tried only the stuck items are left. -/
theorem iterate_pass : (pass B stuck)^[k] l =
    (l.take (reach B stuck l k)).filter stuck ++ l.drop (reach B stuck l k) := by
  induction k with
  | zero => simp [reach]
  | succ k ih =>
    have hlen : ((l.take (reach B stuck l k)).filter stuck).length ≤ B := by
      rw [← List.countP_eq_length_filter]
      exact countP_reach_le
    rw [Function.iterate_succ_apply', ih, pass, List.take_append, List.drop_append,
      List.take_of_length_le hlen, List.drop_of_length_le hlen, List.nil_append, List.filter_append,
      List.filter_filter, List.drop_drop, ← List.countP_eq_length_filter, reach, List.take_add,
      List.filter_append]
    simp

/-- **What is out of reach**: everything that is not stuck has left exactly when all items that the
passes have not tried are stuck. -/
theorem all_leave_iff : (∀ x ∈ l, stuck x = false → x ∉ (pass B stuck)^[k] l) ↔
    ∀ x ∈ l.drop (reach B stuck l k), stuck x = true := by
  rw [iterate_pass]
  constructor
  · intro h x hx
    by_contra hfree
    exact h x (List.mem_of_mem_drop hx) (by simpa using hfree) (List.mem_append_right _ hx)
  · intro h x _ hfree hx
    rcases List.mem_append.mp hx with hx | hx
    · rw [(List.mem_filter.mp hx).2] at hfree
      cases hfree
    · rw [h x hx] at hfree
      cases hfree

/-! ## Any number of passes -/

theorem reach_mono {k' : ℕ} (h : k ≤ k') : reach B stuck l k ≤ reach B stuck l k' :=
  monotone_nat_of_le_succ (fun _ => Nat.le_add_right _ _) h

/-- Behind `B` stuck items nothing is tried. -/
theorem reach_le_of_blocked {q : ℕ} (h : B ≤ (l.take q).countP stuck) : reach B stuck l k ≤ q := by
  induction k with
  | zero => exact Nat.zero_le q
  | succ k ih =>
    obtain ⟨d, rfl⟩ := Nat.exists_eq_add_of_le ih
    have hrest : ((l.drop (reach B stuck l k)).take d).countP stuck ≤ d :=
      le_trans List.countP_le_length (List.length_take_le _ _)
    rw [List.take_add, List.countP_append] at h
    rw [reach]
    omega

/-- Where fewer than `B` stuck items are in front of every other item, each pass tries a new one or
only stuck ones are left. -/
theorem le_reach_or (h : ∀ q x, l[q]? = some x → stuck x = false → (l.take q).countP stuck < B) :
    k ≤ reach B stuck l k ∨ ∀ x ∈ l.drop (reach B stuck l k), stuck x = true := by
  induction k with
  | zero => exact .inl (Nat.zero_le _)
  | succ k ih =>
    by_cases hall : ∀ x ∈ l.drop (reach B stuck l k), stuck x = true
    · exact .inr fun x hx => hall x (List.drop_subset_drop_left l (reach_mono (Nat.le_succ k)) hx)
    · left
      have hk : k ≤ reach B stuck l k := ih.resolve_right hall
      obtain ⟨x, hx⟩ := not_forall.mp hall
      obtain ⟨hmem, hfree⟩ := Classical.not_imp.mp hx
      obtain ⟨i, hi⟩ := List.mem_iff_getElem?.mp hmem
      rw [List.getElem?_drop] at hi
      have hroom := h _ x hi (by simpa using hfree)
      rw [List.take_add, List.countP_append] at hroom
      rw [reach]
      omega

/-- **Some number of passes is enough** exactly when fewer than `B` stuck items are in front
of every other item. -/
theorem exists_all_leave_iff : (∃ k, ∀ x ∈ l, stuck x = false → x ∉ (pass B stuck)^[k] l) ↔
    ∀ q x, l[q]? = some x → stuck x = false → (l.take q).countP stuck < B := by
  constructor
  · rintro ⟨k, hk⟩ q x hx hfree
    by_contra hblocked
    have hle : reach B stuck l k ≤ q := reach_le_of_blocked (not_lt.mp hblocked)
    obtain ⟨d, rfl⟩ := Nat.exists_eq_add_of_le hle
    rw [← List.getElem?_drop] at hx
    rw [all_leave_iff.mp hk x (List.mem_of_getElem? hx)] at hfree
    cases hfree
  · intro h
    refine ⟨l.length, all_leave_iff.mpr fun x hx => ?_⟩
    rcases le_reach_or (k := l.length) h with hlen | hall
    · rw [List.drop_of_length_le hlen] at hx
      cases hx
    · exact hall x hx

end Orbit
