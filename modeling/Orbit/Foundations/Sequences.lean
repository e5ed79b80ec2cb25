import Mathlib.Data.List.Chain

/-!
# Numbered streams

A stream whose numbers are `Consecutive` shows its readers what they miss, and no other stream does:
a reader that gets two entries one after the other sees a gap between their numbers exactly when it
missed something in between (`consecutive_iff_showsLosses`).
-/

namespace Orbit

/-- Each number is the successor of the one before it. -/
def Consecutive (l : List ℕ) : Prop := l.IsChain fun a b => b = a + 1

/-- **A reader that gets `b` next after `a` sees a gap exactly when it missed something.** -/
def ShowsLosses (l : List ℕ) : Prop :=
  ∀ before a lost b after, l = before ++ a :: (lost ++ b :: after) → (b ≠ a + 1 ↔ lost ≠ [])

namespace Consecutive

variable {l l' : List ℕ} {a b : ℕ}

theorem nil : Consecutive [] := List.isChain_nil

theorem left (h : Consecutive (l ++ l')) : Consecutive l := (List.isChain_append.mp h).1

theorem right (h : Consecutive (l ++ l')) : Consecutive l' := (List.isChain_append.mp h).2.1

/-- The next number is the successor of the last one. -/
theorem concat_iff : Consecutive (l ++ [b]) ↔ Consecutive l ∧ ∀ a ∈ l.getLast?, b = a + 1 := by
  unfold Consecutive
  rw [List.isChain_append]
  simp

/-- Numbers grow by one with each entry. -/
theorem eq_add_length (h : Consecutive (a :: (l ++ [b]))) : b = a + l.length + 1 := by
  induction l generalizing a with
  | nil => exact (List.isChain_cons_cons.mp h).1
  | cons c l ih =>
    obtain ⟨rfl, h⟩ := List.isChain_cons_cons.mp h
    rw [ih h, List.length_cons]
    omega

end Consecutive

/-- **Losses show exactly in consecutive numbers.** -/
theorem consecutive_iff_showsLosses {l : List ℕ} : Consecutive l ↔ ShowsLosses l := by
  constructor
  · rintro h before a lost b after rfl
    rw [show before ++ a :: (lost ++ b :: after) = before ++
      (a :: (lost ++ [b]) ++ after) by simp] at h
    have hpart : Consecutive (a :: (lost ++ [b])) := h.right.left
    rw [hpart.eq_add_length, ← List.length_pos_iff]
    omega
  · intro h
    induction l using List.reverseRecOn with
    | nil => exact .nil
    | append_singleton l b ih =>
      refine Consecutive.concat_iff.mpr ⟨ih ?_, fun a ha => ?_⟩
      · rintro before a lost c after rfl
        exact h before a lost c (after ++ [b]) (by simp)
      · -- nothing is between the last number and the next one
        obtain ⟨before, rfl⟩ := List.getLast?_eq_some_iff.mp ha
        by_contra hne
        exact (h before a [] b [] (by simp)).mp hne rfl

end Orbit
