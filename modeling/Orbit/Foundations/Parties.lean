import Mathlib.Data.List.Basic

/-!
# Parties that take turns

The parties of a concurrent system are a list, and a step changes one of them. How many parties are
of a kind then changes by what that one was and by what it becomes (`countP_set_add`). A kind that
lacks some party of a larger kind has fewer parties (`countP_lt`).
-/

namespace Orbit.Parties

variable {α : Type*} {l : List α} {i : ℕ} {a : α}

/-- The number of parties of a kind, when one of them moves on. -/
theorem countP_set_add (p : α → Bool) (hi : l[i]? = some a) (a' : α) :
    (l.set i a').countP p + (p a).toNat = l.countP p + (p a').toNat := by
  obtain ⟨hlt, rfl⟩ := List.getElem?_eq_some_iff.mp hi
  rw [List.countP_set hlt]
  cases ha : p l[i] with
  | true =>
    have : 0 < l.countP p := List.countP_pos_iff.mpr ⟨_, List.getElem_mem hlt, ha⟩
    cases p a' <;> simp <;> omega
  | false => cases p a' <;> simp

/-- A kind within another one, to which a party belongs that is not of the first. -/
theorem countP_lt {p q : α → Bool} (hpq : ∀ a, p a = true → q a = true) (hi : l[i]? = some a)
    (hp : p a = false) (hq : q a = true) : l.countP p < l.countP q := by
  obtain ⟨before, after, rfl⟩ := List.append_of_mem (List.mem_of_getElem? hi)
  have hbefore : before.countP p ≤ before.countP q := List.countP_mono_left fun x _ => hpq x
  have hafter : after.countP p ≤ after.countP q := List.countP_mono_left fun x _ => hpq x
  simp only [List.countP_append, List.countP_cons, hp, hq, if_true, Bool.false_eq_true, if_false]
  omega

end Orbit.Parties
