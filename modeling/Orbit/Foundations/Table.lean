import Mathlib.Algebra.Order.BigOperators.Group.List
import Mathlib.Data.List.Nodup
import Mathlib.Tactic.Abel

/-!
# Keyed tables

A table is a list of rows, read and written through a key. `find?` reads the row of a key and
`modify` rewrites it, which for a key that is unique in the table is what `SELECT` and `UPDATE`
with a unique `WHERE` do. Both look at the first row with the key, so that the laws below need no
uniqueness: what a rewrite does to a lookup (`find?_modify_self`, `find?_modify_ne`), to a sum over
the rows (`sum_modify`), to a selection of them (`filter_modify`, `filter_modify_of_not`) and to the
rows themselves (`mem_modify`). `KeysIncreasing` is the shape of a table filled from an increasing
sequence of keys, where lookup and membership agree (`KeysIncreasing.find?_eq_some`).
-/

namespace Orbit.Table

/-- The key under which a table stores a row. -/
class Keyed (ρ : Type*) (κ : outParam (Type*)) where
  key : ρ → κ

export Keyed (key)

variable {ρ κ M : Type*} [Keyed ρ κ] [DecidableEq κ]

/-- The row with key `k`. -/
def find? (k : κ) (t : List ρ) : Option ρ := t.find? fun r => decide (key r = k)

/-- Rewrite the row with key `k`. -/
def modify (k : κ) (f : ρ → ρ) : List ρ → List ρ
  | [] => []
  | r :: t => if key r = k then f r :: t else r :: modify k f t

/-- Insert a row, or rewrite the one that has its key. -/
def upsert (r : ρ) (f : ρ → ρ) (t : List ρ) : List ρ :=
  match find? (key r) t with
  | some _ => modify (key r) f t
  | none => t ++ [r]

/-! ## Lookups -/

@[simp] theorem find?_nil (k : κ) : find? k ([] : List ρ) = none := rfl

theorem find?_cons (k : κ) (r : ρ) (t : List ρ) :
    find? k (r :: t) = if key r = k then some r else find? k t := by
  by_cases h : key r = k <;> simp [find?, h]

theorem mem_of_find? {k : κ} {t : List ρ} {r : ρ} (h : find? k t = some r) : r ∈ t :=
  List.mem_of_find?_eq_some h

theorem key_of_find? {k : κ} {t : List ρ} {r : ρ} (h : find? k t = some r) : key r = k := by
  simpa using List.find?_some h

theorem find?_eq_none {k : κ} {t : List ρ} : find? k t = none ↔ ∀ r ∈ t, key r ≠ k := by
  simp [find?]

theorem find?_isSome {k : κ} {t : List ρ} : (find? k t).isSome ↔ k ∈ t.map key := by
  simp [find?]

theorem find?_append (k : κ) (t u : List ρ) :
    find? k (t ++ u) = (find? k t).or (find? k u) := by
  simp [find?, List.find?_append]

/-- Appending a row keeps every lookup that succeeds. -/
theorem find?_append_of_some {k : κ} {t : List ρ} {r : ρ} (u : List ρ) (h : find? k t = some r) :
    find? k (t ++ u) = some r := by
  rw [find?_append, h, Option.some_or]

theorem find?_isSome_append {k : κ} {t : List ρ} (u : List ρ) (h : (find? k t).isSome) :
    (find? k (t ++ u)).isSome := by
  obtain ⟨r, hr⟩ := Option.isSome_iff_exists.mp h
  exact Option.isSome_of_eq_some (find?_append_of_some u hr)

/-- A row that was appended is there. -/
theorem find?_isSome_append_self (t : List ρ) (r : ρ) : (find? (key r) (t ++ [r])).isSome :=
  find?_isSome.mpr (List.mem_map_of_mem (List.mem_append_right t List.mem_cons_self))

/-! ## Rewrites -/

theorem find?_modify_self {k : κ} {f : ρ → ρ} (hf : ∀ r, key (f r) = key r) (t : List ρ) :
    find? k (modify k f t) = (find? k t).map f := by
  induction t with
  | nil => rfl
  | cons r t ih =>
    by_cases h : key r = k
    · simp [modify, h, find?_cons, hf]
    · simp [modify, h, find?_cons, ih]

theorem find?_modify_ne {k k' : κ} (hk : k' ≠ k) {f : ρ → ρ} (hf : ∀ r, key (f r) = key r)
    (t : List ρ) : find? k' (modify k f t) = find? k' t := by
  induction t with
  | nil => rfl
  | cons r t ih =>
    by_cases h : key r = k
    · simp [modify, h, find?_cons, hf, Ne.symm hk]
    · simp [modify, h, find?_cons, ih]

theorem find?_modify {k k' : κ} {f : ρ → ρ} (hf : ∀ r, key (f r) = key r) (t : List ρ) :
    find? k' (modify k f t) = if k' = k then (find? k' t).map f else find? k' t := by
  by_cases h : k' = k
  · subst h
    simp [find?_modify_self hf]
  · simp [h, find?_modify_ne h hf]

/-- Two rewrites of the same row are one. -/
theorem modify_modify {k : κ} {f g : ρ → ρ} (hf : ∀ r, key (f r) = key r) (t : List ρ) :
    modify k g (modify k f t) = modify k (g ∘ f) t := by
  induction t with
  | nil => rfl
  | cons r t ih => by_cases h : key r = k <;> simp [modify, h, hf, ih]

theorem mem_modify {k : κ} {f : ρ → ρ} {t : List ρ} {r : ρ} (h : r ∈ modify k f t) :
    r ∈ t ∨ ∃ r₀, find? k t = some r₀ ∧ r = f r₀ := by
  induction t with
  | nil => simp [modify] at h
  | cons x t ih =>
    by_cases hx : key x = k
    · simp only [modify, hx, if_true, List.mem_cons] at h
      rcases h with rfl | h
      · exact Or.inr ⟨x, by simp [find?_cons, hx], rfl⟩
      · exact Or.inl (by simp [h])
    · simp only [modify, hx, if_false, List.mem_cons] at h
      rcases h with rfl | h
      · exact Or.inl (by simp)
      · rcases ih h with h | ⟨r₀, h₀, rfl⟩
        · exact Or.inl (by simp [h])
        · exact Or.inr ⟨r₀, by simp [find?_cons, hx, h₀], rfl⟩

/-- A rewrite that keeps a column keeps it along the table. -/
theorem map_modify {γ : Type*} {k : κ} {f : ρ → ρ} {g : ρ → γ} (hf : ∀ r, g (f r) = g r)
    (t : List ρ) : (modify k f t).map g = t.map g := by
  induction t with
  | nil => rfl
  | cons r t ih => by_cases h : key r = k <;> simp [modify, h, hf, ih]

theorem map_key_modify {k : κ} {f : ρ → ρ} (hf : ∀ r, key (f r) = key r) (t : List ρ) :
    (modify k f t).map key = t.map key :=
  map_modify hf t

/-! ## Selected rows -/

/-- A row that is selected is found among the selected ones. -/
theorem find?_filter {k : κ} {t : List ρ} {r : ρ} {p : ρ → Bool} (h : find? k t = some r)
    (hp : p r = true) : find? k (t.filter p) = some r := by
  induction t with
  | nil => simp at h
  | cons x t ih =>
    rw [find?_cons] at h
    by_cases hx : key x = k
    · rw [if_pos hx] at h
      obtain rfl := Option.some.inj h
      rw [List.filter_cons_of_pos hp, find?_cons, if_pos hx]
    · rw [if_neg hx] at h
      by_cases hpx : p x = true
      · rw [List.filter_cons_of_pos hpx, find?_cons, if_neg hx, ih h]
      · rw [List.filter_cons_of_neg hpx, ih h]

/-- Lookups among rows that are selected by their keys. -/
theorem find?_filter_key (k : κ) (t : List ρ) (p : κ → Bool) :
    find? k (t.filter fun r => p (key r)) = if p k then find? k t else none := by
  induction t with
  | nil => simp
  | cons x t ih =>
    rw [List.filter_cons, find?_cons]
    by_cases hx : key x = k
    · subst hx
      cases hp : p (key x) with
      | true => simp [find?_cons]
      | false => simp [ih, hp]
    · cases hp : p (key x) with
      | true => simp [find?_cons, hx, ih]
      | false => simp [hx, ih]

/-- A rewrite of a selected row that stays selected is one of the selected rows. -/
theorem filter_modify {k : κ} {f : ρ → ρ} {t : List ρ} {r : ρ} {p : ρ → Bool}
    (hf : ∀ r, p (f r) = p r) (h : find? k t = some r) (hp : p r = true) :
    (modify k f t).filter p = modify k f (t.filter p) := by
  induction t with
  | nil => rfl
  | cons x t ih =>
    rw [find?_cons] at h
    by_cases hx : key x = k
    · rw [if_pos hx] at h
      obtain rfl := Option.some.inj h
      rw [List.filter_cons_of_pos hp, modify, modify, if_pos hx, if_pos hx,
        List.filter_cons_of_pos (hf x ▸ hp)]
    · rw [if_neg hx] at h
      rw [modify, if_neg hx]
      by_cases hpx : p x = true
      · rw [List.filter_cons_of_pos hpx, List.filter_cons_of_pos hpx, modify, if_neg hx, ih h]
      · rw [List.filter_cons_of_neg hpx, List.filter_cons_of_neg hpx, ih h]

/-- A rewrite of a row that is not selected, and stays so, leaves the selected rows alone. -/
theorem filter_modify_of_not {k : κ} {f : ρ → ρ} {t : List ρ} {r : ρ} {p : ρ → Bool}
    (hf : ∀ r, p (f r) = p r) (h : find? k t = some r) (hp : p r = false) :
    (modify k f t).filter p = t.filter p := by
  induction t with
  | nil => rfl
  | cons x t ih =>
    rw [find?_cons] at h
    by_cases hx : key x = k
    · rw [if_pos hx] at h
      obtain rfl := Option.some.inj h
      have hn : ¬p x = true := Bool.eq_false_iff.mp hp
      rw [modify, if_pos hx, List.filter_cons_of_neg hn, List.filter_cons_of_neg (hf x ▸ hn)]
    · rw [if_neg hx] at h
      rw [modify, if_neg hx]
      by_cases hpx : p x = true
      · rw [List.filter_cons_of_pos hpx, List.filter_cons_of_pos hpx, ih h]
      · rw [List.filter_cons_of_neg hpx, List.filter_cons_of_neg hpx, ih h]

/-! ## Inserts -/

theorem find?_upsert {r : ρ} {f : ρ → ρ} (hf : ∀ r, key (f r) = key r) (k : κ) (t : List ρ) :
    find? k (upsert r f t) =
      if k = key r then some (((find? k t).map f).getD r) else find? k t := by
  unfold upsert
  cases h : find? (key r) t with
  | some x =>
    rw [find?_modify hf]
    split
    · rename_i hk
      rw [hk, h]
      rfl
    · rfl
  | none =>
    rw [find?_append, find?_cons]
    split
    · rename_i hk
      rw [← hk, h, if_pos rfl]
      rfl
    · rename_i hk
      rw [if_neg (Ne.symm hk), find?_nil, Option.or_none]

/-- A row with a new key keeps the keys of a table distinct. -/
theorem nodup_map_key_append {r : ρ} {t : List ρ} (ht : (t.map key).Nodup)
    (h : find? (key r) t = none) : ((t ++ [r]).map key).Nodup := by
  rw [List.map_append, List.nodup_append]
  refine ⟨ht, by simp, fun a ha b hb e => ?_⟩
  obtain rfl : b = key r := by simpa using hb
  obtain ⟨x, hx, hk⟩ := List.mem_map.mp ha
  exact find?_eq_none.mp h x hx (hk.trans e)

/-- Inserts keep the keys of a table distinct. -/
theorem nodup_map_key_upsert {r : ρ} {f : ρ → ρ} (hf : ∀ r, key (f r) = key r) {t : List ρ}
    (ht : (t.map key).Nodup) : ((upsert r f t).map key).Nodup := by
  unfold upsert
  split
  · rwa [map_key_modify hf]
  · rename_i h
    exact nodup_map_key_append ht h

/-- Where the keys are distinct, every row is found under its own. -/
theorem find?_of_mem {t : List ρ} (ht : (t.map key).Nodup) {r : ρ} (hr : r ∈ t) :
    find? (key r) t = some r := by
  obtain ⟨x, hx⟩ := Option.isSome_iff_exists.mp (find?_isSome.mpr (List.mem_map_of_mem hr))
  rw [hx]
  exact congrArg some (List.inj_on_of_nodup_map ht (mem_of_find? hx) hr (key_of_find? hx))

/-! ## Sums -/

/-- **A rewrite changes a sum over the rows by the row it rewrites.** -/
theorem sum_modify [AddCommGroup M] {k : κ} {f : ρ → ρ} {t : List ρ} {r : ρ}
    (h : find? k t = some r) (g : ρ → M) :
    ((modify k f t).map g).sum = (t.map g).sum - g r + g (f r) := by
  induction t with
  | nil => simp at h
  | cons x t ih =>
    rw [find?_cons] at h
    by_cases hx : key x = k
    · simp only [hx, if_true, Option.some.injEq] at h
      subst h
      simp only [modify, hx, if_true, List.map_cons, List.sum_cons]
      abel
    · simp only [hx, if_false] at h
      simp only [modify, hx, if_false, List.map_cons, List.sum_cons, ih h]
      abel

/-! ## Tables filled from an increasing sequence -/

/-- The keys of the table increase along it. -/
def KeysIncreasing [LT κ] (t : List ρ) : Prop := (t.map key).Pairwise (· < ·)

theorem KeysIncreasing.find?_eq_some [Preorder κ] {t : List ρ} (ht : KeysIncreasing t) {r : ρ}
    (hr : r ∈ t) : find? (key r) t = some r := by
  induction t with
  | nil => simp at hr
  | cons x t ih =>
    simp only [KeysIncreasing, List.map_cons, List.pairwise_cons] at ht
    rw [find?_cons]
    rcases List.mem_cons.mp hr with rfl | hr
    · simp
    · have hlt := ht.1 _ (List.mem_map_of_mem hr)
      rw [if_neg (ne_of_lt hlt)]
      exact ih ht.2 hr

omit [DecidableEq κ] in
theorem KeysIncreasing.append [LT κ] {t : List ρ} (ht : KeysIncreasing t) {r : ρ}
    (hr : ∀ x ∈ t, key x < key r) : KeysIncreasing (t ++ [r]) := by
  unfold KeysIncreasing
  rw [List.map_append, List.pairwise_append]
  refine ⟨ht, by simp, ?_⟩
  intro a ha b hb
  obtain ⟨x, hx, rfl⟩ := List.mem_map.mp ha
  obtain rfl : b = key r := by simpa using hb
  exact hr x hx

end Orbit.Table
