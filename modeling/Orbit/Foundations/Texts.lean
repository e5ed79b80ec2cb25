import Mathlib.Data.List.Basic
import Mathlib.Data.List.Forall2

/-!
# Texts made of parts

Keys and ids are often texts put together from parts with separators between them. They can be
read back when the parts before a separator do not contain it: `append_separator_inj` for a
part that is always there, `append_optional_inj` for one that may be missing. A number in
decimal notation contains no separator that is not a digit (`notMem_repr`), and can be read
back itself (`repr_injective`).

The other way round, a text can be searched for a word of a given shape that stands on its own
(`isolated`), and the search finds it wherever it is (`isolated_iff`).

Languages that count the UTF-16 code units of a text cut it between two of them: `unitLength` and
`slice`.
-/

namespace Orbit.Texts

variable {α : Type*} {x : α} {a a' b b' : List α}

/-- A separator that neither word has splits them in one way. -/
theorem append_separator_inj (ha : x ∉ a) (ha' : x ∉ a') (h : a ++ x :: b = a' ++ x :: b') :
    a = a' ∧ b = b' := by
  induction a generalizing a' with
  | nil =>
    cases a' with
    | nil => exact ⟨rfl, (List.cons.inj h).2⟩
    | cons y a' => exact absurd (List.mem_cons.mpr (.inl (List.cons.inj h).1)) ha'
  | cons y a ih =>
    cases a' with
    | nil => exact absurd (List.mem_cons.mpr (.inl (List.cons.inj h).1.symm)) ha
    | cons z a' =>
      obtain ⟨rfl, htail⟩ := List.cons.inj h
      obtain ⟨rfl, rfl⟩ := ih (fun hm => ha (List.mem_cons_of_mem _ hm))
        (fun hm => ha' (List.mem_cons_of_mem _ hm)) htail
      exact ⟨rfl, rfl⟩

/-- And so it does when the part behind it may be missing, together with it. -/
theorem append_optional_inj {o o' : Option (List α)} (ha : x ∉ a) (ha' : x ∉ a')
    (h : a ++ (o.map (x :: ·)).getD [] = a' ++ (o'.map (x :: ·)).getD []) : a = a' ∧ o = o' := by
  cases o with
  | none =>
    cases o' with
    | none => exact ⟨by simpa using h, rfl⟩
    | some b' =>
      have heq : a = a' ++ x :: b' := (List.append_nil a).symm.trans h
      exact absurd (heq ▸ by simp) ha
  | some b =>
    cases o' with
    | none =>
      have heq : a' = a ++ x :: b := (List.append_nil a').symm.trans h.symm
      exact absurd (heq ▸ by simp) ha'
    | some b' =>
      obtain ⟨rfl, rfl⟩ := append_separator_inj ha ha' h
      exact ⟨rfl, rfl⟩

/-- Decimal notation consists of digits. -/
theorem notMem_repr {c : Char} (hc : c.isDigit = false) (n : ℕ) : c ∉ (Nat.repr n).toList := by
  intro hmem
  rw [Nat.toList_repr] at hmem
  have := Nat.isDigit_of_mem_toDigits (by decide) (by decide) hmem
  rw [hc] at this
  cases this

theorem repr_injective : Function.Injective Nat.repr := by
  intro n n' h
  have hdigits : Nat.toDigits 10 n = Nat.toDigits 10 n' := by
    rw [← Nat.toList_repr, ← Nat.toList_repr, h]
  rw [← Nat.ofDigitChars_ten_toDigits (n := n), hdigits, Nat.ofDigitChars_ten_toDigits]

/-! ## Words in a text -/

/-- What comes after a word of the given shape at the front of a text, a class
for each character. -/
def behind : List (α → Bool) → List α → Option (List α)
  | [], cs => some cs
  | _ :: _, [] => none
  | p :: ps, c :: cs => if p c then behind ps cs else none

theorem behind_eq_some {ps : List (α → Bool)} {cs post : List α} :
    behind ps cs = some post ↔ ∃ w, cs = w ++ post ∧ List.Forall₂ (fun p c => p c = true) ps w := by
  induction ps generalizing cs with
  | nil => simp [behind]
  | cons p ps ih =>
    cases cs with
    | nil => simp [behind, List.forall₂_cons_left_iff]
    | cons c cs =>
      by_cases hc : p c = true
      · simp only [behind, if_pos hc, ih]
        constructor
        · rintro ⟨w, rfl, hw⟩
          exact ⟨c :: w, rfl, .cons hc hw⟩
        · rintro ⟨_, heq, hw⟩
          obtain ⟨d, w, -, htail, rfl⟩ := List.forall₂_cons_left_iff.mp hw
          obtain ⟨-, rfl⟩ := List.cons.inj heq
          exact ⟨w, rfl, htail⟩
      · simp only [behind, if_neg hc]
        refine iff_of_false nofun ?_
        rintro ⟨_, heq, hw⟩
        obtain ⟨d, w, hd, -, rfl⟩ := List.forall₂_cons_left_iff.mp hw
        exact hc ((List.cons.inj heq).1 ▸ hd)

/-- Whether a text, after a character `prev`, has a word of the given shape with no character
of a word next to it. -/
def isolated (word : α → Bool) (ps : List (α → Bool)) : Option α → List α → Bool
  | prev, [] => !prev.any word && (behind ps []).any fun post => !post.head?.any word
  | prev, c :: cs =>
    (!prev.any word && (behind ps (c :: cs)).any fun post => !post.head?.any word) ||
      isolated word ps (some c) cs

/-- The last element after one more at the front, with another one before that. -/
theorem getLast?_cons_or (c : α) (cs : List α) (prev : Option α) :
    (c :: cs).getLast?.or prev = cs.getLast?.or (some c) := by
  rw [List.getLast?_cons]
  cases cs.getLast? <;> rfl

/-- **The search finds the word** wherever it is. -/
theorem isolated_iff {word : α → Bool} {ps : List (α → Bool)} {prev : Option α} {cs : List α} :
    isolated word ps prev cs = true ↔ ∃ pre w post, cs = pre ++ (w ++ post) ∧
      List.Forall₂ (fun p c => p c = true) ps w ∧ (pre.getLast?.or prev).any word = false ∧
      post.head?.any word = false := by
  have hhere : ∀ (prev : Option α) (cs : List α),
      (!prev.any word && (behind ps cs).any fun post => !post.head?.any word) = true ↔
        ∃ w post, cs = w ++ post ∧ List.Forall₂ (fun p c => p c = true) ps w ∧
          prev.any word = false ∧ post.head?.any word = false := fun prev cs => by
    simp only [Bool.and_eq_true, Bool.not_eq_true', Option.any_eq_true, behind_eq_some]
    constructor
    · rintro ⟨hprev, post, ⟨w, heq, hw⟩, hpost⟩
      exact ⟨w, post, heq, hw, hprev, hpost⟩
    · rintro ⟨w, post, heq, hw, hprev, hpost⟩
      exact ⟨hprev, post, ⟨w, heq, hw⟩, hpost⟩
  induction cs generalizing prev with
  | nil =>
    rw [isolated, hhere]
    constructor
    · rintro ⟨w, post, heq, hw, hprev, hpost⟩
      exact ⟨[], w, post, heq, hw, by simpa using hprev, hpost⟩
    · rintro ⟨pre, w, post, heq, hw, hprev, hpost⟩
      obtain ⟨rfl, hrest⟩ := List.append_eq_nil_iff.mp heq.symm
      exact ⟨w, post, hrest.symm, hw, by simpa using hprev, hpost⟩
  | cons c cs ih =>
    rw [isolated, Bool.or_eq_true]
    refine (or_congr (hhere prev (c :: cs)) ih).trans ?_
    constructor
    · rintro (⟨w, post, heq, hw, hprev, hpost⟩ | ⟨pre, w, post, rfl, hw, hprev, hpost⟩)
      · exact ⟨[], w, post, heq, hw, by simpa using hprev, hpost⟩
      · exact ⟨c :: pre, w, post, rfl, hw, getLast?_cons_or c pre prev ▸ hprev, hpost⟩
    · rintro ⟨pre, w, post, heq, hw, hprev, hpost⟩
      cases pre with
      | nil => exact .inl ⟨w, post, heq, hw, by simpa using hprev, hpost⟩
      | cons d pre =>
        obtain ⟨rfl, rfl⟩ := List.cons.inj heq
        exact .inr ⟨pre, w, post, rfl, hw, getLast?_cons_or c pre prev ▸ hprev, hpost⟩

/-! ## Code units -/

/-- How many UTF-16 code units a text has: a character behind U+FFFF has two. -/
def unitLength (s : String) : ℕ :=
  s.toList.length + s.toList.countP fun c => 0x10000 ≤ c.toNat

/-- The characters of the first `n` code units. Half of a character is a lone surrogate, for which
U+FFFD is written. -/
def takeUnits : ℕ → List Char → List Char
  | _, [] => []
  | n, c :: cs =>
    if c.toNat < 0x10000 then
      match n with
      | 0 => []
      | n + 1 => c :: takeUnits n cs
    else
      match n with
      | 0 => []
      | 1 => [Char.ofNat 0xFFFD]
      | n + 2 => c :: takeUnits n cs

/-- The first `n` code units of a text. -/
def slice (s : String) (n : ℕ) : String := String.ofList (takeUnits n s.toList)

/-- A cut between the two units of a character. -/
example : slice "a😀b" 2 = "a\uFFFD" ∧ slice "a😀b" 3 = "a😀" := by decide

end Orbit.Texts
