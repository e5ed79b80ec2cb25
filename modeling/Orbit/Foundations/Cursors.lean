import Mathlib.Data.List.Perm.Subperm
import Mathlib.Data.List.Sort
import Mathlib.Order.Lattice

/-!
# Pages of a table that grows

The rows of a table that pass the filter `selects` are shown in pages of `n`, the greatest key
first. A page goes on behind the row of the cursor, which is the key of the last row shown before
(`page`); its query finds the rows down from the cursor and leaves out the first of them (`read`).
Each page is read from the table as it is by then (`walk`). In between, rows with greater keys are
added and the other rows may be rewritten, so that they may come to pass the filter or cease to.

The row that is left out is the one of the cursor as long as this row still passes (`Anchored`).

* `walk_sound`, `walk_complete`: then no row is shown twice, and those that pass all the time are
  shown.
* `mem_head_of_walk`: no row is shown that was added after the first page was read.
* `walk_isSome`: the pages come to an end, however much is added.
* `walk_keys`: if no row changes whether it passes, the pages show together what passed when the
  first one was read.
-/

namespace Orbit.Cursors

variable {α κ : Type*} [LinearOrder κ] (key : α → κ) (selects : α → Bool) (n : ℕ)

/-- The rows that pass, the greatest key first. -/
def rows (table : List α) : List α :=
  (table.insertionSort fun x y => key y ≤ key x).filter selects

/-- The first `take` rows, or those behind the first row down from the cursor. -/
def read (cursor : Option κ) (take : ℕ) (table : List α) : List α :=
  match cursor with
  | none => (rows key selects table).take take
  | some c =>
    if ∃ x ∈ table, key x = c then
      (((rows key selects table).filter fun x => key x ≤ c).drop 1).take take
    else []

structure Page (α κ : Type*) where
  items : List α
  next : Option κ

/-- One row more than a page shows is read, to see whether there is a next one. -/
def page (cursor : Option κ) (table : List α) : Page α κ :=
  let found := read key selects cursor (n + 1) table
  let items := if n < found.length then found.take n else found
  { items, next := if n < found.length then items.getLast?.map key else none }

/-- What the pages show together, each read from the next table; `none` if there are more of
them. -/
def walk : Option κ → List (List α) → Option (List α)
  | _, [] => none
  | cursor, table :: tables =>
    match (page key selects n cursor table).next with
    | none => some (page key selects n cursor table).items
    | some c => (walk (some c) tables).map ((page key selects n cursor table).items ++ ·)

/-- **Every cursor is the key of a row that passes** when the page behind it is read. -/
def Anchored : Option κ → List (List α) → Prop
  | _, [] => True
  | cursor, table :: tables => (∀ c ∈ cursor, ∃ x ∈ table, key x = c ∧ selects x = true) ∧
    ∀ c ∈ (page key selects n cursor table).next, Anchored (some c) tables

/-- From table to table rows are added with greater keys, and none is removed. -/
structure Growing (tables : List (List α)) : Prop where
  increasing : ∀ t ∈ tables, (t.map key).Pairwise (· < ·)
  kept : tables.Pairwise fun t t' => t.map key <+: t'.map key

/-- No row changes whether it passes. -/
def Steady (tables : List (List α)) : Prop :=
  tables.Pairwise fun t t' => ∀ x ∈ t, ∀ x' ∈ t', key x' = key x → selects x' = selects x

variable {key selects n} {cursor : Option κ} {c : κ} {table table' : List α}
  {tables : List (List α)} {items : List α}

instance decidableAnchored : (cursor : Option κ) → (tables : List (List α)) →
    Decidable (Anchored key selects n cursor tables)
  | _, [] => isTrue trivial
  | cursor, table :: tables =>
    have : ∀ c, Decidable (Anchored key selects n (some c) tables) :=
      fun c => decidableAnchored (some c) tables
    inferInstanceAs (Decidable ((∀ c ∈ cursor, ∃ x ∈ table, key x = c ∧ selects x = true) ∧
      ∀ c ∈ (page key selects n cursor table).next, Anchored key selects n (some c) tables))

/-! ## What is read -/

theorem mem_rows {x : α} : x ∈ rows key selects table ↔ x ∈ table ∧ selects x = true := by
  rw [rows, List.mem_filter, List.mem_insertionSort]

theorem pairwise_rows (h : (table.map key).Nodup) :
    (rows key selects table).Pairwise fun x y => key y < key x := by
  have : Std.Total fun x y : α => key y ≤ key x := ⟨fun _ _ => le_total _ _⟩
  have : IsTrans α fun x y => key y ≤ key x := ⟨fun _ _ _ hxy hyz => hyz.trans hxy⟩
  have hsorted := List.pairwise_insertionSort (fun x y : α => key y ≤ key x) table
  have hkeys := ((List.perm_insertionSort (fun x y : α => key y ≤ key x) table).map
    key).nodup_iff.mpr h
  exact (hsorted.imp₂ (fun x y hle hne => lt_of_le_of_ne hle (Ne.symm hne))
    (List.pairwise_map.mp hkeys)).filter _

/-- In a table that has its rows by their keys. -/
theorem rows_eq_reverse (h : (table.map key).Pairwise (· < ·)) :
    rows key selects table = (table.filter selects).reverse := by
  have hrows : (rows key selects table).Pairwise _ := pairwise_rows (h.imp fun hlt => ne_of_lt hlt)
  have hreverse : (table.filter selects).reverse.Pairwise fun x y => key y < key x :=
    List.pairwise_reverse.mpr ((List.pairwise_map.mp h).filter _)
  refine List.Perm.eq_of_pairwise (fun x y _ _ (hxy : key y < key x) hyx =>
    absurd hxy hyx.asymm) hrows hreverse ?_
  exact ((List.perm_insertionSort _ table).filter _).trans (List.reverse_perm _).symm

/-- Down from the key of a row, the first row is the row. -/
theorem filter_le_eq_cons {l : List α} (hl : l.Pairwise fun x y => key y < key x) {x : α}
    (hx : x ∈ l) : (l.filter fun y => key y ≤ key x) = x :: l.filter fun y => key y < key x := by
  induction l with
  | nil => cases hx
  | cons a l ih =>
    obtain ⟨ha, hl⟩ := List.pairwise_cons.mp hl
    rcases List.mem_cons.mp hx with rfl | hx
    · have hall : ∀ y ∈ l, key y ≤ key x ↔ key y < key x := fun y hy =>
        iff_of_true (ha y hy).le (ha y hy)
      rw [List.filter_cons_of_pos (by simp), List.filter_cons_of_neg (by simp)]
      exact congrArg _ (List.filter_congr fun y hy => decide_eq_decide.mpr (hall y hy))
    · have hlt := ha x hx
      rw [List.filter_cons_of_neg (by simpa using hlt), List.filter_cons_of_neg
        (by simpa using hlt.le), ih hl hx]

/-- The row comes behind the cursor. -/
def Behind (cursor : Option κ) (k : κ) : Prop := ∀ c ∈ cursor, k < c

instance (cursor : Option κ) (k : κ) : Decidable (Behind cursor k) :=
  inferInstanceAs (Decidable (∀ c ∈ cursor, k < c))

/-- The rows that are still to be shown. -/
def pending (key : α → κ) (selects : α → Bool) (cursor : Option κ) (table : List α) : List α :=
  (rows key selects table).filter fun x => Behind cursor (key x)

theorem mem_pending {x : α} : x ∈ pending key selects cursor table ↔
    (x ∈ table ∧ selects x = true) ∧ Behind cursor (key x) := by
  rw [pending, List.mem_filter, mem_rows, decide_eq_true_eq]

theorem pairwise_pending (h : (table.map key).Nodup) :
    (pending key selects cursor table).Pairwise fun x y => key y < key x :=
  (pairwise_rows h).filter _

/-- **What the query finds** behind a cursor whose row passes. -/
theorem read_eq (h : (table.map key).Nodup)
    (hc : ∀ c ∈ cursor, ∃ x ∈ table, key x = c ∧ selects x = true) (take : ℕ) :
    read key selects cursor take table = (pending key selects cursor table).take take := by
  cases cursor with
  | none =>
    have hall : ∀ x ∈ rows key selects table, decide (Behind none (key x)) = true := fun x _ =>
      decide_eq_true (by simp [Behind])
    rw [read, pending, List.filter_eq_self.mpr hall]
  | some c =>
    obtain ⟨x, hx, rfl, hs⟩ := hc c rfl
    rw [read, if_pos ⟨x, hx, rfl⟩, filter_le_eq_cons (pairwise_rows h) (mem_rows.mpr ⟨hx, hs⟩),
      List.drop_one, List.tail_cons, pending]
    refine congrArg _ (List.filter_congr fun y _ => decide_eq_decide.mpr ?_)
    simp [Behind]

/-! ## A page -/

theorem page_eq (h : (table.map key).Nodup)
    (hc : ∀ c ∈ cursor, ∃ x ∈ table, key x = c ∧ selects x = true) :
    page key selects n cursor table =
      let items := (pending key selects cursor table).take n
      if n < (pending key selects cursor table).length then ⟨items, items.getLast?.map key⟩
      else ⟨pending key selects cursor table, none⟩ := by
  unfold page
  rw [read_eq h hc]
  dsimp only
  rw [List.length_take]
  by_cases hmore : n < (pending key selects cursor table).length
  · have hlt : n < min (n + 1) (pending key selects cursor table).length := by omega
    rw [if_pos hmore, if_pos hlt, if_pos hlt, List.take_take, Nat.min_eq_left (Nat.le_succ n)]
  · have hnot : ¬n < min (n + 1) (pending key selects cursor table).length := by omega
    rw [if_neg hmore, if_neg hnot, if_neg hnot, List.take_of_length_le (by omega)]

/-- The last page shows all that is left. -/
theorem page_last (hn : 0 < n) (h : (table.map key).Nodup)
    (hc : ∀ c ∈ cursor, ∃ x ∈ table, key x = c ∧ selects x = true)
    (hnext : (page key selects n cursor table).next = none) :
    (page key selects n cursor table).items = pending key selects cursor table := by
  rw [page_eq h hc] at hnext ⊢
  dsimp only at hnext ⊢
  split
  · rename_i hmore
    rw [if_pos hmore, Option.map_eq_none_iff, List.getLast?_eq_none_iff,
      List.take_eq_nil_iff] at hnext
    rcases hnext with hnext | hnext
    · omega
    · simp [hnext] at hmore
  · rfl

/-- **A page that is not the last** shows `n` rows, down to the cursor of the next one. -/
theorem page_more (h : (table.map key).Nodup)
    (hc : ∀ c ∈ cursor, ∃ x ∈ table, key x = c ∧ selects x = true)
    (hnext : (page key selects n cursor table).next = some c) :
    ∃ rest, pending key selects cursor table = (page key selects n cursor table).items ++ rest ∧
      (page key selects n cursor table).items.length = n ∧
      (∃ x ∈ (page key selects n cursor table).items, key x = c) ∧
      (∀ x ∈ (page key selects n cursor table).items, c ≤ key x) ∧ ∀ x ∈ rest, key x < c := by
  have hsorted : (pending key selects cursor table).Pairwise _ := pairwise_pending h
  rw [page_eq h hc] at hnext ⊢
  dsimp only at hnext ⊢
  by_cases hmore : n < (pending key selects cursor table).length
  · rw [if_pos hmore] at hnext ⊢
    obtain ⟨x, hx, rfl⟩ := Option.map_eq_some_iff.mp hnext
    rw [← List.take_append_drop n (pending key selects cursor table),
      List.pairwise_append] at hsorted
    obtain ⟨htake, -, hcross⟩ := hsorted
    obtain ⟨init, hinit⟩ := List.getLast?_eq_some_iff.mp hx
    have hmem : x ∈ (pending key selects cursor table).take n := List.mem_of_getLast? hx
    refine ⟨_, (List.take_append_drop n _).symm, List.length_take_of_le hmore.le, ⟨x, hmem, rfl⟩,
      fun y hy => ?_, fun y hy => hcross x hmem y hy⟩
    rw [hinit] at htake
    rw [hinit, List.mem_append, List.mem_singleton] at hy
    rcases hy with hy | rfl
    · exact ((List.pairwise_append.mp htake).2.2 y hy x (List.mem_singleton_self x)).le
    · exact le_rfl
  · rw [if_neg hmore] at hnext
    cases hnext


/-! ## Tables that grow -/

theorem Growing.tail (h : Growing key (table :: tables)) : Growing key tables where
  increasing t ht := h.increasing t (List.mem_cons_of_mem _ ht)
  kept := (List.pairwise_cons.mp h.kept).2

theorem Growing.nodup (h : Growing key tables) {t : List α} (ht : t ∈ tables) : (t.map key).Nodup :=
  (h.increasing t ht).imp fun hlt => ne_of_lt hlt

theorem Growing.mem (h : Growing key (table :: tables)) {t : List α} (ht : t ∈ tables) {k : κ}
    (hk : k ∈ table.map key) : k ∈ t.map key :=
  ((List.pairwise_cons.mp h.kept).1 t ht).subset hk

/-- Below the key of an old row there are only old rows. -/
theorem Growing.filter_lt (h : Growing key (table :: tables)) {t : List α} (ht : t ∈ tables)
    (hc : c ∈ table.map key) :
    (t.map key).filter (· < c) = (table.map key).filter (· < c) := by
  obtain ⟨new, heq⟩ := (List.pairwise_cons.mp h.kept).1 t ht
  have hsorted := h.increasing t (List.mem_cons_of_mem _ ht)
  rw [← heq, List.pairwise_append] at hsorted
  have hnew : ∀ k ∈ new, ¬decide (k < c) = true := fun k hk => by
    simpa using (hsorted.2.2 c hc k hk).le
  rw [← heq, List.filter_append, List.filter_eq_nil_iff.mpr hnew, List.append_nil]

/-! ## The pages together -/

/-- **No row is shown twice**, and every row that is shown was in a table and passed. -/
theorem walk_sound (hn : 0 < n) (hg : Growing key tables)
    (ha : Anchored key selects n cursor tables)
    (hw : walk key selects n cursor tables = some items) :
    (items.Pairwise fun x y => key y < key x) ∧
      ∀ x ∈ items, Behind cursor (key x) ∧ selects x = true ∧ ∃ t ∈ tables, x ∈ t := by
  induction tables generalizing cursor items with
  | nil => cases hw
  | cons table tables ih =>
    obtain ⟨hc, hrest⟩ := ha
    have hnodup := hg.nodup List.mem_cons_self
    have hsorted : (pending key selects cursor table).Pairwise _ := pairwise_pending hnodup
    rw [walk] at hw
    split at hw
    · rename_i hnext
      obtain rfl := Option.some.inj hw
      rw [page_last hn hnodup hc hnext]
      refine ⟨hsorted, fun x hx => ?_⟩
      obtain ⟨⟨hmem, hs⟩, hb⟩ := mem_pending.mp hx
      exact ⟨hb, hs, table, List.mem_cons_self, hmem⟩
    · rename_i c hnext
      obtain ⟨later, hlater, rfl⟩ := Option.map_eq_some_iff.mp hw
      obtain ⟨rest, hpending, -, ⟨y, hy, hyc⟩, hge, -⟩ := page_more hnodup hc hnext
      obtain ⟨hpair, hall⟩ := ih hg.tail (hrest c hnext) hlater
      have hshown : ∀ x ∈ (page key selects n cursor table).items,
          (x ∈ table ∧ selects x = true) ∧ Behind cursor (key x) := fun x hx =>
        mem_pending.mp (hpending ▸ List.mem_append_left rest hx)
      rw [hpending] at hsorted
      refine ⟨List.pairwise_append.mpr ⟨(List.pairwise_append.mp hsorted).1, hpair,
        fun x hx z hz => ?_⟩, fun x hx => ?_⟩
      · exact ((hall z hz).1 c rfl).trans_le (hge x hx)
      · rcases List.mem_append.mp hx with hx | hx
        · obtain ⟨⟨hmem, hs⟩, hb⟩ := hshown x hx
          exact ⟨hb, hs, table, List.mem_cons_self, hmem⟩
        · obtain ⟨hlt, hs, t, ht, hmem⟩ := hall x hx
          refine ⟨fun d hd => ?_, hs, t, List.mem_cons_of_mem _ ht, hmem⟩
          exact (hlt c rfl).trans (hyc ▸ (hshown y hy).2 d hd)

/-- **A row that passes all the time is shown.** -/
theorem walk_complete (hn : 0 < n) (hg : Growing key tables)
    (ha : Anchored key selects n cursor tables)
    (hw : walk key selects n cursor tables = some items) {k : κ} (hk : Behind cursor k)
    (hpass : ∀ t ∈ tables, ∃ x ∈ t, key x = k ∧ selects x = true) : k ∈ items.map key := by
  induction tables generalizing cursor items with
  | nil => cases hw
  | cons table tables ih =>
    obtain ⟨hc, hrest⟩ := ha
    have hnodup := hg.nodup List.mem_cons_self
    obtain ⟨x, hx, rfl, hs⟩ := hpass table List.mem_cons_self
    have hx : x ∈ pending key selects cursor table := mem_pending.mpr ⟨⟨hx, hs⟩, hk⟩
    rw [walk] at hw
    split at hw
    · rename_i hnext
      obtain rfl := Option.some.inj hw
      rw [page_last hn hnodup hc hnext]
      exact List.mem_map_of_mem hx
    · rename_i c hnext
      obtain ⟨later, hlater, rfl⟩ := Option.map_eq_some_iff.mp hw
      obtain ⟨rest, hpending, -, -, -, hlt⟩ := page_more hnodup hc hnext
      rw [List.map_append, List.mem_append]
      rw [hpending, List.mem_append] at hx
      rcases hx with hx | hx
      · exact .inl (List.mem_map_of_mem hx)
      · refine .inr (ih hg.tail (hrest c hnext) hlater (fun d hd => ?_) fun t ht =>
          hpass t (List.mem_cons_of_mem _ ht))
        obtain rfl := Option.some.inj hd
        exact hlt x hx

/-- **No row is shown that was added after the first page was read.** -/
theorem mem_head_of_walk (hn : 0 < n) (hg : Growing key (table :: tables))
    (ha : Anchored key selects n cursor (table :: tables))
    (hw : walk key selects n cursor (table :: tables) = some items) {x : α} (hx : x ∈ items) :
    key x ∈ table.map key := by
  obtain ⟨hc, hrest⟩ := ha
  have hnodup := hg.nodup List.mem_cons_self
  rw [walk] at hw
  split at hw
  · rename_i hnext
    obtain rfl := Option.some.inj hw
    rw [page_last hn hnodup hc hnext] at hx
    exact List.mem_map_of_mem (mem_pending.mp hx).1.1
  · rename_i c hnext
    obtain ⟨later, hlater, rfl⟩ := Option.map_eq_some_iff.mp hw
    obtain ⟨rest, hpending, -, ⟨y, hy, hyc⟩, -, -⟩ := page_more hnodup hc hnext
    have hshown : ∀ x ∈ (page key selects n cursor table).items, key x ∈ table.map key :=
      fun x hx => List.mem_map_of_mem
        (mem_pending.mp (hpending ▸ List.mem_append_left rest hx)).1.1
    rcases List.mem_append.mp hx with hx | hx
    · exact hshown x hx
    · -- a later page shows only what is below its cursor
      obtain ⟨hlt, -, t, ht, hmem⟩ := (walk_sound hn hg.tail (hrest c hnext) hlater).2 x hx
      have hbelow : key x ∈ (t.map key).filter (· < c) :=
        List.mem_filter.mpr ⟨List.mem_map_of_mem hmem, decide_eq_true (hlt c rfl)⟩
      rw [hg.filter_lt ht (hyc ▸ hshown y hy)] at hbelow
      exact List.mem_of_mem_filter hbelow

/-- A page that is not the last leaves `n` rows fewer behind its cursor. -/
theorem length_filter_page (hnodup : (table.map key).Nodup)
    (hc : ∀ c ∈ cursor, ∃ x ∈ table, key x = c ∧ selects x = true)
    (hnext : (page key selects n cursor table).next = some c) : c ∈ table.map key ∧
      n + ((table.map key).filter (· < c)).length ≤
        ((table.map key).filter (Behind cursor ·)).length := by
  obtain ⟨rest, hpending, hlength, ⟨y, hy, hyc⟩, hge, -⟩ := page_more hnodup hc hnext
  have hsorted : (pending key selects cursor table).Pairwise _ := pairwise_pending hnodup
  have hshown : ∀ x ∈ (page key selects n cursor table).items,
      (x ∈ table ∧ selects x = true) ∧ Behind cursor (key x) := fun x hx =>
    mem_pending.mp (hpending ▸ List.mem_append_left rest hx)
  rw [hpending] at hsorted
  have hitems : ((page key selects n cursor table).items.map key).Nodup :=
    List.pairwise_map.mpr ((List.pairwise_append.mp hsorted).1.imp fun hlt => ne_of_gt hlt)
  refine ⟨hyc ▸ List.mem_map_of_mem (hshown y hy).1.1, ?_⟩
  -- the keys that are shown and those below the cursor are different ones
  have hdisjoint : ((page key selects n cursor table).items.map key ++
      (table.map key).filter (· < c)).Nodup := by
    refine List.nodup_append.mpr ⟨hitems, hnodup.filter _, fun a ha b hb hab => ?_⟩
    obtain ⟨x, hx, rfl⟩ := List.mem_map.mp ha
    subst hab
    exact absurd (of_decide_eq_true (List.mem_filter.mp hb).2) (hge x hx).not_gt
  have hsub : ((page key selects n cursor table).items.map key ++
      (table.map key).filter (· < c)) ⊆ (table.map key).filter (Behind cursor ·) := by
    intro k hk
    rcases List.mem_append.mp hk with hk | hk
    · obtain ⟨x, hx, rfl⟩ := List.mem_map.mp hk
      exact List.mem_filter.mpr ⟨List.mem_map_of_mem (hshown x hx).1.1,
        decide_eq_true (hshown x hx).2⟩
    · obtain ⟨hmem, hlt⟩ := List.mem_filter.mp hk
      exact List.mem_filter.mpr ⟨hmem, decide_eq_true fun d hd =>
        (of_decide_eq_true hlt).trans (hyc ▸ (hshown y hy).2 d hd)⟩
  have hle := (hdisjoint.subperm hsub).length_le
  rwa [List.length_append, List.length_map, hlength] at hle

/-- **The pages come to an end.** -/
theorem walk_isSome (hg : Growing key (table :: tables))
    (ha : Anchored key selects n cursor (table :: tables))
    (hlen : ((table.map key).filter (Behind cursor ·)).length < n * (tables.length + 1)) :
    (walk key selects n cursor (table :: tables)).isSome := by
  induction tables generalizing cursor table with
  | nil =>
    rw [walk]
    split
    · rfl
    · rename_i c hnext
      have hle := (length_filter_page (hg.nodup List.mem_cons_self) ha.1 hnext).2
      rw [List.length_nil, Nat.zero_add, Nat.mul_one] at hlen
      omega
  | cons table' tables ih =>
    obtain ⟨hc, hrest⟩ := ha
    rw [walk]
    split
    · rfl
    · rename_i c hnext
      obtain ⟨hmem, hle⟩ := length_filter_page (hg.nodup List.mem_cons_self) hc hnext
      rw [Option.isSome_map]
      refine ih hg.tail (hrest c hnext) ?_
      have hbehind : (table'.map key).filter (Behind (some c) ·) =
          (table'.map key).filter (· < c) := by
        refine List.filter_congr fun k _ => decide_eq_decide.mpr ?_
        simp [Behind]
      rw [hbehind, hg.filter_lt List.mem_cons_self hmem]
      rw [List.length_cons, Nat.mul_succ] at hlen
      omega

/-! ## Filters that no row enters or leaves -/

/-- The row of a cursor still passes. -/
theorem anchored_of_steady (hg : Growing key tables) (hs : Steady key selects tables)
    (hc : ∀ t ∈ tables, ∀ c ∈ cursor, ∃ x ∈ t, key x = c ∧ selects x = true) :
    Anchored key selects n cursor tables := by
  induction tables generalizing cursor with
  | nil => trivial
  | cons table tables ih =>
    have hhead := hc table List.mem_cons_self
    refine ⟨hhead, fun c hnext => ih hg.tail (List.pairwise_cons.mp hs).2 fun t ht d hd => ?_⟩
    obtain rfl := Option.some.inj hd
    obtain ⟨rest, hpending, -, ⟨y, hy, rfl⟩, -, -⟩ :=
      page_more (hg.nodup List.mem_cons_self) hhead hnext
    obtain ⟨⟨hmem, hpass⟩, -⟩ := mem_pending.mp (hpending ▸ List.mem_append_left rest hy)
    obtain ⟨x, hx, hkey⟩ := List.mem_map.mp (hg.mem ht (List.mem_map_of_mem hmem))
    exact ⟨x, hx, hkey, ((List.pairwise_cons.mp hs).1 t ht y hmem x hx hkey).trans hpass⟩

/-- **The pages show what passed when the first one was read.** -/
theorem walk_keys (hn : 0 < n) (hg : Growing key (table :: tables))
    (hs : Steady key selects (table :: tables)) (hlen : table.length < n * (tables.length + 1)) :
    ∃ items, walk key selects n none (table :: tables) = some items ∧
      items.map key = (rows key selects table).map key := by
  have ha : Anchored key selects n none (table :: tables) :=
    anchored_of_steady hg hs fun _ _ _ hc => by cases hc
  have hnodup := hg.nodup List.mem_cons_self
  obtain ⟨items, hw⟩ := Option.isSome_iff_exists.mp (walk_isSome hg ha (by
    refine (List.length_filter_le _ _).trans_lt ?_
    rwa [List.length_map]))
  obtain ⟨hpair, hall⟩ := walk_sound hn hg ha hw
  refine ⟨items, hw, ?_⟩
  have hsorted : (items.map key).Pairwise fun a b => b < a := List.pairwise_map.mpr hpair
  have hrows : ((rows key selects table).map key).Pairwise fun a b => b < a :=
    List.pairwise_map.mpr (pairwise_rows hnodup)
  refine List.Perm.eq_of_pairwise (fun a b _ _ (hab : b < a) hba =>
    absurd hab hba.asymm) hsorted hrows ((List.perm_ext_iff_of_nodup
      (hsorted.imp fun hlt => ne_of_gt hlt) (hrows.imp fun hlt => ne_of_gt hlt)).mpr fun k => ?_)
  constructor
  · intro hk
    obtain ⟨x, hx, rfl⟩ := List.mem_map.mp hk
    obtain ⟨y, hy, hkey⟩ := List.mem_map.mp (mem_head_of_walk hn hg ha hw hx)
    obtain ⟨-, hpass, t, ht, hmem⟩ := hall x hx
    refine List.mem_map.mpr ⟨y, mem_rows.mpr ⟨hy, ?_⟩, hkey⟩
    rcases List.mem_cons.mp ht with rfl | ht
    · rwa [List.inj_on_of_nodup_map hnodup hy hmem hkey]
    · exact ((List.pairwise_cons.mp hs).1 t ht y hy x hmem hkey.symm).symm.trans hpass
  · intro hk
    obtain ⟨x, hx, rfl⟩ := List.mem_map.mp hk
    obtain ⟨hmem, hpass⟩ := mem_rows.mp hx
    refine walk_complete hn hg ha hw (fun _ hc => by cases hc) fun t ht => ?_
    rcases List.mem_cons.mp ht with rfl | ht
    · exact ⟨x, hmem, rfl, hpass⟩
    · obtain ⟨y, hy, hkey⟩ := List.mem_map.mp (hg.mem ht (List.mem_map_of_mem hmem))
      exact ⟨y, hy, hkey, ((List.pairwise_cons.mp hs).1 t ht x hmem y hy hkey).trans hpass⟩

omit [LinearOrder κ] in
/-- What rows with one key have in common is the same in lists with the same keys. -/
theorem map_eq_of_keys {β : Type*} {f : α → β} {l l' : List α} (hkeys : l.map key = l'.map key)
    (hf : ∀ x ∈ l, ∀ y ∈ l', key x = key y → f x = f y) : l.map f = l'.map f := by
  induction l generalizing l' with
  | nil =>
    rw [List.map_nil, eq_comm, List.map_eq_nil_iff] at hkeys
    rw [hkeys]
  | cons x l ih =>
    cases l' with
    | nil => cases hkeys
    | cons y l' =>
      obtain ⟨hkey, hkeys⟩ := List.cons.inj hkeys
      rw [List.map_cons, List.map_cons, hf x List.mem_cons_self y List.mem_cons_self hkey,
        ih hkeys fun a ha b hb => hf a (List.mem_cons_of_mem _ ha) b (List.mem_cons_of_mem _ hb)]

end Orbit.Cursors
