import Mathlib.Data.List.Sort
import Orbit.Foundations.Pages
import Orbit.Workers.DlqMonitor

/-!
# The pages of dead letters

`list` of `apps/api/src/admin/dlq/admin-dlq.service.ts`. Three of the filters go into the query; the
two that tell successful replays from failed ones drop rows after one page of rows was fetched, and
before it is decided whether there is a next page.

* `paging_iff`: following `nextCursor` to the end returns exactly the rows that match, in decreasing
  order of their ids, exactly when no row that matches comes after the page on which a row stands
  that the query returns and that does not match.
-/

namespace Orbit.Dlq

/-- A row with its two dates. -/
structure DlqRow extends DlqEvent where
  enqueuedAt : ℕ
  resolvedAt : Option ℕ
  deriving DecidableEq, Repr

inductive Status
  | pending
  | replayedSuccess
  | replayedFailed
  | dismissed
  | all
  deriving DecidableEq, Repr

/-- `opts`; a cursor is the number that its text stands for. -/
structure ListOptions where
  status : Option Status
  worker : Option String
  originalTopic : Option String
  take : Option ℕ
  cursor : Option ℕ
  deriving DecidableEq, Repr

structure Summary where
  id : String
  originalTopic : String
  originalPartition : ℤ
  originalOffset : String
  worker : String
  lastError : String
  attempt : ℤ
  enqueuedAt : ℕ
  resolvedAt : Option ℕ
  resolution : Option Resolution
  resolvedBy : Option String
  replayedFromId : Option String
  replayChainNextId : Option String
  deriving DecidableEq, Repr

structure ListPage where
  items : List Summary
  nextCursor : Option ℕ
  deriving DecidableEq, Repr

def presentSummary (r : DlqRow) (replayChainNextId : Option String) : Summary :=
  { id := Nat.repr r.id
    originalTopic := r.originalTopic
    originalPartition := r.originalPartition
    originalOffset := r.originalOffset
    worker := r.worker
    lastError := r.lastError
    attempt := r.attempt
    enqueuedAt := r.enqueuedAt
    resolvedAt := r.resolvedAt
    resolution := r.resolution
    resolvedBy := r.resolvedBy
    replayedFromId := r.replayedFromId.map Nat.repr
    replayChainNextId }

/-! ## The query -/

def ListOptions.pageSize (opts : ListOptions) : ℕ := min (opts.take.getD 50) 200

/-- A filter that is missing or empty is none. -/
def given (filter : Option String) (value : String) : Bool :=
  filter.all fun s => s = "" ∨ s = value

/-- The `where` of the query. -/
def ListOptions.selects (opts : ListOptions) (r : DlqRow) : Bool :=
  (match opts.status.getD .pending with
    | .pending => r.resolvedAt = none
    | .dismissed => r.resolution = some .dismissed
    | .replayedSuccess => r.resolution = some .replayed
    | .replayedFailed => r.resolution = some .replayed
    | .all => true) &&
  given opts.worker r.worker && given opts.originalTopic r.originalTopic

/-- The rows that the query selects, without its `take` and its cursor. -/
def candidates (table : List DlqRow) (opts : ListOptions) : List DlqRow :=
  (table.insertionSort fun r r' => r'.id ≤ r.id).filter opts.selects

/-- `findMany`: with a cursor it goes on behind its row. -/
def findMany (table : List DlqRow) (opts : ListOptions) (take : ℕ) : List DlqRow :=
  ((candidates table opts).filter fun r => opts.cursor.all fun c => r.id < c).take take

/-! ## The pages -/

def hasDescendant (table : List DlqRow) (r : DlqRow) : Bool :=
  table.any fun d => d.replayedFromId = some r.id

/-- The first row that came out of a replay of `r`. -/
def replayChainNextId (table : List DlqRow) (r : DlqRow) : Option String :=
  (((table.filter fun d => d.replayedFromId = some r.id).map (·.id)).min?).map Nat.repr

def present (table : List DlqRow) (r : DlqRow) : Summary :=
  presentSummary r (replayChainNextId table r)

/-- The filter on the rows that were fetched. -/
def ListOptions.keeps (opts : ListOptions) (table : List DlqRow) (r : DlqRow) : Bool :=
  match opts.status.getD .pending with
  | .replayedFailed => hasDescendant table r
  | .replayedSuccess => !hasDescendant table r
  | _ => true

def list (table : List DlqRow) (opts : ListOptions) : ListPage :=
  let take := opts.pageSize
  let rows := (findMany table opts (take + 1)).filter (opts.keeps table)
  let hasMore := take < rows.length
  let items := if hasMore then rows.take take else rows
  { items := items.map (present table)
    nextCursor := if hasMore then items.getLast?.map (·.id) else none }

/-- The items of the pages from a cursor on; `none` if there are more pages than the fuel. -/
def followCursor (table : List DlqRow) (opts : ListOptions) : ℕ → Option ℕ → Option (List Summary)
  | 0, _ => none
  | fuel + 1, cursor =>
    let page := list table { opts with cursor }
    match page.nextCursor with
    | none => some page.items
    | some c => (followCursor table opts fuel (some c)).map (page.items ++ ·)

/-! ## What the pages are to show -/

/-- What the names of the filters say. -/
def Status.Holds (table : List DlqRow) (r : DlqRow) : Status → Prop
  | .pending => r.resolvedAt = none
  | .replayedSuccess => r.resolution = some .replayed ∧ ∀ d ∈ table, d.replayedFromId ≠ some r.id
  | .replayedFailed => r.resolution = some .replayed ∧ ∃ d ∈ table, d.replayedFromId = some r.id
  | .dismissed => r.resolution = some .dismissed
  | .all => True

def ListOptions.Matches (opts : ListOptions) (table : List DlqRow) (r : DlqRow) : Prop :=
  (opts.status.getD .pending).Holds table r ∧
    (∀ s ∈ opts.worker, s ≠ "" → r.worker = s) ∧
    ∀ s ∈ opts.originalTopic, s ≠ "" → r.originalTopic = s

/-- Every row that matches, once, in decreasing order of the ids. -/
def Enumerates (table : List DlqRow) (opts : ListOptions) (items : List Summary) : Prop :=
  ∃ rows : List DlqRow, items = rows.map (present table) ∧
    (rows.Pairwise fun r r' => r'.id < r.id) ∧ ∀ r, r ∈ rows ↔ r ∈ table ∧ opts.Matches table r

/-! ## The query and what the filter says -/

section Candidates

variable {table : List DlqRow} {opts : ListOptions}

theorem mem_candidates {r : DlqRow} :
    r ∈ candidates table opts ↔ r ∈ table ∧ opts.selects r = true := by
  rw [candidates, List.mem_filter, List.mem_insertionSort]

/-- The rows come in decreasing order of their ids. -/
theorem candidates_pairwise (hids : (table.map (·.id)).Nodup) :
    (candidates table opts).Pairwise fun r r' => r'.id < r.id := by
  have : Std.Total fun r r' : DlqRow => r'.id ≤ r.id := ⟨fun r r' => Nat.le_total r'.id r.id⟩
  have : IsTrans DlqRow fun r r' => r'.id ≤ r.id := ⟨fun _ _ _ h h' => h'.trans h⟩
  have hsorted := List.pairwise_insertionSort (fun r r' : DlqRow => r'.id ≤ r.id) table
  have hne : (table.insertionSort fun r r' => r'.id ≤ r.id).Pairwise fun r r' => r.id ≠ r'.id :=
    List.pairwise_map.mp (((List.perm_insertionSort _ table).map _).nodup_iff.mpr hids)
  refine ((hsorted.and hne).imp fun h => ?_).filter _
  exact lt_of_le_of_ne h.1 (Ne.symm h.2)

theorem hasDescendant_iff {r : DlqRow} :
    hasDescendant table r = true ↔ ∃ d ∈ table, d.replayedFromId = some r.id := by
  simp [hasDescendant]

theorem given_iff {filter : Option String} {value : String} :
    given filter value = true ↔ ∀ s ∈ filter, s ≠ "" → value = s := by
  cases filter with
  | none => simp [given]
  | some s =>
    simp only [given, Option.all_some, decide_eq_true_eq, Option.mem_some_iff, forall_eq']
    by_cases hs : s = "" <;> simp [hs, eq_comm]

/-- The query and the filter on the rows that were fetched make up the filter. -/
theorem matches_iff {r : DlqRow} :
    opts.Matches table r ↔ opts.selects r = true ∧ opts.keeps table r = true := by
  have hdescendant : hasDescendant table r = true ↔ _ := hasDescendant_iff
  simp only [ListOptions.Matches, ListOptions.selects, ListOptions.keeps,
    Bool.and_eq_true, given_iff]
  cases opts.status.getD .pending with
  | pending => simp [Status.Holds, and_assoc]
  | dismissed => simp [Status.Holds, and_assoc]
  | all => simp [Status.Holds]
  | replayedFailed =>
    simp only [Status.Holds, hdescendant, decide_eq_true_eq]
    tauto
  | replayedSuccess =>
    have hnone : (!hasDescendant table r) = true ↔ ∀ d ∈ table, d.replayedFromId ≠ some r.id := by
      rw [Bool.not_eq_true', ← Bool.not_eq_true, hdescendant, not_exists]
      exact forall_congr' fun d => not_and
    simp only [Status.Holds, hnone, decide_eq_true_eq]
    tauto

/-- Behind the row of a cursor the query goes on with the next one. -/
theorem after_cursor (hids : (table.map (·.id)).Nodup) {k : ℕ} {r : DlqRow}
    (hr : (candidates table opts)[k]? = some r) :
    (candidates table opts).filter (fun r' => (some r.id).all fun c => r'.id < c) =
      (candidates table opts).drop (k + 1) := by
  simp only [Option.all_some]
  exact Pages.filter_lt_eq_drop (candidates_pairwise hids) hr

end Candidates

/-! ## The pages -/

section Following

variable {table : List DlqRow} {opts : ListOptions}

/-- **The pages together**, from a cursor behind which `rest` comes. -/
theorem followCursor_eq (hids : (table.map (·.id)).Nodup) (hsize : 0 < opts.pageSize) (fuel : ℕ)
    (cursor : Option ℕ) {k : ℕ}
    (hrest : (candidates table opts).filter (fun r => cursor.all fun c => r.id < c) =
      (candidates table opts).drop k) :
    followCursor table opts fuel cursor =
      (Pages.follow (opts.keeps table) opts.pageSize fuel ((candidates table opts).drop k)).map
        (List.map (present table)) := by
  induction fuel generalizing k cursor with
  | zero => rfl
  | succ fuel ih =>
    set n := opts.pageSize with hn
    set rest := (candidates table opts).drop k with hk
    have hpage : list table { opts with cursor } =
        let rows := (rest.take (n + 1)).filter (opts.keeps table)
        let items := if n < rows.length then rows.take n else rows
        { items := items.map (present table)
          nextCursor := if n < rows.length then items.getLast?.map (·.id) else none } := by
      rw [← hrest]
      rfl
    rw [followCursor, hpage, Pages.follow]
    by_cases hmore : n < ((rest.take (n + 1)).filter (opts.keeps table)).length
    · obtain ⟨hlen, hall⟩ := Pages.le_length_takeWhile_iff.mp (Pages.lt_length_rows_iff.mp hmore)
      have hlast : (rest.take n).getLast? = rest[n - 1]? := by
        rw [List.getLast?_take, if_neg (by omega), List.getElem?_eq_getElem (by omega)]
        rfl
      have hshown : ((rest.take (n + 1)).filter (opts.keeps table)).take n = rest.take n := by
        rw [List.filter_eq_self.mpr hall, List.take_take, Nat.min_eq_left (Nat.le_succ n)]
      have hlt : n - 1 < rest.length := by omega
      have hr : (candidates table opts)[k + (n - 1)]? = some rest[n - 1] := by
        rw [← List.getElem?_drop, ← hk, List.getElem?_eq_getElem]
      have hnext := after_cursor hids hr
      rw [show k + (n - 1) + 1 = k + n by omega] at hnext
      simp only [if_pos hmore, hshown, hlast, List.getElem?_eq_getElem
        (show n - 1 < rest.length by omega),
        Option.map_some]
      rw [ih _ hnext, hk, List.drop_drop, Option.map_map, Option.map_map]
      congr 1
      funext rows
      simp
    · simp only [if_neg hmore]
      rfl

/-- The rows that match, in the order of the query, are the only ones that enumerate. -/
theorem enumerates_iff (hids : (table.map (·.id)).Nodup) {rows : List DlqRow} :
    Enumerates table opts (rows.map (present table)) ↔
      rows.map (present table) =
        ((candidates table opts).filter (opts.keeps table)).map (present table) := by
  have hmem : ∀ r, r ∈ (candidates table opts).filter (opts.keeps table) ↔
      r ∈ table ∧ opts.Matches table r := fun r => by
    rw [List.mem_filter, mem_candidates, matches_iff, and_assoc]
  have hsorted : (candidates table opts).Pairwise _ := candidates_pairwise hids
  have hdesc := hsorted.filter (opts.keeps table)
  constructor
  · intro ⟨rows', heq, hpair, hrows⟩
    rw [heq]
    congr 1
    refine List.Perm.eq_of_pairwise (fun r r' _ _ h h' => absurd (h.trans h') (Nat.lt_irrefl _))
      hpair hdesc ?_
    refine (List.perm_ext_iff_of_nodup ?_ ?_).mpr fun r => (hrows r).trans (hmem r).symm
    · exact hpair.imp fun h => ne_of_apply_ne (·.id) (Nat.ne_of_gt h)
    · exact hdesc.imp fun h => ne_of_apply_ne (·.id) (Nat.ne_of_gt h)
  · intro heq
    exact ⟨_, heq, hdesc, hmem⟩

/-- **The pages of dead letters.** Following `nextCursor` comes to an end, and returns exactly the
rows that match, in decreasing order of their ids, exactly when no candidate that matches comes
after the page on which one stands that does not. -/
theorem paging_iff (table : List DlqRow) (hids : (table.map (·.id)).Nodup) (opts : ListOptions)
    (hsize : 0 < opts.pageSize) :
    ∃ items, followCursor table opts (table.length + 1) none = some items ∧
      (Enumerates table opts items ↔
        ∀ i j, (∃ r ∈ (candidates table opts)[i]?, ¬opts.Matches table r) →
          (∃ r ∈ (candidates table opts)[j]?, opts.Matches table r) →
          j ≤ opts.pageSize * ((i - 1) / opts.pageSize + 1)) := by
  set n := opts.pageSize with hn
  set p := opts.keeps table with hp
  set l := candidates table opts with hl
  have hlen : l.length < table.length + 1 := by
    have hle := List.length_filter_le opts.selects (table.insertionSort fun r r' => r'.id ≤ r.id)
    rw [List.length_insertionSort] at hle
    exact Nat.lt_succ_of_le hle
  have hfollow := followCursor_eq hids hsize (table.length + 1) none (k := 0) (by simp)
  rw [List.drop_zero, ← hl, ← hn, ← hp] at hfollow
  have hall := Pages.follow_eq (p := p) hsize hlen
  refine ⟨_, hfollow.trans (congrArg _ hall), ?_⟩
  rw [enumerates_iff hids, ← hl, ← hp]
  have hmatches : ∀ {i r}, r ∈ l[i]? → (opts.Matches table r ↔ p r = true) := fun {i r} hr => by
    rw [matches_iff, (mem_candidates.mp (List.mem_of_getElem? hr)).2]
    simp [hp]
  have hcut : (((l.take (Pages.reach p n l)).filter p).map (present table) =
      (l.filter p).map (present table)) ↔ (l.take (Pages.reach p n l)).filter p = l.filter p := by
    refine ⟨fun h => ?_, fun h => by rw [h]⟩
    have hlength := congrArg List.length h
    rw [List.length_map, List.length_map] at hlength
    exact ((List.take_sublist _ l).filter p).eq_of_length hlength
  rw [hcut, ← Option.some.injEq, ← hall, Pages.follow_eq_filter_iff hsize hlen, Pages.Unbroken]
  refine forall₂_congr fun i j => imp_congr ?_ (imp_congr ?_ Iff.rfl)
  · exact exists_congr fun r => and_congr_right fun hr => by rw [hmatches hr, Bool.not_eq_true]
  · exact exists_congr fun r => and_congr_right fun hr => (hmatches hr).symm

end Following

/-! ## A failed replay behind fifty-one successful ones -/

/-- A row that was replayed. -/
def replayedRow (id : ℕ) : DlqRow :=
  { id
    originalTopic := Topic.name .TRADES
    originalPartition := 0
    originalOffset := Nat.repr id
    payload := []
    headers := []
    worker := "candle-aggregator"
    lastError := "Error: db down"
    attempt := 3
    replayedFromId := none
    resolution := some .replayed
    resolvedBy := some "admin"
    enqueuedAt := id
    resolvedAt := some (id + 1000) }

/-- What came back of the replay of the row 1. -/
def failedAgain : DlqRow :=
  { replayedRow 53 with
    replayedFromId := some 1
    resolution := none
    resolvedBy := none
    resolvedAt := none }

def oldFailure : List DlqRow := (List.range 52).map (fun k => replayedRow (k + 1)) ++ [failedAgain]

/-- The default page of failed replays. -/
def failedReplays : ListOptions where
  status := some .replayedFailed
  worker := none
  originalTopic := none
  take := none
  cursor := none

theorem first_failure_matches : failedReplays.Matches oldFailure (replayedRow 1) :=
  ⟨⟨rfl, failedAgain, List.mem_append_right _ (List.mem_singleton.mpr rfl), rfl⟩, nofun, nofun⟩

/-- The fifty-one rows that are fetched first are all dropped, and the chain ends
before the failed one. -/
theorem paging_stops_early :
    ∃ items, followCursor oldFailure failedReplays (oldFailure.length + 1) none = some items ∧
      ¬Enumerates oldFailure failedReplays items := by
  refine ⟨[], by decide +kernel, fun ⟨rows, hnil, _, hmem⟩ => ?_⟩
  have hin := (hmem (replayedRow 1)).mpr ⟨by decide +kernel, first_failure_matches⟩
  rw [List.map_eq_nil_iff.mp hnil.symm] at hin
  cases hin

/-- A page of two hundred rows finds it. -/
theorem paging_finds :
    ((oldFailure.map (·.id)).Nodup ∧ 0 < { failedReplays with take := some 200 }.pageSize) ∧
      ∃ items, followCursor oldFailure { failedReplays with take := some 200 }
        (oldFailure.length + 1) none =
          some items ∧ Enumerates oldFailure { failedReplays with take := some 200 } items := by
  have hids : (oldFailure.map (·.id)).Nodup := by decide +kernel
  obtain ⟨items, hfollow, hiff⟩ :=
    paging_iff oldFailure hids { failedReplays with take := some 200 } (by decide)
  refine ⟨⟨hids, by decide⟩, items, hfollow, hiff.mpr fun i j _ ⟨r, hr, _⟩ => ?_⟩
  have hlt : j < (candidates oldFailure { failedReplays with take := some 200 }).length :=
    (List.getElem?_eq_some_iff.mp hr).1
  have hlen : (candidates oldFailure { failedReplays with take := some 200 }).length = 52 :=
    by decide +kernel
  have hpage : { failedReplays with take := some 200 }.pageSize = 200 := rfl
  rw [hpage]
  omega

end Orbit.Dlq
