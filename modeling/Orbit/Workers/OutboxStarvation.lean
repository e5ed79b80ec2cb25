import Mathlib.Algebra.Order.Floor.Div
import Mathlib.Data.List.Forall2
import Orbit.Foundations.Batches
import Orbit.Workers.OutboxRelay

/-!
# Rows that cannot be sent

A row whose send always fails, because its payload is too large or its topic does not exist, stays
pending. `drainOnce` takes the pending rows with the lowest ids, so that it takes such a row again
in every pass, and has room for so many fewer others.

* `drainOnce_pending`: on the pending rows a pass is a `pass` over a queue that
  such rows are stuck in.
* `drained_iff`: all others are drained in `⌈n / batchSize⌉` passes exactly when those that the
  passes have not tried are poison too.
* `drained_eventually_iff`: they are drained in some number of passes exactly when fewer than
  `batchSize` of the poison rows have lower ids than each of them.
-/

namespace Orbit.OutboxRelay

open Table

/-- The ids of the pending rows, as they stand in the table. -/
def pendingIds (rows : List Row) : List ℕ := (rows.filter fun r => r.processedAt.isNone).map Row.id

/-- The ids of the pending rows, in the order in which passes take them. -/
def pending (rows : List Row) : List ℕ := (pendingIds rows).insertionSort (· ≤ ·)

/-- Whether a turn ends as it does if the row is poison, or is not: the send of a poison row fails,
and everything else goes through. -/
def Outcome.expected (poison : Bool) : Outcome → Bool
  | .sent _ => !poison
  | .unmarked _ _ => false
  | .refused _ _ => poison

/-- The outcomes of a pass that fails to send the rows in `F` and nothing else. -/
def Poisoned (F : Finset ℕ) (batchSize : ℕ) (s : Relay) (outcomes : List Outcome) : Prop :=
  List.Forall₂ (fun r o => o.expected (r.id ∈ F) = true) (findMany batchSize s.rows) outcomes

/-- Consecutive passes, with no new rows between them. -/
def drains (batchSize : ℕ) (s : Relay) (passes : List (List Outcome)) : Relay :=
  passes.foldl (fun s outcomes => drainOnce batchSize outcomes s) s

/-- **The rows outside of `F` are drained**: each one that was pending is published and marked as
processed. -/
def Drained (F : Finset ℕ) (s s' : Relay) : Prop :=
  ∀ r ∈ s.rows, r.processedAt = none → r.id ∉ F →
    r.publication ∈ s'.published ∧ ∃ r' ∈ s'.rows, r'.event = r.event ∧ r'.processedAt ≠ none

variable {F : Finset ℕ} {batchSize : ℕ} {s s' : Relay} {ev r : Row} {o : Outcome}
  {ts : List (Row × Outcome)} {outcomes : List Outcome}

instance : Decidable (Poisoned F batchSize s outcomes) :=
  inferInstanceAs (Decidable (List.Forall₂ _ _ _))

instance : Decidable (Drained F s s') := inferInstanceAs (Decidable (∀ r ∈ s.rows, _))

/-- How many of the pending rows, from the lowest id on, `k` passes try. -/
def tried (F : Finset ℕ) (batchSize : ℕ) (s : Relay) (k : ℕ) : ℕ :=
  reach batchSize (fun i => i ∈ F) (pending s.rows) k

/-! ## A turn -/

theorem mem_pendingIds {rows : List Row} {i : ℕ} :
    i ∈ pendingIds rows ↔ ∃ r ∈ rows, r.processedAt = none ∧ r.id = i := by
  simp [pendingIds, and_assoc]

theorem mem_pending {rows : List Row} {i : ℕ} :
    i ∈ pending rows ↔ ∃ r ∈ rows, r.processedAt = none ∧ r.id = i := by
  rw [pending, List.mem_insertionSort, mem_pendingIds]

theorem map_id_findMany (rows : List Row) :
    (findMany batchSize rows).map Row.id = (pending rows).take batchSize := by
  rw [findMany, List.map_take, pending, pendingIds,
    List.map_insertionSort (fun a b : Row => a.id ≤ b.id) (· ≤ ·) Row.id _ fun _ _ _ _ => Iff.rfl]

/-- An update that leaves the ids and the marks alone. -/
theorem pendingIds_modify {i : ℕ} {f : Row → Row}
    (hf : ∀ r, ((f r).id, (f r).processedAt) = (r.id, r.processedAt)) (rows : List Row) :
    pendingIds (modify i f rows) = pendingIds rows := by
  have h : ∀ rows, pendingIds rows =
      ((rows.map fun r => (r.id, r.processedAt)).filter fun x => x.2.isNone).map Prod.fst := by
    intro rows
    simp [pendingIds, List.filter_map, Function.comp_def]
  rw [h, h, map_modify hf]

/-- Marking a row takes its id away. -/
theorem pendingIds_mark (i now : ℕ) {rows : List Row} (hn : (rows.map Row.id).Nodup) :
    pendingIds (modify i (fun r => { r with processedAt := some now }) rows) =
      (pendingIds rows).filter fun j => decide (j ≠ i) := by
  induction rows with
  | nil => rfl
  | cons r rows ih =>
    obtain ⟨hr, hn⟩ := List.nodup_cons.mp hn
    have hcons : ∀ (x : Row) (l : List Row), pendingIds (x :: l) =
        (if x.processedAt.isNone then [x.id] else []) ++ pendingIds l := by
      intro x l
      cases h : x.processedAt.isNone <;> simp [pendingIds, h]
    rw [Table.modify, hcons r, List.filter_append]
    by_cases hkey : key r = i
    · have hrest : (pendingIds rows).filter (fun j => decide (j ≠ i)) = pendingIds rows := by
        refine List.filter_eq_self.mpr fun j hj => ?_
        obtain ⟨x, hx, -, rfl⟩ := mem_pendingIds.mp hj
        have : x.id ≠ i := fun h => hr (List.mem_map.mpr ⟨x, hx, h.trans hkey.symm⟩)
        simpa using this
      rw [if_pos hkey, hcons, hrest, ← hkey]
      cases h : r.processedAt.isNone <;> simp [Keyed.key, Row.id]
    · rw [if_neg hkey, hcons, ih hn]
      have : r.id ≠ i := hkey
      cases h : r.processedAt.isNone <;> simp [this]

theorem event_eq_of_publication {r' : Row} (h : r'.publication = r.publication) :
    r'.event = r.event := by
  simp only [Row.publication, Publication.mk.injEq] at h
  obtain ⟨hid, htopic, hkey, hvalue, -⟩ := h
  cases hr : r'.event
  cases hr' : r.event
  simp_all

theorem map_publication_turn : (turn s ev o).rows.map Row.publication =
    s.rows.map Row.publication := by
  cases o with
  | sent now =>
    refine map_modify ?_ s.rows
    intro r
    rfl
  | unmarked msg noted | refused msg noted =>
    cases noted
    · rfl
    · refine map_modify ?_ s.rows
      intro r
      rfl

theorem map_id_turn : (turn s ev o).rows.map Row.id = s.rows.map Row.id := by
  have := congrArg (List.map Publication.id) (@map_publication_turn s ev o)
  rwa [List.map_map, List.map_map] at this

/-- A turn leaves a poison row pending, and takes any other one away. -/
theorem pendingIds_turn (hn : (s.rows.map Row.id).Nodup) (ho : o.expected (ev.id ∈ F) = true) :
    pendingIds (turn s ev o).rows =
      (pendingIds s.rows).filter fun i => decide (i ∈ F ∨ i ≠ ev.id) := by
  cases o with
  | unmarked msg noted => cases ho
  | refused msg noted =>
    have hF : ev.id ∈ F := by simpa [Outcome.expected] using ho
    have hsame : pendingIds (turn s ev (.refused msg noted)).rows = pendingIds s.rows := by
      cases noted
      · rfl
      · refine pendingIds_modify ?_ s.rows
        intro r
        rfl
    rw [hsame]
    refine (List.filter_eq_self.mpr fun i _ => ?_).symm
    by_cases hi : i = ev.id
    · simp [hi, hF]
    · simp [hi]
  | sent now =>
    have hF : ev.id ∉ F := by simpa [Outcome.expected] using ho
    rw [turn, pendingIds_mark ev.id now hn]
    refine List.filter_congr fun i _ => ?_
    by_cases hi : i = ev.id
    · simp [hi, hF]
    · simp [hi]

/-! ## A pass -/

theorem map_publication_foldl (ts : List (Row × Outcome)) (s : Relay) :
    (ts.foldl (fun s t => turn s t.1 t.2) s).rows.map Row.publication =
      s.rows.map Row.publication := by
  induction ts generalizing s with
  | nil => rfl
  | cons t ts ih => rw [List.foldl_cons, ih, map_publication_turn]

theorem pendingIds_foldl (hn : (s.rows.map Row.id).Nodup)
    (hts : ∀ t ∈ ts, t.2.expected (t.1.id ∈ F) = true) :
    pendingIds (ts.foldl (fun s t => turn s t.1 t.2) s).rows =
      (pendingIds s.rows).filter fun i => decide (i ∈ F ∨ i ∉ ts.map fun t => t.1.id) := by
  induction ts generalizing s with
  | nil => simp
  | cons t ts ih =>
    have hn' : ((turn s t.1 t.2).rows.map Row.id).Nodup := by
      rw [map_id_turn]
      exact hn
    rw [List.foldl_cons, ih hn' fun x hx => hts x (by simp [hx]),
      pendingIds_turn hn (hts t (by simp)), List.filter_filter]
    refine List.filter_congr fun i _ => ?_
    rw [Bool.eq_iff_iff]
    simp only [Bool.and_eq_true, decide_eq_true_eq, List.map_cons, List.mem_cons]
    tauto

theorem map_fst_turns (h : Poisoned F batchSize s outcomes) :
    (turns batchSize outcomes s).map Prod.fst = findMany batchSize s.rows :=
  List.map_fst_zip h.length_eq.le

theorem expected_of_mem_turns (h : Poisoned F batchSize s outcomes) :
    ∀ t ∈ turns batchSize outcomes s, t.2.expected (t.1.id ∈ F) = true :=
  fun _ ht => (List.forall₂_iff_zip.mp h).2 ht

/-- **A pass over the pending rows** is one over a queue in which the poison rows are stuck. -/
theorem pending_drainOnce (hn : (s.rows.map Row.id).Nodup) (h : Poisoned F batchSize s outcomes) :
    pending (drainOnce batchSize outcomes s).rows =
      pass batchSize (fun i => i ∈ F) (pending s.rows) := by
  have hids : ((turns batchSize outcomes s).map fun t => t.1.id) =
      (pending s.rows).take batchSize := by
    rw [← map_id_findMany, ← map_fst_turns h, List.map_map]
    rfl
  have hperm : (pending s.rows).Perm (pendingIds s.rows) := List.perm_insertionSort _ _
  have hnodup : (pending s.rows).Nodup := hperm.nodup_iff.mpr
    (hn.sublist (List.filter_sublist.map _))
  have hsorted : (pending s.rows).Pairwise (· ≤ ·) := List.pairwise_insertionSort _ _
  rw [pass_eq_filter hnodup, pending, drainOnce, pendingIds_foldl hn
    (expected_of_mem_turns h), hids]
  refine List.Perm.eq_of_pairwise' (List.pairwise_insertionSort _ _)
    (hsorted.sublist List.filter_sublist) ?_
  refine (List.perm_insertionSort _ _).trans ?_
  simpa using (hperm.filter _).symm

/-- What a pass takes away is published. -/
theorem published_drainOnce (hn : (s.rows.map Row.id).Nodup) (h : Poisoned F batchSize s outcomes)
    (hr : r ∈ s.rows) (hin : r.id ∈ pending s.rows)
    (hout : r.id ∉ pending (drainOnce batchSize outcomes s).rows) :
    r.publication ∈ (drainOnce batchSize outcomes s).published := by
  rw [pending_drainOnce hn h, pass, List.mem_append, not_or, List.mem_filter, not_and] at hout
  rw [← List.take_append_drop batchSize (pending s.rows), List.mem_append] at hin
  have htaken := hin.resolve_right hout.2
  have hfree : r.id ∉ F := by simpa using hout.1 htaken
  rw [← map_id_findMany, ← map_fst_turns h, List.map_map] at htaken
  obtain ⟨t, ht, hid⟩ := List.mem_map.mp htaken
  have hrow : t.1 ∈ s.rows := by
    have : t.1 ∈ findMany batchSize s.rows := map_fst_turns h ▸ List.mem_map_of_mem ht
    have := List.mem_of_mem_take this
    exact List.mem_of_mem_filter ((List.mem_insertionSort _).mp this)
  obtain rfl : t.1 = r := List.inj_on_of_nodup_map hn hrow hr hid
  have hacked : t.2.acked = true := by
    have := expected_of_mem_turns h t ht
    cases ho : t.2 <;> simp_all [Outcome.expected, Outcome.acked]
  rw [drainOnce, published_foldl]
  exact List.mem_append_right _ (List.mem_map.mpr ⟨t, List.mem_filter.mpr ⟨ht, hacked⟩, rfl⟩)

/-! ## Consecutive passes -/

/-- Passes in which the rows of `F` cannot be sent. -/
abbrev AllPoisoned (F : Finset ℕ) (batchSize : ℕ) (s : Relay)
    (passes : List (List Outcome)) : Prop :=
  Justified (fun before outcomes => Poisoned F batchSize
    (drains batchSize s before) outcomes) passes

variable {passes : List (List Outcome)}

theorem drains_concat : drains batchSize s (passes ++ [outcomes]) =
    drainOnce batchSize outcomes (drains batchSize s passes) := by
  simp [drains]

theorem map_publication_drains (passes : List (List Outcome)) :
    (drains batchSize s passes).rows.map Row.publication = s.rows.map Row.publication := by
  induction passes using List.reverseRecOn with
  | nil => rfl
  | append_singleton passes outcomes ih => rw [drains_concat, drainOnce, map_publication_foldl, ih]

theorem nodup_drains (hn : (s.rows.map Row.id).Nodup) :
    ((drains batchSize s passes).rows.map Row.id).Nodup := by
  have hsame : (drains batchSize s passes).rows.map Row.publication = s.rows.map Row.publication :=
    map_publication_drains passes
  have hids := congrArg (List.map Publication.id) hsame
  rw [List.map_map, List.map_map] at hids
  exact (congrArg List.Nodup hids).mpr hn

theorem pending_drains (hn : (s.rows.map Row.id).Nodup) (h : AllPoisoned F batchSize s passes) :
    pending (drains batchSize s passes).rows =
      (pass batchSize fun i => i ∈ F)^[passes.length] (pending s.rows) := by
  induction passes using List.reverseRecOn with
  | nil => rfl
  | append_singleton passes outcomes ih =>
    obtain ⟨h, hlast⟩ := justified_concat.mp h
    rw [drains_concat, pending_drainOnce (nodup_drains hn) hlast, ih h, List.length_append,
      List.length_singleton, Function.iterate_succ_apply']

/-- What leaves the pending rows was published. -/
theorem published_drains (hn : (s.rows.map Row.id).Nodup) (h : AllPoisoned F batchSize s passes)
    (hr : r ∈ s.rows) (hin : r.id ∈ pending s.rows)
    (hout : r.id ∉ pending (drains batchSize s passes).rows) :
    r.publication ∈ (drains batchSize s passes).published := by
  induction passes using List.reverseRecOn with
  | nil => exact absurd hin hout
  | append_singleton passes outcomes ih =>
    obtain ⟨h, hlast⟩ := justified_concat.mp h
    rw [drains_concat] at hout ⊢
    by_cases hleft : r.id ∈ pending (drains batchSize s passes).rows
    · have hpub : r.publication ∈ (drains batchSize s passes).rows.map Row.publication := by
        rw [map_publication_drains]
        exact List.mem_map_of_mem hr
      obtain ⟨r', hr', heq⟩ := List.mem_map.mp hpub
      have hid : r'.id = r.id := congrArg Publication.id heq
      rw [← heq]
      exact published_drainOnce (nodup_drains hn) hlast hr' (hid ▸ hleft) (hid ▸ hout)
    · rw [drainOnce, published_foldl]
      exact List.mem_append_left _ (ih h hleft)

/-- The rows outside of `F` are drained when none of them is pending any more. -/
theorem drained_iff_not_pending (hn : (s.rows.map Row.id).Nodup)
    (h : AllPoisoned F batchSize s passes) :
    Drained F s (drains batchSize s passes) ↔
      ∀ i ∈ pending s.rows, i ∉ F → i ∉ pending (drains batchSize s passes).rows := by
  constructor
  · intro hd i hi hF hi'
    obtain ⟨r, hr, hnone, rfl⟩ := mem_pending.mp hi
    obtain ⟨x, hx, hxnone, hxid⟩ := mem_pending.mp hi'
    obtain ⟨-, r', hr', hevent, hmarked⟩ := hd r hr hnone hF
    have hid : r'.id = x.id := by rw [hxid, Row.id, Row.id, hevent]
    rw [List.inj_on_of_nodup_map (nodup_drains hn) hr' hx hid] at hmarked
    exact hmarked hxnone
  · intro hgone r hr hnone hF
    have hin : r.id ∈ pending s.rows := mem_pending.mpr ⟨r, hr, hnone, rfl⟩
    have hout := hgone r.id hin hF
    have hpub : r.publication ∈ (drains batchSize s passes).rows.map Row.publication := by
      rw [map_publication_drains]
      exact List.mem_map_of_mem hr
    obtain ⟨r', hr', heq⟩ := List.mem_map.mp hpub
    have hid : r'.id = r.id := congrArg Publication.id heq
    exact ⟨published_drains hn h hr hin hout, r', hr', event_eq_of_publication heq,
      fun hnone' => hout (mem_pending.mpr ⟨r', hr', hnone', hid⟩)⟩

/-- **Which rows `⌈n / batchSize⌉` passes drain.** With `n` pending rows, those of `F` poison, every
other row is published and marked as processed exactly when all those that the passes have not tried
are in `F`. -/
theorem drained_iff (hn : (s.rows.map Row.id).Nodup) (h : AllPoisoned F batchSize s passes)
    (hlen : passes.length = (pending s.rows).length ⌈/⌉ batchSize) :
    Drained F s (drains batchSize s passes) ↔
      ∀ i ∈ (pending s.rows).drop (tried F batchSize s ((pending s.rows).length ⌈/⌉ batchSize)),
        i ∈ F := by
  rw [drained_iff_not_pending hn h, pending_drains hn h, hlen]
  have hleave := @all_leave_iff _ batchSize (fun i => decide (i ∈ F)) (pending s.rows)
    ((pending s.rows).length ⌈/⌉ batchSize)
  simpa [tried] using hleave

/-- **Which rows are drained at last.** In a run of passes without end in which just the rows of `F`
cannot be sent, all others are drained at some time exactly when each of them has fewer than
`batchSize` rows of `F` below it. -/
theorem drained_eventually_iff (hn : (s.rows.map Row.id).Nodup) {passes : ℕ → List Outcome}
    (h : ∀ k, AllPoisoned F batchSize s ((List.range k).map passes)) :
    (∃ k, Drained F s (drains batchSize s ((List.range k).map passes))) ↔
      ∀ q i, (pending s.rows)[q]? = some i → i ∉ F →
        ((pending s.rows).take q).countP (fun j => j ∈ F) < batchSize := by
  have hk : ∀ k, Drained F s (drains batchSize s ((List.range k).map passes)) ↔
      ∀ i ∈ pending s.rows, i ∉ F → i ∉ (pass batchSize fun j => j ∈ F)^[k] (pending s.rows) := by
    intro k
    rw [drained_iff_not_pending hn (h k), pending_drains hn (h k),
      List.length_map, List.length_range]
  simp only [hk]
  have hleave := @exists_all_leave_iff _ batchSize (fun i => decide (i ∈ F)) (pending s.rows)
  simpa using hleave

namespace StarvedSample

open RelaySample (cancel)

/-- Pending rows with the ids 1 to `n`. -/
def waiting (n : ℕ) : Relay :=
    ⟨(List.range n).map fun i => ⟨cancel (i + 1) 7, none, none, 0, none⟩, []⟩

/-- The outcome of a row that cannot be sent. -/
def tooLarge : Outcome :=
  .refused "The request included a message larger than the max message size" true

end StarvedSample

open StarvedSample in
/-- Of three rows the first cannot be sent: two passes over two rows each drain the others. -/
theorem drained_beside_one : Drained {1} (waiting 3)
    (drains 2 (waiting 3) [[tooLarge, .sent 0], [tooLarge, .sent 1]]) :=
  (drained_iff (F := {1}) (by decide) (by decide +kernel) (by decide +kernel)).mpr
    (by decide +kernel)

open StarvedSample in
/-- **Two rows, of which the first cannot be sent**: passes over one row each only try that one. -/
theorem starved_behind_one : AllPoisoned {1} 1 (waiting 2) [[tooLarge], [tooLarge]] ∧
    [[tooLarge], [tooLarge]].length = (pending (waiting 2).rows).length ⌈/⌉ 1 ∧
    ¬Drained {1} (waiting 2) (drains 1 (waiting 2) [[tooLarge], [tooLarge]]) := by
  decide +kernel

end Orbit.OutboxRelay
