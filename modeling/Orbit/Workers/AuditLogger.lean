import Mathlib.Logic.Function.Basic
import Orbit.Foundations.History
import Orbit.Foundations.Json
import Orbit.Workers.RetryPolicy

/-!
# The audit logger

`runAuditLogger` of `apps/workers/src/audit-logger/index.ts`. A batch of a partition is written to
S3 as one object, whose key is made of the hour, the partition and the first offset of the batch,
and only then are its offsets resolved. They are committed by `commitOffsetsIfNecessary`, which does
so when an interval or a threshold for commits is reached; the consumer is run with neither.

`System` holds the partitions, each with its log and the consumer's position, and the objects. A
crash in the middle of a batch is a `batch` whose put was not acknowledged, followed by `restart`.

* `audit_complete`: in a run in which a restart finds every message past the consumer's position in
  an object of its partition, every message since the first join is in an object whenever the
  consumer has caught up.
-/

namespace Orbit.AuditLogger

open RetryPolicy Json

/-- The topics the worker subscribes to. -/
def topics : List Topic := [.TRADES, .ORDERS, .USER_EVENTS]

/-- A partition of a topic. -/
structure Place where
  topic : Topic
  partition : ℕ
  deriving DecidableEq, Repr

/-- The options of `consumer.run` for commits. -/
structure AutoCommit where
  interval : Option ℕ
  threshold : Option ℕ
  deriving DecidableEq, Repr

/-- The worker gives neither. -/
def autoCommit : AutoCommit := ⟨none, none⟩

/-- A partition as the consumer group sees it: the values of its messages, where the log ended when
the group first joined, the next offset to be fetched, and the committed offset. -/
structure Partition where
  log : List (Option (List UInt8))
  joined : ℕ
  position : ℕ
  committed : Option ℕ
  deriving DecidableEq, Repr

/-- `yyyy/MM/dd/HH/<topic>-<partition>-<firstOffset>.jsonl`; the hour is counted from the epoch. -/
structure ObjectKey where
  hour : ℕ
  place : Place
  firstOffset : ℕ
  deriving DecidableEq, Repr

/-- An object, with its metadata `orbit-count`. -/
structure S3Object where
  body : String
  count : ℕ
  deriving DecidableEq, Repr

structure System where
  parts : Place → Partition
  objects : ObjectKey → Option S3Object

/-- `resolveOffset`, as far as the consumer's position goes. -/
def resolveOffset (offset : ℕ) (p : Partition) : Partition := { p with position := offset + 1 }

/-- `commitOffsetsIfNecessary`, so long after the last commit. -/
def commitOffsetsIfNecessary (cfg : AutoCommit) (elapsed : ℕ) (p : Partition) : Partition :=
  if (∃ interval ∈ cfg.interval, interval ≤ elapsed) ∨
      (∃ threshold ∈ cfg.threshold, threshold ≤ p.position - p.committed.getD p.joined) then
    { p with committed := some p.position }
  else p

/-- A message of a batch. -/
structure Message where
  offset : ℕ
  value : Option (List UInt8)
  deriving DecidableEq, Repr

/-- At most `count` messages from the position on. -/
def fetch (count : ℕ) (p : Partition) : List Message :=
  ((p.log.drop p.position).take count).mapIdx fun i value => ⟨p.position + i, value⟩

/-- The lines of the messages: those without a value have none. -/
def lines (messages : List Message) : List String :=
  messages.filterMap fun m => m.value.map fun bytes => String.ofList (decode bytes)

/-- The object of a batch. -/
def batchObject (messages : List Message) : S3Object :=
  ⟨"\n".intercalate (lines messages), (lines messages).length⟩

/-- `eachBatch`: the loop reads the first `alive` messages of the batch, until the consumer is
stopped or the batch is stale. -/
def eachBatch (place : Place) (batch : List Message) (alive hour elapsed : ℕ) (put : SendResult)
    (s : System) : System :=
  let messages := batch.take alive
  let resolve (s : System) : System :=
    match messages.getLast? with
    | none => s
    | some last =>
      let p := commitOffsetsIfNecessary autoCommit elapsed
        (resolveOffset last.offset (s.parts place))
      { s with parts := Function.update s.parts place p }
  match messages.head? with
  | none => s
  | some first =>
    if lines messages = [] then resolve s
    else
      let object := batchObject messages
      let stored : System :=
        if put.delivered then
          { s with objects := Function.update s.objects ⟨hour, place, first.offset⟩ (some object) }
        else s
      if put = .acked then resolve stored else stored

inductive Step
  /-- A message is appended to a partition. -/
  | append (place : Place) (value : Option (List UInt8))
  /-- A batch of at most `count` messages, of which `alive` are read. -/
  | batch (place : Place) (count alive hour elapsed : ℕ) (put : SendResult)
  /-- The process starts again. -/
  | restart
  deriving DecidableEq, Repr

/-- Where a consumer starts: at the committed offset, and without one at the end of the log. -/
def start (p : Partition) : Partition := { p with position := p.committed.getD p.log.length }

def step (s : System) : Step → System
  | .append place value =>
    let p := s.parts place
    { s with parts := Function.update s.parts place { p with log := p.log ++ [value] } }
  | .batch place count alive hour elapsed put =>
    if place.topic ∈ topics then
      eachBatch place (fetch count (s.parts place)) alive hour elapsed put s
    else s
  | .restart => { s with parts := fun place => start (s.parts place) }

def run (s : System) (steps : List Step) : System := steps.foldl step s

/-- The group has just joined: it has committed nothing and starts at the ends of the logs. -/
structure System.Joined (s : System) : Prop where
  joined : ∀ place, (s.parts place).joined = (s.parts place).log.length
  position : ∀ place, (s.parts place).position = (s.parts place).log.length
  committed : ∀ place, (s.parts place).committed = none
  objects : ∀ key, s.objects key = none

/-- The text of the message is in the body. -/
def S3Object.Contains (o : S3Object) (value : List UInt8) : Prop := decode value <:+: o.body.toList

/-- The message is in an object. -/
def System.Stored (s : System) (value : List UInt8) : Prop :=
  ∃ key o, s.objects key = some o ∧ o.Contains value

/-- Every message of the partition since the first join is in an object. -/
def System.Complete (s : System) (place : Place) : Prop :=
  ∀ i value, (s.parts place).joined ≤ i → (s.parts place).log[i]? =
    some (some value) → s.Stored value

/-- The message is in an object of the partition. -/
def System.StoredAt (s : System) (place : Place) (value : List UInt8) : Prop :=
  ∃ key o, key.place = place ∧ s.objects key = some o ∧ o.Contains value

/-- The condition on a step: the process starts again only when the messages that the consumer has
not got past are in objects of their partitions. -/
def Covered (s : System) : Step → Prop
  | .restart => ∀ place i value, (s.parts place).position ≤ i →
      (s.parts place).log[i]? = some (some value) → s.StoredAt place value
  | _ => True

/-! ## One batch -/

/-- The worker never commits an offset. -/
@[simp] theorem commitOffsetsIfNecessary_autoCommit (elapsed : ℕ) (p : Partition) :
    commitOffsetsIfNecessary autoCommit elapsed p = p := by
  simp [commitOffsetsIfNecessary, autoCommit]

theorem getElem?_fetch_take (count alive i : ℕ) (p : Partition) :
    ((fetch count p).take alive)[i]? =
      if i < alive ∧ i < count then
        (p.log[p.position + i]?).map fun value => ⟨p.position + i, value⟩
      else none := by
  unfold fetch
  rw [List.getElem?_take, List.getElem?_mapIdx, List.getElem?_take, List.getElem?_drop]
  by_cases ha : i < alive <;> by_cases hc : i < count <;> simp [ha, hc]

/-- A line of an object is in its body. -/
theorem infix_intercalate {l : List String} {x : String} (h : x ∈ l) :
    x.toList <:+: ("\n".intercalate l).toList := by
  induction l with
  | nil => cases h
  | cons y ys ih =>
    by_cases hys : ys = []
    · subst hys
      have hsingle : ("\n".intercalate [y]).toList = x.toList := by
        rw [List.mem_singleton.mp h, String.intercalate_singleton]
      exact hsingle ▸ List.infix_rfl
    · rw [String.intercalate_cons_of_ne_nil hys, String.toList_append, String.toList_append]
      rcases List.mem_cons.mp h with rfl | h
      · exact ⟨[], "\n".toList ++ ("\n".intercalate ys).toList,
          by simp only [List.nil_append, List.append_assoc]⟩
      · obtain ⟨a, b, e⟩ := ih h
        exact ⟨y.toList ++ "\n".toList ++ a, b, by rw [← e]; simp⟩

section Batch

variable {p : Partition}

/-- The messages of a batch follow each other from the consumer's position on. -/
structure Reads (p : Partition) (messages : List Message) : Prop where
  first : ∀ m ∈ messages.head?, m.offset = p.position
  last : ∀ m ∈ messages.getLast?, m.offset + 1 = p.position + messages.length
  length : messages ≠ [] → p.position + messages.length ≤ p.log.length
  lines : ∀ i < messages.length, ∀ value, p.log[p.position + i]? = some (some value) →
    String.ofList (decode value) ∈ lines messages

theorem reads_fetch (count alive : ℕ) (p : Partition) : Reads p ((fetch count p).take alive) := by
  have hget := fun i => getElem?_fetch_take count alive i p
  generalize (fetch count p).take alive = messages at hget
  have hn : ∀ i m, messages[i]? = some m → m.offset = p.position + i ∧
      p.log[p.position + i]? = some m.value := by
    intro i m hm
    rw [hget] at hm
    split at hm
    · obtain ⟨value, hv, rfl⟩ := Option.map_eq_some_iff.mp hm
      exact ⟨rfl, hv⟩
    · cases hm
  refine ⟨fun m hm => ?_, fun m hm => ?_, fun hne => ?_, fun i hi value hv => ?_⟩
  · rw [List.head?_eq_getElem?] at hm
    exact (hn 0 m hm).1
  · rw [List.getLast?_eq_getElem?] at hm
    have hlt := (List.getElem?_eq_some_iff.mp hm).1
    rw [(hn _ m hm).1]
    omega
  · have hpos := List.length_pos_iff.mpr hne
    obtain ⟨-, hv⟩ := hn (messages.length - 1) _ (List.getElem?_eq_getElem (by omega))
    have := (List.getElem?_eq_some_iff.mp hv).1
    omega
  · have hm := List.getElem?_eq_getElem hi
    obtain ⟨-, hv'⟩ := hn i _ hm
    refine List.mem_filterMap.mpr ⟨_, List.mem_of_getElem? hm, ?_⟩
    rw [← Option.some.inj (hv.symm.trans hv')]
    rfl

/-- **What a batch can do**: nothing; get past messages without a value; write its messages to an
object; or write them and get past them. -/
theorem eachBatch_cases (s : System) (place : Place)
    (count alive hour elapsed : ℕ) (put : SendResult)
    (hp : s.parts place = p) :
    let s' := eachBatch place (fetch count p) alive hour elapsed put s
    s' = s ∨ ∃ n, 0 < n ∧ p.position + n ≤ p.log.length ∧
      ((s'.objects = s.objects ∧
          s'.parts = Function.update s.parts place { p with position := p.position + n } ∧
          ∀ i < n, ∀ value, p.log[p.position + i]? ≠ some (some value)) ∨
        ∃ o, s'.objects = Function.update s.objects ⟨hour, place, p.position⟩ (some o) ∧
          (s'.parts = s.parts ∨
            s'.parts = Function.update s.parts place { p with position := p.position + n } ∧
            ∀ i < n, ∀ value, p.log[p.position + i]? = some (some value) → o.Contains value)) := by
  have hreads := reads_fetch count alive p
  unfold eachBatch
  generalize (fetch count p).take alive = messages at hreads
  cases messages with
  | nil => exact .inl rfl
  | cons first rest =>
    have hlast := List.getLast?_eq_some_getLast (List.cons_ne_nil first rest)
    have hfirst := hreads.first first rfl
    have hoffset := hreads.last _ hlast
    simp only [List.head?_cons, hlast, hp, commitOffsetsIfNecessary_autoCommit, resolveOffset,
      hoffset, hfirst]
    by_cases hnil : lines (first :: rest) = []
    · refine .inr ⟨_, List.length_pos_of_ne_nil (List.cons_ne_nil first rest),
        hreads.length (List.cons_ne_nil _ _), .inl ⟨?_, ?_, fun i hi value hv => ?_⟩⟩
      · rw [if_pos hnil]
      · rw [if_pos hnil]
      · have := hreads.lines i hi value hv
        rw [hnil] at this
        cases this
    rw [if_neg hnil]
    have hwritten : ∀ i < (first :: rest).length, ∀ value,
        p.log[p.position + i]? = some (some value) →
        (batchObject (first :: rest)).Contains value := by
      intro i hi value hv
      have := infix_intercalate (hreads.lines i hi value hv)
      rwa [String.toList_ofList] at this
    cases put with
    | acked =>
      refine .inr ⟨_, List.length_pos_of_ne_nil (List.cons_ne_nil first rest),
        hreads.length (List.cons_ne_nil _ _),
        .inr ⟨batchObject (first :: rest), ?_, .inr ⟨?_, hwritten⟩⟩⟩
      · simp [SendResult.delivered]
      · simp [SendResult.delivered, hp]
    | failed delivered =>
      cases delivered with
      | false => exact .inl (by simp [SendResult.delivered])
      | true =>
        refine .inr ⟨_, List.length_pos_of_ne_nil (List.cons_ne_nil first rest),
          hreads.length (List.cons_ne_nil _ _), .inr ⟨batchObject (first :: rest), ?_, .inl ?_⟩⟩
        · simp [SendResult.delivered]
        · simp [SendResult.delivered]

end Batch

/-! ## Runs -/

section Runs

variable {s : System}

/-- What the consumer got past in a partition is in objects that no later batch writes again: a
batch writes the object of the position, and the position does not come back. -/
structure System.Archived (s : System) (place : Place) : Prop where
  joined : (s.parts place).joined ≤ (s.parts place).position
  position : (s.parts place).position ≤ (s.parts place).log.length
  committed : (s.parts place).committed = none
  objects : ∀ key o, key.place = place → s.objects key = some o →
    key.firstOffset < (s.parts place).log.length
  stored : ∀ i value, (s.parts place).joined ≤ i → i < (s.parts place).position →
    (s.parts place).log[i]? = some (some value) → ∃ key o, key.place = place ∧
      key.firstOffset < (s.parts place).position ∧ s.objects key = some o ∧ o.Contains value

theorem archived_append (hs : ∀ place, s.Archived place) (place₀ : Place)
    (value₀ : Option (List UInt8)) (place : Place) :
    (step s (.append place₀ value₀)).Archived place := by
  have h := hs place
  by_cases hplace : place = place₀
  · subst hplace
    have hparts : (step s (.append place value₀)).parts place =
        { s.parts place with log := (s.parts place).log ++ [value₀] } := Function.update_self ..
    refine ⟨?_, ?_, ?_, fun key o hk ho => ?_, fun i value hi hlt hv => ?_⟩ <;>
      rw [hparts] at *
    · exact h.joined
    · rw [List.length_append]
      exact h.position.trans (Nat.le_add_right _ _)
    · exact h.committed
    · rw [List.length_append]
      exact (h.objects key o hk ho).trans_le (Nat.le_add_right _ _)
    · rw [List.getElem?_append_left (hlt.trans_le h.position)] at hv
      exact h.stored i value hi hlt hv
  · have hparts : (step s (.append place₀ value₀)).parts place = s.parts place :=
      Function.update_of_ne hplace ..
    exact ⟨hparts ▸ h.joined, hparts ▸ h.position, hparts ▸ h.committed, hparts ▸ h.objects,
      hparts ▸ h.stored⟩

/-- A partition that a batch of another one leaves alone. -/
theorem System.Archived.other {s' : System} {place : Place} (h : s.Archived place)
    (hparts : s'.parts place = s.parts place)
    (hobjects : ∀ key, key.place = place → s'.objects key = s.objects key) : s'.Archived place := by
  refine ⟨hparts ▸ h.joined, hparts ▸ h.position, hparts ▸ h.committed, fun key o hk ho => ?_,
    fun i value hi hlt hv => ?_⟩
  · rw [hparts]
    exact h.objects key o hk (hobjects key hk ▸ ho)
  · rw [hparts] at hi hlt hv ⊢
    obtain ⟨key, o, hk, hkey, ho, hc⟩ := h.stored i value hi hlt hv
    exact ⟨key, o, hk, hkey, (hobjects key hk).trans ho, hc⟩

theorem archived_batch (hs : ∀ place, s.Archived place) (place₀ : Place)
    (count alive hour elapsed : ℕ) (put : SendResult) (place : Place) :
    (eachBatch place₀ (fetch count (s.parts place₀)) alive hour elapsed put s).Archived place := by
  have h := hs place
  have hcases := eachBatch_cases s place₀ count alive hour elapsed put rfl
  generalize eachBatch place₀ (fetch count (s.parts place₀)) alive hour elapsed put s = s' at hcases
  obtain rfl | ⟨n, hn, hlen, hcases⟩ := hcases
  · exact h
  by_cases hplace : place = place₀
  · subst hplace
    -- an object that holds what the consumer got past is not the one that is written
    have hkept : ∀ o', ∀ i value, (s.parts place).joined ≤ i → i < (s.parts place).position →
        (s.parts place).log[i]? = some (some value) → ∃ key o, key.place = place ∧
          key.firstOffset < (s.parts place).position ∧
          Function.update s.objects ⟨hour, place, (s.parts place).position⟩ (some o') key = some o ∧
          o.Contains value := by
      intro o' i value hi hlt hv
      obtain ⟨key, o, hk, hkey, ho, hc⟩ := h.stored i value hi hlt hv
      refine ⟨key, o, hk, hkey, ?_, hc⟩
      rw [Function.update_of_ne (by rintro rfl; exact lt_irrefl _ hkey)]
      exact ho
    have hkeys : ∀ o' key o, key.place = place →
        Function.update s.objects ⟨hour, place, (s.parts place).position⟩ (some o') key = some o →
        key.firstOffset < (s.parts place).log.length := by
      intro o' key o hk ho
      by_cases hkey : key = ⟨hour, place, (s.parts place).position⟩
      · subst hkey
        exact lt_of_lt_of_le (Nat.lt_add_of_pos_right hn) hlen
      · rw [Function.update_of_ne hkey] at ho
        exact h.objects key o hk ho
    rcases hcases with ⟨hobjects, hparts, hnull⟩ | ⟨o', hobjects, hparts | ⟨hparts, hall⟩⟩
    · have hp := (congrFun hparts place).trans (Function.update_self ..)
      refine ⟨?_, ?_, ?_, fun key o hk ho => ?_, fun i value hi hlt hv => ?_⟩ <;> rw [hp] at *
      · exact h.joined.trans (Nat.le_add_right _ _)
      · exact hlen
      · exact h.committed
      · exact h.objects key o hk (hobjects ▸ ho)
      · rcases lt_or_ge i (s.parts place).position with hlt' | hge
        · obtain ⟨key, o, hk, hkey, ho, hc⟩ := h.stored i value hi hlt' hv
          exact ⟨key, o, hk, hkey.trans_le (Nat.le_add_right _ _), hobjects ▸ ho, hc⟩
        · obtain ⟨j, rfl⟩ := Nat.exists_eq_add_of_le hge
          exact absurd hv (hnull j (by simpa using hlt) value)
    · have hp := congrFun hparts place
      refine ⟨hp ▸ h.joined, hp ▸ h.position, hp ▸ h.committed, ?_, ?_⟩ <;> rw [hp, hobjects]
      · exact hkeys o'
      · exact hkept o'
    · have hp := (congrFun hparts place).trans (Function.update_self ..)
      refine ⟨?_, ?_, ?_, ?_, fun i value hi hlt hv => ?_⟩ <;> rw [hp] at *
      · exact h.joined.trans (Nat.le_add_right _ _)
      · exact hlen
      · exact h.committed
      · rw [hobjects]
        exact hkeys o'
      · rw [hobjects]
        rcases lt_or_ge i (s.parts place).position with hlt' | hge
        · obtain ⟨key, o, hk, hkey, ho, hc⟩ := hkept o' i value hi hlt' hv
          exact ⟨key, o, hk, hkey.trans_le (Nat.le_add_right _ _), ho, hc⟩
        · obtain ⟨j, rfl⟩ := Nat.exists_eq_add_of_le hge
          exact ⟨⟨hour, place, (s.parts place).position⟩, o', rfl, Nat.lt_add_of_pos_right hn,
            Function.update_self .., hall j (by simpa using hlt) value hv⟩
  · have hupdate : ∀ p, Function.update s.parts place₀ p place = s.parts place :=
      fun p => Function.update_of_ne hplace ..
    refine h.other ?_ fun key hk => ?_
    · rcases hcases with ⟨-, hparts, -⟩ | ⟨-, -, hparts | ⟨hparts, -⟩⟩ <;> rw [hparts]
      · exact hupdate _
      · exact hupdate _
    · rcases hcases with ⟨hobjects, -⟩ | ⟨o', hobjects, -⟩ <;> rw [hobjects]
      rw [Function.update_of_ne]
      rintro rfl
      exact hplace hk.symm

theorem archived_restart (hs : ∀ place, s.Archived place)
    (hc : Covered s .restart) (place : Place) :
    (step s .restart).Archived place := by
  have h := hs place
  have hparts : (step s .restart).parts place =
      { s.parts place with position := (s.parts place).log.length } := by
    change start (s.parts place) = _
    simp [start, h.committed]
  refine ⟨?_, ?_, ?_, fun key o hk ho => ?_, fun i value hi hlt hv => ?_⟩ <;> rw [hparts] at *
  · exact h.joined.trans h.position
  · exact h.committed
  · exact h.objects key o hk ho
  · rcases lt_or_ge i (s.parts place).position with hlt' | hge
    · obtain ⟨key, o, hk, hkey, ho, hc⟩ := h.stored i value hi hlt' hv
      exact ⟨key, o, hk, hkey.trans_le h.position, ho, hc⟩
    · obtain ⟨key, o, hk, ho, hcont⟩ := hc place i value hge hv
      exact ⟨key, o, hk, h.objects key o hk ho, ho, hcont⟩

/-- **One step.** -/
theorem archived_step (s : System) (st : Step)
    (hs : ∀ place, s.Archived place) (hc : Covered s st) :
    ∀ place, (step s st).Archived place := by
  intro place
  cases st with
  | append place₀ value => exact archived_append hs place₀ value place
  | batch place₀ count alive hour elapsed put =>
    simp only [step]
    split
    · exact archived_batch hs place₀ count alive hour elapsed put place
    · exact hs place
  | restart => exact archived_restart hs hc place

theorem System.Joined.archived (h : s.Joined) (place : Place) : s.Archived place where
  joined := (h.joined place).trans (h.position place).symm |>.le
  position := (h.position place).le
  committed := h.committed place
  objects key o _ ho := by
    rw [h.objects key] at ho
    cases ho
  stored i value hi hlt _ := by
    rw [h.joined] at hi
    rw [h.position] at hlt
    exact absurd hlt (not_lt.mpr hi)

/-- **The audit log is complete** whenever the consumer has caught up with a partition, in every run
in which the process starts again only when all messages past its positions are in objects. -/
theorem audit_complete (h : s.Joined) (steps : List Step)
    (hc : Justified (fun before st => Covered (run s before) st) steps) (place : Place)
    (hcaught : ((run s steps).parts place).position = ((run s steps).parts place).log.length) :
    (run s steps).Complete place := by
  have harch : ∀ place, (run s steps).Archived place := hc.invariant archived_step h.archived
  intro i value hi hv
  have hlt : i < ((run s steps).parts place).log.length := (List.getElem?_eq_some_iff.mp hv).1
  obtain ⟨key, o, -, -, ho, hcont⟩ := (harch place).stored i value hi (hcaught ▸ hlt) hv
  exact ⟨key, o, ho, hcont⟩

end Runs

namespace AuditSample

/-- A group that has just joined empty topics. -/
def joined : System := ⟨fun _ => ⟨[], 0, 0, none⟩, fun _ => none⟩

theorem joined_joined : joined.Joined := ⟨fun _ => rfl, fun _ => rfl, fun _ => rfl, fun _ => rfl⟩

def trades : Place := ⟨.TRADES, 0⟩

/-- `{}`. -/
def value : List UInt8 := [123, 125]

/-- The first put of a message fails, and the second succeeds. -/
def retried : List Step :=
  [.append trades (some value), .batch trades 10 10 0 0 (.failed true),
    .batch trades 10 10 1 0 .acked]

/-- The process starts again before the message is fetched. -/
def restarted : List Step := [.append trades (some value), .restart]

end AuditSample

open AuditSample

/-- The consumer has caught up and the message is in an object. -/
theorem audit_complete_retried : joined.Joined ∧
    Justified (fun before st => Covered (run joined before) st) retried ∧
    ((run joined retried).parts trades).position = 1 ∧ (run joined retried).Complete trades := by
  have hc : Justified (fun before st => Covered (run joined before) st) retried := by
    simp only [retried, justified_cons, justified_nil, and_true]
    exact ⟨trivial, trivial, trivial⟩
  exact ⟨joined_joined, hc, by decide +kernel,
    audit_complete joined_joined retried hc trades (by decide +kernel)⟩

/-- **A message that is in no object**: nothing was committed, so that the
consumer starts after it. -/
theorem audit_loses_message : joined.Joined ∧
    ((run joined restarted).parts trades).position =
      ((run joined restarted).parts trades).log.length ∧
    ((run joined restarted).parts trades).joined = 0 ∧
    ((run joined restarted).parts trades).log[0]? = some (some value) ∧
    ¬(run joined restarted).Complete trades := by
  refine ⟨joined_joined, by decide +kernel, by decide +kernel, by decide +kernel, fun h => ?_⟩
  obtain ⟨key, o, ho, -⟩ := h 0 value (Nat.zero_le _) (by decide +kernel)
  cases ho

end Orbit.AuditLogger
