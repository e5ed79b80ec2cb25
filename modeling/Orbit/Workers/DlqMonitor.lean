import Orbit.Foundations.History
import Orbit.Workers.RetryPolicy

/-!
# The mirror of the dead letter queue

`runDlqMonitor` of `apps/workers/src/dlq-monitor/index.ts`, which writes a row of `DlqEvent` for
every message of the dead letter topic, with the columns it reads out of the headers. A `create`
that fails is logged, and the handler returns, so that the offset advances all the same.

`Create` says how the `create` ends; one that reaches Postgres is refused if a column does not
take its value (`Data.Fits`). A crash in the handler is a `crash` step, after which the
message is delivered again.

* `mirror_iff`: in a run every delivery of a message leaves a row with its payload and headers, and
  one more row if Postgres is available, exactly when for each of them the data fit the columns and
  the insert is done, or the insert fails and the row is there already.
-/

namespace Orbit.Dlq

open Table RetryPolicy

inductive Resolution
  | replayed
  | dismissed
  deriving DecidableEq, Repr

/-- A row; `headers` is the JSON column. -/
structure DlqEvent where
  id : ℕ
  originalTopic : String
  originalPartition : ℤ
  originalOffset : String
  payload : List UInt8
  headers : List Header
  worker : String
  lastError : String
  attempt : ℤ
  replayedFromId : Option ℕ
  /-- With `resolvedAt`, which is set together with it. -/
  resolution : Option Resolution
  resolvedBy : Option String
  deriving DecidableEq, Repr

/-! ## The columns -/

/-- What `parseInt` skips. -/
def isWhiteSpace (c : Char) : Bool :=
  (0x09 ≤ c.toNat ∧ c.toNat ≤ 0x0D) ∨ (0x2000 ≤ c.toNat ∧ c.toNat ≤ 0x200A) ∨
    c.toNat ∈ [0x20, 0xA0, 0x1680, 0x2028, 0x2029, 0x202F, 0x205F, 0x3000, 0xFEFF]

/-- The digits at the front of a text, `none` if there are none. -/
def leadingDigits (cs : List Char) : Option ℕ :=
  match cs.takeWhile Char.isDigit with
  | [] => none
  | ds => some (Nat.ofDigitChars 10 ds 0)

/-- `parseInt(raw, 10)`; `none` is `NaN`. -/
def parseInt (raw : String) : Option ℤ :=
  match raw.toList.dropWhile isWhiteSpace with
  | '-' :: ds => (leadingDigits ds).map fun n => -(n : ℤ)
  | '+' :: ds => (leadingDigits ds).map Int.ofNat
  | ds => (leadingDigits ds).map Int.ofNat

/-- The id of the row whose replay the message comes from: a header of digits only. -/
def replayedFrom (headers : List Header) : Option ℕ :=
  match readHeader headers "x-orbit-replay-of" with
  | none => none
  | some raw => if raw = "" then none else number raw

/-- The data of a row before it is written. -/
structure Data where
  originalTopic : String
  originalPartition : Option ℤ
  originalOffset : String
  payload : List UInt8
  headers : List Header
  worker : String
  lastError : String
  attempt : Option ℤ
  replayedFromId : Option ℕ
  deriving DecidableEq, Repr

/-- The `data` of the `create`, for a message with a value. -/
def data (r : Record) (value : List UInt8) : Data :=
  let headers := materializeHeaders r.message.headers
  let header (name default : String) : String := (readHeader headers name).getD default
  { originalTopic := header "x-orbit-original-topic" r.topic
    originalPartition := parseInt (header "x-orbit-original-partition" (Nat.repr r.partition))
    originalOffset := header "x-orbit-original-offset" (Nat.repr r.offset)
    payload := value
    headers
    worker := header "x-orbit-worker" "unknown"
    lastError := header "x-orbit-last-error" "(no error header)"
    attempt := parseInt (header "x-orbit-attempt" "0")
    replayedFromId := replayedFrom headers }

/-- A value of a Prisma `Int`. -/
def FitsInt (x : ℤ) : Prop := -2 ^ 31 ≤ x ∧ x < 2 ^ 31

/-- A text that Postgres stores: it has no character U+0000. -/
def FitsText (s : String) : Prop := ∀ c ∈ s.toList, c.toNat ≠ 0

/-- Every column takes its value. -/
structure Data.Fits (d : Data) : Prop where
  partition : ∃ x ∈ d.originalPartition, FitsInt x
  attempt : ∃ x ∈ d.attempt, FitsInt x
  replayedFromId : ∀ n ∈ d.replayedFromId, n < 2 ^ 63
  texts : ∀ s ∈ [d.originalTopic, d.originalOffset, d.worker, d.lastError], FitsText s
  headers : ∀ h ∈ d.headers, FitsText h.name ∧ ∀ s ∈ readHeader [h] h.name, FitsText s

instance (x : ℤ) : Decidable (FitsInt x) := inferInstanceAs (Decidable (_ ∧ _))
instance (s : String) : Decidable (FitsText s) := List.decidableBAll _ s.toList

instance (o : Option ℤ) : Decidable (∃ x ∈ o, FitsInt x) :=
  match o with
  | none => isFalse fun ⟨_, h, _⟩ => nomatch h
  | some x => decidable_of_iff (FitsInt x) ⟨fun h => ⟨x, rfl, h⟩,
      fun ⟨_, e, h⟩ => Option.some.inj e ▸ h⟩

instance (d : Data) : Decidable d.Fits :=
  decidable_of_iff
    ((∃ x ∈ d.originalPartition, FitsInt x) ∧ (∃ x ∈ d.attempt, FitsInt x) ∧
      (∀ n ∈ d.replayedFromId, n < 2 ^ 63) ∧
      (∀ s ∈ [d.originalTopic, d.originalOffset, d.worker, d.lastError], FitsText s) ∧
      ∀ h ∈ d.headers, FitsText h.name ∧ ∀ s ∈ readHeader [h] h.name, FitsText s)
    ⟨fun ⟨h₁, h₂, h₃, h₄, h₅⟩ => ⟨h₁, h₂, h₃, h₄, h₅⟩,
      fun h => ⟨h.partition, h.attempt, h.replayedFromId, h.texts, h.headers⟩⟩

/-! ## The worker -/

/-- How the call of `create` ends, as far as the connection goes. -/
inductive Create
  | answered
  /-- It throws; the insert may have been done all the same. -/
  | failed (inserted : Bool)
  deriving DecidableEq, Repr

/-- Whether the insert reaches the table. -/
def Create.reached : Create → Bool
  | .answered => true
  | .failed inserted => inserted

/-- The table, with the next value of its sequence. -/
structure Mirror where
  rows : List DlqEvent
  nextId : ℕ
  deriving DecidableEq, Repr

/-- The row of the data. -/
def Data.row (d : Data) (id : ℕ) : DlqEvent where
  id := id
  originalTopic := d.originalTopic
  originalPartition := d.originalPartition.getD 0
  originalOffset := d.originalOffset
  payload := d.payload
  headers := d.headers
  worker := d.worker
  lastError := d.lastError
  attempt := d.attempt.getD 0
  replayedFromId := d.replayedFromId
  resolution := none
  resolvedBy := none

/-- The insert, if Postgres takes it. -/
def insert (d : Data) (s : Mirror) : Mirror :=
  if d.Fits then ⟨s.rows ++ [d.row s.nextId], s.nextId + 1⟩ else { s with nextId := s.nextId + 1 }

/-- `eachMessage`. It returns normally however `create` ends. -/
def eachMessage (r : Record) (c : Create) (s : Mirror) : Mirror :=
  match r.message.value with
  | none => s
  | some value => if c.reached then insert (data r value) s else s

inductive Step
  /-- The handler is called and returns. -/
  | deliver (r : Record) (c : Create)
  /-- The process dies in the handler. -/
  | crash (r : Record) (inserted : Bool)
  deriving DecidableEq, Repr

def step (s : Mirror) : Step → Mirror
  | .deliver r c => eachMessage r c s
  | .crash r inserted => eachMessage r (.failed inserted) s

def run (s : Mirror) (steps : List Step) : Mirror := steps.foldl step s

/-- The row carries the payload and the headers of the message. -/
def DlqEvent.Carries (row : DlqEvent) (r : Record) : Prop :=
  some row.payload = r.message.value ∧ row.headers = materializeHeaders r.message.headers

instance (row : DlqEvent) (r : Record) : Decidable (row.Carries r) :=
  inferInstanceAs (Decidable (_ ∧ _))

/-- **The delivery is mirrored**: when the handler returns there is a row with the payload and the
headers of the message, and if Postgres was available the delivery has added exactly that row. -/
def Mirrored (s : Mirror) : Step → Prop
  | .deliver r c => r.message.value ≠ none →
      (∃ row ∈ (eachMessage r c s).rows, row.Carries r) ∧
      (c = .answered → ∃ row, (eachMessage r c s).rows = s.rows ++ [row] ∧ row.Carries r)
  | .crash _ _ => True

/-- The condition on a delivery: the data fit the columns and the insert is done, or the call fails
and the row is there already. -/
def Insertable (s : Mirror) : Step → Prop
  | .deliver r c => ∀ value ∈ r.message.value,
      (data r value).Fits ∧ c.reached = true ∨ c ≠ .answered ∧ ∃ row ∈ s.rows, row.Carries r
  | .crash _ _ => True

section Mirror

variable {s : Mirror} {r : Record} {value : List UInt8} {c : Create}

theorem carries_row (hv : r.message.value = some value) (id : ℕ) :
    ((data r value).row id).Carries r :=
  ⟨hv.symm, rfl⟩

/-- **What a delivery can do**: add the row of the message, or leave the rows. -/
theorem rows_eachMessage (hv : r.message.value = some value) :
    (eachMessage r c s).rows =
      if (data r value).Fits ∧ c.reached = true then s.rows ++ [(data r value).row s.nextId]
      else s.rows := by
  simp only [eachMessage, hv, insert]
  by_cases hfits : (data r value).Fits <;> by_cases hc : c.reached = true <;> simp [hfits, hc]

/-- One delivery. -/
theorem mirrored_iff (s : Mirror) (st : Step) : Mirrored s st ↔ Insertable s st := by
  cases st with
  | crash r inserted => exact Iff.rfl
  | deliver r c =>
    cases hv : r.message.value with
    | none => simp [Mirrored, Insertable, hv]
    | some value =>
      have hrow := carries_row (r := r) hv s.nextId
      simp only [Mirrored, Insertable, hv, ne_eq, reduceCtorEq, not_false_eq_true, forall_const,
        Option.mem_def, Option.some.injEq, forall_eq', rows_eachMessage hv]
      by_cases hin : (data r value).Fits ∧ c.reached = true
      · rw [if_pos hin]
        exact ⟨fun _ => .inl hin, fun _ => ⟨⟨_, by simp, hrow⟩, fun _ => ⟨_, rfl, hrow⟩⟩⟩
      · rw [if_neg hin]
        constructor
        · rintro ⟨hex, hone⟩
          refine .inr ⟨fun hc => ?_, hex⟩
          obtain ⟨row, heq, -⟩ := hone hc
          simp at heq
        · rintro (h | ⟨hc, hex⟩)
          · exact absurd h hin
          · exact ⟨hex, fun hc' => absurd hc' hc⟩

end Mirror

/-- **The mirror is complete** in exactly the runs in which every delivered message fits the columns
and is inserted, or has its row already. -/
theorem mirror_iff (s : Mirror) (steps : List Step) :
    Justified (fun before st => Mirrored (run s before) st) steps ↔
      Justified (fun before st => Insertable (run s before) st) steps := by
  unfold Justified
  simp only [mirrored_iff]

namespace LetterSample

/-- A message of the dead letter topic. -/
def letter (headers : List Header) : Record :=
    ⟨DEFAULT_DLQ_TOPIC, 0, 5, ⟨none, some [123, 125], headers⟩⟩

end LetterSample

open LetterSample

/-- **Two messages without a row**: Postgres is down for the first, and the header `x-orbit-attempt`
of the second is no number. -/
theorem mirror_misses :
    ¬Justified (fun before st => Mirrored (run ⟨[], 1⟩ before) st)
    [.deliver (letter []) (.failed false)] ∧
    ¬Justified (fun before st => Mirrored (run ⟨[], 1⟩ before) st)
      [.deliver (letter [⟨"x-orbit-attempt", .text "x"⟩]) .answered] ∧
    (run ⟨[], 1⟩ [.deliver (letter []) (.failed false)]).rows = [] ∧
    (run ⟨[], 1⟩ [.deliver (letter [⟨"x-orbit-attempt", .text "x"⟩]) .answered]).rows = [] := by
  have h₁ : (run ⟨[], 1⟩ [.deliver (letter []) (.failed false)]).rows = [] := by decide +kernel
  have h₂ : (run ⟨[], 1⟩ [.deliver (letter [⟨"x-orbit-attempt", .text "x"⟩]) .answered]).rows =
      [] := by
    decide +kernel
  refine ⟨fun h => ?_, fun h => ?_, h₁, h₂⟩
  · obtain ⟨⟨row, hrow, -⟩, -⟩ := h [] _ [] rfl (by decide)
    exact absurd (h₁ ▸ hrow) List.not_mem_nil
  · obtain ⟨⟨row, hrow, -⟩, -⟩ := h [] _ [] rfl (by decide)
    exact absurd (h₂ ▸ hrow) List.not_mem_nil

end Orbit.Dlq
