import Mathlib.Data.List.Induction
import Mathlib.Tactic.Ring
import Orbit.Api.Admin
import Orbit.Api.OrderService
import Orbit.Foundations.History

/-!
# One wallet row under concurrent transactions

The transactions that write to wallets, statement by statement, at the isolation level
`ReadCommitted`: a `SELECT` sees the committed row, an `UPDATE` waits until no other transaction has
an uncommitted version of it and then works on the committed one, and what a transaction wrote is
seen by others when it commits. `Relative` are the updates of `atomicLock`, `settleTrades` and
`settleCancel`, which say by how much a field changes; `adjust` reads the row, computes the new
value of a field and writes it.

The statements are those of the other modules, on the row alone (`walletUpdate_row`,
`atomicLockUpdate_row`, `setWallet_row`).

* `adjust_no_lost_update_iff`: in every state of a run the committed row is the initial one plus
  what the committed transactions add, exactly when every `adjust` that commits had read the value
  that its field still has then.
-/

namespace Orbit.WalletRow

open Admin

/-- An update of the row relative to what it holds. -/
inductive Relative
  /-- An update with increments: `settleTrades`, `settleCancel` and the refunds. -/
  | increment (balance locked : ℚ)
  /-- The guarded update of `atomicLock`. -/
  | lock (amt : ℚ)
  deriving DecidableEq, Repr

/-- What a transaction does to the row. -/
inductive Operation
  | relative (updates : List Relative)
  | adjust (field : WalletField) (delta : ℚ)
  deriving DecidableEq, Repr

inductive Statement
  | update (u : Relative)
  /-- `findUnique` of `adjust`, and its check of the result. -/
  | read (field : WalletField) (delta : ℚ)
  /-- `update` of `adjust`, with the value computed from what was read. -/
  | write (field : WalletField) (delta : ℚ)
  deriving DecidableEq, Repr

def Operation.statements : Operation → List Statement
  | .relative us => us.map .update
  | .adjust field delta => [.read field delta, .write field delta]

/-- An update of the row, or the reason why it is refused. -/
def Relative.apply (w : Wallet) : Relative → Except Failure Wallet
  | .increment balance locked =>
    if (w.increment balance locked).NonNegative then .ok (w.increment balance locked)
    else .error .checkViolation
  | .lock amt =>
    if amt ≤ w.balance then
      if (w.increment (-amt) amt).NonNegative then .ok (w.increment (-amt) amt)
      else .error .checkViolation
    else .error (.badRequest "insufficient balance")

/-- The `UPDATE` of `adjust` on the row. -/
def setRow (field : WalletField) (value : ℚ) (w : Wallet) : Except Failure Wallet :=
  if (setField field value w).NonNegative then .ok (setField field value w)
  else .error .checkViolation

/-! ## The statements of the tables -/

section Tables

variable {db : Db} {userId asset : String} {w : Wallet}

/-- A rewrite of the row of a wallet. -/
theorem wallet?_modify (hw : db.wallet? userId asset = some w) {f : Wallet → Wallet}
    (hf : ∀ w, Table.key (f w) = Table.key w) :
    ({ db with wallets := Table.modify (userId, asset) f db.wallets } : Db).wallet? userId asset =
      some (f w) := by
  unfold Db.wallet? at hw ⊢
  rw [Table.find?_modify_self hf, hw, Option.map_some]

theorem walletUpdate_row (hw : db.wallet? userId asset = some w) (b l : ℚ) :
    (db.walletUpdate userId asset b l).map (·.wallet? userId asset) =
      (Relative.apply w (.increment b l)).map some := by
  simp only [Db.walletUpdate, hw, Relative.apply]
  split
  · exact congrArg Except.ok (wallet?_modify hw fun _ => rfl)
  · rfl

theorem atomicLockUpdate_row (hw : db.wallet? userId asset = some w) (amt : ℚ) :
    (OrderService.atomicLockUpdate userId asset amt db).map (·.wallet? userId asset) =
      (Relative.apply w (.lock amt)).map some := by
  have := walletUpdate_row hw (-amt) amt
  simp only [OrderService.atomicLockUpdate, hw, Relative.apply] at this ⊢
  split
  · exact this
  · rfl

theorem setWallet_row (hw : db.wallet? userId asset = some w) (field : WalletField) (value : ℚ) :
    (setWallet userId asset field value db).map (·.wallet? userId asset) =
      (setRow field value w).map some := by
  simp only [setWallet, hw, setRow]
  split
  · refine congrArg Except.ok (wallet?_modify hw fun w => ?_)
    cases field <;> rfl
  · rfl

end Tables

/-! ## Transactions -/

inductive Status
  | active
  | committed
  | aborted
  deriving DecidableEq, Repr

/-- A transaction: what it does, the statements it still has to make, and what `adjust` read. -/
structure Session where
  op : Operation
  todo : List Statement
  read : Option ℚ
  status : Status
  deriving DecidableEq, Repr

/-- The row. `holder` is the transaction that has an uncommitted version of it, and that version;
`log` are the operations that committed, oldest first. -/
structure Row where
  committed : Wallet
  holder : Option (ℕ × Wallet)
  sessions : List Session
  log : List Operation
  deriving DecidableEq, Repr

/-- The version that transaction `i` sees. -/
def Row.visible (s : Row) (i : ℕ) : Wallet :=
  match s.holder with
  | some (j, w) => if j = i then w else s.committed
  | none => s.committed

/-- Another transaction has an uncommitted version. -/
def Row.blocked (s : Row) (i : ℕ) : Bool :=
  match s.holder with
  | some (j, _) => j ≠ i
  | none => false

/-- Transaction `i` ends without effect. -/
def Row.abort (s : Row) (i : ℕ) (x : Session) : Row :=
  { s with
    holder := s.holder.filter fun h => h.1 ≠ i
    sessions := s.sessions.set i { x with status := .aborted } }

/-- Transaction `i` writes a version of the row, or is refused and ends. -/
def Row.write (s : Row) (i : ℕ) (x : Session) (todo : List Statement) :
    Except Failure Wallet → Row
  | .ok w => { s with holder := some (i, w), sessions := s.sessions.set i { x with todo } }
  | .error _ => s.abort i x

inductive Step
  /-- A transaction begins. -/
  | start (op : Operation)
  /-- Transaction `i` makes its next statement, or keeps waiting for the row. -/
  | exec (i : ℕ)
  | commit (i : ℕ)
  /-- Transaction `i` fails for a reason outside of the row. -/
  | abort (i : ℕ)
  deriving DecidableEq, Repr

/-- The next statement of a transaction. -/
def Row.exec (s : Row) (i : ℕ) (x : Session) : Row :=
  match x.todo with
  | [] => s
  | .read field delta :: todo =>
    let value := getField field (s.visible i)
    if value + delta < 0 then s.abort i x
    else { s with sessions := s.sessions.set i { x with todo, read := some value } }
  | .update u :: todo =>
    if s.blocked i then s else s.write i x todo (u.apply (s.visible i))
  | .write field delta :: todo =>
    if s.blocked i then s
    else s.write i x todo (setRow field (x.read.getD 0 + delta) (s.visible i))

def step (s : Row) : Step → Row
  | .start op => { s with sessions := s.sessions ++ [⟨op, op.statements, none, .active⟩] }
  | .exec i =>
    match s.sessions[i]? with
    | some x => if x.status = .active then s.exec i x else s
    | none => s
  | .commit i =>
    match s.sessions[i]? with
    | some x =>
      if x.status = .active ∧ x.todo = [] then
        { committed := s.visible i
          holder := s.holder.filter fun h => h.1 ≠ i
          sessions := s.sessions.set i { x with status := .committed }
          log := s.log ++ [x.op] }
      else s
    | none => s
  | .abort i =>
    match s.sessions[i]? with
    | some x => if x.status = .active then s.abort i x else s
    | none => s

def run (s : Row) (steps : List Step) : Row := steps.foldl step s

/-- A row that no transaction works on. -/
def Row.quiet (w : Wallet) : Row := ⟨w, none, [], []⟩

/-! ## What the transactions add -/

def Relative.delta : Relative → WalletField → ℚ
  | .increment balance _, .balance => balance
  | .increment _ locked, .locked => locked
  | .lock amt, .balance => -amt
  | .lock amt, .locked => amt

/-- What an operation is to add to a field. -/
def Operation.delta : Operation → WalletField → ℚ
  | .relative us, field => (us.map (·.delta field)).sum
  | .adjust field' delta, field => if field = field' then delta else 0

/-- **No update is lost**: the committed row is the initial one plus what the committed operations
add. -/
def Row.Exact (w : Wallet) (s : Row) : Prop :=
  ∀ field, getField field s.committed = getField field w + (s.log.map (·.delta field)).sum

/-- The condition on a step: an `adjust` that commits had read the value that its field has. -/
def Fresh (s : Row) : Step → Prop
  | .commit i => ∀ x ∈ s.sessions[i]?, x.status = .active → x.todo = [] →
      ∀ field delta, x.op = .adjust field delta → x.read = some (getField field s.committed)
  | .start _ => True
  | .exec _ => True
  | .abort _ => True

@[simp] theorem getField_increment (b l : ℚ) (w : Wallet) (field : WalletField) :
    getField field (w.increment b l) =
      getField field w + Relative.delta (.increment b l) field := by
  cases field <;> rfl

@[simp] theorem getField_setField (field' : WalletField) (v : ℚ)
    (w : Wallet) (field : WalletField) :
    getField field (setField field' v w) = if field = field' then v else getField field w := by
  cases field <;> cases field' <;> rfl

/-- An update that is carried out adds its delta. -/
theorem Relative.apply_ok {u : Relative} {w w' : Wallet} (h : u.apply w = .ok w')
    (field : WalletField) : getField field w' = getField field w + u.delta field := by
  cases u with
  | increment b l =>
    simp only [Relative.apply] at h
    split at h
    · cases h
      exact getField_increment b l w field
    · cases h
  | lock amt =>
    simp only [Relative.apply] at h
    split at h
    · split at h
      · cases h
        cases field <;> rfl
      · cases h
    · cases h

theorem setRow_ok {field : WalletField} {v : ℚ} {w w' : Wallet} (h : setRow field v w = .ok w') :
    w' = setField field v w := by
  unfold setRow at h
  split at h
  · cases h
    rfl
  · cases h

/-! ## The state of a transaction -/

/-- A transaction that has not written to the row: at its first statement, or an `adjust` that has
read. -/
inductive Untouched : Session → Prop
  | start {op : Operation} {read : Option ℚ} {status : Status} :
      Untouched ⟨op, op.statements, read, status⟩
  | read {field : WalletField} {delta v : ℚ} {status : Status} :
      Untouched ⟨.adjust field delta, [.write field delta], some v, status⟩

/-- A transaction whose version of the committed row `c` is `w`. -/
inductive Touched (c w : Wallet) : Session → Prop
  | relative {done rest : List Relative} {read : Option ℚ} {status : Status}
      (h : ∀ field, getField field w = getField field c + (done.map (·.delta field)).sum) :
      Touched c w ⟨.relative (done ++ rest), rest.map .update, read, status⟩
  | adjust {field : WalletField} {delta v : ℚ} {status : Status}
      (h : w = setField field (v + delta) c) :
      Touched c w ⟨.adjust field delta, [], some v, status⟩

/-- The row and its transactions fit together. -/
structure Row.Consistent (s : Row) : Prop where
  untouched : ∀ i x, s.sessions[i]? = some x → x.status = .active →
    (∀ w, s.holder ≠ some (i, w)) → Untouched x
  touched : ∀ i w, s.holder = some (i, w) →
    ∃ x, s.sessions[i]? = some x ∧ x.status = .active ∧ Touched s.committed w x

section Steps

variable {s : Row} {i : ℕ} {x : Session}

theorem visible_of_holder {w : Wallet} (h : s.holder = some (i, w)) : s.visible i = w := by
  simp only [Row.visible, h, if_true]

theorem visible_of_not_holder (h : ∀ w, s.holder ≠ some (i, w)) : s.visible i = s.committed := by
  unfold Row.visible
  split
  · rename_i j w hj
    rw [if_neg]
    rintro rfl
    exact h w hj
  · rfl

theorem holder_of_not_blocked (h : s.blocked i = false) {j : ℕ} {w : Wallet}
    (hj : s.holder = some (j, w)) : j = i := by
  simpa [Row.blocked, hj] using h

/-- A transaction ends: nobody else is concerned. -/
theorem Row.Consistent.finish (hs : s.Consistent) {x' : Session} (hx' : x'.status ≠ .active)
    {c : Wallet} {log : List Operation}
    (hc : ∀ j w, s.holder = some (j, w) → j ≠ i → c = s.committed) :
    (⟨c, s.holder.filter fun h => h.1 ≠ i, s.sessions.set i x', log⟩ : Row).Consistent := by
  have hfilter : ∀ {j w}, j ≠ i → s.holder = some (j, w) →
      (s.holder.filter fun h => h.1 ≠ i) = some (j, w) := by
    intro j w hne hj
    rw [hj]
    simp [Option.filter, hne]
  refine ⟨fun j y hy hact hhold => ?_, fun j w hj => ?_⟩
  · rw [List.getElem?_set] at hy
    split at hy
    · split at hy
      · cases hy
        exact absurd hact hx'
      · cases hy
    · rename_i hij
      exact hs.untouched j y hy hact fun w hw => hhold w (hfilter (Ne.symm hij) hw)
  · obtain ⟨hj, hne⟩ := Option.filter_eq_some_iff.mp hj
    have hne : j ≠ i := by simpa using hne
    obtain ⟨y, hy, hact, htouched⟩ := hs.touched j w hj
    refine ⟨y, ?_, hact, ?_⟩
    · rwa [List.getElem?_set_ne (Ne.symm hne)]
    · rwa [hc j w hj hne]

/-- A transaction that may write to the row does. -/
theorem Row.Consistent.hold (hs : s.Consistent) (hi : s.sessions[i]? = some x)
    (hfree : s.blocked i = false) {x' : Session} (hact' : x'.status = .active) {w : Wallet}
    (htouched : Touched s.committed w x') :
    ({ s with holder := some (i, w), sessions := s.sessions.set i x' } : Row).Consistent := by
  have hlt : i < s.sessions.length := (List.getElem?_eq_some_iff.mp hi).1
  refine ⟨fun j y hy hact hhold => ?_, fun j w' hj => ?_⟩
  · have hij : i ≠ j := by
      rintro rfl
      exact hhold w rfl
    rw [List.getElem?_set_ne hij] at hy
    refine hs.untouched j y hy hact fun w' hw' => hij (holder_of_not_blocked hfree hw').symm
  · obtain ⟨rfl, rfl⟩ : i = j ∧ w = w' := by simpa using hj
    exact ⟨x', List.getElem?_set_self hlt, hact', htouched⟩

/-- A transaction moves on without having written to the row. -/
theorem Row.Consistent.wait (hs : s.Consistent) (hhold : ∀ w, s.holder ≠ some (i, w)) {x' : Session}
    (huntouched : Untouched x') :
    ({ s with sessions := s.sessions.set i x' } : Row).Consistent := by
  refine ⟨fun j y hy hact hhold' => ?_, fun j w hj => ?_⟩
  · rw [List.getElem?_set] at hy
    split at hy
    · split at hy
      · cases hy
        exact huntouched
      · cases hy
    · exact hs.untouched j y hy hact hhold'
  · have hij : i ≠ j := by
      rintro rfl
      exact hhold w hj
    obtain ⟨y, hy, hact, htouched⟩ := hs.touched j w hj
    exact ⟨y, by rwa [List.getElem?_set_ne hij], hact, htouched⟩

theorem consistent_abort (hs : s.Consistent) : (s.abort i x).Consistent :=
  hs.finish (by simp) fun _ _ _ _ => rfl

theorem consistent_write (hs : s.Consistent) (hi : s.sessions[i]? = some x)
    (hact : x.status = .active) (hfree : s.blocked i = false) {todo : List Statement}
    {r : Except Failure Wallet} (h : ∀ w, r = .ok w → Touched s.committed w { x with todo }) :
    (s.write i x todo r).Consistent := by
  cases r with
  | ok w =>
    have hact' : ({ x with todo } : Session).status = .active := hact
    exact hs.hold hi hfree hact' (h w rfl)
  | error e => exact consistent_abort hs

theorem holds_or_not (s : Row) (i : ℕ) : (∃ w, s.holder = some (i, w)) ∨
    ∀ w, s.holder ≠ some (i, w) := by
  by_cases h : ∃ w, s.holder = some (i, w)
  · exact .inl h
  · exact .inr fun w hw => h ⟨w, hw⟩

/-- **The next statement of a transaction.** -/
theorem consistent_exec (hs : s.Consistent) (hi : s.sessions[i]? = some x)
    (hact : x.status = .active) : (s.exec i x).Consistent := by
  rcases holds_or_not s i with ⟨w, hw⟩ | hno
  · -- it has written before: an update relative to its own version
    obtain ⟨y, hy, -, htouched⟩ := hs.touched i w hw
    obtain rfl := Option.some.inj (hi.symm.trans hy)
    cases htouched with
    | adjust h => exact hs
    | relative h =>
      rename_i done rest read status
      cases rest with
      | nil => exact hs
      | cons u rest =>
        simp only [Row.exec, List.map_cons]
        split
        · exact hs
        · rename_i hfree
          refine consistent_write hs hi hact (by simpa using hfree) fun w' hw' => ?_
          rw [visible_of_holder hw] at hw'
          have : Touched s.committed w' ⟨.relative ((done ++ [u]) ++ rest), rest.map .update, read,
              status⟩ := by
            refine .relative fun field => ?_
            rw [Relative.apply_ok hw', h, List.map_append, List.sum_append, ← add_assoc]
            simp
          simpa using this
  · have huntouched := hs.untouched i x hi hact hno
    cases huntouched with
    | read =>
      rename_i field delta v status
      simp only [Row.exec]
      split
      · exact hs
      · rename_i hfree
        refine consistent_write hs hi hact (by simpa using hfree) fun w' hw' => ?_
        rw [visible_of_not_holder hno] at hw'
        exact .adjust (setRow_ok hw')
    | start =>
      rename_i op read status
      cases op with
      | adjust field delta =>
        simp only [Row.exec, Operation.statements]
        split
        · exact consistent_abort hs
        · exact hs.wait hno .read
      | relative us =>
        cases us with
        | nil => exact hs
        | cons u us =>
          simp only [Row.exec, Operation.statements, List.map_cons]
          split
          · exact hs
          · rename_i hfree
            refine consistent_write hs hi hact (by simpa using hfree) fun w' hw' => ?_
            rw [visible_of_not_holder hno] at hw'
            have : Touched s.committed w' ⟨.relative ([u] ++ us), us.map .update, read, status⟩ :=
              .relative fun field => by simp [Relative.apply_ok hw' field]
            exact this

/-- **A commit**: it adds what the operation is to add, and for an `adjust` by how much the field
has changed since it was read, the other way. -/
theorem committed_of_commit (hs : s.Consistent) (hi : s.sessions[i]? = some x)
    (hact : x.status = .active) (htodo : x.todo = []) (field : WalletField) :
    getField field (s.visible i) = getField field s.committed + x.op.delta field +
      match x.op, x.read with
      | .adjust field' _, some v => if field = field' then v - getField field s.committed else 0
      | _, _ => 0 := by
  rcases holds_or_not s i with ⟨w, hw⟩ | hno
  · obtain ⟨y, hy, -, htouched⟩ := hs.touched i w hw
    obtain rfl := Option.some.inj (hi.symm.trans hy)
    rw [visible_of_holder hw]
    cases htouched with
    | adjust h =>
      rw [h, getField_setField]
      simp only [Operation.delta]
      split <;> ring
    | relative h =>
      obtain rfl : _ = [] := List.map_eq_nil_iff.mp htodo
      rw [h]
      simp [Operation.delta]
  · rw [visible_of_not_holder hno]
    have huntouched := hs.untouched i x hi hact hno
    cases huntouched with
    | read => cases htodo
    | start =>
      rename_i op read status
      cases op with
      | adjust field' delta => cases htodo
      | relative us =>
        obtain rfl : us = [] := List.map_eq_nil_iff.mp htodo
        simp [Operation.delta]

/-- What an `adjust` that is about to commit read. -/
theorem read_isSome (hs : s.Consistent) (hi : s.sessions[i]? = some x) (hact : x.status = .active)
    (htodo : x.todo = []) {field : WalletField} {delta : ℚ} (hop : x.op = .adjust field delta) :
    ∃ v, x.read = some v := by
  rcases holds_or_not s i with ⟨w, hw⟩ | hno
  · obtain ⟨y, hy, -, htouched⟩ := hs.touched i w hw
    obtain rfl := Option.some.inj (hi.symm.trans hy)
    cases htouched with
    | adjust h => exact ⟨_, rfl⟩
    | relative h => cases hop
  · have huntouched := hs.untouched i x hi hact hno
    cases huntouched with
    | read => cases htodo
    | start =>
      dsimp only at hop
      subst hop
      cases htodo

theorem consistent_commit (hs : s.Consistent) : (step s (.commit i)).Consistent := by
  simp only [step]
  split
  · rename_i x hi
    split
    · refine hs.finish (by simp) fun j w hj hne => visible_of_not_holder fun w' hw' => ?_
      rw [hj, Option.some.injEq, Prod.mk.injEq] at hw'
      exact hne hw'.1
    · exact hs
  · exact hs

/-- **One step** keeps the row and its transactions together. -/
theorem consistent_step (hs : s.Consistent) (st : Step) : (step s st).Consistent := by
  cases st with
  | commit i => exact consistent_commit hs
  | exec i =>
    simp only [step]
    split
    · split
      · rename_i hi hact
        exact consistent_exec hs hi hact
      · exact hs
    · exact hs
  | abort i =>
    simp only [step]
    split
    · split
      · exact consistent_abort hs
      · exact hs
    · exact hs
  | start op =>
    refine ⟨fun j y hy hact hhold => ?_, fun j w hj => ?_⟩
    · simp only [step, List.getElem?_append] at hy
      split at hy
      · exact hs.untouched j y hy hact hhold
      · obtain rfl := List.mem_singleton.mp (List.mem_of_getElem? hy)
        exact .start
    · obtain ⟨y, hy, hact, htouched⟩ := hs.touched j w hj
      exact ⟨y, (List.getElem?_append_left (List.getElem?_eq_some_iff.mp hy).1).trans hy, hact,
        htouched⟩

/-- A statement changes neither the committed row nor what has committed. -/
theorem exec_committed (i : ℕ) (x : Session) :
    (s.exec i x).committed = s.committed ∧ (s.exec i x).log = s.log := by
  have hwrite : ∀ todo r, (s.write i x todo r).committed = s.committed ∧
      (s.write i x todo r).log = s.log := by
    rintro todo (e | w)
    · exact ⟨rfl, rfl⟩
    · exact ⟨rfl, rfl⟩
  unfold Row.exec
  split
  · exact ⟨rfl, rfl⟩
  · dsimp only
    split
    · exact ⟨rfl, rfl⟩
    · exact ⟨rfl, rfl⟩
  · split
    · exact ⟨rfl, rfl⟩
    · exact hwrite _ _
  · split
    · exact ⟨rfl, rfl⟩
    · exact hwrite _ _

theorem Row.Exact.of_eq {w : Wallet} {s' : Row} (he : s.Exact w)
    (h : s'.committed = s.committed ∧ s'.log = s.log) : s'.Exact w := by
  intro field
  rw [h.1, h.2]
  exact he field

/-- A commit of an exact row leaves an exact row exactly when nothing was lost in between. -/
theorem exact_commit_iff (hs : s.Consistent) {w : Wallet} (he : s.Exact w) (i : ℕ) :
    (step s (.commit i)).Exact w ↔ Fresh s (.commit i) := by
  simp only [step, Fresh]
  cases hi : s.sessions[i]? with
  | none => exact ⟨fun _ x hx => (by cases hx), fun _ => he⟩
  | some x =>
    dsimp only
    by_cases hend : x.status = .active ∧ x.todo = []
    · rw [if_pos hend]
      have hsum : ∀ field, getField field (s.visible i) = getField field s.committed +
          x.op.delta field ↔ ∀ delta, x.op = .adjust field delta →
            x.read = some (getField field s.committed) := by
        intro field
        rw [committed_of_commit hs hi hend.1 hend.2, add_eq_left]
        cases hop : x.op with
        | relative us => simp
        | adjust field' delta =>
          obtain ⟨v, hv⟩ := read_isSome hs hi hend.1 hend.2 hop
          rw [hv]
          by_cases hf : field = field'
          · subst hf
            simp [sub_eq_zero]
          · simp [hf, Ne.symm hf]
      constructor
      · rintro h y hy - - field delta hop
        obtain rfl := Option.some.inj hy
        refine (hsum field).mp ?_ delta hop
        have := h field
        rw [List.map_append, List.sum_append, ← add_assoc, ← he field] at this
        simpa using this
      · intro h field
        dsimp only
        rw [(hsum field).mpr fun delta hop => h x rfl hend.1 hend.2 field delta hop, he field,
          List.map_append, List.sum_append, add_assoc]
        simp
    · rw [if_neg hend]
      refine ⟨fun _ y hy hact htodo => ?_, fun _ => he⟩
      obtain rfl := Option.some.inj hy
      exact absurd ⟨hact, htodo⟩ hend

/-- Only a commit changes the committed row. -/
theorem exact_step_iff (hs : s.Consistent) {w : Wallet} (he : s.Exact w) (st : Step) :
    (step s st).Exact w ↔ Fresh s st := by
  cases st with
  | commit i => exact exact_commit_iff hs he i
  | start op => exact ⟨fun _ => trivial, fun _ => he⟩
  | exec i =>
    refine ⟨fun _ => trivial, fun _ => ?_⟩
    simp only [step]
    split
    · split
      · exact he.of_eq (exec_committed i _)
      · exact he
    · exact he
  | abort i =>
    refine ⟨fun _ => trivial, fun _ => ?_⟩
    simp only [step]
    split
    · split
      · exact he.of_eq ⟨rfl, rfl⟩
      · exact he
    · exact he

end Steps

/-! ## Runs -/

theorem run_append (s : Row) (steps steps' : List Step) :
    run s (steps ++ steps') = run (run s steps) steps' := List.foldl_append

theorem consistent_quiet (w : Wallet) : (Row.quiet w).Consistent where
  untouched i x hx := by simp [Row.quiet] at hx
  touched i w' hw := by cases hw

theorem consistent_run (w : Wallet) (steps : List Step) : (run (.quiet w) steps).Consistent := by
  induction steps using List.reverseRecOn with
  | nil => exact consistent_quiet w
  | append_singleton steps st ih =>
    rw [run_append]
    exact consistent_step ih st

/-- **No lost update, over every interleaving.** In every state that is reached the committed row is
the initial one plus what the committed operations add, exactly when every `adjust` that commits had
read the value that its field still has: nobody changed it in between. -/
theorem adjust_no_lost_update_iff (w : Wallet) (steps : List Step) :
    (∀ steps', steps' <+: steps → (run (.quiet w) steps').Exact w) ↔
      Justified (fun before st => Fresh (run (.quiet w) before) st) steps := by
  induction steps using List.reverseRecOn with
  | nil =>
    refine ⟨fun _ => justified_nil, fun _ steps' h => ?_⟩
    obtain rfl := List.prefix_nil.mp h
    intro field
    simp [run, Row.quiet]
  | append_singleton steps st ih =>
    rw [justified_concat, ← ih]
    constructor
    · intro h
      have hinit : ∀ steps', steps' <+: steps → (run (.quiet w) steps').Exact w :=
        fun steps' hp => h steps' (hp.trans (List.prefix_append steps [st]))
      refine ⟨hinit, ?_⟩
      have := h (steps ++ [st]) List.prefix_rfl
      rw [run_append] at this
      exact (exact_step_iff (consistent_run w steps) (hinit steps List.prefix_rfl) st).mp this
    · rintro ⟨hinit, hst⟩ steps' hp
      rcases List.prefix_concat_iff.mp hp with rfl | hp
      · rw [run_append]
        exact (exact_step_iff (consistent_run w steps) (hinit steps List.prefix_rfl) st).mpr hst
      · exact hinit steps' hp

namespace RowSample

/-- An admin adds 100 to the balance, and between the read and the write a settlement credits 50. -/
def credited : List Step :=
  [.start (.adjust .balance 100), .exec 0, .start (.relative [.increment 50 0]), .exec 1, .commit 1,
    .exec 0, .commit 0]

end RowSample

/-- The credit of the settlement is lost. -/
theorem adjust_loses_credit : ¬∀ w steps, (run (.quiet w) steps).Exact w := by
  intro h
  have := h ⟨"alice", "USDT", 1000, 0⟩ RowSample.credited .balance
  revert this
  decide +kernel

end Orbit.WalletRow
