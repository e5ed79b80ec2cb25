import Orbit.Api.Admin
import Orbit.Api.AdminOutbox
import Orbit.Matcher.Precision

/-!
# Wallet adjustments and their audit rows

`AdminWalletsService.adjust` of `apps/api/src/admin/wallets/admin-wallets.service.ts` and
`AdminAuditService.write` of `apps/api/src/admin/audit/admin-audit.service.ts`, cut at their
`await`s: the `findUnique` of the transaction, its `update` with the commit, and the `create` of the
audit row, which is outside of the transaction. Any number of calls take their steps in any order
among other transactions that commit; an `await` may throw, whether what it does is done or not, and
the process may die in one.

The row that is updated is locked until the commit, so that the two are one step here. The amounts
are those of `decimal.js` and of the columns: a sum is rounded to 20 significant digits, and what is
stored to 12 decimals.

* `adjust_audit_iff`: every change that is committed has its audit row and every row its exact
  change, in the runs in which no commit is lost to its caller, no `create` fails, and in no update
  the other field of the wallet has changed since it was read or the sum is rounded.
-/

namespace Orbit.AdminWallets

open Admin
open OutboxRelay.Admin (Answer)

/-- A value of `decimal.js`. -/
inductive Amount
  | finite (x : ℚ)
  | infinite (negative : Bool)
  | nan
  deriving DecidableEq, Repr

/-- The sum of two decimals, to the 20 significant digits of the default configuration. -/
def plus (x y : ℚ) : ℚ := Decimal.toPrecision 20 (x + y)

/-- `plus`. -/
def Amount.plus (x : ℚ) : Amount → Amount
  | .finite y => .finite (AdminWallets.plus x y)
  | y => y

/-- `lt(0)`. -/
def Amount.negative : Amount → Bool
  | .finite x => decide (x < 0)
  | .infinite negative => negative
  | .nan => false

structure KeycloakClaims where
  sub : String
  email : Option String
  preferred_username : Option String
  deriving DecidableEq, Repr

structure AdjustInput where
  delta : String
  field : String
  reason : Option String
  deriving DecidableEq, Repr

/-- A wallet as it is written to the audit table. -/
structure Snapshot where
  asset : String
  balance : ℚ
  locked : ℚ
  deriving DecidableEq, Repr

def Snapshot.of (w : Wallet) : Snapshot := ⟨w.asset, w.balance, w.locked⟩

def Snapshot.get (s : Snapshot) : WalletField → ℚ
  | .balance => s.balance
  | .locked => s.locked

/-! ## The audit table -/

structure WriteAuditInput where
  admin : KeycloakClaims
  action : String
  targetType : String
  targetId : String
  before : Option Snapshot
  after : Option Snapshot
  reason : Option String
  ip : Option String
  ua : Option String
  deriving DecidableEq, Repr

structure AdminAuditLog where
  adminId : String
  adminEmail : String
  action : String
  targetType : String
  targetId : String
  before : Option Snapshot
  after : Option Snapshot
  reason : Option String
  ip : Option String
  ua : Option String
  deriving DecidableEq, Repr

/-- The data of the `create` of `AdminAuditService.write`. -/
def WriteAuditInput.row (input : WriteAuditInput) : AdminAuditLog where
  adminId := input.admin.sub
  adminEmail := (input.admin.email.or input.admin.preferred_username).getD ""
  action := input.action
  targetType := input.targetType
  targetId := input.targetId
  before := input.before
  after := input.after
  reason := input.reason
  ip := input.ip
  ua := input.ua

/-! ## The request -/

/-- The white space of `trim`. -/
def isWhiteSpace (c : Char) : Bool :=
  c.toNat ∈ [0x9, 0xA, 0xB, 0xC, 0xD, 0x20, 0xA0, 0x1680, 0x2028, 0x2029, 0x202F,
    0x205F, 0x3000, 0xFEFF] ||
    (0x2000 ≤ c.toNat && c.toNat ≤ 0x200A)

def trim (s : String) : String :=
  String.ofList ((s.toList.dropWhile isWhiteSpace).reverse.dropWhile isWhiteSpace).reverse

def WalletField.parse (field : String) : Option WalletField :=
  if field = "balance" then some .balance
  else if field = "locked" then some .locked
  else none

inductive Refusal
  | badRequest (msg : String)
  | notFound (msg : String)
  | negative (field : WalletField) (after : Amount)
  /-- The database refuses the update. -/
  | database
  | thrown (msg : String)
  deriving DecidableEq, Repr

/-- The text of a refusal. -/
def Refusal.message (toString : Amount → String) : Refusal → String
  | .badRequest msg => msg
  | .notFound msg => msg
  | .negative field after => "result would be negative: " ++
      fieldText field ++ "=" ++ toString after
  | .database => "Invalid `prisma.wallet.update()` invocation"
  | .thrown msg => msg

/-- The checks that `adjust` makes of its input. -/
def validate (newDecimal : String → Option Amount) (input : AdjustInput) :
    Except Refusal (WalletField × Amount) :=
  if trim (input.reason.getD "") = "" then .error (.badRequest "reason required")
  else
    match newDecimal input.delta with
    | none => .error (.badRequest "delta must be a decimal string (e.g. \"100\" or \"-0.5\")")
    | some delta =>
      match WalletField.parse input.field with
      | none => .error (.badRequest "field must be \"balance\" or \"locked\"")
      | some field => .ok (field, delta)

/-- The `await` that a call is in, or how it ended. -/
inductive Phase
  | findUnique (field : WalletField) (delta : Amount)
  | update (field : WalletField) (wallet : Wallet) (after : Amount)
  /-- In the `create` of the audit row: the transaction has committed. -/
  | audit (before after : Snapshot)
  | returned (after : Snapshot)
  | refused (e : Refusal)
  /-- Its process died. -/
  | lost
  deriving DecidableEq, Repr

/-- A call of `adjust`; `committed` says whether its transaction has committed. -/
structure Call where
  admin : KeycloakClaims
  userId : String
  asset : String
  input : AdjustInput
  ip : Option String
  ua : Option String
  phase : Phase
  committed : Bool
  deriving DecidableEq, Repr

/-- The input of the audit row. -/
def Call.auditInput (c : Call) (before after : Snapshot) : WriteAuditInput where
  admin := c.admin
  action := "wallet.adjust"
  targetType := "Wallet"
  targetId := c.userId ++ ":" ++ c.asset
  before := some before
  after := some after
  reason := c.input.reason.map trim
  ip := c.ip
  ua := c.ua

/-- The update of the wallet: its column has 16 digits before the point, and no infinity. -/
def update (userId asset : String) (field : WalletField) (after : Amount) (db : Db) :
    Option (Wallet × Db) :=
  match after with
  | .finite x =>
    if Precision.numeric x < 10 ^ 16 then do
      let db' ← (setWallet userId asset field (Precision.numeric x) db).toOption
      let updated ← db'.wallet? userId asset
      some (updated, db')
    else none
  | _ => none

/-- The call, the tables and the audit row after an `await`. -/
structure Turn where
  call : Call
  db : Db
  row : Option AdminAuditLog

/-- How a call ends whose `await` does not return. -/
def failed : Answer → Phase
  | .threw msg _ => .refused (.thrown msg)
  | _ => .lost

/-- What the transaction makes of the row that it has read. -/
def Call.found (db : Db) (c : Call) (field : WalletField) (delta : Amount) : Phase :=
  match db.wallet? c.userId c.asset with
  | none => .refused (.notFound ("wallet " ++ c.asset ++ " not found"))
  | some wallet =>
    if (Amount.plus (getField field wallet) delta).negative then
      .refused (.negative field (.plus (getField field wallet) delta))
    else .update field wallet (.plus (getField field wallet) delta)

/-- An `await` of a call ends. -/
def Call.resume (db : Db) (answer : Answer) (c : Call) : Turn :=
  match c.phase with
  | .findUnique field delta =>
    ⟨{ c with phase := if answer = .ok then c.found db field delta else failed answer }, db, none⟩
  | .update field wallet after =>
    match update c.userId c.asset field after db with
    | none =>
      ⟨{ c with phase := if answer = .ok then .refused .database else failed answer }, db, none⟩
    | some (updated, db') =>
      if answer = .ok then
        ⟨{ c with phase := .audit (.of wallet) (.of updated), committed := true }, db', none⟩
      else if answer.done then ⟨{ c with phase := failed answer, committed := true }, db', none⟩
      else ⟨{ c with phase := failed answer }, db, none⟩
  | .audit before after =>
    ⟨{ c with phase := if answer = .ok then .returned after else failed answer }, db,
      if answer.done then some (c.auditInput before after).row else none⟩
  | _ => ⟨c, db, none⟩

/-- The tables, the calls, and the rows of the audit table with the number of the
call that wrote each. -/
structure System where
  db : Db
  calls : List Call
  log : List (ℕ × AdminAuditLog)

inductive Step
  | adjust (admin : KeycloakClaims) (userId asset : String)
      (input : AdjustInput) (ip ua : Option String)
  /-- The `await` of the call number `i` ends. -/
  | resume (i : ℕ) (answer : Answer)
  /-- Other transactions commit, and the tables are `db` then. -/
  | other (db : Db)

section Model

variable (newDecimal : String → Option Amount)

def step (s : System) : Step → System
  | .adjust admin userId asset input ip ua =>
    let phase : Phase :=
      match validate newDecimal input with
      | .error e => .refused e
      | .ok (field, delta) => .findUnique field delta
    { s with calls := s.calls ++ [⟨admin, userId, asset, input, ip, ua, phase, false⟩] }
  | .resume i answer =>
    match s.calls[i]? with
    | none => s
    | some c =>
      let t := c.resume s.db answer
      { db := t.db
        calls := s.calls.set i t.call
        log := s.log ++ t.row.toList.map fun row => (i, row) }
  | .other db => { s with db }

def run (s : System) (steps : List Step) : System := steps.foldl (step newDecimal) s

/-- The tables before the first call. -/
def System.start (db : Db) : System := ⟨db, [], []⟩

/-! ## What is promised -/

/-- The call is over. -/
def Phase.Ended : Phase → Prop
  | .returned _ => True
  | .refused _ => True
  | .lost => True
  | _ => False

/-- The call waits for its audit row. -/
def Phase.Waiting : Phase → Prop
  | .audit _ _ => True
  | _ => False

/-- The row is that of an adjustment of the wallet, with the reason of the call. -/
structure AdminAuditLog.Of (row : AdminAuditLog) (c : Call) : Prop where
  action : row.action = "wallet.adjust"
  targetId : row.targetId = c.userId ++ ":" ++ c.asset
  reason : row.reason = c.input.reason.map trim

/-- The two snapshots differ by the delta of the call in its field, and in nothing else. -/
def Call.Exact (c : Call) (before after : Snapshot) : Prop :=
  ∃ field delta, WalletField.parse c.input.field = some field ∧
    newDecimal c.input.delta = some (.finite delta) ∧ after.get field = before.get field + delta ∧
    ∀ other, other ≠ field → after.get other = before.get other

/-- **The changes and their audit rows are inseparable.** -/
structure System.Inseparable (s : System) : Prop where
  audited : ∀ i c, s.calls[i]? = some c → ¬c.phase.Waiting →
    (c.committed = true ↔ ∃ row, (i, row) ∈ s.log ∧ row.Of c)
  exact : ∀ i c row, s.calls[i]? = some c → (i, row) ∈ s.log →
    ∃ before after, row.before = some before ∧ row.after = some after ∧
    c.Exact newDecimal before after

/-- No call waits for its audit row. -/
def System.Settled (s : System) : Prop := ∀ c ∈ s.calls, ¬c.phase.Waiting

/-- Nobody changed the other field of the wallet since it was read, and the sum is not rounded. -/
def Call.Undisturbed (db : Db) (c : Call) (field : WalletField) (wallet : Wallet) : Prop :=
  (∀ w, db.wallet? c.userId c.asset = some w → ∀ other, other ≠ field →
    getField other w = getField other wallet) ∧
  ∀ delta, newDecimal c.input.delta = some (.finite delta) →
    Precision.numeric (plus (getField field wallet) delta) = getField field wallet + delta

/-- The condition on a step. -/
def Clear (s : System) : Step → Prop
  | .resume i answer => ∀ c ∈ s.calls[i]?,
    match c.phase with
    | .update field wallet after =>
      (update c.userId c.asset field after s.db).isSome → answer.done = true →
        answer = .ok ∧ c.Undisturbed newDecimal s.db field wallet
    | .audit _ _ => answer.done = true
    | _ => True
  | _ => True

instance : (p : Phase) → Decidable p.Waiting
  | .audit _ _ => inferInstanceAs (Decidable True)
  | .findUnique _ _ | .update _ _ _ | .returned _ | .refused _ | .lost =>
      inferInstanceAs (Decidable False)

instance (s : System) : Decidable s.Settled :=
  inferInstanceAs (Decidable (∀ c ∈ s.calls, ¬c.phase.Waiting))

instance (db : Db) (c : Call) (field : WalletField) (wallet : Wallet) :
    Decidable (c.Undisturbed newDecimal db field wallet) :=
  have hfields : ∀ P : WalletField → Prop, (P .balance ∧ P .locked) ↔ ∀ f, P f :=
    fun _ => ⟨fun h f => by cases f; exacts [h.1, h.2], fun h => ⟨h _, h _⟩⟩
  have : ∀ w, Decidable (∀ other, other ≠ field → getField other w = getField other wallet) :=
    fun _ => decidable_of_iff _ (hfields _)
  have : Decidable (∀ w ∈ db.wallet? c.userId c.asset, ∀ other, other ≠ field →
      getField other w = getField other wallet) := inferInstance
  have : Decidable (∀ delta, newDecimal c.input.delta = some (.finite delta) →
      Precision.numeric (plus (getField field wallet) delta) = getField field wallet + delta) :=
    match newDecimal c.input.delta with
    | some (.finite d) =>
      decidable_of_iff (Precision.numeric (plus (getField field wallet) d) =
        getField field wallet + d)
        ⟨fun h _ heq => by cases heq; exact h, fun h => h d rfl⟩
    | none | some (.infinite _) | some .nan => isTrue nofun
  inferInstanceAs (Decidable (_ ∧ _))

instance (s : System) : (st : Step) → Decidable (Clear newDecimal s st)
  | .resume i answer =>
    have (c : Call) : Decidable (match c.phase with
        | .update field wallet after =>
          (update c.userId c.asset field after s.db).isSome → answer.done = true →
            answer = .ok ∧ c.Undisturbed newDecimal s.db field wallet
        | .audit _ _ => answer.done = true
        | _ => True) := by
      split <;> infer_instance
    inferInstanceAs (Decidable (∀ c ∈ s.calls[i]?, _))
  | .adjust _ _ _ _ _ _ | .other _ => inferInstanceAs (Decidable True)

/-! ## One call -/

/-- What a call in its phase has done. -/
structure Call.Sane (c : Call) : Prop where
  finding : ∀ field delta, c.phase = .findUnique field delta →
    validate newDecimal c.input = .ok (field, delta) ∧ c.committed = false
  updating : ∀ field wallet after, c.phase = .update field wallet after → c.committed = false ∧
    ∃ delta, validate newDecimal c.input = .ok (field, delta) ∧
      after = .plus (getField field wallet) delta
  auditing : ∀ before after, c.phase = .audit before after → c.committed = true

variable {newDecimal}

theorem validate_eq_ok {input : AdjustInput} {field : WalletField} {delta : Amount}
    (h : validate newDecimal input = .ok (field, delta)) :
    WalletField.parse input.field = some field ∧ newDecimal input.delta = some delta := by
  unfold validate at h
  split at h
  · cases h
  · split at h
    · cases h
    · rename_i d hd
      split at h
      · cases h
      · rename_i f hf
        cases h
        exact ⟨hf, hd⟩

@[simp] theorem Snapshot.get_of (w : Wallet) (field : WalletField) :
    (Snapshot.of w).get field = getField field w := by
  cases field <;> rfl

theorem getField_setField_ne {field other : WalletField} (h : other ≠ field) (v : ℚ) (w : Wallet) :
    getField other (setField field v w) = getField other w := by
  cases field <;> cases other <;> first | rfl | exact absurd rfl h

theorem getField_setField_self (field : WalletField) (v : ℚ) (w : Wallet) :
    getField field (setField field v w) = v := by
  cases field <;> rfl

/-- An update sets the field of the row that it finds. -/
theorem update_eq_some {userId asset : String} {field : WalletField} {after : Amount} {db db' : Db}
    {updated : Wallet} (h : update userId asset field after db = some (updated, db')) :
    ∃ x w, after = .finite x ∧ db.wallet? userId asset = some w ∧
      updated = setField field (Precision.numeric x) w := by
  unfold update at h
  split at h
  · rename_i x
    split at h
    · obtain ⟨db₁, hset, h⟩ := Option.bind_eq_some_iff.mp h
      obtain ⟨u, hu, h⟩ := Option.bind_eq_some_iff.mp h
      cases h
      unfold setWallet at hset
      split at hset
      · cases hset
      · rename_i w hw
        split at hset
        · obtain rfl := Option.some.inj hset
          have hkey : ∀ w, Table.key (setField field (Precision.numeric x) w) = Table.key w := by
            intro w
            cases field <;> rfl
          unfold Db.wallet? at hu hw
          rw [Table.find?_modify_self hkey, hw, Option.map_some] at hu
          exact ⟨x, w, rfl, hw, (Option.some.inj hu).symm⟩
        · cases hset
    · cases h
  · cases h

theorem Amount.plus_eq_finite {a : ℚ} {delta : Amount} {x : ℚ}
    (h : Amount.plus a delta = .finite x) :
    ∃ d, delta = .finite d ∧ x = AdminWallets.plus a d := by
  cases delta with
  | finite d => exact ⟨d, rfl, (Amount.finite.inj h).symm⟩
  | infinite | nan => cases h

variable {db db' : Db} {answer : Answer} {c : Call} {field : WalletField} {wallet updated : Wallet}
  {after : Amount}

/-- **The snapshots of an update** show the delta and nothing else exactly when
it was undisturbed. -/
theorem exact_iff_undisturbed (hc : c.Sane newDecimal)
    (hphase : c.phase = .update field wallet after)
    (h : update c.userId c.asset field after db = some (updated, db')) :
    c.Exact newDecimal (.of wallet) (.of updated) ↔ c.Undisturbed newDecimal db field wallet := by
  obtain ⟨x, w, rfl, hw, rfl⟩ := update_eq_some h
  obtain ⟨-, delta, hvalid, hafter⟩ := hc.updating _ _ _ hphase
  obtain ⟨hfield, hdelta⟩ := validate_eq_ok hvalid
  obtain ⟨d, rfl, rfl⟩ := Amount.plus_eq_finite hafter.symm
  unfold Call.Exact Call.Undisturbed
  simp only [Snapshot.get_of, hw, hfield, hdelta, Option.some.injEq, Amount.finite.injEq]
  constructor
  · rintro ⟨_, _, rfl, rfl, hsum, hother⟩
    refine ⟨?_, ?_⟩
    · rintro _ rfl other hne
      rw [← hother other hne, getField_setField_ne hne]
    · rintro _ rfl
      rw [← hsum, getField_setField_self]
  · rintro ⟨hother, hsum⟩
    refine ⟨field, d, rfl, rfl, ?_, fun other hne => ?_⟩
    · rw [getField_setField_self, hsum d rfl]
    · rw [getField_setField_ne hne, hother w rfl other hne]

variable (db answer c) in
/-- A call keeps what it was made with. -/
theorem resume_kept : ∃ phase committed, (c.resume db answer).call =
    { c with phase, committed } := by
  unfold Call.resume
  split
  · exact ⟨_, c.committed, rfl⟩
  · split
    · exact ⟨_, c.committed, rfl⟩
    · split
      · exact ⟨_, true, rfl⟩
      · split
        · exact ⟨_, true, rfl⟩
        · exact ⟨_, c.committed, rfl⟩
  · exact ⟨_, c.committed, rfl⟩
  · exact ⟨c.phase, c.committed, rfl⟩

theorem failed_ended (answer : Answer) : (failed answer).Ended := by
  cases answer <;> trivial

theorem Call.Sane.of_ended (h : c.phase.Ended) : c.Sane newDecimal := by
  refine ⟨fun _ _ hphase => ?_, fun _ _ _ hphase => ?_, fun _ _ hphase => ?_⟩
  all_goals
    rw [hphase] at h
    exact h.elim

/-- What a call reads leads to its end or to its update. -/
theorem Call.found_cases (db : Db) (c : Call) (field : WalletField) (delta : Amount) :
    (c.found db field delta).Ended ∨
      ∃ wallet, c.found db field delta = .update field wallet
        (.plus (getField field wallet) delta) := by
  unfold Call.found
  split
  · exact .inl trivial
  · split
    · exact .inl trivial
    · exact .inr ⟨_, rfl⟩

theorem Call.Sane.resume (hc : c.Sane newDecimal) : (c.resume db answer).call.Sane newDecimal := by
  unfold Call.resume
  split
  · rename_i field delta hphase
    obtain ⟨hvalid, hcommitted⟩ := hc.finding field delta hphase
    split
    · rcases c.found_cases db field delta with hend | ⟨wallet, hfound⟩
      · exact .of_ended hend
      · rw [hfound]
        refine ⟨fun _ _ h => ?_, fun _ _ _ h => ?_, fun _ _ h => ?_⟩
        · cases h
        · cases h
          exact ⟨hcommitted, delta, hvalid, rfl⟩
        · cases h
    · exact .of_ended (failed_ended answer)
  · split
    · split
      · exact .of_ended trivial
      · exact .of_ended (failed_ended answer)
    · split
      · refine ⟨fun _ _ h => ?_, fun _ _ _ h => ?_, fun _ _ _ => rfl⟩
        · cases h
        · cases h
      · split
        · exact .of_ended (failed_ended answer)
        · exact .of_ended (failed_ended answer)
  · split
    · exact .of_ended trivial
    · exact .of_ended (failed_ended answer)
  · exact hc

/-! ## The calls together -/

variable (newDecimal) in
/-- What holds in every run. -/
structure System.Sane (s : System) : Prop where
  calls : ∀ c ∈ s.calls, c.Sane newDecimal
  /-- A row is that of a call which is over and has committed. -/
  logged : ∀ i row, (i, row) ∈ s.log → ∃ c, s.calls[i]? = some c ∧ c.phase.Ended ∧
    c.committed = true ∧ ∃ before after, row = (c.auditInput before after).row

variable (newDecimal) in
/-- The call number `i` has broken the promise, or is bound to: it is over and has no row, the
snapshots that it is about to write are not exact, or those that it wrote. -/
def System.Broken (s : System) (i : ℕ) : Prop :=
  ∃ c, s.calls[i]? = some c ∧
    (c.phase.Ended ∧ c.committed = true ∧ (∀ row, (i, row) ∉ s.log) ∨
      (∃ before after, c.phase = .audit before after ∧ ¬c.Exact newDecimal before after) ∨
      ∃ row before after, (i, row) ∈ s.log ∧ row.before = some before ∧ row.after = some after ∧
        ¬c.Exact newDecimal before after)

variable {s : System} {st : Step} {i j : ℕ}

theorem sane_start (db : Db) : (System.start db).Sane newDecimal := by
  refine ⟨fun c hc => ?_, fun i row h => ?_⟩
  · exact absurd hc List.not_mem_nil
  · exact absurd h List.not_mem_nil

/-- A call that is over stays as it is. -/
theorem resume_of_ended (h : c.phase.Ended) : c.resume db answer = ⟨c, db, none⟩ := by
  unfold Call.resume
  split
  · rename_i hphase
    rw [hphase] at h
    exact h.elim
  · rename_i hphase
    rw [hphase] at h
    exact h.elim
  · rename_i hphase
    rw [hphase] at h
    exact h.elim
  · rfl

theorem resume_audit {before : Snapshot} {after : Snapshot} (h : c.phase = .audit before after) :
    c.resume db answer =
      ⟨{ c with phase := if answer = .ok then .returned after else failed answer }, db,
        if answer.done then some (c.auditInput before after).row else none⟩ := by
  simp only [Call.resume, h]

variable (db answer) in
/-- **What an `await` of a call comes to**: nothing when the call is over, an update that commits,
the audit row, or something before that. -/
theorem resume_cases (hc : c.Sane newDecimal) :
    c.phase.Ended ∨
      (¬c.phase.Ended ∧ (c.resume db answer).call.committed = false ∧
      (c.resume db answer).row = none) ∨
      (∃ field wallet after updated db', c.phase = .update field wallet after ∧
        update c.userId c.asset field after db = some (updated, db') ∧ answer.done = true ∧
        (c.resume db answer).call.committed = true ∧ (c.resume db answer).row = none ∧
        (answer = .ok ∧ (c.resume db answer).call.phase = .audit (.of wallet) (.of updated) ∨
          answer ≠ .ok ∧ (c.resume db answer).call.phase.Ended)) ∨
      ∃ before after, c.phase = .audit before after := by
  cases hphase : c.phase with
  | findUnique field delta =>
    refine .inr (.inl ⟨id, ?_, ?_⟩)
    · simp only [Call.resume, hphase]
      exact (hc.finding field delta hphase).2
    · simp only [Call.resume, hphase]
  | update field wallet after =>
    have hcommitted := (hc.updating field wallet after hphase).1
    cases hu : update c.userId c.asset field after db with
    | none =>
      refine .inr (.inl ⟨id, ?_, ?_⟩)
      · simp only [Call.resume, hphase, hu]
        exact hcommitted
      · simp only [Call.resume, hphase, hu]
    | some r =>
      obtain ⟨updated, db'⟩ := r
      by_cases hok : answer = .ok
      · refine .inr (.inr (.inl ⟨field, wallet, after, updated, db', rfl, hu, ?_, ?_⟩))
        · rw [hok]
          rfl
        · simp only [Call.resume, hphase, hu, if_pos hok]
          exact ⟨trivial, trivial, .inl ⟨hok, trivial⟩⟩
      · by_cases hdone : answer.done = true
        · refine .inr (.inr (.inl ⟨field, wallet, after, updated, db', rfl, hu, hdone, ?_⟩))
          simp only [Call.resume, hphase, hu, if_neg hok, if_pos hdone]
          exact ⟨trivial, trivial, .inr ⟨hok, failed_ended answer⟩⟩
        · refine .inr (.inl ⟨id, ?_, ?_⟩)
          · simp only [Call.resume, hphase, hu, if_neg hok, if_neg hdone]
            exact hcommitted
          · simp only [Call.resume, hphase, hu, if_neg hok, if_neg hdone]
  | audit before after => exact .inr (.inr (.inr ⟨before, after, rfl⟩))
  | returned | refused | lost => exact .inl trivial

/-- A call writes its row when it ends. -/
theorem row_of_resume {row : AdminAuditLog} (h : (c.resume db answer).row = some row) :
    ∃ before after, c.phase = .audit before after ∧ row = (c.auditInput before after).row ∧
      (c.resume db answer).call.phase.Ended ∧ (c.resume db answer).call.committed = c.committed ∧
      answer.done = true := by
  unfold Call.resume at h ⊢
  split at h
  · cases h
  · split at h
    · cases h
    · split at h
      · cases h
      · split at h <;> cases h
  · rename_i before after hphase
    simp only [Option.ite_none_right_eq_some] at h
    obtain ⟨hdone, h⟩ := h
    refine ⟨before, after, hphase, (Option.some.inj h).symm, ?_, rfl, hdone⟩
    dsimp only
    split
    · trivial
    · exact failed_ended answer
  · cases h

/-- The rows after a step: those before it, and the one that the call wrote. -/
theorem mem_log_resume (hi : s.calls[j]? = some c) {row : AdminAuditLog} :
    (i, row) ∈ (step newDecimal s (.resume j answer)).log ↔
      (i, row) ∈ s.log ∨ i = j ∧ (c.resume s.db answer).row = some row := by
  simp only [step, hi, List.mem_append, List.mem_map, Option.mem_toList, Prod.mk.injEq]
  refine or_congr_right ⟨?_, ?_⟩
  · rintro ⟨row', hrow, rfl, rfl⟩
    exact ⟨rfl, hrow⟩
  · rintro ⟨rfl, hrow⟩
    exact ⟨row, hrow, rfl, rfl⟩

theorem calls_resume_self (hi : s.calls[i]? = some c) :
    (step newDecimal s (.resume i answer)).calls[i]? = some (c.resume s.db answer).call := by
  simp only [step, hi]
  exact List.getElem?_set_self (List.getElem?_eq_some_iff.mp hi).1

theorem calls_resume_ne (hij : i ≠ j) :
    (step newDecimal s (.resume j answer)).calls[i]? = s.calls[i]? := by
  simp only [step]
  split
  · rfl
  · exact List.getElem?_set_ne hij.symm

/-- The calls after a step. -/
theorem calls_step (h : (step newDecimal s st).calls[i]? = some c) :
    (s.calls[i]? = some c ∧ ∀ answer, st ≠ .resume i answer) ∨
      (∃ admin userId asset input ip ua, st = .adjust admin userId asset input ip ua ∧
        i = s.calls.length ∧ c.input = input ∧ c.committed = false ∧
        (c.phase.Ended ∨ ∃ field delta, c.phase = .findUnique field delta ∧
          validate newDecimal input = .ok (field, delta))) ∨
      ∃ answer c₀, st = .resume i answer ∧ s.calls[i]? = some c₀ ∧
        c = (c₀.resume s.db answer).call := by
  cases st with
  | adjust admin userId asset input ip ua =>
    simp only [step, List.getElem?_append] at h
    split at h
    · exact .inl ⟨h, nofun⟩
    · rename_i hlt
      obtain ⟨hlen, rfl⟩ := List.getElem?_eq_some_iff.mp h
      have hi : i = s.calls.length := by
        simp only [List.length_singleton] at hlen
        omega
      refine .inr (.inl ⟨admin, userId, asset, input, ip, ua, rfl, hi, by simp, by simp, ?_⟩)
      simp only [List.getElem_singleton]
      cases hvalid : validate newDecimal input with
      | error e => exact .inl trivial
      | ok r => exact .inr ⟨r.1, r.2, rfl, rfl⟩
  | other db => exact .inl ⟨h, nofun⟩
  | resume j answer =>
    by_cases hij : i = j
    · subst hij
      cases hi : s.calls[i]? with
      | none =>
        simp only [step, hi] at h
        cases h
      | some c₀ =>
        rw [calls_resume_self hi, Option.some.injEq] at h
        exact .inr (.inr ⟨answer, c₀, rfl, rfl, h.symm⟩)
    · rw [calls_resume_ne hij] at h
      exact .inl ⟨h, fun _ h => hij (Step.resume.inj h).1.symm⟩

/-- A call of before a step is there after it, with what it was made with. -/
theorem calls_step_of_some (h : s.calls[i]? = some c) :
    (step newDecimal s st).calls[i]? = some c ∨ ∃ answer, st = .resume i answer := by
  cases st with
  | adjust admin userId asset input ip ua =>
    exact .inl ((List.getElem?_append_left (List.getElem?_eq_some_iff.mp h).1).trans h)
  | other db => exact .inl h
  | resume j answer =>
    by_cases hij : i = j
    · exact .inr ⟨answer, hij ▸ rfl⟩
    · exact .inl ((calls_resume_ne hij).trans h)

/-- The rows of a call that does not take the step. -/
theorem mem_log_step {row : AdminAuditLog} (hst : ∀ answer, st ≠ .resume i answer) :
    (i, row) ∈ (step newDecimal s st).log ↔ (i, row) ∈ s.log := by
  cases st with
  | adjust | other => exact Iff.rfl
  | resume j answer =>
    cases hj : s.calls[j]? with
    | none => simp only [step, hj]
    | some c =>
      rw [mem_log_resume hj, or_iff_left]
      rintro ⟨rfl, -⟩
      exact hst answer rfl

/-- **One step** keeps what holds in every run. -/
theorem System.Sane.step (hs : s.Sane newDecimal) : (step newDecimal s st).Sane newDecimal := by
  refine ⟨fun c hc => ?_, fun i row hrow => ?_⟩
  · obtain ⟨i, hi⟩ := List.getElem?_of_mem hc
    rcases calls_step hi with ⟨hold, -⟩ | ⟨_, _, _, input, _, _, -, -, hinput, hcommitted, hphase⟩ |
      ⟨answer, c₀, -, hi₀, rfl⟩
    · exact hs.calls c (List.mem_of_getElem? hold)
    · rcases hphase with hend | ⟨field, delta, hphase, hvalid⟩
      · exact .of_ended hend
      · refine ⟨fun _ _ h => ?_, fun _ _ _ h => ?_, fun _ _ h => ?_⟩
        · rw [hphase] at h
          cases h
          exact ⟨hinput ▸ hvalid, hcommitted⟩
        · rw [hphase] at h
          cases h
        · rw [hphase] at h
          cases h
    · exact (hs.calls c₀ (List.mem_of_getElem? hi₀)).resume
  · by_cases hst : ∃ answer, st = .resume i answer
    · obtain ⟨answer, rfl⟩ := hst
      cases hi : s.calls[i]? with
      | none =>
        simp only [AdminWallets.step, hi] at hrow ⊢
        obtain ⟨c, hc, -⟩ := hs.logged i row hrow
        rw [hi] at hc
        cases hc
      | some c =>
        rw [mem_log_resume hi] at hrow
        refine ⟨_, calls_resume_self hi, ?_⟩
        rcases hrow with hrow | ⟨-, hrow⟩
        · obtain ⟨c', hc', hend, hrest⟩ := hs.logged i row hrow
          obtain rfl := Option.some.inj (hi.symm.trans hc')
          rw [resume_of_ended hend]
          exact ⟨hend, hrest⟩
        · obtain ⟨before, after, hphase, rfl, hend, hcommitted, -⟩ := row_of_resume hrow
          obtain ⟨phase, committed, hkept⟩ := resume_kept s.db answer c
          refine ⟨hend, ?_, before, after, ?_⟩
          · rw [hcommitted]
            exact (hs.calls c (List.mem_of_getElem? hi)).auditing before after hphase
          · rw [hkept]
            rfl
    · rw [mem_log_step fun answer h => hst ⟨answer, h⟩] at hrow
      obtain ⟨c, hc, hrest⟩ := hs.logged i row hrow
      rcases calls_step_of_some hc with hold | hresume
      · exact ⟨c, hold, hrest⟩
      · exact absurd hresume hst

/-- A call that is not over has no row. -/
theorem System.Sane.not_mem_log (hs : s.Sane newDecimal) (hi : s.calls[i]? = some c)
    (hend : ¬c.phase.Ended) (row : AdminAuditLog) : (i, row) ∉ s.log := by
  intro hrow
  obtain ⟨c', hc', hend', -⟩ := hs.logged i row hrow
  obtain rfl := Option.some.inj (hi.symm.trans hc')
  exact hend hend'

/-- **A broken promise stays broken.** -/
theorem System.Broken.step (hs : s.Sane newDecimal) (h : s.Broken newDecimal i) :
    (step newDecimal s st).Broken newDecimal i := by
  obtain ⟨c, hc, h⟩ := h
  by_cases hst : ∃ answer, st = .resume i answer
  · obtain ⟨answer, rfl⟩ := hst
    obtain ⟨phase, committed, hkept⟩ := resume_kept s.db answer c
    refine ⟨_, calls_resume_self hc, ?_⟩
    rcases h with ⟨hend, hcommitted, hno⟩ | ⟨before, after, hphase, hexact⟩ |
      ⟨row, before, after, hrow, hb, ha, hexact⟩
    · rw [resume_of_ended hend]
      refine .inl ⟨hend, hcommitted, fun row hrow => ?_⟩
      rw [mem_log_resume hc, resume_of_ended hend] at hrow
      rcases hrow with hrow | ⟨-, hrow⟩
      · exact hno row hrow
      · cases hrow
    · have hnot : ¬c.phase.Ended := by
        rw [hphase]
        exact id
      by_cases hdone : answer.done = true
      · refine .inr (.inr ⟨(c.auditInput before after).row, before, after, ?_, rfl, rfl, ?_⟩)
        · rw [mem_log_resume hc, resume_audit hphase, if_pos hdone]
          exact .inr ⟨rfl, rfl⟩
        · rw [hkept]
          exact hexact
      · have hok : answer ≠ .ok := by
          rintro rfl
          exact hdone rfl
        refine .inl ⟨?_, ?_, fun row hrow => ?_⟩
        · rw [resume_audit hphase, if_neg hok]
          exact failed_ended answer
        · rw [resume_audit hphase]
          exact (hs.calls c (List.mem_of_getElem? hc)).auditing before after hphase
        · rw [mem_log_resume hc, resume_audit hphase, if_neg hdone] at hrow
          rcases hrow with hrow | ⟨-, hrow⟩
          · exact hs.not_mem_log hc hnot row hrow
          · cases hrow
    · refine .inr (.inr ⟨row, before, after, (mem_log_resume hc).mpr (.inl hrow), hb, ha, ?_⟩)
      rw [hkept]
      exact hexact
  · have hne : ∀ answer, st ≠ .resume i answer := fun answer h => hst ⟨answer, h⟩
    rcases calls_step_of_some hc with hold | hresume
    · refine ⟨c, hold, ?_⟩
      simpa only [mem_log_step hne] using h
    · exact absurd hresume hst

/-- An `await` of a call that ends as it should breaks no promise. -/
theorem broken_of_resume (hs : s.Sane newDecimal) (hc : s.calls[i]? = some c)
    (hclear : Clear newDecimal s (.resume i answer))
    (h : (step newDecimal s (.resume i answer)).Broken newDecimal i) : s.Broken newDecimal i := by
  obtain ⟨c', hc', h⟩ := h
  rw [calls_resume_self hc, Option.some.injEq] at hc'
  subst hc'
  have hsane := hs.calls c (List.mem_of_getElem? hc)
  have hclear := hclear c hc
  have hexact : ∀ before after, (c.resume s.db answer).call.Exact newDecimal before after ↔
      c.Exact newDecimal before after := by
    intro before after
    obtain ⟨phase, committed, hkept⟩ := resume_kept s.db answer c
    rw [hkept]
    exact Iff.rfl
  simp only [hexact, mem_log_resume hc] at h
  rcases resume_cases s.db answer hsane with hend | ⟨hnot, hcommitted, hrow⟩ |
    ⟨field, wallet, after, updated, db', hphase, hu, hdone, -, hrow, hresult⟩ |
    ⟨before, after, hphase⟩
  · refine ⟨c, hc, ?_⟩
    simpa [resume_of_ended hend] using h
  · rcases h with ⟨-, hyes, -⟩ | ⟨before, after, haudit, -⟩ | ⟨row, before, after, hmem, -⟩
    · rw [hcommitted] at hyes
      cases hyes
    · have := hsane.resume.auditing before after haudit
      rw [hcommitted] at this
      cases this
    · rcases hmem with hmem | ⟨-, hmem⟩
      · exact absurd hmem (hs.not_mem_log hc hnot row)
      · rw [hrow] at hmem
        cases hmem
  · rw [hphase] at hclear
    obtain ⟨hok, hundisturbed⟩ := hclear (by rw [hu]; rfl) hdone
    rcases hresult with ⟨-, haudit⟩ | ⟨hne, -⟩
    · rw [haudit] at h
      rcases h with ⟨hend, -⟩ | ⟨before, after, haudit, hnot⟩ | ⟨row, before, after, hmem, -⟩
      · exact hend.elim
      · obtain ⟨rfl, rfl⟩ := Phase.audit.inj haudit
        exact absurd ((exact_iff_undisturbed hsane hphase hu).mpr hundisturbed) hnot
      · rcases hmem with hmem | ⟨-, hmem⟩
        · refine absurd hmem (hs.not_mem_log hc ?_ row)
          rw [hphase]
          exact id
        · rw [hrow] at hmem
          cases hmem
    · exact absurd hok hne
  · rw [hphase] at hclear
    refine ⟨c, hc, ?_⟩
    simp only [resume_audit hphase, hclear, if_true, Option.some.injEq] at h
    rcases h with ⟨-, -, hno⟩ | ⟨before', after', haudit, -⟩
      | ⟨row, before', after', hmem, hb, ha, hnot⟩
    · exact absurd (.inr ⟨trivial, rfl⟩) (hno _)
    · split at haudit
      · cases haudit
      · have := failed_ended answer
        rw [haudit] at this
        exact this.elim
    · rcases hmem with hmem | ⟨-, rfl⟩
      · exact .inr (.inr ⟨row, before', after', hmem, hb, ha, hnot⟩)
      · obtain rfl := Option.some.inj hb
        obtain rfl := Option.some.inj ha
        exact .inr (.inl ⟨before, after, hphase, hnot⟩)

/-- **A step that is clear breaks no promise.** -/
theorem broken_of_step (hs : s.Sane newDecimal) (hclear : Clear newDecimal s st)
    (h : (step newDecimal s st).Broken newDecimal i) : s.Broken newDecimal i := by
  obtain ⟨c, hc, hbroken⟩ := id h
  rcases calls_step hc with ⟨hold, hne⟩ | ⟨_, _, _, _, _, _, rfl, hi, -, hcommitted, hphase⟩ |
    ⟨answer, c₀, rfl, hc₀, -⟩
  · refine ⟨c, hold, ?_⟩
    simpa only [mem_log_step hne] using hbroken
  · rcases hbroken with ⟨-, hyes, -⟩ | ⟨before, after, haudit, -⟩ | ⟨row, _, _, hmem, -⟩
    · rw [hcommitted] at hyes
      cases hyes
    · rw [haudit] at hphase
      rcases hphase with hend | ⟨_, _, hfind, -⟩
      · exact hend.elim
      · cases hfind
    · have hmem : (i, row) ∈ s.log := hmem
      obtain ⟨c', hc', -⟩ := hs.logged i row hmem
      rw [hi, List.getElem?_eq_none le_rfl] at hc'
      cases hc'
  · exact broken_of_resume hs hc₀ hclear h

/-- **A step that is not clear breaks one.** -/
theorem broken_of_not_clear (hs : s.Sane newDecimal) (hclear : ¬Clear newDecimal s st) :
    ∃ i, (step newDecimal s st).Broken newDecimal i := by
  cases st with
  | adjust | other => exact absurd trivial hclear
  | resume i answer =>
    simp only [Clear, not_forall] at hclear
    obtain ⟨c, hc, hclear⟩ := hclear
    have hsane := hs.calls c (List.mem_of_getElem? hc)
    obtain ⟨phase, committed, hkept⟩ := resume_kept s.db answer c
    refine ⟨i, _, calls_resume_self hc, ?_⟩
    cases hphase : c.phase with
    | findUnique | returned | refused | lost =>
      rw [hphase] at hclear
      exact absurd trivial hclear
    | update field wallet after =>
      simp only [hphase, Classical.not_imp] at hclear
      obtain ⟨hsome, hdone, hclear⟩ := hclear
      obtain ⟨⟨updated, db'⟩, hu⟩ := Option.isSome_iff_exists.mp hsome
      have hnot : ¬c.phase.Ended := by
        rw [hphase]
        exact id
      by_cases hok : answer = .ok
      · refine .inr (.inl ⟨.of wallet, .of updated, ?_, fun hexact => ?_⟩)
        · simp only [Call.resume, hphase, hu, if_pos hok]
        · rw [hkept] at hexact
          exact hclear ⟨hok, (exact_iff_undisturbed hsane hphase hu).mp hexact⟩
      · have hresume : c.resume s.db answer =
            ⟨{ c with phase := failed answer, committed := true }, db', none⟩ := by
          simp only [Call.resume, hphase, hu, if_neg hok, if_pos hdone]
        refine .inl ⟨?_, ?_, fun row hrow => ?_⟩
        · rw [hresume]
          exact failed_ended answer
        · rw [hresume]
        · rw [mem_log_resume hc, hresume] at hrow
          rcases hrow with hrow | ⟨-, hrow⟩
          · exact hs.not_mem_log hc hnot row hrow
          · cases hrow
    | audit before after =>
      simp only [hphase] at hclear
      have hnot : ¬c.phase.Ended := by
        rw [hphase]
        exact id
      have hok : answer ≠ .ok := by
        rintro rfl
        exact hclear rfl
      refine .inl ⟨?_, ?_, fun row hrow => ?_⟩
      · rw [resume_audit hphase, if_neg hok]
        exact failed_ended answer
      · rw [resume_audit hphase]
        exact hsane.auditing before after hphase
      · rw [mem_log_resume hc, resume_audit hphase, if_neg hclear] at hrow
        rcases hrow with hrow | ⟨-, hrow⟩
        · exact hs.not_mem_log hc hnot row hrow
        · cases hrow

/-! ## Runs -/

theorem run_concat {steps : List Step} :
    run newDecimal s (steps ++ [st]) = step newDecimal (run newDecimal s steps) st := by
  rw [run, List.foldl_append]
  rfl

variable (newDecimal) in
theorem sane_run (db : Db) (steps : List Step) :
    (run newDecimal (.start db) steps).Sane newDecimal := by
  induction steps using List.reverseRecOn with
  | nil => exact sane_start db
  | append_singleton steps st ih =>
    rw [run_concat]
    exact ih.step

/-- A run breaks no promise exactly when its steps are clear. -/
theorem not_broken_iff (db : Db) (steps : List Step) :
    (∀ i, ¬(run newDecimal (.start db) steps).Broken newDecimal i) ↔
      Justified (fun before st => Clear newDecimal
        (run newDecimal (.start db) before) st) steps := by
  induction steps using List.reverseRecOn with
  | nil =>
    refine ⟨fun _ => justified_nil, fun _ i h => ?_⟩
    obtain ⟨c, hc, -⟩ := h
    cases hc
  | append_singleton steps st ih =>
    have hsane := sane_run newDecimal db steps
    rw [justified_concat, ← ih, run_concat]
    constructor
    · refine fun h => ⟨fun i hi => h i (hi.step hsane), ?_⟩
      by_contra hclear
      obtain ⟨i, hi⟩ := broken_of_not_clear hsane hclear
      exact h i hi
    · exact fun ⟨h, hclear⟩ i hi => h i (broken_of_step hsane hclear hi)

theorem System.Sane.inseparable (hs : s.Sane newDecimal) (h : ∀ i, ¬s.Broken newDecimal i) :
    s.Inseparable newDecimal := by
  refine ⟨fun i c hc hwait => ⟨fun hcommitted => ?_, ?_⟩, fun i c row hc hrow => ?_⟩
  · have hsane := hs.calls c (List.mem_of_getElem? hc)
    have hend : c.phase.Ended := by
      cases hphase : c.phase with
      | findUnique field delta =>
        rw [(hsane.finding field delta hphase).2] at hcommitted
        cases hcommitted
      | update field wallet after =>
        rw [(hsane.updating field wallet after hphase).1] at hcommitted
        cases hcommitted
      | audit before after =>
        rw [hphase] at hwait
        exact hwait trivial
      | returned | refused | lost => trivial
    by_contra hno
    refine h i ⟨c, hc, .inl ⟨hend, hcommitted, fun row hrow => hno ⟨row, hrow, ?_⟩⟩⟩
    obtain ⟨c', hc', -, -, before, after, rfl⟩ := hs.logged i row hrow
    obtain rfl := Option.some.inj (hc.symm.trans hc')
    exact ⟨rfl, rfl, rfl⟩
  · rintro ⟨row, hrow, -⟩
    obtain ⟨c', hc', -, hcommitted, -⟩ := hs.logged i row hrow
    rwa [Option.some.inj (hc.symm.trans hc')]
  · obtain ⟨c', hc', -, -, before, after, rfl⟩ := hs.logged i row hrow
    obtain rfl := Option.some.inj (hc.symm.trans hc')
    refine ⟨before, after, rfl, rfl, ?_⟩
    by_contra hnot
    exact h i ⟨c, hc, .inr (.inr ⟨_, before, after, hrow, rfl, rfl, hnot⟩)⟩

theorem System.Inseparable.not_broken (hs : s.Inseparable newDecimal)
    (hsettled : s.Settled) (i : ℕ) :
    ¬s.Broken newDecimal i := by
  rintro ⟨c, hc, ⟨hend, hcommitted, hno⟩ | ⟨before, after, hphase, -⟩ |
    ⟨row, before, after, hrow, hb, ha, hnot⟩⟩
  · have hwait := hsettled c (List.mem_of_getElem? hc)
    obtain ⟨row, hrow, -⟩ := (hs.audited i c hc hwait).mp hcommitted
    exact hno row hrow
  · have hwait := hsettled c (List.mem_of_getElem? hc)
    rw [hphase] at hwait
    exact hwait trivial
  · obtain ⟨before', after', hb', ha', hexact⟩ := hs.exact i c row hc hrow
    obtain rfl := Option.some.inj (hb.symm.trans hb')
    obtain rfl := Option.some.inj (ha.symm.trans ha')
    exact hnot hexact

/-- **An adjustment and its audit row**: in every state of a run whose steps are clear the two are
inseparable, and where they are at the end of a run, with no call waiting for its row,
all steps were clear. -/
theorem adjust_audit_iff (newDecimal : String → Option Amount) (db : Db) (steps : List Step) :
    (Justified (fun before st => Clear newDecimal (run newDecimal (.start db) before) st) steps →
      ∀ steps', steps' <+: steps → (run newDecimal (.start db) steps').Inseparable newDecimal) ∧
    ((run newDecimal (.start db) steps).Settled →
      (run newDecimal (.start db) steps).Inseparable newDecimal →
      Justified (fun before st => Clear newDecimal
        (run newDecimal (.start db) before) st) steps) := by
  refine ⟨?_, fun hsettled hs => ?_⟩
  · rintro h steps' ⟨rest, rfl⟩
    exact (sane_run newDecimal db steps').inseparable ((not_broken_iff db steps').mpr h.left)
  · exact (not_broken_iff db steps).mp fun i => hs.not_broken hsettled i

end Model

/-! ## Three runs -/

namespace AdjustSample

/-- `new Decimal` of three texts. -/
def newDecimal (text : String) : Option Amount :=
  if text = "-0.5" then some (.finite (-1 / 2))
  else if text = "100" then some (.finite 100)
  else if text = "Infinity" then some (.infinite false)
  else none

def admin : KeycloakClaims := ⟨"7b2f", some "ops@orbit.test", none⟩

def db (balance locked : ℚ) : Db := ⟨[], [], [], [⟨"alice", "USDT", balance, locked⟩], [], [], []⟩

def adjust (delta : String) (reason : Option String) : Step :=
  .adjust admin "alice" "USDT" ⟨delta, "balance", reason⟩ none none

/-- Two adjustments, the second one after an order has locked some funds; the api answers the first
with an error although its row is written. Two more are refused. -/
def audited : List Step :=
  [adjust "-0.5" (some " fee "), .resume 0 .ok, .resume 0 .ok, .resume 0 (.threw "timeout" true),
    .other (db 900 100), adjust "100" (some "bonus"), .resume 1 .ok, .resume 1 .ok, .resume 1 .ok,
    adjust "100" (some "  "), adjust "Infinity" (some "x"), .resume 3 .ok, .resume 3 .ok]

/-- The audit row cannot be written. -/
def unaudited : List Step :=
  [adjust "100" (some "bonus"), .resume 0 .ok, .resume 0 .ok, .resume 0 (.threw "timeout" false)]

/-- Funds are unlocked between the read and the update. -/
def stale : List Step :=
  [adjust "100" (some "bonus"), .resume 0 .ok, .other (db 1000 0), .resume 0 .ok, .resume 0 .ok]

end AdjustSample

open AdjustSample in
theorem adjust_audit_two : (run newDecimal (.start (db 1000 5)) audited).Settled ∧
    (run newDecimal (.start (db 1000 5)) audited).Inseparable newDecimal ∧
    (run newDecimal (.start (db 1000 5)) audited).log.map Prod.fst = [0, 1] := by
  have h : Justified
      (fun before st => Clear newDecimal (run newDecimal (.start (db 1000 5)) before) st)
      audited := by decide +kernel
  refine ⟨by decide +kernel, ?_, by decide +kernel⟩
  exact (adjust_audit_iff newDecimal (db 1000 5) audited).1 h audited List.prefix_rfl

open AdjustSample in
/-- **A change without its row, and a row with more than the change.** -/
theorem adjust_not_inseparable :
    ¬(run newDecimal (.start (db 1000 5)) unaudited).Inseparable newDecimal ∧
    ¬(run newDecimal (.start (db 1000 5)) stale).Inseparable newDecimal := by
  have hbroken : ∀ steps, (run newDecimal (.start (db 1000 5)) steps).Settled →
      ¬Justified (fun before st => Clear newDecimal (run newDecimal (.start (db 1000 5)) before) st)
        steps → ¬(run newDecimal (.start (db 1000 5)) steps).Inseparable newDecimal :=
    fun steps hsettled hclear hs => hclear ((not_broken_iff _ steps).mp fun i =>
      hs.not_broken hsettled i)
  exact ⟨hbroken unaudited (by decide +kernel) (by decide +kernel),
    hbroken stale (by decide +kernel) (by decide +kernel)⟩

end Orbit.AdminWallets
