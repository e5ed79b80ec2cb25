import Mathlib.Algebra.Order.Floor.Ring
import Mathlib.Tactic.FieldSimp
import Mathlib.Tactic.Linarith
import Orbit.Api.WalletRow
import Orbit.Foundations.Parties

/-!
# Concurrent submits on one wallet

The transactions of orders that reserve funds of one wallet, among those of the settler, in any
interleaving of their statements (`Orbit.Api.WalletRow`). The guarded `UPDATE` of `atomicLock` waits
for the row and then checks the version that it works on, so that what another transaction has
locked and rolls back counts for nobody.

* `submits_never_overspend`: no version of the row is negative, what the accepted submits reserve is
  what they add to `locked`, a submit is refused for want of balance only where the balance is below
  its amount, and of submits of equal amounts as many are accepted as the balance pays for.
-/

namespace Orbit.WalletRow

open Admin

/-- The transaction of an order that reserves `amt`. -/
def submit (amt : ℚ) : Operation := .relative [.lock amt]

/-- A transaction of the settler: credits, refunds and releases. -/
def settlement (us : List (ℚ × ℚ)) : Operation := .relative (us.map fun u => .increment u.1 u.2)

/-- A submit or a settlement. -/
def Operation.Ordinary (op : Operation) : Prop := (∃ amt, op = submit amt) ∨
    ∃ us, op = settlement us

/-- A step of a run in which there are only submits and settlements. -/
def Step.Ordinary : Step → Prop
  | .start op => op.Ordinary
  | _ => True

/-- A step of a run in which there are only submits that reserve `a`. -/
def Step.Equal (a : ℚ) : Step → Prop
  | .start op => op = submit a
  | _ => True

/-- The amount that a submit reserves. -/
def Operation.reserved : Operation → Option ℚ
  | .relative [.lock amt] => some amt
  | _ => none

/-- What the submits that committed reserve. -/
def Row.accepted (s : Row) : List ℚ := s.log.filterMap Operation.reserved

/-- What the settlements that committed add to a field. -/
def Row.settled (s : Row) (field : WalletField) : ℚ :=
  ((s.log.filter fun op => op.reserved.isNone).map (·.delta field)).sum

/-- The `UPDATE` that transaction `i` is at is refused. -/
def Row.Refuses (s : Row) (i : ℕ) (e : Failure) : Prop :=
  ∃ x u todo, s.sessions[i]? = some x ∧ x.status = .active ∧ x.todo = .update u :: todo ∧
    s.blocked i = false ∧ u.apply (s.visible i) = .error e

/-- The step ends a transaction for a reason outside of the row. -/
def Row.rollsBack (s : Row) : Step → ℕ
  | .abort i => if s.sessions[i]?.any fun x => decide (x.status = .active) then 1 else 0
  | _ => 0

/-- How many transactions of the run failed for such a reason. -/
def rollbacks (s : Row) : List Step → ℕ
  | [] => 0
  | st :: steps => s.rollsBack st + rollbacks (step s st) steps

/-- **No run overspends.** -/
structure NeverOverspends (w : Wallet) (steps : List Step) : Prop where
  committed : (run (.quiet w) steps).committed.NonNegative
  visible : ∀ i, ((run (.quiet w) steps).visible i).NonNegative
  balance : (run (.quiet w) steps).committed.balance =
    w.balance - (run (.quiet w) steps).accepted.sum + (run (.quiet w) steps).settled .balance
  locked : (run (.quiet w) steps).committed.locked =
    w.locked + (run (.quiet w) steps).accepted.sum + (run (.quiet w) steps).settled .locked
  refused : ∀ before i after x amt, steps = before ++ .exec i :: after →
    (run (.quiet w) before).sessions[i]? = some x → x.op = submit amt →
    (run (.quiet w) before).Refuses i (.badRequest "insufficient balance") →
    (run (.quiet w) before).committed.balance < amt
  /-- Of submits of `a`, those that did not fail for another reason are accepted as long
  as the balance lasts. -/
  maximal : ∀ a, 0 < a → (∀ st ∈ steps, st.Equal a) →
    (∀ x ∈ (run (.quiet w) steps).sessions, x.status ≠ .active) →
    (run (.quiet w) steps).accepted.length =
      min ((run (.quiet w) steps).sessions.length - rollbacks (.quiet w) steps) ⌊w.balance / a⌋₊

/-! ## No negative amount -/

section Steps

variable {s : Row} {i : ℕ} {x : Session} {w w' : Wallet} {a amt : ℚ} {k : ℕ}

/-- No version of the row is negative. -/
structure Row.Solvent (s : Row) : Prop where
  committed : s.committed.NonNegative
  held : ∀ i w, s.holder = some (i, w) → w.NonNegative

theorem Row.Solvent.visible (hs : s.Solvent) (i : ℕ) : (s.visible i).NonNegative := by
  rcases holds_or_not s i with ⟨w, hw⟩ | hno
  · rw [visible_of_holder hw]
    exact hs.held i w hw
  · rw [visible_of_not_holder hno]
    exact hs.committed

theorem Relative.apply_nonNegative {u : Relative} (h : u.apply w = .ok w') : w'.NonNegative := by
  cases u with
  | increment b l =>
    simp only [Relative.apply] at h
    split at h
    · rename_i hn
      cases h
      exact hn
    · cases h
  | lock amt =>
    simp only [Relative.apply] at h
    split at h
    · split at h
      · rename_i hn
        cases h
        exact hn
      · cases h
    · cases h

theorem setRow_nonNegative {field : WalletField} {v : ℚ} (h : setRow field v w = .ok w') :
    w'.NonNegative := by
  unfold setRow at h
  split at h
  · rename_i hn
    cases h
    exact hn
  · cases h

theorem solvent_abort (hs : s.Solvent) : (s.abort i x).Solvent := by
  refine ⟨hs.committed, fun j w hj => ?_⟩
  obtain ⟨hj, -⟩ := Option.filter_eq_some_iff.mp hj
  exact hs.held j w hj

theorem solvent_write (hs : s.Solvent) {todo : List Statement} {r : Except Failure Wallet}
    (h : ∀ w, r = .ok w → w.NonNegative) : (s.write i x todo r).Solvent := by
  cases r with
  | error e => exact solvent_abort hs
  | ok w =>
    refine ⟨hs.committed, fun j w' hj => ?_⟩
    obtain ⟨-, rfl⟩ := Prod.mk.inj (Option.some.inj hj)
    exact h _ rfl

theorem solvent_exec (hs : s.Solvent) : (s.exec i x).Solvent := by
  unfold Row.exec
  split
  · exact hs
  · dsimp only
    split
    · exact solvent_abort hs
    · exact ⟨hs.committed, hs.held⟩
  · split
    · exact hs
    · exact solvent_write hs fun _ => Relative.apply_nonNegative
  · split
    · exact hs
    · exact solvent_write hs fun _ => setRow_nonNegative

/-- **One step** leaves no version negative. -/
theorem solvent_step (hs : s.Solvent) (st : Step) : (step s st).Solvent := by
  cases st with
  | start op => exact ⟨hs.committed, hs.held⟩
  | exec i =>
    simp only [step]
    split
    · split
      · exact solvent_exec hs
      · exact hs
    · exact hs
  | commit i =>
    simp only [step]
    split
    · split
      · refine ⟨hs.visible i, fun j w hj => ?_⟩
        obtain ⟨hj, -⟩ := Option.filter_eq_some_iff.mp hj
        exact hs.held j w hj
      · exact hs
    · exact hs
  | abort i =>
    simp only [step]
    split
    · split
      · exact solvent_abort hs
      · exact hs
    · exact hs

/-! ## The operations of a run -/

/-- Every operation, of a transaction or committed, satisfies `P`. -/
structure Row.Only (P : Operation → Prop) (s : Row) : Prop where
  sessions : ∀ x ∈ s.sessions, P x.op
  log : ∀ op ∈ s.log, P op

variable {P : Operation → Prop}

theorem Row.Only.set (hs : s.Only P) {x' : Session} (hx : P x'.op) :
    ∀ y ∈ s.sessions.set i x', P y.op := by
  intro y hy
  rcases List.mem_or_eq_of_mem_set hy with hy | rfl
  · exact hs.sessions y hy
  · exact hx

theorem only_exec (hs : s.Only P) (hx : P x.op) : (s.exec i x).Only P := by
  have habort : (s.abort i x).Only P := ⟨hs.set hx, hs.log⟩
  have hwrite : ∀ todo r, (s.write i x todo r).Only P := by
    rintro todo (e | w)
    · exact habort
    · exact ⟨hs.set hx, hs.log⟩
  unfold Row.exec
  split
  · exact hs
  · dsimp only
    split
    · exact habort
    · exact ⟨hs.set hx, hs.log⟩
  · split
    · exact hs
    · exact hwrite _ _
  · split
    · exact hs
    · exact hwrite _ _

theorem only_step (hs : s.Only P) (st : Step) (hst : ∀ op, st = .start op → P op) :
    (step s st).Only P := by
  cases st with
  | start op =>
    refine ⟨fun x hx => ?_, hs.log⟩
    rcases List.mem_append.mp hx with hx | hx
    · exact hs.sessions x hx
    · rw [List.mem_singleton.mp hx]
      exact hst op rfl
  | exec i =>
    simp only [step]
    split
    · rename_i x hi
      split
      · exact only_exec hs (hs.sessions x (List.mem_of_getElem? hi))
      · exact hs
    · exact hs
  | commit i =>
    simp only [step]
    split
    · rename_i x hi
      have hx := hs.sessions x (List.mem_of_getElem? hi)
      split
      · refine ⟨hs.set hx, fun op hop => ?_⟩
        rcases List.mem_append.mp hop with hop | hop
        · exact hs.log op hop
        · rwa [List.mem_singleton.mp hop]
      · exact hs
    · exact hs
  | abort i =>
    simp only [step]
    split
    · rename_i x hi
      split
      · exact ⟨hs.set (hs.sessions x (List.mem_of_getElem? hi)), hs.log⟩
      · exact hs
    · exact hs

theorem reserved_eq_some {op : Operation} (h : op.reserved = some amt) : op = submit amt := by
  unfold Operation.reserved at h
  split at h
  · cases h
    rfl
  · cases h

/-- What a list of operations adds, the submits apart. -/
theorem sum_delta (log : List Operation) (field : WalletField) :
    (log.map (·.delta field)).sum =
      ((log.filterMap Operation.reserved).map fun amt => (submit amt).delta field).sum +
        ((log.filter fun op => op.reserved.isNone).map (·.delta field)).sum := by
  induction log with
  | nil => simp
  | cons op log ih =>
    rw [List.map_cons, List.sum_cons, ih]
    cases hop : op.reserved with
    | none =>
      rw [List.filterMap_cons_none hop, List.filter_cons_of_pos (by simp [hop]), List.map_cons,
        List.sum_cons]
      ring
    | some amt =>
      rw [List.filterMap_cons_some hop, List.filter_cons_of_neg (by simp [hop]), List.map_cons,
        List.sum_cons, reserved_eq_some hop]
      ring

@[simp] theorem submit_delta_balance (amt : ℚ) : (submit amt).delta .balance = -amt := by
  simp [submit, Operation.delta, Relative.delta]

@[simp] theorem submit_delta_locked (amt : ℚ) : (submit amt).delta .locked = amt := by
  simp [submit, Operation.delta, Relative.delta]

theorem sum_map_neg (l : List ℚ) : (l.map fun amt => -amt).sum = -l.sum := by
  induction l with
  | nil => simp
  | cons x l ih =>
    rw [List.map_cons, List.sum_cons, List.sum_cons, ih]
    ring

/-- Where nobody adjusts the row, nothing is lost. -/
theorem fresh_of_ordinary (hs : s.Only Operation.Ordinary) (st : Step) : Fresh s st := by
  cases st with
  | start | exec | abort => trivial
  | commit i =>
    intro x hx _ _ field delta hop
    have hop' := hs.sessions x (List.mem_of_getElem? hx)
    rw [hop] at hop'
    rcases hop' with ⟨amt, h⟩ | ⟨us, h⟩ <;> cases h

/-! ## The `UPDATE` of a submit -/

/-- A submit that has a statement to make is at its `UPDATE`, and sees the committed balance. -/
theorem submit_at_update (hs : s.Consistent) (hi : s.sessions[i]? = some x)
    (hact : x.status = .active)
    (hop : x.op = submit amt) (htodo : x.todo ≠ []) :
    x.todo = [.update (.lock amt)] ∧ (s.visible i).balance = s.committed.balance := by
  rcases holds_or_not s i with ⟨w, hw⟩ | hno
  · obtain ⟨y, hy, -, htouched⟩ := hs.touched i w hw
    obtain rfl := Option.some.inj (hi.symm.trans hy)
    rw [visible_of_holder hw]
    cases htouched with
    | adjust h => exact absurd rfl htodo
    | relative h =>
      rename_i done rest read status
      have hlist : done ++ rest = [.lock amt] := Operation.relative.inj hop
      rcases List.append_eq_singleton_iff.mp hlist with ⟨rfl, rfl⟩ | ⟨rfl, rfl⟩
      · exact ⟨rfl, by simpa [getField] using h .balance⟩
      · exact absurd rfl htodo
  · rw [visible_of_not_holder hno]
    refine ⟨?_, rfl⟩
    cases hs.untouched i x hi hact hno with
    | read => cases hop
    | start =>
      dsimp only at hop
      rw [hop]
      rfl

/-- **A submit is refused for want of balance only where the balance is below its amount.** -/
theorem lt_of_refuses (hs : s.Consistent) (hi : s.sessions[i]? = some x) (hop : x.op = submit amt)
    (h : s.Refuses i (.badRequest "insufficient balance")) : s.committed.balance < amt := by
  obtain ⟨y, u, todo, hy, hact, htodo, -, happly⟩ := h
  obtain rfl := Option.some.inj (hi.symm.trans hy)
  obtain ⟨htodo', hbalance⟩ := submit_at_update hs hi hact hop (by simp [htodo])
  rw [htodo] at htodo'
  obtain ⟨rfl, -⟩ : u = .lock amt ∧ todo = [] := by simpa using htodo'
  simp only [Relative.apply] at happly
  split at happly
  · split at happly <;> cases happly
  · rename_i hle
    rw [← hbalance]
    exact not_le.mp hle

/-- What an `exec` of a submit comes to. -/
theorem exec_submit (hs : s.Consistent) (hsolvent : s.Solvent) (hi : s.sessions[i]? = some x)
    (hact : x.status = .active) (ha : 0 ≤ amt) (hop : x.op = submit amt) :
    s.exec i x = s ∨ (s.committed.balance < amt ∧ s.exec i x = s.abort i x) ∨
      ∃ w, s.exec i x = { s with
        holder := some (i, w)
        sessions := s.sessions.set i { x with todo := [] } } := by
  by_cases htodo : x.todo = []
  · left
    simp only [Row.exec, htodo]
  · obtain ⟨htodo, hbalance⟩ := submit_at_update hs hi hact hop htodo
    have hlocked := (hsolvent.visible i).2
    simp only [Row.exec, htodo]
    split
    · exact .inl rfl
    · right
      simp only [Relative.apply]
      split
      · rename_i hle
        rw [if_pos]
        · exact .inr ⟨_, rfl⟩
        · refine ⟨?_, ?_⟩
          · change 0 ≤ (s.visible i).balance + -amt
            linarith
          · change 0 ≤ (s.visible i).locked + amt
            linarith
      · rename_i hle
        rw [hbalance] at hle
        exact .inl ⟨not_le.mp hle, rfl⟩

/-! ## Submits of equal amounts -/

/-- How many transactions have the status. -/
def Row.count (s : Row) (status : Status) : ℕ :=
    s.sessions.countP fun x => decide (x.status = status)

/-- A run of submits of `a`, of which `k` failed for another reason. -/
structure Race (a : ℚ) (w : Wallet) (s : Row) (k : ℕ) : Prop where
  consistent : s.Consistent
  solvent : s.Solvent
  submits : s.Only (· = submit a)
  balance : s.committed.balance = w.balance - s.log.length * a
  committed : s.count .committed = s.log.length
  failed : k ≤ s.count .aborted
  refused : k < s.count .aborted → s.committed.balance < a

theorem count_same (hi : s.sessions[i]? = some x) {x' : Session} (hx' : x'.status = x.status)
    (status : Status) :
    ((s.sessions.set i x').countP fun x => decide (x.status = status)) = s.count status := by
  have hset := Parties.countP_set_add (fun x => decide (x.status = status)) hi x'
  rw [hx'] at hset
  exact Nat.add_right_cancel hset

theorem race_start (h : Race a w s k) : Race a w (step s (.start (submit a))) k := by
  have hcount : ∀ status, status ≠ .active →
      (step s (.start (submit a))).count status = s.count status := by
    intro status hne
    simp [Row.count, step, List.countP_append, hne.symm]
  refine ⟨consistent_step h.consistent _, solvent_step h.solvent _,
    only_step h.submits _ ?_, h.balance, ?_,
    ?_, ?_⟩
  · rintro op ⟨⟩
    rfl
  · rw [hcount .committed (by decide)]
    exact h.committed
  · rw [hcount .aborted (by decide)]
    exact h.failed
  · rw [hcount .aborted (by decide)]
    exact h.refused

/-- A transaction of the race ends without effect: it is refused, or fails for another reason. -/
theorem race_abort (h : Race a w s k) (hi : s.sessions[i]? = some x) (hact : x.status = .active)
    {k' : ℕ} (hk : k ≤ k') (hk' : k' ≤ k + 1) (hbalance : k' = k → s.committed.balance < a) :
    Race a w (s.abort i x) k' := by
  have hop := h.submits.sessions x (List.mem_of_getElem? hi)
  have haborted : (s.abort i x).count .aborted = s.count .aborted + 1 := by
    have hset := Parties.countP_set_add (fun x => decide (x.status = .aborted)) hi
      { x with status := .aborted }
    simpa [hact, Row.abort, Row.count] using hset
  have hcommitted : (s.abort i x).count .committed = s.count .committed := by
    have hset := Parties.countP_set_add (fun x => decide (x.status = .committed)) hi
      { x with status := .aborted }
    simpa [hact, Row.abort, Row.count] using hset
  have hfailed := h.failed
  refine ⟨consistent_abort h.consistent, solvent_abort h.solvent,
    ⟨h.submits.set hop, h.submits.log⟩,
    h.balance, hcommitted.trans h.committed, ?_, fun hlt => ?_⟩
  · rw [haborted]
    omega
  · rw [haborted] at hlt
    by_cases heq : k' = k
    · exact hbalance heq
    · exact h.refused (by omega)

theorem race_exec (h : Race a w s k) (ha : 0 < a) (hi : s.sessions[i]? = some x)
    (hact : x.status = .active) : Race a w (s.exec i x) k := by
  have hop := h.submits.sessions x (List.mem_of_getElem? hi)
  have hconsistent := consistent_exec h.consistent hi hact
  have hsolvent : (s.exec i x).Solvent := solvent_exec h.solvent
  rcases exec_submit h.consistent h.solvent hi hact ha.le hop with heq | ⟨hlt, heq⟩ | ⟨w', heq⟩
  · rw [heq]
    exact h
  · rw [heq]
    exact race_abort h hi hact le_rfl (Nat.le_succ k) fun _ => hlt
  · rw [heq] at hconsistent hsolvent ⊢
    have hcount : ∀ status, Row.count { s with
        holder := some (i, w'), sessions := s.sessions.set i { x with todo := [] } } status =
        s.count status := count_same hi rfl
    refine ⟨hconsistent, hsolvent, ⟨h.submits.set hop, h.submits.log⟩, h.balance, ?_, ?_, ?_⟩
    · rw [hcount]
      exact h.committed
    · rw [hcount]
      exact h.failed
    · rw [hcount]
      exact h.refused

theorem race_commit (h : Race a w s k) (ha : 0 < a) (i : ℕ) : Race a w (step s (.commit i)) k := by
  have hconsistent := consistent_step h.consistent (.commit i)
  have hsolvent := solvent_step h.solvent (.commit i)
  have honly := only_step h.submits (.commit i) nofun
  simp only [step] at hconsistent hsolvent honly ⊢
  split
  · rename_i x hi
    rw [hi] at hconsistent hsolvent honly
    dsimp only at hconsistent hsolvent honly
    split
    · rename_i hend
      rw [if_pos hend] at hconsistent hsolvent honly
      have hop := h.submits.sessions x (List.mem_of_getElem? hi)
      have hbalance : (s.visible i).balance = s.committed.balance - a := by
        have := committed_of_commit h.consistent hi hend.1 hend.2 .balance
        rw [hop, submit_delta_balance] at this
        simp only [submit, getField] at this
        linarith
      have hcommitted : ((s.sessions.set i { x with status := .committed }).countP fun x =>
          decide (x.status = .committed)) = s.count .committed + 1 := by
        have hset := Parties.countP_set_add (fun x => decide (x.status = .committed)) hi
          { x with status := .committed }
        simpa [hend.1, Row.count] using hset
      have haborted : ((s.sessions.set i { x with status := .committed }).countP fun x =>
          decide (x.status = .aborted)) = s.count .aborted := by
        have hset := Parties.countP_set_add (fun x => decide (x.status = .aborted)) hi
          { x with status := .committed }
        simpa [hend.1, Row.count] using hset
      refine ⟨hconsistent, hsolvent, honly, ?_, ?_, ?_, fun hlt => ?_⟩
      · dsimp only
        rw [hbalance, h.balance, List.length_append, List.length_singleton]
        push_cast
        ring
      · rw [List.length_append, List.length_singleton]
        exact hcommitted.trans (congrArg (· + 1) h.committed)
      · exact h.failed.trans haborted.ge
      · have hlt : k < s.count .aborted := lt_of_lt_of_eq hlt haborted
        have := h.refused hlt
        dsimp only
        rw [hbalance]
        linarith
    · exact h
  · exact h

/-- **One step** of a race. -/
theorem Race.step (h : Race a w s k) (ha : 0 < a) {st : Step} (hst : st.Equal a) :
    Race a w (step s st) (k + s.rollsBack st) := by
  cases st with
  | start op =>
    obtain rfl : op = submit a := hst
    exact race_start h
  | exec i =>
    simp only [WalletRow.step]
    split
    · rename_i x hi
      split
      · rename_i hact
        exact race_exec h ha hi hact
      · exact h
    · exact h
  | commit i => exact race_commit h ha i
  | abort i =>
    simp only [WalletRow.step, Row.rollsBack]
    cases hi : s.sessions[i]? with
    | none => exact h
    | some x =>
      dsimp only
      by_cases hact : x.status = .active
      · simp only [hact, if_true, Option.any_some, decide_true]
        exact race_abort h hi hact (Nat.le_succ k) le_rfl fun heq => by omega
      · simp only [hact, if_false, Option.any_some, decide_false, Bool.false_eq_true]
        exact h

end Steps

/-! ## Runs -/

section Runs

variable {w : Wallet} {a : ℚ} {k : ℕ} {s : Row} {steps : List Step}

theorem Race.run (h : Race a w s k) (ha : 0 < a) (hsteps : ∀ st ∈ steps, st.Equal a) :
    Race a w (run s steps) (k + rollbacks s steps) := by
  induction steps generalizing s k with
  | nil => exact h
  | cons st steps ih =>
    have := ih (h.step ha (hsteps st (by simp))) fun st' hst' => hsteps st' (by simp [hst'])
    rwa [add_assoc] at this

theorem race_quiet (hw : w.NonNegative) : Race a w (.quiet w) 0 := by
  refine ⟨consistent_quiet w, ⟨hw, nofun⟩, ⟨fun x hx => ?_, fun op hop => ?_⟩, ?_, rfl, le_rfl, ?_⟩
  · exact absurd hx List.not_mem_nil
  · exact absurd hop List.not_mem_nil
  · simp [Row.quiet]
  · simp [Row.quiet, Row.count]

/-- **As many are accepted as the balance pays for.** -/
theorem Race.accepted (h : Race a w s k) (ha : 0 < a)
    (hover : ∀ x ∈ s.sessions, x.status ≠ .active) :
    s.accepted.length = min (s.sessions.length - k) ⌊w.balance / a⌋₊ := by
  have haccepted : s.accepted.length = s.log.length := by
    unfold Row.accepted
    rw [List.filterMap_congr (g := some ∘ fun _ => a), List.filterMap_eq_map, List.length_map]
    intro op hop
    rw [h.submits.log op hop]
    rfl
  have htotal : s.sessions.length = s.log.length + s.count .aborted := by
    rw [← h.committed, List.length_eq_countP_add_countP fun x : Session =>
      decide (x.status = .committed)]
    refine congrArg (_ + ·) (List.countP_congr fun x hx => ?_)
    have := hover x hx
    cases hstatus : x.status with
    | active => exact absurd hstatus this
    | committed | aborted => simp
  have hbalance := h.balance
  have hnonneg := h.solvent.committed.1
  have hfloor : s.log.length ≤ ⌊w.balance / a⌋₊ := by
    refine Nat.le_floor ?_
    rw [le_div_iff₀ ha]
    linarith
  have hfailed := h.failed
  rw [haccepted]
  by_cases hk : k < s.count .aborted
  · have hlt := h.refused hk
    have hfloor' : ⌊w.balance / a⌋₊ < s.log.length + 1 := by
      refine (Nat.floor_lt' (Nat.succ_ne_zero _)).mpr ?_
      rw [div_lt_iff₀ ha]
      push_cast
      linarith
    omega
  · omega

theorem solvent_run (hw : w.NonNegative) (steps : List Step) : (run (.quiet w) steps).Solvent := by
  induction steps using List.reverseRecOn with
  | nil => exact ⟨hw, nofun⟩
  | append_singleton steps st ih =>
    rw [run_append]
    exact solvent_step ih st

/-- What a run of submits and settlements leaves is the initial row and what they add. -/
theorem exact_run (hsteps : ∀ st ∈ steps, st.Ordinary) :
    (run (.quiet w) steps).Exact w ∧ (run (.quiet w) steps).Only Operation.Ordinary := by
  induction steps using List.reverseRecOn with
  | nil =>
    refine ⟨fun field => ?_, fun x hx => ?_, fun op hop => ?_⟩
    · simp [run, Row.quiet]
    · exact absurd hx List.not_mem_nil
    · exact absurd hop List.not_mem_nil
  | append_singleton steps st ih =>
    obtain ⟨hexact, honly⟩ := ih fun st' hst' => hsteps st' (by simp [hst'])
    rw [run_append]
    refine ⟨(exact_step_iff (consistent_run w steps) hexact st).mpr (fresh_of_ordinary honly st),
      only_step honly _ ?_⟩
    rintro op rfl
    exact hsteps (.start op) (by simp)

/-- **Concurrent submits never overspend**, in every interleaving with the transactions of the
settler. -/
theorem submits_never_overspend (w : Wallet) (hw : w.NonNegative) (steps : List Step)
    (hsteps : ∀ st ∈ steps, st.Ordinary) : NeverOverspends w steps := by
  obtain ⟨hexact, -⟩ := exact_run (w := w) hsteps
  refine
    { committed := (solvent_run hw steps).committed
      visible := (solvent_run hw steps).visible
      balance := ?_
      locked := ?_
      refused := ?_
      maximal := ?_ }
  · have := hexact .balance
    rw [sum_delta] at this
    simp only [submit_delta_balance, sum_map_neg, getField] at this
    rw [this, ← add_assoc, ← sub_eq_add_neg]
    rfl
  · have := hexact .locked
    rw [sum_delta] at this
    simp only [submit_delta_locked, List.map_id', getField] at this
    rw [this, ← add_assoc]
    rfl
  · rintro before i after x amt - hi hop h
    exact lt_of_refuses (consistent_run w before) hi hop h
  · intro a ha hequal hover
    have := (race_quiet hw).run ha hequal
    rw [zero_add] at this
    exact this.accepted ha hover

end Runs

namespace RaceSample

/-- Five orders of 30 race for 100. The first one holds the row while the second waits, and fails
after it has locked; the last one is refused. Then a settlement credits 50. -/
def race : List Step :=
  [.start (submit 30), .start (submit 30), .start (submit 30),
    .start (submit 30), .start (submit 30),
    .exec 0, .exec 1, .abort 0, .exec 1, .commit 1, .exec 2, .exec 3, .commit 2, .exec 3, .commit 3,
    .exec 4, .start (settlement [(50, 0)]), .exec 5, .commit 5]

end RaceSample

theorem submits_race : NeverOverspends ⟨"alice", "USDT", 100, 0⟩ RaceSample.race ∧
    (run (.quiet ⟨"alice", "USDT", 100, 0⟩) RaceSample.race).committed =
      ⟨"alice", "USDT", 60, 90⟩ := by
  refine ⟨submits_never_overspend _ ⟨by norm_num, le_rfl⟩ _ ?_, by decide +kernel⟩
  have hsubmit : (Step.start (submit 30)).Ordinary := .inl ⟨30, rfl⟩
  have hsettle : (Step.start (settlement [(50, 0)])).Ordinary := .inr ⟨_, rfl⟩
  simp only [RaceSample.race, List.forall_mem_cons, hsubmit, hsettle, true_and]
  simp [Step.Ordinary]

end Orbit.WalletRow
