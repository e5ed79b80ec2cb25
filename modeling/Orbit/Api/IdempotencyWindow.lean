import Mathlib.Data.List.Induction
import Orbit.Api.IdempotencyScope
import Orbit.Foundations.History

/-!
# The window of an idempotency key

Requests that come one after the other, with the runs of `IdempotencyCleanupService.sweep` of
`apps/api/src/idempotency/idempotency-cleanup.service.ts` in between. A key is meant to answer
for 24 hours after its response. The interceptor writes that into `expiresAt` and does not read
it back: a stored response answers until a sweep has deleted it. And a response whose insert
fails is never stored.

* `Behaves`: a request is answered from the last response of its key in the last 24 hours, or else
  its handler is run and the response stored.
* `idempotency_window_iff`: every request behaves so exactly when each lookup succeeds and finds no
  row that has expired, each insert succeeds, and the hash tells different bodies apart.
* `expired_key_answers`: a request that is answered after its window has closed.
-/

namespace Orbit.Idempotency

open Table

variable {ρ : Type}

/-! ## Requests one after the other -/

/-- `IdempotencyCleanupService.BATCH_SIZE`. -/
def batchSize : ℕ := 1000

/-- `sweep`: of the expired rows, those that the subquery comes upon first, when it scans the rows
in the order `scan`, are deleted. A sweep that fails scans none. -/
def Gateway.sweep (g : Gateway ρ) (scan : List IdempotencyScope) : Gateway ρ :=
  let expired := scan.filter fun scope => (find? scope g.keys).any (·.expiresAt < g.store.now)
  { g with keys := g.keys.filter fun row => row.scope ∉ expired.take batchSize }

/-- The statements that fail in the three interactions of a request. -/
structure Faults where
  lookup : Option ℕ
  handler : Option ℕ
  insert : Option ℕ
  deriving DecidableEq, Repr

/-- What comes to the api. -/
inductive Event
  | request (req : Request Json) (faults : Faults)
  | sweep (scan : List IdempotencyScope)
  | tick (elapsed : ℕ)

/-- A response of a handler, with the body of its request. -/
structure Completed (ρ : Type) where
  time : ℕ
  body : Json
  status : ℕ
  response : ρ

/-- The api, and of every key the last response that its handler returned. -/
structure Session (ρ : Type) where
  gateway : Gateway ρ
  completed : IdempotencyScope → Option (Completed ρ)

namespace Session

section Step

variable (sha256 : String → String) (handle : Request Json → Stm (ℕ × ρ)) (s : Session ρ)
  (req : Request Json) (faults : Faults)

/-- The request after its lookup. -/
def looked : Gateway ρ :=
  (s.gateway.setPhase 0 .arrived).step (hashBody sha256) handle (fun _ => req) (0, faults.lookup)

/-- The request after its handler. -/
def handled : Gateway ρ :=
  (s.looked sha256 handle req faults).step (hashBody sha256) handle
    (fun _ => req) (0, faults.handler)

/-- The request after its three interactions. -/
def served : Gateway ρ :=
  (s.handled sha256 handle req faults).step (hashBody sha256) handle
    (fun _ => req) (0, faults.insert)

/-- One event. -/
def step : Event → Session ρ
  | .request req faults =>
    { gateway := s.served sha256 handle req faults
      completed :=
        match (s.handled sha256 handle req faults).phases 0 with
        | .handled scope status response => Function.update s.completed scope
            (some ⟨(s.handled sha256 handle req faults).store.now, req.body, status, response⟩)
        | _ => s.completed }
  | .sweep scan => { s with gateway := s.gateway.sweep scan }
  | .tick elapsed =>
    { s with gateway := { s.gateway with
        store := { s.gateway.store with now := s.gateway.store.now + elapsed } } }

def run (events : List Event) : Session ρ := events.foldl (step sha256 handle) s

end Step

/-- The response came less than 24 hours ago. -/
def Live (s : Session ρ) (scope : IdempotencyScope) (c : Completed ρ) : Prop :=
  s.completed scope = some c ∧ s.gateway.store.now < c.time + ttlMs

end Session

/-! ## What a request should do -/

section Reference

variable (sha256 : String → String) (handle : Request Json → Stm (ℕ × ρ)) (s : Session ρ)
  (req : Request Json) (faults : Faults)

/-- The request is answered from a response of its key, or refused when it has another body. -/
structure FromWindow (scope : IdempotencyScope) (c : Completed ρ) : Prop where
  notRun : (s.looked sha256 handle req faults).phases 0 ≠ .missed scope
  store : (s.served sha256 handle req faults).store = s.gateway.store
  same : c.body.sorted = req.body.sorted →
    (s.served sha256 handle req faults).phases 0 = .returned c.status c.response
  differs : c.body.sorted ≠ req.body.sorted → (s.served sha256 handle req faults).phases 0 =
    .failed (.conflict "Idempotency-Key reused with a different request body")

/-- The handler is run, and its response returned and stored. -/
structure Executed (scope : IdempotencyScope) : Prop where
  ran : (s.looked sha256 handle req faults).phases 0 = .missed scope
  returned : ∀ status body store,
    handle req { s.gateway.store with faults := faults.handler } = (.ok (status, body), store) →
      (s.served sha256 handle req faults).store = { store with faults := none } ∧
      (s.served sha256 handle req faults).phases 0 = .returned status body ∧
      find? scope (s.served sha256 handle req faults).keys =
        some (Gateway.stored scope (hashBody sha256 req.body) status body store.now)
  failed : ∀ e store,
    handle req { s.gateway.store with faults := faults.handler } = (.error e, store) →
      (s.served sha256 handle req faults).store = { store with faults := none } ∧
      (s.served sha256 handle req faults).phases 0 = .failed e

/-- **What becomes of a request with a key**: a response of the last 24 hours answers it, and
otherwise the handler is run. -/
def Behaves : Event → Prop
  | .request req faults => ∀ scope, entry req = .scoped scope →
      (∀ c, s.Live scope c → FromWindow sha256 handle s req faults scope c) ∧
      ((∀ c, ¬s.Live scope c) → Executed sha256 handle s req faults scope)
  | _ => True

/-- The lookup succeeds and finds no row that has expired, the hash tells the body from that of the
response in the window, and if the handler has to be run and returns, the insert succeeds. -/
def Meets : Event → Prop
  | .request req faults => ∀ scope, entry req = .scoped scope →
      faults.lookup ≠ some 0 ∧
      (∀ row, find? scope s.gateway.keys = some row → s.gateway.store.now < row.expiresAt) ∧
      (∀ c, s.Live scope c →
        (hashBody sha256 c.body = hashBody sha256 req.body ↔ c.body.sorted = req.body.sorted)) ∧
      ((∀ c, ¬s.Live scope c) →
        (∃ r store, handle req { s.gateway.store with faults := faults.handler } = (.ok r, store)) →
        faults.insert ≠ some 0)
  | _ => True

end Reference

/-! ## What a request does -/

section Outcomes

variable {sha256 : String → String} {handle : Request Json → Stm (ℕ × ρ)} {s : Session ρ}
  {req : Request Json} {faults : Faults} {scope : IdempotencyScope}

theorem Gateway.setPhase_setPhase (g : Gateway ρ) (i : ℕ) (p q : Phase ρ) :
    (g.setPhase i p).setPhase i q = g.setPhase i q := by
  simp [Gateway.setPhase]

/-- A request that was answered or failed makes no more interactions. -/
theorem Gateway.step_answered {g : Gateway ρ} {i : ℕ} {f : Option ℕ}
    (h : (∃ status body, g.phases i = .returned status body) ∨ ∃ e, g.phases i = .failed e) :
    g.step (hashBody sha256) handle (fun _ => req) (i, f) = g := by
  rcases h with ⟨status, body, h⟩ | ⟨e, h⟩ <;> simp [Gateway.step, h]

/-- **A request with a key**: its lookup fails, or finds a row, or finds none; then its handler
fails, or returns and the response is stored or not. -/
inductive Outcome (sha256 : String → String) (handle : Request Json → Stm (ℕ × ρ)) (s : Session ρ)
    (req : Request Json) (faults : Faults) (scope : IdempotencyScope) : Prop
  | fault (h : faults.lookup = some 0)
      (hlooked : s.looked sha256 handle req faults = s.gateway.setPhase 0 (.failed .fault))
      (hstep : s.step sha256 handle (.request req faults) =
        ⟨s.gateway.setPhase 0 (.failed .fault), s.completed⟩)
  | hit (h : faults.lookup ≠ some 0) (row : IdempotencyKey ρ)
      (hrow : find? scope s.gateway.keys = some row)
      (p : Phase ρ) (hmissed : p ≠ .missed scope)
      (hp : p = if row.requestHash = hashBody sha256 req.body then
          .returned row.responseStatus row.responseBody
        else .failed (.conflict "Idempotency-Key reused with a different request body"))
      (hlooked : s.looked sha256 handle req faults = s.gateway.setPhase 0 p)
      (hstep : s.step sha256 handle (.request req faults) = ⟨s.gateway.setPhase 0 p, s.completed⟩)
  | crashed (h : faults.lookup ≠ some 0) (hrow : find? scope s.gateway.keys = none) (e : Failure)
      (store : Store)
      (hrun : handle req { s.gateway.store with faults := faults.handler } = (.error e, store))
      (hlooked : (s.looked sha256 handle req faults).phases 0 = .missed scope)
      (hstep : s.step sha256 handle (.request req faults) =
        ⟨{ s.gateway with store := { store with faults := none } }.setPhase 0 (.failed e),
          s.completed⟩)
  | returned (h : faults.lookup ≠ some 0) (hrow : find? scope s.gateway.keys = none)
      (status : ℕ) (body : ρ)
      (store : Store) (hrun : handle req { s.gateway.store with faults := faults.handler } =
        (.ok (status, body), store))
      (hlooked : (s.looked sha256 handle req faults).phases 0 = .missed scope)
      (hstep : s.step sha256 handle (.request req faults) =
        ⟨{ s.gateway with
            store := { store with faults := none }
            keys := s.gateway.keys ++ if faults.insert = some 0 then [] else
              [Gateway.stored scope (hashBody sha256 req.body) status body store.now] }.setPhase 0
            (.returned status body),
          Function.update s.completed scope (some ⟨store.now, req.body, status, body⟩)⟩)

variable (sha256 handle s faults) in
theorem request_outcome (hscope : entry req = .scoped scope) :
    Outcome sha256 handle s req faults scope := by
  have hlooked : s.looked sha256 handle req faults =
      (s.gateway.setPhase 0 .arrived).lookup 0 scope (hashBody sha256 req.body) faults.lookup := by
    simp [Session.looked, Gateway.step, hscope]
  -- a request that its lookup answers is left as it is
  have hdone : ∀ p : Phase ρ, ((∃ status body, p = .returned status body) ∨ ∃ e, p = .failed e) →
      s.looked sha256 handle req faults = s.gateway.setPhase 0 p →
      s.step sha256 handle (.request req faults) = ⟨s.gateway.setPhase 0 p, s.completed⟩ := by
    intro p hp e
    have hphase : (s.gateway.setPhase 0 p).phases 0 = p := s.gateway.setPhase_phases_self 0 p
    have hanswered : (∃ status body, (s.gateway.setPhase 0 p).phases 0 = .returned status body) ∨
        ∃ e, (s.gateway.setPhase 0 p).phases 0 = .failed e := by rwa [hphase]
    have hhandled : s.handled sha256 handle req faults = s.gateway.setPhase 0 p := by
      rw [Session.handled, e, Gateway.step_answered hanswered]
    have hserved : s.served sha256 handle req faults = s.gateway.setPhase 0 p := by
      rw [Session.served, hhandled, Gateway.step_answered hanswered]
    simp only [Session.step, hserved, hhandled, hphase]
    rcases hp with ⟨status, body, rfl⟩ | ⟨e, rfl⟩ <;> rfl
  by_cases hf : faults.lookup = some 0
  · have e : s.looked sha256 handle req faults = s.gateway.setPhase 0 (.failed .fault) := by
      rw [hlooked, Gateway.lookup, if_pos hf, Gateway.setPhase_setPhase]
    exact .fault hf e (hdone _ (Or.inr ⟨_, rfl⟩) e)
  cases hrow : find? scope s.gateway.keys with
  | some row =>
    by_cases hhash : row.requestHash = hashBody sha256 req.body
    · have e : s.looked sha256 handle req faults =
          s.gateway.setPhase 0 (.returned row.responseStatus row.responseBody) := by
        rw [hlooked, Gateway.lookup, if_neg hf]
        simp [hrow, hhash, Gateway.setPhase_setPhase]
      exact .hit hf row hrow _ (by simp) (if_pos hhash).symm e (hdone _ (Or.inl ⟨_, _, rfl⟩) e)
    · have e : s.looked sha256 handle req faults = s.gateway.setPhase 0
          (.failed (.conflict "Idempotency-Key reused with a different request body")) := by
        rw [hlooked, Gateway.lookup, if_neg hf]
        simp [hrow, hhash, Gateway.setPhase_setPhase]
      exact .hit hf row hrow _ (by simp) (if_neg hhash).symm e (hdone _ (Or.inr ⟨_, rfl⟩) e)
  | none =>
    have e : s.looked sha256 handle req faults = s.gateway.setPhase 0 (.missed scope) := by
      rw [hlooked, Gateway.lookup, if_neg hf]
      simp [hrow, Gateway.setPhase_setPhase]
    have hphase : (s.looked sha256 handle req faults).phases 0 = .missed scope := by
      rw [e, Gateway.setPhase_phases_self]
    rcases hrun : handle req { s.gateway.store with faults := faults.handler }
      with ⟨err | ⟨status, body⟩, store⟩
    · have hhandled : s.handled sha256 handle req faults =
          { s.gateway with store := { store with faults := none } }.setPhase 0 (.failed err) := by
        simp [Session.handled, e, Gateway.step, Gateway.runHandler, hrun, Gateway.setPhase]
      have hserved : s.served sha256 handle req faults =
          { s.gateway with store := { store with faults := none } }.setPhase 0 (.failed err) := by
        rw [Session.served, hhandled]
        exact Gateway.step_answered (Or.inr ⟨err, Gateway.setPhase_phases_self _ 0 _⟩)
      refine .crashed hf hrow err store hrun hphase ?_
      simp only [Session.step, hserved, hhandled, Gateway.setPhase_phases_self]
    · have hhandled : s.handled sha256 handle req faults =
          { s.gateway with store := { store with faults := none } }.setPhase 0
            (.handled scope status body) := by
        simp [Session.handled, e, Gateway.step, Gateway.runHandler, hrun, Gateway.setPhase]
      refine .returned hf hrow status body store hrun hphase ?_
      have hserved : s.served sha256 handle req faults =
          { s.gateway with
            store := { store with faults := none }
            keys := s.gateway.keys ++ if faults.insert = some 0 then [] else
              [Gateway.stored scope (hashBody sha256 req.body) status body store.now] }.setPhase 0
            (.returned status body) := by
        by_cases hins : faults.insert = some 0 <;>
          simp [Session.served, hhandled, Gateway.step, Gateway.persist,
          hrow, hins, Gateway.setPhase]
      simp only [Session.step, hserved, hhandled, Gateway.setPhase_phases_self,
        Gateway.setPhase_store]

variable (sha256 s faults) in
/-- A request without a key that is looked up leaves the stored responses alone. -/
theorem request_unscoped (hscope : ∀ scope, entry req ≠ .scoped scope)
    (hclock : ∀ req store, store.now ≤ (handle req store).2.now) :
    (s.step sha256 handle (.request req faults)).gateway.keys = s.gateway.keys ∧
    (s.step sha256 handle (.request req faults)).completed = s.completed ∧
    s.gateway.store.now ≤ (s.step sha256 handle (.request req faults)).gateway.store.now := by
  -- whatever the first interaction does, it answers the request
  have hdone : ∀ g : Gateway ρ, s.looked sha256 handle req faults = g →
      ((∃ status body, g.phases 0 = .returned status body) ∨ ∃ e, g.phases 0 = .failed e) →
      s.step sha256 handle (.request req faults) = ⟨g, s.completed⟩ := by
    intro g e hp
    have hhandled : s.handled sha256 handle req faults = g := by
      rw [Session.handled, e, Gateway.step_answered hp]
    have hserved : s.served sha256 handle req faults = g := by
      rw [Session.served, hhandled, Gateway.step_answered hp]
    simp only [Session.step, hserved, hhandled]
    rcases hp with ⟨status, body, hp⟩ | ⟨err, hp⟩ <;> rw [hp]
  rcases he : entry req with _ | _ | scope
  · have hnow := hclock req { s.gateway.store with faults := faults.lookup }
    rcases hrun : handle req { s.gateway.store with faults := faults.lookup } with
      ⟨err | ⟨status, body⟩, store⟩
    · rw [hrun] at hnow
      rw [hdone
        ({ s.gateway with store := { store with faults := none } }.setPhase 0 (.failed err))]
      · exact ⟨rfl, rfl, hnow⟩
      · simp [Session.looked, Gateway.step, he, Gateway.runHandler, hrun, Gateway.setPhase]
      · exact Or.inr ⟨_, Gateway.setPhase_phases_self _ 0 _⟩
    · rw [hrun] at hnow
      rw [hdone ({ s.gateway with store := { store with faults := none } }.setPhase 0
        (.returned status body))]
      · exact ⟨rfl, rfl, hnow⟩
      · simp [Session.looked, Gateway.step, he, Gateway.runHandler, hrun, Gateway.setPhase]
      · exact Or.inl ⟨_, _, Gateway.setPhase_phases_self _ 0 _⟩
  · rw [hdone (s.gateway.setPhase 0 (.failed (.conflict "Idempotency-Key must be a UUID v4")))]
    · exact ⟨rfl, rfl, le_rfl⟩
    · simp [Session.looked, Gateway.step, he, Gateway.setPhase_setPhase]
    · exact Or.inr ⟨_, Gateway.setPhase_phases_self _ 0 _⟩
  · exact absurd he (hscope scope)

end Outcomes

/-! ## The window -/

/-- The stored responses are the last ones of their keys, and those of the last
24 hours are there. -/
structure Windowed (sha256 : String → String) (s : Session ρ) : Prop where
  nodup : (s.gateway.keys.map key).Nodup
  row : ∀ scope row, find? scope s.gateway.keys = some row → ∃ c, s.completed scope = some c ∧
    row = Gateway.stored scope (hashBody sha256 c.body) c.status c.response c.time
  live : ∀ scope c, s.Live scope c → (find? scope s.gateway.keys).isSome

section Window

variable {sha256 : String → String} {handle : Request Json → Stm (ℕ × ρ)} {s s' : Session ρ}
  {req : Request Json} {faults : Faults} {scope : IdempotencyScope}

/-- The row of a response of the last 24 hours. -/
theorem Windowed.find?_of_live (hw : Windowed sha256 s) {c : Completed ρ} (hc : s.Live scope c) :
    find? scope s.gateway.keys =
      some (Gateway.stored scope (hashBody sha256 c.body) c.status c.response c.time) := by
  obtain ⟨row, hrow⟩ := Option.isSome_iff_exists.mp (hw.live scope c hc)
  obtain ⟨c', hc', rfl⟩ := hw.row scope row hrow
  obtain rfl : c' = c := Option.some.inj (hc'.symm.trans hc.1)
  exact hrow

/-- A row that has not expired is of the last 24 hours. -/
theorem Windowed.live_of_find? (hw : Windowed sha256 s) {row : IdempotencyKey ρ}
    (hrow : find? scope s.gateway.keys = some row) (hnow : s.gateway.store.now < row.expiresAt) :
    ∃ c, s.Live scope c ∧
      row = Gateway.stored scope (hashBody sha256 c.body) c.status c.response c.time := by
  obtain ⟨c, hc, rfl⟩ := hw.row scope row hrow
  exact ⟨c, ⟨hc, hnow⟩, rfl⟩

/-- A key without a row has no response of the last 24 hours. -/
theorem Windowed.not_live (hw : Windowed sha256 s) (hrow : find? scope s.gateway.keys = none)
    (c : Completed ρ) : ¬s.Live scope c := by
  intro hc
  have := hw.live scope c hc
  rw [hrow] at this
  cases this

/-- A request whose lookup fails is answered from no response. -/
theorem not_fromWindow_of_fault {c : Completed ρ}
    (h : (s.served sha256 handle req faults).phases 0 = .failed .fault) :
    ¬FromWindow sha256 handle s req faults scope c := by
  intro hfrom
  by_cases hbody : c.body.sorted = req.body.sorted
  · have := hfrom.same hbody
    simp [h] at this
  · have := hfrom.differs hbody
    simp [h] at this

/-- **A request that finds the row of a response** is answered from it as it should exactly when
the hash tells different bodies apart. -/
theorem fromWindow_iff {c : Completed ρ}
    (hnotRun : (s.looked sha256 handle req faults).phases 0 ≠ .missed scope)
    (hstore : (s.served sha256 handle req faults).store = s.gateway.store)
    (hphase : (s.served sha256 handle req faults).phases 0 =
      if hashBody sha256 c.body = hashBody sha256 req.body then .returned c.status c.response
      else .failed (.conflict "Idempotency-Key reused with a different request body")) :
    FromWindow sha256 handle s req faults scope c ↔
      (hashBody sha256 c.body = hashBody sha256 req.body ↔ c.body.sorted = req.body.sorted) := by
  constructor
  · intro hfrom
    constructor
    · intro hhash
      by_contra hbody
      have hdiffers := hfrom.differs hbody
      rw [hphase, if_pos hhash] at hdiffers
      cases hdiffers
    · intro hbody
      by_contra hhash
      have hsame := hfrom.same hbody
      rw [hphase, if_neg hhash] at hsame
      cases hsame
  · intro hhash
    refine ⟨hnotRun, hstore, fun hbody => ?_, fun hbody => ?_⟩
    · rw [hphase, if_pos (hhash.mpr hbody)]
    · rw [hphase, if_neg fun he => hbody (hhash.mp he)]

/-- A handler that fails is run as it should. -/
theorem executed_of_crashed {err : Failure} {store : Store}
    (hrun : handle req { s.gateway.store with faults := faults.handler } = (.error err, store))
    (hlooked : (s.looked sha256 handle req faults).phases 0 = .missed scope)
    (hstep : s.step sha256 handle (.request req faults) =
      ⟨{ s.gateway with store := { store with faults := none } }.setPhase 0 (.failed err),
        s.completed⟩) :
    Executed sha256 handle s req faults scope := by
  have hserved : s.served sha256 handle req faults =
    (s.step sha256 handle (.request req faults)).gateway := rfl
  refine ⟨hlooked, ?_, ?_⟩
  · intro status body store' hok
    rw [hrun] at hok
    cases hok
  · intro e store' herr
    obtain ⟨he, rfl⟩ := Prod.mk.inj (hrun.symm.trans herr)
    obtain rfl := Except.error.inj he
    rw [hserved, hstep]
    exact ⟨rfl, Gateway.setPhase_phases_self _ 0 _⟩

/-- **A handler that returns** is run as it should exactly when the insert succeeds. -/
theorem executed_iff {status : ℕ} {body : ρ} {store : Store}
    (hrow : find? scope s.gateway.keys = none)
    (hrun : handle req { s.gateway.store with faults := faults.handler } =
      (.ok (status, body), store))
    (hlooked : (s.looked sha256 handle req faults).phases 0 = .missed scope)
    (hstep : s.step sha256 handle (.request req faults) =
      ⟨{ s.gateway with
          store := { store with faults := none }
          keys := s.gateway.keys ++ if faults.insert = some 0 then [] else
            [Gateway.stored scope (hashBody sha256 req.body) status body store.now] }.setPhase 0
          (.returned status body),
        Function.update s.completed scope (some ⟨store.now, req.body, status, body⟩)⟩) :
    Executed sha256 handle s req faults scope ↔ faults.insert ≠ some 0 := by
  have hserved : s.served sha256 handle req faults =
    (s.step sha256 handle (.request req faults)).gateway := rfl
  constructor
  · intro hexec hins
    obtain ⟨-, -, hstored⟩ := hexec.returned status body store hrun
    rw [hserved, hstep, if_pos hins, List.append_nil] at hstored
    cases hrow.symm.trans hstored
  · intro hins
    refine ⟨hlooked, ?_, ?_⟩
    · intro status' body' store' hok
      obtain ⟨he, rfl⟩ := Prod.mk.inj (hrun.symm.trans hok)
      obtain ⟨rfl, rfl⟩ := Prod.mk.inj (Except.ok.inj he)
      rw [hserved, hstep, if_neg hins]
      refine ⟨rfl, Gateway.setPhase_phases_self _ 0 _, ?_⟩
      rw [Gateway.setPhase_keys, find?_append, hrow, Option.none_or, find?_cons]
      exact if_pos rfl
    · intro e store' herr
      rw [hrun] at herr
      cases herr

/-- **A request behaves as it should exactly when it meets the condition.** -/
theorem Windowed.behaves_iff (hw : Windowed sha256 s) (e : Event) :
    Behaves sha256 handle s e ↔ Meets sha256 handle s e := by
  cases e with
  | sweep scan => exact Iff.rfl
  | tick elapsed => exact Iff.rfl
  | request req faults =>
    refine forall_congr' fun scope => forall_congr' fun hscope => ?_
    have hserved : s.served sha256 handle req faults =
      (s.step sha256 handle (.request req faults)).gateway := rfl
    cases request_outcome sha256 handle s faults hscope with
    | fault h hlooked hstep =>
      have hphase : (s.served sha256 handle req faults).phases 0 = .failed .fault := by
        rw [hserved, hstep]
        exact Gateway.setPhase_phases_self _ 0 _
      refine iff_of_false (fun ⟨hwindow, hrun⟩ => ?_) fun hm => hm.1 h
      by_cases hlive : ∃ c, s.Live scope c
      · obtain ⟨c, hc⟩ := hlive
        exact not_fromWindow_of_fault hphase (hwindow c hc)
      · have := (hrun fun c hc => hlive ⟨c, hc⟩).ran
        simp [hlooked] at this
    | hit h row hrow p hmissed hp hlooked hstep =>
      have hphase : (s.served sha256 handle req faults).phases 0 = p := by
        rw [hserved, hstep]
        exact Gateway.setPhase_phases_self _ 0 p
      have hnotRun : (s.looked sha256 handle req faults).phases 0 ≠ .missed scope := by
        rw [hlooked, Gateway.setPhase_phases_self]
        exact hmissed
      have hstore : (s.served sha256 handle req faults).store = s.gateway.store := by
        rw [hserved, hstep]
        rfl
      -- a response in the window is the one of the row
      have hfrom : ∀ c, s.Live scope c → (FromWindow sha256 handle s req faults scope c ↔
          (hashBody sha256 c.body = hashBody sha256 req.body ↔
            c.body.sorted = req.body.sorted)) := by
        intro c hc
        obtain rfl := Option.some.inj (hrow.symm.trans (hw.find?_of_live hc))
        exact fromWindow_iff hnotRun hstore (hphase.trans hp)
      constructor
      · rintro ⟨hwindow, hrun⟩
        obtain ⟨c, hc⟩ : ∃ c, s.Live scope c := by
          by_contra hnone
          exact hnotRun (hrun fun c hc => hnone ⟨c, hc⟩).ran
        refine ⟨h, fun row' hrow' => ?_, fun c' hc' => (hfrom c' hc').mp (hwindow c' hc'),
          fun hno => absurd hc (hno c)⟩
        obtain rfl := Option.some.inj (hrow'.symm.trans (hw.find?_of_live hc))
        exact hc.2
      · rintro ⟨-, hfresh, hhash, -⟩
        obtain ⟨c, hc, -⟩ := hw.live_of_find? hrow (hfresh row hrow)
        exact ⟨fun c' hc' => (hfrom c' hc').mpr (hhash c' hc'), fun hno => absurd hc (hno c)⟩
    | crashed h hrow err store hrun hlooked hstep =>
      have hno := hw.not_live hrow
      refine iff_of_true ⟨fun c hc => absurd hc (hno c),
        fun _ => executed_of_crashed hrun hlooked hstep⟩
        ⟨h, fun row hrow' => absurd (hrow.symm.trans hrow') (by simp),
        fun c hc => absurd hc (hno c), ?_⟩
      rintro - ⟨r, store', hok⟩
      rw [hrun] at hok
      cases hok
    | returned h hrow status body store hrun hlooked hstep =>
      have hno := hw.not_live hrow
      have hexecuted := executed_iff hrow hrun hlooked hstep
      constructor
      · rintro ⟨-, hexec⟩
        exact ⟨h, fun row hrow' => absurd (hrow.symm.trans hrow') (by simp),
          fun c hc => absurd hc (hno c), fun _ _ => hexecuted.mp (hexec hno)⟩
      · rintro ⟨-, -, -, hins⟩
        exact ⟨fun c hc => absurd hc (hno c),
          fun _ => hexecuted.mpr (hins hno ⟨_, _, hrun⟩)⟩

/-- Where the keys and the responses are the same, a window lasts as long as the clock lets it. -/
theorem Windowed.later (hw : Windowed sha256 s) (hkeys : s'.gateway.keys = s.gateway.keys)
    (hcompleted : s'.completed = s.completed) (hnow : s.gateway.store.now ≤ s'.gateway.store.now) :
    Windowed sha256 s' := by
  refine ⟨hkeys ▸ hw.nodup, fun scope row hrow => ?_, fun scope c hc => ?_⟩
  · rw [hkeys] at hrow
    rw [hcompleted]
    exact hw.row scope row hrow
  · rw [hkeys]
    refine hw.live scope c ⟨hcompleted ▸ hc.1, hnow.trans_lt hc.2⟩

/-- The row of a key is there after a sweep as it was, unless it has expired. -/
theorem Gateway.find?_sweep (g : Gateway ρ) (scan : List IdempotencyScope)
    (scope : IdempotencyScope) :
    (find? scope (g.sweep scan).keys = none ∧
      ∃ row, find? scope g.keys = some row ∧ row.expiresAt < g.store.now) ∨
    find? scope (g.sweep scan).keys = find? scope g.keys := by
  have hfind : ∀ batch : List IdempotencyScope,
    find? scope (g.keys.filter fun row => row.scope ∉ batch) =
      if decide (scope ∉ batch) then find? scope g.keys else none :=
    fun batch => find?_filter_key scope g.keys fun k => decide (k ∉ batch)
  rw [Gateway.sweep, hfind]
  split
  · exact Or.inr rfl
  · rename_i hmem
    rw [decide_eq_true_eq, not_not] at hmem
    have hexpired := (List.mem_filter.mp (List.mem_of_mem_take hmem)).2
    obtain ⟨row, hrow, hlt⟩ := (Option.any_eq_true _ _).mp hexpired
    exact Or.inl ⟨rfl, row, hrow, of_decide_eq_true hlt⟩

/-- A sweep deletes expired rows only. -/
theorem Windowed.sweep (hw : Windowed sha256 s) (scan : List IdempotencyScope) :
    Windowed sha256 { s with gateway := s.gateway.sweep scan } where
  nodup := hw.nodup.sublist (List.filter_sublist.map key)
  row scope row hrow := by
    rcases s.gateway.find?_sweep scan scope with ⟨hnone, -⟩ | h
    · cases hnone.symm.trans hrow
    · exact hw.row scope row (h.symm.trans hrow)
  live scope c hc := by
    have hrow := hw.find?_of_live hc
    change (find? scope (s.gateway.sweep scan).keys).isSome
    rcases s.gateway.find?_sweep scan scope with ⟨-, row, hrow', hexpired⟩ | h
    · obtain rfl := Option.some.inj (hrow'.symm.trans hrow)
      exact absurd hc.2 hexpired.not_gt
    · rw [h, hrow]
      rfl

/-- **An event that meets the condition keeps the window.** -/
theorem Windowed.step (hw : Windowed sha256 s)
    (hclock : ∀ req store, store.now ≤ (handle req store).2.now) {e : Event}
    (he : Meets sha256 handle s e) : Windowed sha256 (s.step sha256 handle e) := by
  cases e with
  | sweep scan => exact hw.sweep scan
  | tick elapsed => exact hw.later rfl rfl (Nat.le_add_right _ _)
  | request req faults =>
    by_cases hscope : ∃ scope, entry req = .scoped scope
    · obtain ⟨scope, hscope⟩ := hscope
      obtain ⟨hlookup, -, -, hinsert⟩ := he scope hscope
      cases request_outcome sha256 handle s faults hscope with
      | fault h hlooked hstep => exact absurd h hlookup
      | hit h row hrow p hmissed hp hlooked hstep =>
        rw [hstep]
        exact hw.later rfl rfl le_rfl
      | crashed h hrow err store hrun hlooked hstep =>
        rw [hstep]
        refine hw.later rfl rfl ?_
        have := hclock req { s.gateway.store with faults := faults.handler }
        rwa [hrun] at this
      | returned h hrow status body store hrun hlooked hstep =>
        have hno : ∀ c, ¬s.Live scope c := fun c hc => by
          have := hw.live scope c hc
          rw [hrow] at this
          cases this
        have hnow := hclock req { s.gateway.store with faults := faults.handler }
        rw [hrun] at hnow
        have hself : find? scope
            [Gateway.stored scope (hashBody sha256 req.body) status body store.now] =
              some (Gateway.stored scope (hashBody sha256 req.body) status body store.now) := by
          rw [find?_cons]
          exact if_pos rfl
        have hother : ∀ scope', scope' ≠ scope →
            find? scope' [Gateway.stored scope (hashBody sha256 req.body) status body store.now] =
            none := by
          intro scope' e
          rw [find?_cons]
          exact if_neg fun h => e h.symm
        rw [hstep, if_neg (hinsert hno ⟨_, _, hrun⟩)]
        refine ⟨nodup_map_key_append hw.nodup hrow, fun scope' row hrow' =>
          ?_, fun scope' c hc => ?_⟩
        · by_cases e : scope' = scope
          · subst e
            refine ⟨⟨store.now, req.body, status, body⟩, Function.update_self _ _ _, ?_⟩
            rw [Gateway.setPhase_keys, find?_append, hrow, Option.none_or, hself] at hrow'
            exact (Option.some.inj hrow').symm
          · rw [Gateway.setPhase_keys, find?_append, hother scope' e, Option.or_none] at hrow'
            obtain ⟨c, hc, rfl⟩ := hw.row scope' row hrow'
            exact ⟨c, (Function.update_of_ne e _ _).trans hc, rfl⟩
        · by_cases e : scope' = scope
          · subst e
            rw [Gateway.setPhase_keys, find?_append, hrow, Option.none_or, hself]
            rfl
          · have hold : s.Live scope' c :=
              ⟨(Function.update_of_ne e _ _).symm.trans hc.1, hnow.trans_lt hc.2⟩
            obtain ⟨row, hrow'⟩ := Option.isSome_iff_exists.mp (hw.live scope' c hold)
            rw [Gateway.setPhase_keys, find?_append, hrow', Option.some_or]
            rfl
    · obtain ⟨hkeys, hcompleted, hnow⟩ := request_unscoped sha256 s faults
        (fun scope h => hscope ⟨scope, h⟩) hclock
      exact hw.later hkeys hcompleted hnow

/-- The session of an api that has stored no response. -/
def Session.start (g : Gateway ρ) : Session ρ := ⟨g, fun _ => none⟩

theorem windowed_start {g : Gateway ρ} (hg : g.keys = []) : Windowed sha256 (Session.start g) where
  nodup := by simp [Session.start, hg]
  row scope row hrow := by simp [Session.start, hg] at hrow
  live scope c hc := by cases hc.1

variable (sha256) in
/-- **The window of an idempotency key.** In every sequence of requests and sweeps, each request
with a key is answered from the last response of its key in the last 24 hours, or else handled and
its response stored, exactly when each of them meets the condition: its lookup succeeds, and finds
no row that has expired, the hash of its body is that of the response in the window just when the
bodies are the same, and the insert of a response succeeds. -/
theorem idempotency_window_iff (hclock : ∀ req store, store.now ≤ (handle req store).2.now)
    {g : Gateway ρ} (hg : g.keys = []) (events : List Event) :
    Justified (fun before e => Behaves sha256 handle ((Session.start g).run sha256 handle before) e)
      events ↔
    Justified (fun before e => Meets sha256 handle ((Session.start g).run sha256 handle before) e)
      events := by
  induction events using List.reverseRecOn with
  | nil => exact iff_of_true justified_nil justified_nil
  | append_singleton before e ih =>
    rw [justified_concat, justified_concat, ih]
    refine and_congr_right fun hmeets => ?_
    have hw : Windowed sha256 ((Session.start g).run sha256 handle before) :=
      Justified.invariant (I := Windowed sha256) (fun s e hw he => hw.step hclock he)
        (windowed_start hg) hmeets
    exact hw.behaves_iff e

end Window

/-! ## A day later -/

namespace WindowSample

open ScopeSample (cancelOf cancelRow sha256)

/-- An api that has stored nothing, and a handler that returns the time. -/
def fresh : Gateway ℕ := ⟨[], Orbit.Sample.store, fun _ => .arrived⟩

def clock : Request Json → Stm (ℕ × ℕ) := fun _ => do
  let now ← Stm.dateNow
  pure (200, now)

theorem clock_le (req : Request Json) (store : Store) :
    store.now ≤ (clock req store).2.now := le_rfl

/-- The cancel of order 1, in which no statement fails. -/
def cancel : Event := .request (cancelOf 1) ⟨none, none, none⟩

theorem entry_cancelOf : entry (cancelOf 1) = .scoped cancelRow.scope := by decide +kernel

/-- The session after the cancel, `elapsed` milliseconds later. -/
def later (elapsed : ℕ) : Session ℕ := (Session.start fresh).run sha256
    clock [cancel, .tick elapsed]

theorem later_keys (elapsed : ℕ) :
    (later elapsed).gateway.keys = [{ cancelRow with responseBody := 0 }] := by
  have h : (later 0).gateway.keys = [{ cancelRow with responseBody := 0 }] := by decide +kernel
  exact h

theorem later_completed (elapsed : ℕ) : (later elapsed).completed =
    Function.update (fun _ => none) cancelRow.scope (some ⟨0, .obj [], 200, 0⟩) := rfl

end WindowSample

/-- The cancel is sent again an hour later, and is answered as it was. -/
theorem idempotency_window_hour : (∀ req store, store.now ≤ (WindowSample.clock req store).2.now) ∧
    Justified (fun before e => Behaves ScopeSample.sha256 WindowSample.clock
      ((Session.start WindowSample.fresh).run ScopeSample.sha256 WindowSample.clock before) e)
      [WindowSample.cancel, .tick 3600000, WindowSample.cancel] ∧
    ((WindowSample.later 3600000).served ScopeSample.sha256 WindowSample.clock
      (ScopeSample.cancelOf 1) ⟨none, none, none⟩).phases 0 = .returned 200 0 := by
  refine ⟨WindowSample.clock_le,
    (idempotency_window_iff ScopeSample.sha256 WindowSample.clock_le rfl _).mpr ?_,
    by decide +kernel⟩
  simp only [justified_cons, justified_nil, and_true]
  refine ⟨fun scope hscope => ?_, trivial, fun scope hscope => ?_⟩
  · refine ⟨by simp, fun row hrow => ?_, fun c hc => ?_, by simp⟩
    · cases hrow
    · cases hc.1
  · obtain rfl := Entry.scoped.inj (WindowSample.entry_cancelOf.symm.trans hscope)
    have hkeys := WindowSample.later_keys 3600000
    have hcompleted := WindowSample.later_completed 3600000
    refine ⟨by simp, fun row hrow => ?_, fun c hc => ?_, by simp⟩
    · have hmem : row ∈ (WindowSample.later 3600000).gateway.keys := mem_of_find? hrow
      rw [hkeys] at hmem
      obtain rfl := List.mem_singleton.mp hmem
      exact show 3600000 < 0 + ttlMs by decide
    · have hc' : (WindowSample.later 3600000).completed ScopeSample.cancelRow.scope = some c := hc.1
      rw [hcompleted, Function.update_self] at hc'
      obtain rfl := Option.some.inj hc'
      exact iff_of_true rfl rfl

/-- **A key that answers when its window has closed.** A day and a millisecond later the row of the
first response has expired and is still there: the cancel is answered from it, and not handled. -/
theorem expired_key_answers : (∀ req store, store.now ≤ (WindowSample.clock req store).2.now) ∧
    (∀ scope c, ¬(WindowSample.later (ttlMs + 1)).Live scope c) ∧
    ((WindowSample.later (ttlMs + 1)).served ScopeSample.sha256 WindowSample.clock
      (ScopeSample.cancelOf 1) ⟨none, none, none⟩).phases 0 = .returned 200 0 ∧
    ¬Behaves ScopeSample.sha256 WindowSample.clock (WindowSample.later (ttlMs + 1))
      WindowSample.cancel := by
  have hlive : ∀ scope c, ¬(WindowSample.later (ttlMs + 1)).Live scope c := by
    rintro scope c ⟨hc, hnow⟩
    rw [WindowSample.later_completed] at hc
    by_cases e : scope = ScopeSample.cancelRow.scope
    · subst e
      rw [Function.update_self] at hc
      obtain rfl := Option.some.inj hc
      exact absurd hnow (by decide)
    · rw [Function.update_of_ne e] at hc
      cases hc
  have hanswer : ((WindowSample.later (ttlMs + 1)).served ScopeSample.sha256 WindowSample.clock
      (ScopeSample.cancelOf 1) ⟨none, none, none⟩).phases 0 = .returned 200 0 := by decide +kernel
  refine ⟨WindowSample.clock_le, hlive, hanswer, fun hb => ?_⟩
  -- the handler would have returned another time
  have hreturned := ((hb _ WindowSample.entry_cancelOf).2 (hlive _)).returned 200 (ttlMs + 1) _ rfl
  rw [hanswer] at hreturned
  cases hreturned.2.1

end Orbit.Idempotency
