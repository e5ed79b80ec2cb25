import Orbit.Api.Specs

/-!
# Idempotency keys

`IdempotencyInterceptor` of `apps/api/src/idempotency/idempotency.interceptor.ts`, over the handler
it wraps. A request with a key goes through three interactions with the database: the lookup of the
key, the handler, and the insert of the response. Each is atomic, nothing holds a lock from one to
the next, and requests interleave in any order: a `Gateway` is the state of the api with the phase
that each request has reached, and a run is a list of the requests that make their next interaction.
An insert that loses to the unique index, or fails, is only logged.

* `idempotency_at_most_once`: one stored response for each key, which answers every request that
  looks it up from then on; and one execution of `OrderService.submit`, when no request looks up
  while another is between its own lookup and its insert.
* `idempotency_race`: without that, the handler runs twice.
-/

namespace Orbit

open Table

/-- The columns of the unique index of `IdempotencyKey`. -/
structure IdempotencyScope where
  userId : String
  key : String
  method : String
  path : String
  deriving DecidableEq, Repr

/-- A row of the `IdempotencyKey` table, for responses in `ρ`. -/
structure IdempotencyKey (ρ : Type) where
  scope : IdempotencyScope
  requestHash : String
  responseStatus : ℕ
  responseBody : ρ
  expiresAt : ℕ
  deriving DecidableEq, Repr

instance (ρ : Type) : Keyed (IdempotencyKey ρ) IdempotencyScope where
  key row := row.scope

namespace Idempotency

/-- `TTL_MS`. -/
def ttlMs : ℕ := 24 * 60 * 60 * 1000

def hexDigit (c : Char) : Bool := c.isDigit || ('a' ≤ c.toLower && c.toLower ≤ 'f')

/-- `UUID_V4_REGEX`, character by character. -/
def uuidV4 : List (Char → Bool) :=
  List.replicate 8 hexDigit ++ [(· == '-')] ++ List.replicate 4 hexDigit ++
    [(· == '-'), (· == '4')] ++
    List.replicate 3 hexDigit ++ [(· == '-'), fun c => ['8', '9', 'a', 'b'].contains c.toLower] ++
    List.replicate 3 hexDigit ++ [(· == '-')] ++ List.replicate 12 hexDigit

def fits : List (Char → Bool) → List Char → Bool
  | [], [] => true
  | p :: ps, c :: cs => p c && fits ps cs
  | _, _ => false

/-- What the interceptor reads of a request with a body in `β`. -/
structure Request (β : Type) where
  idempotencyKey : Option String
  userId : Option String
  method : String
  routePath : Option String
  url : Option String
  path : Option String
  body : β
  deriving DecidableEq, Repr

/-- `req.route?.path ?? req.url ?? req.path ?? 'unknown'`. -/
def Request.cachePath {β : Type} (req : Request β) : String :=
  ((req.routePath.or req.url).or req.path).getD "unknown"

/-- What becomes of a request before any lookup. -/
inductive Entry
  /-- There is no key, or no user: the handler is called. -/
  | bypass
  /-- The key is not a UUID v4. -/
  | refuse
  | scoped (scope : IdempotencyScope)
  deriving DecidableEq, Repr

/-- The part of `intercept` before the lookup. Missing and empty texts are falsy. -/
def entry {β : Type} (req : Request β) : Entry :=
  match req.idempotencyKey with
  | none => .bypass
  | some rawKey =>
    if rawKey = "" then .bypass
    else if fits uuidV4 rawKey.toList = false then .refuse
    else
      match req.userId with
      | none => .bypass
      | some userId =>
        if userId = "" then .bypass
        else .scoped { userId, key := rawKey, method := req.method, path := req.cachePath }

/-- How far a request has come. -/
inductive Phase (ρ : Type)
  | arrived
  /-- The lookup found nothing. -/
  | missed (scope : IdempotencyScope)
  /-- The handler returned. -/
  | handled (scope : IdempotencyScope) (status : ℕ) (body : ρ)
  | returned (status : ℕ) (body : ρ)
  | failed (e : Failure)
  deriving DecidableEq, Repr

/-- A request between its lookup and its insert. -/
def Phase.inFlight {ρ : Type} : Phase ρ → Bool
  | .missed _ => true
  | .handled _ _ _ => true
  | _ => false

/-- The api: the stored responses, the rest of the database, and the requests. -/
structure Gateway (ρ : Type) where
  keys : List (IdempotencyKey ρ)
  store : Store
  phases : ℕ → Phase ρ

namespace Gateway

variable {β ρ : Type}

def setPhase (g : Gateway ρ) (i : ℕ) (p : Phase ρ) : Gateway ρ :=
  { g with phases := Function.update g.phases i p }

/-- `idempotencyKey.findUnique`, and what is done with what it finds. -/
def lookup (g : Gateway ρ) (i : ℕ) (scope : IdempotencyScope) (requestHash : String)
    (faults : Option ℕ) : Gateway ρ :=
  if faults = some 0 then g.setPhase i (.failed .fault)
  else
    match find? scope g.keys with
    | none => g.setPhase i (.missed scope)
    | some existing =>
      if existing.requestHash ≠ requestHash then
        g.setPhase i (.failed (.conflict "Idempotency-Key reused with a different request body"))
      else g.setPhase i (.returned existing.responseStatus existing.responseBody)

/-- `next.handle()`: what it returns is a status and a body. -/
def runHandler (g : Gateway ρ) (i : ℕ) (handler : Stm (ℕ × ρ)) (faults : Option ℕ)
    (next : ℕ → ρ → Phase ρ) : Gateway ρ :=
  match handler { g.store with faults } with
  | (.ok (status, body), store) =>
    { g with store := { store with faults := none } }.setPhase i (next status body)
  | (.error e, store) => { g with store := { store with faults := none } }.setPhase i (.failed e)

/-- The row that `persist` creates. -/
def stored (scope : IdempotencyScope) (requestHash : String) (status : ℕ) (body : ρ) (now : ℕ) :
    IdempotencyKey ρ where
  scope := scope
  requestHash := requestHash
  responseStatus := status
  responseBody := body
  expiresAt := now + ttlMs

/-- `persist`: a failure, or a row that is already there, is logged and the response returned. -/
def persist (g : Gateway ρ) (i : ℕ) (scope : IdempotencyScope) (requestHash : String) (status : ℕ)
    (body : ρ) (faults : Option ℕ) : Gateway ρ :=
  if faults = some 0 ∨ (find? scope g.keys).isSome then g.setPhase i (.returned status body)
  else
    { g with keys := g.keys ++ [stored scope requestHash status body g.store.now] }.setPhase i
      (.returned status body)

/-- The next interaction of the request `i`; `faults` is the statement of it that fails, if any. -/
def step (hashBody : β → String) (handle : Request β → Stm (ℕ × ρ)) (requests : ℕ → Request β)
    (g : Gateway ρ) (l : ℕ × Option ℕ) : Gateway ρ :=
  match g.phases l.1 with
  | .arrived =>
    match entry (requests l.1) with
    | .bypass => g.runHandler l.1 (handle (requests l.1)) l.2 .returned
    | .refuse => g.setPhase l.1 (.failed (.conflict "Idempotency-Key must be a UUID v4"))
    | .scoped scope => g.lookup l.1 scope (hashBody (requests l.1).body) l.2
  | .missed scope => g.runHandler l.1 (handle (requests l.1)) l.2 (.handled scope)
  | .handled scope status body =>
    g.persist l.1 scope (hashBody (requests l.1).body) status body l.2
  | .returned _ _ => g
  | .failed _ => g

def run (hashBody : β → String) (handle : Request β → Stm (ℕ × ρ)) (requests : ℕ → Request β)
    (g : Gateway ρ) (steps : List (ℕ × Option ℕ)) : Gateway ρ :=
  steps.foldl (step hashBody handle requests) g

end Gateway

/-- `OrderController.submit`, behind its guard. -/
def submitOrder (req : Request CreateOrderDto) : Stm (ℕ × OrderService.PresentedOrder) :=
  match req.userId with
  | none => Tx.fail .typeError
  | some userId => do
    let order ← OrderService.submit userId req.body
    pure (201, OrderService.presentOrder order)

/-! ## What an interaction can do -/

section Moves

variable {β ρ : Type} {hashBody : β → String} {handle : Request β → Stm (ℕ × ρ)} {req : Request β}
  {scope : IdempotencyScope} {g g' : Gateway ρ} {i : ℕ} {faults : Option ℕ}

@[simp] theorem Gateway.setPhase_keys (g : Gateway ρ) (i : ℕ) (p : Phase ρ) :
    (g.setPhase i p).keys = g.keys := rfl

@[simp] theorem Gateway.setPhase_store (g : Gateway ρ) (i : ℕ) (p : Phase ρ) :
    (g.setPhase i p).store = g.store := rfl

@[simp] theorem Gateway.setPhase_phases_self (g : Gateway ρ) (i : ℕ) (p : Phase ρ) :
    (g.setPhase i p).phases i = p := by
  simp [setPhase]

theorem Gateway.setPhase_phases_ne (g : Gateway ρ) {i j : ℕ} (h : j ≠ i) (p : Phase ρ) :
    (g.setPhase i p).phases j = g.phases j := by
  simp [setPhase, h]

/-- **What an interaction of the request `i` can do**, when its key has the scope `scope`. -/
inductive Moves (hashBody : β → String) (handle : Request β → Stm (ℕ × ρ)) (req : Request β)
    (scope : IdempotencyScope) (g : Gateway ρ) (i : ℕ) (faults : Option ℕ) : Gateway ρ → Prop
  | answered (h : (∃ status body, g.phases i = .returned status body) ∨
      ∃ e, g.phases i = .failed e) :
      Moves hashBody handle req scope g i faults g
  | refused (e : Failure) (h : g.phases i = .arrived) :
      Moves hashBody handle req scope g i faults (g.setPhase i (.failed e))
  | hit (row : IdempotencyKey ρ) (h : g.phases i = .arrived)
      (hrow : find? scope g.keys = some row) :
      Moves hashBody handle req scope g i faults
        (g.setPhase i (.returned row.responseStatus row.responseBody))
  | miss (h : g.phases i = .arrived) (hrow : find? scope g.keys = none) :
      Moves hashBody handle req scope g i faults (g.setPhase i (.missed scope))
  | executed (sc : IdempotencyScope) (status : ℕ) (body : ρ) (store : Store)
      (h : g.phases i = .missed sc)
      (hrun : handle req { g.store with faults } = (.ok (status, body), store)) :
      Moves hashBody handle req scope g i faults
        ({ g with store := { store with faults := none } }.setPhase i (.handled sc status body))
  | crashed (sc : IdempotencyScope) (e : Failure) (store : Store) (h : g.phases i = .missed sc)
      (hrun : handle req { g.store with faults } = (.error e, store)) :
      Moves hashBody handle req scope g i faults
        ({ g with store := { store with faults := none } }.setPhase i (.failed e))
  /-- The insert failed, or lost to the unique index. -/
  | lost (sc : IdempotencyScope) (status : ℕ) (body : ρ) (h : g.phases i = .handled sc status body)
      (why : faults = some 0 ∨ (find? sc g.keys).isSome) :
      Moves hashBody handle req scope g i faults (g.setPhase i (.returned status body))
  | inserted (sc : IdempotencyScope) (status : ℕ) (body : ρ)
      (h : g.phases i = .handled sc status body) (hrow : find? sc g.keys = none) :
      Moves hashBody handle req scope g i faults
        ({ g with keys := g.keys ++ [Gateway.stored sc (hashBody req.body) status body
            g.store.now] }.setPhase i (.returned status body))

theorem step_moves (hscope : entry req = .scoped scope) (g : Gateway ρ) (l : ℕ × Option ℕ) :
    Moves hashBody handle req scope g l.1 l.2 (g.step hashBody handle (fun _ => req) l) := by
  unfold Gateway.step
  cases hp : g.phases l.1 with
  | arrived =>
    simp only [hscope]
    unfold Gateway.lookup
    split
    · exact .refused _ hp
    · cases hrow : find? scope g.keys with
      | none => exact .miss hp hrow
      | some row =>
        dsimp only
        split
        · exact .refused _ hp
        · exact .hit row hp hrow
  | missed sc =>
    simp only
    unfold Gateway.runHandler
    rcases hrun : handle req { g.store with faults := l.2 } with ⟨e | ⟨status, body⟩, store⟩
    · exact .crashed sc e store hp hrun
    · exact .executed sc status body store hp hrun
  | handled sc status body =>
    simp only
    unfold Gateway.persist
    split
    · rename_i why
      exact .lost sc status body hp why
    · rename_i hn
      rw [not_or, Option.not_isSome_iff_eq_none] at hn
      exact .inserted sc status body hp hn.2
  | returned status body => exact .answered (Or.inl ⟨status, body, hp⟩)
  | failed e => exact .answered (Or.inr ⟨e, hp⟩)

/-- A request is moved by its own interactions only. -/
theorem Moves.phases_ne (hmove : Moves hashBody handle req scope g i faults g')
    {j : ℕ} (h : j ≠ i) :
    g'.phases j = g.phases j := by
  cases hmove with
  | answered _ => rfl
  | _ => exact Gateway.setPhase_phases_ne _ h _

/-- The stored responses have distinct scopes, and the requests store what they looked up. -/
structure Consistent (hash : String) (scope : IdempotencyScope) (g : Gateway ρ) : Prop where
  nodup : (g.keys.map key).Nodup
  hash : ∀ row, find? scope g.keys = some row → row.requestHash = hash
  missed : ∀ i sc, g.phases i = .missed sc → sc = scope
  handled : ∀ i sc status body, g.phases i = .handled sc status body → sc = scope

theorem Consistent.setPhase {hash : String} (h : Consistent hash scope g) (i : ℕ) {p : Phase ρ}
    (hm : ∀ sc, p = .missed sc → sc = scope)
    (hh : ∀ sc status body, p = .handled sc status body → sc = scope) :
    Consistent hash scope (g.setPhase i p) := by
  refine ⟨h.nodup, h.hash, fun j sc hj => ?_, fun j sc status body hj => ?_⟩
  · by_cases e : j = i
    · subst e
      rw [Gateway.setPhase_phases_self] at hj
      exact hm sc hj
    · rw [Gateway.setPhase_phases_ne g e] at hj
      exact h.missed j sc hj
  · by_cases e : j = i
    · subst e
      rw [Gateway.setPhase_phases_self] at hj
      exact hh sc status body hj
    · rw [Gateway.setPhase_phases_ne g e] at hj
      exact h.handled j sc status body hj

/-- **An interaction keeps the stored responses consistent.** -/
theorem Moves.consistent (hmove : Moves hashBody handle req scope g i faults g')
    (h : Consistent (hashBody req.body) scope g) : Consistent (hashBody req.body) scope g' := by
  cases hmove with
  | answered _ => exact h
  | refused e _ => exact h.setPhase i nofun nofun
  | hit row _ _ => exact h.setPhase i nofun nofun
  | miss _ _ => exact h.setPhase i (fun sc e => (Phase.missed.inj e).symm) nofun
  | executed sc status body store hp _ =>
    have hsc := h.missed i sc hp
    exact Consistent.setPhase (g := { g with store := { store with faults := none } })
      ⟨h.nodup, h.hash, h.missed, h.handled⟩ i nofun
      fun sc' _ _ e => (Phase.handled.inj e).1.symm.trans hsc
  | crashed sc e store _ _ =>
    exact Consistent.setPhase (g := { g with store := { store with faults := none } })
      ⟨h.nodup, h.hash, h.missed, h.handled⟩ i nofun nofun
  | lost sc status body _ _ => exact h.setPhase i nofun nofun
  | inserted sc status body hp hrow =>
    obtain rfl := h.handled i sc status body hp
    refine Consistent.setPhase (g := { g with keys := g.keys ++ [_] })
      ⟨nodup_map_key_append h.nodup hrow, fun row hfind => ?_, h.missed, h.handled⟩ i nofun nofun
    rw [find?_append, hrow, Option.none_or, find?_cons] at hfind
    split at hfind
    · cases hfind
      rfl
    · cases hfind

variable (handle) in
theorem run_consistent (hscope : entry req = .scoped scope)
    (h : Consistent (hashBody req.body) scope g) (steps : List (ℕ × Option ℕ)) :
    Consistent (hashBody req.body) scope (g.run hashBody handle (fun _ => req) steps) := by
  induction steps generalizing g with
  | nil => exact h
  | cons l ls ih => exact ih ((step_moves hscope g l).consistent h)

/-- A request that looks up a stored response returns it, and does nothing else. -/
theorem step_hit (hscope : entry req = .scoped scope) (h : Consistent (hashBody req.body) scope g)
    {row : IdempotencyKey ρ} (hrow : find? scope g.keys = some row) (hp : g.phases i = .arrived) :
    g.step hashBody handle (fun _ => req) (i, none) =
      g.setPhase i (.returned row.responseStatus row.responseBody) := by
  simp [Gateway.step, hp, hscope, Gateway.lookup, hrow, h.hash row hrow]

end Moves

/-! ## One execution -/

section Once

variable {hashBody : CreateOrderDto → String} {req : Request CreateOrderDto}
    {scope : IdempotencyScope}
  {g g' : Gateway OrderService.PresentedOrder} {i : ℕ} {faults : Option ℕ} {db₀ : Db}

/-- `OrderService.submit` placed one order on the tables `db₀`, and nothing else happened. -/
def PlacedOn (db₀ : Db) (store : Store) (o : Order) : Prop :=
  ∃ s₁ s₂ market cmd, s₁.db = db₀ ∧ Placed s₁ s₂ o market cmd ∧ store.db = s₂.db

/-- A request that has not gone past its lookup, or failed. -/
def Phase.Idle {ρ : Type} (p : Phase ρ) : Prop := p = .arrived ∨ ∃ e, p = .failed e

/-- At most one execution: none yet, one request on its way to it or back, or
its response stored. -/
inductive Once (scope : IdempotencyScope) (db₀ : Db)
    (g : Gateway OrderService.PresentedOrder) : Prop
  | waiting (hdb : g.store.db = db₀) (hrow : find? scope g.keys = none)
      (hidle : ∀ j, (g.phases j).Idle) : Once scope db₀ g
  | pending (i : ℕ) (hdb : g.store.db = db₀) (hrow : find? scope g.keys = none)
      (hi : g.phases i = .missed scope) (hidle : ∀ j, j ≠ i → (g.phases j).Idle) : Once scope db₀ g
  | executed (i : ℕ) (o : Order) (hplaced : PlacedOn db₀ g.store o)
      (hrow : find? scope g.keys = none)
      (hi : g.phases i = .handled scope 201 (OrderService.presentOrder o))
      (hidle : ∀ j, j ≠ i → (g.phases j).Idle) : Once scope db₀ g
  | stored (o : Order) (row : IdempotencyKey OrderService.PresentedOrder)
      (hplaced : PlacedOn db₀ g.store o) (hrow : find? scope g.keys = some row)
      (hstatus : row.responseStatus = 201) (hbody : row.responseBody = OrderService.presentOrder o)
      (hphases : ∀ j, (g.phases j).Idle ∨
        g.phases j = .returned 201 (OrderService.presentOrder o)) : Once scope db₀ g

/-- A run in which no request looks up while another is in flight, and no insert fails for another
reason than the unique index. -/
def Serial (hashBody : CreateOrderDto → String) (req : Request CreateOrderDto) :
    Gateway OrderService.PresentedOrder → List (ℕ × Option ℕ) → Prop
  | _, [] => True
  | g, l :: ls =>
    (g.phases l.1 = .arrived → ∀ j, j ≠ l.1 → (g.phases j).inFlight = false) ∧
    ((∃ sc status body, g.phases l.1 = .handled sc status body) → l.2 ≠ some 0) ∧
    Serial hashBody req (g.step hashBody submitOrder (fun _ => req) l) ls

theorem submitOrder_eq_ok {s s' : Store} {status : ℕ} {body : OrderService.PresentedOrder}
    (h : submitOrder req s = (.ok (status, body), s')) :
    status = 201 ∧ ∃ o market cmd, body = OrderService.presentOrder o ∧
      Placed s s' o market cmd := by
  unfold submitOrder at h
  cases hu : req.userId with
  | none => simp [hu] at h
  | some userId =>
    simp only [hu] at h
    obtain ⟨o, s₁, hs, hp⟩ := Tx.bind_eq_ok.mp h
    obtain ⟨he, rfl⟩ := Tx.pure_eq_ok.mp hp
    obtain ⟨rfl, rfl⟩ := Prod.mk.inj he
    obtain ⟨market, cmd, hplaced⟩ := OrderService.submit_eq_ok hs
    exact ⟨rfl, o, market, cmd, rfl, hplaced⟩

theorem submitOrder_eq_error {s s' : Store} {e : Failure} (h : submitOrder req s = (.error e, s')) :
    s'.db = s.db := by
  unfold submitOrder at h
  cases hu : req.userId with
  | none =>
    simp only [hu, Tx.fail_apply, Prod.mk.injEq] at h
    rw [h.2]
  | some userId =>
    simp only [hu] at h
    rcases hs : OrderService.submit userId req.body s with ⟨e' | o, s₁⟩
    · rw [Tx.bind_apply_error hs, Prod.mk.injEq] at h
      rw [← h.2]
      exact OrderService.submit_eq_error hs
    · rw [Tx.bind_apply_ok hs] at h
      cases h

theorem idle_setPhase {g : Gateway OrderService.PresentedOrder} {p : Phase _} (hp : p.Idle)
    (i : ℕ) (h : ∀ j, j ≠ i → (g.phases j).Idle) (j : ℕ) : ((g.setPhase i p).phases j).Idle := by
  by_cases e : j = i
  · subst e
    rwa [Gateway.setPhase_phases_self]
  · rw [Gateway.setPhase_phases_ne g e]
    exact h j e

/-- The interactions of a request that has not gone past its lookup. -/
theorem Moves.of_idle (hmove : Moves hashBody submitOrder req scope g i faults g')
    (hi : (g.phases i).Idle) : g' = g ∨ g.phases i = .arrived ∧
      ((∃ e, g' = g.setPhase i (.failed e)) ∨
        (∃ row, find? scope g.keys = some row ∧
          g' = g.setPhase i (.returned row.responseStatus row.responseBody)) ∨
        find? scope g.keys = none ∧ g' = g.setPhase i (.missed scope)) := by
  have hne : ∀ p : Phase OrderService.PresentedOrder, p.inFlight = true → g.phases i ≠ p := by
    rintro p hp rfl
    rcases hi with hi | ⟨e, hi⟩ <;> rw [hi] at hp <;> cases hp
  cases hmove with
  | answered _ => exact Or.inl rfl
  | refused e hp => exact Or.inr ⟨hp, Or.inl ⟨e, rfl⟩⟩
  | hit row hp hrow => exact Or.inr ⟨hp, Or.inr (Or.inl ⟨row, hrow, rfl⟩)⟩
  | miss hp hrow => exact Or.inr ⟨hp, Or.inr (Or.inr ⟨hrow, rfl⟩)⟩
  | executed sc status body store hp _ => exact absurd hp (hne _ rfl)
  | crashed sc e store hp _ => exact absurd hp (hne _ rfl)
  | lost sc status body hp _ => exact absurd hp (hne _ rfl)
  | inserted sc status body hp _ => exact absurd hp (hne _ rfl)

/-- The handler, for a request whose lookup found nothing. -/
theorem Moves.of_missed (hmove : Moves hashBody submitOrder req scope g i faults g')
    {sc : IdempotencyScope} (hi : g.phases i = .missed sc) :
    (∃ status body store, submitOrder req { g.store with faults } = (.ok (status, body), store) ∧
      g' = { g with store := { store with faults := none } }.setPhase i (.handled sc status body)) ∨
    ∃ e store, submitOrder req { g.store with faults } = (.error e, store) ∧
      g' = { g with store := { store with faults := none } }.setPhase i (.failed e) := by
  cases hmove with
  | answered hp => rcases hp with ⟨_, _, hp⟩ | ⟨_, hp⟩ <;> rw [hi] at hp <;> cases hp
  | refused e hp => rw [hi] at hp; cases hp
  | hit row hp _ => rw [hi] at hp; cases hp
  | miss hp _ => rw [hi] at hp; cases hp
  | executed sc' status body store hp hrun =>
    obtain rfl := Phase.missed.inj (hp.symm.trans hi)
    exact Or.inl ⟨status, body, store, hrun, rfl⟩
  | crashed sc' e store hp hrun => exact Or.inr ⟨e, store, hrun, rfl⟩
  | lost sc' status body hp _ => rw [hi] at hp; cases hp
  | inserted sc' status body hp _ => rw [hi] at hp; cases hp

/-- The insert, for a request whose handler returned. -/
theorem Moves.of_handled (hmove : Moves hashBody submitOrder req scope g i faults g')
    {sc : IdempotencyScope} {status : ℕ} {body : OrderService.PresentedOrder}
    (hi : g.phases i = .handled sc status body) :
    (faults = some 0 ∨ (find? sc g.keys).isSome) ∨
    find? sc g.keys = none ∧ g' = { g with keys := g.keys ++ [Gateway.stored sc (hashBody req.body)
      status body g.store.now] }.setPhase i (.returned status body) := by
  cases hmove with
  | answered hp => rcases hp with ⟨_, _, hp⟩ | ⟨_, hp⟩ <;> rw [hi] at hp <;> cases hp
  | refused e hp => rw [hi] at hp; cases hp
  | hit row hp _ => rw [hi] at hp; cases hp
  | miss hp _ => rw [hi] at hp; cases hp
  | executed sc' status body store hp _ => rw [hi] at hp; cases hp
  | crashed sc' e store hp _ => rw [hi] at hp; cases hp
  | lost sc' status' body' hp why =>
    obtain ⟨rfl, rfl, rfl⟩ := Phase.handled.inj (hp.symm.trans hi)
    exact Or.inl why
  | inserted sc' status' body' hp hrow =>
    obtain ⟨rfl, rfl, rfl⟩ := Phase.handled.inj (hp.symm.trans hi)
    exact Or.inr ⟨hrow, rfl⟩

/-- A request that returned does not move. -/
theorem Moves.of_returned (hmove : Moves hashBody submitOrder req scope g i faults g') {status : ℕ}
    {body : OrderService.PresentedOrder} (hi : g.phases i = .returned status body) : g' = g := by
  cases hmove with
  | answered _ => rfl
  | refused e hp => rw [hi] at hp; cases hp
  | hit row hp _ => rw [hi] at hp; cases hp
  | miss hp _ => rw [hi] at hp; cases hp
  | executed sc status body store hp _ => rw [hi] at hp; cases hp
  | crashed sc e store hp _ => rw [hi] at hp; cases hp
  | lost sc status body hp _ => rw [hi] at hp; cases hp
  | inserted sc status body hp _ => rw [hi] at hp; cases hp

/-- While one request is in flight, the others do not move. -/
theorem Moves.of_inFlight (hmove : Moves hashBody submitOrder req scope g i faults g') {i₀ : ℕ}
    (hi₀ : (g.phases i₀).inFlight = true) (hi : (g.phases i).Idle) (hne : i ≠ i₀)
    (hserial : g.phases i = .arrived → ∀ j, j ≠ i → (g.phases j).inFlight = false) : g' = g := by
  rcases hmove.of_idle hi with h | ⟨hp, -⟩
  · exact h
  · rw [hserial hp i₀ (Ne.symm hne)] at hi₀
    cases hi₀

/-- **One interaction of a serial run.** -/
theorem Moves.once (hmove : Moves hashBody submitOrder req scope g i faults g')
    (h : Once scope db₀ g)
    (hserial : g.phases i = .arrived → ∀ j, j ≠ i → (g.phases j).inFlight = false)
    (hinsert : (∃ sc status body, g.phases i = .handled sc status body) → faults ≠ some 0) :
    Once scope db₀ g' := by
  cases h with
  | waiting hdb hrow hidle =>
    rcases hmove.of_idle (hidle i) with rfl | ⟨-, ⟨e, rfl⟩ | ⟨row, hfound, -⟩ | ⟨-, rfl⟩⟩
    · exact .waiting hdb hrow hidle
    · exact .waiting hdb hrow (idle_setPhase (Or.inr ⟨e, rfl⟩) i fun j _ => hidle j)
    · cases hrow.symm.trans hfound
    · refine .pending i hdb hrow (g.setPhase_phases_self i _) fun j hj => ?_
      rw [Gateway.setPhase_phases_ne g hj]
      exact hidle j
  | pending i₀ hdb hrow hi₀ hidle =>
    by_cases hi : i = i₀
    · subst hi
      rcases hmove.of_missed hi₀ with ⟨status, body, store, hrun, rfl⟩ | ⟨e, store, hrun, rfl⟩
      · obtain ⟨rfl, o, market, cmd, rfl, hplaced⟩ := submitOrder_eq_ok hrun
        refine .executed i o ⟨{ g.store with faults }, store, market, cmd, hdb, hplaced, rfl⟩ hrow
          (Gateway.setPhase_phases_self _ i _) fun j hj => ?_
        rw [Gateway.setPhase_phases_ne _ hj]
        exact hidle j hj
      · exact .waiting ((submitOrder_eq_error hrun).trans hdb) hrow
          (idle_setPhase (Or.inr ⟨e, rfl⟩) i hidle)
    · obtain rfl := hmove.of_inFlight (by rw [hi₀]; rfl) (hidle i hi) hi hserial
      exact .pending i₀ hdb hrow hi₀ hidle
  | executed i₀ o hplaced hrow hi₀ hidle =>
    by_cases hi : i = i₀
    · subst hi
      rcases hmove.of_handled hi₀ with (hfault | hsome) | ⟨-, rfl⟩
      · exact absurd hfault (hinsert ⟨_, _, _, hi₀⟩)
      · rw [hrow] at hsome
        cases hsome
      · refine .stored o (Gateway.stored scope (hashBody req.body) 201 _ g.store.now)
          hplaced ?_ rfl rfl
          fun j => ?_
        · rw [Gateway.setPhase_keys, find?_append, hrow, Option.none_or, find?_cons]
          exact if_pos rfl
        · by_cases hj : j = i
          · subst hj
            exact Or.inr (Gateway.setPhase_phases_self _ j _)
          · rw [Gateway.setPhase_phases_ne _ hj]
            exact Or.inl (hidle j hj)
    · obtain rfl := hmove.of_inFlight (by rw [hi₀]; rfl) (hidle i hi) hi hserial
      exact .executed i₀ o hplaced hrow hi₀ hidle
  | stored o row hplaced hrow hstatus hbody hphases =>
    -- whoever moves has only just arrived
    have hset : ∀ p : Phase OrderService.PresentedOrder,
        p.Idle ∨ p = .returned 201 (OrderService.presentOrder o) →
        Once scope db₀ (g.setPhase i p) := by
      refine fun p hp => .stored o row hplaced hrow hstatus hbody fun j => ?_
      by_cases hj : j = i
      · subst hj
        rwa [Gateway.setPhase_phases_self]
      · rw [Gateway.setPhase_phases_ne g hj]
        exact hphases j
    rcases hphases i with hi | hi
    · rcases hmove.of_idle hi with rfl | ⟨-, ⟨e, rfl⟩ | ⟨row', hfound, rfl⟩ | ⟨hnone, -⟩⟩
      · exact .stored o row hplaced hrow hstatus hbody hphases
      · exact hset _ (Or.inl (Or.inr ⟨e, rfl⟩))
      · obtain rfl : row = row' := Option.some.inj (hrow.symm.trans hfound)
        exact hset _ (Or.inr (by rw [hstatus, hbody]))
      · cases hrow.symm.trans hnone
    · obtain rfl := hmove.of_returned hi
      exact .stored o row hplaced hrow hstatus hbody hphases

theorem run_once (hscope : entry req = .scoped scope) (h : Once scope db₀ g)
    {steps : List (ℕ × Option ℕ)} (hserial : Serial hashBody req g steps) :
    Once scope db₀ (g.run hashBody submitOrder (fun _ => req) steps) := by
  induction steps generalizing g with
  | nil => exact h
  | cons l ls ih => exact ih ((step_moves hscope g l).once h hserial.1 hserial.2.1) hserial.2.2

/-- An api that has not seen the key: every request is yet to be looked up. -/
structure Gateway.Fresh {ρ : Type} (scope : IdempotencyScope) (g : Gateway ρ) : Prop where
  nodup : (g.keys.map key).Nodup
  row : find? scope g.keys = none
  phases : ∀ i, g.phases i = .arrived

variable (hashBody) in
/-- **Idempotency keys.** In every interleaving of requests with one key and body, at most one
response is stored for the key, and a request that looks it up from then on returns it and does
nothing else. If no request looks up while another is between its lookup and its insert, at most one
order is placed, and every request that returns, returns it. -/
theorem idempotency_at_most_once (hscope : entry req = .scoped scope) (hfresh : g.Fresh scope)
    (steps : List (ℕ × Option ℕ)) (hg : g' = g.run hashBody submitOrder (fun _ => req) steps) :
    (g'.keys.map key).Nodup ∧
    (∀ row, find? scope g'.keys = some row → ∀ i, g'.phases i = .arrived →
      g'.step hashBody submitOrder (fun _ => req) (i, none) =
        g'.setPhase i (.returned row.responseStatus row.responseBody)) ∧
    (Serial hashBody req g steps →
      (g'.store.db = g.store.db ∧ ∀ i status body, g'.phases i ≠ .returned status body) ∨
      ∃ o, PlacedOn g.store.db g'.store o ∧ ∀ i status body, g'.phases i = .returned status body →
        status = 201 ∧ body = OrderService.presentOrder o) := by
  subst hg
  have hstart : Consistent (hashBody req.body) scope g := by
    refine ⟨hfresh.nodup, fun row hrow => ?_, fun i sc hi => ?_, fun i sc status body hi => ?_⟩
    · cases hfresh.row.symm.trans hrow
    · cases (hfresh.phases i).symm.trans hi
    · cases (hfresh.phases i).symm.trans hi
  have hend := run_consistent submitOrder hscope hstart steps
  refine ⟨hend.nodup, fun row hrow i hi => step_hit hscope hend hrow hi, fun hserial => ?_⟩
  have hwaiting : Once scope g.store.db g :=
    .waiting rfl hfresh.row fun i => Or.inl (hfresh.phases i)
  have honce := run_once hscope hwaiting hserial
  have hidle : ∀ {p : Phase OrderService.PresentedOrder} {status body}, p.Idle →
      p ≠ .returned status body := by
    rintro p status body (rfl | ⟨e, rfl⟩) h <;> cases h
  cases honce with
  | waiting hdb _ hph => exact Or.inl ⟨hdb, fun i status body => hidle (hph i)⟩
  | pending i₀ hdb _ hi₀ hph =>
    refine Or.inl ⟨hdb, fun i status body hi => ?_⟩
    by_cases e : i = i₀
    · subst e
      cases hi₀.symm.trans hi
    · exact hidle (hph i e) hi
  | executed i₀ o hplaced _ hi₀ hph =>
    refine Or.inr ⟨o, hplaced, fun i status body hi => ?_⟩
    by_cases e : i = i₀
    · subst e
      cases hi₀.symm.trans hi
    · exact absurd hi (hidle (hph i e))
  | stored o row hplaced _ _ _ hph =>
    refine Or.inr ⟨o, hplaced, fun i status body hi => ?_⟩
    rcases hph i with h | h
    · exact absurd hi (hidle h)
    · obtain ⟨rfl, rfl⟩ := Phase.returned.inj (h.symm.trans hi)
      exact ⟨rfl, rfl⟩

end Once

namespace KeySample

/-- `bob` asks for one unit at 100, under a key. -/
def request : Request CreateOrderDto where
  idempotencyKey := some "7d444840-9dc0-41d1-b245-5ffdce74fad2"
  userId := some "bob"
  method := "POST"
  routePath := some "/v1/orders"
  url := some "/v1/orders"
  path := some "/v1/orders"
  body := ⟨"BTC-USDT", .ASK, .LIMIT, some 100, 1⟩

/-- The hash of that body. -/
def hashBody : CreateOrderDto → String := fun _ =>
  "7997bb8a2148ca47f1c76995254e59d8bf05b14fe99a976f97b427852e3f6340"

def scope : IdempotencyScope :=
  ⟨"bob", "7d444840-9dc0-41d1-b245-5ffdce74fad2", "POST", "/v1/orders"⟩

def gateway : Gateway OrderService.PresentedOrder := ⟨[], Orbit.Sample.store, fun _ => .arrived⟩

theorem gateway_fresh : gateway.Fresh scope := ⟨List.nodup_nil, rfl, fun _ => rfl⟩

theorem entry_request : entry request = .scoped scope := by decide +kernel

/-- One request, and a second one when it has returned. -/
def retried : List (ℕ × Option ℕ) := [(0, none), (0, none), (0, none), (1, none)]

/-- Two requests, each of which looks up before the other has stored its response. -/
def racing : List (ℕ × Option ℕ) :=
  [(0, none), (1, none), (0, none), (1, none), (0, none), (1, none)]

/-- The order that is placed. -/
def order : OrderService.PresentedOrder := ⟨1, "BTC-USDT", .ASK, .LIMIT, some 100, 1, 1, 0, .OPEN⟩

theorem retried_serial : Serial hashBody request gateway retried := by
  refine ⟨fun _ j _ => rfl, fun _ => nofun, fun h => ?_, fun _ => nofun,
    fun h => ?_, fun _ => nofun,
    fun _ j hj => ?_, fun _ => nofun, trivial⟩
  · exact absurd h (by decide +kernel)
  · exact absurd h (by decide +kernel)
  · by_cases h0 : j = 0
    · subst h0
      decide +kernel
    · rw [(step_moves entry_request _ _).phases_ne h0, (step_moves entry_request _ _).phases_ne h0,
        (step_moves entry_request _ _).phases_ne h0]
      rfl

end KeySample

/-- A retry returns the order that the first request placed. -/
theorem idempotency_at_most_once_retried :
    Serial KeySample.hashBody KeySample.request KeySample.gateway KeySample.retried ∧
    ∃ o, PlacedOn KeySample.gateway.store.db (KeySample.gateway.run KeySample.hashBody submitOrder
      (fun _ => KeySample.request) KeySample.retried).store o ∧
      OrderService.presentOrder o = KeySample.order := by
  refine ⟨KeySample.retried_serial, ?_⟩
  obtain ⟨-, -, hserial⟩ := idempotency_at_most_once KeySample.hashBody KeySample.entry_request
    KeySample.gateway_fresh KeySample.retried rfl
  have hreturned : (KeySample.gateway.run KeySample.hashBody submitOrder
      (fun _ => KeySample.request) KeySample.retried).phases 1 = .returned 201 KeySample.order := by
    decide +kernel
  rcases hserial KeySample.retried_serial with ⟨-, hnone⟩ | ⟨o, hplaced, hall⟩
  · exact absurd hreturned (hnone 1 _ _)
  · exact ⟨o, hplaced, (hall 1 _ _ hreturned).2.symm⟩

/-- Two requests that both look up before either has stored its response place two orders,
and return one each. -/
theorem idempotency_race : entry KeySample.request = .scoped KeySample.scope ∧
    KeySample.gateway.Fresh KeySample.scope ∧
    ¬∀ steps, ((KeySample.gateway.run KeySample.hashBody submitOrder (fun _ => KeySample.request)
        steps).store.db.orders.length ≤ 1 ∧
      ∀ i j status status' body body',
        (KeySample.gateway.run KeySample.hashBody submitOrder
          (fun _ => KeySample.request) steps).phases i = .returned status body →
        (KeySample.gateway.run KeySample.hashBody submitOrder
          (fun _ => KeySample.request) steps).phases j = .returned status' body' →
        body.id = body'.id) := by
  refine ⟨KeySample.entry_request, KeySample.gateway_fresh, fun h => ?_⟩
  have := (h KeySample.racing).1
  revert this
  decide +kernel

end Idempotency

end Orbit
