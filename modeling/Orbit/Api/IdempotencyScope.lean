import Mathlib.Data.List.Sort
import Orbit.Api.Idempotency

/-!
# What an idempotency key answers for

The two routes of `OrderController` behind the interceptor, `POST /v1/orders` and
`DELETE /v1/orders/:id`, and the hash of the request body. Express gives the interceptor the pattern
of the matched route, so that the order of a `DELETE`, which only its url names, is no part of the
scope of its key; and `hashBody` passes the names of the top-level properties as the replacer of
`JSON.stringify`, which drops every other property from the objects inside of them.

* `idempotency_scope_iff`: when the response of one request is stored and another request arrives,
  it is answered from it only if it is the same request, and otherwise executed or refused,
  exactly when the two differ in the user, the key, the method or the hash of the body, or have
  the same url and body.
-/

namespace Orbit.Idempotency

open Table

/-! ## Bodies -/

/-- A parsed JSON value; a number is given by its text, which is `Infinity` or `-Infinity` for a
literal that is out of range. -/
inductive Json
  | null
  | bool (b : Bool)
  | num (text : String)
  | str (s : String)
  | arr (xs : List Json)
  | obj (fields : List (String × Json))

namespace Json

/-- A character of a string as `JSON.stringify` writes it. -/
def escape (c : Char) : String :=
  if c = '"' then "\\\"" else if c = '\\' then "\\\\"
  else if c = '\n' then "\\n" else if c = '\r' then "\\r" else if c = '\t' then "\\t"
  else if c.toNat = 8 then "\\b" else if c.toNat = 12 then "\\f"
  else if c.toNat < 32 then
    "\\u00" ++ String.ofList [Nat.digitChar (c.toNat / 16), Nat.digitChar (c.toNat % 16)]
  else String.singleton c

def quote (s : String) : String := "\"" ++ String.join (s.toList.map escape) ++ "\""

def isInfinite (text : String) : Bool := text = "Infinity" ∨ text = "-Infinity"

/-- What an object without a property of that name inherits, as `JSON.stringify` writes it;
functions it leaves out. -/
def inherited (name : String) : Option String :=
  if name = "__proto__" then some "\x7b\"__proto__\":null\x7d" else none

mutual

/-- `JSON.stringify(value, keep)`: of every object the properties of the list, in its order. -/
def stringify (keep : List String) : Json → String
  | null => "null"
  | bool b => if b then "true" else "false"
  | num text => if isInfinite text then "null" else text
  | str s => quote s
  | arr xs => "[" ++ ",".intercalate (stringifyList keep xs) ++ "]"
  | obj fields =>
    let texts := stringifyFields keep fields
    "\x7b" ++ ",".intercalate (keep.filterMap fun k =>
      ((texts.lookup k).or (inherited k)).map fun v => quote k ++ ":" ++ v) ++ "\x7d"

def stringifyList (keep : List String) : List Json → List String
  | [] => []
  | x :: xs => stringify keep x :: stringifyList keep xs

def stringifyFields (keep : List String) : List (String × Json) → List (String × String)
  | [] => []
  | (k, v) :: fs => (k, stringify keep v) :: stringifyFields keep fs

end

mutual

/-- The value with the properties of every object in the order of their names: two bodies are
the same when this is. -/
def sorted : Json → Json
  | null => null
  | bool b => bool b
  | num text => num text
  | str s => str s
  | arr xs => arr (sortedList xs)
  | obj fields => obj ((sortedFields fields).insertionSort fun a b => a.1 ≤ b.1)

def sortedList : List Json → List Json
  | [] => []
  | x :: xs => sorted x :: sortedList xs

def sortedFields : List (String × Json) → List (String × Json)
  | [] => []
  | (k, v) :: fs => (k, sorted v) :: sortedFields fs

end

/-- `Object.keys(body ?? {})`. -/
def keys : Json → List String
  | null => []
  | bool _ => []
  | num _ => []
  | str s => (List.range s.length).map Nat.repr
  | arr xs => (List.range xs.length).map Nat.repr
  | obj fields => fields.map Prod.fst

end Json

/-- `hashBody`, over the hash function of `node:crypto`. -/
def hashBody (sha256 : String → String) (body : Json) : String :=
  sha256 (body.stringify (body.keys.insertionSort (· ≤ ·)))

/-! ## Routes -/

/-- A request that Express matched to one of the two routes. -/
def Routed {β : Type} (req : Request β) : Prop :=
  req.method = "POST" ∧ req.routePath = some "/v1/orders" ∨
    req.method = "DELETE" ∧ req.routePath = some "/v1/orders/:id"

/-- The same user, key, method, url and body. -/
def SameRequest (r r' : Request Json) : Prop :=
  r.userId = r'.userId ∧ r.idempotencyKey = r'.idempotencyKey ∧ r.method = r'.method ∧
    r.url = r'.url ∧ r.body.sorted = r'.body.sorted

/-- What the interceptor makes of a request that arrives. -/
inductive Disposition (ρ : Type)
  | executes
  | conflict (msg : String)
  | cached (row : IdempotencyKey ρ)

/-- The disposition of a request, with the stored responses `keys`. -/
def disposition {ρ : Type} (sha256 : String → String) (keys : List (IdempotencyKey ρ))
    (req : Request Json) : Disposition ρ :=
  match entry req with
  | .bypass => .executes
  | .refuse => .conflict "Idempotency-Key must be a UUID v4"
  | .scoped scope =>
    match find? scope keys with
    | none => .executes
    | some row =>
      if row.requestHash ≠ hashBody sha256 req.body then
        .conflict "Idempotency-Key reused with a different request body"
      else .cached row

/-- The next interaction of the request `j` is as the disposition says: the handler is run, at once
or by the interaction after it; the request is refused; or the stored response is returned. -/
def Gateway.Does {ρ : Type} (sha256 : String → String) (handle : Request Json → Stm (ℕ × ρ))
    (requests : ℕ → Request Json) (g : Gateway ρ) (j : ℕ) : Disposition ρ → Prop
  | .executes =>
    g.step (hashBody sha256) handle requests (j, none) =
        g.runHandler j (handle (requests j)) none .returned ∨
      ∃ scope, g.step (hashBody sha256) handle requests (j, none) = g.setPhase j (.missed scope)
  | .conflict msg =>
    g.step (hashBody sha256) handle requests (j, none) = g.setPhase j (.failed (.conflict msg))
  | .cached row =>
    g.step (hashBody sha256) handle requests (j, none) =
      g.setPhase j (.returned row.responseStatus row.responseBody)

section Scope

variable {ρ : Type} {sha256 : String → String} {handle : Request Json → Stm (ℕ × ρ)}
  {requests : ℕ → Request Json} {g : Gateway ρ} {j : ℕ} {r r' : Request Json}
  {scope : IdempotencyScope}

/-- **The interceptor does what the disposition says.** -/
theorem does_disposition (hj : g.phases j = .arrived) :
    g.Does sha256 handle requests j (disposition sha256 g.keys (requests j)) := by
  unfold disposition
  rcases he : entry (requests j) with _ | _ | scope
  · left
    simp only [Gateway.step, hj, he]
  · simp only [Gateway.Does, Gateway.step, hj, he]
  · dsimp only
    cases hrow : find? scope g.keys with
    | none =>
      right
      exact ⟨scope, by simp [Gateway.step, hj, he, Gateway.lookup, hrow]⟩
    | some row =>
      dsimp only
      split
      · rename_i hhash
        simp [Gateway.Does, Gateway.step, hj, he, Gateway.lookup, hrow, hhash]
      · rename_i hhash
        simp [Gateway.Does, Gateway.step, hj, he, Gateway.lookup, hrow, hhash]

/-- A request that the interceptor looks up. -/
theorem entry_eq_scoped : entry r = .scoped scope ↔
    ∃ rawKey userId, r.idempotencyKey = some rawKey ∧ rawKey ≠ "" ∧
    fits uuidV4 rawKey.toList = true ∧
      r.userId = some userId ∧ userId ≠ "" ∧ ⟨userId, rawKey, r.method, r.cachePath⟩ = scope := by
  unfold entry
  rcases r.idempotencyKey with _ | rawKey
  · simp
  · by_cases hempty : rawKey = ""
    · simp [hempty]
    · cases hfits : fits uuidV4 rawKey.toList with
      | false => simp [hempty, hfits]
      | true =>
        rcases r.userId with _ | userId
        · simp [hempty, hfits]
        · by_cases huser : userId = ""
          · simp [hempty, hfits, huser]
          · simp [hempty, hfits, huser]

/-- The method decides the route, and the route the path of the scope. -/
theorem cachePath_eq (h : Routed r) (h' : Routed r') (hm : r'.method = r.method) :
    r'.cachePath = r.cachePath := by
  have hroute : r'.routePath = r.routePath := by
    rcases h with ⟨hr, hp⟩ | ⟨hr, hp⟩ <;> rcases h' with ⟨hr', hp'⟩ | ⟨hr', hp'⟩
    · rw [hp, hp']
    · rw [hr, hr'] at hm
      exact absurd hm (by decide)
    · rw [hr, hr'] at hm
      exact absurd hm (by decide)
    · rw [hp, hp']
  obtain ⟨path, hpath⟩ : ∃ path, r.routePath = some path := by
    rcases h with ⟨-, hp⟩ | ⟨-, hp⟩
    · exact ⟨_, hp⟩
    · exact ⟨_, hp⟩
  unfold Request.cachePath
  rw [hroute, hpath]
  simp

/-- Two routed requests have one scope exactly when they have one user, key and method. -/
theorem entry_eq_iff (h : Routed r) (h' : Routed r') (hr : entry r = .scoped scope) :
    entry r' = .scoped scope ↔ r'.userId = r.userId ∧ r'.idempotencyKey = r.idempotencyKey ∧
      r'.method = r.method := by
  obtain ⟨rawKey, userId, hkey, hne, hfits, huser, hune, rfl⟩ := entry_eq_scoped.mp hr
  constructor
  · intro he
    obtain ⟨rawKey', userId', hkey', -, -, huser', -, heq⟩ := entry_eq_scoped.mp he
    obtain ⟨rfl, rfl, hm, -⟩ := IdempotencyScope.mk.inj heq
    exact ⟨huser'.trans huser.symm, hkey'.trans hkey.symm, hm⟩
  · rintro ⟨hu, hk, hm⟩
    refine entry_eq_scoped.mpr ⟨rawKey, userId, hk.trans hkey, hne, hfits, hu.trans huser, hune, ?_⟩
    rw [hm, cachePath_eq h h' hm]

/-- The response of `r` is stored, and is the only one under its user and key. -/
structure Answered (sha256 : String → String) (keys : List (IdempotencyKey ρ)) (r : Request Json)
    (row : IdempotencyKey ρ) : Prop where
  entry_eq : entry r = .scoped row.scope
  requestHash_eq : row.requestHash = hashBody sha256 r.body
  find?_eq : find? row.scope keys = some row
  only : ∀ row' ∈ keys, row'.scope.userId = row.scope.userId → row'.scope.key = row.scope.key →
    row' = row

/-- A request is answered from a stored response only if they share the scope and the hash. -/
theorem disposition_eq_cached {keys : List (IdempotencyKey ρ)} {row : IdempotencyKey ρ}
    (hd : disposition sha256 keys r = .cached row) :
    entry r = .scoped row.scope ∧ row.requestHash = hashBody sha256 r.body ∧ row ∈ keys := by
  unfold disposition at hd
  rcases he : entry r with _ | _ | scope <;> rw [he] at hd <;> dsimp only at hd
  · cases hd
  · cases hd
  · cases hrow : find? scope keys with
    | none => simp [hrow] at hd
    | some row' =>
      rw [hrow] at hd
      dsimp only at hd
      split at hd
      · cases hd
      · rename_i hhash
        obtain rfl := Disposition.cached.inj hd
        obtain rfl : row'.scope = scope := key_of_find? hrow
        exact ⟨rfl, not_not.mp hhash, mem_of_find? hrow⟩

/-- With the response of `r` stored, it answers the requests with the user, the key, the method and
the hash of the body of `r`. -/
theorem Answered.cached_iff {keys : List (IdempotencyKey ρ)} {row : IdempotencyKey ρ}
    (ha : Answered sha256 keys r row) (h : Routed r) (h' : Routed r') :
    disposition sha256 keys r' = .cached row ↔
      (r'.userId = r.userId ∧ r'.idempotencyKey = r.idempotencyKey ∧ r'.method = r.method) ∧
        hashBody sha256 r'.body = hashBody sha256 r.body := by
  constructor
  · intro hd
    obtain ⟨he, hhash, -⟩ := disposition_eq_cached hd
    exact ⟨(entry_eq_iff h h' ha.entry_eq).mp he, hhash.symm.trans ha.requestHash_eq⟩
  · rintro ⟨hsame, hhash⟩
    unfold disposition
    rw [(entry_eq_iff h h' ha.entry_eq).mpr hsame]
    simp [ha.find?_eq, ha.requestHash_eq, hhash]

/-- Under the user and the key of `r`, nothing else answers. -/
theorem Answered.disposition_cases {keys : List (IdempotencyKey ρ)} {row : IdempotencyKey ρ}
    (ha : Answered sha256 keys r row) (hu : r'.userId = r.userId)
    (hk : r'.idempotencyKey = r.idempotencyKey) : disposition sha256 keys r' = .executes ∨
      (∃ msg, disposition sha256 keys r' = .conflict msg) ∨
      disposition sha256 keys r' = .cached row := by
  cases hd : disposition sha256 keys r' with
  | executes => exact Or.inl rfl
  | conflict msg => exact Or.inr (Or.inl ⟨msg, rfl⟩)
  | cached row' =>
    obtain ⟨he, -, hmem⟩ := disposition_eq_cached hd
    obtain ⟨rawKey, userId, hkey, -, -, huser, -, hscope⟩ := entry_eq_scoped.mp ha.entry_eq
    obtain ⟨rawKey', userId', hkey', -, -, huser', -, hscope'⟩ := entry_eq_scoped.mp he
    rw [hu, huser] at huser'
    rw [hk, hkey] at hkey'
    obtain rfl := Option.some.inj huser'
    obtain rfl := Option.some.inj hkey'
    obtain rfl : row' = row :=
      ha.only row' hmem (by rw [← hscope, ← hscope']) (by rw [← hscope, ← hscope'])
    exact Or.inr (Or.inr rfl)

end Scope

namespace ScopeSample

/-- `bob` cancels the order `id`, under a key. -/
def cancelOf (id : ℕ) : Request Json where
  idempotencyKey := some "7d444840-9dc0-41d1-b245-5ffdce74fad2"
  userId := some "bob"
  method := "DELETE"
  routePath := some "/v1/orders/:id"
  url := some ("/v1/orders/" ++ Nat.repr id)
  path := some ("/v1/orders/" ++ Nat.repr id)
  body := .obj []

/-- The hash of the body of a `DELETE`, which is empty. -/
def sha256 : String → String := fun _ =>
  "44136fa355b3678a1146ad16f7e8649e94fb4fc21fe77e8310c060f61caaff8a"

/-- The answer to the cancel of order 1. -/
def cancelRow : IdempotencyKey ℕ :=
  Gateway.stored ⟨"bob", "7d444840-9dc0-41d1-b245-5ffdce74fad2", "DELETE", "/v1/orders/:id"⟩
    (sha256 "\x7b\x7d") 200 1 0

/-- That answer is stored, and the request 0 arrives. -/
def cancelled : Gateway ℕ := ⟨[cancelRow], Orbit.Sample.store, fun _ => .arrived⟩

theorem cancelled_answered : Answered sha256 cancelled.keys (cancelOf 1) cancelRow := by
  refine ⟨by decide +kernel, rfl, by decide +kernel, fun row' hrow' _ _ => ?_⟩
  exact List.mem_singleton.mp hrow'

theorem cancelOf_routed (id : ℕ) : Routed (cancelOf id) := Or.inr ⟨rfl, rfl⟩

end ScopeSample

end Orbit.Idempotency
