import Orbit.Foundations.Conversions
import Orbit.Matcher.Inert

/-!
# Messages on the command topic

`CommandConsumerService.handleMessage` on the bytes of a message. Only `JSON.parse` is guarded: the
value it gives may be anything, its properties pick the lane, the book and the settlement as they
are, and what is thrown outside the inner `try`, or by its `catch` and `finally`, goes to kafkajs. A
`SUBMIT` or a `CANCEL` is handed to the settler, which asks for the text of the symbol and the
integer of the order id; a message of any other type falls through to `getEngine`, which makes a
book for a symbol that has none.

A book is kept under the value that is given as its symbol, which need not be a text. `strays`
are the values that are none and have a book. The metrics are those of the package
`prom-client`, which is not part of the repository: `Labels` says of which values it takes a
label, and that these have a text.

* `dispatch_submit_reads`: a `SUBMIT` that can be read is handled as the command that was read.
* `returns_iff`: when the handler returns, in any state and whatever statements fail.
* `dispatch_unchanged_iff`: when it leaves the tables and the books, without failing statements.
* `tolerates_iff`: every message is tolerated but the JSON `null`, one whose labels are refused, one
  whose failure cannot be logged, and one that is not well formed and is not harmless.
* `commands_not_inert`: messages that are no command and stop the partition, make a
  book or cancel an order.
-/

namespace Orbit

open Json Settler Consumer

/-- What the metrics take as the value of a label. -/
structure Labels where
  accepts : Option Value → Bool
  accepts_text : ∀ s, accepts (some (.string s)) = true
  text_of_accepts : ∀ v, accepts (some v) = true → (toText v).isSome

/-- The matcher process, with the keys of the books that are not under a text. -/
structure CommandConsumer (E : Engine) where
  matcher : Matcher E
  strays : List (Option Value)

/-! ## Properties -/

/-- The characters of a property that is a text. -/
def textOf : Option Value → Option String
  | some (.string us) => (chars us).map String.ofList
  | _ => none

/-- `v === s`. -/
def isText (v : Option Value) (s : String) : Bool :=
  match v with
  | some (.string us) => us = text s
  | _ => false

/-- The values are one key of a map: an array or an object is a new one each time. -/
def sameKey : Option Value → Option Value → Bool
  | none, none => true
  | some .null, some .null => true
  | some (.bool b), some (.bool b') => b = b'
  | some (.number l), some (.number l') => double l = double l'
  | some (.string s), some (.string s') => s = s'
  | _, _ => false

/-- `${v}` does not throw. -/
def printable : Option Value → Bool
  | none => true
  | some v => (toText v).isSome

namespace CommandConsumer

variable {E : Engine}

/-! ## The handler -/

/-- The command of a `SUBMIT`: `uuid` reads the command id, and the settler
looks at no other field. -/
def submitCommand (uuid : Option Value → Uuid) (cmd : Value) (symbol : String) (orderId : ℕ) :
    OrderSubmitCommand where
  commandId := uuid (cmd.property "commandId")
  orderId := orderId
  symbol := symbol
  userId := ""
  side := .BID
  ordType := .LIMIT
  price := none
  quantity := 0
  ts := 0

/-- The command of a `CANCEL`: the settler looks at its order id only. -/
def cancelCommand (uuid : Option Value → Uuid) (cmd : Value) (orderId : ℕ) :
    OrderCancelCommand where
  commandId := uuid (cmd.property "commandId")
  orderId := orderId
  symbol := (textOf (cmd.property "symbol")).getD ""
  userId := ""
  ts := 0

/-- `settleSubmit`, of a value. The client refuses to look for a symbol that is not a text. -/
def settleSubmit (uuid : Option Value → Uuid) (cmd : Value) : Act E (Option (Order × List Trade)) :=
  match textOf (cmd.property "symbol") with
  | none => Tx.fail .typeError
  | some symbol =>
    match toBigInt (cmd.property "orderId") with
    | none => do
      let some _ ← onStore (Stm.marketFind symbol) | pure none
      Tx.fail .typeError
    | some (.negSucc _) => do
      let some _ ← onStore (Stm.marketFind symbol) | pure none
      -- no row has a negative id
      onStore (Stm.query fun _ => none)
    | some (.ofNat orderId) => Settler.settleSubmit (submitCommand uuid cmd symbol orderId)

/-- `settleCancel`, of a value. -/
def settleCancel (uuid : Option Value → Uuid) (cmd : Value) : Act E (Option Order) :=
  match toBigInt (cmd.property "orderId") with
  | none => Tx.fail .typeError
  | some (.negSucc _) => onStore (Stm.query fun _ => none)
  | some (.ofNat orderId) => Settler.settleCancel (cancelCommand uuid cmd orderId)

/-- `getEngine`, of a value. -/
def getEngine (symbol : Option Value) (s : CommandConsumer E) : CommandConsumer E :=
  match textOf symbol with
  | some t => { s with matcher := s.matcher.setBook t (s.matcher.book t) }
  | none => if s.strays.any (sameKey symbol) then s else { s with strays := s.strays ++ [symbol] }

/-- A computation of the settler. -/
def onMatcher {α : Type} (x : Act E α) : Tx Failure (CommandConsumer E) α :=
  Tx.zoom (·.matcher) (fun s matcher => { s with matcher }) x

/-- The task that `handleMessage` queues, up to its `catch`. -/
def dispatch (uuid : Option Value → Uuid) (cmd : Value) :
    Tx Failure (CommandConsumer E) Result := do
  if isText (cmd.property "type") "SUBMIT" then
    let some _ ← onMatcher (settleSubmit uuid cmd) | pure .noop
    Tx.modify (getEngine (cmd.property "symbol"))
    pure .ok
  else if isText (cmd.property "type") "CANCEL" then
    let some _ ← onMatcher (settleCancel uuid cmd) | pure .noop
    Tx.modify (getEngine (cmd.property "symbol"))
    pure .ok
  else
    Tx.modify (getEngine (cmd.property "symbol"))
    pure .ok

/-- The message of the `catch` can be put together. -/
def logs (cmd : Value) : Bool :=
  printable (cmd.property "type") && printable (cmd.property "orderId") &&
    printable (cmd.property "symbol")

/-- The task and the metrics around it. -/
def run (labels : Labels) (uuid : Option Value → Uuid) (cmd : Value) :
    Tx Failure (CommandConsumer E) Unit := fun s =>
  if labels.accepts (cmd.property "symbol") then
    let (r, s') := dispatch uuid cmd s
    if (r.isOk || logs cmd) && labels.accepts (cmd.property "type") then (.ok (), s')
    else (.error .typeError, s')
  else (.error .typeError, s)

/-- `handleMessage`: it fails when it throws to kafkajs. -/
def handleMessage (labels : Labels) (uuid : Option Value → Uuid) (value : Option (List UInt8)) :
    Tx Failure (CommandConsumer E) Unit := fun s =>
  match value with
  | none => (.ok (), s)
  | some bytes =>
    match parse (decode bytes) with
    | none => (.ok (), s)
    -- `cmd.symbol` throws
    | some .null => (.error .typeError, s)
    | some cmd => run labels uuid cmd s

/-! ## What is asked of it -/

/-- The order that a command names. -/
def namedOrder (db : Db) (cmd : Value) : Option Order :=
  match toBigInt (cmd.property "orderId") with
  | some (.ofNat id) => db.order? id
  | _ => none

def isString : Option Value → Bool
  | some (.string _) => true
  | _ => false

def isNumber : Option Value → Bool
  | some (.number _) => true
  | _ => false

/-- `v` is the number 1. -/
def isOne : Option Value → Bool
  | some (.number l) => double l = some 1
  | _ => false

/-- The fields of an `OrderSubmitCommand` beside those of an `OrderCancelCommand`. -/
def submitFields (cmd : Value) : Bool :=
  (isText (cmd.property "side") "BID" || isText (cmd.property "side") "ASK") &&
  (isText (cmd.property "ordType") "LIMIT" || isText (cmd.property "ordType") "MARKET") &&
  (isString (cmd.property "price") || (cmd.property "price" matches some .null)) &&
  isString (cmd.property "quantity")

/-- **A well-formed `SUBMIT` or `CANCEL` for an existing order**: an `OrderSubmitCommand` or an
`OrderCancelCommand`, with the id of a row. -/
def WellFormed (db : Db) (cmd : Value) : Prop :=
  (isOne (cmd.property "v") && isString (cmd.property "commandId") && isString
    (cmd.property "orderId") &&
    isString (cmd.property "userId") && isString (cmd.property "symbol") &&
      isNumber (cmd.property "ts") &&
    (isText (cmd.property "type") "CANCEL" ||
      isText (cmd.property "type") "SUBMIT" && submitFields cmd) &&
    (namedOrder db cmd).isSome) = true

instance (db : Db) (cmd : Value) : Decidable (WellFormed db cmd) :=
    inferInstanceAs (Decidable (_ = _))

/-- The tables and the resting orders are the same, and there is no new book but of a market. -/
structure Unchanged (s s' : CommandConsumer E) : Prop where
  inert : s.matcher.Inert s'.matcher
  strays : s'.strays = s.strays
  books : ∀ t, (s'.matcher.books t).isSome → (s.matcher.books t).isSome ∨
    (s.matcher.db.market? t).isSome

/-- **Malformed commands are inert**: the handler returns, and unless the message is a well-formed
command for an existing order it leaves everything as it is. -/
def Tolerates (labels : Labels) (uuid : Option Value → Uuid)
    (s : CommandConsumer E) (bytes : List UInt8) :
    Prop :=
  (handleMessage labels uuid (some bytes) s).1 = .ok () ∧
    ((∀ cmd, parse (decode bytes) = some cmd → ¬WellFormed s.matcher.db cmd) →
      s.Unchanged (handleMessage labels uuid (some bytes) s).2)

/-! ## Books that are made -/

/-- Every new book is of a market of `db`. -/
def Opens (db : Db) (m m' : Matcher E) : Prop :=
  ∀ t, (m'.books t).isSome → (m.books t).isSome ∨ (db.market? t).isSome

theorem bookRelation_opens (db : Db) :
    BookRelation (fun t => (db.market? t).isSome) (Opens (E := E) db) where
  of_books h t ht := .inl (by rwa [← h])
  trans h₁ h₂ t ht := (h₂ t ht).elim (h₁ t) .inr
  setBook {symbol} hsymbol m b t ht := by
    by_cases h : t = symbol
    · subst h
      exact .inr hsymbol
    · exact .inl (by simpa [Matcher.setBook, h] using ht)

variable {m m' : Matcher E}

theorem opens_dispatch_submit (cmd : OrderSubmitCommand) (m : Matcher E) :
    Opens m.db m (Consumer.dispatch (.SUBMIT cmd) m).2 := by
  have hR := bookRelation_opens (E := E) m.db
  rcases h : Settler.settleSubmit cmd m with ⟨r, m₁⟩
  rw [dispatch_submit_of_settle h]
  rcases settleSubmit_cases h with ⟨-, -, -, rfl, f, rfl⟩ | ⟨rfl, ⟨f, rfl⟩, -⟩ |
    ⟨market, order, f, hmarket, -, -, -, -, -, htx⟩
  · exact hR.of_books rfl
  · exact hR.of_books rfl
  · have hsymbol : (m.db.market? cmd.symbol).isSome := by simp [hmarket]
    have hrun : Opens m.db m m₁ :=
      hR.trans (hR.setBook hsymbol (m.withFaults f) (m.book cmd.symbol))
        (Tx.Keeps.of_eq (keeps_bind hR
        (keeps_transaction hR (keeps_submitBody hR market order hsymbol))
          fun _ => keeps_pure hR _) htx)
    rcases r with e | _ | a
    · exact hrun
    · exact hrun
    · exact hR.trans hrun (hR.setBook hsymbol m₁ _)

theorem opens_settleCancel {cmd : OrderCancelCommand} {r : Except Failure (Option Order)}
    (h : Settler.settleCancel cmd m = (r, m')) : Opens m.db m m' := by
  have hR := bookRelation_opens (E := E) m.db
  rcases settleCancel_cases h with ⟨-, -, -, -, f, rfl⟩ | ⟨⟨f, rfl⟩, -⟩ |
    ⟨market, order, f, -, hmarket, -, -, -, htx⟩
  · exact hR.of_books rfl
  · exact hR.of_books rfl
  · have hsymbol : (m.db.market? order.market).isSome := by simp [hmarket]
    refine hR.trans (hR.setBook hsymbol (m.withFaults f) (m.book order.market)) ?_
    exact Tx.Keeps.of_eq (keeps_bind hR (keeps_transaction hR (keeps_cancelBody hR market hsymbol))
      fun _ => keeps_pure hR _) htx

/-- The symbol has a book or is that of a market. -/
def knows (s : CommandConsumer E) (symbol : Option Value) : Bool :=
  match textOf symbol with
  | some t => (s.matcher.books t).isSome || (s.matcher.db.market? t).isSome
  | none => s.strays.any (sameKey symbol)

variable {s : CommandConsumer E}

theorem Unchanged.of_matcher (hinert : s.matcher.Inert m)
    (hopens : Opens s.matcher.db s.matcher m) :
    s.Unchanged { s with matcher := m } := ⟨hinert, rfl, hopens⟩

theorem unchanged_withFaults (f : Option ℕ) :
    s.Unchanged { s with matcher := s.matcher.withFaults f } :=
  .of_matcher (s.matcher.same_withFaults f).inert fun _ => .inl

theorem getEngine_same (symbol : Option Value) (s : CommandConsumer E) :
    s.matcher.Same (getEngine symbol s).matcher := by
  unfold getEngine
  cases textOf symbol with
  | none =>
    simp only
    split_ifs <;> exact .refl _
  | some t => exact s.matcher.same_setBook_book t

/-- `getEngine` leaves everything as it is for a symbol that is known. -/
theorem getEngine_unchanged_iff (symbol : Option Value) (f : Option ℕ) :
    s.Unchanged (getEngine symbol { s with matcher := s.matcher.withFaults f }) ↔
    s.knows symbol := by
  unfold getEngine knows
  cases textOf symbol with
  | none =>
    simp only
    split_ifs with h
    · exact iff_of_true (unchanged_withFaults f) h
    · exact iff_of_false (fun hu => by simpa using hu.strays) h
  | some t =>
    simp only [Bool.or_eq_true]
    constructor
    · intro h
      exact h.books t (by simp [Matcher.setBook])
    · intro h
      refine ⟨((s.matcher.same_withFaults f).trans (Matcher.same_setBook_book _ t)).inert, rfl, ?_⟩
      intro t' ht'
      by_cases ht : t' = t
      · rwa [ht]
      · exact .inl (by simpa [Matcher.setBook, Matcher.withFaults, ht] using ht')

/-! ## When nothing changes -/

/-- The handling of a command changes nothing: a `SUBMIT` or a `CANCEL` that reaches the
settlement of an order comes to nothing, and a message after which `getEngine` is called is for a
symbol that is known. -/
def Harmless (uuid : Option Value → Uuid) (s : CommandConsumer E) (cmd : Value) : Prop :=
  if isText (cmd.property "type") "SUBMIT" then
    ∀ symbol orderId, textOf (cmd.property "symbol") = some symbol →
      toBigInt (cmd.property "orderId") = some (.ofNat orderId) →
      ∀ market order, Lets (submitCommand uuid cmd symbol orderId) s.matcher market order →
        SubmitStuck (submitCommand uuid cmd symbol orderId) s.matcher market order
  else if isText (cmd.property "type") "CANCEL" then
    ∀ order, namedOrder s.matcher.db cmd = some order →
      if order.terminal then s.knows (cmd.property "symbol")
      else ∀ market, s.matcher.db.market? order.market = some market →
        order.id ∉ (s.matcher.queues order.market).ids ∧
          ¬Affords s.matcher.db (releasePostings market order)
  else s.knows (cmd.property "symbol")

variable {uuid : Option Value → Uuid} {cmd : Value}

/-- The settlement of a `SUBMIT` that has no symbol or no order id does not begin. -/
theorem settleSubmit_reads (uuid : Option Value → Uuid) (cmd : Value) (m : Matcher E) :
    (∃ symbol orderId, textOf (cmd.property "symbol") = some symbol ∧
      toBigInt (cmd.property "orderId") = some (.ofNat orderId) ∧
      settleSubmit uuid cmd m = Settler.settleSubmit (submitCommand uuid cmd symbol orderId) m) ∨
    (∀ symbol orderId, textOf (cmd.property "symbol") = some symbol →
      toBigInt (cmd.property "orderId") ≠ some (.ofNat orderId)) ∧
      ∃ r f, settleSubmit uuid cmd m = (r, m.withFaults f) ∧ ∀ a, r ≠ .ok (some a) := by
  unfold settleSubmit
  cases textOf (cmd.property "symbol") with
  | none => exact .inr ⟨by simp, _, m.store.faults, rfl, by simp⟩
  | some symbol =>
    have hmarket := onStore_query_cases (fun db : Db => db.market? symbol) m
    rcases toBigInt (cmd.property "orderId") with _ | orderId | n
    · refine .inr ⟨by simp, ?_⟩
      rcases hmarket with hread | hread
      · exact ⟨_, m.store.faults, Tx.bind_apply_error hread _, by simp⟩
      · simp only [Stm.marketFind, Tx.bind_apply_ok hread]
        cases m.db.market? symbol with
        | none => exact ⟨_, _, rfl, by simp⟩
        | some market => exact ⟨_, _, rfl, by simp⟩
    · exact .inl ⟨symbol, orderId, rfl, rfl, rfl⟩
    · refine .inr ⟨by simp, ?_⟩
      rcases hmarket with hread | hread
      · exact ⟨_, m.store.faults, Tx.bind_apply_error hread _, by simp⟩
      · simp only [Stm.marketFind, Tx.bind_apply_ok hread]
        cases m.db.market? symbol with
        | none => exact ⟨_, _, rfl, by simp⟩
        | some market =>
          rcases onStore_query_cases (fun _ => none)
            (m.withFaults (m.store.faults.map Nat.pred)) with
            horder | horder
          · exact ⟨_, m.store.faults.map Nat.pred, horder, by simp⟩
          · exact ⟨_, _, horder, by simp⟩

/-- And so it is with a `CANCEL`. -/
theorem settleCancel_reads (uuid : Option Value → Uuid) (cmd : Value) (m : Matcher E) :
    (∃ orderId, toBigInt (cmd.property "orderId") = some (.ofNat orderId) ∧
      settleCancel uuid cmd m = Settler.settleCancel (cancelCommand uuid cmd orderId) m) ∨
    (∀ orderId, toBigInt (cmd.property "orderId") ≠ some (.ofNat orderId)) ∧
      ∃ r f, settleCancel uuid cmd m = (r, m.withFaults f) ∧ ∀ a, r ≠ .ok (some a) := by
  unfold settleCancel
  rcases toBigInt (cmd.property "orderId") with _ | orderId | n
  · exact .inr ⟨by simp, _, m.store.faults, rfl, by simp⟩
  · exact .inl ⟨orderId, rfl, rfl⟩
  · refine .inr ⟨by simp, ?_⟩
    rcases onStore_query_cases (fun _ => none) m with horder | horder
    · exact ⟨_, m.store.faults, horder, by simp⟩
    · exact ⟨_, _, horder, by simp⟩

/-- What follows the settlement. -/
def settled {α : Type} (symbol : Option Value) (s : CommandConsumer E) :
    Except Failure (Option α) → Except Failure Result × CommandConsumer E
  | .error e => (.error e, s)
  | .ok none => (.ok .noop, s)
  | .ok (some _) => (.ok .ok, getEngine symbol s)

theorem dispatch_submit_eq (ht : isText (cmd.property "type") "SUBMIT" = true)
    {r : Except Failure (Option (Order × List Trade))}
    (h : settleSubmit uuid cmd s.matcher = (r, m)) :
    dispatch uuid cmd s = settled (cmd.property "symbol") { s with matcher := m } r := by
  have hrun : onMatcher (settleSubmit uuid cmd) s = (r, { s with matcher := m }) := by
    simp only [onMatcher, Tx.zoom, h]
  unfold dispatch
  rw [if_pos ht]
  rcases r with e | _ | a
  · exact Tx.bind_apply_error hrun _
  · exact Tx.bind_apply_ok hrun _
  · exact Tx.bind_apply_ok hrun _

theorem dispatch_cancel_eq (hs : isText (cmd.property "type") "SUBMIT" = false)
    (ht : isText (cmd.property "type") "CANCEL" = true) {r : Except Failure (Option Order)}
    (h : settleCancel uuid cmd s.matcher = (r, m)) :
    dispatch uuid cmd s = settled (cmd.property "symbol") { s with matcher := m } r := by
  have hrun : onMatcher (settleCancel uuid cmd) s = (r, { s with matcher := m }) := by
    simp only [onMatcher, Tx.zoom, h]
  unfold dispatch
  rw [if_neg (by simp [hs]), if_pos ht]
  rcases r with e | _ | a
  · exact Tx.bind_apply_error hrun _
  · exact Tx.bind_apply_ok hrun _
  · exact Tx.bind_apply_ok hrun _

/-- **A `SUBMIT` that can be read** is handled as the command that was read. -/
theorem dispatch_submit_reads (ht : isText (cmd.property "type") "SUBMIT" = true) {symbol : String}
    {orderId : ℕ} (hsymbol : textOf (cmd.property "symbol") = some symbol)
    (hid : toBigInt (cmd.property "orderId") = some (.ofNat orderId)) :
    dispatch uuid cmd s = onMatcher
      (Consumer.dispatch (.SUBMIT (submitCommand uuid cmd symbol orderId))) s := by
  have hreads : settleSubmit (E := E) uuid cmd =
      Settler.settleSubmit (submitCommand uuid cmd symbol orderId) := by
    simp only [settleSubmit, hsymbol, hid]
  rcases h : Settler.settleSubmit (submitCommand uuid cmd symbol orderId) s.matcher with ⟨r, m⟩
  rw [dispatch_submit_eq ht (by rw [hreads, h]), onMatcher, Tx.zoom, dispatch_submit_of_settle h]
  rcases r with e | _ | a
  · rfl
  · rfl
  · simp only [settled, getEngine, hsymbol]
    rfl

theorem settled_of_not_some {α : Type} {symbol : Option Value} {r : Except Failure (Option α)}
    (h : ∀ a, r ≠ .ok (some a)) : (settled symbol s r).2 = s := by
  rcases r with e | _ | a
  · rfl
  · rfl
  · exact absurd rfl (h a)

section Iff

variable (hs : s.matcher.store.Sound) (hcalm : s.matcher.store.Calm)

include hs hcalm

/-- A message of type `SUBMIT` that changes nothing. -/
theorem submit_unchanged_iff (ht : isText (cmd.property "type") "SUBMIT" = true) :
    s.Unchanged (dispatch uuid cmd s).2 ↔
      ∀ symbol orderId, textOf (cmd.property "symbol") = some symbol →
        toBigInt (cmd.property "orderId") = some (.ofNat orderId) →
        ∀ market order, Lets (submitCommand uuid cmd symbol orderId) s.matcher market order →
          SubmitStuck (submitCommand uuid cmd symbol orderId) s.matcher market order := by
  rcases settleSubmit_reads uuid cmd s.matcher with ⟨symbol, orderId, hsymbol, hid, -⟩ |
    ⟨hnone, r, f, hrun, hr⟩
  · rw [dispatch_submit_reads ht hsymbol hid]
    have hopens := opens_dispatch_submit (submitCommand uuid cmd symbol orderId) s.matcher
    have hiff := submit_inert_iff hs hcalm (submitCommand uuid cmd symbol orderId)
    constructor
    · intro hu symbol' orderId' hsymbol' hid'
      obtain rfl : symbol = symbol' := Option.some.inj (hsymbol.symm.trans hsymbol')
      obtain rfl : orderId = orderId' := Int.ofNat.inj (Option.some.inj (hid.symm.trans hid'))
      exact hiff.mp hu.inert
    · exact fun hall => .of_matcher (hiff.mpr (hall symbol orderId hsymbol hid)) hopens
  · rw [dispatch_submit_eq ht hrun, settled_of_not_some hr]
    exact iff_of_true (unchanged_withFaults f) fun symbol orderId hsymbol hid =>
      absurd hid (hnone symbol orderId hsymbol)

/-- A message of type `CANCEL` that changes nothing. -/
theorem cancel_unchanged_iff (hns : isText (cmd.property "type") "SUBMIT" = false)
    (ht : isText (cmd.property "type") "CANCEL" = true) :
    s.Unchanged (dispatch uuid cmd s).2 ↔
      ∀ order, namedOrder s.matcher.db cmd = some order →
        if order.terminal then s.knows (cmd.property "symbol")
        else ∀ market, s.matcher.db.market? order.market = some market →
          order.id ∉ (s.matcher.queues order.market).ids ∧
            ¬Affords s.matcher.db (releasePostings market order) := by
  rcases h : settleCancel uuid cmd s.matcher with ⟨r, m⟩
  rw [dispatch_cancel_eq hns ht h]
  rcases settleCancel_reads uuid cmd s.matcher with ⟨orderId, hid, heq⟩ | ⟨hnone, r', f, hrun, hr⟩
  swap
  · rw [hrun, Prod.mk.injEq] at h
    obtain ⟨rfl, rfl⟩ := h
    rw [settled_of_not_some hr]
    refine iff_of_true (unchanged_withFaults f) fun order horder => ?_
    unfold namedOrder at horder
    split at horder
    · rename_i id hid
      exact absurd hid (hnone id)
    · cases horder
  have hnamed : namedOrder s.matcher.db cmd = s.matcher.db.order? orderId := by
    simp only [namedOrder, hid]
  rw [heq] at h
  rw [hnamed]
  rcases settleCancel_cases h with ⟨n, -, hf, -⟩ |
    ⟨⟨f, rfl⟩, ⟨rfl, hnone⟩ | ⟨order, horder, ⟨rfl, hterm⟩ | ⟨rfl, hmarket⟩⟩⟩ |
    ⟨market, order, f, horder, hmarket, hlive, -, -, -⟩
  · rw [hcalm] at hf
    cases hf
  · refine iff_of_true (unchanged_withFaults f) fun order horder => ?_
    cases horder.symm.trans hnone
  · -- the order is closed, and `getEngine` is called
    refine (getEngine_unchanged_iff (cmd.property "symbol") f).trans
      ⟨fun hk o ho => ?_, fun hall => ?_⟩
    · obtain rfl : order = o := Option.some.inj (horder.symm.trans ho)
      rwa [if_pos hterm]
    · have hk := hall order horder
      rwa [if_pos hterm] at hk
  · have hfound : (s.matcher.db.market? order.market).isSome := hs.markets _ _ horder
    rw [hmarket] at hfound
    cases hfound
  -- the settlement is reached
  have hall : (∀ o, s.matcher.db.order? orderId = some o →
      if o.terminal then s.knows (cmd.property "symbol") = true
      else ∀ market, s.matcher.db.market? o.market = some market →
        o.id ∉ (s.matcher.queues o.market).ids ∧ ¬Affords s.matcher.db (releasePostings market o)) ↔
      s.matcher.Inert
        (Consumer.dispatch (.CANCEL (cancelCommand uuid cmd orderId)) s.matcher).2 := by
    rw [cancel_inert_iff hs hcalm]
    constructor
    · intro hall market' o ho hmarket' hlive'
      have hcond := hall o ho
      rw [if_neg (by simp [hlive'])] at hcond
      exact hcond market' hmarket'
    · intro hall o ho
      obtain rfl : order = o := Option.some.inj (horder.symm.trans ho)
      rw [if_neg (by simp [hlive])]
      exact fun market' hmarket' => hall market' order ho hmarket' hlive
  rw [hall, dispatch_cancel_of_settle h]
  have hopens := opens_settleCancel h
  rcases r with e | _ | a
  · exact ⟨fun hu => hu.inert, fun hinert => .of_matcher hinert hopens⟩
  · exact ⟨fun hu => hu.inert, fun hinert => .of_matcher hinert hopens⟩
  · -- a commit changes the tables
    rw [(Matcher.same_setBook_book m _).inert_iff]
    refine ⟨fun hu => ((getEngine_same _ _).inert_iff).mp hu.inert, fun hinert => ?_⟩
    have hd := dispatch_cancel_of_settle h
    cases dispatch_cancel hd with
    | skipped _ _ why =>
      rcases why with hnone | ⟨o, ho, hterm | hnone⟩
      · cases horder.symm.trans hnone
      · obtain rfl : order = o := Option.some.inj (horder.symm.trans ho)
        cases hlive.symm.trans hterm
      · obtain rfl : order = o := Option.some.inj (horder.symm.trans ho)
        cases hmarket.symm.trans hnone
    | committed market' o ho _ hlive' hcancelled =>
      exact absurd ((Matcher.same_setBook_book m _).inert_iff.mpr hinert)
        (hcancelled.not_inert ho hlive')

/-- **What a message changes**: when no statement fails from outside, nothing
exactly if it is harmless. -/
theorem dispatch_unchanged_iff : s.Unchanged (dispatch uuid cmd s).2 ↔ Harmless uuid s cmd := by
  unfold Harmless
  split_ifs with hsubmit hcancel
  · exact submit_unchanged_iff hs hcalm hsubmit
  · exact cancel_unchanged_iff hs hcalm (Bool.eq_false_iff.mpr hsubmit) hcancel
  · have hrun : dispatch uuid cmd s = (.ok .ok, getEngine (cmd.property "symbol") s) := by
      unfold dispatch
      rw [if_neg hsubmit, if_neg hcancel]
      rfl
    rw [hrun]
    exact getEngine_unchanged_iff (cmd.property "symbol") s.matcher.store.faults

end Iff

/-! ## When the handler returns -/

/-- The order id is not looked at: the command has a type that is not settled, or it is a `SUBMIT`
for which no market is found. -/
def SkipsOrderId (s : CommandConsumer E) (cmd : Value) : Prop :=
  if isText (cmd.property "type") "SUBMIT" then
    ∃ symbol, textOf (cmd.property "symbol") = some symbol ∧ s.matcher.db.market? symbol = none ∧
      s.matcher.store.faults ≠ some 0
  else isText (cmd.property "type") "CANCEL" = false

/-- **The handler returns**: the metrics take the labels, and an order id that is looked at has a
text for the message of the failure. -/
def Returns (labels : Labels) (s : CommandConsumer E) (cmd : Value) : Prop :=
  labels.accepts (cmd.property "symbol") ∧ labels.accepts (cmd.property "type") ∧
    (printable (cmd.property "orderId") ∨ SkipsOrderId s cmd)

theorem printable_of_accepts {labels : Labels} {v : Option Value} (h : labels.accepts v = true) :
    printable v = true := by
  cases v with
  | none => rfl
  | some v => exact labels.text_of_accepts v h

theorem toBigInt_of_not_printable {v : Option Value} (h : ¬printable v) : toBigInt v = none := by
  cases v with
  | none => rfl
  | some v =>
    by_contra hv
    exact h (isSome_toText_of_toBigInt (Option.isSome_iff_ne_none.mpr hv))

theorem isOk_settled {α : Type} (symbol : Option Value) (s : CommandConsumer E)
    (r : Except Failure (Option α)) : (settled symbol s r).1.isOk = r.isOk := by
  rcases r with e | _ | a <;> rfl

variable (s uuid) in
/-- What is queued for a command whose order id has no text does not fail if the
id is not looked at. -/
theorem isOk_dispatch_iff (h : ¬printable (cmd.property "orderId")) :
    (dispatch uuid cmd s).1.isOk ↔ SkipsOrderId s cmd := by
  have hid := toBigInt_of_not_printable h
  unfold SkipsOrderId
  split_ifs with hsubmit
  · rcases hsettle : settleSubmit uuid cmd s.matcher with ⟨r, m⟩
    rw [dispatch_submit_eq hsubmit hsettle, isOk_settled]
    unfold settleSubmit at hsettle
    simp only [hid] at hsettle
    cases hsymbol : textOf (cmd.property "symbol") with
    | none =>
      rw [hsymbol] at hsettle
      cases hsettle
      exact iff_of_false Bool.false_ne_true fun ⟨symbol, hnone, _⟩ =>
        Option.some_ne_none symbol hnone.symm
    | some symbol =>
      rw [hsymbol] at hsettle
      simp only [Option.some.injEq, exists_eq_left']
      by_cases hf : s.matcher.store.faults = some 0
      · simp only [Stm.marketFind, Tx.bind_apply_error (onStore_query_error _ hf)] at hsettle
        cases hsettle
        exact iff_of_false Bool.false_ne_true fun hmarket => hmarket.2 hf
      · simp only [Stm.marketFind, Tx.bind_apply_ok (onStore_query_ok _ hf)] at hsettle
        cases hmarket : s.matcher.db.market? symbol with
        | none =>
          simp only [hmarket] at hsettle
          cases hsettle
          exact iff_of_true rfl ⟨rfl, hf⟩
        | some market =>
          simp only [hmarket] at hsettle
          cases hsettle
          exact iff_of_false Bool.false_ne_true fun hnone => Option.some_ne_none market hnone.1
  · cases hcancel : isText (cmd.property "type") "CANCEL" with
    | true =>
      have hsettle : settleCancel uuid cmd s.matcher = (.error .typeError, s.matcher) := by
        simp only [settleCancel, hid]
        rfl
      rw [dispatch_cancel_eq (Bool.eq_false_iff.mpr hsubmit) hcancel hsettle]
      exact iff_of_false Bool.false_ne_true Bool.true_eq_false.mp
    | false =>
      unfold dispatch
      rw [if_neg hsubmit, if_neg (by simp [hcancel])]
      exact iff_of_true rfl rfl

/-- **When the handler returns**, in any state and whatever statements fail. -/
theorem returns_iff (labels : Labels) (cmd : Value) (s : CommandConsumer E) :
    (run labels uuid cmd s).1 = .ok () ↔ Returns labels s cmd := by
  unfold run Returns
  by_cases hsymbol : labels.accepts (cmd.property "symbol")
  swap
  · simp [hsymbol]
  by_cases htype : labels.accepts (cmd.property "type")
  swap
  · simp [hsymbol, htype]
  have hlogs : logs cmd = printable (cmd.property "orderId") := by
    simp [logs, printable_of_accepts hsymbol, printable_of_accepts htype]
  rw [if_pos hsymbol, hlogs]
  simp only [htype, hsymbol, true_and, Bool.and_true, Bool.or_eq_true]
  by_cases hid : printable (cmd.property "orderId")
  · simp [hid]
  · have hok := isOk_dispatch_iff s uuid hid
    simp only [hid, false_or, or_false, Bool.false_eq_true]
    split_ifs with hrun
    · exact iff_of_true rfl (hok.mp hrun)
    · exact iff_of_false (fun h => by cases h) (hrun ∘ hok.mpr)

/-- A run that passes the first metric ends in the state that the task left. -/
theorem run_state {labels : Labels} (h : labels.accepts (cmd.property "symbol")) :
    (run labels uuid cmd s).2 = (dispatch uuid cmd s).2 := by
  unfold run
  rw [if_pos h]
  dsimp only
  split_ifs <;> rfl

theorem unchanged_refl (s : CommandConsumer E) : s.Unchanged s :=
  .of_matcher (Matcher.Same.refl _).inert fun _ => .inl

variable {bytes : List UInt8}

theorem handleMessage_unparsed (h : parse (decode bytes) = none) (labels : Labels)
    (uuid : Option Value → Uuid) (s : CommandConsumer E) :
    handleMessage labels uuid (some bytes) s = (.ok (), s) := by
  simp only [handleMessage, h]

theorem handleMessage_null (h : parse (decode bytes) = some .null) (labels : Labels)
    (uuid : Option Value → Uuid) (s : CommandConsumer E) :
    handleMessage labels uuid (some bytes) s = (.error .typeError, s) := by
  simp only [handleMessage, h]

theorem handleMessage_parsed (h : parse (decode bytes) = some cmd)
    (hcmd : cmd ≠ .null) (labels : Labels)
    (uuid : Option Value → Uuid) (s : CommandConsumer E) :
    handleMessage labels uuid (some bytes) s = run labels uuid cmd s := by
  cases cmd with
  | null => exact absurd rfl hcmd
  | bool | number | string | array | object => simp only [handleMessage, h]

/-- **The messages that are tolerated**, when no statement fails from outside. -/
theorem tolerates_iff (hs : s.matcher.store.Sound) (hcalm : s.matcher.store.Calm) (labels : Labels)
    (uuid : Option Value → Uuid) (bytes : List UInt8) :
    Tolerates labels uuid s bytes ↔ ∀ cmd, parse (decode bytes) = some cmd →
      cmd ≠ .null ∧ Returns labels s cmd ∧ (¬WellFormed s.matcher.db cmd →
      Harmless uuid s cmd) := by
  unfold Tolerates
  cases hparse : parse (decode bytes) with
  | none =>
    rw [handleMessage_unparsed hparse]
    exact iff_of_true ⟨rfl, fun _ => unchanged_refl s⟩ nofun
  | some cmd =>
    simp only [Option.some.injEq, forall_eq']
    by_cases hnull : cmd = .null
    · subst hnull
      rw [handleMessage_null hparse]
      exact iff_of_false nofun fun h => h.1 rfl
    rw [handleMessage_parsed hparse hnull, returns_iff, ← dispatch_unchanged_iff hs hcalm]
    simp only [hnull, ne_eq, not_false_eq_true, true_and]
    exact and_congr_right fun hreturns => by rw [run_state hreturns.1]

end CommandConsumer

/-! ## Messages after a trade -/

namespace Sample

/-- The metrics take every value that has a text. -/
def labels : Labels where
  accepts := printable
  accepts_text s := by simp [printable, toText]
  text_of_accepts _ h := h

/-- The order 1 of `bob` rests, and there is one market. -/
def consumer : CommandConsumer Engine.priceTime := ⟨exchange.run trading, []⟩

theorem consumer_sound : consumer.matcher.store.Sound := (run_safe exchange_initial trading).sound

theorem consumer_calm : consumer.matcher.store.Calm := by
  unfold Store.Calm
  decide +kernel

def message (s : String) : List UInt8 := s.toList.map fun c => UInt8.ofNat c.toNat

/-- A `CANCEL` without the fields that the settler does not read, the symbol among them. -/
def cancelOf (orderId : String) : Value :=
  .object [(text "type", .string (text "CANCEL")), (text "orderId", .string (text orderId))]

def cancelBytes (orderId : String) : List UInt8 :=
  message ("\x7b\"type\":\"CANCEL\",\"orderId\":\"" ++ orderId ++ "\"\x7d")

/-- A message of no type, for a market that is none. -/
def stray : Value := .object [(text "symbol", .string (text "DOGE-KRW"))]

def strayBytes : List UInt8 := message "\x7b\"symbol\":\"DOGE-KRW\"\x7d"

theorem labels_string (s : List ℕ) : labels.accepts (some (.string s)) =
    true := labels.accepts_text s

end Sample

namespace CommandConsumer

open Sample

theorem parse_cancelBytes_one : parse (decode (cancelBytes "1")) = some (cancelOf "1") := rfl

theorem parse_cancelBytes_nine : parse (decode (cancelBytes "9")) = some (cancelOf "9") := rfl

theorem parse_strayBytes : parse (decode strayBytes) = some stray := rfl

/-- The incomplete `CANCEL` is tolerated for an order that does not exist, and not
for one that rests. -/
theorem tolerates_cancelBytes : consumer.matcher.store.Sound ∧ consumer.matcher.store.Calm ∧
    Tolerates Sample.labels (fun _ => ⟨0⟩) consumer (cancelBytes "9") ∧
    ¬Tolerates Sample.labels (fun _ => ⟨0⟩) consumer (cancelBytes "1") := by
  refine ⟨consumer_sound, consumer_calm, ?_, fun h => ?_⟩
  · rw [tolerates_iff consumer_sound consumer_calm, parse_cancelBytes_nine]
    simp only [Option.some.injEq, forall_eq']
    refine ⟨nofun, ⟨rfl, labels_string _, .inl (labels_string _)⟩, fun _ => ?_⟩
    have hnone : namedOrder consumer.matcher.db (cancelOf "9") = none := by decide +kernel
    unfold Harmless
    rw [if_neg (by decide), if_pos (by decide), hnone]
    exact nofun
  · rw [tolerates_iff consumer_sound consumer_calm, parse_cancelBytes_one] at h
    simp only [Option.some.injEq, forall_eq'] at h
    have hharmless := h.2.2 (by decide +kernel)
    unfold Harmless at hharmless
    rw [if_neg (by decide), if_pos (by decide)] at hharmless
    have hfree := hharmless ⟨1, "bob", "BTC-USDT", .ASK, .LIMIT, some 100, 2,
      1, 1, .PARTIAL, some ⟨0⟩⟩
      (by decide +kernel)
    exact (hfree btcUsdt (by decide +kernel)).1 (by decide +kernel)

/-- **A message that is no command** stops the partition, makes a book, or cancels an order. -/
theorem commands_not_inert : exchange.Initial ∧
    (handleMessage Sample.labels (fun _ => ⟨0⟩) (some (message "null")) consumer).1 ≠ .ok () ∧
    ¬Tolerates Sample.labels (fun _ => ⟨0⟩) consumer strayBytes ∧
    ¬Tolerates Sample.labels (fun _ => ⟨0⟩) consumer (cancelBytes "1") := by
  refine ⟨exchange_initial, ?_, fun h => ?_, fun h => ?_⟩
  · rw [handleMessage_null (rfl : parse (decode (message "null")) = some .null)]
    exact nofun
  · have hu := h.2 (by rw [parse_strayBytes]; rintro _ ⟨⟩; decide +kernel)
    rw [handleMessage_parsed parse_strayBytes nofun, run_state (labels_string _)] at hu
    exact absurd (hu.books "DOGE-KRW" (by decide +kernel)) (by decide +kernel)
  · have hu := h.2 (by rw [parse_cancelBytes_one]; rintro _ ⟨⟩; decide +kernel)
    rw [handleMessage_parsed parse_cancelBytes_one nofun, run_state rfl] at hu
    have hrow := congrArg (fun db : Db => (db.order? 1).map (·.status)) hu.inert.1
    exact absurd hrow (by decide +kernel)

end CommandConsumer

end Orbit
