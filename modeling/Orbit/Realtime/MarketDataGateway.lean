import Orbit.Foundations.Json
import Orbit.Foundations.Rooms

/-!
# The market data gateway

`MarketDataGateway` of `apps/realtime/src/market-data/market-data.gateway.ts`, with
`SnapshotCacheService`: a pod of the realtime service passes what Redis publishes on the channels
`md:<symbol>:<kind>` on to the clients in the room of that name, and gives a client that asks for
the orderbook of a market the snapshot that Redis holds. The rooms are those of socket.io, which is
a parameter with the laws of a `Server`.

Between the request for a snapshot and the answer of Redis anything may happen: messages are
published, and clients come and go. `call` numbers the invocations of `onSubscribe`.

* `present_iff`: a client is in the room of a market and a kind if it asked for it and has not
  unsubscribed from it since, nor gone.
* `client_feed`: what a client is sent, from the history alone: the messages of the rooms it was in,
  each once and in their order, and the snapshots it asked for, while it was there.
-/

namespace Orbit.MarketData

open Json Rooms

/-! ## Rooms of markets -/

inductive Kind
  | trade
  | orderbook
  | candle
  deriving DecidableEq, Repr

def Kind.name : Kind → String
  | .trade => "trade"
  | .orderbook => "orderbook"
  | .candle => "candle"

/-- The `kind` of a request. These are the ones that are declared; nothing checks it at run time. -/
inductive SubscribeKind
  | only (kind : Kind)
  | all
  deriving DecidableEq, Repr

def SubscribeKind.kinds : SubscribeKind → List Kind
  | .only kind => [kind]
  | .all => [.trade, .orderbook, .candle]

/-- The body of a request. -/
structure SubscribeBody where
  symbol : Option (List ℕ)
  kind : Option SubscribeKind
  deriving DecidableEq, Repr

/-- What a body asks for; `none` if it is missing or has no symbol. -/
def requested (body : Option SubscribeBody) : Option (List ℕ × SubscribeKind) :=
  match body with
  | none => none
  | some body =>
    match body.symbol with
    | none => none
    | some symbol => if symbol = [] then none else some (symbol, body.kind.getD .all)

/-- `md:<symbol>:<kind>`, the name of a channel of Redis and of a room. -/
def room (symbol : List ℕ) (kind : Kind) : List ℕ :=
  text "md:" ++ symbol ++ text ":" ++ text kind.name

/-- The rooms that a body asks for. -/
def rooms (body : Option SubscribeBody) : List (List ℕ) :=
  match requested body with
  | none => []
  | some (symbol, kind) => kind.kinds.map (room symbol)

/-! ## Messages -/

/-- An event of socket.io with its argument. -/
structure Emission where
  event : Option Value
  data : Option Value

universe u

/-- socket.io: a server with rooms, and the events that `emit` throws at. -/
structure SocketIO (κ : Type u) [DecidableEq κ] extends Server κ (List ℕ) Emission where
  reserved : Option Value → Bool
  reserved_name : ∀ kind : Kind, reserved (some (.string (text kind.name))) = false

variable {κ : Type u} [DecidableEq κ] (io : SocketIO κ)

/-- `emit`; `none` if it throws. -/
def SocketIO.emit (event data : Option Value) : Option Emission :=
  if io.reserved event then none else some ⟨event, data⟩

/-- What a published message makes the gateway emit; `none` if an error is caught. -/
def emission (message : List UInt8) : Option Emission :=
  match parse (decode message) with
  | none => none
  | some .null => none
  | some payload => io.emit (payload.property "kind") (payload.property "data")

/-- How a `GET` ends. -/
inductive GetAnswer
  | threw
  | value (cached : Option (List UInt8))
  deriving DecidableEq, Repr

/-- `REDIS_KEYS.ORDERBOOK_SNAPSHOT`. -/
def ORDERBOOK_SNAPSHOT (symbol : List ℕ) : List ℕ := text "ob:snapshot:" ++ symbol

/-- `SnapshotCacheService.getOrderbook`; `none` is `null`. -/
def getOrderbook (redis : List ℕ → GetAnswer) (symbol : List ℕ) : Option Value :=
  match redis (ORDERBOOK_SNAPSHOT symbol) with
  | .threw => none
  | .value none => none
  | .value (some []) => none
  | .value (some cached) => parse (decode cached)

/-- The snapshot that a client is sent, if there is one. -/
def snapshot (redis : List ℕ → GetAnswer) (symbol : List ℕ) : Option Emission :=
  let snapshot := getOrderbook redis symbol
  if truthy snapshot then io.emit (some (.string (text "orderbook"))) snapshot else none

/-! ## The gateway -/

/-- A request for a snapshot that Redis has not answered. -/
structure Read (κ : Type u) where
  call : ℕ
  client : κ
  symbol : List ℕ
  deriving DecidableEq, Repr

structure Gateway where
  server : io.State
  /-- How often `onSubscribe` was invoked. -/
  calls : ℕ
  reads : List (Read κ)

def Gateway.empty : Gateway io := ⟨io.empty, 0, []⟩

inductive Step (κ : Type u)
  | handleConnection (client : κ)
  | handleDisconnect (client : κ)
  | onSubscribe (client : κ) (body : Option SubscribeBody)
  /-- Redis answers the request of an invocation. -/
  | onSnapshot (call : ℕ) (redis : List ℕ → GetAnswer)
  | onUnsubscribe (client : κ) (body : Option SubscribeBody)
  | pmessage (channel : List ℕ) (message : List UInt8)

namespace Gateway

variable {io}

/-- The socket is open. -/
def handleConnection (g : Gateway io) (client : κ) : Gateway io :=
  { g with server := io.run g.server [.enter client] }

/-- The socket is closed. -/
def handleDisconnect (g : Gateway io) (client : κ) : Gateway io :=
  { g with server := io.run g.server [.drop client] }

def onSubscribe (g : Gateway io) (client : κ) (body : Option SubscribeBody) : Gateway io :=
  match requested body with
  | none => { g with calls := g.calls + 1 }
  | some (symbol, kind) =>
    { g with
      server := io.run g.server ((kind.kinds.map (room symbol)).map (.join client))
      calls := g.calls + 1
      reads :=
        if kind = .all ∨ kind = .only .orderbook then g.reads ++ [⟨g.calls, client, symbol⟩]
        else g.reads }

/-- What the rest of an invocation of `onSubscribe` sends. -/
def told (g : Gateway io) (call : ℕ) (redis : List ℕ → GetAnswer) : Option (κ × Emission) :=
  match g.reads.find? (·.call = call) with
  | none => none
  | some read => (snapshot io redis read.symbol).map (read.client, ·)

/-- The rest of `onSubscribe`. -/
def onSnapshot (g : Gateway io) (call : ℕ) (redis : List ℕ → GetAnswer) : Gateway io :=
  { g with
    server := io.run g.server ((g.told call redis).toList.map fun x => .tell x.1 x.2)
    reads := g.reads.filter (·.call ≠ call) }

def onUnsubscribe (g : Gateway io) (client : κ) (body : Option SubscribeBody) : Gateway io :=
  match requested body with
  | none => g
  | some (symbol, kind) =>
    { g with server := io.run g.server ((kind.kinds.map (room symbol)).map (.leave client)) }

/-- The listener of `pmessage`. -/
def onPmessage (g : Gateway io) (channel : List ℕ) (message : List UInt8) : Gateway io :=
  match emission io message with
  | none => g
  | some emission => { g with server := io.run g.server [.say channel emission] }

def step (g : Gateway io) : Step κ → Gateway io
  | .handleConnection client => g.handleConnection client
  | .handleDisconnect client => g.handleDisconnect client
  | .onSubscribe client body => g.onSubscribe client body
  | .onSnapshot call redis => g.onSnapshot call redis
  | .onUnsubscribe client body => g.onUnsubscribe client body
  | .pmessage channel message => g.onPmessage channel message

variable (io) in
def run (steps : List (Step κ)) : Gateway io := steps.foldl step (empty io)

/-- What a step does to the rooms. -/
def operations (g : Gateway io) : Step κ → List (Op κ (List ℕ) Emission)
  | .handleConnection client => [.enter client]
  | .handleDisconnect client => [.drop client]
  | .onSubscribe client body => (rooms body).map (.join client)
  | .onSnapshot call redis => (g.told call redis).toList.map fun x => .tell x.1 x.2
  | .onUnsubscribe client body => (rooms body).map (.leave client)
  | .pmessage channel message => (emission io message).toList.map (.say channel)

end Gateway

/-! ## Histories -/

/-- The client asks for the feed of the kind. -/
def Asks (client : κ) (symbol : List ℕ) (kind : Kind) (_ : List (Step κ)) (e : Step κ) : Prop :=
  ∃ body sk, e = .onSubscribe client body ∧ requested body = some (symbol, sk) ∧ kind ∈ sk.kinds

/-- The client gives the feed of the kind up, or goes. -/
def Quits (client : κ) (symbol : List ℕ) (kind : Kind) (_ : List (Step κ)) (e : Step κ) : Prop :=
  (∃ body sk, e = .onUnsubscribe client body ∧ requested body = some (symbol, sk) ∧
    kind ∈ sk.kinds) ∨ e = .handleDisconnect client

/-- The client has asked for the feed and not given it up. -/
def Subscribed (client : κ) (symbol : List ℕ) (kind : Kind) (before : List (Step κ)) : Prop :=
  Since (Asks client symbol kind) (Quits client symbol kind) before

/-- An invocation of `onSubscribe`. -/
def Step.invocation : Step κ → Option (κ × Option SubscribeBody)
  | .onSubscribe client body => some (client, body)
  | _ => none

/-- The invocations of `onSubscribe`, of which `call` is the number. -/
def invocations (steps : List (Step κ)) : List (κ × Option SubscribeBody) :=
  steps.filterMap Step.invocation

/-- The client and the market of an invocation that asks for a snapshot. -/
def snapshotOf (invocation : κ × Option SubscribeBody) : Option (κ × List ℕ) :=
  match requested invocation.2 with
  | none => none
  | some (symbol, kind) =>
    if Kind.orderbook ∈ kind.kinds then some (invocation.1, symbol) else none

/-- What the invocation of that number asks for. -/
def snapshotRequest (before : List (Step κ)) (call : ℕ) : Option (κ × List ℕ) :=
  (invocations before)[call]?.bind snapshotOf

/-- The invocation was made, and Redis has not answered it. -/
def Unanswered (call : ℕ) (before : List (Step κ)) : Prop :=
  Since (fun earlier e => e.invocation.isSome ∧ (invocations earlier).length = call)
    (fun _ e => ∃ redis, e = .onSnapshot call redis) before

def Connects (client : κ) (_ : List (Step κ)) (e : Step κ) : Prop := e = .handleConnection client

def Disconnects (client : κ) (_ : List (Step κ)) (e : Step κ) : Prop :=
  e = .handleDisconnect client

def Connected (client : κ) (before : List (Step κ)) : Prop :=
  Since (Connects client) (Disconnects client) before

/-- The orderbook that Redis holds, as an event. -/
def orderbook (redis : List ℕ → GetAnswer) (symbol : List ℕ) : List Emission :=
  let snapshot := getOrderbook redis symbol
  if truthy snapshot then [⟨some (.string (text "orderbook")), snapshot⟩] else []

open Classical in
/-- What a client is sent at a step that comes after others. -/
noncomputable def due (client : κ) (before : List (Step κ)) : Step κ → List Emission
  | .pmessage channel message =>
    if (∃ symbol kind, channel = room symbol kind ∧ Subscribed client symbol kind before) ∧
        Connected client before then (emission io message).toList
    else []
  | .onSnapshot call redis =>
    match snapshotRequest before call with
    | none => []
    | some (asker, symbol) =>
      if asker = client ∧ Unanswered call before ∧ Connected client before then
        orderbook redis symbol
      else []
  | _ => []

/-! ## The rooms -/

section Rooms

variable {io} {steps : List (Step κ)} {client : κ} {symbol : List ℕ} {kind : Kind}

namespace Gateway

theorem step_server (g : Gateway io) (e : Step κ) :
    (g.step e).server = io.run g.server (g.operations e) := by
  cases e with
  | handleConnection client => rfl
  | handleDisconnect client => rfl
  | onSubscribe client body =>
    rw [step, onSubscribe, operations, rooms]
    cases requested body with
    | none => rfl
    | some request => rfl
  | onSnapshot call redis => rfl
  | onUnsubscribe client body =>
    rw [step, onUnsubscribe, operations, rooms]
    cases requested body with
    | none => rfl
    | some request => rfl
  | pmessage channel message =>
    rw [step, onPmessage, operations]
    cases emission io message with
    | none => rfl
    | some emission => rfl

theorem run_concat (steps : List (Step κ)) (e : Step κ) :
    run io (steps ++ [e]) = (run io steps).step e := by
  rw [run, List.foldl_append]
  rfl

end Gateway

open Gateway

variable (io) in
/-- What the steps do to the rooms, one after another. -/
def operations (steps : List (Step κ)) : List (Op κ (List ℕ) Emission) :=
  gather (fun before e => (run io before).operations e) steps

theorem operations_concat (steps : List (Step κ)) (e : Step κ) :
    operations io (steps ++ [e]) = operations io steps ++ (run io steps).operations e :=
  gather_concat _ steps e

theorem run_server (steps : List (Step κ)) :
    (run io steps).server = io.run io.empty (operations io steps) := by
  induction steps using List.reverseRecOn with
  | nil => rfl
  | append_singleton steps e ih =>
    rw [Gateway.run_concat, step_server, ih, operations_concat]
    exact (List.foldl_append ..).symm

/-- The kinds differ before their last letter. -/
theorem room_injective {symbol' : List ℕ} {kind' : Kind}
    (h : room symbol kind = room symbol' kind') :
    symbol = symbol' ∧ kind = kind' := by
  unfold room at h
  have hkind : kind = kind' := by
    have hend := congrArg (fun l => l.reverse.take 2) h
    simp only [List.reverse_append, List.append_assoc] at hend
    cases kind <;> cases kind' <;> first | rfl | (simp [text, units, Kind.name] at hend)
  subst hkind
  exact ⟨List.append_cancel_left (List.append_cancel_right (List.append_cancel_right h)), rfl⟩

theorem mem_rooms {body : Option SubscribeBody} : room symbol kind ∈ rooms body ↔
    ∃ sk, requested body = some (symbol, sk) ∧ kind ∈ sk.kinds := by
  unfold rooms
  rcases requested body with _ | ⟨symbol', sk⟩
  · simp
  · simp only [List.mem_map, Option.some.injEq, Prod.mk.injEq]
    constructor
    · rintro ⟨kind', hkind', h⟩
      obtain ⟨rfl, rfl⟩ := room_injective h
      exact ⟨sk, ⟨rfl, rfl⟩, hkind'⟩
    · rintro ⟨sk', ⟨rfl, rfl⟩, h⟩
      exact ⟨kind, h, rfl⟩

/-- Who is in the room of a market and a kind after a step. -/
theorem present_step (before : List (Step κ)) (g : Gateway io) (e : Step κ) :
    io.present (g.step e).server client (room symbol kind) = true ↔
      Asks client symbol kind before e ∨
        io.present g.server client (room symbol kind) = true ∧
          ¬Quits client symbol kind before e := by
  rw [step_server]
  cases e with
  | handleConnection client' =>
    simp [Gateway.operations, Asks, Quits, Server.run, io.present_step]
  | handleDisconnect client' =>
    simp [Gateway.operations, Asks, Quits, Server.run, io.present_step]
  | onSubscribe client' body =>
    rw [Gateway.operations, Server.present_joins, mem_rooms]
    simp [Asks, Quits, eq_comm (a := client)]
  | onSnapshot call redis =>
    rw [Gateway.operations]
    cases g.told call redis with
    | none => simp [Asks, Quits, Server.run]
    | some told => simp [Asks, Quits, Server.run, io.present_step]
  | onUnsubscribe client' body =>
    rw [Gateway.operations, Server.present_leaves, mem_rooms]
    simp [Asks, Quits, eq_comm (a := client)]
  | pmessage channel message =>
    rw [Gateway.operations]
    cases emission io message with
    | none => simp [Asks, Quits, Server.run]
    | some emission => simp [Asks, Quits, Server.run, io.present_step]

/-- **Who is in a room**: who asked for the feed and has not given it up since. -/
theorem present_iff : io.present (run io steps).server client (room symbol kind) = true ↔
    Subscribed client symbol kind steps := by
  induction steps using List.reverseRecOn with
  | nil =>
    refine iff_of_false (by simp [run, Gateway.empty, io.present_empty]) ?_
    rintro ⟨before, e, after, h, -⟩
    simp at h
  | append_singleton steps e ih =>
    rw [Gateway.run_concat, present_step steps, ih]
    exact (since_concat (P := Asks client symbol kind) (Q := Quits client symbol kind)).symm

/-- Only rooms of markets are entered. -/
theorem join_mem_operations {name : List ℕ} (h : .join client name ∈ operations io steps) :
    ∃ symbol kind, name = room symbol kind := by
  induction steps using List.reverseRecOn with
  | nil => exact absurd h List.not_mem_nil
  | append_singleton steps e ih =>
    rw [operations_concat] at h
    rcases List.mem_append.mp h with h | h
    · exact ih h
    · cases e with
      | handleConnection client' => simp [Gateway.operations] at h
      | handleDisconnect client' => simp [Gateway.operations] at h
      | onSubscribe client' body =>
        simp only [Gateway.operations, List.mem_map, Op.join.injEq, exists_eq_right_right] at h
        obtain ⟨h, -⟩ := h
        rw [rooms] at h
        rcases hbody : requested body with _ | ⟨symbol, sk⟩
        · simp [hbody] at h
        · simp only [hbody, List.mem_map] at h
          obtain ⟨kind, -, rfl⟩ := h
          exact ⟨symbol, kind, rfl⟩
      | onSnapshot call redis => simp [Gateway.operations] at h
      | onUnsubscribe client' body => simp [Gateway.operations] at h
      | pmessage channel message => simp [Gateway.operations] at h

/-- Who hears what is published on a channel. -/
theorem in_iff {channel : List ℕ} : In client channel (operations io steps) ↔
    ∃ symbol kind, channel = room symbol kind ∧ Subscribed client symbol kind steps := by
  have hpresent : io.present (io.run io.empty (operations io steps)) client channel = true ↔
      In client channel (operations io steps) := Server.present_iff
  rw [← hpresent, ← run_server]
  constructor
  · intro h
    have hjoin := h
    rw [run_server] at hjoin
    obtain ⟨symbol, kind, rfl⟩ := join_mem_operations
      ((Server.join_mem_of_present hjoin).resolve_right (by simp [io.present_empty]))
    exact ⟨symbol, kind, rfl, present_iff.mp h⟩
  · rintro ⟨symbol, kind, rfl, h⟩
    exact present_iff.mpr h

end Rooms

/-! ## The snapshots -/

section Snapshots

variable {io} {steps : List (Step κ)} {client : κ} {symbol : List ℕ} {call : ℕ}

open Gateway

/-- Who is connected after a step. -/
theorem connected_step (g : Gateway io) (e : Step κ) :
    io.connected (g.step e).server client = true ↔ e = .handleConnection client ∨
      io.connected g.server client = true ∧ e ≠ .handleDisconnect client := by
  rw [step_server]
  cases e with
  | handleConnection client' => simp [Gateway.operations, Server.run, io.connected_step]
  | handleDisconnect client' => simp [Gateway.operations, Server.run, io.connected_step]
  | onSubscribe client' body =>
    rw [Server.connected_run (by simp [Gateway.operations])]
    simp
  | onSnapshot call redis =>
    rw [Server.connected_run fun op hop => by
      obtain ⟨told, -, rfl⟩ := List.mem_map.mp hop
      simp]
    simp
  | onUnsubscribe client' body =>
    rw [Server.connected_run (by simp [Gateway.operations])]
    simp
  | pmessage channel message =>
    rw [Server.connected_run (by simp [Gateway.operations])]
    simp

theorem connected_iff :
    io.connected (run io steps).server client = true ↔ Connected client steps := by
  induction steps using List.reverseRecOn with
  | nil =>
    refine iff_of_false (by simp [run, Gateway.empty, io.connected_empty]) ?_
    rintro ⟨before, e, after, h, -⟩
    simp at h
  | append_singleton steps e ih =>
    rw [Gateway.run_concat, connected_step, ih]
    exact (since_concat (P := Connects client) (Q := Disconnects client)).symm

theorem there_iff : There client (operations io steps) ↔ Connected client steps := by
  have hconnected : io.connected (io.run io.empty (operations io steps)) client = true ↔
      There client (operations io steps) := Server.connected_iff
  rw [← hconnected, ← run_server]
  exact connected_iff

/-- What is found is let through, as the names of the feeds are not reserved. -/
theorem snapshot_toList (redis : List ℕ → GetAnswer) (symbol : List ℕ) :
    (snapshot io redis symbol).toList = orderbook redis symbol := by
  have hname : io.reserved (some (.string (text "orderbook"))) = false :=
    io.reserved_name .orderbook
  rw [snapshot, orderbook]
  by_cases h : truthy (getOrderbook redis symbol) = true
  · simp [h, SocketIO.emit, hname]
  · simp [h]

omit [DecidableEq κ] in
theorem invocations_concat (steps : List (Step κ)) (e : Step κ) :
    invocations (steps ++ [e]) = invocations steps ++ e.invocation.toList := by
  rw [invocations, List.filterMap_append]
  cases h : e.invocation <;> simp [h, invocations]

/-- The requests and the invocations that the gateway has counted. -/
structure Tracks (steps : List (Step κ)) (g : Gateway io) : Prop where
  calls : g.calls = (invocations steps).length
  reads : ∀ read, read ∈ g.reads ↔
    snapshotRequest steps read.call = some (read.client, read.symbol) ∧ Unanswered read.call steps

theorem onSubscribe_reads (g : Gateway io) (client : κ) (body : Option SubscribeBody) :
    (g.onSubscribe client body).calls = g.calls + 1 ∧ (g.onSubscribe client body).reads = g.reads ++
      (snapshotOf (client, body)).toList.map fun x => ⟨g.calls, x.1, x.2⟩ := by
  unfold Gateway.onSubscribe snapshotOf
  simp only
  rcases requested body with _ | ⟨symbol, kind⟩
  · simp
  · refine ⟨rfl, ?_⟩
    rcases kind with (_ | _ | _) | _ <;> simp [SubscribeKind.kinds]

/-- A step that is neither an invocation nor an answer. -/
theorem Tracks.idle {g g' : Gateway io} {e : Step κ} (h : Tracks steps g)
    (hcalls : g'.calls = g.calls) (hreads : g'.reads = g.reads) (hinv : e.invocation = none)
    (he : ∀ call redis, e ≠ .onSnapshot call redis) : Tracks (steps ++ [e]) g' where
  calls := by rw [hcalls, h.calls, invocations_concat, hinv, Option.toList, List.append_nil]
  reads read := by
    have hun : Unanswered read.call (steps ++ [e]) ↔ Unanswered read.call steps := by
      unfold Unanswered
      rw [since_concat]
      simp [hinv, he]
    rw [hreads, h.reads, hun, snapshotRequest, snapshotRequest, invocations_concat, hinv,
      Option.toList, List.append_nil]

theorem Tracks.answered {g : Gateway io} {redis : List ℕ → GetAnswer} (h : Tracks steps g) :
    Tracks (steps ++ [.onSnapshot call redis]) (g.onSnapshot call redis) where
  calls := by
    rw [invocations_concat]
    exact h.calls.trans (congrArg List.length (List.append_nil _).symm)
  reads read := by
    have hun : Unanswered read.call (steps ++ [.onSnapshot call redis]) ↔
        Unanswered read.call steps ∧ read.call ≠ call := by
      unfold Unanswered
      rw [since_concat]
      simp [Step.invocation, eq_comm (a := call)]
    have hreq : snapshotRequest (steps ++ [.onSnapshot call redis]) read.call =
        snapshotRequest steps read.call := by
      rw [snapshotRequest, snapshotRequest, invocations_concat]
      exact congrArg (fun l => (l[read.call]?).bind snapshotOf) (List.append_nil _)
    rw [Gateway.onSnapshot, hun, hreq]
    simp only [List.mem_filter, decide_eq_true_eq, h.reads, and_assoc]

theorem Tracks.invoked {g : Gateway io} {body : Option SubscribeBody} (h : Tracks steps g) :
    Tracks (steps ++ [.onSubscribe client body]) (g.onSubscribe client body) where
  calls := by
    rw [(onSubscribe_reads g client body).1, h.calls, invocations_concat, List.length_append]
    rfl
  reads read := by
    have hun : Unanswered read.call (steps ++ [.onSubscribe client body]) ↔
        (invocations steps).length = read.call ∨ Unanswered read.call steps := by
      unfold Unanswered
      rw [since_concat]
      simp [Step.invocation]
    have hinv : invocations (steps ++ [.onSubscribe client body]) =
        invocations steps ++ [(client, body)] := invocations_concat steps _
    have hnew : read ∈ ((snapshotOf (client, body)).toList.map fun x =>
        (⟨g.calls, x.1, x.2⟩ : Read κ)) ↔
        read.call = (invocations steps).length ∧
          snapshotOf (client, body) = some (read.client, read.symbol) := by
      rw [← h.calls]
      obtain ⟨rcall, rclient, rsymbol⟩ := read
      rcases snapshotOf (client, body) with _ | x
      · simp
      · simp [Prod.ext_iff, eq_comm]
    rw [(onSubscribe_reads g client body).2, List.mem_append, h.reads, hun, hnew, snapshotRequest,
      snapshotRequest, hinv]
    rcases Nat.lt_trichotomy read.call (invocations steps).length with hlt | heq | hgt
    · -- an earlier invocation
      rw [List.getElem?_append_left hlt]
      simp [Nat.ne_of_lt hlt, Nat.ne_of_gt hlt]
    · -- this invocation
      simp [heq]
    · -- there is none of this number yet
      have hnone : (invocations steps)[read.call]? = none :=
        List.getElem?_eq_none (Nat.le_of_lt hgt)
      have hnone' : (invocations steps ++ [(client, body)])[read.call]? = none :=
        List.getElem?_eq_none (by rw [List.length_append]; exact hgt)
      simp [hnone, hnone', Nat.ne_of_gt hgt]

theorem tracks_run (steps : List (Step κ)) : Tracks steps (run io steps) := by
  induction steps using List.reverseRecOn with
  | nil =>
    refine ⟨rfl, fun read => iff_of_false List.not_mem_nil ?_⟩
    rintro ⟨h, -⟩
    cases h
  | append_singleton steps e ih =>
    rw [Gateway.run_concat]
    cases e with
    | handleConnection client => exact ih.idle rfl rfl rfl (by simp)
    | handleDisconnect client => exact ih.idle rfl rfl rfl (by simp)
    | onSubscribe client body => exact ih.invoked
    | onSnapshot call redis => exact ih.answered
    | onUnsubscribe client body =>
      simp only [Gateway.step, Gateway.onUnsubscribe]
      cases requested body with
      | none => exact ih.idle rfl rfl rfl (by simp)
      | some request => exact ih.idle rfl rfl rfl (by simp)
    | pmessage channel message =>
      simp only [Gateway.step, Gateway.onPmessage]
      cases emission io message with
      | none => exact ih.idle rfl rfl rfl (by simp)
      | some emission => exact ih.idle rfl rfl rfl (by simp)

open Classical in
/-- What the answer to a request sends. -/
theorem told_eq (redis : List ℕ → GetAnswer) :
    ((run io steps).told call redis).toList.flatMap
        (fun x => if x.1 = client ∧ Connected client steps then [x.2] else []) =
      due io client steps (.onSnapshot call redis) := by
  have htracks : Tracks steps (run io steps) := tracks_run steps
  rcases hfind : (run io steps).reads.find? (·.call = call) with _ | read
  · -- no request of this number is under way
    have htold : (run io steps).told call redis = none := by simp only [Gateway.told, hfind]
    rw [htold, due]
    rcases hreq : snapshotRequest steps call with _ | ⟨asker, symbol⟩
    · rfl
    · have hun : ¬Unanswered call steps := fun hun => by
        have hmem := (htracks.reads ⟨call, asker, symbol⟩).mpr ⟨hreq, hun⟩
        have := List.find?_eq_none.mp hfind _ hmem
        simp at this
      simp [hun]
  · obtain rfl : read.call = call := by simpa using List.find?_some hfind
    obtain ⟨hreq, hun⟩ := (htracks.reads read).mp (List.mem_of_find?_eq_some hfind)
    have hfound : (snapshot io redis read.symbol).toList = orderbook redis read.symbol :=
      snapshot_toList redis read.symbol
    simp only [due, Gateway.told, hfind, hreq, hun, true_and, ← hfound]
    cases snapshot io redis read.symbol <;> simp

end Snapshots

/-! ## The feed of a client -/

/-- **What a client is sent.** -/
theorem client_feed (client : κ) (steps : List (Step κ)) :
    io.heardBy client (Gateway.run io steps).server = gather (due io client) steps := by
  rw [run_server, Server.heardBy_run]
  induction steps using List.reverseRecOn with
  | nil => rfl
  | append_singleton steps e ih =>
    rw [operations_concat, gather_append, gather_concat, ih]
    refine congrArg _ ?_
    cases e with
    | handleConnection client' => rfl
    | handleDisconnect client' => rfl
    | onSubscribe client' body =>
      exact gather_hears_eq_nil (by simp [Gateway.operations, Op.Silent])
    | onSnapshot call redis =>
      rw [← told_eq, Gateway.operations]
      cases (Gateway.run io steps).told call redis with
      | none => rfl
      | some told =>
        classical
        simp only [Option.toList, List.map_cons, List.map_nil, gather, List.append_nil, hears,
          List.flatMap_cons, List.flatMap_nil]
        exact if_congr (and_congr_right fun _ => there_iff) rfl rfl
    | onUnsubscribe client' body =>
      exact gather_hears_eq_nil (by simp [Gateway.operations, Op.Silent])
    | pmessage channel message =>
      rw [Gateway.operations, due]
      cases emission io message with
      | none => simp [gather]
      | some emission =>
        classical
        have hsay : gather (fun done => hears client (operations io steps ++ done))
            [.say channel emission] =
            if In client channel (operations io steps) ∧ There client (operations io steps) then
              [emission]
            else [] := by
          simp [gather, hears]
        exact hsay.trans (if_congr (and_congr in_iff there_iff) rfl rfl)

/-- What is published on the channel of a market says of which kind it is. -/
def WellKinded (steps : List (Step κ)) : Prop :=
  ∀ channel message, .pmessage channel message ∈ steps → ∀ e ∈ emission io message,
    ∃ symbol kind, channel = room symbol kind ∧ e.event = some (.string (text kind.name))

theorem text_name_injective {kind kind' : Kind} (h : text kind.name = text kind'.name) :
    kind = kind' := by
  cases kind <;> cases kind' <;> first | rfl | (simp [text, units, Kind.name] at h)

/-- **No orderbook comes unasked for**: a client that is sent one has asked for the orderbook of a
market. -/
theorem orderbook_asked {steps : List (Step κ)} (hkind : WellKinded io steps) {client : κ}
    {e : Emission} (he : e ∈ io.heardBy client (Gateway.run io steps).server)
    (hevent : e.event = some (.string (text "orderbook"))) :
    ∃ body symbol sk, .onSubscribe client body ∈ steps ∧ requested body = some (symbol, sk) ∧
      Kind.orderbook ∈ sk.kinds := by
  rw [client_feed] at he
  obtain ⟨before, st, after, rfl, hdue⟩ := mem_gather.mp he
  cases st with
  | handleConnection client' => exact absurd hdue List.not_mem_nil
  | handleDisconnect client' => exact absurd hdue List.not_mem_nil
  | onSubscribe client' body => exact absurd hdue List.not_mem_nil
  | onUnsubscribe client' body => exact absurd hdue List.not_mem_nil
  | pmessage channel message =>
    rw [due] at hdue
    split at hdue
    · rename_i hsub
      obtain ⟨⟨symbol, kind, hchannel, earlier, e', later, rfl,
        ⟨body, sk, rfl, hbody, hmem⟩, -⟩, -⟩ := hsub
      have he' : e ∈ emission io message := by simpa using hdue
      obtain ⟨symbol', kind', hchannel', hname⟩ := hkind channel message (by simp) e he'
      obtain ⟨-, rfl⟩ := room_injective (hchannel.symm.trans hchannel')
      obtain rfl : Kind.orderbook = kind :=
        text_name_injective (Value.string.inj (Option.some.inj (hevent.symm.trans hname)))
      exact ⟨body, symbol, sk, by simp, hbody, hmem⟩
    · exact absurd hdue List.not_mem_nil
  | onSnapshot call redis =>
    rw [due] at hdue
    rcases hreq : snapshotRequest before call with _ | ⟨asker, symbol⟩
    · simp [hreq] at hdue
    · simp only [hreq] at hdue
      split at hdue
      · rename_i h
        obtain ⟨rfl, -, -⟩ := h
        obtain ⟨⟨asker', body⟩, hinv, hsnap⟩ := Option.bind_eq_some_iff.mp hreq
        obtain ⟨st, hst, hst'⟩ := List.mem_filterMap.mp (List.mem_of_getElem? hinv)
        obtain rfl : st = .onSubscribe asker' body := by
          cases st <;> simp_all [Step.invocation]
        rw [snapshotOf] at hsnap
        rcases hbody : requested body with _ | ⟨symbol', sk⟩
        · simp [hbody] at hsnap
        · simp only [hbody, Option.ite_none_right_eq_some, Option.some.injEq,
            Prod.mk.injEq] at hsnap
          obtain ⟨hmem, rfl, rfl⟩ := hsnap
          exact ⟨body, symbol', sk, List.mem_append_left _ hst, hbody, hmem⟩
      · exact absurd hdue List.not_mem_nil

/-- socket.io, with its list of reserved events. -/
def FeedSample.socketIO : SocketIO ℕ where
  toServer := Hall.server
  reserved
    | some (.string event) => (["connect", "connect_error", "disconnect", "disconnecting",
        "newListener", "removeListener"].map text).contains event
    | _ => false
  reserved_name kind := by cases kind <;> rfl

/-- A message on the channel of an orderbook. -/
def FeedSample.tick : List UInt8 :=
  "\x7b\"kind\":\"orderbook\",\"data\":[]\x7d".toList.map fun c => UInt8.ofNat c.toNat

/-- Two clients, of which one asks for the orderbook. -/
def FeedSample.session : List (Step ℕ) :=
  [.handleConnection 1, .handleConnection 2,
    .onSubscribe 1 (some ⟨some (text "BTC-USDT"), some (.only .orderbook)⟩),
    .onSubscribe 2 (some ⟨some (text "BTC-USDT"), some (.only .trade)⟩),
    .pmessage (room (text "BTC-USDT") .orderbook) FeedSample.tick]

theorem FeedSample.emission_tick : emission FeedSample.socketIO FeedSample.tick =
    some ⟨some (.string (text "orderbook")), some (.array [])⟩ := by
  rfl

theorem FeedSample.session_wellKinded : WellKinded FeedSample.socketIO FeedSample.session := by
  intro channel message hmem e he
  obtain ⟨rfl, rfl⟩ : channel = room (text "BTC-USDT") .orderbook ∧ message = FeedSample.tick := by
    simpa [FeedSample.session] using hmem
  rw [FeedSample.emission_tick, Option.mem_some] at he
  exact ⟨text "BTC-USDT", .orderbook, rfl, by rw [← he]; rfl⟩

theorem orderbook_asked_session :
    ∃ body symbol sk, Step.onSubscribe 1 body ∈ FeedSample.session ∧
      requested body = some (symbol, sk) ∧ Kind.orderbook ∈ sk.kinds :=
  orderbook_asked FeedSample.socketIO (e := ⟨some (.string (text "orderbook")), some (.array [])⟩)
    FeedSample.session_wellKinded
    (by
      have h : FeedSample.socketIO.heardBy 1
          (Gateway.run FeedSample.socketIO FeedSample.session).server =
            (emission FeedSample.socketIO FeedSample.tick).toList := by rfl
      rw [h, FeedSample.emission_tick]
      simp) rfl

end Orbit.MarketData
