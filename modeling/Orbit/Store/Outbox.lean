import Orbit.Api.Admin
import Orbit.Api.OrderService
import Orbit.Store.Specs

/-!
# What is written to the outbox

The outbox only grows, with ids drawn from its sequence. `Store.Appended P s s'` says that the rows
added between two states satisfy `P`; every run of every statement keeps it, whether it returns or
fails (`Stm.Appends`), for a `P` that holds of what it publishes. The calls of the api publish
commands only (`appends_submit`, `appends_cancel`, `appends_forceCancel`).

`Store.Published s s' ps` says more of a computation that returns: the rows were added whose
contents are `ps`, and nothing else in the tables changed.
-/

namespace Orbit

/-- What a row says, without its id. -/
def OutboxEvent.content (e : OutboxEvent) : Topic × String × Payload := (e.topic, e.key, e.payload)

/-- What `f` reads in the contents of the rows after the first `n`. -/
def Db.read {γ : Type} (db : Db) (n : ℕ) (f : Topic × String × Payload → Option γ) : List γ :=
  ((db.outbox.drop n).map (·.content)).filterMap f

/-- Rows that satisfy `P` were added to the outbox, with ids drawn from its sequence, and no
random id was given back. -/
structure Store.Appended (P : OutboxEvent → Prop) (s s' : Store) : Prop where
  uuids : s.uuids ≤ s'.uuids
  seq : s.seqs.outbox ≤ s'.seqs.outbox
  rows : ∃ rows, s'.db.outbox = s.db.outbox ++ rows ∧ (∀ e ∈ rows, P e) ∧
    (rows.map (·.id)).Pairwise (· < ·) ∧ ∀ e ∈ rows, s.seqs.outbox < e.id ∧ e.id ≤ s'.seqs.outbox

namespace Store.Appended

variable {P Q : OutboxEvent → Prop} {s s₁ s₂ s₃ s' : Store}

theorem of_eq (huuids : s.uuids ≤ s'.uuids) (hseq : s'.seqs.outbox = s.seqs.outbox)
    (h : s'.db.outbox = s.db.outbox) : Appended P s s' :=
  ⟨huuids, hseq.ge, [], by simp [h], by simp, List.Pairwise.nil, by simp⟩

theorem refl (s : Store) : Appended P s s := of_eq le_rfl rfl rfl

theorem trans (h₁ : Appended P s₁ s₂) (h₂ : Appended P s₂ s₃) : Appended P s₁ s₃ := by
  obtain ⟨rows₁, e₁, hP₁, hlt₁, hid₁⟩ := h₁.rows
  obtain ⟨rows₂, e₂, hP₂, hlt₂, hid₂⟩ := h₂.rows
  refine ⟨h₁.uuids.trans h₂.uuids, h₁.seq.trans h₂.seq, rows₁ ++ rows₂,
    by rw [e₂, e₁, List.append_assoc], ?_, ?_, ?_⟩
  · simp only [List.mem_append]
    rintro e (he | he)
    · exact hP₁ e he
    · exact hP₂ e he
  · rw [List.map_append, List.pairwise_append]
    refine ⟨hlt₁, hlt₂, fun a ha b hb => ?_⟩
    obtain ⟨x, hx, rfl⟩ := List.mem_map.mp ha
    obtain ⟨y, hy, rfl⟩ := List.mem_map.mp hb
    exact lt_of_le_of_lt (hid₁ x hx).2 (hid₂ y hy).1
  · simp only [List.mem_append]
    rintro e (he | he)
    · exact ⟨(hid₁ e he).1, (hid₁ e he).2.trans h₂.seq⟩
    · exact ⟨h₁.seq.trans_lt (hid₂ e he).1, (hid₂ e he).2⟩

theorem imp (h : Appended P s s') (hPQ : ∀ e, P e → Q e) : Appended Q s s' := by
  obtain ⟨rows, e, hP, hlt, hid⟩ := h.rows
  exact ⟨h.uuids, h.seq, rows, e, fun x hx => hPQ x (hP x hx), hlt, hid⟩

theorem rollback (h : Appended P s s') : Appended P s (Stm.rollback s s') :=
  ⟨h.uuids, h.seq, [], by simp [Stm.rollback], by simp, List.Pairwise.nil, by simp⟩

/-- Where no row could be added, the outbox is as it was. -/
theorem outbox_eq (h : Appended (fun _ => False) s s') : s'.db.outbox = s.db.outbox := by
  obtain ⟨rows, e, hP, -⟩ := h.rows
  rw [e, List.eq_nil_iff_forall_not_mem.mpr hP, List.append_nil]

end Store.Appended

/-- The ids of the outbox increase along it and are drawn from its sequence. -/
structure Store.OutboxSorted (s : Store) : Prop where
  increasing : (s.db.outbox.map (·.id)).Pairwise (· < ·)
  le : ∀ e ∈ s.db.outbox, e.id ≤ s.seqs.outbox

theorem Store.Appended.sorted {P : OutboxEvent → Prop} {s s' : Store} (h : Store.Appended P s s')
    (hs : s.OutboxSorted) : s'.OutboxSorted := by
  obtain ⟨rows, e, -, hlt, hid⟩ := h.rows
  refine ⟨?_, fun x hx => ?_⟩
  · rw [e, List.map_append, List.pairwise_append]
    refine ⟨hs.increasing, hlt, fun a ha b hb => ?_⟩
    obtain ⟨x, hx, rfl⟩ := List.mem_map.mp ha
    obtain ⟨y, hy, rfl⟩ := List.mem_map.mp hb
    exact lt_of_le_of_lt (hs.le x hx) (hid y hy).1
  · rw [e, List.mem_append] at hx
    rcases hx with hx | hx
    · exact (hs.le x hx).trans h.seq
    · exact (hid x hx).2

namespace Stm

open Tx

variable {α β : Type} {P : OutboxEvent → Prop}

/-- Every run of `x`, failed or not, at most adds outbox rows that satisfy `P`. -/
abbrev Appends (P : OutboxEvent → Prop) (x : Stm α) : Prop := Keeps (Store.Appended P) x

theorem Appends.pure (a : α) : Appends P (Pure.pure a : Stm α) := Keeps.pure Store.Appended.refl a

theorem Appends.fail (e : Failure) : Appends P (Tx.fail e : Stm α) :=
    Keeps.fail Store.Appended.refl e

theorem Appends.bind {x : Stm α} {f : α → Stm β} (hx : Appends P x) (hf : ∀ a, Appends P (f a)) :
    Appends P (x >>= f) :=
  Keeps.bind (fun h₁ h₂ => h₁.trans h₂) hx hf

theorem appends_get : Appends P (Tx.get : Stm Store) := Store.Appended.refl

theorem appends_stmt : Appends P stmt := by
  intro s
  unfold stmt
  split <;> exact .of_eq le_rfl rfl rfl

theorem appends_query (f : Db → α) : Appends P (query f) :=
  appends_stmt.bind fun _ => appends_get.bind fun _ => .pure _

theorem appends_randomUUID : Appends P randomUUID := fun _ => .of_eq (Nat.le_succ _) rfl rfl

theorem appends_dateNow : Appends P dateNow := Store.Appended.refl

/-- A write that leaves the outbox alone. -/
theorem appends_write {f : Db → Except Failure Db}
    (hf : ∀ db db', f db = .ok db' → db'.outbox = db.outbox) : Appends P (write f) := by
  refine appends_stmt.bind fun _ s => ?_
  cases h : f s.db with
  | error e =>
    simp only [Tx.get_bind_apply, h, Tx.ofExcept_error_bind_apply]
    exact .refl s
  | ok db =>
    simp only [Tx.get_bind_apply, h, Tx.ofExcept_ok_bind_apply, Tx.modify_apply]
    exact .of_eq le_rfl rfl (hf _ _ h)

theorem appends_walletUpdate (u a : String) (b l : ℚ) : Appends P (walletUpdate u a b l) := by
  refine appends_write fun db db' h => ?_
  obtain ⟨ws, rfl, -⟩ := Db.walletUpdate_posted h
  rfl

theorem appends_walletUpsert (u a : String) (amt : ℚ) : Appends P (walletUpsert u a amt) := by
  refine appends_write fun db db' h => ?_
  obtain ⟨ws, rfl, -⟩ := Db.walletUpsert_posted h
  rfl

theorem appends_orderUpdate (id : ℕ) (data : Order → Order) : Appends P (orderUpdate id data) := by
  refine (appends_write fun db db' h => ?_).bind fun _ => appends_get.bind fun s => ?_
  · unfold Db.orderUpdate at h
    split at h
    · cases h
    · obtain rfl := Except.ok.inj h
      rfl
  · cases s.db.order? id
    · exact .fail _
    · exact .pure _

theorem appends_orderFindOrThrow (id : ℕ) : Appends P (orderFindOrThrow id) :=
  (appends_query _).bind fun o? => by
    cases o?
    · exact .fail _
    · exact .pure _

theorem appends_tradeCreate (data : ℕ → ℕ → Trade) : Appends P (tradeCreate data) := by
  refine appends_stmt.bind fun _ s => ?_
  simp only [Tx.get_bind_apply, Tx.modify_bind_apply]
  split <;> exact .of_eq le_rfl rfl rfl

theorem appends_orderCreate (data : ℕ → Order) : Appends P (orderCreate data) := by
  refine appends_stmt.bind fun _ s => ?_
  simp only [Tx.get_bind_apply, Tx.modify_bind_apply]
  split
  · exact .of_eq le_rfl rfl rfl
  · split <;> exact .of_eq le_rfl rfl rfl

theorem appends_publish {topic : Topic} {k : String} {p : Payload}
    (hP : ∀ id, P ⟨id, topic, k, p⟩) :
    Appends P (publish topic k p) := by
  refine appends_stmt.bind fun _ s =>
    ⟨le_rfl, Nat.le_succ _, [⟨s.seqs.outbox + 1, topic, k, p⟩], rfl, ?_, ?_, ?_⟩
  · rintro e he
    rw [List.mem_singleton.mp he]
    exact hP _
  · exact List.pairwise_singleton _ _
  · rintro e he
    rw [List.mem_singleton.mp he]
    exact ⟨Nat.lt_succ_self _, le_rfl⟩

theorem Appends.transaction {x : Stm α} (hx : Appends P x) : Appends P (Stm.transaction x) := by
  intro s
  have hbody : Appends P (stmt >>= fun _ => x >>= fun a => stmt >>= fun _ => Pure.pure a) :=
    appends_stmt.bind fun _ => hx.bind fun _ => appends_stmt.bind fun _ => .pure _
  rcases h : (stmt >>= fun _ => x >>= fun a => stmt >>= fun _ => Pure.pure a) s with ⟨e | a, s'⟩
  · rw [Stm.transaction, Tx.transaction_apply_error h]
    exact (hbody.of_eq h).rollback
  · rw [Stm.transaction, Tx.transaction_eq_ok.mpr h]
    exact hbody.of_eq h

end Stm

/-! ## The calls of the api -/

/-- A command, on its topic. -/
def OutboxEvent.IsCommand (e : OutboxEvent) : Prop :=
  e.topic = .ORDER_COMMANDS ∧ ∃ cmd, e.payload = .command cmd

/-- A row of another topic. -/
def OutboxEvent.IsEvent (e : OutboxEvent) : Prop := e.topic ≠ .ORDER_COMMANDS

section Api

open Stm

theorem appends_lockReservation (userId : String) (market : Market)
    (dto : CreateOrderDto) (quantity : ℚ)
    (limitPrice : Option ℚ) :
    Appends OutboxEvent.IsCommand (OrderService.lockReservation userId market dto
      quantity limitPrice) := by
  have hlock : ∀ asset amount, Appends OutboxEvent.IsCommand
      (OrderService.atomicLock userId asset amount) := by
    intro asset amount
    refine appends_write fun db db' h => ?_
    unfold OrderService.atomicLockUpdate at h
    split at h
    · cases h
    · split at h
      · obtain ⟨ws, rfl, -⟩ := Db.walletUpdate_posted h
        rfl
      · cases h
  unfold OrderService.lockReservation
  split
  · exact hlock _ _
  · exact hlock _ _
  · exact .fail _
  · exact hlock _ _
  · exact .pure _

theorem appends_submit (userId : String) (dto : CreateOrderDto) :
    Appends OutboxEvent.IsCommand (OrderService.submit userId dto) := by
  have htx : ∀ market price commandId, Appends OutboxEvent.IsCommand
      (OrderService.submitTx userId market dto price commandId) := fun market price commandId =>
    .transaction <| (appends_lockReservation _ _ _ _ _).bind fun _ =>
      (appends_orderCreate _).bind fun _ =>
      appends_dateNow.bind fun _ => (appends_publish fun _ => ⟨rfl, _, rfl⟩).bind fun _ => .pure _
  refine (appends_query _).bind fun user? => ?_
  cases user? with
  | none => exact .fail _
  | some user =>
    dsimp only
    split
    · exact .fail _
    refine (appends_query _).bind fun market? => ?_
    cases market? with
    | none => exact .fail _
    | some market =>
      dsimp only
      split
      · exact .fail _
      refine Appends.bind (fun s => ?_) fun _ => ?_
      · cases OrderService.validateTickStep dto market <;> exact .refl s
      split
      · exact .fail _
      split
      · exact .fail _
      exact appends_randomUUID.bind fun _ => htx _ _ _

theorem appends_cancel (userId : String) (orderId : ℕ) :
    Appends OutboxEvent.IsCommand (OrderService.cancel userId orderId) := by
  refine (appends_query _).bind fun order? => ?_
  cases order? with
  | none => exact .fail _
  | some order =>
    dsimp only
    split
    · exact .fail _
    split
    · exact .fail _
    exact appends_randomUUID.bind fun _ => (Appends.transaction <| appends_dateNow.bind fun _ =>
      appends_publish fun _ => ⟨rfl, _, rfl⟩).bind fun _ => .pure _

theorem appends_forceCancel (orderId : ℕ) :
    Appends OutboxEvent.IsCommand (Admin.forceCancel orderId) := by
  refine (appends_query _).bind fun order? => ?_
  cases order? with
  | none => exact .fail _
  | some order =>
    dsimp only
    split
    · exact .fail _
    exact appends_randomUUID.bind fun _ => appends_dateNow.bind fun _ =>
      .transaction (appends_publish fun _ => ⟨rfl, _, rfl⟩)

theorem appends_marketUpdate (symbol : String) (input : MarketUpdateInput) :
    Appends OutboxEvent.IsCommand (Admin.marketUpdate symbol input) := by
  refine (appends_query _).bind fun market? => ?_
  cases market? with
  | none => exact .fail _
  | some market =>
    refine appends_write fun db db' h => ?_
    split at h
    · cases h
    · obtain rfl := Except.ok.inj h
      rfl

theorem appends_adjust (userId asset : String) (field : WalletField) (delta : ℚ) :
    Appends OutboxEvent.IsCommand (Admin.adjust userId asset field delta) := by
  refine .transaction <| (appends_query _).bind fun wallet? => ?_
  cases wallet? with
  | none => exact .fail _
  | some wallet =>
    dsimp only
    split
    · exact .fail _
    refine appends_write fun db db' h => ?_
    unfold Admin.setWallet at h
    split at h
    · cases h
    · split at h
      · obtain rfl := Except.ok.inj h
        rfl
      · cases h

end Api

/-! ## Publications -/

/-- The rows with the contents `ps` were added to the outbox, and nothing else in
the tables changed. -/
def Store.Published (s s' : Store) (ps : List (Topic × String × Payload)) : Prop :=
  ∃ rows : List OutboxEvent, s'.db = { s.db with outbox := s.db.outbox ++ rows } ∧
    rows.map (·.content) = ps

theorem Store.Published.of_db {s s' : Store} (h : s'.db = s.db) : s.Published s' [] :=
  ⟨[], by rw [h, List.append_nil], rfl⟩

theorem Store.Published.congr {s s₁ s' : Store} {ps : List (Topic × String × Payload)}
    (h : s₁.Published s' ps) (hdb : s₁.db = s.db) : s.Published s' ps := by
  obtain ⟨rows, e, hps⟩ := h
  exact ⟨rows, hdb ▸ e, hps⟩

theorem Store.Published.trans {s₁ s₂ s₃ : Store} {ps qs : List (Topic × String × Payload)}
    (h₁ : s₁.Published s₂ ps) (h₂ : s₂.Published s₃ qs) : s₁.Published s₃ (ps ++ qs) := by
  obtain ⟨rows₁, e₁, rfl⟩ := h₁
  obtain ⟨rows₂, e₂, rfl⟩ := h₂
  exact ⟨rows₁ ++ rows₂, by rw [e₂, e₁, List.append_assoc], List.map_append⟩

theorem Stm.publish_published {topic : Topic} {k : String} {p : Payload} {u : Unit} {s s' : Store}
    (h : Stm.publish topic k p s = (.ok u, s')) : s.Published s' [(topic, k, p)] := by
  obtain ⟨fl, rfl⟩ := Stm.publish_eq_ok h
  exact ⟨_, rfl, rfl⟩

end Orbit
