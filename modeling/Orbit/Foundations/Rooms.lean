import Mathlib.Data.List.Induction
import Mathlib.Data.List.Nodup
import Orbit.Foundations.History

/-!
# Rooms

Members come and go, and join rooms and leave them. What is said in a room is heard by those who are
in it at that moment, what is told to a member by that member, and neither by a member that is not
there. A `Server` is anything that works this way; `Hall`, which keeps lists, is one.

* `present_iff`: a member is in a room if it joined it and did not leave it since.
* `connected_iff`: a member is there if it came and did not go since.
* `heardBy_run`: what a member has heard is what was said in the rooms it was in, and what it was
  told, while it was there.
-/

namespace Orbit.Rooms

universe u v w

variable {κ : Type u} {ρ : Type v} {μ : Type w}

inductive Op (κ : Type u) (ρ : Type v) (μ : Type w)
  | enter (member : κ)
  | join (member : κ) (room : ρ)
  | leave (member : κ) (room : ρ)
  /-- The member goes, and leaves every room. -/
  | drop (member : κ)
  | say (room : ρ) (message : μ)
  | tell (member : κ) (message : μ)
  deriving DecidableEq

/-- Neither said nor told. -/
def Op.Silent : Op κ ρ μ → Prop
  | .enter _ | .join _ _ | .leave _ _ | .drop _ => True
  | .say _ _ | .tell _ _ => False

/-- A server with rooms. -/
structure Server (κ : Type u) (ρ : Type v) (μ : Type w) [DecidableEq κ] where
  State : Type (max u v w)
  empty : State
  step : State → Op κ ρ μ → State
  connected : State → κ → Bool
  present : State → κ → ρ → Bool
  /-- What a member has heard, oldest first. -/
  heardBy : κ → State → List μ
  connected_empty : ∀ c, connected empty c = false
  present_empty : ∀ c r, present empty c r = false
  heardBy_empty : ∀ c, heardBy c empty = []
  connected_step : ∀ s op c, connected (step s op) c = true ↔
    op = .enter c ∨ connected s c = true ∧ op ≠ .drop c
  present_step : ∀ s op c r, present (step s op) c r = true ↔
    op = .join c r ∨ present s c r = true ∧ ¬(op = .leave c r ∨ op = .drop c)
  heardBy_silent : ∀ s op c, op.Silent → heardBy c (step s op) = heardBy c s
  /-- A message that is said in a room is heard once by each who is in it and is there. -/
  heardBy_say : ∀ s room message c, heardBy c (step s (.say room message)) =
    heardBy c s ++ if present s c room = true ∧ connected s c = true then [message] else []
  /-- A member that is gone is not reached. -/
  heardBy_tell : ∀ s member message c, heardBy c (step s (.tell member message)) =
    heardBy c s ++ if member = c ∧ connected s c = true then [message] else []

/-! ## Histories -/

/-- The member enters the room. -/
def Enters (c : κ) (r : ρ) (_ : List (Op κ ρ μ)) (op : Op κ ρ μ) : Prop := op = .join c r

/-- The member leaves the room. -/
def Exits (c : κ) (r : ρ) (_ : List (Op κ ρ μ)) (op : Op κ ρ μ) : Prop :=
  op = .leave c r ∨ op = .drop c

/-- The member is in the room after the operations. -/
def In (c : κ) (r : ρ) (ops : List (Op κ ρ μ)) : Prop := Since (Enters c r) (Exits c r) ops

/-- The member comes. -/
def Comes (c : κ) (_ : List (Op κ ρ μ)) (op : Op κ ρ μ) : Prop := op = .enter c

/-- The member goes. -/
def Goes (c : κ) (_ : List (Op κ ρ μ)) (op : Op κ ρ μ) : Prop := op = .drop c

/-- The member is there after the operations. -/
def There (c : κ) (ops : List (Op κ ρ μ)) : Prop := Since (Comes c) (Goes c) ops

open Classical in
/-- What a member hears of an operation that comes after others. -/
noncomputable def hears [DecidableEq κ] (c : κ) (before : List (Op κ ρ μ)) : Op κ ρ μ → List μ
  | .say room message => if In c room before ∧ There c before then [message] else []
  | .tell member message => if member = c ∧ There c before then [message] else []
  | .enter _ | .join _ _ | .leave _ _ | .drop _ => []

/-- Nothing is heard of members that come and go. -/
theorem gather_hears_eq_nil [DecidableEq κ] {c : κ} {before ops : List (Op κ ρ μ)}
    (h : ∀ op ∈ ops, op.Silent) :
    gather (fun done => hears c (before ++ done)) ops = [] := by
  induction ops using List.reverseRecOn with
  | nil => rfl
  | append_singleton ops op ih =>
    rw [gather_concat, ih fun op hop => h op (List.mem_append_left _ hop), List.nil_append]
    have hop : op.Silent := h op (by simp)
    cases op with
    | enter member => rfl
    | join member room => rfl
    | leave member room => rfl
    | drop member => rfl
    | say room message => exact hop.elim
    | tell member message => exact hop.elim

/-! ## Runs -/

namespace Server

variable [DecidableEq κ] (io : Server κ ρ μ) {s : io.State} {ops : List (Op κ ρ μ)} {c : κ} {r : ρ}

def run (s : io.State) (ops : List (Op κ ρ μ)) : io.State := ops.foldl io.step s

variable {io}

theorem run_concat (ops : List (Op κ ρ μ)) (op : Op κ ρ μ) :
    io.run s (ops ++ [op]) = io.step (io.run s ops) op := by
  rw [run, List.foldl_append]
  rfl

/-- **Who is in a room**: who joined it and did not leave it since. -/
theorem present_iff : io.present (io.run io.empty ops) c r = true ↔ In c r ops := by
  induction ops using List.reverseRecOn with
  | nil =>
    refine iff_of_false (by simp [run, io.present_empty]) ?_
    rintro ⟨before, e, after, h, -⟩
    simp at h
  | append_singleton ops op ih =>
    rw [run_concat, io.present_step, ih]
    exact (since_concat (P := Enters c r) (Q := Exits c r)).symm

/-- **Who is there**: who came and did not go since. -/
theorem connected_iff : io.connected (io.run io.empty ops) c = true ↔ There c ops := by
  induction ops using List.reverseRecOn with
  | nil =>
    refine iff_of_false (by simp [run, io.connected_empty]) ?_
    rintro ⟨before, e, after, h, -⟩
    simp at h
  | append_singleton ops op ih =>
    rw [run_concat, io.connected_step, ih]
    exact (since_concat (P := Comes c) (Q := Goes c)).symm

/-- Who is in a room after some operations was in it before or entered it. -/
theorem join_mem_of_present (h : io.present (io.run s ops) c r = true) :
    .join c r ∈ ops ∨ io.present s c r = true := by
  induction ops using List.reverseRecOn with
  | nil => exact Or.inr h
  | append_singleton ops op ih =>
    rw [run_concat, io.present_step] at h
    rcases h with rfl | ⟨h, -⟩
    · exact Or.inl (by simp)
    · exact (ih h).imp_left (List.mem_append_left _)

/-- A member that enters some rooms. -/
theorem present_joins (member : κ) (rooms : List ρ) :
    io.present (io.run s (rooms.map (.join member))) c r = true ↔
      (c = member ∧ r ∈ rooms) ∨ io.present s c r = true := by
  induction rooms using List.reverseRecOn with
  | nil => simp [run]
  | append_singleton rooms room ih =>
    rw [List.map_append, List.map_singleton, run_concat, io.present_step, ih]
    simp only [Op.join.injEq, reduceCtorEq, or_self, not_false_eq_true, and_true, List.mem_append,
      List.mem_singleton]
    tauto

/-- A member that leaves some rooms. -/
theorem present_leaves (member : κ) (rooms : List ρ) :
    io.present (io.run s (rooms.map (.leave member))) c r = true ↔
      io.present s c r = true ∧ ¬(c = member ∧ r ∈ rooms) := by
  induction rooms using List.reverseRecOn with
  | nil => simp [run]
  | append_singleton rooms room ih =>
    rw [List.map_append, List.map_singleton, run_concat, io.present_step, ih]
    simp only [Op.leave.injEq, reduceCtorEq, or_false, false_or, List.mem_append,
      List.mem_singleton]
    tauto

/-- Nobody comes or goes with operations of other kinds. -/
theorem connected_run (h : ∀ op ∈ ops, op ≠ .enter c ∧ op ≠ .drop c) :
    io.connected (io.run s ops) c = true ↔ io.connected s c = true := by
  induction ops using List.reverseRecOn with
  | nil => exact Iff.rfl
  | append_singleton ops op ih =>
    obtain ⟨henter, hdrop⟩ := h op (by simp)
    rw [run_concat, io.connected_step, ih fun op hop => h op (List.mem_append_left _ hop)]
    simp [henter, hdrop]

/-- **What a member has heard**: what was said in the rooms it was in, and what it was told, while
it was there. -/
theorem heardBy_run (c : κ) (ops : List (Op κ ρ μ)) :
    io.heardBy c (io.run io.empty ops) = gather (hears c) ops := by
  induction ops using List.reverseRecOn with
  | nil => exact io.heardBy_empty c
  | append_singleton ops op ih =>
    rw [gather_concat, ← ih, run_concat]
    cases op with
    | enter member =>
      exact (io.heardBy_silent _ (.enter member) c trivial).trans (List.append_nil _).symm
    | join member room =>
      exact (io.heardBy_silent _ (.join member room) c trivial).trans (List.append_nil _).symm
    | leave member room =>
      exact (io.heardBy_silent _ (.leave member room) c trivial).trans (List.append_nil _).symm
    | drop member =>
      exact (io.heardBy_silent _ (.drop member) c trivial).trans (List.append_nil _).symm
    | say room message =>
      classical
      rw [io.heardBy_say, hears]
      exact congrArg _ (if_congr (and_congr present_iff connected_iff) rfl rfl)
    | tell member message =>
      classical
      rw [io.heardBy_tell, hears]
      exact congrArg _ (if_congr (and_congr_right fun _ => connected_iff) rfl rfl)

end Server

/-! ## A hall -/

variable [DecidableEq κ] [DecidableEq ρ]

/-- Who is there and in which room, no one in a room twice, and what was heard, oldest first. -/
structure Hall (κ : Type u) (ρ : Type v) (μ : Type w) where
  connected : List κ
  present : List (κ × ρ)
  heard : List (κ × μ)
  nodup : present.Nodup

namespace Hall

variable {c : κ}

def step (s : Hall κ ρ μ) : Op κ ρ μ → Hall κ ρ μ
  | .enter member => { s with connected := s.connected.insert member }
  | .join member room =>
    { s with present := s.present.insert (member, room), nodup := s.nodup.insert }
  | .leave member room =>
    { s with present := s.present.filter (· ≠ (member, room)), nodup := s.nodup.filter _ }
  | .drop member =>
    { s with
      connected := s.connected.filter (· ≠ member)
      present := s.present.filter (·.1 ≠ member)
      nodup := s.nodup.filter _ }
  | .say room message =>
    { s with heard := s.heard ++ (s.present.filter fun x =>
        x.2 = room && s.connected.contains x.1).map fun x => (x.1, message) }
  | .tell member message =>
    if s.connected.contains member then { s with heard := s.heard ++ [(member, message)] } else s

/-- What is heard of a message by the members of a list. -/
def heardBy (c : κ) (heard : List (κ × μ)) : List μ := (heard.filter (·.1 = c)).map Prod.snd

/-- The entries of a member for a room, among those that a message is heard by. -/
theorem filter_hearers (s : Hall κ ρ μ) (room : ρ) :
    (s.present.filter fun x => x.2 = room && s.connected.contains x.1).filter (·.1 = c) =
      if c ∈ s.connected then s.present.filter (· = (c, room)) else [] := by
  rw [List.filter_filter]
  by_cases hthere : c ∈ s.connected
  · rw [if_pos hthere]
    refine List.filter_congr fun x _ => ?_
    by_cases hx : x = (c, room)
    · subst hx
      simpa using hthere
    · have hne : x.1 = c → x.2 ≠ room := fun h h' => hx (Prod.ext h h')
      by_cases hc : x.1 = c <;> simp [hx, hc, hne]
  · rw [if_neg hthere, List.filter_eq_nil_iff]
    rintro ⟨member, room'⟩ -
    by_cases hc : member = c
    · subst hc
      simp [hthere]
    · simp [hc]

theorem heardBy_say (s : Hall κ ρ μ) (room : ρ) (message : μ) :
    heardBy c (s.step (.say room message)).heard = heardBy c s.heard ++
      if s.present.contains (c, room) = true ∧ s.connected.contains c = true then [message]
      else [] := by
  have hheard : heardBy c ((s.present.filter fun x => x.2 = room && s.connected.contains x.1).map
      fun x => (x.1, message)) =
      (if c ∈ s.connected then s.present.filter (· = (c, room)) else []).map fun _ => message := by
    rw [heardBy, List.filter_map, ← filter_hearers, List.map_map]
    rfl
  rw [step, heardBy, List.filter_append, List.map_append]
  refine congrArg _ (hheard.trans ?_)
  by_cases hthere : c ∈ s.connected
  · rw [if_pos hthere, List.filter_eq]
    by_cases hin : (c, room) ∈ s.present
    · simp [hin, hthere, List.count_eq_one_of_mem s.nodup hin]
    · simp [hin, List.count_eq_zero_of_not_mem hin]
  · simp [hthere]

theorem heardBy_tell (s : Hall κ ρ μ) (member : κ) (message : μ) :
    heardBy c (s.step (.tell member message)).heard =
      heardBy c s.heard ++
        if member = c ∧ s.connected.contains c = true then [message] else [] := by
  by_cases h : member = c
  · subst h
    by_cases hin : member ∈ s.connected
    · simp [step, heardBy, hin]
    · simp [step, hin]
  · by_cases hin : member ∈ s.connected
    · simp [step, heardBy, h, hin]
    · simp [step, h, hin]

theorem mem_connected_step (s : Hall κ ρ μ) (op : Op κ ρ μ) :
    c ∈ (s.step op).connected ↔ op = .enter c ∨ c ∈ s.connected ∧ op ≠ .drop c := by
  cases op with
  | enter member => simp [step, eq_comm (a := c)]
  | join member room => simp [step]
  | leave member room => simp [step]
  | drop member => simp [step, eq_comm (a := c)]
  | say room message => simp [step]
  | tell member message =>
    rw [step]
    split <;> simp

theorem mem_present_step {r : ρ} (s : Hall κ ρ μ) (op : Op κ ρ μ) : (c, r) ∈ (s.step op).present ↔
    op = .join c r ∨ (c, r) ∈ s.present ∧ ¬(op = .leave c r ∨ op = .drop c) := by
  cases op with
  | enter member => simp [step]
  | join member room =>
    simp only [step, List.mem_insert_iff, Prod.mk.injEq, Op.join.injEq]
    grind
  | leave member room => simp [step]; grind
  | drop member => simp [step]; grind
  | say room message => simp [step]
  | tell member message =>
    rw [step]
    split <;> simp

/-- The hall as a server. -/
def server : Server κ ρ μ where
  State := Hall κ ρ μ
  empty := ⟨[], [], [], List.nodup_nil⟩
  step := step
  connected s c := s.connected.contains c
  present s c r := s.present.contains (c, r)
  heardBy c s := heardBy c s.heard
  connected_empty _ := rfl
  present_empty _ _ := rfl
  heardBy_empty _ := rfl
  connected_step s op c := by
    rw [List.contains_iff_mem, List.contains_iff_mem]
    exact s.mem_connected_step op
  present_step s op c r := by
    rw [List.contains_iff_mem, List.contains_iff_mem]
    exact s.mem_present_step op
  heardBy_silent s op c h := by
    cases op with
    | enter member => rfl
    | join member room => rfl
    | leave member room => rfl
    | drop member => rfl
    | say room message => exact h.elim
    | tell member message => exact h.elim
  heardBy_say s room message _ := heardBy_say s room message
  heardBy_tell s member message _ := heardBy_tell s member message

end Hall

end Orbit.Rooms
