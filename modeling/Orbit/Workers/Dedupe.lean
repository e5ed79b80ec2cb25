import Mathlib.Data.List.Induction
import Orbit.Foundations.History

/-!
# Dedupe of worker deliveries

`withDedupe` of `packages/observability/src/dedupe.ts`. An invocation sets the key of its worker and
event in Redis if it is not there, runs the handler, and removes the key if the handler throws; when
the key is already there it returns `null`, which its caller takes for "already processed".

An invocation is cut at its `await`s: `Phase` says which one it is in, and `resume` what it does
when that one resolves, as `Resolution` says. Any number of invocations run at a time, in any
processes; a crash ends an invocation wherever it is, a key expires at any time, and a
redelivery is one more call.

* `dedupe_hit_completed`: every hit comes after a completed handler of its worker and event, in
  every run in which, until the handler has completed, no copy of an event asks for the key while an
  invocation that set it is not finished with it, no such invocation crashes, and neither a removal
  of the key nor the reply to its setting is lost.
* `hit_copied`: in every run, a hit is on an event that another invocation was handed.
-/

namespace Orbit.Dedupe

/-- The workers that wrap their handler. -/
inductive Worker
  | notification
  | marketDataFanout
  deriving DecidableEq, Repr

/-- The constant `WORKER`. -/
def Worker.name : Worker → String
  | .notification => "notification"
  | .marketDataFanout => "market-data-fanout"

/-- What an invocation is for. Messages from before the migration have no `eventId`. -/
structure Target where
  worker : Worker
  eventId : Option String
  deriving DecidableEq, Repr

/-- The key under which a worker dedupes an event, if there is an id to dedupe by. -/
def Target.key (t : Target) : Option String :=
  match t.eventId with
  | none => none
  | some eventId =>
    if eventId = "" then none
    else some ("dedupe:" ++ t.worker.name ++ ":" ++ eventId)

/-- The `await` an invocation is in, or how it ended. -/
inductive Phase
  /-- In `redis.set`. -/
  | setting
  /-- In the handler, after the key was set. -/
  | holding
  /-- In the handler, without having set a key. -/
  | unkeyed
  /-- In `redis.del`, after the handler threw. -/
  | releasing
  /-- Returned `null`. -/
  | hit
  /-- Returned the result of the handler. -/
  | returned
  /-- Threw the error of the handler. -/
  | threw
  | crashed
  deriving DecidableEq, Repr

structure Invocation where
  target : Target
  phase : Phase
  deriving DecidableEq, Repr

/-- Between its setting of the key and its being finished with it. -/
def Invocation.Keeps (inv : Invocation) : Prop := inv.phase = .holding ∨ inv.phase = .releasing

instance (inv : Invocation) : Decidable inv.Keeps := inferInstanceAs (Decidable (_ ∨ _))

/-- How an `await` resolves. -/
inductive Resolution
  /-- Redis answers the `SET … NX`. -/
  | set
  /-- The `SET … NX` fails, though it may have been `applied`. -/
  | setFailed (applied : Bool)
  /-- The handler returns or throws. -/
  | handler (ok : Bool)
  /-- The `DEL` is over, with an error or not; `applied` says whether the key is removed. -/
  | del (applied : Bool)
  /-- The process dies. -/
  | crash
  deriving DecidableEq, Repr

/-- What is recorded of an invocation. -/
inductive Event
  /-- The handler returned. -/
  | completed (target : Target)
  /-- `withDedupe` returned `null`. -/
  | hit (target : Target)
  deriving DecidableEq, Repr

/-- The keys in Redis, the invocations, and what happened, oldest first. -/
structure System where
  redis : List String
  invocations : List Invocation
  history : List Event
  deriving DecidableEq, Repr

/-- `SET key NX`. -/
def setNX (key : String) (redis : List String) : List String :=
  if key ∈ redis then redis else key :: redis

/-- What an invocation does when its `await` resolves: the keys, its phase and what is recorded. -/
def resume (redis : List String) (t : Target) (phase : Phase) (r : Resolution) :
    List String × Phase × List Event :=
  match phase, r, t.key with
  | .setting, .set, some key =>
    if key ∈ redis then (redis, .hit, [.hit t]) else (setNX key redis, .holding, [])
  | .setting, .setFailed applied, some key =>
    (if applied then setNX key redis else redis, .unkeyed, [])
  | .holding, .handler ok, _ =>
    if ok then (redis, .returned, [.completed t]) else (redis, .releasing, [])
  | .unkeyed, .handler ok, _ =>
    if ok then (redis, .returned, [.completed t]) else (redis, .threw, [])
  | .releasing, .del applied, some key =>
    (if applied then redis.filter (· ≠ key) else redis, .threw, [])
  | .setting, .crash, _ => (redis, .crashed, [])
  | .holding, .crash, _ => (redis, .crashed, [])
  | .unkeyed, .crash, _ => (redis, .crashed, [])
  | .releasing, .crash, _ => (redis, .crashed, [])
  | phase, _, _ => (redis, phase, [])

/-- The first `await` of a call: without a key the handler is run at once. -/
def Target.start (t : Target) : Phase := if t.key.isSome then .setting else .unkeyed

inductive Step
  | call (target : Target)
  /-- The `await` of the invocation number `i` resolves. -/
  | resume (i : ℕ) (r : Resolution)
  | expire (key : String)
  deriving DecidableEq, Repr

def step (s : System) : Step → System
  | .call t => { s with invocations := s.invocations ++ [⟨t, t.start⟩] }
  | .resume i r =>
    match s.invocations[i]? with
    | none => s
    | some inv =>
      let (redis, phase, events) := resume s.redis inv.target inv.phase r
      { redis
        invocations := s.invocations.set i { inv with phase }
        history := s.history ++ events }
  | .expire key => { s with redis := s.redis.filter (· ≠ key) }

def run (s : System) (steps : List Step) : System := steps.foldl step s

def System.empty : System := ⟨[], [], []⟩

/-- A hit comes after a completed handler of its worker and event. -/
def AfterCompleted (before : List Event) : Event → Prop
  | .hit t => .completed t ∈ before
  | .completed _ => True

/-- The condition on a resolution of an invocation, as long as the handler has not completed for its
worker and event. -/
def Calm (s : System) (inv : Invocation) : Resolution → Prop
  | .set => ∀ inv' ∈ s.invocations, inv'.target = inv.target → ¬inv'.Keeps
  | .setFailed applied => applied = false
  | .handler _ => True
  | .del applied => applied = true
  | .crash => ¬inv.Keeps

/-- The condition on a step. -/
def Undisturbed (s : System) : Step → Prop
  | .call _ => True
  | .expire _ => True
  | .resume i r => ∀ inv ∈ s.invocations[i]?, .completed inv.target ∈ s.history ∨ Calm s inv r

instance (s : System) (inv : Invocation) : (r : Resolution) → Decidable (Calm s inv r)
  | .set => inferInstanceAs (Decidable (∀ inv' ∈ s.invocations, _))
  | .setFailed applied => inferInstanceAs (Decidable (applied = false))
  | .handler _ => inferInstanceAs (Decidable True)
  | .del applied => inferInstanceAs (Decidable (applied = true))
  | .crash => inferInstanceAs (Decidable ¬_)

instance (s : System) : (st : Step) → Decidable (Undisturbed s st)
  | .call _ => inferInstanceAs (Decidable True)
  | .expire _ => inferInstanceAs (Decidable True)
  | .resume i _ => inferInstanceAs (Decidable (∀ inv ∈ s.invocations[i]?, _))

instance (before : List Event) : (e : Event) → Decidable (AfterCompleted before e)
  | .hit t => inferInstanceAs (Decidable (.completed t ∈ before))
  | .completed _ => inferInstanceAs (Decidable True)

/-! ## Keys -/

theorem Target.key_inj {t t' : Target} {k : String} (h : t.key = some k) (h' : t'.key = some k) :
    t = t' := by
  obtain ⟨w, _ | e⟩ := t <;> obtain ⟨w', _ | e'⟩ := t' <;> simp only [Target.key] at h h'
  · cases h
  · cases h
  · cases h'
  · split at h
    · cases h
    split at h'
    · cases h'
    rw [← h', Option.some.injEq] at h
    have := congrArg String.toList h
    cases w <;> cases w' <;> simp [Worker.name, String.toList_append] at this ⊢
    · exact String.toList_injective this
    · exact String.toList_injective this

/-! ## One resolution -/

/-- **What a resolution can do.** -/
theorem resume_cases (redis : List String) (t : Target) (phase : Phase) (r : Resolution) :
    (∃ key ∈ redis, t.key = some key ∧ phase = .setting ∧ r = .set ∧
      resume redis t phase r = (redis, .hit, [.hit t])) ∨
    (∃ key, t.key = some key ∧ phase = .setting ∧ r = .set ∧
      resume redis t phase r = (setNX key redis, .holding, [])) ∨
    (∃ key applied, t.key = some key ∧ phase = .setting ∧ r = .setFailed applied ∧
      resume redis t phase r = (if applied then setNX key redis else redis, .unkeyed, [])) ∨
    (r = .handler true ∧ resume redis t phase r = (redis, .returned, [.completed t])) ∨
    (phase = .holding ∧ resume redis t phase r = (redis, .releasing, [])) ∨
    (phase = .unkeyed ∧ resume redis t phase r = (redis, .threw, [])) ∨
    (∃ key applied, t.key = some key ∧ r = .del applied ∧
      resume redis t phase r = (if applied then redis.filter (· ≠ key) else redis, .threw, [])) ∨
    (r = .crash ∧ resume redis t phase r = (redis, .crashed, [])) ∨
    resume redis t phase r = (redis, phase, []) := by
  cases hk : t.key with
  | none => rcases r with _ | applied | (_ | _) | applied | _ <;> cases phase <;> simp [resume, hk]
  | some key =>
    by_cases hin : key ∈ redis <;> rcases r with _ | applied | (_ | _) | applied | _ <;>
      cases phase <;> simp [resume, hk, hin]

variable {s : System}

/-- A key in Redis is there because the handler completed, or an invocation is not finished with
it. -/
def System.Backed (s : System) : Prop :=
  ∀ k ∈ s.redis, (∃ t : Target, t.key = some k ∧ .completed t ∈ s.history) ∨
    ∃ (j : ℕ) (inv : Invocation),
      s.invocations[j]? = some inv ∧ inv.target.key = some k ∧ inv.Keeps

/-- An invocation moves on: a key needs a new reason only if the invocation was it. -/
theorem System.Backed.move (hs : s.Backed) {i : ℕ} {inv : Invocation}
    (hi : s.invocations[i]? = some inv) {redis : List String} {phase : Phase} {events : List Event}
    (h : ∀ k ∈ redis, .completed inv.target ∈ s.history ++ events ∧ inv.target.key = some k ∨
      ({ inv with phase } : Invocation).Keeps ∧ inv.target.key = some k ∨
      k ∈ s.redis ∧ (inv.Keeps → inv.target.key ≠ some k)) :
    (⟨redis, s.invocations.set i { inv with phase }, s.history ++ events⟩ : System).Backed := by
  have hlt : i < s.invocations.length := (List.getElem?_eq_some_iff.mp hi).1
  intro k hk
  rcases h k hk with ⟨hdone, hkey⟩ | ⟨hkeeps, hkey⟩ | ⟨hold, hother⟩
  · exact .inl ⟨inv.target, hkey, hdone⟩
  · exact .inr ⟨i, _, List.getElem?_set_self hlt, hkey, hkeeps⟩
  · rcases hs k hold with ⟨t, hkey, hdone⟩ | ⟨j, inv', hj, hkey, hkeeps⟩
    · exact .inl ⟨t, hkey, List.mem_append_left _ hdone⟩
    · have hne : i ≠ j := by
        rintro rfl
        obtain rfl := Option.some.inj (hi.symm.trans hj)
        exact hother hkeeps hkey
      exact .inr ⟨j, inv', by rwa [List.getElem?_set_ne hne], hkey, hkeeps⟩

theorem mem_setNX {key k : String} {redis : List String} (h : k ∈ setNX key redis) :
    k = key ∨ k ∈ redis := by
  unfold setNX at h
  split at h
  · exact .inr h
  · exact List.mem_cons.mp h

/-- An invocation sets no key but its own. -/
theorem mem_resume {redis : List String} {t : Target} {phase : Phase} {r : Resolution} {k : String}
    (h : k ∈ (resume redis t phase r).1) : k ∈ redis ∨ t.key = some k := by
  rcases resume_cases redis t phase r with ⟨_, -, -, -, -, hout⟩ | ⟨key, hkey, -, -, hout⟩ |
    ⟨key, applied, hkey, -, -, hout⟩ | ⟨-, hout⟩ | ⟨-, hout⟩ | ⟨-, hout⟩ |
    ⟨key, applied, -, -, hout⟩ | ⟨-, hout⟩ | hout <;> rw [hout] at h
  · exact .inl h
  · rcases mem_setNX h with rfl | h
    · exact .inr hkey
    · exact .inl h
  · cases applied with
    | false => exact .inl h
    | true =>
      rcases mem_setNX h with rfl | h
      · exact .inr hkey
      · exact .inl h
  · exact .inl h
  · exact .inl h
  · exact .inl h
  · cases applied with
    | false => exact .inl h
    | true => exact .inl (List.mem_of_mem_filter h)
  · exact .inl h
  · exact .inl h

/-- **A resolution that is not disturbed** keeps the keys backed. -/
theorem backed_resume (hs : s.Backed) {i : ℕ} {r : Resolution} (h : Undisturbed s (.resume i r)) :
    (step s (.resume i r)).Backed := by
  simp only [step]
  cases hi : s.invocations[i]? with
  | none => exact hs
  | some inv =>
    have hcond := h inv hi
    dsimp only
    refine hs.move hi fun k hk => ?_
    by_cases hown : inv.target.key = some k
    · rcases hcond with hdone | hcond
      · exact .inl ⟨List.mem_append_left _ hdone, hown⟩
      rcases resume_cases s.redis inv.target inv.phase r with ⟨key, -, -, hphase, -, hout⟩ |
        ⟨key, -, -, -, hout⟩ | ⟨key, applied, -, hphase, rfl, hout⟩ | ⟨-, hout⟩ | ⟨-, hout⟩ |
        ⟨hphase, hout⟩ | ⟨key, applied, hkey, rfl, hout⟩ | ⟨rfl, hout⟩ | hout <;>
        rw [hout] at hk ⊢
      · exact .inr (.inr ⟨hk, by simp [Invocation.Keeps, hphase]⟩)
      · exact .inr (.inl ⟨.inl rfl, hown⟩)
      · obtain rfl : applied = false := hcond
        exact .inr (.inr ⟨hk, by simp [Invocation.Keeps, hphase]⟩)
      · exact .inl ⟨by simp, hown⟩
      · exact .inr (.inl ⟨.inr rfl, hown⟩)
      · exact .inr (.inr ⟨hk, by simp [Invocation.Keeps, hphase]⟩)
      · -- the key is removed
        obtain rfl : applied = true := hcond
        obtain rfl : key = k := Option.some.inj (hkey.symm.trans hown)
        simp at hk
      · exact .inr (.inr ⟨hk, fun hkeeps => absurd hkeeps hcond⟩)
      · by_cases hkeeps : inv.Keeps
        · exact .inr (.inl ⟨hkeeps, hown⟩)
        · exact .inr (.inr ⟨hk, fun h => absurd h hkeeps⟩)
    · refine .inr (.inr ⟨?_, fun _ => hown⟩)
      exact (mem_resume hk).resolve_right hown

/-- A hit that is not disturbed comes after a completed handler. -/
theorem justified_resume (hs : s.Backed) (hh : Justified AfterCompleted s.history) {i : ℕ}
    {r : Resolution} (h : Undisturbed s (.resume i r)) :
    Justified AfterCompleted (step s (.resume i r)).history := by
  simp only [step]
  cases hi : s.invocations[i]? with
  | none => exact hh
  | some inv =>
    dsimp only
    rcases resume_cases s.redis inv.target inv.phase r with ⟨key, hin, hkey, -, rfl, hout⟩ |
      ⟨_, -, -, -, hout⟩ | ⟨_, _, -, -, -, hout⟩ | ⟨-, hout⟩ | ⟨-, hout⟩ | ⟨-, hout⟩ |
      ⟨_, _, -, -, hout⟩ | ⟨-, hout⟩ | hout <;> rw [hout]
    · refine justified_concat.mpr ⟨hh, ?_⟩
      rcases h inv hi with hdone | hfree
      · exact hdone
      rcases hs key hin with ⟨t, ht, hdone⟩ | ⟨j, inv', hj, hkey', hkeeps⟩
      · obtain rfl := Target.key_inj hkey ht
        exact hdone
      · exact absurd hkeeps (hfree inv' (List.mem_of_getElem? hj) (Target.key_inj hkey' hkey))
    · simpa using hh
    · simpa using hh
    · exact justified_concat.mpr ⟨hh, trivial⟩
    · simpa using hh
    · simpa using hh
    · simpa using hh
    · simpa using hh
    · simpa using hh

/-! ## Runs -/

/-- **One step.** -/
theorem backed_step (hs : s.Backed) {st : Step} (h : Undisturbed s st) : (step s st).Backed := by
  cases st with
  | resume i r => exact backed_resume hs h
  | call t =>
    intro k hk
    rcases hs k hk with hdone | ⟨j, inv, hj, hkey, hkeeps⟩
    · exact .inl hdone
    · have hlt : j < s.invocations.length := (List.getElem?_eq_some_iff.mp hj).1
      exact .inr ⟨j, inv, (List.getElem?_append_left hlt).trans hj, hkey, hkeeps⟩
  | expire key =>
    intro k hk
    exact hs k (List.mem_of_mem_filter hk)

theorem justified_step (hs : s.Backed) (hh : Justified AfterCompleted s.history) {st : Step}
    (h : Undisturbed s st) : Justified AfterCompleted (step s st).history := by
  cases st with
  | resume i r => exact justified_resume hs hh h
  | call t => exact hh
  | expire key => exact hh

theorem run_append (s : System) (steps steps' : List Step) :
    run s (steps ++ steps') = run (run s steps) steps' := List.foldl_append

theorem backed_run {steps : List Step}
    (h : Justified (fun before st => Undisturbed (run .empty before) st) steps) :
    (run .empty steps).Backed ∧ Justified AfterCompleted (run .empty steps).history := by
  induction steps using List.reverseRecOn with
  | nil => exact ⟨fun k hk => (List.not_mem_nil hk).elim, justified_nil⟩
  | append_singleton steps st ih =>
    obtain ⟨hsteps, hst⟩ := justified_concat.mp h
    obtain ⟨hs, hh⟩ := ih hsteps
    rw [run_append]
    exact ⟨backed_step hs hst, justified_step hs hh hst⟩

/-- **A hit means that the work was done**, in every state of every run whose steps are not
disturbed. -/
theorem dedupe_hit_completed {steps : List Step}
    (h : Justified (fun before st => Undisturbed (run .empty before) st) steps) :
    ∀ steps', steps' <+: steps → Justified AfterCompleted (run .empty steps').history := by
  rintro steps' ⟨rest, rfl⟩
  exact (backed_run h.left).2

/-! ## Hits are copies -/

/-- The invocation got past `redis.set` without a hit. -/
def Invocation.Ran (inv : Invocation) : Prop := inv.phase ≠ .setting ∧ inv.phase ≠ .hit

/-- Another invocation of the same worker and event got past `redis.set` without a hit. -/
def System.Copied (s : System) (i : ℕ) (t : Target) : Prop :=
  ∃ (j : ℕ) (inv : Invocation), j ≠ i ∧ s.invocations[j]? = some inv ∧ inv.target = t ∧ inv.Ran

/-- Every key in Redis was set by an invocation, and every hit is on one that
another invocation set. -/
structure System.Owned (s : System) : Prop where
  keys : ∀ k ∈ s.redis, ∃ (j : ℕ) (inv : Invocation),
    s.invocations[j]? = some inv ∧ inv.target.key = some k ∧ inv.Ran
  hits : ∀ i inv, s.invocations[i]? = some inv → inv.phase = .hit → s.Copied i inv.target

/-- An invocation that ran stays one that did, and one that is new in Redis or hits
sets or finds its key. -/
theorem resume_owns (redis : List String) (t : Target) (phase : Phase) (r : Resolution) :
    ((⟨t, phase⟩ : Invocation).Ran → (⟨t, (resume redis t phase r).2.1⟩ : Invocation).Ran) ∧
    (∀ k ∈ (resume redis t phase r).1, k ∈ redis ∨
      t.key = some k ∧ (⟨t, (resume redis t phase r).2.1⟩ : Invocation).Ran) ∧
    ((resume redis t phase r).2.1 = .hit → phase = .hit ∨
      phase = .setting ∧ ∃ key ∈ redis, t.key = some key) := by
  refine ⟨fun hran => ?_, fun k hk => ?_, fun hhit => ?_⟩
  · rcases resume_cases redis t phase r with ⟨_, -, -, hphase, -⟩ | ⟨_, -, hphase, -⟩ |
      ⟨_, _, -, hphase, -⟩ | ⟨-, hout⟩ | ⟨-, hout⟩ | ⟨-, hout⟩
      | ⟨_, _, -, -, hout⟩ | ⟨-, hout⟩ | hout
    · exact absurd hphase hran.1
    · exact absurd hphase hran.1
    · exact absurd hphase hran.1
    all_goals rw [hout]
    · simp [Invocation.Ran]
    · simp [Invocation.Ran]
    · simp [Invocation.Ran]
    · simp [Invocation.Ran]
    · simp [Invocation.Ran]
    · exact hran
  · rcases mem_resume hk with hk | hkey
    · exact .inl hk
    by_cases hold : k ∈ redis
    · exact .inl hold
    rcases resume_cases redis t phase r with ⟨_, -, -, -, -, hout⟩ | ⟨_, -, -, -, hout⟩ |
      ⟨_, _, -, -, -, hout⟩ | ⟨-, hout⟩ | ⟨-, hout⟩ | ⟨-, hout⟩
      | ⟨_, applied, -, -, hout⟩ | ⟨-, hout⟩ |
      hout <;> rw [hout] at hk ⊢
    · exact absurd hk hold
    · exact .inr ⟨hkey, by simp [Invocation.Ran]⟩
    · exact .inr ⟨hkey, by simp [Invocation.Ran]⟩
    · exact absurd hk hold
    · exact absurd hk hold
    · exact absurd hk hold
    · cases applied with
      | false => exact absurd hk hold
      | true => exact absurd (List.mem_of_mem_filter hk) hold
    · exact absurd hk hold
    · exact absurd hk hold
  · rcases resume_cases redis t phase r with ⟨key, hin, hkey, hphase, -⟩ | ⟨_, -, -, -, hout⟩ |
      ⟨_, _, -, -, -, hout⟩ | ⟨-, hout⟩ | ⟨-, hout⟩ | ⟨-, hout⟩
      | ⟨_, _, -, -, hout⟩ | ⟨-, hout⟩ | hout
    · exact .inr ⟨hphase, key, hin, hkey⟩
    all_goals rw [hout] at hhit
    · cases hhit
    · cases hhit
    · cases hhit
    · cases hhit
    · cases hhit
    · cases hhit
    · cases hhit
    · exact .inl hhit

theorem owned_resume (hs : s.Owned) (i : ℕ) (r : Resolution) : (step s (.resume i r)).Owned := by
  simp only [step]
  cases hi : s.invocations[i]? with
  | none => exact hs
  | some inv =>
    dsimp only
    obtain ⟨hran, hkeys, hhits⟩ := resume_owns s.redis inv.target inv.phase r
    have hlt : i < s.invocations.length := (List.getElem?_eq_some_iff.mp hi).1
    -- an invocation that ran still did after the step
    have hkeep : ∀ (j : ℕ) (inv' : Invocation), s.invocations[j]? = some inv' → inv'.Ran →
        ∃ inv'',
          (s.invocations.set i ⟨inv.target, (resume s.redis inv.target inv.phase r).2.1⟩)[j]? =
            some inv'' ∧ inv''.target = inv'.target ∧ inv''.Ran := by
      intro j inv' hj hran'
      by_cases hij : i = j
      · subst hij
        obtain rfl := Option.some.inj (hi.symm.trans hj)
        exact ⟨_, List.getElem?_set_self hlt, rfl, hran hran'⟩
      · exact ⟨inv', by rwa [List.getElem?_set_ne hij], rfl, hran'⟩
    refine ⟨fun k hk => ?_, fun i' inv' hi' hhit => ?_⟩
    · rcases hkeys k hk with hold | ⟨hkey, hnew⟩
      · obtain ⟨j, inv', hj, hkey, hran'⟩ := hs.keys k hold
        obtain ⟨inv'', hj', htarget, hran''⟩ := hkeep j inv' hj hran'
        exact ⟨j, inv'', hj', htarget ▸ hkey, hran''⟩
      · exact ⟨i, _, List.getElem?_set_self hlt, hkey, hnew⟩
    · have hcopied : ∀ {n : ℕ} {t : Target}, s.Copied n t →
        System.Copied ⟨(resume s.redis inv.target
          inv.phase r).1, s.invocations.set i
            ⟨inv.target, (resume s.redis inv.target inv.phase r).2.1⟩,
          s.history ++ (resume s.redis inv.target inv.phase r).2.2⟩ n t := by
        rintro n t ⟨j, inv₁, hne, hj, htarget, hran'⟩
        obtain ⟨inv'', hj', htarget', hran''⟩ := hkeep j inv₁ hj hran'
        exact ⟨j, inv'', hne, hj', htarget'.trans htarget, hran''⟩
      by_cases hii : i = i'
      · subst hii
        rw [List.getElem?_set_self hlt] at hi'
        obtain rfl := Option.some.inj hi'
        rcases hhits hhit with hold | ⟨hphase, key, hin, hkey⟩
        · exact hcopied (hs.hits i inv hi hold)
        · -- it found the key of another invocation
          obtain ⟨j, inv', hj, hkey', hran'⟩ := hs.keys key hin
          refine hcopied ⟨j, inv', ?_, hj, Target.key_inj hkey' hkey, hran'⟩
          rintro rfl
          obtain rfl := Option.some.inj (hi.symm.trans hj)
          exact hran'.1 hphase
      · rw [List.getElem?_set_ne hii] at hi'
        exact hcopied (hs.hits i' inv' hi' hhit)

theorem owned_step (hs : s.Owned) (st : Step) : (step s st).Owned := by
  cases st with
  | resume i r => exact owned_resume hs i r
  | call t =>
    have hkeep : ∀ {j : ℕ} {inv : Invocation}, s.invocations[j]? = some inv →
        (s.invocations ++ [⟨t, t.start⟩])[j]? = some inv := fun hj =>
      (List.getElem?_append_left (List.getElem?_eq_some_iff.mp hj).1).trans hj
    refine ⟨fun k hk => ?_, fun i inv hi hhit => ?_⟩
    · obtain ⟨j, inv, hj, hkey, hran⟩ := hs.keys k hk
      exact ⟨j, inv, hkeep hj, hkey, hran⟩
    · by_cases hlt : i < s.invocations.length
      · change (s.invocations ++ [⟨t, t.start⟩])[i]? = some inv at hi
        rw [List.getElem?_append_left hlt] at hi
        obtain ⟨j, inv', hne, hj, hrest⟩ := hs.hits i inv hi hhit
        exact ⟨j, inv', hne, hkeep hj, hrest⟩
      · -- the new invocation starts without a hit
        change (s.invocations ++ [⟨t, t.start⟩])[i]? = some inv at hi
        rw [List.getElem?_append_right (Nat.le_of_not_lt hlt), List.getElem?_singleton] at hi
        split at hi
        · obtain rfl := Option.some.inj hi
          unfold Target.start at hhit
          split at hhit <;> cases hhit
        · cases hi
  | expire key => exact ⟨fun k hk => hs.keys k (List.mem_of_mem_filter hk), hs.hits⟩

theorem owned_run (steps : List Step) : (run .empty steps).Owned := by
  induction steps using List.reverseRecOn with
  | nil =>
    exact ⟨fun k hk => (List.not_mem_nil hk).elim,
      fun i inv hi => by simp [run, System.empty] at hi⟩
  | append_singleton steps st ih =>
    rw [run_append]
    exact owned_step ih st

/-- **Only a copy is a hit**: in every run, another invocation of the same worker and event ran. -/
theorem hit_copied (steps : List Step) {i : ℕ} {inv : Invocation}
    (hi : (run .empty steps).invocations[i]? = some inv) (hhit : inv.phase = .hit) :
    (run .empty steps).Copied i inv.target :=
  (owned_run steps).hits i inv hi hhit

namespace DedupeSample

def event : Target := ⟨.notification, some "e1"⟩

/-- The handler throws, the event is delivered again and handled, and a copy is a hit. -/
def retried : List Step :=
  [.call event, .resume 0 .set, .resume 0 (.handler false), .resume 0 (.del true),
    .call event, .resume 1 .set, .resume 1 (.handler true),
    .call event, .resume 2 .set]

/-- The process dies in the handler, and the event is delivered again. -/
def crashed : List Step :=
  [.call event, .resume 0 .set, .resume 0 .crash, .call event, .resume 1 .set]

end DedupeSample

/-- The copy is a hit, and the handler completed before. -/
theorem dedupe_hit_completed_retried :
    (run .empty DedupeSample.retried).history =
        [.completed DedupeSample.event, .hit DedupeSample.event] ∧
      Justified AfterCompleted (run .empty DedupeSample.retried).history :=
  ⟨by decide +kernel, dedupe_hit_completed (by decide +kernel) DedupeSample.retried List.prefix_rfl⟩

/-- After a crash in the handler the event is acknowledged without its side effect. -/
theorem dedupe_hit_after_crash :
    ¬∀ steps, Justified AfterCompleted (run .empty steps).history := by
  intro h
  have := h DedupeSample.crashed
  revert this
  decide +kernel

end Orbit.Dedupe
