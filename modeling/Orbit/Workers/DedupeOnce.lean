import Mathlib.Order.Nat
import Orbit.Foundations.Parties
import Orbit.Workers.Dedupe

/-!
# One success for each event

As long as Redis answers and the key of an event does not expire, the key is owned: it is in Redis
whenever an invocation is at work on the event or a handler has completed for it, and there is never
more than one of these together (`Once`). A handler that throws leaves its place when the key is
removed, and the next invocation whose `SET` is answered takes it.

* `handled_once`: in every run in which this is so for an event with an id, at most one handler
  completes, none is at work after that, and after a removal of the key the next `SET` that is
  answered is followed by the handler.
-/

namespace Orbit.Dedupe

/-- Redis does what it is asked for the event, and its key does not expire. -/
def Reliable (t : Target) (s : System) : Step → Prop
  | .call _ => True
  | .expire key => t.key ≠ some key
  | .resume i r => ∀ inv ∈ s.invocations[i]?, inv.target = t →
      (∀ applied, r ≠ .setFailed applied) ∧ r ≠ .del false

/-- In the handler. -/
def Invocation.Handling (inv : Invocation) : Prop := inv.phase = .holding ∨ inv.phase = .unkeyed

/-- A `SET` for the event is answered. -/
def Asks (t : Target) (s : System) : Step → Prop
  | .resume i .set => ∃ inv ∈ s.invocations[i]?, inv.target = t ∧ inv.phase = .setting
  | _ => False

instance (t : Target) (s : System) : (st : Step) → Decidable (Reliable t s st)
  | .call _ => inferInstanceAs (Decidable True)
  | .expire key => inferInstanceAs (Decidable (t.key ≠ some key))
  | .resume i _ => inferInstanceAs (Decidable (∀ inv ∈ s.invocations[i]?, _))

instance (t : Target) (s : System) : (st : Step) → Decidable (Asks t s st)
  | .call _ => inferInstanceAs (Decidable False)
  | .expire _ => inferInstanceAs (Decidable False)
  | .resume i .set => inferInstanceAs (Decidable (∃ inv ∈ s.invocations[i]?, _))
  | .resume _ (.setFailed _) => inferInstanceAs (Decidable False)
  | .resume _ (.handler _) => inferInstanceAs (Decidable False)
  | .resume _ (.del _) => inferInstanceAs (Decidable False)
  | .resume _ .crash => inferInstanceAs (Decidable False)

/-- The invocation has the key of the event. -/
def Invocation.owns (t : Target) (inv : Invocation) : Bool := inv.target = t ∧ inv.Keeps

/-- **The key is owned.** -/
structure System.Once (t : Target) (s : System) : Prop where
  one : s.invocations.countP (Invocation.owns t) + s.history.count (.completed t) ≤ 1
  held : 0 < s.invocations.countP (Invocation.owns t) + s.history.count (.completed t) →
    ∀ key ∈ t.key, key ∈ s.redis
  keyed : ∀ inv ∈ s.invocations, inv.target = t → inv.phase ≠ .unkeyed

/-! ## One resolution -/

section Resolutions

variable {t : Target} {redis : List String} {phase : Phase} {r : Resolution} {key : String}

variable (redis) in
/-- **What a resolution does to the key**: it is set by an invocation that gets it, removed by one
that gives it up, or left alone by one that has no more to do with it than before. -/
theorem resume_owns_cases (hkey : t.key = some key) (hset : ∀ applied, r ≠ .setFailed applied)
    (hdel : r ≠ .del false) (hphase : phase ≠ .unkeyed) :
    (resume redis t phase r).2.1 ≠ .unkeyed ∧
    ((phase = .setting ∧ r = .set ∧ key ∉ redis ∧ resume redis t phase r =
      (key :: redis, .holding, [])) ∨
      (phase = .releasing ∧ resume redis t phase r = (redis.filter (· ≠ key), .threw, [])) ∨
      ((resume redis t phase r).1 = redis ∧
        (Invocation.owns t ⟨t, (resume redis t phase r).2.1⟩).toNat +
          (resume redis t phase r).2.2.count (.completed t) ≤
          (Invocation.owns t ⟨t, phase⟩).toNat)) := by
  rcases r with _ | applied | (_ | _) | (_ | _) | _
  · -- the `SET` is answered
    by_cases hin : key ∈ redis <;> cases phase <;>
      simp_all [resume, setNX, Invocation.owns, Invocation.Keeps]
  · exact absurd rfl (hset applied)
  · cases phase <;> simp_all [resume, Invocation.owns, Invocation.Keeps]
  · cases phase <;> simp_all [resume, Invocation.owns, Invocation.Keeps]
  · exact absurd rfl hdel
  · cases phase <;> simp_all [resume, Invocation.owns, Invocation.Keeps]
  · cases phase <;> simp_all [resume, Invocation.owns, Invocation.Keeps]

theorem mem_setNX_of_mem {k : String} (h : key ∈ redis) : key ∈ setNX k redis := by
  unfold setNX
  split
  · exact h
  · exact List.mem_cons_of_mem _ h

/-- A resolution for another event leaves the key alone. -/
theorem mem_resume_iff {t' : Target} (hkey : t.key = some key) (hne : t' ≠ t) :
    key ∈ (resume redis t' phase r).1 ↔ key ∈ redis := by
  have hother : ∀ k, t'.key = some k → key ≠ k := by
    rintro k hk rfl
    exact hne (Target.key_inj hk hkey)
  refine ⟨fun h => (mem_resume h).resolve_right fun h' => hother key h' rfl, fun h => ?_⟩
  rcases resume_cases redis t' phase r with ⟨_, -, -, -, -, hout⟩ | ⟨k, hk, -, -, hout⟩ |
    ⟨k, applied, hk, -, -, hout⟩ | ⟨-, hout⟩ | ⟨-, hout⟩ | ⟨-, hout⟩ | ⟨k, applied, hk, -, hout⟩ |
    ⟨-, hout⟩ | hout <;> rw [hout]
  · exact h
  · exact mem_setNX_of_mem h
  · cases applied with
    | false => exact h
    | true => exact mem_setNX_of_mem h
  · exact h
  · exact h
  · exact h
  · cases applied with
    | false => exact h
    | true => exact List.mem_filter.mpr ⟨h, by simpa using hother k hk⟩
  · exact h
  · exact h

/-- What is recorded is about the event of the invocation. -/
theorem count_resume {t' : Target} (hne : t' ≠ t) :
    (resume redis t' phase r).2.2.count (.completed t) = 0 := by
  rcases resume_cases redis t' phase r with ⟨_, -, -, -, -, hout⟩ | ⟨_, -, -, -, hout⟩ |
    ⟨_, _, -, -, -, hout⟩ | ⟨-, hout⟩ | ⟨-, hout⟩ | ⟨-, hout⟩
    | ⟨_, _, -, -, hout⟩ | ⟨-, hout⟩ | hout <;>
    rw [hout] <;> simp [hne]

end Resolutions

/-! ## One step -/

section Steps

variable {t : Target} {key : String} {s : System} {st : Step}

theorem owns_eq_false {inv : Invocation} (h : inv.target ≠ t) : inv.owns t = false := by
  simp [Invocation.owns, h]

theorem once_resume (hkey : t.key = some key) (hs : s.Once t) {i : ℕ} {r : Resolution}
    (h : Reliable t s (.resume i r)) : (step s (.resume i r)).Once t := by
  simp only [step]
  cases hi : s.invocations[i]? with
  | none => exact hs
  | some inv =>
    obtain ⟨t', phase⟩ := inv
    dsimp only
    have hone := hs.one
    have hheld := hs.held
    by_cases ht : t' = t
    · subst ht
      obtain ⟨hset, hdel⟩ := h _ hi rfl
      obtain ⟨hunkeyed, hcases⟩ := resume_owns_cases s.redis hkey hset hdel
        (hs.keyed _ (List.mem_of_getElem? hi) rfl)
      have hkeyed : ∀ inv ∈ s.invocations.set i ⟨t', (resume s.redis t' phase r).2.1⟩,
          inv.target = t' → inv.phase ≠ .unkeyed := fun inv hinv htarget => by
        rcases List.mem_or_eq_of_mem_set hinv with hold | rfl
        · exact hs.keyed inv hold htarget
        · exact hunkeyed
      have hcount := Parties.countP_set_add (Invocation.owns t') hi
        ⟨t', (resume s.redis t' phase r).2.1⟩
      rcases hcases with ⟨rfl, -, hfree, hout⟩ | ⟨rfl, hout⟩ | ⟨hredis, hle⟩
      · -- it gets the key, which nobody had
        have hnobody : s.invocations.countP (Invocation.owns t') +
            s.history.count (.completed t') = 0 :=
          Nat.eq_zero_of_not_pos fun hpos => hfree (hheld hpos key hkey)
        have hafter : Invocation.owns t' ⟨t', .holding⟩ = true := by
          simp [Invocation.owns, Invocation.Keeps]
        simp only [hout, List.append_nil] at hcount hkeyed ⊢
        rw [hafter, Bool.toNat_true] at hcount
        refine ⟨?_, fun _ k hk => ?_, hkeyed⟩
        · dsimp only
          omega
        · obtain rfl := Option.some.inj (hkey.symm.trans hk)
          exact List.mem_cons_self
      · -- it gives the key up, which only it had
        have hbefore : Invocation.owns t' ⟨t', .releasing⟩ = true := by
          simp [Invocation.owns, Invocation.Keeps]
        have hafter : Invocation.owns t' ⟨t', .threw⟩ = false := by
          simp [Invocation.owns, Invocation.Keeps]
        simp only [hout, List.append_nil] at hcount hkeyed ⊢
        rw [hbefore, hafter, Bool.toNat_true, Bool.toNat_false] at hcount
        refine ⟨?_, fun hpos => ?_, hkeyed⟩
        · dsimp only
          omega
        · dsimp only at hpos
          omega
      · have hsum : (s.invocations.set i ⟨t', (resume s.redis t' phase r).2.1⟩).countP
          (Invocation.owns t') +
              (s.history ++ (resume s.redis t' phase r).2.2).count (.completed t') ≤
            s.invocations.countP (Invocation.owns t') + s.history.count (.completed t') := by
          dsimp only at hle
          rw [List.count_append]
          omega
        refine ⟨le_trans hsum hone, fun hpos k hk => ?_, hkeyed⟩
        rw [hredis]
        exact hheld (lt_of_lt_of_le hpos hsum) k hk
    · -- another event
      have hcount := Parties.countP_set_add (Invocation.owns t) hi
        ⟨t', (resume s.redis t' phase r).2.1⟩
      rw [owns_eq_false ht, owns_eq_false ht, Nat.add_right_cancel_iff] at hcount
      refine ⟨?_, ?_, fun inv hinv htarget => ?_⟩
      · dsimp only
        rw [hcount, List.count_append, count_resume ht]
        exact hone
      · dsimp only
        rw [hcount, List.count_append, count_resume ht]
        intro hpos k hk
        exact (mem_resume_iff hk ht).mpr (hheld hpos k hk)
      · rcases List.mem_or_eq_of_mem_set hinv with hold | rfl
        · exact hs.keyed inv hold htarget
        · exact absurd htarget ht

/-- **One step** of a run in which Redis is reliable. -/
theorem once_step (hkey : t.key = some key) (hs : s.Once t) (h : Reliable t s st) :
    (step s st).Once t := by
  cases st with
  | resume i r => exact once_resume hkey hs h
  | call t' =>
    have hstart : ∀ t', Invocation.owns t ⟨t', t'.start⟩ = false := fun t' => by
      unfold Target.start
      split <;> simp [Invocation.owns, Invocation.Keeps]
    have hcount : (step s (.call t')).invocations.countP (Invocation.owns t) =
        s.invocations.countP (Invocation.owns t) := by
      simp [step, List.countP_append, hstart]
    refine ⟨hcount ▸ hs.one, hcount ▸ hs.held, fun inv hinv htarget => ?_⟩
    rcases List.mem_append.mp hinv with hold | hnew
    · exact hs.keyed inv hold htarget
    · obtain rfl := List.mem_singleton.mp hnew
      obtain rfl : t' = t := htarget
      simp [Target.start, hkey]
  | expire k =>
    refine ⟨hs.one, fun hpos k' hk' => List.mem_filter.mpr ⟨hs.held hpos k' hk', ?_⟩, hs.keyed⟩
    have hne : k' ≠ k := fun heq => h (heq ▸ hk')
    simpa using hne

/-- A key that is not there stays so until a `SET` for the event is answered. -/
theorem absent_step (hkey : t.key = some key) (hs : s.Once t) (h : Reliable t s st)
    (hasks : ¬Asks t s st) (habsent : key ∉ s.redis) : key ∉ (step s st).redis := by
  cases st with
  | call t' => exact habsent
  | expire k => exact fun hin => habsent (List.mem_of_mem_filter hin)
  | resume i r =>
    simp only [step]
    cases hi : s.invocations[i]? with
    | none => exact habsent
    | some inv =>
      dsimp only
      by_cases ht : inv.target = t
      · subst ht
        obtain ⟨hset, hdel⟩ := h inv hi rfl
        obtain ⟨-, ⟨hphase, rfl, -⟩ | ⟨-, hout⟩ | ⟨hredis, -⟩⟩ := resume_owns_cases s.redis hkey
          hset hdel (hs.keyed inv (List.mem_of_getElem? hi) rfl)
        · exact absurd ⟨inv, hi, rfl, hphase⟩ hasks
        · rw [hout]
          exact fun hin => habsent (List.mem_of_mem_filter hin)
        · rw [hredis]
          exact habsent
      · exact fun hin => habsent ((mem_resume_iff hkey ht).mp hin)

/-- After the removal the key is not there. -/
theorem removed_step (hkey : t.key = some key) {i : ℕ} {failed : Invocation}
    (hi : s.invocations[i]? = some failed) (ht : failed.target = t)
    (hphase : failed.phase = .releasing) :
    key ∉ (step s (.resume i (.del true))).redis := by
  have hout : resume s.redis failed.target failed.phase (.del true) =
      (s.redis.filter (· ≠ key), .threw, []) := by
    simp [resume, hphase, ht, hkey]
  simp only [step, hi, hout]
  simp

/-- An invocation that asks for a key that is not there runs the handler. -/
theorem asks_step (hkey : t.key = some key) (habsent : key ∉ s.redis) {j : ℕ} {inv : Invocation}
    (hj : s.invocations[j]? = some inv) (ht : inv.target = t) (hphase : inv.phase = .setting) :
    (step s (.resume j .set)).invocations[j]? = some { inv with phase := .holding } := by
  have hout : resume s.redis inv.target inv.phase .set = (setNX key s.redis, .holding, []) := by
    simp [resume, hphase, ht, hkey, habsent]
  simp only [step, hj, hout]
  exact List.getElem?_set_self (List.getElem?_eq_some_iff.mp hj).1

theorem history_step (s : System) (st : Step) : s.history <+: (step s st).history := by
  cases st with
  | call t' => exact List.prefix_rfl
  | expire k => exact List.prefix_rfl
  | resume i r =>
    simp only [step]
    split
    · exact List.prefix_rfl
    · exact List.prefix_append _ _

end Steps

/-! ## Runs -/

section Runs

variable {t : Target} {key : String}

/-- Redis is reliable for the event throughout the steps. -/
def ReliableRun (t : Target) (s : System) (steps : List Step) : Prop :=
  Justified (fun before st => Reliable t (run s before) st) steps

theorem once_start (redis : List String) : System.Once t ⟨redis, [], []⟩ :=
  ⟨Nat.zero_le _, fun h => absurd h (Nat.lt_irrefl 0), fun _ h => absurd h List.not_mem_nil⟩

theorem once_run (hkey : t.key = some key) {s : System} (hs : s.Once t) {steps : List Step}
    (h : ReliableRun t s steps) : (run s steps).Once t :=
  Justified.invariant (fun _ _ hs hst => once_step hkey hs hst) hs h

theorem history_run (s : System) (steps : List Step) : s.history <+: (run s steps).history := by
  induction steps using List.reverseRecOn with
  | nil => exact List.prefix_rfl
  | append_singleton steps st ih =>
    rw [run_append]
    exact ih.trans (history_step _ st)

theorem absent_run (hkey : t.key = some key) {s : System} (hs : s.Once t) {steps : List Step}
    (h : ReliableRun t s steps)
    (hasks : Justified (fun before st => ¬Asks t (run s before) st) steps)
    (habsent : key ∉ s.redis) : key ∉ (run s steps).redis := by
  induction steps using List.reverseRecOn with
  | nil => exact habsent
  | append_singleton steps st ih =>
    obtain ⟨hbefore, hst⟩ := justified_concat.mp h
    obtain ⟨hasksBefore, hasksSt⟩ := justified_concat.mp hasks
    rw [run_append]
    exact absent_step hkey (once_run hkey hs hbefore) hst hasksSt (ih hbefore hasksBefore)

/-- **At most one successful handling of an event.** In a run in which Redis is reliable for
the event, at most one handler completes for it; once one has, none is at work on it in any
later state; and once the key was removed after a failure, the invocation whose `SET` is
answered next runs the handler. -/
theorem handled_once (redis : List String) (worker : Worker) (eventId : String) (hid : eventId ≠ "")
    (steps : List Step)
    (h : ReliableRun ⟨worker, some eventId⟩ ⟨redis, [], []⟩ steps) :
    (run ⟨redis, [], []⟩ steps).history.count (.completed ⟨worker, some eventId⟩) ≤ 1 ∧
    (∀ before after, before ++ after <+: steps →
      .completed ⟨worker, some eventId⟩ ∈ (run ⟨redis, [], []⟩ before).history →
      ∀ inv ∈ (run ⟨redis, [], []⟩ (before ++ after)).invocations,
        inv.target = ⟨worker, some eventId⟩ → ¬inv.Handling) ∧
    ∀ before i failed after, before ++ .resume i (.del true) :: after <+: steps →
      (run ⟨redis, [], []⟩ before).invocations[i]? = some failed →
      failed.target = ⟨worker, some eventId⟩ → failed.phase = .releasing →
      Justified (fun between st => ¬Asks ⟨worker, some eventId⟩
        (run ⟨redis, [], []⟩ (before ++ .resume i (.del true) :: between)) st) after →
      ∀ j inv, (run ⟨redis, [], []⟩ (before ++ .resume i (.del true) :: after)).invocations[j]? =
        some inv →
        inv.target = ⟨worker, some eventId⟩ → inv.phase = .setting →
        (step (run ⟨redis, [], []⟩ (before ++ .resume i (.del true) :: after))
          (.resume j .set)).invocations[j]? =
          some { inv with phase := .holding } := by
  set t : Target := ⟨worker, some eventId⟩ with ht
  obtain ⟨key, hkey⟩ : ∃ key, t.key = some key := ⟨_, if_neg hid⟩
  have hreliable : ∀ {steps'}, steps' <+: steps → ReliableRun t ⟨redis, [], []⟩ steps' := by
    rintro steps' ⟨rest, rfl⟩
    exact h.left
  have honce : ∀ {steps'}, steps' <+: steps → (run ⟨redis, [], []⟩ steps').Once t := fun hp =>
    once_run hkey (once_start redis) (hreliable hp)
  refine ⟨?_, fun before after hp hdone inv hinv htarget hhandling => ?_, ?_⟩
  · exact le_trans (Nat.le_add_left _ _) (honce List.prefix_rfl).one
  · -- the one place is taken by the handler that completed
    have hs := honce hp
    have hmem : .completed t ∈ (run ⟨redis, [], []⟩ (before ++ after)).history := by
      rw [run_append]
      exact (history_run _ after).subset hdone
    have hcompleted := List.count_pos_iff.mpr hmem
    rcases hhandling with hphase | hphase
    · have howns : 0 < (run ⟨redis, [], []⟩ (before ++ after)).invocations.countP
          (Invocation.owns t) :=
        List.countP_pos_iff.mpr
          ⟨inv, hinv, by simp [Invocation.owns, Invocation.Keeps, htarget, hphase]⟩
      have := hs.one
      omega
    · exact hs.keyed inv hinv htarget hphase
  · intro before i failed after hp hi htarget hphase hasks j inv hj hinv hsetting
    have hbefore : before <+: steps := (List.prefix_append _ _).trans hp
    set s := run ⟨redis, [], []⟩ before with hs
    have hrun : ∀ between, run ⟨redis, [], []⟩ (before ++ .resume i (.del true) :: between) =
        run (step s (.resume i (.del true))) between := fun between => by
      rw [run_append]
      rfl
    have hsplit : before ++ .resume i (.del true) :: after = before ++
        [.resume i (.del true)] ++ after := by
      simp
    have hstep : before ++ [.resume i (.del true)] <+: steps := by
      rw [hsplit] at hp
      exact (List.prefix_append _ _).trans hp
    have hafter : ReliableRun t (step s (.resume i (.del true))) after := by
      have hwhole := hreliable hp
      rw [hsplit] at hwhole
      have hrest := hwhole.rest (C := Reliable t)
      rwa [List.foldl_append] at hrest
    simp only [hrun] at hasks hj ⊢
    have honceStep : (step s (.resume i (.del true))).Once t := by
      have := honce hstep
      rwa [run_append] at this
    exact asks_step hkey (absent_run hkey honceStep hafter hasks
      (removed_step hkey hi htarget hphase))
      hj hinv hsetting

end Runs

/-- A failure, a success and a copy: one handler completes, and the second delivery ran it. -/
theorem handled_once_retried :
    ("e1" ≠ "" ∧ ReliableRun DedupeSample.event ⟨[], [], []⟩ DedupeSample.retried) ∧
      (run ⟨[], [], []⟩ DedupeSample.retried).history.count (.completed DedupeSample.event) ≤ 1 ∧
      (run ⟨[], [], []⟩ (DedupeSample.retried.take 6)).invocations[1]? =
        some ⟨DedupeSample.event, .holding⟩ := by
  have hrun : Justified (fun before st => Reliable DedupeSample.event (run ⟨[], [], []⟩ before) st)
      DedupeSample.retried := by decide +kernel
  obtain ⟨hone, -, hagain⟩ :=
    handled_once [] .notification "e1" (by decide) DedupeSample.retried hrun
  refine ⟨⟨by decide, hrun⟩, hone, ?_⟩
  exact hagain (DedupeSample.retried.take 3) 0 ⟨DedupeSample.event, .releasing⟩
    [.call DedupeSample.event] (by decide +kernel)
    (by decide +kernel) rfl rfl (by decide +kernel) 1 ⟨DedupeSample.event, .setting⟩
      (by decide +kernel) rfl rfl

end Orbit.Dedupe
