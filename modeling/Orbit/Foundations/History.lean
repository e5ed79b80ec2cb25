import Mathlib.Data.List.Basic

/-!
# Histories

A history is the list of what happened, oldest first. `Justified P h` says that every entry of `h`
stands in the relation `P` to the entries before it: that an effect has its cause before it, or that
things happen in order. It is a property that later entries cannot mend (`Justified.left`) and that
is checked entry by entry (`justified_concat`). Of a run of steps it says that each of them meets a
condition on the state it is made in (`Justified.invariant`). `Since P Q h` says that an entry was a
`P` and that none after it was a `Q`. `gather f h` lists what the entries yield one after another.
-/

namespace Orbit

variable {ε : Type*} {P : List ε → ε → Prop} {h h' : List ε} {e : ε}

/-- Every entry of the history stands in the relation `P` to those before it. -/
def Justified (P : List ε → ε → Prop) (h : List ε) : Prop :=
  ∀ before e after, h = before ++ e :: after → P before e

@[simp] theorem justified_nil : Justified P [] := by
  intro before e after h
  simp at h

theorem Justified.left (hh : Justified P (h ++ h')) : Justified P h := by
  rintro before e after rfl
  exact hh before e (after ++ h') (by simp)

theorem justified_append : Justified P (h ++ h') ↔
    Justified P h ∧ Justified (fun before e => P (h ++ before) e) h' := by
  constructor
  · refine fun hh => ⟨hh.left, ?_⟩
    rintro before e after rfl
    exact hh (h ++ before) e after (by simp)
  · rintro ⟨hl, hr⟩ before e after heq
    rcases List.append_eq_append_iff.mp heq with ⟨as, rfl, has⟩ | ⟨bs, rfl, hbs⟩
    · exact hr as e after has
    · cases bs with
      | nil =>
        have : P (before ++ [] ++ []) e := hr [] e after hbs.symm
        rwa [List.append_nil, List.append_nil] at this
      | cons b bs =>
        obtain ⟨rfl, -⟩ := List.cons_eq_cons.mp hbs
        exact hl before e bs rfl

theorem justified_concat : Justified P (h ++ [e]) ↔ Justified P h ∧ P h e := by
  rw [justified_append]
  refine and_congr_right fun _ => ⟨fun hh => ?_, fun hh => ?_⟩
  · have : P (h ++ []) e := hh [] e [] rfl
    rwa [List.append_nil] at this
  · intro before x after hx
    cases before with
    | nil =>
      obtain ⟨rfl, -⟩ := List.cons_eq_cons.mp hx
      rwa [List.append_nil]
    | cons b bs => simp at hx

theorem justified_cons : Justified P (e :: h) ↔
    P [] e ∧ Justified (fun before x => P (e :: before) x) h := by
  rw [← List.singleton_append, justified_append, ← List.nil_append [e], justified_concat]
  simp

/-- **The rule for invariants of runs**: what every step that meets its condition keeps holds after
every run whose steps all meet it. -/
theorem Justified.invariant {σ : Type*} {step : σ → ε → σ} {I : σ → Prop} {C : σ → ε → Prop}
    (hstep : ∀ s e, I s → C s e → I (step s e)) {s : σ} (h₀ : I s) {es : List ε}
    (hes : Justified (fun before e => C (before.foldl step s) e) es) : I (es.foldl step s) := by
  induction es generalizing s with
  | nil => exact h₀
  | cons e es ih =>
    obtain ⟨he, hes⟩ := justified_cons.mp hes
    exact ih (hstep s e h₀ he) hes

/-- What comes after some steps of a run is a run from where they lead. -/
theorem Justified.rest {σ : Type*} {step : σ → ε → σ} {C : σ → ε → Prop} {s : σ}
    (hh : Justified (fun before e => C (before.foldl step s) e) (h ++ h')) :
    Justified (fun before e => C (before.foldl step (h.foldl step s)) e) h' := by
  have := (justified_append.mp hh).2
  simpa only [List.foldl_append] using this

/-- Some entry of the history stands in the relation `P` to those before it, and no later one in the
relation `Q`. -/
def Since (P Q : List ε → ε → Prop) (h : List ε) : Prop :=
  ∃ before e after, h = before ++ e :: after ∧ P before e ∧
    Justified (fun later x => ¬Q (before ++ e :: later) x) after

theorem since_concat {Q : List ε → ε → Prop} :
    Since P Q (h ++ [e]) ↔ P h e ∨ Since P Q h ∧ ¬Q h e := by
  constructor
  · rintro ⟨before, x, after, heq, hP, hQ⟩
    rcases after.eq_nil_or_concat with rfl | ⟨after, y, rfl⟩
    · obtain ⟨rfl, he⟩ := List.append_inj' heq rfl
      obtain ⟨rfl, -⟩ := List.cons_eq_cons.mp he
      exact Or.inl hP
    · rw [List.concat_eq_append] at heq hQ
      rw [← List.cons_append, ← List.append_assoc] at heq
      obtain ⟨rfl, he⟩ := List.append_inj' heq rfl
      obtain ⟨rfl, -⟩ := List.cons_eq_cons.mp he
      obtain ⟨hQ, hlast⟩ := justified_concat.mp hQ
      exact Or.inr ⟨⟨before, x, after, rfl, hP, hQ⟩, hlast⟩
  · rintro (hP | ⟨⟨before, x, after, rfl, hP, hQ⟩, hlast⟩)
    · exact ⟨h, e, [], rfl, hP, justified_nil⟩
    · exact ⟨before, x, after ++ [e], by simp, hP, justified_concat.mpr ⟨hQ, hlast⟩⟩

/-- What the entries of a history yield, each in the light of those before it. -/
def gather {β : Type*} (f : List ε → ε → List β) : List ε → List β
  | [] => []
  | e :: h => f [] e ++ gather (fun before => f (e :: before)) h

theorem gather_append {β : Type*} (f : List ε → ε → List β) (h h' : List ε) :
    gather f (h ++ h') = gather f h ++ gather (fun before => f (h ++ before)) h' := by
  induction h generalizing f with
  | nil => rfl
  | cons a h ih =>
    rw [List.cons_append, gather, ih, gather, List.append_assoc]
    rfl

theorem gather_concat {β : Type*} (f : List ε → ε → List β) (h : List ε) (e : ε) :
    gather f (h ++ [e]) = gather f h ++ f h e := by
  rw [gather_append, gather, gather, List.append_nil, List.append_nil]

theorem mem_gather {β : Type*} {f : List ε → ε → List β} {x : β} :
    x ∈ gather f h ↔ ∃ before e after, h = before ++ e :: after ∧ x ∈ f before e := by
  constructor
  · intro hx
    induction h generalizing f with
    | nil => exact absurd hx List.not_mem_nil
    | cons a h ih =>
      rcases List.mem_append.mp hx with hx | hx
      · exact ⟨[], a, h, rfl, hx⟩
      · obtain ⟨before, e, after, rfl, hx'⟩ := ih hx
        exact ⟨a :: before, e, after, rfl, hx'⟩
  · rintro ⟨before, e, after, rfl, hx⟩
    rw [gather_append]
    refine List.mem_append_right _ (List.mem_append_left _ ?_)
    show x ∈ f (before ++ []) e
    rwa [List.append_nil]

/-- A history is checked from its first entry on. -/
instance decidableJustified (P : List ε → ε → Prop) [hP : ∀ before e, Decidable (P before e)] :
    (h : List ε) → Decidable (Justified P h)
  | [] => isTrue justified_nil
  | e :: h =>
    have := decidableJustified (fun before x => P (e :: before) x) h
    decidable_of_iff _ justified_cons.symm

end Orbit
