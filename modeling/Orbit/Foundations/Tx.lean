import Mathlib.Logic.Basic

/-!
# Computations that fail without undoing what they did

`Tx ε σ α` is the type of computations over a state `σ` that return an `α` or fail with an `ε`. A
failure keeps the state reached so far: undoing a part of it is the work of `transaction`, whose
argument says which part of the state is durable and rolled back, so that what a failed computation
did to the rest of the state stays done. `zoom` runs a computation on a part of the state.

These kinds of statements are made about such computations.

* What a run that returns did: inversion through `bind_eq_ok`, `zoom_eq_ok`, `transaction_eq_ok`.
* What every run does, failed or not: `Keeps R x`, with the rule `Keeps.bind`.
* How a run can fail: inversion through `bind_eq_error`, and `Raises Q x`.
* That a run returns: `Returns P x s` and `Total P x`.
* That a run neither reads nor writes a part of the state: `Ignores put x`.
* That a variant `y` runs like `x` as long as an invariant holds: `Agrees I Q x y`.
* What holds after a run that started in `P`, by how it ended: `Leads P x Q F`.
-/

namespace Orbit

/-- A computation over `σ` that returns an `α` or fails with an `ε`, in both cases in some state. -/
def Tx (ε σ α : Type) : Type := σ → Except ε α × σ

namespace Tx

variable {ε σ τ α β : Type}

instance : Monad (Tx ε σ) where
  pure a := fun s => (.ok a, s)
  bind x f := fun s =>
    match x s with
    | (.ok a, s') => f a s'
    | (.error e, s') => (.error e, s')

theorem bind_assoc_apply (x : Tx ε σ α) {γ : Type} (f : α → Tx ε σ β) (g : β → Tx ε σ γ) (s : σ) :
    (x >>= f >>= g) s = (x >>= fun a => f a >>= g) s := by
  change (match (match x s with | (.ok a, s') => f a s' | (.error e, s') => (.error e, s')) with
    | (.ok b, s') => g b s' | (.error e, s') => (.error e, s')) =
    (match x s with | (.ok a, s') => (f a >>= g) s' | (.error e, s') => (.error e, s'))
  rcases x s with ⟨_ | a, s'⟩ <;> rfl

theorem bind_pure_apply (x : Tx ε σ α) (s : σ) : (x >>= pure) s = x s := by
  change (match x s with | (.ok a, s') => (.ok a, s') | (.error e, s') => (.error e, s')) = x s
  rcases x s with ⟨_ | a, s'⟩ <;> rfl

instance : LawfulMonad (Tx ε σ) :=
  LawfulMonad.mk' _ (fun x => funext (bind_pure_apply x)) (fun _ _ => rfl)
    (fun x f g => funext (bind_assoc_apply x f g))

/-- Fail, in the current state. -/
def fail (e : ε) : Tx ε σ α := fun s => (.error e, s)

/-- Read the state. -/
def get : Tx ε σ σ := fun s => (.ok s, s)

/-- Change the state. -/
def modify (f : σ → σ) : Tx ε σ Unit := fun s => (.ok (), f s)

/-- Return or fail as `r` says. -/
def ofExcept (r : Except ε α) : Tx ε σ α := fun s => (r, s)

/-- Run a computation on a part of the state. -/
def zoom (part : σ → τ) (put : σ → τ → σ) (x : Tx ε τ α) : Tx ε σ α := fun s =>
  ((x (part s)).1, put s (x (part s)).2)

/-- Run `x`; if it fails, `restore s s'` is the state reached `s'` with its durable part as in `s`,
where `x` started. -/
def transaction (restore : σ → σ → σ) (x : Tx ε σ α) : Tx ε σ α := fun s =>
  match x s with
  | (.ok a, s') => (.ok a, s')
  | (.error e, s') => (.error e, restore s s')

@[simp] theorem pure_apply (a : α) (s : σ) : (pure a : Tx ε σ α) s = (.ok a, s) := rfl

@[simp] theorem fail_apply (e : ε) (s : σ) : (fail e : Tx ε σ α) s = (.error e, s) := rfl

@[simp] theorem get_apply (s : σ) : (get : Tx ε σ σ) s = (.ok s, s) := rfl

@[simp] theorem modify_apply (f : σ → σ) (s : σ) : (modify f : Tx ε σ Unit) s = (.ok (), f s) := rfl

@[simp] theorem ofExcept_apply (r : Except ε α) (s : σ) : (ofExcept r : Tx ε σ α) s = (r, s) := rfl

@[simp] theorem pure_bind_apply (a : α) (f : α → Tx ε σ β) (s : σ) :
    (Pure.pure a >>= f : Tx ε σ β) s = f a s := rfl

@[simp] theorem fail_bind_apply (e : ε) (f : α → Tx ε σ β) (s : σ) :
    (fail e >>= f : Tx ε σ β) s = (.error e, s) := rfl

@[simp] theorem get_bind_apply (f : σ → Tx ε σ β) (s : σ) : (get >>= f : Tx ε σ β) s = f s s := rfl

@[simp] theorem modify_bind_apply (g : σ → σ) (f : Unit → Tx ε σ β) (s : σ) :
    (modify g >>= f : Tx ε σ β) s = f () (g s) := rfl

@[simp] theorem ofExcept_ok_bind_apply (a : α) (f : α → Tx ε σ β) (s : σ) :
    (ofExcept (.ok a) >>= f : Tx ε σ β) s = f a s := rfl

@[simp] theorem ofExcept_error_bind_apply (e : ε) (f : α → Tx ε σ β) (s : σ) :
    (ofExcept (.error e) >>= f : Tx ε σ β) s = (.error e, s) := rfl

/-! ## Runs that return -/

theorem bind_apply_ok {x : Tx ε σ α} {s s₁ : σ} {a : α} (h : x s = (.ok a, s₁))
    (f : α → Tx ε σ β) : (x >>= f) s = f a s₁ := by
  change (match x s with | (.ok a, s') => f a s' | (.error e, s') => (.error e, s')) = _
  rw [h]

theorem bind_apply_error {x : Tx ε σ α} {s s₁ : σ} {e : ε} (h : x s = (.error e, s₁))
    (f : α → Tx ε σ β) : (x >>= f) s = (.error e, s₁) := by
  change (match x s with | (.ok a, s') => f a s' | (.error e, s') => (.error e, s')) = _
  rw [h]

theorem bind_congr_apply {x : Tx ε σ α} {f g : α → Tx ε σ β} {s : σ}
    (h : ∀ a s₁, x s = (.ok a, s₁) → f a s₁ = g a s₁) : (x >>= f) s = (x >>= g) s := by
  rcases hx : x s with ⟨e | a, s₁⟩
  · rw [bind_apply_error hx, bind_apply_error hx]
  · rw [bind_apply_ok hx, bind_apply_ok hx]
    exact h a s₁ hx

theorem bind_congr_left {x y : Tx ε σ α} {s : σ} (h : x s = y s) (f : α → Tx ε σ β) :
    (x >>= f) s = (y >>= f) s := by
  rcases hx : x s with ⟨e | a, s₁⟩
  · rw [bind_apply_error hx, bind_apply_error (h.symm.trans hx)]
  · rw [bind_apply_ok hx, bind_apply_ok (h.symm.trans hx)]

theorem pure_eq_ok {a b : α} {s s' : σ} :
    (pure a : Tx ε σ α) s = (.ok b, s') ↔ a = b ∧ s = s' := by
  simp only [pure_apply, Prod.mk.injEq, Except.ok.injEq]

theorem bind_eq_ok {x : Tx ε σ α} {f : α → Tx ε σ β} {s s' : σ} {b : β} :
    (x >>= f) s = (.ok b, s') ↔ ∃ a s₁, x s = (.ok a, s₁) ∧ f a s₁ = (.ok b, s') := by
  rcases hx : x s with ⟨_ | a, s₁⟩
  · rw [bind_apply_error hx]
    simp
  · rw [bind_apply_ok hx]
    simp only [Prod.mk.injEq, Except.ok.injEq]
    exact ⟨fun h => ⟨a, s₁, ⟨rfl, rfl⟩, h⟩, fun ⟨_, _, ⟨rfl, rfl⟩, h⟩ => h⟩

theorem zoom_eq_ok {part : σ → τ} {put : σ → τ → σ} {x : Tx ε τ α} {s s' : σ} {a : α} :
    zoom part put x s = (.ok a, s') ↔ ∃ t, x (part s) = (.ok a, t) ∧ s' = put s t := by
  rcases hx : x (part s) with ⟨r, t⟩
  simp only [zoom, hx, Prod.mk.injEq]
  constructor
  · rintro ⟨rfl, rfl⟩
    exact ⟨t, ⟨rfl, rfl⟩, rfl⟩
  · rintro ⟨_, ⟨rfl, rfl⟩, rfl⟩
    exact ⟨rfl, rfl⟩

theorem transaction_eq_ok {restore : σ → σ → σ} {x : Tx ε σ α} {s s' : σ} {a : α} :
    transaction restore x s = (.ok a, s') ↔ x s = (.ok a, s') := by
  rcases hx : x s with ⟨_ | a, s₁⟩ <;> simp [transaction, hx]

theorem transaction_apply_error {restore : σ → σ → σ} {x : Tx ε σ α} {s s₁ : σ} {e : ε}
    (h : x s = (.error e, s₁)) : transaction restore x s = (.error e, restore s s₁) := by
  simp [transaction, h]

/-! ## What every run does -/

/-- A transitive relation holds across a sequence when it holds across its parts. -/
theorem bind_rel (R : σ → σ → Prop) (ht : ∀ {s₁ s₂ s₃}, R s₁ s₂ → R s₂ s₃ → R s₁ s₃) {x : Tx ε σ α}
    {f : α → Tx ε σ β} {s : σ} (hx : R s (x s).2)
    (hf : ∀ a s₁, x s = (.ok a, s₁) → R s₁ (f a s₁).2) : R s ((x >>= f) s).2 := by
  rcases h : x s with ⟨e | a, s₁⟩
  · rw [bind_apply_error h]
    rwa [h] at hx
  · rw [bind_apply_ok h]
    rw [h] at hx
    exact ht hx (hf a s₁ h)

/-- `R` relates the state before any run of `x` to the state after it. -/
def Keeps (R : σ → σ → Prop) (x : Tx ε σ α) : Prop := ∀ s, R s (x s).2

namespace Keeps

variable {R : σ → σ → Prop}

theorem of_eq {x : Tx ε σ α} (hx : Keeps R x) {s s' : σ} {r : Except ε α} (h : x s = (r, s')) :
    R s s' := by
  have := hx s
  rwa [h] at this

theorem pure (hr : ∀ s, R s s) (a : α) : Keeps R (Pure.pure a : Tx ε σ α) := hr

theorem fail (hr : ∀ s, R s s) (e : ε) : Keeps R (Tx.fail e : Tx ε σ α) := hr

theorem bind (ht : ∀ {s₁ s₂ s₃}, R s₁ s₂ → R s₂ s₃ → R s₁ s₃) {x : Tx ε σ α} {f : α → Tx ε σ β}
    (hx : Keeps R x) (hf : ∀ a, Keeps R (f a)) : Keeps R (x >>= f) := by
  intro s
  exact bind_rel R ht (hx s) fun a s₁ _ => hf a s₁

/-- A sequence whose first part starts from a state other than the one `R` is about. -/
theorem bind_from (ht : ∀ {s₁ s₂ s₃}, R s₁ s₂ → R s₂ s₃ → R s₁ s₃) {x : Tx ε σ α} {f : α → Tx ε σ β}
    {s₀ s : σ} (hx : R s₀ (x s).2) (hf : ∀ a, Keeps R (f a)) : R s₀ ((x >>= f) s).2 := by
  rcases h : x s with ⟨e | a, s₁⟩
  · rw [bind_apply_error h]
    rwa [h] at hx
  · rw [bind_apply_ok h]
    rw [h] at hx
    exact ht hx (hf a s₁)

end Keeps

/-! ## Runs that fail -/

theorem bind_eq_error {x : Tx ε σ α} {f : α → Tx ε σ β} {s s' : σ} {e : ε} :
    (x >>= f) s = (.error e, s') ↔
      x s = (.error e, s') ∨ ∃ a s₁, x s = (.ok a, s₁) ∧ f a s₁ = (.error e, s') := by
  rcases hx : x s with ⟨e₁ | a, s₁⟩
  · rw [bind_apply_error hx]
    simp
  · rw [bind_apply_ok hx]
    simp only [Prod.mk.injEq, reduceCtorEq, false_and, Except.ok.injEq, false_or]
    exact ⟨fun h => ⟨a, s₁, ⟨rfl, rfl⟩, h⟩, fun ⟨_, _, ⟨rfl, rfl⟩, h⟩ => h⟩

theorem zoom_eq_error {part : σ → τ} {put : σ → τ → σ} {x : Tx ε τ α} {s s' : σ} {e : ε}
    (h : zoom part put x s = (.error e, s')) : ∃ t, x (part s) = (.error e, t) :=
  ⟨(x (part s)).2, Prod.ext (Prod.mk.inj h).1 rfl⟩

/-- Every failure of `x` is one of `Q`. -/
def Raises (Q : ε → Prop) (x : Tx ε σ α) : Prop := ∀ s e s', x s = (.error e, s') → Q e

namespace Raises

variable {Q : ε → Prop}

theorem of_ok {x : Tx ε σ α} (hx : ∀ s, ∃ a s', x s = (.ok a, s')) : Raises Q x := by
  intro s e s' h
  obtain ⟨a, s₁, ha⟩ := hx s
  rw [ha] at h
  cases (Prod.mk.inj h).1

theorem pure (a : α) : Raises Q (Pure.pure a : Tx ε σ α) := .of_ok fun s => ⟨a, s, rfl⟩

theorem get : Raises Q (Tx.get : Tx ε σ σ) := .of_ok fun s => ⟨s, s, rfl⟩

theorem modify (f : σ → σ) : Raises Q (Tx.modify f : Tx ε σ Unit) := .of_ok fun s => ⟨(), f s, rfl⟩

theorem fail {e : ε} (he : Q e) : Raises Q (Tx.fail e : Tx ε σ α) := fun _ _ _ h =>
  Except.error.inj (Prod.mk.inj h).1 ▸ he

theorem bind {x : Tx ε σ α} {f : α → Tx ε σ β} (hx : Raises Q x) (hf : ∀ a, Raises Q (f a)) :
    Raises Q (x >>= f) := by
  intro s e s' h
  rcases bind_eq_error.mp h with h | ⟨a, s₁, -, h⟩
  · exact hx s e s' h
  · exact hf a s₁ e s' h

theorem zoom {part : σ → τ} {put : σ → τ → σ} {x : Tx ε τ α} (hx : Raises Q x) :
    Raises Q (Tx.zoom part put x) := fun _ e _ h =>
  have ⟨t, ht⟩ := zoom_eq_error h
  hx _ e t ht

end Raises

/-! ## Runs that have to return -/

/-- `x` returns from `s`, in a state that satisfies `P`. -/
def Returns (P : σ → Prop) (x : Tx ε σ α) (s : σ) : Prop := ∃ a s', x s = (.ok a, s') ∧ P s'

namespace Returns

variable {P : σ → Prop}

theorem pure {s : σ} (hs : P s) (a : α) : Returns P (Pure.pure a : Tx ε σ α) s := ⟨a, s, rfl, hs⟩

theorem bind {x : Tx ε σ α} {f : α → Tx ε σ β} {s s₁ : σ} {a : α} (h : x s = (.ok a, s₁))
    (hf : Returns P (f a) s₁) : Returns P (x >>= f) s := by
  obtain ⟨b, s₂, hb, hp⟩ := hf
  exact ⟨b, s₂, (bind_apply_ok h f).trans hb, hp⟩

theorem zoom {part : σ → τ} {put : σ → τ → σ} {Q : τ → Prop} {x : Tx ε τ α} {s : σ}
    (h : Returns Q x (part s)) (hput : ∀ t, Q t → P (put s t)) :
    Returns P (Tx.zoom part put x) s := by
  obtain ⟨a, t, ha, hq⟩ := h
  exact ⟨a, put s t, zoom_eq_ok.mpr ⟨t, ha, rfl⟩, hput t hq⟩

end Returns

/-- `x` returns from every state that satisfies `P`, in one that does. -/
def Total (P : σ → Prop) (x : Tx ε σ α) : Prop := ∀ s, P s → Returns P x s

namespace Total

variable {P : σ → Prop}

theorem pure (a : α) : Total P (Pure.pure a : Tx ε σ α) := fun _ hs => .pure hs a

theorem bind {x : Tx ε σ α} {f : α → Tx ε σ β} (hx : Total P x) (hf : ∀ a, Total P (f a)) :
    Total P (x >>= f) := by
  intro s hs
  obtain ⟨a, s₁, h₁, hs₁⟩ := hx s hs
  exact .bind h₁ (hf a s₁ hs₁)

end Total

/-! ## Runs that leave a part of the state alone -/

/-- Replacing a part of the state by `put` before `x` is replacing it after `x`. -/
def Ignores {υ : Type} (put : σ → υ → σ) (x : Tx ε σ α) : Prop :=
  ∀ s u, x (put s u) = ((x s).1, put (x s).2 u)

namespace Ignores

variable {υ : Type} {put : σ → υ → σ}

theorem pure (a : α) : Ignores put (Pure.pure a : Tx ε σ α) := fun _ _ => rfl

theorem bind {x : Tx ε σ α} {f : α → Tx ε σ β} (hx : Ignores put x) (hf : ∀ a, Ignores put (f a)) :
    Ignores put (x >>= f) := by
  intro s u
  have hxs := hx s u
  rcases h : x s with ⟨e | a, s₁⟩
  · rw [h] at hxs
    rw [bind_apply_error hxs, bind_apply_error h]
  · rw [h] at hxs
    rw [bind_apply_ok hxs, bind_apply_ok h]
    exact hf a s₁ u

end Ignores

/-! ## Variants -/

/-- From every state that satisfies `I`, `y` runs like `x`, which keeps `I` and returns values that
satisfy `Q`. -/
def Agrees (I : σ → Prop) (Q : α → Prop) (x y : Tx ε σ α) : Prop :=
  ∀ s, I s → y s = x s ∧ I (x s).2 ∧ ∀ a, (x s).1 = .ok a → Q a

namespace Agrees

variable {I : σ → Prop}

theorem pure {Q : α → Prop} {a : α} (ha : Q a) :
    Agrees I Q (Pure.pure a : Tx ε σ α) (Pure.pure a) :=
  fun _ hs => ⟨rfl, hs, fun _ e => Except.ok.inj e ▸ ha⟩

theorem bind {Q : α → Prop} {R : β → Prop} {x y : Tx ε σ α} {f g : α → Tx ε σ β}
    (hx : Agrees I Q x y) (hf : ∀ a, Q a → Agrees I R (f a) (g a)) :
    Agrees I R (x >>= f) (y >>= g) := by
  intro s hs
  obtain ⟨heq, hI, hQ⟩ := hx s hs
  rcases h : x s with ⟨e | a, s₁⟩
  · rw [h] at heq hI
    rw [bind_apply_error h, bind_apply_error heq]
    exact ⟨rfl, hI, fun _ e => by cases e⟩
  · rw [h] at heq hI hQ
    rw [bind_apply_ok h, bind_apply_ok heq]
    exact hf a (hQ a rfl) s₁ hI

end Agrees

/-! ## What a run leads to -/

/-- From every state that satisfies `P`, `x` returns with `Q` or fails with `F`. -/
def Leads (P : σ → Prop) (x : Tx ε σ α) (Q : α → σ → Prop) (F : σ → Prop) : Prop :=
  ∀ s, P s → (∀ a, (x s).1 = .ok a → Q a (x s).2) ∧ (∀ e, (x s).1 = .error e → F (x s).2)

namespace Leads

variable {P : σ → Prop} {Q : α → σ → Prop} {F : σ → Prop}

theorem of_cases {x : Tx ε σ α} (h : ∀ s, P s → (∃ a s', x s = (.ok a, s') ∧ Q a s') ∨
    ∃ e s', x s = (.error e, s') ∧ F s') : Leads P x Q F := by
  intro s hs
  rcases h s hs with ⟨a, s', hx, hq⟩ | ⟨e, s', hx, hf⟩
  · rw [hx]
    exact ⟨fun _ ha => Except.ok.inj ha ▸ hq, fun _ he => by cases he⟩
  · rw [hx]
    exact ⟨fun _ ha => (by cases ha), fun _ _ => hf⟩

/-- Whichever way it ends. -/
theorem state {x : Tx ε σ α} {I : σ → Prop} (h : Leads P x (fun _ => I) I) {s : σ} (hs : P s) :
    I (x s).2 := by
  obtain ⟨hok, herror⟩ := h s hs
  rcases hr : (x s).1 with e | a
  · exact herror e hr
  · exact hok a hr

theorem weaken {x : Tx ε σ α} {P' : σ → Prop} {Q' : α → σ → Prop} {F' : σ → Prop}
    (h : Leads P x Q F) (hP : ∀ s, P' s → P s) (hQ : ∀ a s, Q a s → Q' a s)
    (hF : ∀ s, F s → F' s) : Leads P' x Q' F' := fun s hs =>
  ⟨fun a ha => hQ a _ ((h s (hP s hs)).1 a ha), fun e he => hF _ ((h s (hP s hs)).2 e he)⟩

theorem bind {x : Tx ε σ α} {f : α → Tx ε σ β} {R : β → σ → Prop} (hx : Leads P x Q F)
    (hf : ∀ a, Leads (Q a) (f a) R F) : Leads P (x >>= f) R F := by
  intro s hs
  obtain ⟨hok, herror⟩ := hx s hs
  rcases h : x s with ⟨e | a, s₁⟩
  · rw [h] at herror
    rw [bind_apply_error h]
    exact ⟨fun _ ha => (by cases ha), fun _ _ => herror e rfl⟩
  · rw [h] at hok
    rw [bind_apply_ok h]
    exact hf a s₁ (hok a rfl)

/-- **Loops**, with an invariant that says which elements were handled. -/
theorem forM {γ : Type} {f : γ → Tx ε σ PUnit} {I : List γ → σ → Prop} {F : σ → Prop} {cs : List γ}
    (hf : ∀ done, ∀ c ∈ cs, Leads (I done) (f c) (fun _ => I (done ++ [c])) F) (done : List γ) :
    Leads (I done) (cs.forM f) (fun _ => I (done ++ cs)) F := by
  induction cs generalizing done with
  | nil =>
    rw [List.append_nil]
    exact fun s hs => ⟨fun _ _ => hs, fun _ he => by cases he⟩
  | cons c cs ih =>
    have hrest := ih (fun done x hx => hf done x (List.mem_cons_of_mem c hx)) (done ++ [c])
    rw [List.append_assoc] at hrest
    exact (hf done c List.mem_cons_self).bind fun _ => hrest

end Leads

end Tx

end Orbit
