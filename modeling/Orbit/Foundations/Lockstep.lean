import Orbit.Foundations.Tx

/-!
# Two runs in lockstep

`Simulates R Q x y` compares a run of `x` with one of `y`, over states that need not be of one type:
from states related by `R` both return, values related by `Q`, or both fail, and the states they
reach are related again. What a failure says is not compared.

* The rules: `Simulates.pure`, `Simulates.bind`, `Simulates.ite`, `Simulates.zoom`,
  `Simulates.transaction`.
* A computation that does not see the difference between `s` and `g s` runs in lockstep with itself
  from states that `g` maps to one: `Ignores.simulates`.
-/

namespace Orbit.Tx

variable {ε σ τ υ φ α β γ δ : Type}

/-- Both runs return, related values, or both fail. -/
inductive Matches (Q : α → β → Prop) : Except ε α → Except ε β → Prop
  | ok {a : α} {b : β} (h : Q a b) : Matches Q (.ok a) (.ok b)
  | error (e e' : ε) : Matches Q (.error e) (.error e')

/-- Both runs end alike, in related states. -/
def Lockstep (R : σ → τ → Prop) (Q : α → β → Prop) (p : Except ε α × σ)
    (q : Except ε β × τ) : Prop :=
  Matches Q p.1 q.1 ∧ R p.2 q.2

/-- From related states `x` and `y` run in lockstep. -/
def Simulates (R : σ → τ → Prop) (Q : α → β → Prop) (x : Tx ε σ α) (y : Tx ε τ β) : Prop :=
  ∀ s t, R s t → Lockstep R Q (x s) (y t)

variable {R : σ → τ → Prop} {Q : α → β → Prop} {P : γ → δ → Prop}

/-- The rule of `bind`, at two states. -/
theorem Lockstep.bind {x : Tx ε σ α} {y : Tx ε τ β} {f : α → Tx ε σ γ}
    {g : β → Tx ε τ δ} {s : σ} {t : τ}
    (hx : Lockstep R Q (x s) (y t)) (hf : ∀ a b s' t', x s = (.ok a, s') →
      y t = (.ok b, t') → Q a b →
      R s' t' → Lockstep R P (f a s') (g b t')) : Lockstep R P ((x >>= f) s) ((y >>= g) t) := by
  rcases hxs : x s with ⟨r, s'⟩
  rcases hyt : y t with ⟨r', t'⟩
  rw [hxs, hyt] at hx
  obtain ⟨hmatch, hR⟩ := hx
  cases hmatch with
  | ok h =>
    rw [bind_apply_ok hxs, bind_apply_ok hyt]
    exact hf _ _ _ _ hxs hyt h hR
  | error e e' =>
    rw [bind_apply_error hxs, bind_apply_error hyt]
    exact ⟨.error e e', hR⟩

namespace Simulates

theorem pure {a : α} {b : β} (h : Q a b) :
    Simulates R Q (Pure.pure a : Tx ε σ α) (Pure.pure b : Tx ε τ β) := fun _ _ hR => ⟨.ok h, hR⟩

theorem fail (e e' : ε) : Simulates R Q (Tx.fail e : Tx ε σ α) (Tx.fail e' : Tx ε τ β) :=
  fun _ _ hR => ⟨.error e e', hR⟩

theorem bind {x : Tx ε σ α} {y : Tx ε τ β} {f : α → Tx ε σ γ} {g : β → Tx ε τ δ}
    (hx : Simulates R Q x y)
    (hf : ∀ a b, Q a b → Simulates R P (f a) (g b)) : Simulates R P (x >>= f) (y >>= g) :=
  fun s t hR => (hx s t hR).bind fun a b s' t' _ _ hQ hR' => hf a b hQ s' t' hR'

theorem ite {c : Prop} [Decidable c] {x x' : Tx ε σ α} {y y' : Tx ε τ β}
    (hx : c → Simulates R Q x y)
    (hx' : ¬c → Simulates R Q x' y') :
    Simulates R Q (if c then x else x') (if c then y else y') := by
  split
  · exact hx ‹_›
  · exact hx' ‹_›

/-- Computations on a part of the state. -/
theorem zoom {T : υ → φ → Prop} {x : Tx ε υ α} {y : Tx ε φ β} {part : σ → υ} {put : σ → υ → σ}
    {part' : τ → φ} {put' : τ → φ → τ} (hx : Simulates T Q x y)
    (hpart : ∀ s t, R s t → T (part s) (part' t))
    (hput : ∀ s t u v, R s t → T u v → R (put s u) (put' t v)) :
    Simulates R Q (Tx.zoom part put x) (Tx.zoom part' put' y) := by
  intro s t hR
  obtain ⟨hmatch, hT⟩ := hx _ _ (hpart s t hR)
  exact ⟨hmatch, hput s t _ _ hR hT⟩

/-- A transaction that fails puts related durable parts back. -/
theorem transaction {x : Tx ε σ α} {y : Tx ε τ β} {restore : σ → σ → σ} {restore' : τ → τ → τ}
    (hx : Simulates R Q x y)
    (hrestore : ∀ s t s' t', R s t → R s' t' → R (restore s s') (restore' t t')) :
    Simulates R Q (Tx.transaction restore x) (Tx.transaction restore' y) := by
  intro s t hR
  have hrun := hx s t hR
  unfold Tx.transaction
  rcases hxs : x s with ⟨r, s'⟩
  rcases hyt : y t with ⟨r', t'⟩
  rw [hxs, hyt] at hrun
  obtain ⟨hmatch, hR'⟩ := hrun
  cases hmatch with
  | ok h => exact ⟨.ok h, hR'⟩
  | error e e' => exact ⟨.error e e', hrestore s t s' t' hR hR'⟩

end Simulates

/-- A computation that leaves alone what `g` changes runs in lockstep with itself. -/
theorem Ignores.simulates {g : σ → σ} {x : Tx ε σ α} (hx : Ignores (fun s (_ : Unit) => g s) x) :
    Simulates (fun s t => g s = g t) Eq x x := by
  intro s t hR
  have hs : x (g s) = ((x s).1, g (x s).2) := hx s ()
  have ht : x (g t) = ((x t).1, g (x t).2) := hx t ()
  have heq := hs.symm.trans ((congrArg x hR).trans ht)
  rw [Prod.mk.injEq] at heq
  refine ⟨?_, heq.2⟩
  rw [heq.1]
  rcases (x t).1 with e | a
  · exact .error e e
  · exact .ok rfl

end Orbit.Tx
