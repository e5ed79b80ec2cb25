import Mathlib.Data.Set.Basic

/-!
# Lanes

A state has one lane for each index, and a part that all of them share. An action on a lane leaves
the other lanes alone, what it makes of its own lane depends on that lane only, and so does the map
that it applies to the shared part. Where those maps commute, two actions on different lanes lead to
the same lanes and the same shared part in either order (`ActsOn.commute`).
-/

namespace Orbit

variable {σ ι α ω : Type*}

/-- **An action on the lane `i`**, as a relation between the states before and after it, with maps
of the shared part that are among `F`. -/
structure ActsOn (lane : ι → σ → α) (shared : σ → ω) (F : Set (ω → ω)) (i : ι) (R : σ → σ → Prop) :
    Prop where
  frame : ∀ {s s'}, R s s' → ∀ j, j ≠ i → lane j s' = lane j s
  own : ∀ {s s' t t'}, R s s' → R t t' → lane i t = lane i s → lane i t' = lane i s'
  shared : ∀ {s s' t t'}, R s s' → R t t' → lane i t = lane i s →
    ∃ f ∈ F, shared s' = f (shared s) ∧ shared t' = f (shared t)

namespace ActsOn

variable {lane : ι → σ → α} {shared : σ → ω} {F : Set (ω → ω)} {i j : ι} {R S : σ → σ → Prop}

/-- After both actions the lane of the first one is as after the first one alone. -/
theorem lane_eq (hR : ActsOn lane shared F i R) (hS : ActsOn lane shared F j S) (hij : i ≠ j)
    {s s₁ s₁₂ s₂ s₂₁ : σ} (h₁ : R s s₁) (h₁₂ : S s₁ s₁₂) (h₂ : S s s₂) (h₂₁ : R s₂ s₂₁) :
    lane i s₁₂ = lane i s₂₁ :=
  calc lane i s₁₂ = lane i s₁ := hS.frame h₁₂ i hij
    _ = lane i s₂₁ := (hR.own h₁ h₂₁ (hS.frame h₂ i hij)).symm

/-- **Actions on different lanes commute.** -/
theorem commute (hR : ActsOn lane shared F i R) (hS : ActsOn lane shared F j S) (hij : i ≠ j)
    (hF : ∀ f ∈ F, ∀ g ∈ F, ∀ x, f (g x) = g (f x)) {s s₁ s₁₂ s₂ s₂₁ : σ} (h₁ : R s s₁)
    (h₁₂ : S s₁ s₁₂) (h₂ : S s s₂) (h₂₁ : R s₂ s₂₁) :
    (∀ k, lane k s₁₂ = lane k s₂₁) ∧ shared s₁₂ = shared s₂₁ := by
  constructor
  · intro k
    by_cases hi : k = i
    · exact hi ▸ hR.lane_eq hS hij h₁ h₁₂ h₂ h₂₁
    by_cases hj : k = j
    · exact hj ▸ (hS.lane_eq hR hij.symm h₂ h₂₁ h₁ h₁₂).symm
    · rw [hS.frame h₁₂ k hj, hR.frame h₁ k hi, hR.frame h₂₁ k hi, hS.frame h₂ k hj]
  · obtain ⟨f, hf, e₁, e₂₁⟩ := hR.shared h₁ h₂₁ (hS.frame h₂ i hij)
    obtain ⟨g, hg, e₂, e₁₂⟩ := hS.shared h₂ h₁₂ (hR.frame h₁ j hij.symm)
    rw [e₁₂, e₁, e₂₁, e₂, hF g hg f hf]

end ActsOn

end Orbit
