import Mathlib.Logic.Function.Basic

/-!
# Exclusive ownership

Places `ι` hold resources `ρ`, at most one each. `Owns own used` : a resource is used if and
only if some place holds it, and then only one does. So nothing is leaked and nothing is
shared. A place takes an unused resource (`Owns.take`) or gives its resource up
(`Owns.give`) ; a sequence of these keeps the invariant.
-/

open Function

/-- Exactly the used resources are held, each in one place. -/
structure Owns {ι ρ : Type*} (own : ι → Option ρ) (used : ρ → Prop) : Prop where
  used_of : ∀ {x r}, own x = some r → used r
  inj : ∀ {x y r}, own x = some r → own y = some r → x = y
  owner : ∀ {r}, used r → ∃ x, own x = some r

namespace Owns

variable {ι ρ : Type*} [DecidableEq ι] {own : ι → Option ρ} {used used' : ρ → Prop} {x : ι} {r : ρ}

/-- A place that holds nothing takes a resource that is not used. -/
theorem take (h : Owns own used) (hx : own x = none) (hr : ¬ used r)
    (hu : ∀ r', used' r' ↔ r' = r ∨ used r') : Owns (update own x (some r)) used' where
  used_of := by
    intro y r' hy
    by_cases hyx : y = x
    · rw [hyx, update_self] at hy
      exact (hu r').2 (.inl (Option.some.inj hy).symm)
    · rw [update_of_ne hyx] at hy
      exact (hu r').2 (.inr (h.used_of hy))
  inj := by
    intro y z r' hy hz
    by_cases hyx : y = x <;> by_cases hzx : z = x
    · rw [hyx, hzx]
    · rw [hyx, update_self] at hy
      rw [update_of_ne hzx] at hz
      exact absurd (Option.some.inj hy ▸ h.used_of hz) hr
    · rw [update_of_ne hyx] at hy
      rw [hzx, update_self] at hz
      exact absurd (Option.some.inj hz ▸ h.used_of hy) hr
    · rw [update_of_ne hyx] at hy
      rw [update_of_ne hzx] at hz
      exact h.inj hy hz
  owner := by
    intro r' hr'
    rcases (hu r').1 hr' with rfl | hr'
    · exact ⟨x, update_self ..⟩
    · obtain ⟨y, hy⟩ := h.owner hr'
      refine ⟨y, ?_⟩
      have hyx : y ≠ x := by
        rintro rfl
        simp [hx] at hy
      rwa [update_of_ne hyx]

/-- A place gives up what it holds. -/
theorem give (h : Owns own used) (hx : own x = some r) (hu : ∀ r', used' r' ↔ used r' ∧ r' ≠ r) :
    Owns (update own x none) used' where
  used_of := by
    intro y r' hy
    by_cases hyx : y = x
    · simp [hyx] at hy
    · rw [update_of_ne hyx] at hy
      refine (hu r').2 ⟨h.used_of hy, ?_⟩
      rintro rfl
      exact hyx (h.inj hy hx)
  inj := by
    intro y z r' hy hz
    by_cases hyx : y = x
    · simp [hyx] at hy
    · by_cases hzx : z = x
      · simp [hzx] at hz
      · rw [update_of_ne hyx] at hy
        rw [update_of_ne hzx] at hz
        exact h.inj hy hz
  owner := by
    intro r' hr'
    obtain ⟨hr', hne⟩ := (hu r').1 hr'
    obtain ⟨y, hy⟩ := h.owner hr'
    refine ⟨y, ?_⟩
    have hyx : y ≠ x := by
      rintro rfl
      exact hne (Option.some.inj (hy.symm.trans hx))
    rwa [update_of_ne hyx]

end Owns
