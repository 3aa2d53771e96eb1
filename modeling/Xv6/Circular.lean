import Mathlib.Data.List.Basic
import Mathlib.Logic.Function.Iterate
import Mathlib.Order.Basic

/-!
# Segments of linked lists

`Seg next a l z` : following `next` from `a` visits the nodes `l` and then comes to `z`. Segments
are put together and cut with `seg_append`, and a segment depends only on the links of its nodes
(`Seg.frame`). A segment that ends where it begins is a circular list, in which every node is
reached from every other (`Seg.reaches`), and before the walk comes back (`exists_iterate_avoid`).
-/

variable {ν : Type*} {next next' : ν → ν} {a x y z : ν} {l r : List ν}

/-- From `a` through the nodes `l` to `z`. -/
def Seg (next : ν → ν) : ν → List ν → ν → Prop
  | a, [], z => a = z
  | a, x :: l, z => a = x ∧ Seg next (next x) l z

theorem seg_append : Seg next a (l ++ r) z ↔ ∃ b, Seg next a l b ∧ Seg next b r z := by
  induction l generalizing a with
  | nil => exact ⟨fun h => ⟨a, rfl, h⟩, fun ⟨_, h, h'⟩ => h ▸ h'⟩
  | cons x l ih =>
    rw [List.cons_append, Seg, ih]
    exact ⟨fun ⟨h, b, hl, hr⟩ => ⟨b, ⟨h, hl⟩, hr⟩, fun ⟨b, ⟨h, hl⟩, hr⟩ => ⟨h, b, hl, hr⟩⟩

/-- A segment cut before its node `x`. -/
theorem seg_append_cons :
    Seg next a (l ++ x :: r) z ↔ Seg next a l x ∧ Seg next (next x) r z := by
  rw [seg_append]
  exact ⟨fun ⟨_, hl, h, hr⟩ => ⟨h ▸ hl, hr⟩, fun ⟨hl, hr⟩ => ⟨x, hl, rfl, hr⟩⟩

namespace Seg

theorem frame (h : Seg next a l z) (hn : ∀ x ∈ l, next' x = next x) : Seg next' a l z := by
  induction l generalizing a with
  | nil => exact h
  | cons x l ih =>
    refine ⟨h.1, ?_⟩
    rw [hn x List.mem_cons_self]
    exact ih h.2 fun y hy => hn y (List.mem_cons_of_mem x hy)

theorem iterate (h : Seg next a l z) : next^[l.length] a = z := by
  induction l generalizing a with
  | nil => exact h
  | cons x l ih =>
    rw [List.length_cons, Function.iterate_succ_apply, h.1]
    exact ih h.2

/-- Every node of a circular list is reached from every other. -/
theorem reaches (h : Seg next a l a) (hx : x ∈ l) (hy : y ∈ l) :
    ∃ k ≤ 2 * l.length, next^[k] x = y := by
  obtain ⟨l₁, l₂, hl⟩ := List.append_of_mem hx
  obtain ⟨r₁, r₂, hr⟩ := List.append_of_mem hy
  have hback : next^[(x :: l₂).length] x = a := by
    rw [hl, seg_append] at h
    obtain ⟨b, -, hb⟩ := h
    exact hb.1 ▸ hb.iterate
  have hforth : next^[r₁.length] a = y := by
    rw [hr, seg_append_cons] at h
    exact h.1.iterate
  refine ⟨r₁.length + (x :: l₂).length, ?_, ?_⟩
  · have h₁ : l.length = l₁.length + (x :: l₂).length := by rw [hl, List.length_append]
    have h₂ : l.length = r₁.length + (y :: r₂).length := by rw [hr, List.length_append]
    omega
  · rw [Function.iterate_add_apply, hback, hforth]

end Seg

/-- What is reached from `x` is reached before the walk comes back to `x`. -/
theorem exists_iterate_avoid {k : ℕ} (h : next^[k] (next x) = y) :
    ∃ j ≤ k, next^[j] (next x) = y ∧ ∀ i < j, next^[i] (next x) ≠ x := by
  induction k using Nat.strongRecOn with
  | _ k ih =>
    by_cases hback : ∃ i < k, next^[i] (next x) = x
    · obtain ⟨i, hi, hx⟩ := hback
      -- the first `i + 1` steps are a round
      have hround : next^[k - (i + 1)] (next x) = y := by
        rwa [← Nat.sub_add_cancel hi, Function.iterate_add_apply, Function.iterate_succ_apply',
          hx] at h
      obtain ⟨j, hj, hjy⟩ := ih (k - (i + 1)) (by omega) hround
      exact ⟨j, by omega, hjy⟩
    · exact ⟨k, Nat.le_refl k, h, fun i hi hx => hback ⟨i, hi, hx⟩⟩
