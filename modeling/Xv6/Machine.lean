import Mathlib.Algebra.BigOperators.Fin
import Mathlib.Algebra.Order.BigOperators.Group.Finset
import Mathlib.Logic.Relation

/-!
# Machines driven by labels

A machine is a partial step function `step : σ → α → Option σ`. A label says who
moves and supplies every choice the code does not make, so a step is a function and
`none` means that the label cannot be taken.

`Reach step ok s₀ s` : some run from `s₀` ends in `s`, each label of it admitted by
`ok` in the state it is taken from. With `ok` true these are all runs; a smaller `ok`
states what the steps of a run have to meet. `Reach.invariant` is the induction over a
run, and `reach_of_exec` turns an evaluated list of labels into a run. `Path` is a run with the
states it visits, for a statement about what happened on the way ; a simulation takes it to a
run of another machine (`Path.map`).

A machine of several processes often counts them, or adds up what they hold. When one of
them moves the sum changes by what it had and has (`sum_update_add_of_mem`).
-/

namespace Machine

variable {σ α : Type*}

-- The agents of the small runs in this development are numerals below one, two or four.
instance one_neZero : NeZero 1 := ⟨by decide⟩
instance two_neZero : NeZero 2 := ⟨by decide⟩
instance four_neZero : NeZero 4 := ⟨by decide⟩

/-- The states that runs of admitted steps reach from `s₀`. -/
inductive Reach (step : σ → α → Option σ) (ok : σ → α → Prop) (s₀ : σ) : σ → Prop
  | refl : Reach step ok s₀ s₀
  | tail {s s' : σ} {a : α} :
      Reach step ok s₀ s → ok s a → step s a = some s' → Reach step ok s₀ s'

variable {step : σ → α → Option σ} {ok ok' : σ → α → Prop} {s₀ s s' : σ}

/-- What holds at the start and survives every admitted step holds throughout. -/
theorem Reach.invariant {I : σ → Prop} (h : Reach step ok s₀ s) (h₀ : I s₀)
    (hstep : ∀ s a s', I s → ok s a → step s a = some s' → I s') : I s := by
  induction h with
  | refl => exact h₀
  | tail _ ha hs ih => exact hstep _ _ _ ih ha hs

/-- An invariant of all runs may be used while another one is carried along a run. -/
theorem Reach.invariant_of {I J : σ → Prop} (h : Reach step ok s₀ s)
    (hJ : ∀ s, Reach step ok s₀ s → J s) (h₀ : I s₀)
    (hstep : ∀ s a s', J s → I s → ok s a → step s a = some s' → I s') : I s := by
  induction h with
  | refl => exact h₀
  | tail hr ha hs ih => exact hstep _ _ _ (hJ _ hr) ih ha hs

theorem Reach.mono (h : Reach step ok s₀ s) (hok : ∀ s a, ok s a → ok' s a) :
    Reach step ok' s₀ s := by
  induction h with
  | refl => exact .refl
  | tail _ ha hs ih => exact .tail ih (hok _ _ ha) hs

/-- A run is one of another machine that takes the same steps wherever the run comes. -/
theorem Reach.congr {step' : σ → α → Option σ} {J : σ → Prop} (h : Reach step ok s₀ s)
    (hJ : ∀ s, Reach step ok s₀ s → J s)
    (hstep : ∀ s a s', J s → step s a = some s' → step' s a = some s') : Reach step' ok s₀ s := by
  induction h with
  | refl => exact .refl
  | tail hr ha hs ih => exact .tail ih ha (hstep _ _ _ (hJ _ hr) hs)

theorem Reach.trans (h : Reach step ok s₀ s) (h' : Reach step ok s s') : Reach step ok s₀ s' := by
  induction h' with
  | refl => exact h
  | tail _ ha hs ih => exact .tail ih ha hs

/-- Run a list of labels, stopping at one that is not admitted or cannot be taken. -/
def exec (step : σ → α → Option σ) (ok : σ → α → Prop) [∀ s a, Decidable (ok s a)] :
    σ → List α → Option σ
  | s, [] => some s
  | s, a :: l => if ok s a then (step s a).bind fun s' => exec step ok s' l else none

theorem reach_of_exec (ok : σ → α → Prop) [∀ s a, Decidable (ok s a)] :
    ∀ {l : List α} {s s' : σ}, exec step ok s l = some s' → Reach step ok s s'
  | [], s, s', h => by
    obtain rfl : s = s' := by simpa [exec] using h
    exact .refl
  | a :: l, s, s', h => by
    simp only [exec] at h
    split at h
    case isTrue ha =>
      obtain ⟨t, ht, hrest⟩ := Option.bind_eq_some_iff.mp h
      exact (Reach.refl.tail ha ht).trans (reach_of_exec ok hrest)
    case isFalse => cases h

/-- A run to a state with a decidable property, found by evaluating the run. -/
theorem exists_reach_of_exec (step : σ → α → Option σ) (ok : σ → α → Prop)
    [∀ s a, Decidable (ok s a)] (p : σ → Bool) {l : List α} {s : σ}
    (h : (exec step ok s l).any p = true) : ∃ s', Reach step ok s s' ∧ p s' = true := by
  cases he : exec step ok s l with
  | none => simp [he] at h
  | some s' => exact ⟨s', reach_of_exec ok he, by simpa [he] using h⟩

/-! ## Two machines with the same actions -/

/-- Machines that stay related at each step stay related over every sequence of actions, and stop
at the same ones. -/
theorem rel_foldlM {τ : Type*} {R : σ → τ → Prop} {step : σ → α → Option σ}
    {step' : τ → α → Option τ} (h : ∀ {s t} a, R s t → Option.Rel R (step s a) (step' t a)) :
    ∀ {l : List α} {s : σ} {t : τ}, R s t → Option.Rel R (l.foldlM step s) (l.foldlM step' t)
  | [], _, _, hR => .some hR
  | a :: l, s, t, hR => by
    rw [List.foldlM_cons, List.foldlM_cons]
    cases hs : step s a with
    | none =>
      have := h a hR
      rw [hs] at this
      cases ht : step' t a with
      | none => exact .none
      | some t' =>
        rw [ht] at this
        cases this
    | some s' =>
      have := h a hR
      rw [hs] at this
      cases ht : step' t a with
      | none =>
        rw [ht] at this
        cases this
      | some t' =>
        rw [ht] at this
        obtain ⟨hR'⟩ := this
        exact rel_foldlM h hR'

/-! ## The states of a run -/

/-- A run from `s` to `s'` that visits the states of the list, `s` the first and `s'` the last. -/
inductive Path (step : σ → α → Option σ) (ok : σ → α → Prop) : σ → List σ → σ → Prop
  | refl (s : σ) : Path step ok s [s] s
  | head {s s' s'' : σ} {a : α} {l : List σ} (ha : ok s a) (hs : step s a = some s')
      (h : Path step ok s' l s'') : Path step ok s (s :: l) s''

theorem Path.last_mem {l : List σ} (h : Path step ok s l s') : s' ∈ l := by
  induction h with
  | refl s => exact List.mem_singleton_self s
  | head _ _ _ ih => exact List.mem_cons_of_mem _ ih

/-- What survives every admitted step holds in all states of a run. -/
theorem Path.forall_mem {I : σ → Prop} (hI : ∀ s a s', I s → ok s a → step s a = some s' → I s')
    {l : List σ} (h : Path step ok s l s') : I s → ∀ u ∈ l, I u := by
  induction h with
  | refl s =>
    intro hs u hu
    rwa [List.mem_singleton.mp hu]
  | head ha hs _ ih =>
    intro h₀ u hu
    rcases List.mem_cons.mp hu with rfl | hu
    · exact h₀
    · exact ih (hI _ _ _ h₀ ha hs) u hu

/-- A simulation `f` takes a run to a run of another machine. -/
theorem Path.map {τ β : Type*} {step' : τ → β → Option τ} {ok' : τ → β → Prop} (f : σ → τ)
    {I : σ → Prop} (hI : ∀ s a s', I s → ok s a → step s a = some s' → I s')
    (hf : ∀ s a s', I s → I s' → ok s a → step s a = some s' →
      ∃ b, ok' (f s) b ∧ step' (f s) b = some (f s')) {l : List σ} (h : Path step ok s l s') :
    I s → Path step' ok' (f s) (l.map f) (f s') := by
  induction h with
  | refl s => exact fun _ => .refl (f s)
  | head ha hs _ ih =>
    intro hs₀
    have hs₁ := hI _ _ _ hs₀ ha hs
    obtain ⟨b, hb, hs'⟩ := hf _ _ _ hs₀ hs₁ ha hs
    exact .head hb hs' (ih hs₁)

/-- The states that a list of labels visits. -/
def visits (step : σ → α → Option σ) : σ → List α → List σ
  | s, [] => [s]
  | s, a :: l => s :: match step s a with
    | some s' => visits step s' l
    | none => []

theorem path_of_exec (ok : σ → α → Prop) [∀ s a, Decidable (ok s a)] :
    ∀ {l : List α} {s s' : σ}, exec step ok s l = some s' → Path step ok s (visits step s l) s'
  | [], s, s', h => by
    obtain rfl : s = s' := by simpa [exec] using h
    exact .refl s
  | a :: l, s, s', h => by
    simp only [exec] at h
    split at h
    case isTrue ha =>
      obtain ⟨t, ht, hrest⟩ := Option.bind_eq_some_iff.mp h
      simp only [visits, ht]
      exact .head ha ht (path_of_exec ok hrest)
    case isFalse => cases h

/-- A run, and a path that goes on from it, found by evaluating both. -/
theorem exists_path_of_exec (step : σ → α → Option σ) (ok ok' : σ → α → Prop)
    [∀ s a, Decidable (ok s a)] [∀ s a, Decidable (ok' s a)] (p : σ → List σ → σ → Bool)
    (s₀ : σ) (l l' : List α) (h : (exec step ok s₀ l).any (fun s =>
      (exec step ok' s l').any fun s' => p s (visits step s l') s') = true) :
    ∃ s vs s', Reach step ok s₀ s ∧ Path step ok' s vs s' ∧ p s vs s' = true := by
  obtain ⟨s, hr, hs⟩ := exists_reach_of_exec step ok _ h
  cases he : exec step ok' s l' with
  | none => simp [he] at hs
  | some s' => exact ⟨s, _, s', hr, path_of_exec ok' he, by simpa [he] using hs⟩

/-- What an update of one process keeps is kept for all. -/
theorem update_field {ι κ β : Type*} [DecidableEq ι] (F : κ → β) {ks : ι → κ} {t : ι} {k : κ}
    (h : F k = F (ks t)) (u : ι) : F (Function.update ks t k u) = F (ks u) := by
  by_cases hu : u = t
  · rw [hu, Function.update_self, h]
  · rw [Function.update_of_ne hu]

/-! ## Sums over processes -/

section Sums

variable {ι κ : Type*} [Fintype ι]

theorem le_sum (f : κ → ℕ) (ks : ι → κ) (t : ι) : f (ks t) ≤ ∑ u, f (ks u) :=
  Finset.single_le_sum (f := fun u => f (ks u)) (fun _ _ => Nat.zero_le _) (Finset.mem_univ t)

variable [DecidableEq ι]

omit [Fintype ι] in
theorem sum_update_add_of_mem (f : κ → ℕ) (ks : ι → κ) {S : Finset ι} {t : ι} (ht : t ∈ S) (k : κ) :
    ∑ u ∈ S, f (Function.update ks t k u) + f (ks t) = ∑ u ∈ S, f (ks u) + f k := by
  have h₁ := Finset.add_sum_erase S (fun u => f (ks u)) ht
  have h₂ := Finset.add_sum_erase S (fun u => f (Function.update ks t k u)) ht
  have h₃ : ∑ u ∈ S.erase t, f (Function.update ks t k u) = ∑ u ∈ S.erase t, f (ks u) :=
    Finset.sum_congr rfl fun u hu => by
      rw [Function.update_of_ne (Finset.ne_of_mem_erase hu)]
  simp only [Function.update_self] at h₂
  omega

theorem sum_update_add (f : κ → ℕ) (ks : ι → κ) (t : ι) (k : κ) :
    ∑ u, f (Function.update ks t k u) + f (ks t) = ∑ u, f (ks u) + f k :=
  sum_update_add_of_mem f ks (Finset.mem_univ t) k

theorem sum_update_sub {M : Type*} [AddCommGroup M] (g : ι → M) (t : ι) (x : M) :
    ∑ u, Function.update g t x u = ∑ u, g u + (x - g t) := by
  rw [Finset.sum_update_of_mem (Finset.mem_univ t), Finset.sdiff_singleton_eq_erase,
    Finset.sum_erase_eq_sub (Finset.mem_univ t), add_sub_left_comm]

end Sums

end Machine
