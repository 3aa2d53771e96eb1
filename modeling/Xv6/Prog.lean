import Mathlib.Logic.Basic
import Mathlib.Order.Basic

/-!
# Programs that change a state or stop

Kernel code that runs without interference is a function of the state : it returns a value
and a new state, or stops with an error. `wp E m Q s` says that `m`, run in `s`, returns a
value and a state with `Q`, or stops with an error that `E` admits. It computes along the
structure of `m` (`wp_bind` and the other rules are equivalences), and `wp.mono` puts the
specification of a called function in the place of its body.

`zoom` runs a program on a part of the state. `forUp` is the counting loop, with the invariant
rule `wp_forUp`, and `firstFrom` the search for the first number with a property.
-/

variable {σ ε α β : Type}

/-- A program over states `σ` that may stop with an error of `ε`. -/
abbrev Prog (σ ε α : Type) := StateT σ (Except ε) α

namespace Prog

/-- Run in `s`, `m` ends with `Q` or stops with an error that `E` admits. -/
def wp (E : ε → Prop) (m : Prog σ ε α) (Q : α → σ → Prop) (s : σ) : Prop :=
  match m s with
  | .ok (a, s') => Q a s'
  | .error e => E e

variable {E : ε → Prop} {m : Prog σ ε α} {f : α → Prog σ ε β} {Q Q' : α → σ → Prop} {s : σ}

theorem wp.mono (h : wp E m Q s) (hQ : ∀ a s', Q a s' → Q' a s') : wp E m Q' s := by
  unfold wp at h ⊢
  split
  · rename_i heq
    rw [heq] at h
    exact hQ _ _ h
  · rename_i heq
    rw [heq] at h
    exact h

theorem wp.and (h : wp E m Q s) (h' : wp E m Q' s) : wp E m (fun a s' => Q a s' ∧ Q' a s') s := by
  unfold wp at h h' ⊢
  split
  · rename_i heq
    rw [heq] at h h'
    exact ⟨h, h'⟩
  · rename_i heq
    rw [heq] at h
    exact h

@[simp] theorem wp_pure {a : α} {Q : α → σ → Prop} : wp E (pure a) Q s ↔ Q a s := Iff.rfl

@[simp] theorem wp_bind {Q : β → σ → Prop} :
    wp E (m >>= f) Q s ↔ wp E m (fun a => wp E (f a) Q) s := by
  unfold wp
  simp only [bind, StateT.bind, Except.bind]
  cases m s <;> rfl

/-- The rule of sequencing. -/
theorem wp.bind {Q' : β → σ → Prop} (h : wp E m Q s) (hf : ∀ a s', Q a s' → wp E (f a) Q' s') :
    wp E (m >>= f) Q' s :=
  wp_bind.mpr (h.mono hf)

@[simp] theorem wp_map {g : α → β} {Q : β → σ → Prop} :
    wp E (g <$> m) Q s ↔ wp E m (fun a => Q (g a)) s := by
  unfold wp
  simp only [Functor.map, StateT.map, bind, Except.bind]
  cases m s <;> rfl

@[simp] theorem wp_get {Q : σ → σ → Prop} : wp E get Q s ↔ Q s s := Iff.rfl

@[simp] theorem wp_modify {g : σ → σ} {Q : PUnit → σ → Prop} :
    wp E (modify g) Q s ↔ Q ⟨⟩ (g s) := Iff.rfl

@[simp] theorem wp_throw {e : ε} : wp E (throw e : Prog σ ε α) Q s ↔ E e := Iff.rfl

@[simp] theorem wp_ite {c : Prop} [Decidable c] {m' : Prog σ ε α} :
    wp E (if c then m else m') Q s ↔ if c then wp E m Q s else wp E m' Q s := by
  split <;> rfl

/-- What holds of every result. -/
theorem wp.of_forall (hE : ∀ e, E e) (hQ : ∀ a s', Q a s') : wp E m Q s := by
  unfold wp
  split
  · exact hQ _ _
  · exact hE _

/-- What a run that returned has achieved. -/
theorem wp.ok (h : wp E m Q s) {a : α} {s' : σ} (hm : m s = .ok (a, s')) : Q a s' := by
  simpa [wp, hm] using h

theorem wp.error (h : wp E m Q s) {e : ε} (hm : m s = .error e) : E e := by
  simpa [wp, hm] using h

/-- What a program returns is what its run returns. -/
theorem wp.run (h : wp E m Q s) : wp E m (fun a s' => Q a s' ∧ m s = .ok (a, s')) s := by
  unfold wp at h ⊢
  split
  · rename_i heq
    rw [heq] at h
    exact ⟨h, heq⟩
  · rename_i heq
    rw [heq] at h
    exact h

/-- A run that cannot stop with an error returns. -/
theorem wp.returns (h : wp (fun _ => False) m Q s) : ∃ a s', m s = .ok (a, s') ∧ Q a s' := by
  cases hm : m s with
  | ok x => exact ⟨x.1, x.2, rfl, h.ok hm⟩
  | error e => exact (h.error hm).elim

/-- A run of which the result is known returns. -/
theorem returns_of_map {a : α} (h : (m s).map Prod.fst = .ok a) : ∃ s', m s = .ok (a, s') := by
  cases hm : m s with
  | ok x =>
    rw [hm] at h
    cases h
    exact ⟨x.2, rfl⟩
  | error e =>
    rw [hm] at h
    cases h

/-- So does the rest of a run. -/
theorem returns_of_bind {a : α} {b : β} {s' : σ} (hm : m s = .ok (a, s'))
    (h : ((m >>= f) s).map Prod.fst = .ok b) : ∃ s'', f a s' = .ok (b, s'') := by
  simp only [bind, StateT.bind, hm, Except.bind] at h
  exact returns_of_map h

theorem stops_of_bind {a : α} {e : ε} {s' : σ} (hm : m s = .ok (a, s'))
    (h : ((m >>= f) s).map Prod.fst = .error e) : f a s' = .error e := by
  simp only [bind, StateT.bind, hm, Except.bind] at h
  cases hf : f a s' with
  | ok x => simp [hf, Except.map] at h
  | error e' => simpa [hf, Except.map] using h

/-! ## Parts of the state -/

section Zoom

variable {τ δ : Type} {part : σ → τ} {put : τ → σ → σ} {err : δ → ε}

/-- A program over a part of the state. -/
def zoom (part : σ → τ) (put : τ → σ → σ) (err : δ → ε) (m : Prog τ δ α) : Prog σ ε α := fun s =>
  match m (part s) with
  | .ok (a, t) => .ok (a, put t s)
  | .error e => .error (err e)

@[simp] theorem wp_zoom {m : Prog τ δ α} : wp E (zoom part put err m) Q s ↔
    wp (fun e => E (err e)) m (fun a t => Q a (put t s)) (part s) := by
  unfold wp zoom
  cases m (part s) <;> rfl

end Zoom

/-! ## Loops -/

/-- `for (k = i; k < i + n; k++) body(k)` -/
def forUp (body : ℕ → Prog σ ε Unit) : (n i : ℕ) → Prog σ ε Unit
  | 0, _ => pure ()
  | n + 1, i => do
    body i
    forUp body n (i + 1)

/-- The invariant rule : `I k` holds before the round of `k`. -/
theorem wp_forUp {body : ℕ → Prog σ ε Unit} (I : ℕ → σ → Prop) :
    ∀ (n i : ℕ) {s : σ}, (∀ k s, i ≤ k → k < i + n → I k s →
        wp E (body k) (fun _ => I (k + 1)) s) →
      I i s → wp E (forUp body n i) (fun _ => I (i + n)) s
  | 0, _, _, _, h => h
  | n + 1, i, s, hstep, h => by
    simp only [forUp, wp_bind]
    refine (hstep i s (Nat.le_refl i) (by omega) h).mono fun _ s' h' => ?_
    have hrest := wp_forUp I n (i + 1) (fun k s hk hlt => hstep k s (by omega) (by omega)) h'
    simpa only [Nat.add_comm, Nat.add_left_comm] using hrest

/-- The first `k` with `i ≤ k < i + n` that has `p`. -/
def firstFrom (p : ℕ → Bool) : (n i : ℕ) → Option ℕ
  | 0, _ => none
  | n + 1, i => if p i then some i else firstFrom p n (i + 1)

theorem firstFrom_some {p : ℕ → Bool} : ∀ {n i k : ℕ}, firstFrom p n i = some k →
    p k = true ∧ i ≤ k ∧ k < i + n ∧ ∀ j, i ≤ j → j < k → p j = false
  | n + 1, i, k, h => by
    simp only [firstFrom] at h
    split at h
    · cases h
      exact ⟨‹_›, Nat.le_refl _, by omega, fun j hj hlt => by omega⟩
    · rename_i hi
      obtain ⟨hp, hle, hlt, hfirst⟩ := firstFrom_some h
      refine ⟨hp, by omega, by omega, fun j hj hjk => ?_⟩
      by_cases hji : j = i
      · simpa [hji] using hi
      · exact hfirst j (by omega) hjk

theorem firstFrom_none {p : ℕ → Bool} : ∀ {n i : ℕ}, firstFrom p n i = none →
    ∀ k, i ≤ k → k < i + n → p k = false
  | 0, _, _, k, hk, hlt => by omega
  | n + 1, i, h, k, hk, hlt => by
    simp only [firstFrom] at h
    split at h
    · cases h
    · rename_i hi
      by_cases hki : k = i
      · simpa [hki] using hi
      · exact firstFrom_none h k (by omega) (by omega)

end Prog
