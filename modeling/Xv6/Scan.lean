import Xv6.Machine

/-!
# Counting cells that change

A scan looks at the cells of an array one after the other and counts those that are set. The
cells change meanwhile, one at a time. What the scan returns need not have been the number of set
cells at any moment. It has been if no cell is cleared during the scan, and if no cell is set
(`Scan.counted_of_rising`, `Scan.counted_of_falling`).

What counts is `Scan.expected`, what the scan would return if nothing changed any more. A look
does not change it. If cells are only set, it stays below the number of set cells, and that number
comes up to it in steps of one.
-/

open Function Machine

/-- Cells, and a scan that has looked at those before `pos`. -/
structure Scan (n : ℕ) where
  cell : Fin n → Bool
  pos : ℕ
  sum : ℕ

inductive ScanAct (n : ℕ)
  | look
  | set (i : Fin n) (b : Bool)

namespace Scan

variable {n : ℕ} {s s' : Scan n}

def step (s : Scan n) : ScanAct n → Option (Scan n)
  | .look =>
    if h : s.pos < n then some ⟨s.cell, s.pos + 1, s.sum + (s.cell ⟨s.pos, h⟩).toNat⟩ else none
  | .set i b => some { s with cell := update s.cell i b }

/-- The number of set cells. -/
def count (s : Scan n) : ℕ := ∑ i, (s.cell i).toNat

/-- The set cells from `k` on. -/
def rest (s : Scan n) (k : ℕ) : ℕ := ∑ i : Fin n, if k ≤ i then (s.cell i).toNat else 0

def expected (s : Scan n) : ℕ := s.sum + s.rest s.pos

/-- The step clears no cell. -/
def Rising (s : Scan n) : ScanAct n → Prop
  | .look => True
  | .set i b => s.cell i = true → b = true

/-- The step sets no cell. -/
def Falling (s : Scan n) : ScanAct n → Prop
  | .look => True
  | .set i b => b = true → s.cell i = true

theorem rest_zero : s.rest 0 = s.count := by simp [rest, count]

theorem rest_last : s.rest n = 0 := by
  refine Finset.sum_eq_zero fun i _ => if_neg ?_
  omega

theorem rest_succ {k : ℕ} (h : k < n) : s.rest k = (s.cell ⟨k, h⟩).toNat + s.rest (k + 1) := by
  have hsplit : ∀ i : Fin n, (if k ≤ i then (s.cell i).toNat else 0) =
      (if i = ⟨k, h⟩ then (s.cell i).toNat else 0) +
        if k + 1 ≤ i then (s.cell i).toNat else 0 := by
    intro i
    by_cases hi : i = ⟨k, h⟩
    · subst hi
      simp
    · have hne : i.val ≠ k := fun heq => hi (Fin.ext heq)
      by_cases hk : k ≤ i.val
      · simp [hi, hk, show k + 1 ≤ i.val by omega]
      · simp [hi, hk, show ¬ k + 1 ≤ i.val by omega]
  rw [rest, Finset.sum_congr rfl fun i _ => hsplit i, Finset.sum_add_distrib]
  simp [rest]

theorem expected_look (h : s.pos < n) :
    expected ⟨s.cell, s.pos + 1, s.sum + (s.cell ⟨s.pos, h⟩).toNat⟩ = s.expected := by
  have := s.rest_succ h
  simp only [expected]
  change _ + s.rest (s.pos + 1) = _
  omega

theorem rest_set (i : Fin n) (b : Bool) (k : ℕ) :
    rest { s with cell := update s.cell i b } k + (if k ≤ i then (s.cell i).toNat else 0) =
      s.rest k + if k ≤ i then b.toNat else 0 := by
  have hcell : ∀ j : Fin n, (if k ≤ j then (update s.cell i b j).toNat else 0) +
      (if j = i then if k ≤ i then (s.cell i).toNat else 0 else 0) =
      (if k ≤ j then (s.cell j).toNat else 0) +
        if j = i then if k ≤ i then b.toNat else 0 else 0 := by
    intro j
    by_cases hj : j = i
    · subst hj
      simp [Nat.add_comm]
    · simp [hj]
  have hsum := Finset.sum_congr rfl fun j (_ : j ∈ Finset.univ) => hcell j
  simpa [Finset.sum_add_distrib, rest] using hsum

/-- A cell that is set may still be counted, and adds one to the number of set cells. -/
theorem set_rising {i : Fin n} {b : Bool} (h : s.cell i = true → b = true) :
    s.expected ≤ expected { s with cell := update s.cell i b } ∧
    expected { s with cell := update s.cell i b } + s.count ≤
      count { s with cell := update s.cell i b } + s.expected ∧
    count { s with cell := update s.cell i b } ≤ s.count + 1 := by
  have hrest := s.rest_set i b s.pos
  have hall := s.rest_set i b 0
  have hle : (s.cell i).toNat ≤ b.toNat ∧ b.toNat ≤ 1 := by
    refine ⟨?_, Bool.toNat_le b⟩
    cases hc : s.cell i with
    | false => exact Nat.zero_le _
    | true => rw [h hc]
  rw [rest_zero, rest_zero, if_pos (Nat.zero_le _), if_pos (Nat.zero_le _)] at hall
  simp only [expected]
  split at hrest <;> omega

variable {a : ScanAct n} {l : List (Scan n)}

theorem pos_le (h : s.pos ≤ n) (hs : s.step a = some s') : s'.pos ≤ n := by
  cases a with
  | look =>
    simp only [step] at hs
    split at hs <;> cases hs
    assumption
  | set i b =>
    cases hs
    exact h

/-- Once the scan has seen all cells, its result does not change. -/
theorem sum_of_done {ok : Scan n → ScanAct n → Prop} (h : Path step ok s l s') :
    n ≤ s.pos → s'.sum = s.sum := by
  induction h with
  | refl => exact fun _ => rfl
  | @head s s₁ s₂ a l ha hs _ ih =>
    intro hpos
    cases a with
    | look => simp [step, Nat.not_lt.mpr hpos] at hs
    | set i b =>
      cases hs
      exact ih hpos

/-- The result is at least what was expected at some moment. -/
theorem expected_le (h : Path step Rising s l s') :
    s.pos ≤ n → s'.pos = n → s.expected ≤ s'.sum := by
  induction h with
  | refl s =>
    intro _ hend
    simp [expected, hend, rest_last]
  | @head s s₁ s₂ a l ha hs _ ih =>
    intro hpos hend
    cases a with
    | look =>
      simp only [step] at hs
      split at hs
      · rename_i hlt
        cases hs
        rw [← expected_look hlt]
        exact ih hlt hend
      · cases hs
    | set i b =>
      cases hs
      exact (set_rising ha).1.trans (ih hpos hend)

theorem counted_from (h : Path step Rising s l s') :
    s.pos < n → s'.pos = n → s.expected ≤ s.count → s.count ≤ s'.sum →
      ∃ u ∈ l, u.pos < n ∧ u.count = s'.sum := by
  induction h with
  | refl s =>
    intro hpos hend
    omega
  | @head s s₁ s₂ a l ha hs hrest ih =>
    intro hpos hend hexp hle
    by_cases heq : s.count = s₂.sum
    · exact ⟨s, List.mem_cons_self, hpos, heq⟩
    have hnext : ∀ {t}, step s a = some t → t.pos < n → t.expected ≤ t.count →
        t.count ≤ s.count + 1 → ∃ u ∈ s :: l, u.pos < n ∧ u.count = s₂.sum := by
      intro t ht hlt hexp' hcount
      obtain rfl := Option.some.inj (ht.symm.trans hs)
      obtain ⟨u, hu, hres⟩ := ih hlt hend hexp' (by omega)
      exact ⟨u, List.mem_cons_of_mem _ hu, hres⟩
    cases a with
    | look =>
      have hs' := hs
      simp only [step, dif_pos hpos] at hs
      cases hs
      by_cases hlast : s.pos + 1 < n
      · exact hnext hs' hlast (by rw [expected_look hpos]; exact hexp) (Nat.le_succ _)
      · -- the last look : the result is the sum now
        have hsum := sum_of_done hrest (Nat.not_lt.mp hlast)
        have hdone := expected_look hpos (s := s)
        have hlast' : s.pos + 1 = n := by omega
        simp only [expected, hlast'] at hdone hsum
        rw [rest_last] at hdone
        simp only [expected] at hexp
        omega
    | set i b =>
      obtain ⟨-, hgap, hone⟩ := set_rising ha
      exact hnext rfl (by cases hs; exact hpos) (by omega) hone

/-- A scan during which no cell is cleared returns the number of set cells at some moment between
its first and its last look. -/
theorem counted_of_rising (h : Path step Rising s l s') (hn : 0 < n) (hpos : s.pos = 0)
    (hsum : s.sum = 0) (hend : s'.pos = n) : ∃ u ∈ l, u.pos < n ∧ u.count = s'.sum := by
  have hexp : s.expected = s.count := by simp [expected, hpos, hsum, rest_zero]
  exact counted_from h (by omega) hend hexp.le (hexp ▸ expected_le h (by omega) hend)

/-! ## The other way round -/

/-- Count the cells that are not set. -/
def neg (s : Scan n) : Scan n := ⟨fun i => !s.cell i, s.pos, s.pos - s.sum⟩

theorem count_neg : s.neg.count + s.count = n := by
  have hcell : ∀ i, (!s.cell i).toNat + (s.cell i).toNat = 1 := fun i => by cases s.cell i <;> rfl
  rw [count, count, ← Finset.sum_add_distrib]
  simp [neg, hcell]

theorem sum_le_pos (h : s.sum ≤ s.pos) (hs : s.step a = some s') : s'.sum ≤ s'.pos := by
  cases a with
  | look =>
    simp only [step] at hs
    split at hs <;> cases hs
    exact Nat.add_le_add h (Bool.toNat_le _)
  | set i b =>
    cases hs
    exact h

theorem step_neg (h : s.sum ≤ s.pos) (ha : Falling s a) (hs : s.step a = some s') :
    ∃ b, Rising s.neg b ∧ step s.neg b = some s'.neg := by
  cases a with
  | look =>
    simp only [step] at hs
    split at hs <;> cases hs
    rename_i hlt
    refine ⟨.look, trivial, ?_⟩
    have hsum : s.pos + 1 - (s.sum + (s.cell ⟨s.pos, hlt⟩).toNat) =
        s.pos - s.sum + (!s.cell ⟨s.pos, hlt⟩).toNat := by
      cases s.cell ⟨s.pos, hlt⟩ with
      | false =>
        simp
        omega
      | true => simp
    simp [step, neg, hlt, hsum]
  | set i b =>
    cases hs
    refine ⟨.set i !b, fun hc => ?_, ?_⟩
    · cases b with
      | false => rfl
      | true => simp [neg, ha rfl] at hc
    · simp only [step, neg, Option.some.injEq, Scan.mk.injEq, and_true]
      funext j
      by_cases hj : j = i
      · subst hj
        simp
      · simp [hj]

theorem counted_of_falling (h : Path step Falling s l s') (hn : 0 < n) (hpos : s.pos = 0)
    (hsum : s.sum = 0) (hend : s'.pos = n) : ∃ u ∈ l, u.pos < n ∧ u.count = s'.sum := by
  have hle := h.forall_mem (I := fun s => s.sum ≤ s.pos) (fun _ _ _ hi _ hs => sum_le_pos hi hs)
    (by omega) s' h.last_mem
  have hneg : Path step Rising s.neg (l.map neg) s'.neg :=
    h.map neg (I := fun s => s.sum ≤ s.pos) (fun _ _ _ hi _ hs => sum_le_pos hi hs)
      (fun _ _ _ hi _ ha hs => step_neg hi ha hs) (by omega)
  obtain ⟨u, hu, hlt, hcount⟩ := counted_of_rising hneg hn hpos (by simp [neg, hpos]) hend
  obtain ⟨w, hw, rfl⟩ := List.mem_map.mp hu
  refine ⟨w, hw, hlt, ?_⟩
  have := w.count_neg
  simp only [neg, hend] at hcount
  simp only [neg] at this
  omega

end Scan
