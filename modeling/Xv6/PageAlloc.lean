import Xv6.Vm

/-!
# The free list

`Pool I s U` : the list that starts at `kmem.freelist` and goes on through the first word of
each page holds exactly the managed pages outside `U`, each once. Pages are named by their
number, the address divided by `PGSIZE`. `kalloc` adds a page to `U` and `kfree` takes one
out, and both leave the contents of all other pages alone (`kalloc_spec`, `kfree_spec`). A
change to pages of `U` keeps the heap (`Pool.frame`).
-/

namespace Xv6

open Prog

theorem PGSIZE_pos : 0 < PGSIZE := Nat.succ_pos 4095

/-- The pages `kinit` puts on the free list. -/
def KernelImage.Managed (I : KernelImage) (p : ℕ) : Prop :=
  I.stop ≤ p * PGSIZE ∧ p * PGSIZE < PHYSTOP

variable {I : KernelImage} {m m' m'' : Ram} {P P' U : Set ℕ} {p a : ℕ}

theorem KernelImage.Managed.pos (h : I.Managed p) : 0 < p := by
  have hge := I.trampoline_ge
  have hlt := I.trampoline_lt
  have hp := h.1
  unfold KERNBASE PGSIZE at *
  omega

theorem KernelImage.Managed.addr_ne_zero (h : I.Managed p) : p * PGSIZE ≠ 0 :=
  Nat.mul_ne_zero h.pos.ne' PGSIZE_pos.ne'

theorem KernelImage.Managed.lt (h : I.Managed p) : p < 2 ^ 20 := by
  have hp := h.2
  unfold PHYSTOP KERNBASE PGSIZE at hp
  omega

/-! ## Pages that stay the same -/

/-- The pages `P` have the same contents in `m` and `m'`. -/
def Agree (m m' : Ram) (P : Set ℕ) : Prop :=
  ∀ a, a / PGSIZE ∈ P → m' a = m a

namespace Agree

theorem refl : Agree m m P := fun _ _ => rfl

theorem trans (h : Agree m m' P) (h' : Agree m' m'' P) : Agree m m'' P := fun a ha =>
  (h' a ha).trans (h a ha)

theorem mono (h : Agree m m' P) (hP : P' ⊆ P) : Agree m m' P' := fun a ha => h a (hP ha)

/-- The entries of a page that is the same. -/
theorem load (h : Agree m m' P) (hp : p ∈ P) {i : ℕ} (hi : i < 512) :
    m'.load 8 (p * PGSIZE + 8 * i) = m.load 8 (p * PGSIZE + 8 * i) := by
  refine Ram.load_congr fun x hx hlt => h x ?_
  have : x / PGSIZE = p := by
    unfold PGSIZE at *
    omega
  rwa [this]

/-- A write inside one page. -/
theorem write {src : ℕ → UInt8} {o n : ℕ} (h : o + n ≤ PGSIZE) :
    Agree m (m.write (p * PGSIZE + o) src n) {p}ᶜ := by
  intro a ha
  refine Ram.write_of_disjoint ?_
  rintro ⟨hle, hlt⟩
  refine ha ?_
  simp only [Set.mem_singleton_iff]
  unfold PGSIZE at *
  omega

/-- The link of a free page that is the same. -/
theorem link (h : Agree m m' P) (hp : p ∈ P) :
    m'.load 8 (p * PGSIZE) = m.load 8 (p * PGSIZE) := by
  simpa using h.load hp (Nat.succ_pos 511)

theorem memset {c : UInt8} : Agree m (m.memset (p * PGSIZE) c PGSIZE) {p}ᶜ := by
  have hw : Agree m (m.write (p * PGSIZE + 0) (fun _ => c) PGSIZE) {p}ᶜ :=
    write (Nat.zero_add PGSIZE).le
  rwa [Nat.add_zero] at hw

theorem memmove {src : ℕ} : Agree m (m.memmove (p * PGSIZE) src PGSIZE) {p}ᶜ := by
  have hw : Agree m (m.write (p * PGSIZE + 0) (fun i => m (src + i)) PGSIZE) {p}ᶜ :=
    write (Nat.zero_add PGSIZE).le
  rwa [Nat.add_zero] at hw

theorem store {i v : ℕ} (hi : i < 512) : Agree m (m.store 8 (p * PGSIZE + 8 * i) v) {p}ᶜ :=
  write (by unfold PGSIZE; omega)

end Agree

/-! ## The heap -/

/-- The pages of the free list, in order. -/
def Phys.Free (s : Phys) (l : List ℕ) : Prop :=
  Chain (s.mem.load 8) 0 s.freelist (l.map (· * PGSIZE))

/-- The free list has exactly the managed pages outside `U`. -/
def Pool (I : KernelImage) (s : Phys) (U : Set ℕ) : Prop :=
  ∃ l : List ℕ, s.Free l ∧ l.Nodup ∧ ∀ p, p ∈ l ↔ I.Managed p ∧ p ∉ U

/-- The pages on the free list. -/
def Phys.freePages (s : Phys) : Set ℕ := {p | ∃ l, s.Free l ∧ p ∈ l}

namespace Pool

variable {s : Phys}

theorem freePages_eq (h : Pool I s U) : s.freePages = {p | I.Managed p ∧ p ∉ U} := by
  obtain ⟨l, hfree, -, hmem⟩ := h
  refine Set.ext fun p => ⟨?_, fun hp => ⟨l, hfree, (hmem p).mpr hp⟩⟩
  rintro ⟨l', hfree', hp⟩
  have hl : l = l' := by
    refine List.map_injective_iff.mpr (fun x y hxy => ?_) (hfree.unique hfree')
    exact Nat.eq_of_mul_eq_mul_right PGSIZE_pos hxy
  exact (hmem p).mp (hl ▸ hp)

/-- A change to used pages keeps the heap. -/
theorem frame {s' : Phys} (h : Pool I s U) (hs : Agree s.mem s'.mem Uᶜ)
    (hf : s'.freelist = s.freelist) : Pool I s' U := by
  obtain ⟨l, hfree, hnd, hmem⟩ := h
  refine ⟨l, ?_, hnd, hmem⟩
  unfold Phys.Free
  rw [hf]
  refine hfree.frame fun r hr => ?_
  obtain ⟨p, hp, rfl⟩ := List.mem_map.mp hr
  exact hs.link ((hmem p).mp hp).2

theorem congr {U' : Set ℕ} (h : Pool I s U) (hU : ∀ p, I.Managed p → (p ∈ U' ↔ p ∈ U)) :
    Pool I s U' := by
  obtain ⟨l, hfree, hnd, hmem⟩ := h
  refine ⟨l, hfree, hnd, fun p => (hmem p).trans ?_⟩
  exact and_congr_right fun hp => not_congr (hU p hp).symm

end Pool

namespace Vm

variable {E : VmPanic → Prop} {s : Phys}

/-- `kalloc` returns 0 if every managed page is used, and a page that was not used if not. -/
theorem kalloc_spec (h : Pool I s U) : wp E kalloc (fun r s' =>
    (r = 0 ∧ s' = s ∧ ∀ p, I.Managed p → p ∈ U) ∨
    ∃ p, r = p * PGSIZE ∧ I.Managed p ∧ p ∉ U ∧ Pool I s' (insert p U) ∧
      Agree s.mem s'.mem {p}ᶜ) s := by
  obtain ⟨l, hfree, hnd, hmem⟩ := h
  unfold Phys.Free at hfree
  simp only [kalloc, load64, Vm.memset, wp_bind, wp_get, wp_pure, wp_ite, wp_modify]
  cases l with
  | nil =>
    have hzero : s.freelist = 0 := hfree
    rw [if_neg (not_not.mpr hzero)]
    refine .inl ⟨hzero, trivial, fun p hp => ?_⟩
    by_contra hU
    simpa using (hmem p).mpr ⟨hp, hU⟩
  | cons p l =>
    obtain ⟨hr, hne, hrest⟩ := hfree
    rw [hr, if_pos hne]
    obtain ⟨hpl, hnd⟩ := List.nodup_cons.mp hnd
    have hp := (hmem p).mp (List.mem_cons_self ..)
    refine .inr ⟨p, rfl, hp.1, hp.2, ⟨l, hrest.frame fun r hr => ?_, hnd, fun q => ?_⟩,
      Agree.memset⟩
    · obtain ⟨q, hq, rfl⟩ := List.mem_map.mp hr
      refine Agree.memset.link ?_
      rintro rfl
      exact hpl hq
    · have hq := hmem q
      rw [List.mem_cons] at hq
      simp only [Set.mem_insert_iff, not_or]
      constructor
      · intro hql
        have := hq.mp (.inr hql)
        exact ⟨this.1, fun he => hpl (he ▸ hql), this.2⟩
      · rintro ⟨hqm, hne, hqU⟩
        exact (hq.mpr ⟨hqm, hqU⟩).resolve_left hne

theorem kfree_spec (h : Pool I s U) (hp : I.Managed p) (hpU : p ∈ U) :
    wp E (kfree I (p * PGSIZE)) (fun _ s' =>
      Pool I s' (U \ {p}) ∧ Agree s.mem s'.mem {p}ᶜ) s := by
  obtain ⟨l, hfree, hnd, hmem⟩ := h
  have hok : ¬ (p * PGSIZE % PGSIZE ≠ 0 ∨ p * PGSIZE < I.stop ∨ PHYSTOP ≤ p * PGSIZE) := by
    rintro (h | h | h)
    · exact h (Nat.mul_mod_left ..)
    · exact absurd hp.1 (by omega)
    · exact absurd hp.2 (by omega)
  simp only [kfree, Vm.memset, store64, wp_bind, wp_get, wp_modify, hok, ↓reduceIte]
  have hstore : Agree (s.mem.memset (p * PGSIZE) 1 PGSIZE)
      ((s.mem.memset (p * PGSIZE) 1 PGSIZE).store 8 (p * PGSIZE) s.freelist) {p}ᶜ := by
    simpa using Agree.store (Nat.succ_pos 511)
  have hsame := Agree.memset.trans hstore
  have hpl : p ∉ l := fun hl => ((hmem p).mp hl).2 hpU
  have hlt : s.freelist < 256 ^ 8 := by
    cases l with
    | nil =>
      rw [show s.freelist = 0 from hfree]
      exact Nat.pow_pos (by omega)
    | cons q l =>
      rw [show s.freelist = q * PGSIZE from hfree.1]
      have := ((hmem q).mp (List.mem_cons_self ..)).1.lt
      unfold PGSIZE
      omega
  refine ⟨⟨p :: l, ⟨rfl, hp.addr_ne_zero, ?_⟩, List.nodup_cons.mpr ⟨hpl, hnd⟩, fun q => ?_⟩,
    hsame⟩
  · rw [Ram.load_store_self, Nat.mod_eq_of_lt hlt]
    refine hfree.frame fun r hr => ?_
    obtain ⟨q, hq, rfl⟩ := List.mem_map.mp hr
    refine hsame.link ?_
    rintro rfl
    exact hpl hq
  · rw [List.mem_cons, hmem, Set.mem_sdiff, Set.mem_singleton_iff]
    by_cases hq : q = p
    · simp [hq, hp]
    · simp [hq]

/-- The pages from `p` on up to the end of memory are freed. -/
theorem freeLoop_spec {pa_end k : ℕ} (h : Pool I s {q | p ≤ q}) (hp : I.stop ≤ p * PGSIZE)
    (hstop : pa_end = PHYSTOP) (hk : pa_end ≤ (p + k) * PGSIZE) :
    wp E (freeLoop I pa_end k (p * PGSIZE)) (fun _ s' => Pool I s' ∅) s := by
  have hend : ∀ {s : Phys} {p : ℕ}, Pool I s {q | p ≤ q} → pa_end ≤ p * PGSIZE →
      Pool I s ∅ := by
    intro s p h hp
    refine h.congr fun q hq => iff_of_false (Set.notMem_empty q) fun hle => ?_
    have hlt := hq.2
    rw [← hstop] at hlt
    exact absurd (hp.trans (Nat.mul_le_mul_right PGSIZE hle)) (Nat.not_le.mpr hlt)
  induction k generalizing s p with
  | zero => exact hend h hk
  | succ k ih =>
    rw [freeLoop]
    by_cases hlt : p * PGSIZE + PGSIZE ≤ pa_end
    · rw [if_pos hlt]
      have hm : I.Managed p := by
        refine ⟨hp, ?_⟩
        rw [← hstop]
        exact Nat.lt_of_lt_of_le (Nat.lt_add_of_pos_right PGSIZE_pos) hlt
      refine (kfree_spec h hm (Nat.le_refl p)).bind fun _ s' h' => ?_
      have hset : ({q | p ≤ q} \ {p} : Set ℕ) = {q | p + 1 ≤ q} :=
        Set.ext fun q => ⟨fun hq => Nat.lt_of_le_of_ne hq.1 (Ne.symm hq.2),
          fun hq => ⟨Nat.le_of_succ_le hq, (Nat.lt_of_succ_le hq).ne'⟩⟩
      rw [hset] at h'
      have hnext : p * PGSIZE + PGSIZE = (p + 1) * PGSIZE := by
        unfold PGSIZE
        omega
      rw [hnext]
      have hk' : pa_end ≤ (p + 1 + k) * PGSIZE := by rwa [Nat.add_right_comm]
      exact ih (p := p + 1) h'.1 (by omega) hk'
    · rw [if_neg hlt]
      have hpages : pa_end = 0x88000 * PGSIZE := hstop
      rw [hpages, ← Nat.succ_mul] at hlt
      rw [hpages] at hend
      exact hend h (Nat.mul_le_mul_right _ (Nat.le_of_lt_succ
        (Nat.lt_of_mul_lt_mul_right (Nat.lt_of_not_le hlt))))

/-- After `kinit` every managed page is free. -/
theorem kinit_spec (hs : s.freelist = 0) : wp E (kinit I) (fun _ s' => Pool I s' ∅) s := by
  have hle := I.stop_le
  have hround : PGROUNDUP I.stop = (I.stop + 4095) / PGSIZE * PGSIZE := by
    have hu : u64 (I.stop + PGSIZE - 1) = I.stop + 4095 := by
      unfold u64 PGSIZE PHYSTOP KERNBASE at *
      omega
    rw [PGROUNDUP, PGROUNDDOWN, hu]
  generalize hp : (I.stop + 4095) / PGSIZE = p at hround
  have hempty : Pool I s {q | p ≤ q} := by
    refine ⟨[], hs, List.nodup_nil, fun q => iff_of_false List.not_mem_nil fun hq => hq.2 ?_⟩
    have := hq.1.1
    show p ≤ q
    unfold PGSIZE at *
    omega
  have hstop : I.stop ≤ p * PGSIZE := by
    unfold PGSIZE at *
    omega
  have hk : PHYSTOP ≤ (p + PHYSTOP / PGSIZE) * PGSIZE := by
    unfold PHYSTOP KERNBASE PGSIZE
    omega
  unfold kinit
  rw [freerange, hround]
  generalize hend : PHYSTOP = e at hk
  generalize e / PGSIZE = k at hk
  exact freeLoop_spec hempty hstop hend.symm hk

end Vm

end Xv6
