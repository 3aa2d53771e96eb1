import Xv6.Kern
import Xv6.PageFree

/-!
# The address space of a process

The page table of a process maps the user's pages from 0 on, and the trampoline and the
trapframe in the two highest pages (`Kern.Proc.Shaped`). `proc_pagetable` makes such a table
without pages of the user or leaves the free list as it was, and `proc_freepagetable` gives
all pages of the table and the user back. `growproc` changes the size by what was asked, unless
it is asked for a size below 0 (`growproc_exact`).
-/

namespace Xv6

open Function Prog Vm

variable {I : KernelImage} {K : Set ℕ} {s s' : Phys} {p n t : ℕ} {X : ℕ → ℕ}

/-! ## Pages above the user's -/

namespace Vm

variable {E : VmPanic → Prop}

namespace Space

/-- The entry of one of the two highest pages changes. -/
theorem setTop {v e : ℕ} (h : Space I K s p n X) (htop : 2 ^ 26 - 2 ≤ v)
    (hr : Rooted I (K ∪ mapped s.mem p 0 n) s' 2 p)
    (hpte : ∀ w < 2 ^ 27, pte s'.mem p w = if w = v then e else pte s.mem p w) :
    Space I K s' p n (update X v e) := by
  have hle := h.le
  refine h.of_low hr (fun w hw => ?_) (fun w hw hnw => ?_) (fun w hw => ?_) h.apart
  · rw [hpte w (by omega), if_neg (by omega)]
  · rw [hpte w hw, update_apply, h.above w hw hnw]
  · rw [update_of_ne (by omega)]
    exact h.low w hw

/-- One of the two highest pages is mapped. -/
theorem mapTop {v pa perm : ℕ} (h : Space I K s p n X) (hv : v < 2 ^ 26) (htop : 2 ^ 26 - 2 ≤ v)
    (hX : X v = 0) (hpa : pa < 2 ^ 64) (hperm : perm < 2 ^ 64) :
    wp E (mappages (p * PGSIZE) (v * PGSIZE) PGSIZE pa perm) (fun x s' =>
      Kept K s.mem s'.mem p n ∧
      (x = 0 ∧ Space I K s' p n (update X v (mapEntry pa perm 0)) ∨
        x = -1 ∧ Space I K s' p n X)) s := by
  have hle := h.le
  refine (h.mapOne hv (by omega) hX hpa hperm).mono fun x s' h' => ?_
  exact ⟨h'.1, h'.2.imp_left fun hx => ⟨hx.1, h.setTop htop hx.2.1 hx.2.2⟩⟩

/-- One of the two highest pages is not mapped any more. -/
theorem unmapTop {v : ℕ} (h : Space I K s p n X) (hv : v < 2 ^ 26) (htop : 2 ^ 26 - 2 ≤ v)
    (hX : IsLeaf (X v)) :
    wp E (uvmunmap I (p * PGSIZE) (v * PGSIZE) 1 false) (fun _ s' =>
      Kept K s.mem s'.mem p n ∧ Space I K s' p n (update X v 0)) s := by
  have hle := h.le
  refine (uvmunmap_spec h.rooted (by omega) (.inl (by omega)) (.inl fun w hw => ?_)
    fun hd => absurd hd (by decide)).mono fun _ s' h' => ?_
  · obtain rfl : w = v := by
      have := hw.2
      omega
    rw [h.above w (by omega) (by omega)]
    exact hX
  obtain ⟨-, hr, hs, hpte⟩ := h'
  refine ⟨⟨hs, fun w hw => ?_⟩, h.setTop htop hr fun w hw => ?_⟩
  · rw [hpte w (by omega), if_neg (by omega)]
  · rw [hpte w hw]
    exact if_congr (by omega) rfl rfl

end Space

theorem isLeaf_mapEntry {q perm : ℕ} (hq : q < 2 ^ 52) (hperm : perm < 2 ^ 10)
    (hleaf : perm ||| PTE_V ≠ PTE_V) : IsLeaf (mapEntry (q * PGSIZE) perm 0) := by
  obtain ⟨-, hV, hflags⟩ := mapEntry_page hq hperm
  exact ⟨hV, by rwa [hflags]⟩

theorem uvmcreate_spec (h : Pool I s K) : wp E uvmcreate (fun x s' =>
    x = 0 ∧ s' = s ∨ ∃ r, x = r * PGSIZE ∧ I.Managed r ∧ Space I K s' r 0 (fun _ => 0) ∧
      Agree s.mem s'.mem K) s := by
  simp only [uvmcreate]
  refine (kalloc_spec h).bind fun x s₁ hx => ?_
  rcases hx with ⟨rfl, rfl, -⟩ | ⟨r, rfl, hr, hrK, hheap, hs⟩
  · rw [if_pos rfl]
    exact .inl ⟨rfl, rfl⟩
  rw [if_neg hr.addr_ne_zero]
  refine wp_bind.mpr (wp_modify.mpr (.inr ⟨r, rfl, hr, ?_, ?_⟩))
  · have hzero : ∀ i < 512, entry (s₁.mem.memset (r * PGSIZE) 0 PGSIZE) r i = 0 := fun i hi => by
      rw [entry_memset hi, if_pos rfl]
    have hheap' : Pool I { s₁ with mem := s₁.mem.memset (r * PGSIZE) 0 PGSIZE } (insert r K) := by
      refine hheap.frame (Agree.memset.mono fun x hx he => hx (.inl ?_)) rfl
      exact Set.mem_singleton_iff.mp he
    refine ⟨?_, fun v hv => absurd hv (by omega), fun v hv => absurd hv (by omega),
      fun v hv => absurd hv (by omega), fun v hv => absurd hv (by omega),
      fun v _ _ => pte_empty hzero, fun _ _ => rfl⟩
    rw [mapped_zero, Set.union_empty]
    exact rooted_empty hr hrK hheap' hzero
  · have hsub : K ⊆ ({r}ᶜ : Set ℕ) := fun x hx he => hrK (Set.mem_singleton_iff.mp he ▸ hx)
    exact (hs.mono hsub).trans (Agree.memset.mono hsub)

end Vm

/-! ## The page table of a process -/

/-- The entries above the user's pages : the trampoline, and the trapframe in page `t`. -/
def kernelLeaves (I : KernelImage) (t : ℕ) : ℕ → ℕ :=
  update (update (fun _ => 0) (2 ^ 26 - 1) (mapEntry I.trampoline (PTE_R ||| PTE_X) 0))
    (2 ^ 26 - 2) (mapEntry (t * PGSIZE) (PTE_R ||| PTE_W) 0)

theorem TRAMPOLINE_eq : TRAMPOLINE = (2 ^ 26 - 1) * PGSIZE := by decide

theorem TRAPFRAME_eq : TRAPFRAME = (2 ^ 26 - 2) * PGSIZE := by decide

theorem KernelImage.trampoline_leaf (I : KernelImage) :
    IsLeaf (mapEntry I.trampoline (PTE_R ||| PTE_X) 0) := by
  have hal := I.trampoline_aligned
  have hlt := I.trampoline_lt
  have hle := I.stop_le
  have hq : I.trampoline = I.trampoline / PGSIZE * PGSIZE := by
    unfold PGSIZE at *
    omega
  rw [hq]
  refine isLeaf_mapEntry ?_ (by decide) (by decide)
  unfold PHYSTOP KERNBASE PGSIZE at *
  omega

namespace Kern

variable {E : VmPanic → Prop}

theorem proc_pagetable_spec (h : Pool I s K) (ht : t < 2 ^ 52) :
    wp E (proc_pagetable I (t * PGSIZE)) (fun x s' => Agree s.mem s'.mem K ∧
      (x = 0 ∧ Pool I s' K ∨
        ∃ r, x = r * PGSIZE ∧ I.Managed r ∧ Space I K s' r 0 (kernelLeaves I t))) s := by
  have hpa : I.trampoline < 2 ^ 64 := by
    have := I.trampoline_lt
    have := I.stop_le
    unfold PHYSTOP KERNBASE at *
    omega
  have hta : t * PGSIZE < 2 ^ 64 := by
    unfold PGSIZE
    omega
  simp only [proc_pagetable]
  refine (uvmcreate_spec h).bind fun x s₁ hx => ?_
  rcases hx with ⟨rfl, rfl⟩ | ⟨r, rfl, hr, h₁, hs₁⟩
  · rw [if_pos rfl]
    exact ⟨.refl, .inl ⟨rfl, h⟩⟩
  rw [if_neg hr.addr_ne_zero, TRAMPOLINE_eq, TRAPFRAME_eq]
  refine (h₁.mapTop (by omega) (by omega) rfl hpa (by decide)).bind
    fun x s₂ h₂ => ?_
  obtain ⟨hk₂, ⟨rfl, h₂⟩ | ⟨rfl, h₂⟩⟩ := h₂
  · have hs₂ := hs₁.trans (hk₂.same.mono Set.subset_union_left)
    rw [if_neg (by decide)]
    refine (h₂.mapTop (by omega) (by omega)
      (by rw [update_of_ne (by omega)]) hta (by decide)).bind fun x s₃ h₃ => ?_
    obtain ⟨hk₃, ⟨rfl, h₃⟩ | ⟨rfl, h₃⟩⟩ := h₃
    · rw [if_neg (by decide)]
      exact ⟨hs₂.trans (hk₃.same.mono Set.subset_union_left), .inr ⟨r, rfl, hr, h₃⟩⟩
    · rw [if_pos (by decide)]
      have hs₃ := hs₂.trans (hk₃.same.mono Set.subset_union_left)
      refine (h₃.unmapTop (by omega) (by omega)
        (by rw [update_self]; exact I.trampoline_leaf)).bind fun _ s₄ h₄ => ?_
      refine (uvmfree_spec h₄.2 (pages_mul 0) fun v => ?_).bind fun _ s₅ h₅ => ?_
      · rw [update_idem, update_apply]
        split <;> rfl
      · exact ⟨(hs₃.trans (h₄.1.same.mono Set.subset_union_left)).trans h₅.2, .inl ⟨rfl, h₅.1⟩⟩
  · rw [if_pos (by decide)]
    refine (uvmfree_spec h₂ (pages_mul 0) fun _ => rfl).bind fun _ s₃ h₃ => ?_
    have hs₂ := hs₁.trans (hk₂.same.mono Set.subset_union_left)
    exact ⟨hs₂.trans h₃.2, .inl ⟨rfl, h₃.1⟩⟩

theorem proc_freepagetable_spec {sz : ℕ} (h : Space I K s p n (kernelLeaves I t))
    (ht : t < 2 ^ 52) (hsz : pages sz = n) :
    wp E (proc_freepagetable I (p * PGSIZE) sz) (fun _ s' =>
      Pool I s' K ∧ Agree s.mem s'.mem K) s := by
  simp only [proc_freepagetable, TRAMPOLINE_eq, TRAPFRAME_eq]
  refine (h.unmapTop (by omega) (by omega) ?_).bind fun _ s₁ h₁ => ?_
  · rw [kernelLeaves, update_of_ne (by omega), update_self]
    exact I.trampoline_leaf
  refine (h₁.2.unmapTop (by omega) (by omega) ?_).bind fun _ s₂ h₂ => ?_
  · rw [kernelLeaves, update_of_ne (by omega), update_self]
    exact isLeaf_mapEntry ht (by decide) (by decide)
  refine (uvmfree_spec h₂.2 hsz fun v => ?_).mono fun _ s₃ h₃ => ⟨h₃.1, ?_⟩
  · simp only [kernelLeaves, update_apply]
    split
    · rfl
    split
    · rfl
    rfl
  · exact ((h₁.1.same.mono Set.subset_union_left).trans
      (h₂.1.same.mono Set.subset_union_left)).trans h₃.2

/-! ## `growproc` -/

variable {N NF NO : ℕ} {k : Kern N NF NO} {q : Fin N} {r : ℕ}

/-- The process has the page table `r` and the trapframe `t`, its pages are mapped, and `K` are
the pages in other use. -/
structure Proc.Shaped (I : KernelImage) (K : Set ℕ) (s : Phys) (c : Proc N NF NO) (r t : ℕ) :
    Prop where
  pagetable : c.pagetable = r * PGSIZE
  trapframe : c.trapframe = t * PGSIZE
  managed : I.Managed t
  mem : t ∈ K
  space : Space I K s r (pages c.sz) (kernelLeaves I t)

/-- An unused slot has no memory. -/
def Proc.Clear (c : Proc N NF NO) : Prop := c.trapframe = 0 ∧ c.pagetable = 0 ∧ c.sz = 0

theorem Proc.Shaped.sz_le {c : Proc N NF NO} (h : c.Shaped I K s r t) : c.sz ≤ 2 ^ 27 := by
  have := h.space.le
  unfold pages PGSIZE at *
  omega

/-- The process after a change of its size. -/
theorem Proc.Shaped.resize {c : Proc N NF NO} {sz : ℕ} (h : c.Shaped I K s r t)
    (hs : Space I K s' r (pages sz) (kernelLeaves I t)) :
    Proc.Shaped I K s' { c with sz := sz } r t :=
  ⟨h.pagetable, h.trapframe, h.managed, h.mem, hs⟩

/-- Only the size of the process changes, and the memory. -/
def Resized (k : Kern N NF NO) (q : Fin N) (k' : Kern N NF NO) : Prop :=
  ∃ (m : Phys) (sz : ℕ), k' = { k with phys := m, proc := update k.proc q { k.proc q with sz } }

theorem growproc_spec {E : KernPanic → Prop} {n : ℤ} (h : (k.proc q).Shaped I K k.phys r t)
    (hn : n < 2 ^ 31) (hsz : 0 ≤ (k.proc q).sz + n) :
    wp E (growproc I q n) (fun x k' => (k'.proc q).Shaped I K k'.phys r t ∧ Resized k q k' ∧
      (x = 0 ∧ ((k'.proc q).sz : ℤ) = (k.proc q).sz + n ∨
        x = -1 ∧ k' = { k with phys := k'.phys } ∧
          Kept K k.phys.mem k'.phys.mem r (pages (k.proc q).sz))) k := by
  have hle := h.sz_le
  obtain ⟨sz', hsz'⟩ : ∃ sz' : ℕ, (k.proc q).sz + n = sz' := ⟨_, (Int.toNat_of_nonneg hsz).symm⟩
  have hu : u64 ((k.proc q).sz + n) = sz' := by
    rw [hsz', u64_natCast]
    omega
  rw [growproc]
  refine wp_bind.mpr (wp_get.mpr ?_)
  by_cases hpos : 0 < n
  · rw [if_pos hpos]
    refine wp_bind.mpr (wp_zoom.mpr ?_)
    rw [hu, h.pagetable]
    refine (uvmalloc_spec h.space rfl (by decide)).mono fun x s₁ hx => ?_
    rcases hx with ⟨hlt, -⟩ | ⟨-, ⟨rfl, hs, -⟩ | ⟨rfl, hs, hk⟩⟩
    · omega
    · rw [if_neg (by omega)]
      refine wp_bind.mpr (wp_modify.mpr ?_)
      refine ⟨?_, ⟨_, _, rfl⟩, .inl ⟨rfl, ?_⟩⟩
      · simp only [update_self]
        exact h.resize hs
      · simp only [update_self]
        exact hsz'.symm
    · rw [if_pos rfl]
      exact ⟨⟨h.pagetable, h.trapframe, h.managed, h.mem, hs⟩, ⟨s₁, _, by rw [update_eq_self]⟩,
        .inr ⟨rfl, rfl, hk⟩⟩
  · rw [if_neg hpos]
    by_cases hneg : n < 0
    · rw [if_pos hneg]
      refine wp_bind.mpr (wp_zoom.mpr ?_)
      rw [hu, h.pagetable]
      refine (uvmdealloc_spec h.space rfl).mono fun x s₁ hx => ?_
      rcases hx with ⟨hge, -⟩ | ⟨-, rfl, hs, -⟩
      · omega
      · refine wp_bind.mpr (wp_modify.mpr ?_)
        refine ⟨?_, ⟨_, _, rfl⟩, .inl ⟨rfl, ?_⟩⟩
        · simp only [update_self]
          exact h.resize hs
        · simp only [update_self]
          exact hsz'.symm
    · rw [if_neg hneg]
      refine wp_bind.mpr (wp_modify.mpr ?_)
      refine ⟨?_, ⟨_, _, rfl⟩, .inl ⟨rfl, ?_⟩⟩
      · simp only [update_self]
        exact h.resize h.space
      · simp only [update_self]
        omega

/-- **`growproc` changes the size by what was asked.** For every size of the process and every
`int` that does not ask for a size below 0, `growproc` returns 0 with the size changed by `n`,
or −1 with the size, the mapped pages and their contents as they were. -/
theorem growproc_exact {n : ℤ} (h : (k.proc q).Shaped I K k.phys r t) (hn : n < 2 ^ 31)
    (hsz : 0 ≤ (k.proc q).sz + n) :
    ∃ x k', growproc I q n k = .ok (x, k') ∧
      (x = 0 ∧ ((k'.proc q).sz : ℤ) = (k.proc q).sz + n ∨
        x = -1 ∧ k'.proc q = k.proc q ∧
          (∀ v < 2 ^ 27, pte k'.phys.mem r v = pte k.phys.mem r v) ∧
          Agree k.phys.mem k'.phys.mem (mapped k.phys.mem r 0 (pages (k.proc q).sz))) := by
  obtain ⟨x, k', hrun, hshape, -, hx⟩ :=
    (growproc_spec (E := fun _ => False) h hn hsz).returns
  refine ⟨x, k', hrun, hx.imp_right ?_⟩
  rintro ⟨hx, hk, hkept⟩
  have hproc : k'.proc q = k.proc q := by rw [hk]
  refine ⟨hx, hproc, fun v hv => ?_, hkept.same.mono Set.subset_union_right⟩
  by_cases hlt : v < pages (k.proc q).sz
  · exact hkept.pte v hlt
  · rw [h.space.above v hv (by omega), hshape.space.above v hv (by rw [hproc]; omega)]

/-- A kernel that leaves sixteen pages. -/
def sixteenPages : KernelImage where
  stop := PHYSTOP - 16 * PGSIZE
  trampoline := KERNBASE
  trampoline_ge := Nat.le_refl _
  trampoline_lt := by decide
  trampoline_aligned := KERNBASE_aligned
  stop_le := by decide

/-- The memory, a trapframe and a page table of the first process. -/
def firstSpace (I : KernelImage) : VmM (ℕ × ℕ) := do
  kinit I
  let trapframe ← kalloc
  let pagetable ← proc_pagetable I trapframe
  return (trapframe, pagetable)

theorem firstSpace_spec (hs : s.freelist = 0) :
    wp E (firstSpace I) (fun x s' => x.1 = 0 ∨ x.2 = 0 ∨
      ∃ t r, x = (t * PGSIZE, r * PGSIZE) ∧ I.Managed t ∧
        Space I {t} s' r 0 (kernelLeaves I t)) s := by
  refine (kinit_spec hs).bind fun _ s₁ h₁ => ?_
  refine (kalloc_spec h₁).bind fun x s₂ h₂ => ?_
  rcases h₂ with ⟨rfl, rfl, -⟩ | ⟨t, rfl, ht, -, h₂, -⟩
  · have hzero := proc_pagetable_spec (E := E) (t := 0) h₁ (by omega)
    rw [Nat.zero_mul] at hzero
    exact hzero.bind fun _ _ _ => .inl rfl
  rw [LawfulSingleton.insert_empty_eq] at h₂
  refine (proc_pagetable_spec h₂ (by have := ht.lt; omega)).bind fun x s₃ h₃ => ?_
  rcases h₃ with ⟨-, ⟨rfl, -⟩ | ⟨r, rfl, -, h₃⟩⟩
  · exact .inr (.inl rfl)
  · exact .inr (.inr ⟨t, r, rfl, ht, h₃⟩)

/-- Two empty slots, and memory that is not set up. -/
def blank (nextpid : CInt) : Kern 2 1 1 where
  phys := ⟨fun _ => 0, 0⟩
  proc _ := ⟨.unused, false, 0, 0, 0, none, 0, 0, 0, fun _ => none, none, []⟩
  nextpid := nextpid
  file _ := ⟨.none, 0, false, false, 0, 0, 0, 0⟩
  pipe _ := ⟨false, false⟩
  iref _ := 0

/-- The first process gets `n` bytes. -/
def firstProc (I : KernelImage) (n : ℤ) : KernM 2 1 1 ℤ := do
  let x ← vm (firstSpace I)
  setProc 0 fun c => { c with state := .runnable, pid := 1, trapframe := x.1, pagetable := x.2 }
  growproc I 0 n

/-- A process of `n` bytes in sixteen pages, and an unused slot. -/
theorem firstProc_shaped (n : ℤ) (pid : CInt) (hn : 0 ≤ n) (hn' : n < 2 ^ 31)
    (hrun : (firstProc sixteenPages n (blank pid)).map Prod.fst = .ok 0) :
    ∃ (k : Kern 2 1 1) (K : Set ℕ) (r t : ℕ), firstProc sixteenPages n (blank pid) = .ok (0, k) ∧
      (k.proc 0).Shaped sixteenPages K k.phys r t ∧ (k.proc 0).sz = n ∧
      (k.proc 0).state ≠ .unused ∧ (k.proc 1).state = .unused ∧
      ∀ q, (k.proc q).state = .unused → (k.proc q).Clear := by
  have hspace : (firstSpace sixteenPages ⟨fun _ => 0, 0⟩).map Prod.fst =
      .ok (0x87fff * PGSIZE, 0x87ffe * PGSIZE) := by
    decide +kernel
  obtain ⟨s, hok⟩ := returns_of_map hspace
  obtain ⟨k, hk⟩ := returns_of_map hrun
  have hspec : wp (fun _ => True) (firstProc sixteenPages n) (fun x k => x = 0 → ∃ K r t,
      (k.proc 0).Shaped sixteenPages K k.phys r t ∧ (k.proc 0).sz = n ∧
      (k.proc 0).state ≠ .unused ∧ (k.proc 1).state = .unused ∧
      ∀ q, (k.proc q).state = .unused → (k.proc q).Clear)
      (blank pid) := by
    refine wp_bind.mpr (wp_vm.mpr ((firstSpace_spec (s := (blank pid).phys) rfl).run.mono
      fun x s' ⟨h, hx⟩ => ?_))
    cases hx.symm.trans hok
    rcases h with h | h | ⟨t, r, h, ht, hs⟩
    · exact absurd h (by decide)
    · exact absurd h (by decide)
    refine wp_bind.mpr (wp_setProc.mpr ((growproc_spec (K := {t}) (r := r) (t := t) ?_ hn'
      ?_).mono fun x k' h' hx => ?_))
    · simp only [update_self]
      refine ⟨congrArg Prod.snd h, congrArg Prod.fst h, ht, rfl, ?_⟩
      exact (show pages 0 = 0 from by decide) ▸ hs
    · simp only [update_self]
      exact (zero_add n).symm ▸ hn
    obtain ⟨hshape, hre, hres⟩ := h'
    have hsz := (hres.resolve_right fun h => absurd (h.1.symm.trans hx) (by decide)).2
    simp only [update_self] at hsz
    obtain ⟨m, sz, rfl⟩ := hre
    refine ⟨_, r, t, hshape, hsz.trans (zero_add n), by simp, rfl, fun q hq => ?_⟩
    by_cases hq0 : q = 0
    · simp [hq0] at hq
    · simp only [update_of_ne hq0]
      exact ⟨rfl, rfl, rfl⟩
  obtain ⟨K, r, t, h⟩ := hspec.ok hk rfl
  exact ⟨k, K, r, t, hk, h⟩

/-- There is a process of 0 bytes that `growproc` lets grow. -/
theorem growproc_first : ∃ (k k' : Kern 2 1 1) (K : Set ℕ) (r t : ℕ),
    (k.proc 0).Shaped sixteenPages K k.phys r t ∧ (k.proc 0).sz = 0 ∧
      growproc sixteenPages 0 1 k = .ok (0, k') := by
  obtain ⟨k, K, r, t, hk, h, hsz, -⟩ := firstProc_shaped 0 2 (by decide) (by decide)
    (by decide +kernel)
  have hgrow : ((do let _ ← firstProc sixteenPages 0; growproc sixteenPages 0 1)
      (blank 2)).map Prod.fst = .ok 0 := by
    decide +kernel
  obtain ⟨k', hk'⟩ := returns_of_bind hk hgrow
  exact ⟨k, k', K, r, t, h, by omega, hk'⟩

/-- In sixteen pages a process grows from 0 bytes to 1. -/
theorem growproc_exact_sixteen : ∃ (k k' : Kern 2 1 1) (K : Set ℕ) (r t : ℕ),
    ((k.proc 0).Shaped sixteenPages K k.phys r t ∧ (1 : ℤ) < 2 ^ 31 ∧
      (0 : ℤ) ≤ (k.proc 0).sz + 1) ∧
    growproc sixteenPages 0 1 k = .ok (0, k') ∧ (k'.proc 0).sz = (k.proc 0).sz + 1 := by
  obtain ⟨k, k', K, r, t, h, -, hk'⟩ := growproc_first
  obtain ⟨x, k₂, hrun, hx⟩ := growproc_exact (n := 1) h (by decide) (by omega)
  cases hk'.symm.trans hrun
  have hsz := (hx.resolve_right fun h => absurd h.1 (by decide)).2
  exact ⟨k, k', K, r, t, ⟨h, by decide, by omega⟩, hk', by omega⟩

/-- Asked for a size below 0, `growproc` returns 0 and changes nothing. -/
theorem growproc_below {n : ℤ} (h : (k.proc q).Shaped I K k.phys r t) (hn : -2 ^ 31 ≤ n)
    (hsz : (k.proc q).sz + n < 0) : growproc I q n k = .ok (0, k) := by
  have hle := h.sz_le
  have hu : (k.proc q).sz ≤ u64 ((k.proc q).sz + n) := by
    unfold u64
    omega
  have hspec : wp (fun _ => False) (growproc I q n) (fun x k' => x = 0 ∧ k' = k) k := by
    rw [growproc]
    refine wp_bind.mpr (wp_get.mpr ?_)
    rw [if_neg (by omega), if_pos (by omega)]
    refine wp_bind.mpr (wp_zoom.mpr ?_)
    rw [uvmdealloc, if_pos hu]
    refine wp_pure.mpr (wp_bind.mpr (wp_modify.mpr ?_))
    refine ⟨rfl, ?_⟩
    show { k with proc := update k.proc q (k.proc q) } = k
    rw [update_eq_self]
  obtain ⟨x, k', hrun, rfl, rfl⟩ := hspec.returns
  exact hrun

/-- A process of size 0 that gives up a byte is told that it did. -/
theorem growproc_below_zero : ∃ (k : Kern 2 1 1) (K : Set ℕ) (r t : ℕ),
    (k.proc 0).Shaped sixteenPages K k.phys r t ∧ ∃ k',
      growproc sixteenPages 0 (-1) k = .ok (0, k') ∧
      ((k'.proc 0).sz : ℤ) ≠ (k.proc 0).sz + -1 := by
  obtain ⟨k, K, r, t, -, h, hsz, -⟩ := firstProc_shaped 0 2 (by decide) (by decide)
    (by decide +kernel)
  refine ⟨k, K, r, t, h, k, growproc_below h (by decide) (by omega), by omega⟩

end Kern

end Xv6
