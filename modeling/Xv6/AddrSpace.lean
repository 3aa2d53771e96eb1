import Mathlib.Order.Interval.Finset.Nat
import Xv6.PageMap

/-!
# User address spaces

`Space I K s p n X` : the page table `p` maps the pages below `n`, each to a page of its own
outside `K`, and has the entries `X` above. `uvmalloc` and `uvmdealloc` change `n` and keep the
pages below both sizes (`Kept`). `uvmalloc` adds pages of zeros (`ZeroPages`), or gives back what
it took.
-/

namespace Xv6.Vm

open Prog

variable {I : KernelImage} {E : VmPanic → Prop} {K : Set ℕ} {s s' : Phys} {m m' m'' : Ram}
  {p n : ℕ} {X : ℕ → ℕ}

/-! ## Sizes -/

/-- The number of pages of a size in bytes. -/
def pages (sz : ℕ) : ℕ := (sz + 4095) / PGSIZE

theorem PGROUNDUP_eq {sz : ℕ} (h : sz + PGSIZE ≤ 2 ^ 64) : PGROUNDUP sz = pages sz * PGSIZE := by
  have hu : u64 (sz + PGSIZE - 1) = sz + 4095 := by
    unfold u64 PGSIZE at *
    omega
  rw [PGROUNDUP, PGROUNDDOWN, hu, pages]

theorem pages_mul (v : ℕ) : pages (v * PGSIZE) = v := by
  unfold pages PGSIZE
  omega

theorem pages_mono {a b : ℕ} (h : a ≤ b) : pages a ≤ pages b :=
  Nat.div_le_div_right (by omega)

theorem sext_of_lt {x : ℕ} (h : x < 2 ^ 31) : sext x = x := by
  have hb : (x : ℤ).bmod (2 ^ 32) = x := Int.bmod_eq_of_le (by omega) (by omega)
  rw [sext, hb, u64_of_lt (by omega)]

/-! ## Address spaces -/

/-- The pages of a user of `n` pages are mapped to distinct managed pages, the table has the
entries `X` above, and `K` are the pages in other use. -/
structure Space (I : KernelImage) (K : Set ℕ) (s : Phys) (p n : ℕ) (X : ℕ → ℕ) : Prop where
  rooted : Rooted I (K ∪ mapped s.mem p 0 n) s 2 p
  leaf : ∀ v < n, IsLeaf (pte s.mem p v)
  managed : ∀ v < n, I.Managed (PPN (pte s.mem p v))
  inj : ∀ v < n, ∀ w < n, PPN (pte s.mem p v) = PPN (pte s.mem p w) → v = w
  apart : ∀ v < n, PPN (pte s.mem p v) ∉ K
  above : ∀ v < 2 ^ 27, n ≤ v → pte s.mem p v = X v
  low : ∀ v < 2 ^ 26 - 2, X v = 0

/-- The first `n` pages are mapped as before, and the contents of these pages and of the pages
`K` are the same. -/
structure Kept (K : Set ℕ) (m m' : Ram) (p n : ℕ) : Prop where
  same : Agree m m' (K ∪ mapped m p 0 n)
  pte : ∀ v < n, pte m' p v = pte m p v

theorem mapped_congr {v k : ℕ} (h : ∀ w, v ≤ w → w < v + k → pte m' p w = pte m p w) :
    mapped m' p v k = mapped m p v k := by
  refine Set.ext fun q => exists_congr fun w => and_congr_right fun hw => ?_
  rw [h w hw.2.1 hw.2.2]

theorem mapped_mono {k : ℕ} (h : k ≤ n) : mapped m p 0 k ⊆ mapped m p 0 n := by
  rintro q ⟨w, hw, rfl⟩
  exact ⟨w, ⟨hw.1, hw.2.1, by have := hw.2.2; omega⟩, rfl⟩

theorem mem_mapped {v : ℕ} (hn : n ≤ 2 ^ 26) (hv : v < n) : PPN (pte m p v) ∈ mapped m p 0 n :=
  ⟨v, ⟨by omega, Nat.zero_le v, by omega⟩, rfl⟩

theorem mapped_push (hn : n < 2 ^ 26) :
    mapped m p 0 (n + 1) = insert (PPN (pte m p n)) (mapped m p 0 n) := by
  refine Set.ext fun q => ⟨?_, ?_⟩
  · rintro ⟨w, hw, rfl⟩
    by_cases hwn : w = n
    · exact .inl (by rw [hwn])
    · exact .inr ⟨w, ⟨hw.1, hw.2.1, by have := hw.2.2; omega⟩, rfl⟩
  · rintro (rfl | hq)
    · exact mem_mapped (by omega) (by omega)
    · exact mapped_mono (Nat.le_succ n) hq

namespace Kept

theorem refl : Kept K m m p n := ⟨.refl, fun _ _ => rfl⟩

theorem mapped (h : Kept K m m' p n) : mapped m' p 0 n = mapped m p 0 n :=
  mapped_congr fun w _ hw => h.pte w (by omega)

theorem trans (h : Kept K m m' p n) (h' : Kept K m' m'' p n) : Kept K m m'' p n where
  same := h.same.trans (by have := h'.same; rwa [h.mapped] at this)
  pte v hv := (h'.pte v hv).trans (h.pte v hv)

theorem mono (h : Kept K m m' p n) {k : ℕ} (hk : k ≤ n) : Kept K m m' p k where
  same := h.same.mono (Set.union_subset_union_right K (mapped_mono hk))
  pte v hv := h.pte v (by omega)

theorem anti {K' : Set ℕ} (h : Kept K m m' p n) (hK : K' ⊆ K) : Kept K' m m' p n where
  same := h.same.mono (Set.union_subset_union_left _ hK)
  pte := h.pte

end Kept

namespace Space

section Same

variable (h : Space I K s p n X)

include h

/-- There are no more pages than there is memory. -/
theorem le : n ≤ 2 ^ 15 := by
  have hmaps : Set.MapsTo (fun v => PPN (pte s.mem p v)) (Finset.range n)
      (Finset.Ico 0x80000 0x88000) := by
    intro v hv
    have hm := h.managed v (Finset.mem_range.mp hv)
    have hlo := I.trampoline_ge
    have hend := I.trampoline_lt
    have hle := hm.1
    have hlt := hm.2
    unfold PHYSTOP KERNBASE PGSIZE at *
    simp only [Finset.coe_Ico, Set.mem_Ico]
    omega
  have hcard := Finset.card_le_card_of_injOn _ hmaps fun v hv w hw he =>
    h.inj v (Finset.mem_range.mp hv) w (Finset.mem_range.mp hw) he
  simpa using hcard

/-- The pages from `k` on can be freed. -/
theorem frees {k : ℕ} (hk : k ≤ n) : Frees I (K ∪ mapped s.mem p 0 n) s.mem p k (n - k) where
  managed {w} hw _ := h.managed w (by have := hw.2.2; omega)
  mem {w} hw _ := .inr (mem_mapped (h.le.trans (by omega)) (by have := hw.2.2; omega))
  inj {w w'} hw hw' _ _ he :=
    h.inj w (by have := hw.2.2; omega) w' (by have := hw'.2.2; omega) he

theorem shrink {k : ℕ} (hk : k ≤ n) :
    wp E (uvmunmap I (p * PGSIZE) (k * PGSIZE) (n - k) true) (fun _ s' =>
      Space I K s' p k X ∧ Kept K s.mem s'.mem p k) s := by
  have hle := h.le
  refine (uvmunmap_spec h.rooted (by omega) (.inl (by omega)) (.inl fun w hw => ?_)
    fun _ => h.frees hk).mono fun _ s' h' => ?_
  · exact h.leaf w (by have := hw.2.2; omega)
  obtain ⟨-, hr, hs, hpte⟩ := h'
  have hkeep : ∀ v < k, pte s'.mem p v = pte s.mem p v := fun v hv => by
    rw [hpte v (by omega), if_neg (by omega)]
  have hset : leaving true (K ∪ mapped s.mem p 0 n) (mapped s.mem p k (n - k)) =
      K ∪ mapped s'.mem p 0 k := by
    rw [mapped_congr fun w _ hw => hkeep w (by omega)]
    refine Set.ext fun q => ⟨?_, ?_⟩
    · rintro ⟨hq | ⟨w, hw, rfl⟩, hout⟩
      · exact .inl hq
      · refine .inr ⟨w, ⟨hw.1, hw.2.1, ?_⟩, rfl⟩
        by_contra hge
        exact hout ⟨w, ⟨hw.1, by omega, by have := hw.2.2; omega⟩, rfl⟩
    · rintro (hq | ⟨w, hw, rfl⟩)
      · refine ⟨.inl hq, ?_⟩
        rintro ⟨w, hw, rfl⟩
        exact h.apart w (by have := hw.2.2; omega) hq
      · refine ⟨.inr (mem_mapped (by omega) (by have := hw.2.2; omega)), ?_⟩
        rintro ⟨w', hw', he⟩
        have := h.inj w (by have := hw.2.2; omega) w' (by have := hw'.2.2; omega) he
        have := hw.2.2
        have := hw'.2.1
        omega
  rw [hset] at hr hs
  refine ⟨⟨hr, ?_, ?_, ?_, ?_, ?_, h.low⟩, ?_, hkeep⟩
  · intro v hv
    rw [hkeep v hv]
    exact h.leaf v (by omega)
  · intro v hv
    rw [hkeep v hv]
    exact h.managed v (by omega)
  · intro v hv w hw
    rw [hkeep v hv, hkeep w hw]
    exact h.inj v (by omega) w (by omega)
  · intro v hv
    rw [hkeep v hv]
    exact h.apart v (by omega)
  · intro v hv hkv
    rw [hpte v hv]
    split
    · exact (h.low v (by omega)).symm
    · exact h.above v hv (by omega)
  · rwa [mapped_congr fun w _ hw => hkeep w (by omega)] at hs

/-- The pages of the user are the same ones. -/
theorem of_low {K' : Set ℕ} {X' : ℕ → ℕ} (hr : Rooted I (K' ∪ mapped s.mem p 0 n) s' 2 p)
    (hpte : ∀ v < n, pte s'.mem p v = pte s.mem p v)
    (habove : ∀ v < 2 ^ 27, n ≤ v → pte s'.mem p v = X' v) (hlow : ∀ v < 2 ^ 26 - 2, X' v = 0)
    (hK : ∀ v < n, PPN (pte s.mem p v) ∉ K') : Space I K' s' p n X' := by
  refine ⟨?_, ?_, ?_, ?_, ?_, habove, hlow⟩
  · rwa [mapped_congr fun w _ hw => hpte w (by omega)]
  · intro v hv
    rw [hpte v hv]
    exact h.leaf v hv
  · intro v hv
    rw [hpte v hv]
    exact h.managed v hv
  · intro v hv w hw
    rw [hpte v hv, hpte w hw]
    exact h.inj v hv w hw
  · intro v hv
    rw [hpte v hv]
    exact hK v hv

/-- The same space for other pages in use. -/
theorem of_rooted {K' : Set ℕ} (hr : Rooted I (K' ∪ mapped s.mem p 0 n) s' 2 p)
    (hpte : ∀ v < 2 ^ 27, pte s'.mem p v = pte s.mem p v)
    (hK : ∀ v < n, PPN (pte s.mem p v) ∉ K') : Space I K' s' p n X := by
  have hle := h.le
  refine h.of_low hr (fun v hv => hpte v (by omega)) (fun v hv hnv => ?_) h.low hK
  rw [hpte v hv]
  exact h.above v hv hnv

theorem kalloc : wp E kalloc (fun x s' => (x = 0 ∧ s' = s) ∨
    ∃ q, x = q * PGSIZE ∧ I.Managed q ∧ q ∉ K ∧ Space I (insert q K) s' p n X ∧
      Kept K s.mem s'.mem p n) s := by
  refine h.rooted.kalloc.mono fun x s' hx => ?_
  rcases hx with hx | ⟨q, hx, hq, hqU, -, hr, hg, hs⟩
  · exact .inl hx
  · rw [Set.mem_union, not_or] at hqU
    refine .inr ⟨q, hx, hq, hqU.1, h.of_rooted ?_ (fun v _ => hg.pte) fun v hv => ?_, ?_,
      fun v _ => hg.pte⟩
    · rwa [Set.insert_union]
    · rintro (he | hK)
      · exact hqU.2 (he ▸ mem_mapped (h.le.trans (by omega)) hv)
      · exact h.apart v hv hK
    · refine hs.mono fun x hx he => ?_
      rw [Set.mem_singleton_iff.mp he] at hx
      exact hx.elim hqU.1 hqU.2

theorem kfree {q : ℕ} (hq : I.Managed q) (hqK : q ∈ K) :
    wp E (kfree I (q * PGSIZE)) (fun _ s' => Space I (K \ {q}) s' p n X ∧
      Kept (K \ {q}) s.mem s'.mem p n) s := by
  have hqU : q ∉ mapped s.mem p 0 n := by
    rintro ⟨w, hw, rfl⟩
    exact h.apart w (by have := hw.2.2; omega) hqK
  refine (h.rooted.kfree hq (.inl hqK)).mono fun _ s' h' => ?_
  obtain ⟨hr, hg, hs⟩ := h'
  refine ⟨h.of_rooted ?_ (fun v _ => hg.pte) fun v hv hK => h.apart v hv hK.1, ?_,
    fun v _ => hg.pte⟩
  · rwa [Set.union_sdiff_distrib, Set.sdiff_singleton_eq_self hqU] at hr
  · refine hs.mono fun x hx he => ?_
    rw [Set.mem_singleton_iff.mp he] at hx
    exact hx.elim (fun h => h.2 rfl) hqU

theorem frame (hs : Agree s.mem s'.mem Kᶜ) (hf : s'.freelist = s.freelist) :
    Space I K s' p n X := by
  obtain ⟨hr, hg⟩ := h.rooted.frame (hs.mono fun q hq hK => hq (.inl hK)) hf
  exact h.of_rooted hr (fun v _ => hg.pte) h.apart

/-- A page that is not mapped is. -/
theorem mapOne {v pa perm : ℕ} (hv : v < 2 ^ 26) (hnv : n ≤ v) (hX : X v = 0) (hpa : pa < 2 ^ 64)
    (hperm : perm < 2 ^ 64) :
    wp E (mappages (p * PGSIZE) (v * PGSIZE) PGSIZE pa perm) (fun x s' =>
      Kept K s.mem s'.mem p n ∧ (x = 0 ∧ Rooted I (K ∪ mapped s.mem p 0 n) s' 2 p ∧
        (∀ w < 2 ^ 27, pte s'.mem p w = if w = v then mapEntry pa perm 0 else pte s.mem p w) ∨
        x = -1 ∧ Space I K s' p n X)) s := by
  have hfree : ∀ w < 2 ^ 26, v ≤ w → w < v + 1 → pte s.mem p w &&& PTE_V = 0 := by
    intro w hw hle hlt
    obtain rfl : w = v := by omega
    rw [h.above w (by omega) hnv, hX]
    decide
  have hmap := mappages_spec (E := E) h.rooted Nat.one_pos (by omega) (.inl (by omega))
    (.inl hfree) hpa hperm
  rw [Nat.one_mul] at hmap
  refine hmap.mono fun x s' h' => ?_
  obtain ⟨hr, hs, j, -, hres, hpte⟩ := h'
  refine ⟨⟨hs, fun w hw => ?_⟩, hres.imp ?_ ?_⟩
  · rw [hpte w (by omega), if_neg (by omega)]
  · rintro ⟨rfl, rfl⟩
    refine ⟨rfl, hr, fun w hw => ?_⟩
    rw [hpte w hw]
    by_cases hwv : w = v
    · rw [if_pos (by omega), if_pos hwv, hwv, Nat.sub_self]
    · rw [if_neg (by omega), if_neg hwv]
  · rintro ⟨rfl, hlt⟩
    obtain rfl : j = 0 := by omega
    refine ⟨rfl, h.of_rooted hr (fun w hw => ?_) h.apart⟩
    rw [hpte w hw, if_neg (by omega)]

end Same

/-- A page in other use, but not in `K`, is changed. -/
theorem set_page {q : ℕ} (h : Space I (insert q K) s p n X) (hqK : q ∉ K)
    (hs : Agree s.mem s'.mem {q}ᶜ) (hf : s'.freelist = s.freelist) :
    Space I (insert q K) s' p n X ∧ Kept K s.mem s'.mem p n := by
  have hmem : q ∈ insert q K := Set.mem_insert q K
  obtain ⟨hr, hg⟩ := h.rooted.frame
    (hs.mono fun x hx he => hx (.inl (Set.mem_singleton_iff.mp he ▸ hmem))) hf
  refine ⟨h.of_rooted hr (fun v _ => hg.pte) h.apart, hs.mono ?_, fun v _ => hg.pte⟩
  rintro x (hx | ⟨w, hw, rfl⟩) he
  · exact hqK (Set.mem_singleton_iff.mp he ▸ hx)
  · exact h.apart w (by have := hw.2.2; omega) (Set.mem_singleton_iff.mp he ▸ hmem)

/-- The page `q` is mapped behind the last page. -/
theorem push {q perm : ℕ} (h : Space I (insert q K) s p n X) (hq : I.Managed q) (hqK : q ∉ K)
    (hperm : perm < 2 ^ 10) (hleaf : perm ||| PTE_V ≠ PTE_V) :
    wp E (mappages (p * PGSIZE) (n * PGSIZE) PGSIZE (q * PGSIZE) perm) (fun x s' =>
      Kept (insert q K) s.mem s'.mem p n ∧
      (x = 0 ∧ Space I K s' p (n + 1) X ∧ pte s'.mem p n = mapEntry (q * PGSIZE) perm 0 ∨
        x = -1 ∧ Space I (insert q K) s' p n X)) s := by
  have hle := h.le
  have hpa : q * PGSIZE < 2 ^ 64 := by
    have := hq.lt
    unfold PGSIZE
    omega
  refine (h.mapOne (by omega) le_rfl (h.low n (by omega)) hpa (by omega)).mono fun x s' h' => ?_
  refine ⟨h'.1, h'.2.imp_left ?_⟩
  · rintro ⟨rfl, hr, hpte⟩
    have hkeep := h'.1.2
    have hnew := (hpte n (by omega)).trans (if_pos rfl)
    obtain ⟨hppn, hV, hflags⟩ := mapEntry_page (by have := hq.lt; omega : q < 2 ^ 52) hperm
    rw [← hnew] at hppn hV hflags
    have hcases : ∀ v < n + 1, v = n ∨ v < n := fun v hv => by omega
    have hqv : ∀ v < n, PPN (pte s.mem p v) ≠ q := fun v hv he =>
      h.apart v hv (.inl he)
    refine ⟨rfl, ⟨?_, ?_, ?_, ?_, ?_, ?_, h.low⟩, hnew⟩
    · rwa [mapped_push (by omega), hppn, mapped_congr fun w _ hw => hkeep w (by omega),
        Set.union_insert, ← Set.insert_union]
    · intro v hv
      rcases hcases v hv with rfl | hv
      · exact ⟨hV, by rwa [hflags]⟩
      · rw [hkeep v hv]
        exact h.leaf v hv
    · intro v hv
      rcases hcases v hv with rfl | hv
      · rwa [hppn]
      · rw [hkeep v hv]
        exact h.managed v hv
    · intro v hv w hw
      rcases hcases v hv with rfl | hv <;> rcases hcases w hw with rfl | hw
      · exact fun _ => rfl
      · rw [hppn, hkeep w hw]
        exact fun he => absurd he.symm (hqv w hw)
      · rw [hppn, hkeep v hv]
        exact fun he => absurd he (hqv v hv)
      · rw [hkeep v hv, hkeep w hw]
        exact h.inj v hv w hw
    · intro v hv
      rcases hcases v hv with rfl | hv
      · rwa [hppn]
      · rw [hkeep v hv]
        exact fun hK => h.apart v hv (.inr hK)
    · intro v hv hle
      rw [hpte v hv, if_neg (by omega)]
      exact h.above v hv (by omega)

/-- A page is taken, filled and mapped behind the last page. Where there is no page, or none for a
table, nothing is taken. -/
theorem newPage {α : Type} {perm : ℕ} {f : ℕ → Ram → Ram} {undo next : VmM α} {Q : α → Phys → Prop}
    (h : Space I K s p n X) (hperm : perm < 2 ^ 10) (hleaf : perm ||| PTE_V ≠ PTE_V)
    (hf : ∀ {q m}, Agree m (f (q * PGSIZE) m) {q}ᶜ)
    (hundo : ∀ {s'}, Space I K s' p n X → Kept K s.mem s'.mem p n → wp E undo Q s')
    (hnext : ∀ {q} {s₁ s' : Phys}, I.Managed q → Kept K s.mem s₁.mem p n → Kept K s.mem s'.mem p n →
      Kept (insert q K) (f (q * PGSIZE) s₁.mem) s'.mem p n → Space I K s' p (n + 1) X →
      pte s'.mem p n = mapEntry (q * PGSIZE) perm 0 → wp E next Q s') :
    wp E (do
      let page ← Vm.kalloc
      if page = 0 then undo
      else do
        modify fun s => { s with mem := f page s.mem }
        if (← mappages (p * PGSIZE) (n * PGSIZE) PGSIZE page perm) ≠ 0 then do
          Vm.kfree I page
          undo
        else next) Q s := by
  refine h.kalloc.bind fun x s₁ hx => ?_
  rcases hx with ⟨rfl, rfl⟩ | ⟨q, rfl, hq, hqK, h₁, hk₁⟩
  · rw [if_pos rfl]
    exact hundo h .refl
  rw [if_neg hq.addr_ne_zero]
  refine wp_bind.mpr (wp_modify.mpr ?_)
  have hfill : Agree s₁.mem ({ s₁ with mem := f (q * PGSIZE) s₁.mem } : Phys).mem {q}ᶜ := hf
  obtain ⟨h₂, hk₂⟩ := h₁.set_page hqK hfill rfl
  refine (h₂.push hq hqK hperm hleaf).bind fun x s₃ h₃ => ?_
  obtain ⟨hk₃, h₃⟩ := h₃
  have hkept := (hk₁.trans hk₂).trans (hk₃.anti (Set.subset_insert q K))
  rcases h₃ with ⟨rfl, h₃, hnew⟩ | ⟨rfl, h₃⟩
  · rw [if_neg (by decide)]
    exact hnext hq hk₁ hkept hk₃ h₃ hnew
  · rw [if_pos (by decide)]
    refine (h₃.kfree hq (Set.mem_insert q K)).bind fun _ s₄ h₄ => ?_
    rw [Set.insert_sdiff_of_mem _ (Set.mem_singleton q), Set.sdiff_singleton_eq_self hqK] at h₄
    exact hundo h₄.1 (hkept.trans h₄.2)

end Space

/-! ## One address space among others -/

/-- The pages of an address space : those of the user and those of the table. -/
def owned (m : Ram) (p n : ℕ) : Set ℕ := mapped m p 0 n ∪ nodes m 2 p

/-- `Space` without the rest of the memory. -/
structure Shape (I : KernelImage) (m : Ram) (p n : ℕ) (X : ℕ → ℕ) : Prop where
  table : Table I m 2 p
  user : Disjoint (mapped m p 0 n) (nodes m 2 p)
  leaf : ∀ v < n, IsLeaf (pte m p v)
  managed : ∀ v < n, I.Managed (PPN (pte m p v))
  inj : ∀ v < n, ∀ w < n, PPN (pte m p v) = PPN (pte m p w) → v = w
  above : ∀ v < 2 ^ 27, n ≤ v → pte m p v = X v
  low : ∀ v < 2 ^ 26 - 2, X v = 0

namespace Space

theorem shape (h : Space I K s p n X) : Shape I s.mem p n X where
  table := h.rooted.table
  user := h.rooted.disjoint.mono_left Set.subset_union_right
  leaf := h.leaf
  managed := h.managed
  inj := h.inj
  above := h.above
  low := h.low

theorem heap (h : Space I K s p n X) : Pool I s (K ∪ owned s.mem p n) := by
  rw [owned, ← Set.union_assoc]
  exact h.rooted.heap

theorem disjoint (h : Space I K s p n X) : Disjoint K (owned s.mem p n) := by
  refine Set.disjoint_union_right.mpr
    ⟨?_, h.rooted.disjoint.mono_left Set.subset_union_left⟩
  refine Set.disjoint_right.mpr ?_
  rintro q ⟨w, hw, rfl⟩
  exact h.apart w (by have := hw.2.2; omega)

end Space

namespace Shape

theorem space (h : Shape I s.mem p n X) (hn : n ≤ 2 ^ 26) (hheap : Pool I s (K ∪ owned s.mem p n))
    (hK : Disjoint K (owned s.mem p n)) : Space I K s p n X := by
  obtain ⟨hu, ht⟩ := Set.disjoint_union_right.mp hK
  refine ⟨⟨h.table, ?_, Set.disjoint_union_left.mpr ⟨ht, h.user⟩⟩, h.leaf, h.managed, h.inj, ?_,
    h.above, h.low⟩
  · rwa [owned, ← Set.union_assoc] at hheap
  · exact fun v hv => Set.disjoint_right.mp hu (mem_mapped hn hv)

/-- A change to pages that are not in the table. -/
theorem same (h : Shape I m p n X) (hs : Agree m m' (nodes m 2 p)) :
    Shape I m' p n X ∧ owned m' p n = owned m p n ∧ ∀ v, pte m' p v = pte m p v := by
  have hpte : ∀ v, pte m' p v = pte m p v := fun v => (Grows.of_same hs).pte
  have hmapped : mapped m' p 0 n = mapped m p 0 n := mapped_congr fun w _ _ => hpte w
  refine ⟨⟨h.table.same hs, ?_, ?_, ?_, ?_, ?_, h.low⟩, ?_, hpte⟩
  · rw [hmapped, nodes_same hs]
    exact h.user
  · simpa only [hpte] using h.leaf
  · simpa only [hpte] using h.managed
  · simpa only [hpte] using h.inj
  · simpa only [hpte] using h.above
  · rw [owned, owned, hmapped, nodes_same hs]

end Shape

/-! ## `uvmdealloc` and `uvmalloc` -/

theorem uvmdealloc_spec {oldsz newsz : ℕ} (h : Space I K s p n X) (hold : pages oldsz = n) :
    wp E (uvmdealloc I (p * PGSIZE) oldsz newsz) (fun x s' =>
      oldsz ≤ newsz ∧ x = oldsz ∧ s' = s ∨
      newsz < oldsz ∧ x = newsz ∧ Space I K s' p (pages newsz) X ∧
        Kept K s.mem s'.mem p (pages newsz)) s := by
  have hle := h.le
  have hsz : oldsz + PGSIZE ≤ 2 ^ 64 := by
    unfold pages PGSIZE at *
    omega
  simp only [uvmdealloc]
  by_cases hnew : oldsz ≤ newsz
  · rw [if_pos hnew]
    exact .inl ⟨hnew, rfl, rfl⟩
  rw [if_neg hnew, PGROUNDUP_eq hsz, PGROUNDUP_eq (by omega : newsz + PGSIZE ≤ 2 ^ 64), hold]
  have hmono : pages newsz ≤ n := hold ▸ pages_mono (by omega)
  split
  · have hpages : (n * PGSIZE - pages newsz * PGSIZE) / PGSIZE = n - pages newsz := by
      rw [← Nat.sub_mul, Nat.mul_div_cancel _ PGSIZE_pos]
    rw [hpages, sext_of_lt (by omega)]
    refine (h.shrink hmono).bind fun _ s' h' => ?_
    exact .inr ⟨by omega, rfl, h'⟩
  · rename_i hno
    have heq : pages newsz = n :=
      Nat.le_antisymm hmono (Nat.le_of_mul_le_mul_right (Nat.le_of_not_lt hno) PGSIZE_pos)
    rw [heq]
    exact .inr ⟨by omega, rfl, h, .refl⟩

/-- The pages from `v` to `n` are empty and mapped with the flags `perm`. -/
structure ZeroPages (m : Ram) (p v n perm : ℕ) : Prop where
  entry : ∀ w, v ≤ w → w < n → ∃ q < 2 ^ 52, pte m p w = mapEntry (q * PGSIZE) perm 0
  zero : ∀ w, v ≤ w → w < n → ∀ a, a / PGSIZE = PPN (pte m p w) → m a = 0

/-- A readable page is a leaf. -/
theorem readable_leaf (xperm : ℕ) : PTE_R ||| PTE_U ||| xperm ||| PTE_V ≠ PTE_V := by
  intro h
  have hbit := congrArg (Nat.testBit · 1) h
  simp only [Nat.testBit_or, show PTE_R.testBit 1 = true from rfl,
    show PTE_V.testBit 1 = false from rfl, Bool.true_or] at hbit
  exact Bool.noConfusion hbit

/-- The pages from `n` on are taken back. -/
theorem undo_spec {v : ℕ} (h : Space I K s p v X) (hv : n ≤ v) :
    wp E (uvmdealloc I (p * PGSIZE) (v * PGSIZE) (n * PGSIZE)) (fun _ s' =>
      Space I K s' p n X ∧ Kept K s.mem s'.mem p n) s := by
  refine (uvmdealloc_spec h (pages_mul v)).mono fun x s' h' => ?_
  rw [pages_mul] at h'
  rcases h' with ⟨hle, -, rfl⟩ | ⟨-, -, h'⟩
  · obtain rfl : v = n := Nat.le_antisymm (Nat.le_of_mul_le_mul_right hle PGSIZE_pos) hv
    exact ⟨h, .refl⟩
  · exact h'

/-- The loop maps new pages up to `newsz`, or takes them back. -/
theorem allocLoop_spec {newsz xperm k v : ℕ} (h : Space I K s p v X) (hv : n ≤ v)
    (hk : pages newsz ≤ v + k) (hx : xperm < 2 ^ 10) :
    wp E (allocLoop I (p * PGSIZE) (n * PGSIZE) newsz xperm k (v * PGSIZE)) (fun x s' =>
      x = newsz ∧ Space I K s' p (max v (pages newsz)) X ∧ Kept K s.mem s'.mem p v ∧
        ZeroPages s'.mem p v (pages newsz) (PTE_R ||| PTE_U ||| xperm) ∨
      x = 0 ∧ Space I K s' p n X ∧ Kept K s.mem s'.mem p n) s := by
  induction k generalizing s v with
  | zero =>
    rw [Nat.max_eq_left (by omega)]
    exact .inl ⟨rfl, h, .refl, fun w _ _ => by omega, fun w _ _ => by omega⟩
  | succ k ih =>
    rw [allocLoop]
    by_cases hlt : v * PGSIZE < newsz
    · rw [if_pos hlt]
      have hpage : v < pages newsz := by
        unfold pages PGSIZE at *
        omega
      have hle := h.le
      have hflags : PTE_R ||| PTE_U ||| xperm < 2 ^ 10 :=
        Nat.or_lt_two_pow (by decide) hx
      refine h.newPage (f := fun page m => m.memset page 0 PGSIZE) hflags (readable_leaf xperm)
        Agree.memset (fun h' hk' => ?_) fun {q s₁ s₃} hq _ hkept hk₃ h₃ hnew => ?_
      · refine (undo_spec h' hv).bind fun _ s₅ h₅ => ?_
        exact .inr ⟨rfl, h₅.1, (hk'.mono hv).trans h₅.2⟩
      have hzero : ∀ a, a / PGSIZE = q → s₁.mem.memset (q * PGSIZE) 0 PGSIZE a = 0 := by
        intro a ha
        refine Ram.write_of_mem ?_ ?_ <;>
        · unfold PGSIZE at *
          omega
      rw [u64_next (by omega)]
      refine (ih h₃ (by omega) (by omega)).mono fun x s₄ h₄ => ?_
      rcases h₄ with ⟨rfl, h₄, hk₄, hfresh⟩ | ⟨rfl, h₄, hk₄⟩
      · rw [Nat.max_eq_right (by omega)] at h₄ ⊢
        refine .inl ⟨rfl, h₄, hkept.trans (hk₄.mono (Nat.le_succ v)), ?_, ?_⟩
        · intro w hw hlt
          by_cases hwv : w = v
          · refine ⟨q, by have := hq.lt; omega, ?_⟩
            rw [hwv, hk₄.pte v (by omega), hnew]
          · exact hfresh.entry w (by omega) hlt
        · intro w hw hlt a ha
          by_cases hwv : w = v
          · rw [hwv, hk₄.pte v (by omega)] at ha
            have hppn : PPN (pte s₃.mem p v) = q := by
              rw [hnew]
              exact (mapEntry_page (by have := hq.lt; omega) hflags).1
            rw [hk₄.same a (.inr (ha ▸ mem_mapped (by omega) (by omega))),
              hk₃.same a (.inl (.inl (ha.trans hppn)))]
            exact hzero a (ha.trans hppn)
          · exact hfresh.zero w (by omega) hlt a ha
      · exact .inr ⟨rfl, h₄, (hkept.mono hv).trans hk₄⟩
    · rw [if_neg hlt]
      have hle : pages newsz ≤ v := by
        rw [← pages_mul v]
        exact pages_mono (by omega)
      rw [Nat.max_eq_left hle]
      exact .inl ⟨rfl, h, .refl, fun w _ _ => by omega, fun w _ _ => by omega⟩

theorem uvmalloc_spec {oldsz newsz xperm : ℕ} (h : Space I K s p n X) (hold : pages oldsz = n)
    (hx : xperm < 2 ^ 10) :
    wp E (uvmalloc I (p * PGSIZE) oldsz newsz xperm) (fun x s' =>
      newsz < oldsz ∧ x = oldsz ∧ s' = s ∨
      oldsz ≤ newsz ∧ (x = newsz ∧ Space I K s' p (pages newsz) X ∧ Kept K s.mem s'.mem p n ∧
        ZeroPages s'.mem p n (pages newsz) (PTE_R ||| PTE_U ||| xperm) ∨
      x = 0 ∧ Space I K s' p n X ∧ Kept K s.mem s'.mem p n)) s := by
  have hle := h.le
  have hsz : oldsz + PGSIZE ≤ 2 ^ 64 := by
    unfold pages PGSIZE at *
    omega
  simp only [uvmalloc]
  by_cases hnew : newsz < oldsz
  · rw [if_pos hnew]
    exact .inl ⟨hnew, rfl, rfl⟩
  rw [if_neg hnew, PGROUNDUP_eq hsz, hold]
  have hk : pages newsz ≤ n + ((newsz - n * PGSIZE) / PGSIZE + 1) := by
    unfold pages PGSIZE at *
    omega
  have hmono : n ≤ pages newsz := hold ▸ pages_mono (by omega)
  refine (allocLoop_spec h le_rfl hk hx).mono fun x s' h' => .inr ⟨by omega, ?_⟩
  rwa [Nat.max_eq_right hmono] at h'

end Xv6.Vm
