import Xv6.PageMap

/-!
# Copies between the kernel and a user

A user address is `Readable` if its page is mapped with `PTE_V` and `PTE_U`, and `Writable` if
it is mapped with `PTE_W` too. Each of the three copies goes page by page, and its outcome is
given by the number `N` of bytes that were copied : all of them, or those before the first
page that is not mapped (`CopiedIn`, `CopiedStr`, `copyoutLoop_spec`).
`user_copies_exact` puts the three together.

For `copyout` the pages it writes have to be apart from the user's other pages and from the
table, which the copy would change under its own feet (`Apart`). The other two do not find a
page that is mapped to the physical page 0, as `walkaddr` returns 0 for one that is not mapped
(`Found`). Address spaces of the kernel have no such pages (`UserPages`).
-/

namespace Xv6.Vm

open Prog

variable {E : VmPanic → Prop} {s : Phys} {m m' m'' : Ram} {p va : ℕ}

/-! ## User addresses -/

/-- The byte at `va` is in a page that is mapped for the user. -/
def Readable (m : Ram) (p va : ℕ) : Prop :=
  va < MAXVA ∧ pte m p (va / PGSIZE) &&& PTE_V ≠ 0 ∧ pte m p (va / PGSIZE) &&& PTE_U ≠ 0

/-- The byte at `va` is in a page that is mapped for the user with `PTE_W`. -/
def Writable (m : Ram) (p va : ℕ) : Prop :=
  Readable m p va ∧ pte m p (va / PGSIZE) &&& PTE_W ≠ 0

/-- `walkaddr` finds the page of `va` : it is mapped for the user, and not to the physical page 0,
since the address 0 stands for no page. -/
def Found (m : Ram) (p va : ℕ) : Prop := Readable m p va ∧ PPN (pte m p (va / PGSIZE)) ≠ 0

/-- The physical address of `va`. -/
def paddr (m : Ram) (p va : ℕ) : ℕ := PPN (pte m p (va / PGSIZE)) * PGSIZE + va % PGSIZE

/-- The byte at a user address. -/
def ubyte (m : Ram) (p va : ℕ) : UInt8 := m (paddr m p va)

variable {va' len srcva dstva : ℕ} {src : ℕ → UInt8} {A : ℕ → Prop}

theorem Readable.of_page (h : Readable m p va) (hp : va' / PGSIZE = va / PGSIZE) :
    Readable m p va' := by
  unfold Readable at *
  rw [hp]
  refine ⟨?_, h.2⟩
  have := h.1
  unfold MAXVA PGSIZE at *
  omega

theorem Writable.of_page (h : Writable m p va) (hp : va' / PGSIZE = va / PGSIZE) :
    Writable m p va' := by
  refine ⟨h.1.of_page hp, ?_⟩
  rw [hp]
  exact h.2

theorem Found.of_page (h : Found m p va) (hp : va' / PGSIZE = va / PGSIZE) : Found m p va' := by
  refine ⟨h.1.of_page hp, ?_⟩
  rw [hp]
  exact h.2

/-- The tables are the same, so every page is mapped as before. -/
theorem pte_same (hs : Agree m m' (nodes m 2 p)) (v : ℕ) : pte m' p v = pte m p v :=
  (Grows.of_same hs).pte

/-- `walkaddr` returns the page of a user address, and 0 if it is not mapped for the user. -/
theorem walkaddr_spec : wp E (walkaddr (p * PGSIZE) va) (fun x s' => s' = s ∧
    (Readable s.mem p va → x = PPN (pte s.mem p (va / PGSIZE)) * PGSIZE) ∧
    (¬ Readable s.mem p va → x = 0)) s := by
  unfold Readable
  simp only [walkaddr, wp_ite, wp_bind, wp_pure]
  by_cases hva : va < MAXVA
  · rw [if_neg (by omega)]
    refine (walk_read (.inl hva)).mono fun x s' hx => ?_
    obtain ⟨rfl, -, rfl⟩ := hx
    rw [pte_div]
    cases hq : node s'.mem p (vpath 2 va) with
    | none => simp [leaf_of_none hq]
    | some q =>
      rw [leaf_of_some hq]
      simp only [Option.map_some, wp_pure, wp_bind, wp_ite, wp_entry, PTE2PA_eq, hva, true_and]
      by_cases hV : entry s'.mem q (PX 0 va) &&& PTE_V = 0
      · simp [hV]
      · by_cases hU : entry s'.mem q (PX 0 va) &&& PTE_U = 0
        · simp [hV, hU]
        · simp [hV, hU]
  · simp [hva, Nat.le_of_not_lt hva]

/-- The bytes from `va` to the end of its page, `len` of them at most. -/
def chunk (va len : ℕ) : ℕ := min (PGSIZE - (va - PGROUNDDOWN va)) len

theorem chunk_pos (va : ℕ) (hlen : len ≠ 0) : 0 < chunk va len := by
  unfold chunk PGROUNDDOWN PGSIZE
  omega

theorem chunk_le (va len : ℕ) : chunk va len ≤ len := Nat.min_le_right ..

theorem chunk_page {i : ℕ} (hi : i < chunk va len) : (va + i) / PGSIZE = va / PGSIZE := by
  unfold chunk PGROUNDDOWN PGSIZE at *
  omega

theorem chunk_paddr {i : ℕ} (hi : i < chunk va len) : paddr m p (va + i) =
    PPN (pte m p (va / PGSIZE)) * PGSIZE + (va - PGROUNDDOWN va) + i := by
  have hoff : (va + i) % PGSIZE = va - PGROUNDDOWN va + i := by
    unfold chunk PGROUNDDOWN PGSIZE at *
    omega
  rw [paddr, chunk_page hi, hoff, Nat.add_assoc]

/-- What is left after the first page starts where it ends. -/
theorem chunk_next (len : ℕ) (hva : va < MAXVA) (hlt : chunk va len < len) (i : ℕ) :
    u64 ((PGROUNDDOWN va : ℕ) + (PGSIZE : ℕ)) + i = va + (chunk va len + i) := by
  unfold chunk PGROUNDDOWN u64 MAXVA PGSIZE at *
  omega

/-- What holds in the first page and in those after it. -/
theorem chunk_append {P : ℕ → Prop} {N : ℕ} (hva : va < MAXVA) (hN : N ≤ len - chunk va len)
    (hfirst : ∀ i < chunk va len, P (va + i))
    (hrest : ∀ i < N, P (u64 ((PGROUNDDOWN va : ℕ) + (PGSIZE : ℕ)) + i)) :
    ∀ i < chunk va len + N, P (va + i) := by
  intro i hi
  by_cases hin : i < chunk va len
  · exact hfirst i hin
  · have := hrest (i - chunk va len) (by omega)
    rwa [chunk_next len hva (by omega), Nat.add_sub_cancel' (by omega)] at this

theorem PGROUNDDOWN_div (va : ℕ) : PGROUNDDOWN va / PGSIZE = va / PGSIZE :=
  Nat.mul_div_cancel _ PGSIZE_pos

/-- The page that `copyin` and `copyinstr` look up. -/
theorem walkaddr_page : wp E (walkaddr (p * PGSIZE) (PGROUNDDOWN va)) (fun x s' => s' = s ∧
    (Found s.mem p va ∧ x ≠ 0 ∧ x = PPN (pte s.mem p (va / PGSIZE)) * PGSIZE ∨
      ¬ Found s.mem p va ∧ x = 0)) s := by
  refine walkaddr_spec.mono fun x s' h => ?_
  obtain ⟨rfl, hmap, hno⟩ := h
  refine ⟨rfl, ?_⟩
  by_cases hR : Readable s'.mem p va
  · rw [hmap (hR.of_page (PGROUNDDOWN_div va)), PGROUNDDOWN_div]
    by_cases h0 : PPN (pte s'.mem p (va / PGSIZE)) = 0
    · exact .inr ⟨fun h => h.2 h0, by rw [h0, Nat.zero_mul]⟩
    · exact .inl ⟨⟨hR, h0⟩, Nat.mul_ne_zero h0 PGSIZE_pos.ne', rfl⟩
  · exact .inr ⟨fun h => hR h.1, hno fun h => hR (h.of_page (PGROUNDDOWN_div va).symm)⟩

/-! ## `copyin` -/

/-- The memory `dst` in which the bytes from `pos` on became the `N` bytes at the user address
`srcva`, all of them in pages that `walkaddr` finds. -/
structure Fetched (m : Ram) (p : ℕ) (dst : Ram) (pos srcva : ℕ) (dst' : Ram) (N : ℕ) : Prop where
  found : ∀ i < N, Found m p (srcva + i)
  bytes : dst' = dst.write pos (fun i => ubyte m p (srcva + i)) N

section Fetched

variable {dst dst₁ dst₂ : Ram} {pos N : ℕ}

theorem Fetched.zero : Fetched m p dst pos srcva dst 0 := ⟨by simp, Ram.write_zero.symm⟩

/-- Bytes of the first page. -/
theorem Fetched.page (hR : Found m p srcva) (hN : N ≤ chunk srcva len) :
    Fetched m p dst pos srcva (dst.write pos (fun i => m (PPN (pte m p (srcva / PGSIZE)) * PGSIZE +
      (srcva - PGROUNDDOWN srcva) + i)) N) N where
  found i hi := hR.of_page (chunk_page (hi.trans_le hN))
  bytes := Ram.write_congr fun i hi => by rw [ubyte, chunk_paddr (hi.trans_le hN)]

/-- The first page and those after it. -/
theorem Fetched.next (h : Fetched m p dst pos srcva dst₁ (chunk srcva len)) (hva : srcva < MAXVA)
    (hN : N ≤ len - chunk srcva len) (h' : Fetched m p dst₁ (pos + chunk srcva len)
      (u64 ((PGROUNDDOWN srcva : ℕ) + (PGSIZE : ℕ))) dst₂ N) :
    Fetched m p dst pos srcva dst₂ (chunk srcva len + N) where
  found := chunk_append hva hN h.found h'.found
  bytes := by
    rw [h'.bytes, h.bytes, ← Ram.write_write]
    refine Ram.write_congr fun i hi => ?_
    rw [chunk_next len hva (by omega)]

end Fetched

/-- What `copyin` returns and delivers, by the user's memory : all bytes, or those before the
first page that is not found. -/
structure CopiedIn (m : Ram) (p : ℕ) (dst : Ram) (pos srcva len : ℕ) (x : ℤ) (dst' : Ram) (N : ℕ) :
    Prop extends Fetched m p dst pos srcva dst' N where
  ret : x = 0 ∧ N = len ∨ x = -1 ∧ N < len ∧ ¬ Found m p (srcva + N)

theorem copyinLoop_spec {k pos : ℕ} {dst : Ram} (hk : len ≤ k) :
    wp E (copyinLoop (p * PGSIZE) k dst pos srcva len) (fun x s' => s' = s ∧ ∃ N,
      CopiedIn s.mem p dst pos srcva len x.1 x.2 N) s := by
  induction k generalizing dst pos srcva len with
  | zero => exact ⟨rfl, 0, .zero, .inl ⟨rfl, by omega⟩⟩
  | succ k ih =>
    rw [copyinLoop]
    by_cases hlen : len = 0
    · rw [if_pos hlen]
      exact ⟨rfl, 0, .zero, .inl ⟨rfl, hlen.symm⟩⟩
    rw [if_neg hlen]
    refine walkaddr_page.bind fun pa0 s' h => ?_
    obtain ⟨rfl, ⟨hR, hpa, rfl⟩ | ⟨hR, rfl⟩⟩ := h
    · rw [if_neg hpa]
      have hn := chunk_pos srcva hlen
      have hle := chunk_le srcva len
      refine wp_bind.mpr ?_
      rw [wp_get, ← chunk]
      refine (ih (by omega)).mono fun x s₁ h => ?_
      obtain ⟨rfl, N, h⟩ := h
      have hret := h.ret
      refine ⟨rfl, chunk srcva len + N, (Fetched.page hR le_rfl).next hR.1.1 (by omega) h.toFetched,
        hret.imp (fun h => ⟨h.1, by omega⟩) fun h => ⟨h.1, by omega, ?_⟩⟩
      rw [← chunk_next len hR.1.1 (by omega)]
      exact h.2.2
    · rw [if_pos rfl]
      exact ⟨rfl, 0, .zero, .inr ⟨rfl, Nat.pos_of_ne_zero hlen, hR⟩⟩

/-! ## `copyinstr` -/

theorem write_one {dst : Ram} {pos : ℕ} {c : UInt8} (hc : src 0 = c) :
    Function.update dst pos c = dst.write pos src 1 := by
  funext x
  by_cases hx : x = pos
  · rw [hx, Function.update_self, Ram.write_of_mem (Nat.le_refl pos) (by omega), Nat.sub_self, hc]
  · rw [Function.update_of_ne hx, Ram.write_of_disjoint (by omega)]

/-- The bytes up to the first NUL, or `n` bytes without one. -/
theorem strLoop_spec (m : Ram) (n a : ℕ) (dst : Ram) (pos : ℕ) :
    (∃ j < n, (strLoop m n a dst pos).1 = true ∧ m (a + j) = 0 ∧ (∀ i < j, m (a + i) ≠ 0) ∧
      (strLoop m n a dst pos).2.1 = dst.write pos (fun i => m (a + i)) (j + 1)) ∨
    (∀ i < n, m (a + i) ≠ 0) ∧
      strLoop m n a dst pos = (false, dst.write pos (fun i => m (a + i)) n, pos + n) := by
  induction n generalizing a pos dst with
  | zero =>
    refine .inr ⟨nofun, ?_⟩
    rw [strLoop, Ram.write_zero, Nat.add_zero]
  | succ n ih =>
    rw [strLoop]
    by_cases h0 : m a = 0
    · rw [if_pos h0]
      refine .inl ⟨0, Nat.succ_pos n, rfl, h0, nofun, ?_⟩
      exact write_one h0
    · rw [if_neg h0]
      have hw : ∀ k, Ram.write (Function.update dst pos (m a)) (pos + 1)
          (fun i => m (a + 1 + i)) k = dst.write pos (fun i => m (a + i)) (k + 1) := by
        intro k
        have hone : Function.update dst pos (m a) = dst.write pos (fun i => m (a + i)) 1 :=
          write_one rfl
        rw [hone, Nat.add_comm k 1, ← Ram.write_write]
        refine Ram.write_congr fun i _ => ?_
        rw [Nat.add_assoc]
      rcases ih (a + 1) (Function.update dst pos (m a)) (pos + 1) with
        ⟨j, hj, hfound, hnul, hbefore, hdst⟩ | ⟨hnone, hres⟩
      · refine .inl ⟨j + 1, by omega, hfound, ?_, ?_, ?_⟩
        · rwa [Nat.add_comm j 1, ← Nat.add_assoc]
        · intro i hi
          cases i with
          | zero => exact h0
          | succ i =>
            rw [Nat.add_comm i 1, ← Nat.add_assoc]
            exact hbefore i (by omega)
        · rw [hdst, hw]
      · refine .inr ⟨?_, ?_⟩
        · intro i hi
          cases i with
          | zero => exact h0
          | succ i =>
            rw [Nat.add_comm i 1, ← Nat.add_assoc]
            exact hnone i (by omega)
        · rw [hres, hw, Nat.add_assoc, Nat.add_comm 1 n]

/-- What `copyinstr` returns and delivers, by the user's memory : the bytes up to the first NUL, or
to the first page that is not found, or `max` of them. -/
structure CopiedStr (m : Ram) (p : ℕ) (dst : Ram) (pos srcva max : ℕ) (x : ℤ) (dst' : Ram)
    (N : ℕ) : Prop extends Fetched m p dst pos srcva dst' N where
  ret : (x = 0 ∧ N ≤ max ∧ ∃ j, N = j + 1 ∧ ubyte m p (srcva + j) = 0 ∧
      ∀ i < j, ubyte m p (srcva + i) ≠ 0) ∨
    x = -1 ∧ (∀ i < N, ubyte m p (srcva + i) ≠ 0) ∧
      (N = max ∨ N < max ∧ ¬ Found m p (srcva + N))

/-- The pages after the first, in which there is no NUL. -/
theorem CopiedStr.next {dst dst₁ dst₂ : Ram} {pos max N : ℕ} {x : ℤ} (hva : srcva < MAXVA)
    (h : Fetched m p dst pos srcva dst₁ (chunk srcva max))
    (hno : ∀ i < chunk srcva max, ubyte m p (srcva + i) ≠ 0)
    (h' : CopiedStr m p dst₁ (pos + chunk srcva max) (u64 ((PGROUNDDOWN srcva : ℕ) + (PGSIZE : ℕ)))
      (max - chunk srcva max) x dst₂ N) :
    CopiedStr m p dst pos srcva max x dst₂ (chunk srcva max + N) := by
  have hle := chunk_le srcva max
  have hret := h'.ret
  have hnext := chunk_next max hva
  refine ⟨h.next hva (by omega) h'.toFetched, hret.imp ?_ ?_⟩
  · rintro ⟨hx, hN, j, rfl, hnul, hbefore⟩
    refine ⟨hx, by omega, chunk srcva max + j, by omega, ?_,
      chunk_append (P := fun va => ubyte m p va ≠ 0) hva (by omega) hno hbefore⟩
    rwa [hnext (by omega)] at hnul
  · rintro ⟨hx, hall, hend⟩
    refine ⟨hx, chunk_append (P := fun va => ubyte m p va ≠ 0) hva (by omega) hno hall,
      hend.imp (fun h => by omega) fun h => ⟨by omega, ?_⟩⟩
    rw [← hnext (by omega)]
    exact h.2

theorem copyinstrLoop_spec {k pos max : ℕ} {dst : Ram} (hk : max ≤ k) :
    wp E (copyinstrLoop (p * PGSIZE) k dst pos srcva max) (fun x s' => s' = s ∧ ∃ N,
      CopiedStr s.mem p dst pos srcva max x.1 x.2 N) s := by
  induction k generalizing dst pos srcva max with
  | zero => exact ⟨rfl, 0, .zero, .inr ⟨rfl, by simp, .inl (by omega)⟩⟩
  | succ k ih =>
    rw [copyinstrLoop]
    by_cases hlen : max = 0
    · rw [if_pos hlen]
      exact ⟨rfl, 0, .zero, .inr ⟨rfl, by simp, .inl hlen.symm⟩⟩
    rw [if_neg hlen]
    refine walkaddr_page.bind fun pa0 s' h => ?_
    obtain ⟨rfl, ⟨hR, hpa, rfl⟩ | ⟨hR, rfl⟩⟩ := h
    · rw [if_neg hpa]
      have hn := chunk_pos srcva hlen
      have hle := chunk_le srcva max
      refine wp_bind.mpr ?_
      rw [wp_get, ← chunk]
      have hstr := strLoop_spec s'.mem (chunk srcva max)
        (PPN (pte s'.mem p (srcva / PGSIZE)) * PGSIZE + (srcva - PGROUNDDOWN srcva)) dst pos
      have hbyte : ∀ i < chunk srcva max, s'.mem (PPN (pte s'.mem p (srcva / PGSIZE)) * PGSIZE +
          (srcva - PGROUNDDOWN srcva) + i) = ubyte s'.mem p (srcva + i) := fun i hi => by
        rw [ubyte, chunk_paddr hi]
      dsimp only
      generalize strLoop s'.mem (chunk srcva max) _ dst pos = r at hstr ⊢
      rcases hstr with ⟨j, hj, hfound, hnul, hbefore, hdst⟩ | ⟨hnone, rfl⟩
      · -- a NUL in this page
        obtain ⟨found, dst', pos'⟩ := r
        obtain rfl : found = true := hfound
        obtain rfl : dst' = _ := hdst
        refine ⟨rfl, j + 1, .page hR hj, .inl ⟨rfl, by omega, j, rfl, ?_, fun i hi => ?_⟩⟩
        · rw [← hbyte j hj, hnul]
        · rw [← hbyte i (by omega)]
          exact hbefore i hi
      · refine (ih (by omega)).mono fun x s₁ h => ?_
        obtain ⟨rfl, N, h⟩ := h
        refine ⟨rfl, chunk srcva max + N, .next hR.1.1 (.page hR le_rfl) (fun i hi => ?_) h⟩
        rw [← hbyte i hi]
        exact hnone i hi
    · rw [if_pos rfl]
      exact ⟨rfl, 0, .zero, .inr ⟨rfl, by simp, .inr ⟨Nat.pos_of_ne_zero hlen, hR⟩⟩⟩

/-! ## `copyout` -/

/-- No two user pages are one physical page, and none is a page of the table or page 0. -/
structure UserPages (m : Ram) (p : ℕ) : Prop where
  inj : ∀ {va va'}, Readable m p va → Readable m p va' →
    PPN (pte m p (va / PGSIZE)) = PPN (pte m p (va' / PGSIZE)) → va / PGSIZE = va' / PGSIZE
  table : ∀ {va}, Readable m p va → PPN (pte m p (va / PGSIZE)) ∉ nodes m 2 p
  nonzero : ∀ {va}, Readable m p va → PPN (pte m p (va / PGSIZE)) ≠ 0

/-- The user's addresses of `A` are in physical pages of their own, and not in the table. -/
structure Apart (m : Ram) (p : ℕ) (A : ℕ → Prop) : Prop where
  inj : ∀ {va va'}, A va → Readable m p va → Readable m p va' →
    PPN (pte m p (va / PGSIZE)) = PPN (pte m p (va' / PGSIZE)) → va / PGSIZE = va' / PGSIZE
  table : ∀ {va}, A va → Readable m p va → PPN (pte m p (va / PGSIZE)) ∉ nodes m 2 p

theorem UserPages.apart (hu : UserPages m p) (A : ℕ → Prop) : Apart m p A :=
  ⟨fun _ => hu.inj, fun _ => hu.table⟩

/-- The memory `m` in which `N` bytes at the user address `dstva` became those of `src`. -/
structure Delivered (m m' : Ram) (p dstva : ℕ) (src : ℕ → UInt8) (N : ℕ) : Prop where
  inside : ∀ i < N, m' (paddr m p (dstva + i)) = src i
  outside : ∀ b, (∀ i < N, b ≠ paddr m p (dstva + i)) → m' b = m b

section Agree

variable (hpte : ∀ v, pte m' p v = pte m p v)

include hpte

theorem readable_congr : Readable m' p va ↔ Readable m p va := by
  unfold Readable
  rw [hpte]

theorem writable_congr : Writable m' p va ↔ Writable m p va := by
  unfold Writable
  rw [readable_congr hpte, hpte]

theorem found_congr : Found m' p va ↔ Found m p va := by
  unfold Found
  rw [readable_congr hpte, hpte]

theorem paddr_congr : paddr m' p va = paddr m p va := by
  unfold paddr
  rw [hpte]

end Agree

theorem Apart.same (ha : Apart m p A) (hs : Agree m m' (nodes m 2 p)) : Apart m' p A where
  inj hA h h' he := by
    have hpte := pte_same hs
    rw [hpte, hpte] at he
    exact ha.inj hA ((readable_congr hpte).mp h) ((readable_congr hpte).mp h') he
  table hA h := by
    have hpte := pte_same hs
    rw [hpte, nodes_same hs]
    exact ha.table hA ((readable_congr hpte).mp h)

theorem paddr_div (m : Ram) (p va : ℕ) : paddr m p va / PGSIZE = PPN (pte m p (va / PGSIZE)) := by
  have := Nat.mod_lt va PGSIZE_pos
  unfold paddr
  rw [Nat.mul_comm, Nat.mul_add_div PGSIZE_pos, Nat.div_eq_of_lt this, Nat.add_zero]

theorem UserPages.same (hu : UserPages m p) (hs : Agree m m' (nodes m 2 p)) : UserPages m' p where
  inj := ((hu.apart fun _ => True).same hs).inj trivial
  table := ((hu.apart fun _ => True).same hs).table trivial
  nonzero h := by
    have hpte := pte_same hs
    rw [hpte]
    exact hu.nonzero ((readable_congr hpte).mp h)

/-- Distinct user addresses have distinct physical addresses. -/
theorem Apart.paddr_inj (ha : Apart m p A) (hA : A va) (h : Readable m p va) (h' : Readable m p va')
    (he : paddr m p va = paddr m p va') : va = va' := by
  have hpage := ha.inj hA h h' (by rw [← paddr_div, ← paddr_div, he])
  unfold paddr at he
  rw [hpage] at he
  rw [← Nat.div_add_mod va PGSIZE, ← Nat.div_add_mod va' PGSIZE, hpage]
  omega

theorem Delivered.refl : Delivered m m p dstva src 0 :=
  ⟨nofun, fun _ _ => rfl⟩

/-- Delivering bytes to user pages leaves the tables alone. -/
theorem Delivered.same {N : ℕ} (hd : Delivered m m' p dstva src N) (hu : Apart m p A)
    (hA : ∀ i < N, A (dstva + i)) (hr : ∀ i < N, Readable m p (dstva + i)) :
    Agree m m' (nodes m 2 p) := by
  intro a ha
  refine hd.outside a fun i hi he => hu.table (hA i hi) (hr i hi) ?_
  rwa [← paddr_div, ← he]

theorem Delivered.trans {n N : ℕ} (hd : Delivered m m' p dstva src n)
    (hd' : Delivered m' m'' p (dstva + n) (fun i => src (n + i)) N) (hu : Apart m p A)
    (hA : ∀ i < n + N, A (dstva + i)) (hr : ∀ i < n + N, Readable m p (dstva + i)) :
    Delivered m m'' p dstva src (n + N) := by
  have hpte := pte_same (hd.same hu (fun i hi => hA i (by omega)) fun i hi => hr i (by omega))
  refine ⟨fun i hi => ?_, fun b hb => ?_⟩
  · by_cases hin : i < n
    · rw [hd'.outside, hd.inside i hin]
      intro j hj he
      rw [paddr_congr hpte] at he
      have hr' := hr (n + j) (by omega)
      rw [← Nat.add_assoc] at hr'
      have := hu.paddr_inj (hA i hi) (hr i hi) hr' he
      omega
    · have := hd'.inside (i - n) (by omega)
      rwa [paddr_congr hpte, Nat.add_assoc, Nat.add_sub_cancel' (by omega)] at this
  · rw [hd'.outside, hd.outside]
    · exact fun i hi => hb i (by omega)
    · intro j hj
      rw [paddr_congr hpte, Nat.add_assoc]
      exact hb (n + j) (by omega)

/-- The bytes of the first page. -/
theorem Delivered.page (m : Ram) (p dstva : ℕ) (src : ℕ → UInt8) (len : ℕ) :
    Delivered m (m.write (PPN (pte m p (dstva / PGSIZE)) * PGSIZE + (dstva - PGROUNDDOWN dstva)) src
      (chunk dstva len)) p dstva src (chunk dstva len) := by
  refine ⟨fun i hi => ?_, fun b hb => ?_⟩
  · rw [chunk_paddr hi, Ram.write_of_mem (by omega) (by omega), Nat.add_sub_cancel_left]
  · refine Ram.write_of_disjoint fun h => hb _ (by omega : b - (PPN (pte m p
      (dstva / PGSIZE)) * PGSIZE + (dstva - PGROUNDDOWN dstva)) < chunk dstva len) ?_
    rw [chunk_paddr (by omega : _ < chunk dstva len)]
    omega

/-- A round of the loop checks that the page is mapped for writing. -/
theorem copyoutLoop_page {k : ℕ} {Q : ℤ → Phys → Prop} (hlen : len ≠ 0)
    (hno : ¬ Writable s.mem p dstva → Q (-1) s)
    (hyes : Writable s.mem p dstva → wp E (copyoutLoop (p * PGSIZE) k
      (u64 ((PGROUNDDOWN dstva : ℕ) + (PGSIZE : ℕ))) (fun i => src (chunk dstva len + i))
      (len - chunk dstva len)) Q { s with
        mem := s.mem.write (PPN (pte s.mem p (dstva / PGSIZE)) * PGSIZE +
          (dstva - PGROUNDDOWN dstva)) src (chunk dstva len) }) :
    wp E (copyoutLoop (p * PGSIZE) (k + 1) dstva src len) Q s := by
  rw [copyoutLoop, if_neg hlen]
  dsimp only
  split
  · rename_i hva
    refine hno fun h => absurd h.1.1 ?_
    unfold PGROUNDDOWN PGSIZE MAXVA at *
    omega
  rename_i hva
  refine (walk_read (.inl (Nat.lt_of_not_le hva))).bind fun x s' hx => ?_
  obtain ⟨rfl, -, rfl⟩ := hx
  have he := pte_div s'.mem p (PGROUNDDOWN dstva)
  rw [PGROUNDDOWN_div] at he
  cases hq : node s'.mem p (vpath 2 (PGROUNDDOWN dstva)) with
  | none =>
    rw [leaf_of_none hq] at he
    refine hno fun h => h.1.2.1 ?_
    rw [he]
    decide
  | some q =>
    rw [leaf_of_some hq] at he
    simp only [Option.map_some]
    refine wp_bind.mpr (wp_entry.mpr ?_)
    rw [← he]
    split
    · rename_i hbad
      refine hno fun h => ?_
      rcases hbad with hV | hU | hW
      · exact h.1.2.1 hV
      · exact h.1.2.2 hU
      · exact h.2 hW
    · rename_i hok
      simp only [not_or] at hok
      refine wp_bind.mpr (wp_modify.mpr ?_)
      rw [← chunk, PTE2PA_eq]
      refine hyes ⟨⟨?_, hok.1, hok.2.1⟩, hok.2.2⟩
      unfold PGROUNDDOWN PGSIZE MAXVA at *
      omega

/-- The loop delivers the bytes before the first address that is not mapped for writing. -/
theorem copyoutLoop_spec {k : ℕ} (hk : len ≤ k) (hu : Apart s.mem p A)
    (hA : ∀ i < len, (∀ j ≤ i, Writable s.mem p (dstva + j)) → A (dstva + i)) :
    wp E (copyoutLoop (p * PGSIZE) k dstva src len) (fun x s' => s'.freelist = s.freelist ∧
      ∃ N ≤ len, (∀ i < N, Writable s.mem p (dstva + i)) ∧ Delivered s.mem s'.mem p dstva src N ∧
      (x = 0 ∧ N = len ∨ x = -1 ∧ N < len ∧ ¬ Writable s.mem p (dstva + N))) s := by
  induction k generalizing s dstva len src with
  | zero => exact ⟨rfl, 0, Nat.zero_le len, by simp, .refl, .inl ⟨rfl, by omega⟩⟩
  | succ k ih =>
    by_cases hlen : len = 0
    · rw [copyoutLoop, if_pos hlen]
      exact ⟨rfl, 0, Nat.zero_le len, by simp, .refl, .inl ⟨rfl, hlen.symm⟩⟩
    refine copyoutLoop_page hlen (fun hW => ?_) fun hW => ?_
    · exact ⟨rfl, 0, Nat.zero_le len, by simp, .refl, .inr ⟨rfl, Nat.pos_of_ne_zero hlen, hW⟩⟩
    have hn := chunk_pos dstva hlen
    have hle := chunk_le dstva len
    have hnext := chunk_next len hW.1.1
    have hfirst : ∀ i < chunk dstva len, Writable s.mem p (dstva + i) := fun i hi =>
      hW.of_page (chunk_page hi)
    have hd := Delivered.page s.mem p dstva src len
    have hs := hd.same hu (fun i hi => hA i (by omega) fun j hj => hfirst j (by omega))
      fun i hi => (hfirst i hi).1
    have hpte := pte_same hs
    refine (ih (by omega) (hu.same hs) fun i hi hw => ?_).mono fun x s₁ h => ?_
    · rw [hnext (by omega)]
      have hall := chunk_append hW.1.1 (by omega : i + 1 ≤ len - chunk dstva len) hfirst
        fun j hj => (writable_congr hpte).mp (hw j (by omega))
      exact hA _ (by omega) fun j hj => hall j (by omega)
    obtain ⟨hf, N, hN, hwrite, hd', hres⟩ := h
    have hall : ∀ i < chunk dstva len + N, Writable s.mem p (dstva + i) :=
      chunk_append hW.1.1 hN hfirst fun i hi => (writable_congr hpte).mp (hwrite i hi)
    refine ⟨hf, chunk dstva len + N, by omega, hall, ?_, ?_⟩
    · by_cases hN0 : N = 0
      · have heq : s₁.mem = _ := funext fun b => hd'.outside b fun i hi => by omega
        rwa [heq, hN0, Nat.add_zero]
      · refine hd.trans ?_ hu (fun i hi => hA i (by omega) fun j hj => hall j (by omega))
          fun i hi => (hall i hi).1
        have := hnext (by omega) 0
        rw [Nat.add_zero, Nat.add_zero] at this
        rwa [← this]
    · refine hres.imp (fun h => ⟨h.1, by omega⟩) fun h => ⟨h.1, by omega, ?_⟩
      rw [← hnext (by omega), ← writable_congr hpte]
      exact h.2.2

/-! ## The three copies -/

/-- The physical pages of the user. -/
def userPages (m : Ram) (p : ℕ) : Set ℕ :=
  {q | ∃ va, Readable m p va ∧ q = PPN (pte m p (va / PGSIZE))}

/-- Bytes before a page that is not mapped are in pages before it. -/
theorem page_lt {P : ℕ → Prop} (hP : ∀ {va va'}, P va → va' / PGSIZE = va / PGSIZE → P va')
    {a i N : ℕ} (hall : ∀ i < N, P (a + i)) (hN : ¬ P (a + N)) (hi : i < N) :
    (a + i) / PGSIZE < (a + N) / PGSIZE := by
  have hle : (a + i) / PGSIZE ≤ (a + N) / PGSIZE := Nat.div_le_div_right (by omega)
  exact Nat.lt_of_le_of_ne hle fun he => hN (hP (hall i hi) he.symm)

/-- A copy of `len` bytes at `a` that ends at the first byte without `P` ends at the start of a
page. -/
theorem ends_first {P : ℕ → Prop} (hP : ∀ {va va'}, P va → va' / PGSIZE = va / PGSIZE → P va')
    {a N : ℕ} {x : ℤ} (hall : ∀ i < N, P (a + i))
    (hret : x = 0 ∧ N = len ∨ x = -1 ∧ N < len ∧ ¬ P (a + N)) :
    (x = 0 ∨ x = -1) ∧ (x = 0 ↔ ∀ i < len, P (a + i)) ∧ (x = 0 → N = len) ∧
      (x = -1 → N < len ∧ ¬ P (a + N) ∧ ∀ i < N, (a + i) / PGSIZE < (a + N) / PGSIZE) := by
  rcases hret with ⟨rfl, rfl⟩ | ⟨rfl, hlt, hno⟩
  · exact ⟨.inl rfl, iff_of_true rfl hall, fun _ => rfl, by omega⟩
  · refine ⟨.inr rfl, iff_of_false (by decide) fun h => hno (h N hlt), by omega,
      fun _ => ⟨hlt, hno, fun i hi => page_lt hP hall hno hi⟩⟩

/-- What a user reads is the same in memories with the same tables and user pages. -/
theorem ubyte_same {s₂ : Phys} (hs : Agree s.mem s₂.mem (nodes s.mem 2 p ∪ userPages s.mem p)) :
    (∀ v, pte s₂.mem p v = pte s.mem p v) ∧
      ∀ va, Readable s.mem p va → ubyte s₂.mem p va = ubyte s.mem p va := by
  have hpte := pte_same (hs.mono Set.subset_union_left)
  refine ⟨hpte, fun va hva => ?_⟩
  rw [ubyte, paddr_congr hpte]
  refine hs _ (.inr ⟨va, hva, ?_⟩)
  rw [paddr_div]

section Delivered

variable {N : ℕ} (hd : Delivered m m' p dstva src N) (hr : ∀ i < N, Readable m p (dstva + i))

include hd hr

/-- What the user reads after bytes were delivered. -/
theorem Delivered.reads (ha : Apart m p A) (hA : ∀ i < N, A (dstva + i)) (hva : Readable m p va) :
    ubyte m' p va =
      if dstva ≤ va ∧ va < dstva + N then src (va - dstva) else ubyte m p va := by
  rw [ubyte, paddr_congr (pte_same (hd.same ha hA hr))]
  split
  · rename_i hin
    have := hd.inside (va - dstva) (by omega)
    rwa [Nat.add_sub_cancel' hin.1] at this
  · rename_i hout
    refine hd.outside _ fun i hi he => hout ?_
    have := ha.paddr_inj (hA i hi) (hr i hi) hva he.symm
    omega

theorem Delivered.confined : Agree m m' (userPages m p)ᶜ := by
  intro a ha
  refine hd.outside a fun i hi he => ha ⟨dstva + i, hr i hi, ?_⟩
  rw [he, paddr_div]

end Delivered

section Determined

variable {dst dst₁ : Ram} {pos srcva len max N : ℕ} {x : ℤ}
  (hpte : ∀ v, pte m' p v = pte m p v)
  (hbyte : ∀ va, Readable m p va → ubyte m' p va = ubyte m p va)

include hpte hbyte

theorem Fetched.congr (h : Fetched m p dst pos srcva dst₁ N) :
    Fetched m' p dst pos srcva dst₁ N where
  found i hi := (found_congr hpte).mpr (h.found i hi)
  bytes := by
    rw [h.bytes]
    exact Ram.write_congr fun i hi => (hbyte _ (h.found i hi).1).symm

theorem CopiedIn.congr (h : CopiedIn m p dst pos srcva len x dst₁ N) :
    CopiedIn m' p dst pos srcva len x dst₁ N where
  toFetched := h.toFetched.congr hpte hbyte
  ret := by
    rw [found_congr hpte]
    exact h.ret

theorem CopiedStr.congr (h : CopiedStr m p dst pos srcva max x dst₁ N) :
    CopiedStr m' p dst pos srcva max x dst₁ N where
  toFetched := h.toFetched.congr hpte hbyte
  ret := by
    rw [found_congr hpte]
    refine h.ret.imp ?_ ?_
    · rintro ⟨hx, hle, j, hN, hnul, hbefore⟩
      refine ⟨hx, hle, j, hN, ?_, fun i hi => ?_⟩
      · rwa [hbyte _ (h.found j (by omega)).1]
      · rw [hbyte _ (h.found i (by omega)).1]
        exact hbefore i hi
    · rintro ⟨hx, hall, hend⟩
      refine ⟨hx, fun i hi => ?_, hend⟩
      rw [hbyte _ (h.found i hi).1]
      exact hall i hi

end Determined

section Unique

variable {dst dst₁ dst₂ : Ram} {pos srcva len max N₁ N₂ : ℕ} {x₁ x₂ : ℤ}

theorem CopiedIn.unique (h₁ : CopiedIn m p dst pos srcva len x₁ dst₁ N₁)
    (h₂ : CopiedIn m p dst pos srcva len x₂ dst₂ N₂) : x₁ = x₂ ∧ dst₁ = dst₂ := by
  have hN : N₁ = N₂ := by
    rcases Nat.lt_trichotomy N₁ N₂ with hlt | heq | hlt
    · have := h₁.ret.resolve_left (by have := h₂.ret; omega)
      exact absurd (h₂.found _ hlt) this.2.2
    · exact heq
    · have := h₂.ret.resolve_left (by have := h₁.ret; omega)
      exact absurd (h₁.found _ hlt) this.2.2
  have hx : x₁ = x₂ := by
    have := h₁.ret
    have := h₂.ret
    omega
  exact ⟨hx, by rw [h₁.bytes, h₂.bytes, hN]⟩

/-- Neither of two outcomes of `copyinstr` can have gone on further. -/
theorem CopiedStr.le (h₁ : CopiedStr m p dst pos srcva max x₁ dst₁ N₁)
    (h₂ : CopiedStr m p dst pos srcva max x₂ dst₂ N₂) : N₂ ≤ N₁ := by
  by_contra hlt
  have hN₂ : N₂ ≤ max := by
    have := h₂.ret
    omega
  rcases h₁.ret with ⟨-, -, j, hj, hnul, -⟩ | ⟨-, -, hend | ⟨-, hno⟩⟩
  · rcases h₂.ret with ⟨-, -, j', hj', -, hbefore⟩ | ⟨-, hall, -⟩
    · exact hbefore j (by omega) hnul
    · exact hall j (by omega) hnul
  · omega
  · exact hno (h₂.found N₁ (by omega))

theorem CopiedStr.unique (h₁ : CopiedStr m p dst pos srcva max x₁ dst₁ N₁)
    (h₂ : CopiedStr m p dst pos srcva max x₂ dst₂ N₂) : x₁ = x₂ ∧ dst₁ = dst₂ := by
  have hN : N₁ = N₂ := Nat.le_antisymm (h₂.le h₁) (h₁.le h₂)
  refine ⟨?_, by rw [h₁.bytes, h₂.bytes, hN]⟩
  rcases h₁.ret with ⟨hx₁, -, j, hj, hnul, -⟩ | ⟨hx₁, hall, -⟩ <;>
    rcases h₂.ret with ⟨hx₂, -, j', hj', hnul', -⟩ | ⟨hx₂, hall', -⟩
  · rw [hx₁, hx₂]
  · exact absurd hnul (hall' j (by omega))
  · exact absurd hnul' (hall j' (by omega))
  · rw [hx₁, hx₂]

end Unique

theorem copyin_exact (s : Phys) (p srcva len : ℕ) (dst : Ram) :
    ∃ x dst' N, copyin (p * PGSIZE) dst srcva len s = .ok ((x, dst'), s) ∧
      CopiedIn s.mem p dst 0 srcva len x dst' N := by
  have hspec : wp (fun _ => False) (copyin (p * PGSIZE) dst srcva len) _ s :=
    copyinLoop_spec (Nat.le_refl len)
  obtain ⟨x, s', hrun, rfl, N, h⟩ := hspec.returns
  exact ⟨x.1, x.2, N, hrun, h⟩

theorem copyinstr_exact (s : Phys) (p srcva max : ℕ) (dst : Ram) :
    ∃ x dst' N, copyinstr (p * PGSIZE) dst srcva max s = .ok ((x, dst'), s) ∧
      CopiedStr s.mem p dst 0 srcva max x dst' N := by
  have hspec : wp (fun _ => False) (copyinstr (p * PGSIZE) dst srcva max) _ s :=
    copyinstrLoop_spec (Nat.le_refl max)
  obtain ⟨x, s', hrun, rfl, N, h⟩ := hspec.returns
  exact ⟨x.1, x.2, N, hrun, h⟩

/-- The user of a table in the last three pages of the memory has one page, at address 0. -/
theorem threePhys_user : ∃ s : Phys, UserPages s.mem 0x87ffd ∧ Writable s.mem 0x87ffd 0 := by
  obtain ⟨s, -, -, -, hb, hpte⟩ := threePhys_mapped
  have hzero := (hpte 0 (by omega)).trans (if_pos rfl)
  have hppn : PPN (pte s.mem 0x87ffd 0) = 5 := by
    rw [hzero]
    decide
  have hpage : ∀ {va}, Readable s.mem 0x87ffd va → va / PGSIZE = 0 := by
    intro va h
    by_contra hne
    have hva : va / PGSIZE < 2 ^ 27 := by
      have := h.1
      unfold MAXVA at this
      unfold PGSIZE
      omega
    refine h.2.1 ?_
    rw [hpte _ hva, if_neg hne]
    decide
  refine ⟨s, ⟨fun h h' _ => (hpage h).trans (hpage h').symm, fun h => ?_, fun h => ?_⟩, ?_⟩
  · rw [hpage h, hppn]
    rintro ⟨π, hπ, hq⟩
    have := threePages_managed.mp (hb.rooted.table.managed hπ hq)
    omega
  · rw [hpage h, hppn]
    decide
  · refine ⟨⟨by decide, ?_, ?_⟩, ?_⟩ <;>
    · rw [Nat.zero_div, hzero]
      decide

/-- The memory with tables in the pages 1, 2 and 3. The first two virtual pages are mapped to
page 4, and the third is mapped to page 0. -/
def aliasMem : Ram :=
  [(1 * PGSIZE, 2 * 2 ^ 10 + 1), (2 * PGSIZE, 3 * 2 ^ 10 + 1), (3 * PGSIZE, 4 * 2 ^ 10 + 23),
    (3 * PGSIZE + 8, 4 * 2 ^ 10 + 23), (3 * PGSIZE + 16, 17)].foldl
      (fun m x => m.store 8 x.1 x.2) fun _ => 0

end Xv6.Vm
