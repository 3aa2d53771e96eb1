import Xv6.PageTable

/-!
# Page tables as finite maps

`pte m p v` is the entry of the virtual page `v` in the table `p`. The specifications of
`mappages` and `uvmunmap` say which entries they set and clear, that the other entries stay
as they are, and which pages pass between the table, its user and the free list. A panic is
either excluded by the state of the table or left to `E`.

`lookup` reads a table as a map from virtual pages to a physical page and flags. A table that
was built by `walk`, `mappages` and `uvmunmap` (`Built`) goes through the updates of that map
(`pagetable_refines_map`).
-/

namespace Xv6.Vm

open Prog

variable {I : KernelImage} {E : VmPanic → Prop} {K : Set ℕ} {s : Phys} {m m' : Ram} {p v w : ℕ}

/-! ## The entry of a page -/

/-- The entry that `walk` finds for the virtual page `v`, 0 if there is no table for it. -/
def pte (m : Ram) (p v : ℕ) : ℕ := leaf m p (vpath 2 (v * PGSIZE)) (PX 0 (v * PGSIZE))

theorem PX_page (level va : ℕ) : PX level (va / PGSIZE * PGSIZE) = PX level va := by
  have h : va / PGSIZE * PGSIZE / 2 ^ 12 = va / 2 ^ 12 := by
    unfold PGSIZE
    omega
  rw [PX_eq, PX_eq, pow_add, ← Nat.div_div_eq_div_mul, ← Nat.div_div_eq_div_mul, h]

theorem vpath_page (level va : ℕ) : vpath level (va / PGSIZE * PGSIZE) = vpath level va := by
  induction level with
  | zero => rfl
  | succ level ih => rw [vpath, vpath, PX_page, ih]

theorem pte_div (m : Ram) (p va : ℕ) : pte m p (va / PGSIZE) = leaf m p (vpath 2 va) (PX 0 va) := by
  rw [pte, vpath_page, PX_page]

/-- Two pages below `2 ^ 27` have the same indices only if they are the same. -/
theorem vpath_inj (hv : v < 2 ^ 27) (hw : w < 2 ^ 27) :
    vpath 2 (v * PGSIZE) = vpath 2 (w * PGSIZE) ∧ PX 0 (v * PGSIZE) = PX 0 (w * PGSIZE) ↔
      v = w := by
  refine ⟨?_, fun h => by rw [h]; exact ⟨rfl, rfl⟩⟩
  simp only [vpath, PX_eq, List.cons.injEq, and_true, PGSIZE]
  omega

theorem Grows.pte (hg : Grows m m' 2 p) : pte m' p v = pte m p v :=
  hg.leaf (vpath_path ..) (vpath_length ..) (PX_lt ..)

/-- There is a table for a page whose entry is not 0. -/
theorem node_of_pte (h : pte m p v ≠ 0) :
    ∃ q, node m p (vpath 2 (v * PGSIZE)) = some q ∧ pte m p v = entry m q (PX 0 (v * PGSIZE)) := by
  cases hq : node m p (vpath 2 (v * PGSIZE)) with
  | none => exact absurd (leaf_of_none hq) h
  | some q => exact ⟨q, rfl, leaf_of_some hq⟩

variable {q k perm n : ℕ} {do_free : Bool}

theorem setPte_spec (hr : Rooted I K s 2 p) {x : ℕ} (hv : v < 2 ^ 27)
    (hq : node s.mem p (vpath 2 (v * PGSIZE)) = some q) (hx : x < 2 ^ 64) :
    wp E (store64 (q * PGSIZE + 8 * PX 0 (v * PGSIZE)) x) (fun _ s' =>
      Rooted I K s' 2 p ∧ Agree s.mem s'.mem K ∧
        ∀ w < 2 ^ 27, pte s'.mem p w = if w = v then x else pte s.mem p w) s := by
  obtain ⟨hr', hs, -, hleaf⟩ :=
    hr.setLeaf (vpath_path ..) (vpath_length ..) hq (PX_lt ..) rfl
  refine ⟨hr', hs, fun w hw => ?_⟩
  rw [pte, hleaf (vpath_path ..) (vpath_length ..) (PX_lt ..), Nat.mod_eq_of_lt (by omega)]
  exact if_congr (vpath_inj hw hv) rfl rfl

/-! ## `mappages` -/

/-- What `mappages` puts into the entry of the page `k` pages after the first. -/
def mapEntry (pa perm k : ℕ) : ℕ := PA2PTE (u64 (pa + k * PGSIZE : ℕ)) ||| perm ||| PTE_V

theorem mapEntry_lt {pa : ℕ} (hperm : perm < 2 ^ 64) : mapEntry pa perm k < 2 ^ 64 := by
  refine Nat.or_lt_two_pow (Nat.or_lt_two_pow ?_ hperm) (by decide)
  have : u64 (pa + k * PGSIZE : ℕ) < 2 ^ 64 := by
    rw [u64_natCast]
    exact Nat.mod_lt _ (by omega)
  rw [PA2PTE_eq]
  generalize u64 (pa + k * PGSIZE : ℕ) = x at this
  unfold PGSIZE
  omega

theorem mapEntry_succ (pa perm k : ℕ) :
    mapEntry (u64 (pa + PGSIZE)) perm k = mapEntry pa perm (k + 1) := by
  have : u64 (u64 (pa + PGSIZE) + k * PGSIZE : ℕ) = u64 (pa + (k + 1) * PGSIZE : ℕ) := by
    rw [u64_natCast, u64_natCast]
    unfold u64 PGSIZE
    omega
  rw [mapEntry, this, mapEntry]

/-- The address of the next page. -/
theorem u64_next (hv : v < 2 ^ 27) :
    u64 ((v * PGSIZE : ℕ) + (PGSIZE : ℕ)) = (v + 1) * PGSIZE := by
  unfold u64 PGSIZE
  omega

/-- `n` pages from `v` on are mapped, or as many as there is memory for. -/
structure MapsPages (I : KernelImage) (K : Set ℕ) (s : Phys) (p v n pa perm : ℕ) (x : ℤ)
    (s' : Phys) : Prop where
  rooted : Rooted I K s' 2 p
  same : Agree s.mem s'.mem K
  upto : ∃ j, v + j ≤ 2 ^ 26 ∧ (x = 0 ∧ j = n ∨ x = -1 ∧ j < n) ∧ ∀ w < 2 ^ 27, pte s'.mem p w =
    if v ≤ w ∧ w < v + j then mapEntry pa perm (w - v) else pte s.mem p w

theorem mapLoop_spec {last pa : ℕ} (hperm : perm < 2 ^ 64) (hr : Rooted I K s 2 p) (h0 : 0 < k)
    (hk : k ≤ 2 ^ 52) (hlast : last = u64 ((v + k - 1) * PGSIZE : ℕ))
    (hwalk : v + k ≤ 2 ^ 26 ∨ E .walk)
    (hfree : (∀ w < 2 ^ 26, v ≤ w → w < v + k → pte s.mem p w &&& PTE_V = 0) ∨ E .remap)
    (hpa : pa < 2 ^ 64) : wp E (mapLoop (p * PGSIZE) last perm k (v * PGSIZE) pa)
      (MapsPages I K s p v k pa perm) s := by
  induction k generalizing s v pa with
  | zero => omega
  | succ k ih =>
    simp only [mapLoop, load64, store64, wp_bind]
    refine (walk_spec hr ?_).mono fun x s₁ hx => ?_
    · refine hwalk.imp_left fun h => ?_
      unfold MAXVA PGSIZE
      omega
    obtain ⟨hva, hr₁, hg, hs₁, hx⟩ := hx
    have hv : v < 2 ^ 26 := by
      unfold MAXVA PGSIZE at hva
      omega
    obtain rfl | ⟨q, rfl, hq⟩ := hx
    · refine ⟨hr₁, hs₁, 0, by omega, .inr ⟨rfl, by omega⟩, fun w hw => ?_⟩
      rw [if_neg (by omega), hg.pte]
    have hold : pte s₁.mem p v = entry s₁.mem q (PX 0 (v * PGSIZE)) := leaf_of_some hq
    have hx : PA2PTE pa ||| perm ||| PTE_V = mapEntry pa perm 0 := by
      rw [mapEntry, Nat.zero_mul, Nat.add_zero, u64_of_lt hpa]
    simp only [wp_get, wp_ite, wp_throw, wp_pure, wp_bind]
    rw [← entry, ← hold, hg.pte, hx]
    split
    · rename_i hne
      exact hfree.resolve_left fun h => hne (h v hv (Nat.le_refl v) (by omega))
    refine (setPte_spec hr₁ (by omega) hq (mapEntry_lt hperm)).mono fun _ s₂ h₂ => ?_
    obtain ⟨hr₂, hsame, hpte⟩ := h₂
    simp only [hg.pte] at hpte
    split
    · rename_i he
      obtain rfl : k = 0 := by
        rw [hlast, u64_natCast] at he
        unfold PGSIZE at he
        omega
      refine ⟨hr₂, hs₁.trans hsame, 1, by omega, .inl ⟨rfl, rfl⟩, fun w hw => ?_⟩
      rw [hpte w hw]
      by_cases hwv : w = v
      · rw [if_pos hwv, if_pos (by omega), hwv, Nat.sub_self]
      · rw [if_neg hwv, if_neg (by omega)]
    · rename_i he
      have hk0 : 0 < k := by
        by_contra hk0
        refine he ?_
        rw [hlast, u64_natCast]
        unfold PGSIZE
        omega
      have hpa' : u64 (pa + PGSIZE) < 2 ^ 64 := by
        unfold u64
        omega
      rw [u64_next (by omega)]
      refine (ih hr₂ hk0 (by omega) ?_ (hwalk.imp_left fun h => by omega) ?_ hpa').mono
        fun x s₃ h₃ => ?_
      · rw [hlast]
        congr 3
        omega
      · refine hfree.imp_left fun h w hw hle hlt => ?_
        rw [hpte w (by omega), if_neg (by omega)]
        exact h w hw (by omega) (by omega)
      · obtain ⟨hr₃, hs₃, j, hj, hres, hpte₃⟩ := h₃
        refine ⟨hr₃, (hs₁.trans hsame).trans hs₃, j + 1, by omega, by omega, fun w hw => ?_⟩
        rw [hpte₃ w hw, hpte w hw, mapEntry_succ]
        by_cases hwv : w = v
        · rw [if_neg (by omega), if_pos hwv, if_pos (by omega), hwv, Nat.sub_self]
        · by_cases hin : v ≤ w ∧ w < v + (j + 1)
          · rw [if_pos (by omega), if_pos hin, show w - (v + 1) + 1 = w - v by omega]
          · rw [if_neg (by omega), if_neg hwv, if_neg hin]

theorem mappages_spec {pa : ℕ} (hr : Rooted I K s 2 p) (hn : 0 < n) (hn' : n ≤ 2 ^ 52)
    (hwalk : v + n ≤ 2 ^ 26 ∨ E .walk)
    (hfree : (∀ w < 2 ^ 26, v ≤ w → w < v + n → pte s.mem p w &&& PTE_V = 0) ∨ E .remap)
    (hpa : pa < 2 ^ 64) (hperm : perm < 2 ^ 64) :
    wp E (mappages (p * PGSIZE) (v * PGSIZE) (n * PGSIZE) pa perm)
      (MapsPages I K s p v n pa perm) s := by
  have hne : n * PGSIZE ≠ 0 := Nat.mul_ne_zero hn.ne' PGSIZE_pos.ne'
  have hlast : u64 ((v * PGSIZE : ℕ) + (n * PGSIZE : ℕ) - (PGSIZE : ℕ)) =
      u64 ((v + n - 1) * PGSIZE : ℕ) := by
    congr 1
    unfold PGSIZE
    omega
  simp only [mappages, Nat.mul_mod_left, ne_eq, not_true_eq_false, ↓reduceIte, hne,
    Nat.mul_div_cancel n PGSIZE_pos, hlast]
  exact mapLoop_spec hperm hr hn hn' rfl hwalk hfree hpa

/-! ## `uvmunmap` -/

/-- A page that `uvmunmap` takes. -/
def IsLeaf (e : ℕ) : Prop := e &&& PTE_V ≠ 0 ∧ PTE_FLAGS e ≠ PTE_V

/-- One of the `n` virtual pages from `v` on. -/
def InRange (v n w : ℕ) : Prop := w < 2 ^ 26 ∧ v ≤ w ∧ w < v + n

/-- The pages that `n` virtual pages from `v` on are mapped to. -/
def mapped (m : Ram) (p v n : ℕ) : Set ℕ := {q | ∃ w, InRange v n w ∧ q = PPN (pte m p w)}

/-- The virtual pages of the range that are mapped, are mapped to distinct pages of `K`. -/
structure Frees (I : KernelImage) (K : Set ℕ) (m : Ram) (p v n : ℕ) : Prop where
  managed : ∀ {w}, InRange v n w → pte m p w &&& PTE_V ≠ 0 → I.Managed (PPN (pte m p w))
  mem : ∀ {w}, InRange v n w → pte m p w &&& PTE_V ≠ 0 → PPN (pte m p w) ∈ K
  inj : ∀ {w w'}, InRange v n w → InRange v n w' → pte m p w &&& PTE_V ≠ 0 →
    pte m p w' &&& PTE_V ≠ 0 → PPN (pte m p w) = PPN (pte m p w') → w = w'

/-- The pages left in use when the pages `F` are freed, if they are. -/
def leaving (do_free : Bool) (K F : Set ℕ) : Set ℕ := if do_free then K \ F else K

theorem InRange.succ (h : InRange (v + 1) n w) : InRange v (n + 1) w ∧ w ≠ v :=
  ⟨⟨h.1, by have := h.2; omega, by have := h.2; omega⟩, by have := h.2; omega⟩

theorem InRange.eq_or (h : InRange v (n + 1) w) : w = v ∨ InRange (v + 1) n w := by
  obtain ⟨h₁, h₂, h₃⟩ := h
  by_cases hw : w = v
  · exact .inl hw
  · exact .inr ⟨h₁, by omega, by omega⟩

theorem unmapEntry_spec (hr : Rooted I K s 2 p) (hv : v < 2 ^ 26)
    (hq : node s.mem p (vpath 2 (v * PGSIZE)) = some q)
    (hleaf : IsLeaf (pte s.mem p v) ∨ E .notMapped ∧ E .notLeaf)
    (hm : do_free = true → pte s.mem p v &&& PTE_V ≠ 0 →
      I.Managed (PPN (pte s.mem p v)) ∧ PPN (pte s.mem p v) ∈ K) :
    wp E (unmapEntry I (q * PGSIZE + 8 * PX 0 (v * PGSIZE)) do_free) (fun _ s' =>
      pte s.mem p v &&& PTE_V ≠ 0 ∧
      Rooted I (leaving do_free K {PPN (pte s.mem p v)}) s' 2 p ∧
      Agree s.mem s'.mem (leaving do_free K {PPN (pte s.mem p v)}) ∧
      ∀ w < 2 ^ 27, pte s'.mem p w = if w = v then 0 else pte s.mem p w) s := by
  have he : pte s.mem p v = entry s.mem q (PX 0 (v * PGSIZE)) := leaf_of_some hq
  simp only [unmapEntry, load64, wp_bind, wp_get, wp_pure, wp_ite, wp_throw]
  rw [← entry, ← he]
  by_cases hV : pte s.mem p v &&& PTE_V = 0
  · rw [if_pos hV]
    exact hleaf.elim (fun h => absurd hV h.1) And.left
  rw [if_neg hV]
  split
  · rename_i hF
    exact hleaf.elim (fun h => absurd hF h.2) And.right
  cases do_free with
  | false =>
    simp only [Bool.false_eq_true, ↓reduceIte, leaving]
    exact (setPte_spec hr (by omega) hq (by omega)).mono fun _ _ h => ⟨hV, h⟩
  | true =>
    simp only [↓reduceIte, leaving, PTE2PA_eq]
    obtain ⟨hmanaged, hK⟩ := hm rfl hV
    refine (hr.kfree hmanaged hK).mono fun _ s₁ h₁ => ?_
    obtain ⟨hr₁, hg₁, hs₁⟩ := h₁
    refine (setPte_spec hr₁ (by omega) (hg₁.node (vpath_path ..) hq) (by omega)).mono
      fun _ s₂ h₂ => ?_
    obtain ⟨hr₂, hs₂, hpte⟩ := h₂
    refine ⟨hV, hr₂, (hs₁.mono fun x hx => hx.2).trans hs₂, fun w hw => ?_⟩
    rw [hpte w hw, hg₁.pte]

theorem leaving_empty : leaving do_free K ∅ = K := by
  unfold leaving
  split
  · exact Set.sdiff_empty
  · rfl

theorem leaving_leaving {F F' : Set ℕ} :
    leaving do_free (leaving do_free K F) F' = leaving do_free K (F ∪ F') := by
  unfold leaving
  split
  · exact Set.sdiff_sdiff
  · rfl

theorem leaving_anti {F F' : Set ℕ} (h : F ⊆ F') : leaving do_free K F' ⊆ leaving do_free K F := by
  unfold leaving
  split
  · exact Set.sdiff_subset_sdiff_right h
  · exact subset_rfl

theorem mapped_zero : mapped m p v 0 = ∅ :=
  Set.eq_empty_of_forall_notMem fun q ⟨w, hw, _⟩ => by have := hw.2; omega

/-- The first page and the others, whose entries are the same. -/
theorem mapped_succ (hv : v < 2 ^ 26) (hpte : ∀ w, InRange (v + 1) k w → pte m' p w = pte m p w) :
    {PPN (pte m p v)} ∪ mapped m' p (v + 1) k = mapped m p v (k + 1) := by
  refine Set.ext fun q => ⟨?_, ?_⟩
  · rintro (hq | ⟨w, hw, hq⟩)
    · exact ⟨v, ⟨hv, Nat.le_refl v, by omega⟩, hq⟩
    · exact ⟨w, hw.succ.1, by rw [hq, hpte w hw]⟩
  · rintro ⟨w, hw, hq⟩
    rcases hw.eq_or with rfl | hw
    · exact .inl hq
    · exact .inr ⟨w, hw, by rw [hq, hpte w hw]⟩

theorem Frees.succ (hf : Frees I K m p v (k + 1)) (hv : v < 2 ^ 26) (hV : pte m p v &&& PTE_V ≠ 0)
    (hpte : ∀ w, InRange (v + 1) k w → pte m' p w = pte m p w) :
    Frees I (K \ {PPN (pte m p v)}) m' p (v + 1) k where
  managed hw hV' := by
    rw [hpte _ hw] at hV' ⊢
    exact hf.managed hw.succ.1 hV'
  mem hw hV' := by
    rw [hpte _ hw] at hV' ⊢
    refine ⟨hf.mem hw.succ.1 hV', fun he => hw.succ.2 ?_⟩
    exact hf.inj hw.succ.1 ⟨hv, Nat.le_refl v, by omega⟩ hV' hV he
  inj hw hw' hV' hV'' he := by
    rw [hpte _ hw] at hV' he
    rw [hpte _ hw'] at hV'' he
    exact hf.inj hw.succ.1 hw'.succ.1 hV' hV'' he

/-- `n` pages from `v` on were mapped and are not any more. -/
structure UnmapsPages (I : KernelImage) (K : Set ℕ) (s : Phys) (p v n : ℕ) (do_free : Bool)
    (s' : Phys) : Prop where
  valid : ∀ w, v ≤ w → w < v + n → w < 2 ^ 26 ∧ pte s.mem p w &&& PTE_V ≠ 0
  rooted : Rooted I (leaving do_free K (mapped s.mem p v n)) s' 2 p
  same : Agree s.mem s'.mem (leaving do_free K (mapped s.mem p v n))
  pte : ∀ w < 2 ^ 27, pte s'.mem p w = if v ≤ w ∧ w < v + n then 0 else pte s.mem p w

theorem unmapLoop_spec {stop : ℕ} (hr : Rooted I K s 2 p) (hstop : stop = (v + k) * PGSIZE)
    (hwalk : v + k ≤ 2 ^ 26 ∨ E .walk) (hleaf : (∀ w, InRange v k w → IsLeaf (pte s.mem p w)) ∨
      E .unmapWalk ∧ E .notMapped ∧ E .notLeaf) (hfree : do_free = true → Frees I K s.mem p v k) :
    wp E (unmapLoop I (p * PGSIZE) stop do_free k (v * PGSIZE))
      (fun _ => UnmapsPages I K s p v k do_free) s := by
  induction k generalizing K s v with
  | zero =>
    refine ⟨fun w _ _ => by omega, ?_, .refl, fun w _ => by rw [if_neg (by omega)]⟩
    rwa [mapped_zero, leaving_empty]
  | succ k ih =>
    have hlt : v * PGSIZE < stop := by
      rw [hstop]
      exact Nat.mul_lt_mul_of_pos_right (by omega) PGSIZE_pos
    simp only [unmapLoop, hlt, ↓reduceIte, wp_bind]
    refine (walk_read (hwalk.imp_left fun h => ?_)).mono fun x s' hx => ?_
    · unfold MAXVA PGSIZE
      omega
    obtain ⟨rfl, hva, rfl⟩ := hx
    have hv : v < 2 ^ 26 := by
      unfold MAXVA PGSIZE at hva
      omega
    have hin : InRange v (k + 1) v := ⟨hv, Nat.le_refl v, by omega⟩
    cases hq : node s'.mem p (vpath 2 (v * PGSIZE)) with
    | none =>
      refine hleaf.elim (fun h => absurd (h v hin).1 ?_) fun h => h.1
      rw [pte, leaf_of_none hq]
      decide
    | some q =>
      simp only [Option.map_some, wp_bind]
      refine (unmapEntry_spec hr hv hq (hleaf.imp (fun h => h v hin) And.right)
        fun hd hV => ⟨(hfree hd).managed hin hV, (hfree hd).mem hin hV⟩).mono fun _ s₁ h₁ => ?_
      obtain ⟨hV, hr₁, hs₁, hpte⟩ := h₁
      have hold : ∀ w, InRange (v + 1) k w → pte s₁.mem p w = pte s'.mem p w := fun w hw => by
        rw [hpte w (by have := hw.1; omega), if_neg hw.succ.2]
      rw [u64_next (by omega)]
      refine (ih hr₁ (by rw [hstop]; congr 1; omega) (hwalk.imp_left fun h => by omega) ?_ ?_).mono
        fun _ s₂ h₂ => ?_
      · refine hleaf.imp_left fun h w hw => ?_
        rw [hold w hw]
        exact h w hw.succ.1
      · intro hd
        rw [leaving, if_pos hd]
        exact (hfree hd).succ hv hV hold
      · obtain ⟨hk, hr₂, hs₂, hpte₂⟩ := h₂
        rw [leaving_leaving, mapped_succ hv hold] at hr₂ hs₂
        refine ⟨fun w hle hlt => ?_, hr₂, (hs₁.mono ?_).trans hs₂, fun w hw => ?_⟩
        · by_cases hwv : w = v
          · rw [hwv]
            exact ⟨hv, hV⟩
          · obtain ⟨hw, hVw⟩ := hk w (by omega) (by omega)
            exact ⟨hw, by rwa [hold w ⟨hw, by omega, by omega⟩] at hVw⟩
        · exact leaving_anti (Set.singleton_subset_iff.mpr ⟨v, hin, rfl⟩)
        · rw [hpte₂ w hw, hpte w hw]
          by_cases hwv : w = v
          · rw [if_pos hwv, ite_self, if_pos (by omega)]
          · rw [if_neg hwv]
            exact if_congr (by omega) rfl rfl

theorem uvmunmap_spec (hr : Rooted I K s 2 p) (hn : v + n < 2 ^ 52)
    (hwalk : v + n ≤ 2 ^ 26 ∨ E .walk) (hleaf : (∀ w, InRange v n w → IsLeaf (pte s.mem p w)) ∨
      E .unmapWalk ∧ E .notMapped ∧ E .notLeaf) (hfree : do_free = true → Frees I K s.mem p v n) :
    wp E (uvmunmap I (p * PGSIZE) (v * PGSIZE) n do_free)
      (fun _ => UnmapsPages I K s p v n do_free) s := by
  have hstop : u64 ((v * PGSIZE : ℕ) + (u64 ((n : ℤ) * (PGSIZE : ℕ)) : ℕ)) = (v + n) * PGSIZE := by
    unfold u64 PGSIZE
    omega
  simp only [uvmunmap, Nat.mul_mod_left, ne_eq, not_true_eq_false, ↓reduceIte, hstop]
  exact unmapLoop_spec hr rfl hwalk hleaf hfree

/-! ## Lookups -/

/-- The entry of the last level for each virtual page : a physical page and flags. -/
abbrev PageMap := ℕ → Option (ℕ × ℕ)

/-- `n` virtual pages from `v` on are mapped to physical pages from `q` on. -/
def PageMap.map (f : PageMap) (v n q flags : ℕ) : PageMap := fun w =>
  if v ≤ w ∧ w < v + n then some ((q + (w - v)) % 2 ^ 52, flags) else f w

/-- `n` virtual pages from `v` on are not mapped. -/
def PageMap.unmap (f : PageMap) (v n : ℕ) : PageMap := fun w =>
  if v ≤ w ∧ w < v + n then none else f w

/-- What the table `p` maps. -/
def lookup (m : Ram) (p : ℕ) : PageMap := fun v =>
  if pte m p v &&& PTE_V ≠ 0 then some (PPN (pte m p v), PTE_FLAGS (pte m p v)) else none

theorem mapEntry_eq {pa : ℕ} (hperm : perm < 2 ^ 10) :
    mapEntry pa perm k = (pa / PGSIZE + k) % 2 ^ 52 * 2 ^ 10 + (perm ||| PTE_V) := by
  rw [mapEntry, Nat.or_assoc, PA2PTE_or (Nat.or_lt_two_pow hperm (by decide)), u64_natCast]
  unfold PGSIZE
  omega

/-- The entry of the page `q` with the flags `perm`. -/
theorem mapEntry_page (hq : q < 2 ^ 52) (hperm : perm < 2 ^ 10) :
    PPN (mapEntry (q * PGSIZE) perm 0) = q ∧
      mapEntry (q * PGSIZE) perm 0 &&& PTE_V ≠ 0 ∧
      PTE_FLAGS (mapEntry (q * PGSIZE) perm 0) = perm ||| PTE_V := by
  have hf : perm ||| PTE_V < 2 ^ 10 := Nat.or_lt_two_pow hperm (by decide)
  rw [mapEntry_eq hperm, Nat.mul_div_cancel q PGSIZE_pos, Nat.add_zero, Nat.mod_eq_of_lt hq]
  refine ⟨PPN_entry hf hq, ?_, ?_⟩
  · rw [and_flags (by decide)]
    simp [PTE_V]
  · rw [PTE_FLAGS, and_flags (by decide)]
    exact Nat.and_two_pow_sub_one_of_lt_two_pow hf

theorem lookup_of_mapEntry {pa : ℕ} (hperm : perm < 2 ^ 10) (h : pte m p v = mapEntry pa perm k) :
    lookup m p v = some ((pa / PGSIZE + k) % 2 ^ 52, perm ||| PTE_V) := by
  have hf : perm ||| PTE_V < 2 ^ 10 := Nat.or_lt_two_pow hperm (by decide)
  have hV : (perm ||| PTE_V) &&& PTE_V ≠ 0 := by simp [PTE_V]
  rw [lookup, h, mapEntry_eq hperm, and_flags (by decide), if_pos hV,
    PPN_entry hf (Nat.mod_lt _ (by omega)), PTE_FLAGS, and_flags (by decide)]
  congr 2
  exact Nat.and_two_pow_sub_one_of_lt_two_pow hf

theorem lookup_of_zero (h : pte m p v = 0) : lookup m p v = none := by
  rw [lookup, h, if_neg (by decide)]

theorem lookup_congr (h : pte m' p v = pte m p v) : lookup m' p v = lookup m p v := by
  rw [lookup, lookup, h]

/-! ## Tables in the making -/

/-- A table that was built from an empty page, in a memory where `K` are the pages in other
use : the pages that were allocated and not yet freed, and those the free list never had. -/
inductive Built (I : KernelImage) (p : ℕ) : Set ℕ → Phys → Prop
  | empty {K : Set ℕ} {s : Phys} : I.Managed p → p ∉ K → Pool I s (insert p K) →
      (∀ i < 512, entry s.mem p i = 0) → Built I p K s
  | walk {K : Set ℕ} {s s' : Phys} {va : ℕ} {x : Option ℕ} : Built I p K s →
      walk (p * PGSIZE) va true s = .ok (x, s') → Built I p K s'
  | mappages {K : Set ℕ} {s s' : Phys} {va size pa perm : ℕ} {x : ℤ} : Built I p K s →
      size < 2 ^ 64 → pa < 2 ^ 64 → perm < 2 ^ 64 →
      mappages (p * PGSIZE) va size pa perm s = .ok (x, s') → Built I p K s'
  /-- if the mapped pages are freed, they are distinct pages that were allocated -/
  | uvmunmap {K : Set ℕ} {s s' : Phys} {va npages : ℕ} {do_free : Bool} : Built I p K s →
      va + npages * PGSIZE < 2 ^ 64 →
      (do_free = true → Frees I K s.mem p (va / PGSIZE) npages) →
      uvmunmap I (p * PGSIZE) va npages do_free s = .ok ((), s') →
      Built I p (leaving do_free K (mapped s.mem p (va / PGSIZE) npages)) s'
  | kalloc {K : Set ℕ} {s s' : Phys} {q : ℕ} : Built I p K s → q ≠ 0 → kalloc s = .ok (q, s') →
      Built I p (insert (q / PGSIZE) K) s'
  | kfree {K : Set ℕ} {s s' : Phys} {q : ℕ} : Built I p K s → q ∈ K → I.Managed q →
      kfree I (q * PGSIZE) s = .ok ((), s') → Built I p (K \ {q}) s'
  /-- anyone writes to a page in other use -/
  | write {K : Set ℕ} {s : Phys} {m' : Ram} : Built I p K s → Agree s.mem m' Kᶜ →
      Built I p K { s with mem := m' }

/-- An empty page is a table. -/
theorem rooted_empty (hp : I.Managed p) (hK : p ∉ K) (hheap : Pool I s (insert p K))
    (hzero : ∀ i < 512, entry s.mem p i = 0) {h : ℕ} : Rooted I K s h p := by
  have hnode : ∀ {π q}, Path h π → node s.mem p π = some q → π = [] ∧ q = p := by
    intro π q hπ hq
    cases π with
    | nil => exact ⟨rfl, (Option.some.inj hq).symm⟩
    | cons i π =>
      rw [node, child_of_zero (hzero i (hπ.2 i (List.mem_cons_self ..)))] at hq
      cases hq
  have hnodes : nodes s.mem h p = {p} := by
    refine Set.ext fun q => ⟨?_, ?_⟩
    · rintro ⟨π, hπ, hq⟩
      exact (hnode hπ hq).2
    · rintro rfl
      exact mem_nodes .nil rfl
  refine ⟨⟨?_, ?_, ?_⟩, ?_, ?_⟩
  · intro π q hπ hq
    rwa [(hnode hπ hq).2]
  · intro π π' q hπ hπ' hq hq'
    rw [(hnode hπ hq).1, (hnode hπ' hq').1]
  · intro π q i hπ _ hi hq
    rw [(hnode hπ hq).2, hzero i hi]
    exact fun h => absurd rfl h
  · rwa [hnodes, Set.union_singleton]
  · rw [hnodes]
    exact Set.disjoint_singleton_right.mpr hK

theorem pte_empty (hzero : ∀ i < 512, entry m p i = 0) : pte m p v = 0 :=
  leaf_of_none (by rw [vpath, node, child_of_zero (hzero _ (PX_lt ..)), Option.bind_none])

/-- The arguments of a `mappages` that returned. -/
theorem mappages_args {va size pa pagetable : ℕ} {x : ℤ} {s' : Phys}
    (h : mappages pagetable va size pa perm s = .ok (x, s')) :
    va / PGSIZE * PGSIZE = va ∧ size / PGSIZE * PGSIZE = size ∧ 0 < size / PGSIZE := by
  refine (show wp (fun _ => True) (mappages pagetable va size pa perm) (fun _ _ => _) s
    from ?_).ok h
  simp only [mappages, wp_ite, wp_bind, wp_throw]
  split
  · trivial
  split
  · trivial
  split
  · trivial
  refine .of_forall (fun _ => trivial) fun _ _ => ?_
  unfold PGSIZE at *
  omega

theorem uvmunmap_args {va npages pagetable : ℕ} {s' : Phys}
    (h : uvmunmap I pagetable va npages do_free s = .ok ((), s')) : va / PGSIZE * PGSIZE = va := by
  refine (show wp (fun _ => True) (uvmunmap I pagetable va npages do_free) (fun _ _ => _) s
    from ?_).ok h
  simp only [uvmunmap, wp_ite, wp_bind, wp_throw]
  split
  · trivial
  refine .of_forall (fun _ => trivial) fun _ _ => ?_
  unfold PGSIZE at *
  omega

theorem Built.rooted (hb : Built I p K s) : Rooted I K s 2 p := by
  induction hb with
  | empty hp hK hheap hzero => exact rooted_empty hp hK hheap hzero
  | walk _ h ih => exact ((walk_spec (E := fun _ => True) ih (.inr trivial)).ok h).2.1
  | mappages _ hsize hpa hperm h ih =>
    obtain ⟨hva, hsz, hpos⟩ := mappages_args h
    rw [← hva, ← hsz] at h
    exact ((mappages_spec (E := fun _ => True) ih hpos (by unfold PGSIZE; omega) (.inr trivial)
      (.inr trivial) hpa hperm).ok h).rooted
  | uvmunmap _ hn hfree h ih =>
    rw [← uvmunmap_args h] at h
    exact ((uvmunmap_spec (E := fun _ => True) ih (by unfold PGSIZE at *; omega) (.inr trivial)
      (.inr ⟨trivial, trivial, trivial⟩) hfree).ok h).rooted
  | kalloc _ hq h ih =>
    rcases (ih.kalloc (E := fun _ => True)).ok h with ⟨h0, -⟩ | ⟨r, rfl, -, -, -, hr, -⟩
    · exact absurd h0 hq
    · rwa [Nat.mul_div_cancel r PGSIZE_pos]
  | kfree _ hq hm h ih => exact ((ih.kfree (E := fun _ => True) hm hq).ok h).1
  | write _ hs ih => exact And.left (ih.frame hs rfl)

/-- Two virtual pages with the entry at one address are the same. -/
theorem Rooted.entry_inj (hr : Rooted I K s 2 p) {va va' q' : ℕ} (hva : va < MAXVA)
    (hva' : va' < MAXVA) (hq : node s.mem p (vpath 2 va) = some q)
    (hq' : node s.mem p (vpath 2 va') = some q')
    (he : q * PGSIZE + 8 * PX 0 va = q' * PGSIZE + 8 * PX 0 va') : va / PGSIZE = va' / PGSIZE := by
  have hi := PX_lt 0 va
  have hi' := PX_lt 0 va'
  obtain ⟨rfl, hx⟩ : q = q' ∧ PX 0 va = PX 0 va' := by
    unfold PGSIZE at he
    omega
  have hπ := hr.table.inj (vpath_path ..) (vpath_path ..) hq hq'
  rw [← vpath_page, ← vpath_page 2 va'] at hπ
  rw [← PX_page, ← PX_page 0 va'] at hx
  refine (vpath_inj ?_ ?_).mp ⟨hπ, hx⟩
  · unfold MAXVA at hva
    unfold PGSIZE
    omega
  · unfold MAXVA at hva'
    unfold PGSIZE
    omega

/-- A table is a finite map. The entry that `walk` finds is `lookup`, and no two virtual pages
share it. `walk` changes no lookup, `mappages` maps its range if it returns 0 and touches
nothing outside of it if not, and `uvmunmap` takes out the mappings of its range, all of which
are there. -/
theorem pagetable_refines_map (hb : Built I p K s) :
    (∀ va < MAXVA, ∃ x, walk (p * PGSIZE) va false s = .ok (x, s) ∧
      x.elim 0 (s.mem.load 8) = pte s.mem p (va / PGSIZE)) ∧
    (∀ va va' a, va < MAXVA → va' < MAXVA → walk (p * PGSIZE) va false s = .ok (some a, s) →
      walk (p * PGSIZE) va' false s = .ok (some a, s) → va / PGSIZE = va' / PGSIZE) ∧
    (∀ va x s', walk (p * PGSIZE) va true s = .ok (x, s') →
      ∀ w, lookup s'.mem p w = lookup s.mem p w) ∧
    (∀ va size pa perm x s', size < 2 ^ 64 → pa < 2 ^ 64 → perm < 2 ^ 10 →
      mappages (p * PGSIZE) va size pa perm s = .ok (x, s') →
      x = 0 ∧ (∀ w < 2 ^ 26, lookup s'.mem p w = (lookup s.mem p).map (va / PGSIZE)
        (size / PGSIZE) (pa / PGSIZE) (perm ||| PTE_V) w) ∨
      x = -1 ∧ ∀ w < 2 ^ 26, ¬ (va / PGSIZE ≤ w ∧ w < va / PGSIZE + size / PGSIZE) →
        lookup s'.mem p w = lookup s.mem p w) ∧
    ∀ va npages do_free s', va + npages * PGSIZE < 2 ^ 64 →
      (do_free = true → Frees I K s.mem p (va / PGSIZE) npages) →
      uvmunmap I (p * PGSIZE) va npages do_free s = .ok ((), s') →
      (∀ w, va / PGSIZE ≤ w → w < va / PGSIZE + npages → w < 2 ^ 26 ∧ lookup s.mem p w ≠ none) ∧
      ∀ w < 2 ^ 26, lookup s'.mem p w = (lookup s.mem p).unmap (va / PGSIZE) npages w := by
  have hr := hb.rooted
  refine ⟨?_, ?_, ?_, ?_, ?_⟩
  · intro va hva
    obtain ⟨x, s', hrun, rfl, -, rfl⟩ :=
      (walk_read (E := fun _ => False) (s := s) (p := p) (.inl hva)).returns
    refine ⟨_, hrun, ?_⟩
    rw [pte_div]
    cases hq : node s'.mem p (vpath 2 va) with
    | none => rw [leaf_of_none hq, Option.map_none, Option.elim_none]
    | some q => rw [leaf_of_some hq, Option.map_some, Option.elim_some, entry]
  · intro va va' a hva hva' h h'
    obtain ⟨-, -, hx⟩ := (walk_read (E := fun _ => False) (.inl hva)).ok h
    obtain ⟨-, -, hx'⟩ := (walk_read (E := fun _ => False) (.inl hva')).ok h'
    obtain ⟨q, hq, he⟩ := Option.map_eq_some_iff.mp hx.symm
    obtain ⟨q', hq', he'⟩ := Option.map_eq_some_iff.mp hx'.symm
    exact hr.entry_inj hva hva' hq hq' (he.trans he'.symm)
  · intro va x s' h w
    have hg := ((walk_spec (E := fun _ => True) hr (.inr trivial)).ok h).2.2.1
    exact lookup_congr hg.pte
  · intro va size pa perm x s' hsize hpa hperm h
    obtain ⟨hva, hsz, hpos⟩ := mappages_args h
    rw [← hva, ← hsz] at h
    obtain ⟨-, -, j, hj, hres, hpte⟩ := (mappages_spec (E := fun _ => True) hr hpos
      (by unfold PGSIZE; omega) (.inr trivial) (.inr trivial) hpa (by omega)).ok h
    refine hres.imp ?_ ?_
    · rintro ⟨rfl, rfl⟩
      refine ⟨rfl, fun w hw => ?_⟩
      rw [PageMap.map]
      have hw' := hpte w (by omega)
      split at hw'
      · rename_i hin
        rw [if_pos hin, lookup_of_mapEntry hperm hw']
      · rename_i hin
        rw [if_neg hin, lookup_congr hw']
    · rintro ⟨rfl, hlt⟩
      refine ⟨rfl, fun w hw hout => lookup_congr ?_⟩
      rw [hpte w (by omega), if_neg (by omega)]
  · intro va npages do_free s' hn hfree h
    rw [← uvmunmap_args h] at h
    obtain ⟨hthere, -, -, hpte⟩ := (uvmunmap_spec (E := fun _ => True) hr
      (by unfold PGSIZE at *; omega) (.inr trivial) (.inr ⟨trivial, trivial, trivial⟩) hfree).ok h
    refine ⟨fun w hle hlt => ?_, fun w hw => ?_⟩
    · obtain ⟨hw, hV⟩ := hthere w hle hlt
      exact ⟨hw, by rw [lookup, if_pos hV]; simp⟩
    · rw [PageMap.unmap]
      have hw' := hpte w (by omega)
      split at hw'
      · rename_i hin
        rw [if_pos hin, lookup_of_zero hw']
      · rename_i hin
        rw [if_neg hin, lookup_congr hw']

/-- A kernel that leaves the last three pages of the memory. -/
def threePages : KernelImage where
  stop := PHYSTOP - 3 * PGSIZE
  trampoline := KERNBASE
  trampoline_ge := Nat.le_refl _
  trampoline_lt := by decide
  trampoline_aligned := KERNBASE_aligned
  stop_le := by decide

/-- The first of the three pages is empty, and the other two are on the free list. -/
def threePhys : Phys where
  mem := Ram.store (fun _ => 0) 8 (0x87ffe * PGSIZE) (0x87fff * PGSIZE)
  freelist := 0x87ffe * PGSIZE

theorem threePages_managed : threePages.Managed q ↔ 0x87ffd ≤ q ∧ q < 0x88000 := by
  show (2281689088 ≤ q * 4096 ∧ q * 4096 < 2281701376) ↔ _
  omega

theorem threePhys_load {a : ℕ} (h : a + 8 ≤ 0x87ffe * PGSIZE ∨ 0x87ffe * PGSIZE + 8 ≤ a) :
    threePhys.mem.load 8 a = 0 := by
  rw [threePhys, Ram.load_store_of_disjoint h, Ram.load_zero]

theorem threePhys_entry (i : ℕ) (hi : i < 512) : entry threePhys.mem 0x87ffd i = 0 := by
  refine threePhys_load ?_
  unfold PGSIZE
  omega

theorem threePhys_built : Built threePages 0x87ffd ∅ threePhys := by
  have hlink : threePhys.mem.load 8 (0x87ffe * PGSIZE) = 0x87fff * PGSIZE := by
    rw [threePhys, Ram.load_store_self]
    decide
  have hlast : threePhys.mem.load 8 (0x87fff * PGSIZE) = 0 := threePhys_load (by decide)
  have hfree : threePhys.Free [0x87ffe, 0x87fff] := by
    refine ⟨rfl, by decide, ?_⟩
    refine ⟨hlink, by decide, ?_⟩
    exact hlast
  have hm : threePages.Managed 0x87ffd := by
    rw [threePages_managed]
    omega
  have hnd : [0x87ffe, 0x87fff].Nodup := by decide
  have hheap : Pool threePages threePhys (insert 0x87ffd ∅) := by
    refine ⟨[0x87ffe, 0x87fff], hfree, hnd, fun q => ?_⟩
    rw [threePages_managed]
    simp only [List.mem_cons, List.not_mem_nil, or_false, Set.mem_insert_iff,
      Set.mem_empty_iff_false]
    omega
  exact .empty hm (Set.notMem_empty _) hheap threePhys_entry

/-- Page 5 is mapped at address 0, and the mapping can be taken out. -/
theorem threePhys_mapped : ∃ s t : Phys,
    mappages (0x87ffd * PGSIZE) 0 PGSIZE (5 * PGSIZE) (PTE_R ||| PTE_W ||| PTE_U) threePhys =
      .ok (0, s) ∧ uvmunmap threePages (0x87ffd * PGSIZE) 0 1 false s = .ok ((), t) ∧
    Built threePages 0x87ffd ∅ s ∧ ∀ w < 2 ^ 27, pte s.mem 0x87ffd w =
      if w = 0 then mapEntry (5 * PGSIZE) (PTE_R ||| PTE_W ||| PTE_U) 0 else 0 := by
  have hmaps : (mappages (0x87ffd * PGSIZE) 0 PGSIZE (5 * PGSIZE) (PTE_R ||| PTE_W ||| PTE_U)
      threePhys).map Prod.fst = .ok 0 := by
    decide +kernel
  have hunmaps : ((do
      let _ ← mappages (0x87ffd * PGSIZE) 0 PGSIZE (5 * PGSIZE) (PTE_R ||| PTE_W ||| PTE_U)
      uvmunmap threePages (0x87ffd * PGSIZE) 0 1 false) threePhys).map Prod.fst = .ok () := by
    decide +kernel
  have hspec : wp (fun _ => False) (mappages (0x87ffd * PGSIZE) (0 * PGSIZE) (1 * PGSIZE)
      (5 * PGSIZE) (PTE_R ||| PTE_W ||| PTE_U)) _ threePhys :=
    mappages_spec threePhys_built.rooted (Nat.one_pos) (by omega) (.inl (by omega))
      (.inl fun w _ _ _ => by rw [pte_empty threePhys_entry]; decide) (by decide) (by decide)
  rw [Nat.zero_mul, Nat.one_mul] at hspec
  obtain ⟨s, hrun⟩ := returns_of_map hmaps
  obtain ⟨-, -, j, -, hres, hpte⟩ := hspec.ok hrun
  obtain ⟨t, hunmap⟩ := returns_of_bind hrun hunmaps
  obtain rfl : j = 1 := by omega
  refine ⟨s, t, hrun, hunmap, threePhys_built.mappages (by decide) (by decide) (by decide) hrun,
    fun w hw => ?_⟩
  rw [hpte w hw, pte_empty threePhys_entry]
  by_cases h0 : w = 0
  · rw [h0, if_pos rfl, if_pos (by omega)]
  · rw [if_neg h0, if_neg (by omega)]

/-- In three pages a table is built, which maps page 5 at address 0, and the mapping is taken
out again. -/
theorem pagetable_refines_map_three : ∃ s t : Phys,
    mappages (0x87ffd * PGSIZE) 0 PGSIZE (5 * PGSIZE) (PTE_R ||| PTE_W ||| PTE_U) threePhys =
      .ok (0, s) ∧ Built threePages 0x87ffd ∅ s ∧
    uvmunmap threePages (0x87ffd * PGSIZE) 0 1 false s = .ok ((), t) ∧
    lookup s.mem 0x87ffd 0 = some (5, PTE_R ||| PTE_W ||| PTE_U ||| PTE_V) ∧
    lookup t.mem 0x87ffd 0 = none ∧
    ∃ x, walk (0x87ffd * PGSIZE) 0 false s = .ok (x, s) ∧
      x.elim 0 (s.mem.load 8) = pte s.mem 0x87ffd 0 := by
  obtain ⟨s, t, hmap, hunmap, hb, -⟩ := threePhys_mapped
  have hstart := (pagetable_refines_map threePhys_built).2.2.2.1 _ _ _ _ _ _ (by decide)
    (by decide) (by decide) hmap
  obtain ⟨hwalk, -, -, -, hout⟩ := pagetable_refines_map hb
  obtain ⟨-, hnone⟩ := hout 0 1 false t (by decide) nofun hunmap
  refine ⟨s, t, hmap, hb, hunmap, ?_, ?_, hwalk 0 (by decide)⟩
  · rw [(hstart.resolve_right (by omega)).2 0 (by omega)]
    rfl
  · rw [hnone 0 (by omega)]
    rfl

/-! ## The pages that are left -/

theorem countLoop_spec {E : VmPanic → Prop} {l : List ℕ} : ∀ {k r t : ℕ},
    Chain (s.mem.load 8) 0 r l → l.length < k →
    wp E (countLoop k r t) (fun x s' => x = t + l.length * PGSIZE ∧ s' = s) s
  | 0, _, _, _, hk => absurd hk (Nat.not_lt_zero _)
  | k + 1, r, t, h, hk => by
    rw [countLoop, wp_ite]
    cases l with
    | nil =>
      rw [if_pos (show r = 0 from h), List.length_nil, Nat.zero_mul]
      exact ⟨rfl, rfl⟩
    | cons a l =>
      obtain ⟨rfl, hne, hrest⟩ := h
      rw [if_neg hne, List.length_cons, Nat.succ_mul]
      have hloop := countLoop_spec (E := E) (t := t + PGSIZE) hrest (Nat.lt_of_succ_lt_succ hk)
      exact wp_bind.mpr (hloop.mono fun x s' h => ⟨by omega, h.2⟩)

/-- In every state that `walk`, `mappages`, `uvmunmap`, `kalloc` and `kfree` come to, a managed
page is on the free list once, or a page of the table, or in other use. `count_freemmem` ends,
and returns the bytes of the free pages. -/
theorem pages_conserved (hb : Built I p K s) :
    Disjoint K (nodes s.mem 2 p) ∧ ∃ l : List ℕ, s.Free l ∧ l.Nodup ∧
      (∀ q, q ∈ l ↔ I.Managed q ∧ q ∉ K ∪ nodes s.mem 2 p) ∧
      ∀ k, l.length < k → count_freemmem k s = .ok (l.length * PGSIZE, s) := by
  obtain ⟨l, hfree, hnd, hmem⟩ := hb.rooted.heap
  refine ⟨hb.rooted.disjoint, l, hfree, hnd, hmem, fun k hk => ?_⟩
  obtain ⟨x, s', hrun, rfl, rfl⟩ :=
    (countLoop_spec (t := 0) hfree (by rwa [List.length_map])).returns
  rwa [List.length_map, Nat.zero_add] at hrun

/-- A table with a mapped page is conserved. -/
theorem pages_conserved_three : ∃ s : Phys, Built threePages 0x87ffd ∅ s ∧
    lookup s.mem 0x87ffd 0 ≠ none ∧ ∃ l, s.Free l ∧
    count_freemmem (l.length + 1) s = .ok (l.length * PGSIZE, s) := by
  obtain ⟨s, t, -, -, hb, hpte⟩ := threePhys_mapped
  obtain ⟨-, l, hl, -, -, hcount⟩ := pages_conserved hb
  refine ⟨s, hb, ?_, l, hl, hcount _ (Nat.lt_succ_self _)⟩
  rw [lookup, hpte 0 (by omega), if_pos rfl]
  decide

end Xv6.Vm
