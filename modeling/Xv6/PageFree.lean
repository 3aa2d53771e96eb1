import Xv6.AddrSpace

/-!
# Freeing page tables

`freewalk` frees the tables of a page table once no page is mapped any more. A subtable is a
page table of its own, for which the other tables are pages in other use (`Rooted.sub`) ; when
it is freed, its entry is cleared and the rest is a page table again (`Rooted.prune`). So all
pages of the table go back to the free list (`freewalk_spec`), and with the pages of the user
all that an address space has (`uvmfree_spec`).
-/

namespace Xv6.Vm

open Prog

variable {I : KernelImage} {E : VmPanic → Prop} {K : Set ℕ} {s s' : Phys} {m m' : Ram}
  {h p q r i : ℕ}

/-- The entries of the last level map nothing. -/
def Bare (m : Ram) (h p : ℕ) : Prop :=
  ∀ {π j}, Path h π → π.length = h → j < 512 → leaf m p π j &&& PTE_V = 0

theorem node_cons {π : List ℕ} (hc : child m p i = some r) : node m p (i :: π) = node m r π := by
  rw [node, hc, Option.bind_some]

theorem leaf_cons {π : List ℕ} {j : ℕ} (hc : child m p i = some r) :
    leaf m p (i :: π) j = leaf m r π j := by
  rw [leaf, leaf, node_cons hc]

/-- The tables without the subtable `r`. -/
def rest (m : Ram) (h p r : ℕ) : Set ℕ := nodes m (h + 1) p \ nodes m h r

theorem Bare.sub (hb : Bare m (h + 1) p) (hi : i < 512) (hc : child m p i = some r) :
    Bare m h r := by
  intro π j hπ hlen hj
  rw [← leaf_cons hc]
  exact hb (Path.cons_iff.mpr ⟨hi, hπ⟩) (by rw [List.length_cons, hlen]) hj

theorem Bare.entry {j : ℕ} (hb : Bare m 0 p) (hj : j < 512) : entry m p j &&& PTE_V = 0 := by
  rw [← leaf_of_some (π := []) rfl]
  exact hb .nil rfl hj

namespace Table

theorem sub (ht : Table I m (h + 1) p) (hi : i < 512) (hc : child m p i = some r) :
    Table I m h r where
  managed hπ hq := ht.managed (Path.cons_iff.mpr ⟨hi, hπ⟩) ((node_cons hc).trans hq)
  inj hπ hπ' hq hq' := List.tail_eq_of_cons_eq (ht.inj (Path.cons_iff.mpr ⟨hi, hπ⟩)
    (Path.cons_iff.mpr ⟨hi, hπ'⟩) ((node_cons hc).trans hq) ((node_cons hc).trans hq'))
  interior hπ hlt hj hq := ht.interior (Path.cons_iff.mpr ⟨hi, hπ⟩)
    (by rw [List.length_cons]; omega) hj ((node_cons hc).trans hq)

theorem root_mem_rest (ht : Table I m (h + 1) p) (hi : i < 512) (hc : child m p i = some r) :
    p ∈ rest m h p r := by
  refine ⟨mem_nodes .nil rfl, ?_⟩
  rintro ⟨π, hπ, hp⟩
  exact List.cons_ne_nil i π (ht.inj (Path.cons_iff.mpr ⟨hi, hπ⟩) .nil
    ((node_cons hc).trans hp) rfl)

/-- Another subtable is in the rest, and so is not the root. -/
theorem nodes_sub_rest (ht : Table I m (h + 1) p) (hi : i < 512) (hc : child m p i = some r)
    {j r' : ℕ} (hj : j < 512) (hc' : child m p j = some r') (hne : j ≠ i) :
    nodes m h r' ⊆ rest m h p r \ {p} := by
  rintro x ⟨π, hπ, hx⟩
  have hpath : Path (h + 1) (j :: π) := Path.cons_iff.mpr ⟨hj, hπ⟩
  have hx' := (node_cons hc').trans hx
  refine ⟨⟨mem_nodes hpath hx', ?_⟩, ?_⟩
  · rintro ⟨π', hπ', hr⟩
    exact hne (List.head_eq_of_cons_eq (ht.inj hpath (Path.cons_iff.mpr ⟨hi, hπ'⟩) hx'
      ((node_cons hc).trans hr)))
  · rintro rfl
    exact List.cons_ne_nil j π (ht.inj hpath .nil hx' rfl)

end Table

namespace Rooted

/-- A subtable, with the other tables in other use. -/
theorem sub (hr : Rooted I K s (h + 1) p) (hi : i < 512) (hc : child s.mem p i = some r) :
    Rooted I (K ∪ rest s.mem h p r) s h r where
  table := hr.table.sub hi hc
  heap := by
    rw [Set.union_assoc, rest, Set.sdiff_union_of_subset (nodes_child hi hc)]
    exact hr.heap
  disjoint := by
    refine Set.disjoint_union_left.mpr ⟨hr.disjoint.mono_right (nodes_child hi hc), ?_⟩
    exact Set.disjoint_sdiff_left

/-- The subtable `r` is freed and its entry is cleared. -/
theorem prune (hr : Rooted I K s (h + 1) p) (hi : i < 512) (hc : child s.mem p i = some r)
    (hheap : Pool I s' (K ∪ rest s.mem h p r)) (hs : Agree s.mem s'.mem (K ∪ rest s.mem h p r))
    {s'' : Phys} (hs'' : s'' = { s' with mem := s'.mem.store 8 (p * PGSIZE + 8 * i) 0 }) :
    Rooted I K s'' (h + 1) p ∧ Agree s.mem s''.mem K ∧ child s''.mem p i = none ∧
      (∀ j < 512, j ≠ i → child s''.mem p j = child s.mem p j) ∧
      (Bare s.mem (h + 1) p → Bare s''.mem (h + 1) p) := by
  have hp := hr.table.root_mem_rest hi hc
  have hpn : p ∈ nodes s.mem (h + 1) p := hp.1
  have hstore : Agree s'.mem s''.mem {p}ᶜ := by
    rw [hs'']
    exact Agree.store hi
  have hE : ∀ x ∈ rest s.mem h p r, ∀ j < 512, entry s''.mem x j =
      if x = p ∧ j = i then 0 else entry s.mem x j := by
    intro x hx j hj
    rw [hs'', entry_store hi hj, entry_same hs (.inr hx) hj, Nat.zero_mod]
  have hchild : ∀ j < 512, j ≠ i → child s''.mem p j = child s.mem p j := by
    intro j hj hne
    have he : entry s''.mem p j = entry s.mem p j := by
      rw [hE p hp j hj, if_neg fun he => hne he.2]
    rw [child, child, he]
  have hnone : child s''.mem p i = none :=
    child_of_zero (by rw [hE p hp i hi, if_pos ⟨rfl, rfl⟩])
  -- a path goes on below another entry as before, and ends at the cleared one
  have hkept : ∀ {j π}, Path (h + 1) (j :: π) → j ≠ i →
      node s''.mem p (j :: π) = node s.mem p (j :: π) := by
    intro j π hπ hne
    obtain ⟨hj, hπ⟩ := Path.cons_iff.mp hπ
    rw [node, node, hchild j hj hne]
    refine Option.bind_congr fun r' hr' => node_same ?_ hπ
    have hsub := hr.table.nodes_sub_rest hi hc hj hr' hne
    exact (hs.mono fun x hx => .inr (hsub hx).1).trans (hstore.mono fun x hx => (hsub hx).2)
  have hgone : ∀ {π}, node s''.mem p (i :: π) = none := by
    intro π
    rw [node, hnone, Option.bind_none]
  have hold : ∀ {π x}, Path (h + 1) π → node s''.mem p π = some x →
      node s.mem p π = some x ∧ x ∈ rest s.mem h p r := by
    intro π x hπ hx
    cases π with
    | nil =>
      obtain rfl := Option.some.inj hx
      exact ⟨rfl, hp⟩
    | cons j π =>
      by_cases hji : j = i
      · rw [hji, hgone] at hx
        cases hx
      · rw [hkept hπ hji] at hx
        refine ⟨hx, mem_nodes hπ hx, ?_⟩
        rintro ⟨π', hπ', hr'⟩
        exact hji (List.head_eq_of_cons_eq (hr.table.inj hπ (Path.cons_iff.mpr ⟨hi, hπ'⟩) hx
          ((node_cons hc).trans hr')))
  have hnodes : nodes s''.mem (h + 1) p = rest s.mem h p r := by
    refine Set.ext fun x => ⟨?_, ?_⟩
    · rintro ⟨π, hπ, hx⟩
      exact (hold hπ hx).2
    rintro ⟨⟨π, hπ, hx⟩, hout⟩
    refine ⟨π, hπ, ?_⟩
    cases π with
    | nil => exact hx
    | cons j π =>
      by_cases hji : j = i
      · rw [hji, node_cons hc] at hx
        exact absurd (mem_nodes (Path.cons_iff.mp hπ).2 hx) hout
      · rwa [hkept hπ hji]
  refine ⟨⟨hr.table.anti (fun hπ hx => (hold hπ hx).1) fun {π x j} hπ _ hj hx => ?_, ?_, ?_⟩, ?_,
    hnone, hchild, ?_⟩
  · rw [hE x (hold hπ hx).2 j hj]
    split
    · exact .inr rfl
    · exact .inl rfl
  · rw [hnodes]
    refine hheap.frame (hstore.mono fun x hx he => hx (.inr ?_)) (by rw [hs''])
    rwa [Set.mem_singleton_iff.mp he]
  · rw [hnodes]
    exact hr.disjoint.mono_right Set.sdiff_subset
  · refine (hs.mono Set.subset_union_left).trans (hstore.mono fun x hx he => ?_)
    rw [Set.mem_singleton_iff.mp he] at hx
    exact Set.disjoint_left.mp hr.disjoint hx hpn
  · intro hb π j hπ hlen hj
    cases hx : node s''.mem p π with
    | none =>
      rw [leaf_of_none hx]
      exact Nat.zero_and _
    | some x =>
      obtain ⟨hx', hmem⟩ := hold hπ hx
      rw [leaf_of_some hx, hE x hmem j hj]
      split
      · exact Nat.zero_and _
      · rw [← leaf_of_some hx']
        exact hb hπ hlen hj

/-- A table without subtables is one page. -/
theorem freeRoot (hr : Rooted I K s h p) (hnone : ∀ j < 512, child s.mem p j = none) :
    wp E (Vm.kfree I (p * PGSIZE)) (fun _ s' => Pool I s' K ∧ Agree s.mem s'.mem K) s := by
  have hp : p ∉ K := Set.disjoint_right.mp hr.disjoint (mem_nodes .nil rfl)
  have hnodes : nodes s.mem h p = {p} := by
    refine Set.ext fun x => ⟨?_, ?_⟩
    · rintro ⟨π, hπ, hx⟩
      cases π with
      | nil => exact (Option.some.inj hx).symm
      | cons j π =>
        rw [node, hnone j (hπ.2 j (List.mem_cons_self ..))] at hx
        cases hx
    · rintro rfl
      exact mem_nodes .nil rfl
  have hheap := hr.heap
  rw [hnodes] at hheap
  refine (kfree_spec hheap (hr.table.managed .nil rfl) (.inr rfl)).mono fun _ s' h' => ⟨?_, ?_⟩
  · have h := h'.1
    rwa [Set.union_sdiff_right, Set.sdiff_singleton_eq_self hp] at h
  · refine h'.2.mono fun x hx he => hp ?_
    rwa [← Set.mem_singleton_iff.mp he]

end Rooted

/-! ## `freewalk` -/

theorem freewalkLoop_spec {k : ℕ} {free : ℕ → VmM Unit}
    (hfree : ∀ {K s r}, Rooted I K s h r → Bare s.mem h r →
      wp E (free (r * PGSIZE)) (fun _ s' => Pool I s' K ∧ Agree s.mem s'.mem K) s)
    (hr : Rooted I K s (h + 1) p) (hb : Bare s.mem (h + 1) p)
    (hdone : ∀ j < i, child s.mem p j = none) (hk : i + k = 512) :
    wp E (freewalkLoop free (p * PGSIZE) k i) (fun _ s' =>
      Rooted I K s' (h + 1) p ∧ Agree s.mem s'.mem K ∧ ∀ j < 512, child s'.mem p j = none) s := by
  induction k generalizing s i with
  | zero => exact ⟨hr, .refl, fun j hj => hdone j (by omega)⟩
  | succ k ih =>
    have hi : i < 512 := by omega
    rw [freewalkLoop]
    refine wp_bind.mpr (wp_entry.mpr ?_)
    by_cases hV : entry s.mem p i &&& PTE_V = 0
    · rw [if_neg fun hV' => hV'.1 hV, if_neg fun hV' => hV' hV]
      refine ih hr hb (fun j hj => ?_) (by omega)
      by_cases hji : j = i
      · rw [hji, child, if_neg fun hV' => hV' hV]
      · exact hdone j (by omega)
    · have hc : child s.mem p i = some (PPN (entry s.mem p i)) := if_pos hV
      rw [if_pos ⟨hV, hr.table.interior .nil (Nat.succ_pos h) hi rfl hV⟩, PTE2PA_eq]
      refine (hfree (hr.sub hi hc) (hb.sub hi hc)).bind fun _ s₁ h₁ => ?_
      refine wp_bind.mpr (wp_modify.mpr ?_)
      obtain ⟨hr₂, hs₂, hnone, hother, hb₂⟩ := hr.prune hi hc h₁.1 h₁.2 rfl
      refine (ih hr₂ (hb₂ hb) (fun j hj => ?_) (by omega)).mono fun _ s₃ h₃ => ?_
      · by_cases hji : j = i
        · rwa [hji]
        · rw [hother j (by omega) hji]
          exact hdone j (by omega)
      · exact ⟨h₃.1, hs₂.trans h₃.2.1, h₃.2.2⟩

/-- A table of the last level has nothing to free. -/
theorem freewalkLoop_last {k : ℕ} {free : ℕ → VmM Unit} (hb : Bare s.mem 0 p) (hk : i + k = 512) :
    wp E (freewalkLoop free (p * PGSIZE) k i) (fun _ s' => s' = s) s := by
  induction k generalizing i with
  | zero => rfl
  | succ k ih =>
    have hV := hb.entry (by omega : i < 512)
    rw [freewalkLoop]
    refine wp_bind.mpr (wp_entry.mpr ?_)
    rw [if_neg fun hV' => hV'.1 hV, if_neg fun hV' => hV' hV]
    exact ih (by omega)

/-- All pages of a table without mappings are freed. -/
theorem freewalk_spec (hr : Rooted I K s h p) (hb : Bare s.mem h p) :
    wp E (freewalk I (h + 1) (p * PGSIZE)) (fun _ s' => Pool I s' K ∧ Agree s.mem s'.mem K) s := by
  induction h generalizing K s p with
  | zero =>
    rw [freewalk]
    refine (freewalkLoop_last hb rfl).bind fun _ s' h' => ?_
    rw [h']
    exact hr.freeRoot fun j hj => if_neg fun hV => hV (hb.entry hj)
  | succ h ih =>
    rw [freewalk]
    refine (freewalkLoop_spec ih hr hb (fun j hj => absurd hj (Nat.not_lt_zero j))
      rfl).bind fun _ s₁ h₁ => ?_
    exact (h₁.1.freeRoot h₁.2.2).mono fun _ s₂ h₂ => ⟨h₂.1, h₁.2.1.trans h₂.2⟩

/-! ## `uvmfree` -/

/-- Every entry of the last level is the entry of a virtual page. -/
theorem leaf_eq_pte {π : List ℕ} {j : ℕ} (hπ : Path 2 π) (hlen : π.length = 2) (hj : j < 512) :
    ∃ v < 2 ^ 27, leaf m p π j = pte m p v := by
  obtain ⟨a, b, rfl⟩ := List.length_eq_two.mp hlen
  have ha : a < 512 := hπ.2 a (by simp)
  have hb : b < 512 := hπ.2 b (by simp)
  refine ⟨a * 2 ^ 18 + b * 2 ^ 9 + j, by omega, ?_⟩
  have h2 : PX 2 ((a * 2 ^ 18 + b * 2 ^ 9 + j) * PGSIZE) = a := by
    rw [PX_eq]
    unfold PGSIZE
    omega
  have h1 : PX 1 ((a * 2 ^ 18 + b * 2 ^ 9 + j) * PGSIZE) = b := by
    rw [PX_eq]
    unfold PGSIZE
    omega
  have h0 : PX 0 ((a * 2 ^ 18 + b * 2 ^ 9 + j) * PGSIZE) = j := by
    rw [PX_eq]
    unfold PGSIZE
    omega
  rw [pte, vpath, vpath, vpath, h2, h1, h0]

/-- An address space with no page above the user's goes back to the free list. -/
theorem uvmfree_spec {n sz : ℕ} {X : ℕ → ℕ} (hs : Space I K s p n X) (hsz : pages sz = n)
    (hX : ∀ v, X v = 0) :
    wp E (uvmfree I (p * PGSIZE) sz) (fun _ s' => Pool I s' K ∧ Agree s.mem s'.mem K) s := by
  have hfree : ∀ {s₁}, Space I K s₁ p 0 X → Agree s.mem s₁.mem K →
      wp E (freewalk I 3 (p * PGSIZE)) (fun _ s' => Pool I s' K ∧ Agree s.mem s'.mem K) s₁ := by
    intro s₁ h₁ hs₁
    have hr := h₁.rooted
    rw [mapped_zero, Set.union_empty] at hr
    refine (freewalk_spec hr fun {π j} hπ hlen hj => ?_).mono fun _ s₂ h₂ =>
      ⟨h₂.1, hs₁.trans h₂.2⟩
    obtain ⟨v, hv, hpte⟩ := leaf_eq_pte hπ hlen hj
    rw [hpte, h₁.above v hv (Nat.zero_le v), hX]
    exact Nat.zero_and _
  have hle := hs.le
  simp only [uvmfree]
  by_cases hpos : 0 < sz
  · have hround : PGROUNDUP sz / PGSIZE = n := by
      rw [PGROUNDUP_eq (by unfold pages PGSIZE at *; omega), Nat.mul_div_cancel _ PGSIZE_pos, hsz]
    rw [if_pos hpos, hround]
    have hshrink := hs.shrink (E := E) (Nat.zero_le n)
    rw [Nat.zero_mul, Nat.sub_zero] at hshrink
    exact hshrink.bind fun _ s₁ h₁ =>
      hfree h₁.1 (h₁.2.same.mono Set.subset_union_left)
  · rw [if_neg hpos]
    have hn : n = 0 := by
      unfold pages PGSIZE at hsz
      omega
    exact hfree (hn ▸ hs) .refl

end Xv6.Vm
