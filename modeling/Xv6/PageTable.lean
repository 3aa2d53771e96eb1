import Mathlib.Data.Set.Lattice
import Mathlib.Order.CompletePartialOrder
import Mathlib.Data.List.Induction
import Mathlib.Data.Nat.Bitwise
import Xv6.PageAlloc

/-!
# Page tables as trees

A page table of height `h` is a page of 512 entries, and a valid entry above the last level
holds the page number of a table of the next level. `node m p π` follows the indices `π` from
the table at page `p`, and `vpath` is the list of indices that `walk` takes for an address.

`Rooted I K s h p` : the pages of the table `p` are distinct, `K` are the pages in other use,
and the free list has the rest. What may happen to a table is then four moves : a page of `K`
changes (`Rooted.frame`), `K` takes a page or gives one up (`Rooted.kalloc`, `Rooted.kfree`),
a page becomes a table (`Rooted.grow`), and a leaf is set (`Rooted.setLeaf`). `walk_spec` and
`walk_read` put them together for `walk`.
-/

namespace Xv6

open Prog

/-! ## Numbers -/

theorem u64_natCast (n : ℕ) : u64 n = n % 2 ^ 64 := by
  unfold u64
  omega

theorem u64_of_lt {n : ℕ} (h : n < 2 ^ 64) : u64 n = n := by
  rw [u64_natCast, Nat.mod_eq_of_lt h]

/-- The number of the page that an entry points to. -/
def PPN (e : ℕ) : ℕ := e / 2 ^ 10 % 2 ^ 52

theorem PTE2PA_eq (e : ℕ) : PTE2PA e = PPN e * PGSIZE := by
  simp only [PTE2PA, PPN, PGSIZE, u64_natCast, Nat.shiftRight_eq_div_pow, Nat.shiftLeft_eq]
  omega

theorem PA2PTE_eq (pa : ℕ) : PA2PTE pa = pa / PGSIZE * 2 ^ 10 := by
  unfold PA2PTE PGSIZE
  rw [Nat.shiftRight_eq_div_pow, Nat.shiftLeft_eq]

theorem PX_eq (level va : ℕ) : PX level va = va / 2 ^ (12 + 9 * level) % 512 := by
  unfold PX PXSHIFT
  rw [Nat.shiftRight_eq_div_pow]
  exact Nat.and_two_pow_sub_one_eq_mod _ 9

theorem PX_lt (level va : ℕ) : PX level va < 512 := by
  rw [PX_eq]
  exact Nat.mod_lt _ (by omega)

/-- The flags of an entry do not depend on the page number above them. -/
theorem and_flags {p g f : ℕ} (hf : f < 2 ^ 10) : (p * 2 ^ 10 + g) &&& f = g &&& f := by
  have h : ∀ x : ℕ, x &&& f = x % 2 ^ 10 &&& f := fun x => by
    rw [← Nat.mod_eq_of_lt (Nat.and_lt_two_pow x hf), Nat.and_mod_two_pow,
      Nat.mod_eq_of_lt hf]
  rw [h, h g, Nat.mul_add_mod_self_right]

/-- An entry from a page number and flags. -/
theorem PA2PTE_or {pa f : ℕ} (hf : f < 2 ^ 10) : PA2PTE pa ||| f = pa / PGSIZE * 2 ^ 10 + f := by
  rw [PA2PTE_eq, Nat.mul_comm, Nat.two_pow_add_eq_or_of_lt hf]

theorem PPN_entry {p f : ℕ} (hf : f < 2 ^ 10) (hp : p < 2 ^ 52) : PPN (p * 2 ^ 10 + f) = p := by
  unfold PPN
  omega

/-! ## Trees -/

namespace Vm

/-- Entry `i` of the table at page `p`. -/
def entry (m : Ram) (p i : ℕ) : ℕ := m.load 8 (p * PGSIZE + 8 * i)

/-- The table that entry `i` points to. -/
def child (m : Ram) (p i : ℕ) : Option ℕ :=
  if entry m p i &&& PTE_V ≠ 0 then some (PPN (entry m p i)) else none

/-- The table that the indices `π` lead to from the table at page `p`. -/
def node (m : Ram) : (p : ℕ) → (π : List ℕ) → Option ℕ
  | p, [] => some p
  | p, i :: π => (child m p i).bind fun q => node m q π

/-- Indices for at most `h` levels. -/
def Path (h : ℕ) (π : List ℕ) : Prop := π.length ≤ h ∧ ∀ i ∈ π, i < 512

/-- The pages of a table of height `h`. -/
def nodes (m : Ram) (h p : ℕ) : Set ℕ := {q | ∃ π, Path h π ∧ node m p π = some q}

variable {I : KernelImage} {m m' : Ram} {h p q r i : ℕ} {π π' : List ℕ}

theorem Path.cons_iff : Path (h + 1) (i :: π) ↔ i < 512 ∧ Path h π := by
  simp only [Path, List.length_cons, List.mem_cons, forall_eq_or_imp]
  constructor
  · rintro ⟨hl, hi, hπ⟩
    exact ⟨hi, by omega, hπ⟩
  · rintro ⟨hi, hl, hπ⟩
    exact ⟨by omega, hi, hπ⟩

theorem Path.nil : Path h [] := ⟨Nat.zero_le h, by simp⟩

theorem Path.concat (hπ : Path h π) (hlt : π.length < h) (hi : i < 512) : Path h (π ++ [i]) := by
  refine ⟨by simpa using Nat.succ_le_of_lt hlt, fun j hj => ?_⟩
  rcases List.mem_append.mp hj with hj | hj
  · exact hπ.2 j hj
  · rwa [List.mem_singleton.mp hj]

theorem Path.of_append (hπ : Path h (π ++ π')) : Path h π :=
  ⟨le_trans (by simp) hπ.1, fun j hj => hπ.2 j (List.mem_append_left π' hj)⟩

theorem node_append : node m p (π ++ π') = (node m p π).bind fun q => node m q π' := by
  induction π generalizing p with
  | nil => rfl
  | cons i π ih =>
    rw [List.cons_append, node, node, Option.bind_assoc]
    exact Option.bind_congr fun q _ => ih

theorem node_concat : node m p (π ++ [i]) = (node m p π).bind fun q => child m q i := by
  rw [node_append]
  refine Option.bind_congr fun q _ => ?_
  rw [node]
  exact Option.bind_fun_some (child m q i)

theorem mem_nodes (hπ : Path h π) (hq : node m p π = some q) : q ∈ nodes m h p := ⟨π, hπ, hq⟩

theorem nodes_child (hi : i < 512) (hq : child m p i = some q) :
    nodes m h q ⊆ nodes m (h + 1) p := by
  rintro r ⟨π, hπ, hr⟩
  exact ⟨i :: π, Path.cons_iff.mpr ⟨hi, hπ⟩, by rw [node, hq, Option.bind_some, hr]⟩

theorem child_same {P : Set ℕ} (hs : Agree m m' P) (hp : p ∈ P) (hi : i < 512) :
    child m' p i = child m p i := by
  unfold child entry
  rw [hs.load hp hi]

/-- A table is kept by changes to other pages. -/
theorem node_same (hs : Agree m m' (nodes m h p)) (hπ : Path h π) : node m' p π = node m p π := by
  induction π generalizing h p with
  | nil => rfl
  | cons i π ih =>
    cases h with
    | zero => exact absurd hπ.1 (by simp)
    | succ h =>
      obtain ⟨hi, hπ⟩ := Path.cons_iff.mp hπ
      rw [node, node, child_same hs (mem_nodes .nil rfl) hi]
      exact Option.bind_congr fun q hq => ih (hs.mono (nodes_child hi hq)) hπ

theorem nodes_same (hs : Agree m m' (nodes m h p)) : nodes m' h p = nodes m h p := by
  refine Set.ext fun q => exists_congr fun π => and_congr_right fun hπ => ?_
  rw [node_same hs hπ]

theorem entry_same {P : Set ℕ} (hs : Agree m m' P) (hp : p ∈ P) (hi : i < 512) :
    entry m' p i = entry m p i :=
  hs.load hp hi

theorem entry_memset {j : ℕ} (hj : j < 512) :
    entry (m.memset (r * PGSIZE) 0 PGSIZE) q j = if q = r then 0 else entry m q j := by
  split
  · rename_i hq
    rw [hq]
    exact Ram.load_memset_zero (Nat.le_add_right ..) (by unfold PGSIZE; omega)
  · exact entry_same Agree.memset ‹_› hj

theorem entry_store {j v : ℕ} (hi : i < 512) (hj : j < 512) :
    entry (m.store 8 (p * PGSIZE + 8 * i) v) q j =
      if q = p ∧ j = i then v % 256 ^ 8 else entry m q j := by
  split
  · rename_i he
    rw [he.1, he.2]
    exact Ram.load_store_self
  · refine Ram.load_store_of_disjoint ?_
    unfold PGSIZE
    omega

theorem child_of_zero (he : entry m p i = 0) : child m p i = none := by
  rw [child, he, if_neg (by decide)]

theorem child_of_entry (he : entry m p i = q * 2 ^ 10 + 1) (hq : q < 2 ^ 52) :
    child m p i = some q := by
  rw [child, he, and_flags (by decide), PPN_entry (by omega) hq, if_pos (by decide)]

/-! ## Well-formed tables -/

/-- Distinct paths lead to distinct managed pages, and an entry above the last level is no
leaf. -/
structure Table (I : KernelImage) (m : Ram) (h p : ℕ) : Prop where
  managed : ∀ {π q}, Path h π → node m p π = some q → I.Managed q
  inj : ∀ {π π' q}, Path h π → Path h π' → node m p π = some q → node m p π' = some q → π = π'
  interior : ∀ {π q i}, Path h π → π.length < h → i < 512 → node m p π = some q →
    entry m q i &&& PTE_V ≠ 0 → entry m q i &&& (PTE_R ||| PTE_W ||| PTE_X) = 0

/-- A table may lose pages, and entries above the last level. -/
theorem Table.anti (ht : Table I m h p)
    (hn : ∀ {π q}, Path h π → node m' p π = some q → node m p π = some q)
    (he : ∀ {π q i}, Path h π → π.length < h → i < 512 → node m' p π = some q →
      entry m' q i = entry m q i ∨ entry m' q i = 0) : Table I m' h p where
  managed hπ hq := ht.managed hπ (hn hπ hq)
  inj hπ hπ' hq hq' := ht.inj hπ hπ' (hn hπ hq) (hn hπ' hq')
  interior {π q i} hπ hlt hi hq := by
    rcases he hπ hlt hi hq with he | he <;> rw [he]
    · exact ht.interior hπ hlt hi (hn hπ hq)
    · exact fun _ => Nat.zero_and _

theorem Table.same (ht : Table I m h p) (hs : Agree m m' (nodes m h p)) : Table I m' h p :=
  have hn : ∀ {π q}, Path h π → node m' p π = some q → node m p π = some q := fun hπ hq =>
    (node_same hs hπ).symm.trans hq
  ht.anti hn fun hπ _ hi hq => .inl (hs.load (mem_nodes hπ (hn hπ hq)) hi)

/-- The same tables if the entries above the last level lead to the same tables. -/
theorem node_congr (hc : ∀ {π q i}, Path h π → π.length < h → i < 512 → node m p π = some q →
    child m' q i = child m q i) (hπ : Path h π) : node m' p π = node m p π := by
  induction π using List.reverseRecOn with
  | nil => rfl
  | append_singleton π₁ j ih =>
    rw [node_concat, node_concat, ih hπ.of_append]
    refine Option.bind_congr fun q hq => hc hπ.of_append ?_ (hπ.2 j (by simp)) hq
    simpa using Nat.lt_of_succ_le (by simpa using hπ.1)

/-- A new table `r` behind an entry that was not valid. -/
theorem node_grow (ht : Table I m h p) (hπ : Path h π) (hlt : π.length < h)
    (hq : node m p π = some q) (hi : i < 512) (hno : child m q i = none)
    (hlink : child m' q i = some r) (hzero : ∀ j < 512, child m' r j = none)
    (hrest : ∀ q' ∈ nodes m h p, ∀ j < 512, (q' = q → j ≠ i) → child m' q' j = child m q' j)
    (hπ' : Path h π') : node m' p π' = if π' = π ++ [i] then some r else node m p π' := by
  -- on the path's last index, with the table it is looked up in either old or the new one
  induction π' using List.reverseRecOn with
  | nil => rw [if_neg (by simp)]; rfl
  | append_singleton π₁ j ih =>
    have hj : j < 512 := hπ'.2 j (by simp)
    rw [node_concat, node_concat, ih hπ'.of_append]
    by_cases hnew : π₁ = π ++ [i]
    · rw [if_pos hnew, Option.bind_some, hzero j hj, if_neg (by simp [hnew]), hnew, node_concat,
        hq, Option.bind_some, hno, Option.bind_none]
    · rw [if_neg hnew]
      cases hq' : node m p π₁ with
      | none =>
        rw [Option.bind_none, if_neg]
        · rfl
        · intro heq
          rw [(List.append_inj' heq rfl).1, hq] at hq'
          cases hq'
      | some q' =>
        rw [Option.bind_some, Option.bind_some]
        by_cases hqq : q' = q ∧ j = i
        · obtain ⟨rfl, rfl⟩ := hqq
          obtain rfl := ht.inj hπ'.of_append hπ hq' hq
          rw [hlink, if_pos rfl]
        · rw [hrest q' (mem_nodes hπ'.of_append hq') j hj fun he hji => hqq ⟨he, hji⟩, if_neg]
          intro heq
          obtain ⟨hπ₁, hji⟩ := List.append_inj' heq rfl
          rw [hπ₁, hq] at hq'
          exact hqq ⟨(Option.some.inj hq').symm, List.singleton_injective hji⟩

/-! ## A table in the heap -/

/-- `p` is the root of a table of height `h`, `K` are the pages used for anything else, and
the free list has the rest. -/
structure Rooted (I : KernelImage) (K : Set ℕ) (s : Phys) (h p : ℕ) : Prop where
  table : Table I s.mem h p
  heap : Pool I s (K ∪ nodes s.mem h p)
  disjoint : Disjoint K (nodes s.mem h p)

/-- Entry `i` of the table that `π` leads to, 0 if there is none. -/
def leaf (m : Ram) (p : ℕ) (π : List ℕ) (i : ℕ) : ℕ := (node m p π).elim 0 (entry m · i)

theorem leaf_of_none (hq : node m p π = none) : leaf m p π i = 0 := by
  rw [leaf, hq, Option.elim_none]

theorem leaf_of_some (hq : node m p π = some q) : leaf m p π i = entry m q i := by
  rw [leaf, hq, Option.elim_some]

/-- The tables of `m` are there in `m'`, and the leaves are the same. -/
structure Grows (m m' : Ram) (h p : ℕ) : Prop where
  node : ∀ {π q}, Path h π → node m p π = some q → node m' p π = some q
  leaf : ∀ {π i}, Path h π → π.length = h → i < 512 → leaf m' p π i = leaf m p π i

theorem Grows.refl : Grows m m h p := ⟨fun _ h => h, fun _ _ _ => rfl⟩

theorem Grows.trans {m'' : Ram} (hg : Grows m m' h p) (hg' : Grows m' m'' h p) :
    Grows m m'' h p :=
  ⟨fun hπ hq => hg'.node hπ (hg.node hπ hq),
    fun hπ hl hi => (hg'.leaf hπ hl hi).trans (hg.leaf hπ hl hi)⟩

theorem Grows.of_same (hs : Agree m m' (nodes m h p)) : Grows m m' h p where
  node hπ hq := by rwa [node_same hs hπ]
  leaf {π i} hπ _ hi := by
    have hn := node_same hs hπ
    cases hq : Vm.node m p π with
    | none => rw [leaf_of_none hq, leaf_of_none (hn.trans hq)]
    | some q =>
      rw [leaf_of_some hq, leaf_of_some (hn.trans hq), entry_same hs (mem_nodes hπ hq) hi]

namespace Rooted

variable {K : Set ℕ} {s : Phys}

theorem frame {s' : Phys} (hr : Rooted I K s h p) (hs : Agree s.mem s'.mem Kᶜ)
    (hf : s'.freelist = s.freelist) : Rooted I K s' h p ∧ Grows s.mem s'.mem h p := by
  have hn : Agree s.mem s'.mem (nodes s.mem h p) :=
    hs.mono fun q hq hK => Set.disjoint_left.mp hr.disjoint hK hq
  refine ⟨⟨hr.table.same hn, ?_, ?_⟩, .of_same hn⟩
  · rw [nodes_same hn]
    exact hr.heap.frame (hs.mono fun q hq hK => hq (.inl hK)) hf
  · rw [nodes_same hn]
    exact hr.disjoint

theorem kalloc {E : VmPanic → Prop} (hr : Rooted I K s h p) : wp E kalloc (fun x s' =>
    (x = 0 ∧ s' = s) ∨
    ∃ q, x = q * PGSIZE ∧ I.Managed q ∧ q ∉ K ∧ q ∉ nodes s.mem h p ∧
      Rooted I (insert q K) s' h p ∧ Grows s.mem s'.mem h p ∧ Agree s.mem s'.mem {q}ᶜ) s := by
  refine (kalloc_spec hr.heap).mono fun x s' hx => ?_
  rcases hx with ⟨hx, hs, -⟩ | ⟨q, hx, hq, hqU, hheap, hsame⟩
  · exact .inl ⟨hx, hs⟩
  · rw [Set.mem_union, not_or] at hqU
    have hn : Agree s.mem s'.mem (nodes s.mem h p) := by
      refine hsame.mono fun q' hq' he => hqU.2 ?_
      rwa [← Set.mem_singleton_iff.mp he]
    refine .inr ⟨q, hx, hq, hqU.1, hqU.2, ⟨hr.table.same hn, ?_, ?_⟩, .of_same hn, hsame⟩
    · rwa [nodes_same hn, Set.insert_union]
    · rw [nodes_same hn]
      exact Set.disjoint_insert_left.mpr ⟨hqU.2, hr.disjoint⟩

theorem kfree {E : VmPanic → Prop} (hr : Rooted I K s h p) (hq : I.Managed q) (hqK : q ∈ K) :
    wp E (kfree I (q * PGSIZE)) (fun _ s' =>
      Rooted I (K \ {q}) s' h p ∧ Grows s.mem s'.mem h p ∧ Agree s.mem s'.mem {q}ᶜ) s := by
  refine (kfree_spec hr.heap hq (.inl hqK)).mono fun _ s' hx => ?_
  obtain ⟨hheap, hsame⟩ := hx
  have hqn : q ∉ nodes s.mem h p := Set.disjoint_left.mp hr.disjoint hqK
  have hn : Agree s.mem s'.mem (nodes s.mem h p) := by
    refine hsame.mono fun q' hq' he => hqn ?_
    rwa [← Set.mem_singleton_iff.mp he]
  refine ⟨⟨hr.table.same hn, ?_, ?_⟩, .of_same hn, hsame⟩
  · rwa [nodes_same hn, ← Set.sdiff_singleton_eq_self hqn, ← Set.union_sdiff_distrib]
  · rw [nodes_same hn]
    exact hr.disjoint.mono_left Set.sdiff_subset

/-- A page that was just allocated becomes a table. -/
theorem grow (hr : Rooted I (insert r K) s h p) (hrK : r ∉ K) (hrm : I.Managed r)
    (hπ : Path h π) (hlt : π.length < h) (hq : node s.mem p π = some q) (hi : i < 512)
    (hno : child s.mem q i = none) {s' : Phys}
    (hs' : s' = { s with
      mem := (s.mem.memset (r * PGSIZE) 0 PGSIZE).store 8 (q * PGSIZE + 8 * i)
        (PA2PTE (r * PGSIZE) ||| PTE_V) }) :
    Rooted I K s' h p ∧ Grows s.mem s'.mem h p ∧ Agree s.mem s'.mem K ∧
      node s'.mem p (π ++ [i]) = some r := by
  have hrn : r ∉ nodes s.mem h p := Set.disjoint_left.mp hr.disjoint (Set.mem_insert r K)
  have hqn := mem_nodes hπ hq
  have hqr : q ≠ r := fun he => hrn (he ▸ hqn)
  have hv : (PA2PTE (r * PGSIZE) ||| PTE_V) % 256 ^ 8 = r * 2 ^ 10 + 1 := by
    have := hrm.lt
    simp only [PTE_V, PA2PTE_or (Nat.one_lt_two_pow (by omega : 10 ≠ 0)),
      Nat.mul_div_cancel r PGSIZE_pos]
    omega
  have hE : ∀ x j, j < 512 → entry s'.mem x j =
      if x = q ∧ j = i then r * 2 ^ 10 + 1 else if x = r then 0 else entry s.mem x j := by
    intro x j hj
    rw [hs', entry_store hi hj, entry_memset hj, hv]
  have hlink : child s'.mem q i = some r :=
    child_of_entry (by rw [hE q i hi, if_pos ⟨rfl, rfl⟩]) (by have := hrm.lt; omega)
  have hnew : ∀ j < 512, entry s'.mem r j = 0 := fun j hj => by
    rw [hE r j hj, if_neg (fun he => hqr he.1.symm), if_pos rfl]
  have hold : ∀ x ∈ nodes s.mem h p, ∀ j < 512, (x = q → j ≠ i) →
      entry s'.mem x j = entry s.mem x j := fun x hx j hj hne => by
    rw [hE x j hj, if_neg (fun he => hne he.1 he.2), if_neg]
    rintro rfl
    exact hrn hx
  have hnode : ∀ π', Path h π' →
      node s'.mem p π' = if π' = π ++ [i] then some r else node s.mem p π' := fun π' hπ' =>
    node_grow hr.table hπ hlt hq hi hno hlink (fun j hj => child_of_zero (hnew j hj))
      (fun x hx j hj hne => by rw [child, child, hold x hx j hj hne]) hπ'
  have hnone : node s.mem p (π ++ [i]) = none := by rw [node_concat, hq, Option.bind_some, hno]
  have hpath := hπ.concat hlt hi
  have hnodes : nodes s'.mem h p = insert r (nodes s.mem h p) := by
    refine Set.ext fun x => ⟨?_, ?_⟩
    · rintro ⟨π', hπ', hx⟩
      rw [hnode π' hπ'] at hx
      split at hx
      · exact .inl (Option.some.inj hx).symm
      · exact .inr ⟨π', hπ', hx⟩
    · rintro (rfl | ⟨π', hπ', hx⟩)
      · exact ⟨_, hpath, by rw [hnode _ hpath, if_pos rfl]⟩
      · refine ⟨π', hπ', ?_⟩
        rw [hnode π' hπ', if_neg, hx]
        rintro rfl
        simp [hnone] at hx
  have hsame : Agree s.mem s'.mem {x | x ≠ r ∧ x ≠ q} := by
    rw [hs']
    exact (Agree.memset.mono fun x hx => hx.1).trans ((Agree.store hi).mono fun x hx => hx.2)
  refine ⟨⟨⟨?_, ?_, ?_⟩, ?_, ?_⟩, ⟨?_, ?_⟩, hsame.mono ?_, by rw [hnode _ hpath, if_pos rfl]⟩
  · intro π' x hπ' hx
    rw [hnode π' hπ'] at hx
    split at hx
    · rwa [← Option.some.inj hx]
    · exact hr.table.managed hπ' hx
  · intro π₁ π₂ x h₁ h₂ hx₁ hx₂
    rw [hnode π₁ h₁] at hx₁
    rw [hnode π₂ h₂] at hx₂
    split at hx₁ <;> split at hx₂
    · simp [*]
    · exact absurd (mem_nodes h₂ hx₂) (Option.some.inj hx₁ ▸ hrn)
    · exact absurd (mem_nodes h₁ hx₁) (Option.some.inj hx₂ ▸ hrn)
    · exact hr.table.inj h₁ h₂ hx₁ hx₂
  · intro π' x j hπ' hlt' hj hx hv
    rw [hE x j hj] at hv ⊢
    split
    · exact and_flags (by decide)
    · rename_i hne
      rw [if_neg hne] at hv
      split
      · exact Nat.zero_and _
      · rename_i hxr
        rw [if_neg hxr] at hv
        rw [hnode π' hπ'] at hx
        split at hx
        · exact absurd (Option.some.inj hx).symm hxr
        · exact hr.table.interior hπ' hlt' hj hx hv
  · have hheap := hr.heap
    rw [Set.insert_union, ← Set.union_insert, ← hnodes] at hheap
    refine hheap.frame (hsame.mono fun x hx => ⟨?_, ?_⟩) (by rw [hs'])
    · rintro rfl
      exact hx (.inr (hnodes ▸ .inl rfl))
    · rintro rfl
      exact hx (.inr (hnodes ▸ .inr hqn))
  · rw [hnodes]
    exact Set.disjoint_insert_right.mpr
      ⟨hrK, hr.disjoint.mono_left (Set.subset_insert r K)⟩
  · intro π' x hπ' hx
    rw [hnode π' hπ', if_neg, hx]
    rintro rfl
    simp [hnone] at hx
  · intro π' j hπ' hlen hj
    have hn := hnode π' hπ'
    split at hn
    · rename_i he
      rw [leaf_of_some hn, hnew j hj, he, leaf_of_none hnone]
    · cases hx : node s.mem p π' with
      | none => rw [leaf_of_none hx, leaf_of_none (hn.trans hx)]
      | some x =>
        rw [leaf_of_some hx, leaf_of_some (hn.trans hx)]
        refine hold x (mem_nodes hπ' hx) j hj ?_
        rintro rfl
        rw [hr.table.inj hπ hπ' hq hx] at hlt
        omega
  · intro x hx
    exact ⟨fun he => hrK (he ▸ hx), fun he => Set.disjoint_left.mp hr.disjoint (.inr hx) (he ▸ hqn)⟩

theorem setLeaf (hr : Rooted I K s h p) (hπ : Path h π) (hlen : π.length = h)
    (hq : node s.mem p π = some q) (hi : i < 512) {v : ℕ} {s' : Phys}
    (hs' : s' = { s with mem := s.mem.store 8 (q * PGSIZE + 8 * i) v }) :
    Rooted I K s' h p ∧ Agree s.mem s'.mem K ∧
      (∀ {π'}, Path h π' → node s'.mem p π' = node s.mem p π') ∧
      ∀ {π' j}, Path h π' → π'.length = h → j < 512 →
        leaf s'.mem p π' j = if π' = π ∧ j = i then v % 256 ^ 8 else leaf s.mem p π' j := by
  have hE : ∀ x j, j < 512 → entry s'.mem x j =
      if x = q ∧ j = i then v % 256 ^ 8 else entry s.mem x j := fun x j hj => by
    rw [hs', entry_store hi hj]
  have habove : ∀ {π' x j}, Path h π' → π'.length < h → j < 512 → node s.mem p π' = some x →
      entry s'.mem x j = entry s.mem x j := by
    intro π' x j hπ' hlt hj hx
    rw [hE x j hj, if_neg]
    rintro ⟨rfl, -⟩
    rw [hr.table.inj hπ' hπ hx hq] at hlt
    omega
  have hnode : ∀ {π'}, Path h π' → node s'.mem p π' = node s.mem p π' :=
    node_congr fun hπ' hlt hj hx => by rw [child, child, habove hπ' hlt hj hx]
  have hnodes : nodes s'.mem h p = nodes s.mem h p :=
    Set.ext fun x => exists_congr fun π' => and_congr_right fun hπ' => by rw [hnode hπ']
  have hsame : Agree s.mem s'.mem {q}ᶜ := by
    rw [hs']
    exact Agree.store hi
  have hqn := mem_nodes hπ hq
  refine ⟨⟨hr.table.anti (fun hπ' hx => (hnode hπ').symm.trans hx) fun hπ' hlt hj hx =>
    .inl (habove hπ' hlt hj ((hnode hπ').symm.trans hx)), ?_, ?_⟩, hsame.mono ?_, hnode, ?_⟩
  · rw [hnodes]
    refine hr.heap.frame (hsame.mono fun x hx he => hx (.inr ?_)) (by rw [hs'])
    rwa [Set.mem_singleton_iff.mp he]
  · rw [hnodes]
    exact hr.disjoint
  · intro x hx he
    rw [Set.mem_singleton_iff.mp he] at hx
    exact Set.disjoint_left.mp hr.disjoint hx hqn
  · intro π' j hπ' hlen' hj
    have hn := hnode hπ'
    cases hx : node s.mem p π' with
    | none =>
      rw [leaf_of_none hx, leaf_of_none (hn.trans hx), if_neg]
      rintro ⟨rfl, -⟩
      simp [hq] at hx
    | some x =>
      rw [leaf_of_some hx, leaf_of_some (hn.trans hx), hE x j hj]
      refine if_congr (and_congr_left fun _ => ⟨?_, ?_⟩) rfl rfl
      · rintro rfl
        exact hr.table.inj hπ' hπ hx hq
      · rintro rfl
        exact Option.some.inj (hx.symm.trans hq)

end Rooted

/-! ## `walk` -/

/-- The indices that `walk` takes on its way down from a table of the level. -/
def vpath : (level va : ℕ) → List ℕ
  | 0, _ => []
  | level + 1, va => PX (level + 1) va :: vpath level va

theorem vpath_length (level va : ℕ) : (vpath level va).length = level := by
  induction level with
  | zero => rfl
  | succ level ih => rw [vpath, List.length_cons, ih]

theorem vpath_path (level va : ℕ) : Path level (vpath level va) := by
  induction level with
  | zero => exact .nil
  | succ level ih => exact Path.cons_iff.mpr ⟨PX_lt .., ih⟩

section Walk

variable {E : VmPanic → Prop} {K : Set ℕ} {s : Phys} {va : ℕ}

theorem wp_entry {Q : ℕ → Phys → Prop} :
    wp E (load64 (q * PGSIZE + 8 * i)) Q s ↔ Q (entry s.mem q i) s := Iff.rfl

/-- `walk` without allocation only reads. -/
theorem walkLoop_read {level : ℕ} : wp E (walkLoop va false level (p * PGSIZE)) (fun x s' =>
    s' = s ∧ x = (node s.mem p (vpath level va)).map fun q => q * PGSIZE + 8 * PX 0 va) s := by
  induction level generalizing p with
  | zero => exact ⟨rfl, rfl⟩
  | succ level ih =>
    simp only [walkLoop, walkStep, load64, wp_bind, wp_get, wp_pure, wp_ite, vpath, node, child,
      entry]
    by_cases hv : s.mem.load 8 (p * PGSIZE + 8 * PX (level + 1) va) &&& PTE_V = 0
    · simp [hv]
    · simp only [hv, ne_eq, not_false_eq_true, ↓reduceIte, Option.bind_some, PTE2PA_eq]
      exact ih

theorem walk_read (hva : va < MAXVA ∨ E .walk) : wp E (walk (p * PGSIZE) va false) (fun x s' =>
    s' = s ∧ va < MAXVA ∧
      x = (node s.mem p (vpath 2 va)).map fun q => q * PGSIZE + 8 * PX 0 va) s := by
  simp only [walk, wp_bind, wp_ite, wp_throw]
  split
  · exact hva.resolve_left (by omega)
  · refine walkLoop_read.mono fun x s' hx => ⟨hx.1, by omega, hx.2⟩

/-- One level down, with a new table if there is none. -/
theorem walkStep_spec {level : ℕ} (hr : Rooted I K s h p) (hπ : Path h π) (hlt : π.length < h)
    (hq : node s.mem p π = some q) : wp E (walkStep va true level (q * PGSIZE)) (fun x s' =>
      Rooted I K s' h p ∧ Grows s.mem s'.mem h p ∧ Agree s.mem s'.mem K ∧
      (x = none ∨ ∃ r, x = some (r * PGSIZE) ∧
        node s'.mem p (π ++ [PX level va]) = some r)) s := by
  simp only [walkStep, load64, memset, store64, wp_bind, wp_get, wp_pure, wp_ite]
  have hi := PX_lt level va
  have hc : child s.mem q (PX level va) = if entry s.mem q (PX level va) &&& PTE_V ≠ 0
    then some (PPN (entry s.mem q (PX level va))) else none := rfl
  rw [← entry]
  split
  · rename_i hv
    rw [if_pos hv] at hc
    refine ⟨hr, .refl, .refl, .inr ⟨_, by rw [PTE2PA_eq], ?_⟩⟩
    rw [node_concat, hq, Option.bind_some, hc]
  · rename_i hv
    rw [if_neg hv] at hc
    rw [if_neg (by simp)]
    refine hr.kalloc.mono fun x s₁ hx => ?_
    rcases hx with ⟨rfl, rfl⟩ | ⟨r, rfl, hrm, hrK, hrn, hr₁, hg₁, hs₁⟩
    · exact ⟨hr, .refl, .refl, .inl rfl⟩
    · rw [if_neg hrm.addr_ne_zero]
      have hqr : q ∈ ({r}ᶜ : Set ℕ) := fun he =>
        hrn (Set.mem_singleton_iff.mp he ▸ mem_nodes hπ hq)
      obtain ⟨hr₂, hg₂, hs₂, hnew⟩ := hr₁.grow hrK hrm hπ hlt (hg₁.node hπ hq) hi
        (by rw [child_same hs₁ hqr hi, hc]) rfl
      refine ⟨hr₂, hg₁.trans hg₂, (hs₁.mono ?_).trans hs₂, .inr ⟨r, rfl, hnew⟩⟩
      intro x hx he
      exact hrK (Set.mem_singleton_iff.mp he ▸ hx)

theorem walkLoop_spec {level : ℕ} (hr : Rooted I K s h p) (hπ : Path h π)
    (hlen : π.length + level = h) (hq : node s.mem p π = some q) :
    wp E (walkLoop va true level (q * PGSIZE)) (fun x s' =>
      Rooted I K s' h p ∧ Grows s.mem s'.mem h p ∧ Agree s.mem s'.mem K ∧
      (x = none ∨ ∃ r, x = some (r * PGSIZE + 8 * PX 0 va) ∧
        node s'.mem p (π ++ vpath level va) = some r)) s := by
  induction level generalizing s q π with
  | zero =>
    refine ⟨hr, .refl, .refl, .inr ⟨q, rfl, ?_⟩⟩
    rwa [vpath, List.append_nil]
  | succ level ih =>
    simp only [walkLoop, wp_bind]
    refine (walkStep_spec hr hπ (by omega) hq).mono fun x s₁ hx => ?_
    obtain ⟨hr₁, hg₁, hs₁, rfl | ⟨r, rfl, hnode⟩⟩ := hx
    · exact ⟨hr₁, hg₁, hs₁, .inl rfl⟩
    · have hπ₁ := hπ.concat (by omega) (PX_lt (level + 1) va)
      refine (ih hr₁ hπ₁ (by simp; omega) hnode).mono fun x s₂ hx => ?_
      obtain ⟨hr₂, hg₂, hs₂, hx⟩ := hx
      refine ⟨hr₂, hg₁.trans hg₂, hs₁.trans hs₂, ?_⟩
      rwa [List.append_assoc, List.singleton_append] at hx

/-- `walk` with allocation returns the entry, or runs out of memory ; it may add tables. -/
theorem walk_spec (hr : Rooted I K s 2 p) (hva : va < MAXVA ∨ E .walk) :
    wp E (walk (p * PGSIZE) va true) (fun x s' =>
      va < MAXVA ∧ Rooted I K s' 2 p ∧ Grows s.mem s'.mem 2 p ∧ Agree s.mem s'.mem K ∧
      (x = none ∨ ∃ r, x = some (r * PGSIZE + 8 * PX 0 va) ∧
        node s'.mem p (vpath 2 va) = some r)) s := by
  simp only [walk, wp_bind, wp_ite, wp_throw]
  split
  · exact hva.resolve_left (by omega)
  · refine (walkLoop_spec hr .nil rfl rfl).mono fun x s' hx => ⟨by omega, ?_⟩
    exact hx

end Walk

end Vm

end Xv6
