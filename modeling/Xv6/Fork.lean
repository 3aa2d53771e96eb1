import Xv6.ProcSpace
import Xv6.UserCopy

/-!
# `fork`

`uvmcopy` gives the child a page for each page of the parent, with its flags and its contents
(`Copied`), and `forkChild` the registers, the files and the rest of the slot. Parent and child
then own disjoint pages (`Twin`), so that no `copyout` to one of them reaches the other
(`Isolated`).

A `fork` that fails gives back what `allocproc` took (`Undone`). The number of the child is the
result of a `fork` that does not fail, and numbers wrap : the child that gets the number −1 is
there, with the pages it took, and the caller is told that `fork` failed.

To the open files `fork` does what the `fork` of `FileTable` does when it runs by itself
(`ForkFiles`), and to the process table what that of `ProcTable` does, step by step, when no
other process moves (`ForkProcs`).
-/

namespace Xv6

open Function Prog Vm

variable {I : KernelImage} {K U : Set ℕ} {s s' : Phys} {m m' : Ram} {a c p n r t : ℕ}
  {X Y : ℕ → ℕ}

/-! ## `uvmcopy` -/

namespace Vm

variable {E : VmPanic → Prop}

/-- The first `n` pages of `c` have the flags and the contents of those of `a`. -/
structure Copied (m : Ram) (a c n : ℕ) : Prop where
  flags : ∀ v < n, PTE_FLAGS (pte m c v) = PTE_FLAGS (pte m a v)
  bytes : ∀ v < n, ∀ o < PGSIZE, m (PPN (pte m c v) * PGSIZE + o) = m (PPN (pte m a v) * PGSIZE + o)

theorem flags_or_valid {e : ℕ} (h : e &&& PTE_V ≠ 0) : PTE_FLAGS e ||| PTE_V = PTE_FLAGS e := by
  have hodd : e.testBit 0 = true := by
    rw [PTE_V, Nat.and_one_is_mod] at h
    rw [Nat.testBit_zero]
    exact decide_eq_true (by omega)
  refine Nat.eq_of_testBit_eq fun i => ?_
  rw [PTE_FLAGS, Nat.testBit_or, Nat.testBit_and]
  cases i with
  | zero => rw [hodd]; rfl
  | succ i =>
    have hone : PTE_V.testBit (i + 1) = false := by simp [PTE_V, Nat.testBit_succ]
    rw [hone, Bool.or_false]

theorem page_div {q o : ℕ} (ho : o < PGSIZE) : (q * PGSIZE + o) / PGSIZE = q := by
  rw [Nat.mul_comm, Nat.mul_add_div PGSIZE_pos, Nat.div_eq_of_lt ho, Nat.add_zero]

theorem page_mem {P : Set ℕ} {q o : ℕ} (ho : o < PGSIZE) (hq : q ∈ P) :
    (q * PGSIZE + o) / PGSIZE ∈ P := by
  rwa [page_div ho]

/-- The copies stay what they are while pages of neither space change. -/
theorem Copied.same (h : Copied m a c n) (hn : n ≤ 2 ^ 26) (ha : ∀ v < n, pte m' a v = pte m a v)
    (hc : ∀ v < n, pte m' c v = pte m c v)
    (hs : Agree m m' (mapped m a 0 n ∪ mapped m c 0 n)) : Copied m' a c n where
  flags v hv := by
    rw [ha v hv, hc v hv]
    exact h.flags v hv
  bytes v hv o ho := by
    rw [ha v hv, hc v hv, hs _ (.inl (page_mem ho (mem_mapped hn hv))),
      hs _ (.inr (page_mem ho (mem_mapped hn hv)))]
    exact h.bytes v hv o ho

/-- One more page is copied. -/
theorem Copied.succ (h : Copied m a c n) (hflags : PTE_FLAGS (pte m c n) = PTE_FLAGS (pte m a n))
    (hbytes : ∀ o < PGSIZE, m (PPN (pte m c n) * PGSIZE + o) = m (PPN (pte m a n) * PGSIZE + o)) :
    Copied m a c (n + 1) where
  flags v hv := by
    by_cases hvn : v = n
    · rwa [hvn]
    · exact h.flags v (by omega)
  bytes v hv := by
    by_cases hvn : v = n
    · rwa [hvn]
    · exact h.bytes v (by omega)

theorem copyLoop_spec {sz k v : ℕ} (h : Space I K s c v X) (ha : Shape I s.mem a (pages sz) Y)
    (hK : owned s.mem a (pages sz) ⊆ K) (hn : pages sz ≤ 2 ^ 26) (hv : v ≤ pages sz)
    (hk : pages sz ≤ v + k) (hc : Copied s.mem a c v) :
    wp E (copyLoop I (a * PGSIZE) (c * PGSIZE) sz k (v * PGSIZE)) (fun x s' =>
      Agree s.mem s'.mem K ∧
      (x = 0 ∧ Space I K s' c (pages sz) X ∧ Copied s'.mem a c (pages sz) ∨
        x = -1 ∧ Space I K s' c 0 X)) s := by
  induction k generalizing s v with
  | zero =>
    obtain rfl : v = pages sz := by omega
    exact ⟨.refl, .inl ⟨rfl, h, hc⟩⟩
  | succ k ih =>
    rw [copyLoop]
    by_cases hlt : v * PGSIZE < sz
    · rw [if_pos hlt]
      have hpage : v < pages sz := by
        unfold pages PGSIZE at *
        omega
      have hle := h.le
      have hleaf := ha.leaf v hpage
      have hin : PPN (pte s.mem a v) ∈ K := hK (.inl (mem_mapped hn hpage))
      have hne : pte s.mem a v ≠ 0 := fun h0 => hleaf.1 (by rw [h0]; exact Nat.zero_and _)
      obtain ⟨q₀, hq₀, he⟩ := node_of_pte hne
      have hva : v * PGSIZE < MAXVA := by
        unfold MAXVA PGSIZE
        omega
      refine (walk_read (.inl hva)).bind fun x s' hx => ?_
      obtain ⟨rfl, -, rfl⟩ := hx
      rw [hq₀, Option.map_some]
      refine wp_bind.mpr (wp_entry.mpr ?_)
      rw [← he, if_neg hleaf.1, PTE2PA_eq]
      have hperm : PTE_FLAGS (pte s'.mem a v) < 2 ^ 10 := Nat.and_lt_two_pow _ (by decide)
      refine h.newPage (f := fun page m => m.memmove page (PPN (pte s'.mem a v) * PGSIZE) PGSIZE)
        hperm ?_ Agree.memmove (fun h' hk' => ?_) fun {q s₁ s₃} hq hk₁ hkept hk₃ h₃ hnew => ?_
      · rw [flags_or_valid hleaf.1]
        exact hleaf.2
      -- a page or a table is missing
      · have hshrink := h'.shrink (E := E) (Nat.zero_le v)
        rw [Nat.zero_mul, Nat.sub_zero] at hshrink
        rw [Nat.mul_div_cancel _ PGSIZE_pos]
        refine hshrink.bind fun _ s₂ h₂ => ⟨?_, .inr ⟨rfl, h₂.1⟩⟩
        exact (hk'.same.mono Set.subset_union_left).trans (h₂.2.same.mono Set.subset_union_left)
      have hbytes : ∀ o < PGSIZE, s₁.mem.memmove (q * PGSIZE) (PPN (pte s'.mem a v) * PGSIZE)
          PGSIZE (q * PGSIZE + o) = s'.mem (PPN (pte s'.mem a v) * PGSIZE + o) := by
        intro o ho
        rw [Ram.memmove, Ram.write_of_mem (by omega) (by omega), Nat.add_sub_cancel_left]
        exact hk₁.same _ (.inl (page_mem ho hin))
      have hsame : Agree s'.mem s₃.mem K := hkept.same.mono Set.subset_union_left
      rw [u64_next (by omega)]
      obtain ⟨ha₃, hown, hpte⟩ := ha.same (hsame.mono fun x hx => hK (.inr hx))
      obtain ⟨hppn, -, hflags⟩ := mapEntry_page (by have := hq.lt; omega : q < 2 ^ 52) hperm
      rw [← hnew] at hppn hflags
      have hc₃ : Copied s₃.mem a c v := hc.same (by omega) (fun w _ => hpte w) hkept.pte
        (hkept.same.mono (Set.union_subset_union_left _ fun x hx =>
          hK (.inl (mapped_mono hpage.le hx))))
      refine (ih h₃ ha₃ (by rwa [hown]) (by omega) (by omega) (hc₃.succ ?_ ?_)).mono
        fun x s₄ h₄ => ⟨hsame.trans h₄.1, h₄.2⟩
      · rw [hflags, flags_or_valid hleaf.1, hpte]
      · intro o ho
        rw [hppn, hpte, hk₃.same _ (.inl (.inl (page_div ho))), hbytes o ho]
        exact (hsame _ (page_mem ho hin)).symm
    · rw [if_neg hlt]
      obtain rfl : v = pages sz := by
        unfold pages PGSIZE at *
        omega
      exact ⟨.refl, .inl ⟨rfl, h, hc⟩⟩

/-- `uvmcopy` copies the pages of `a` to an empty space, or leaves it empty. -/
theorem uvmcopy_spec {sz : ℕ} (h : Space I K s c 0 X) (ha : Shape I s.mem a (pages sz) Y)
    (hK : owned s.mem a (pages sz) ⊆ K) (hn : pages sz ≤ 2 ^ 26) :
    wp E (uvmcopy I (a * PGSIZE) (c * PGSIZE) sz) (fun x s' => Agree s.mem s'.mem K ∧
      (x = 0 ∧ Space I K s' c (pages sz) X ∧ Copied s'.mem a c (pages sz) ∨
        x = -1 ∧ Space I K s' c 0 X)) s := by
  have hk : pages sz ≤ 0 + (sz / PGSIZE + 1) := by
    unfold pages PGSIZE
    omega
  have hloop := copyLoop_spec (E := E) h ha hK hn (Nat.zero_le _) hk
    ⟨nofun, nofun⟩
  rwa [Nat.zero_mul] at hloop

/-! ## Writes to one of two address spaces -/

/-- Only pages of the user have `PTE_U`. -/
theorem Shape.readable_lt (h : Shape I m p n X) (hX : ∀ v, X v &&& PTE_U = 0) {va : ℕ}
    (hr : Readable m p va) : va / PGSIZE < n := by
  by_contra hge
  have hva : va / PGSIZE < 2 ^ 27 := by
    have := hr.1
    unfold MAXVA at this
    unfold PGSIZE
    omega
  refine hr.2.2 ?_
  rw [h.above _ hva (by omega)]
  exact hX _

theorem Shape.userPages (h : Shape I m p n X) (hX : ∀ v, X v &&& PTE_U = 0) (hn : n ≤ 2 ^ 26) :
    UserPages m p where
  inj hr hr' he := h.inj _ (h.readable_lt hX hr) _ (h.readable_lt hX hr') he
  table hr := Set.disjoint_left.mp h.user (mem_mapped hn (h.readable_lt hX hr))
  nonzero hr := (h.managed _ (h.readable_lt hX hr)).pos.ne'

/-- A write to a page outside an address space leaves the space. -/
theorem Shape.off {t' : ℕ} (h : Shape I m a n Y) (ht : t' ∉ owned m a n)
    (hs : Agree m m' {t'}ᶜ) : (∀ v, pte m' a v = pte m a v) ∧ mapped m a 0 n ⊆ {t'}ᶜ := by
  refine ⟨(h.same (hs.mono fun q hq he => ht ?_)).2.2, fun q hq he => ht ?_⟩
  · exact Set.mem_singleton_iff.mp he ▸ .inr hq
  · exact Set.mem_singleton_iff.mp he ▸ .inl hq

/-- `copyout` changes pages of the user only. -/
theorem copyout_frame (h : Shape I s.mem p n X) (hX : ∀ v, X v &&& PTE_U = 0) (hn : n ≤ 2 ^ 26)
    (dstva : ℕ) (src : ℕ → UInt8) (len : ℕ) :
    wp E (copyout (p * PGSIZE) dstva src len) (fun _ s' =>
      s'.freelist = s.freelist ∧ Agree s.mem s'.mem (mapped s.mem p 0 n)ᶜ) s := by
  have hu := (h.userPages hX hn).apart fun _ => True
  refine (copyoutLoop_spec (Nat.le_refl len) hu fun _ _ _ => trivial).mono fun x s' h' => ⟨h'.1, ?_⟩
  obtain ⟨N, -, hwrite, hd, -⟩ := h'.2
  intro b hb
  refine hd.outside b fun i hi he => hb ?_
  rw [he, paddr_div]
  exact mem_mapped hn (h.readable_lt hX (hwrite i hi).1)

/-- Two address spaces of `n` pages that share no page. -/
structure Twin (I : KernelImage) (m : Ram) (sp : Bool → ℕ) (n : ℕ) (X : Bool → ℕ → ℕ) : Prop where
  shape : ∀ b, Shape I m (sp b) n (X b)
  disjoint : ∀ b, Disjoint (owned m (sp b) n) (owned m (sp !b) n)

/-- The arguments of a `copyout`. -/
structure CopyCall where
  dstva : ℕ
  src : ℕ → UInt8
  len : ℕ

/-- Calls of `copyout` on one of two page tables each. -/
def copyouts (sp : Bool → ℕ) : List (Bool × CopyCall) → VmM Unit
  | [] => pure ()
  | (b, x) :: l => do
    let _ ← copyout (sp b * PGSIZE) x.dstva x.src x.len
    copyouts sp l

/-- The pages of a user and their contents are the same. -/
def SameUser (m m' : Ram) (p n : ℕ) : Prop :=
  (∀ v, pte m' p v = pte m p v) ∧ Agree m m' (mapped m p 0 n)

/-- After any calls of `copyout` on the two spaces, calls on one of them leave the other one as
it is. -/
def Isolated (s : Phys) (sp : Bool → ℕ) (n : ℕ) : Prop :=
  ∀ l₀ l b, (∀ x ∈ l, x.1 = b) → ∃ s₁ s₂, copyouts sp l₀ s = .ok ((), s₁) ∧
    copyouts sp l s₁ = .ok ((), s₂) ∧ SameUser s₁.mem s₂.mem (sp !b) n

section Twin

variable {sp : Bool → ℕ} {Z : Bool → ℕ → ℕ}

theorem SameUser.trans {m'' : Ram} (h : SameUser m m' p n) (h' : SameUser m' m'' p n) :
    SameUser m m'' p n := by
  refine ⟨fun v => (h'.1 v).trans (h.1 v), h.2.trans ?_⟩
  have := h'.2
  rwa [mapped_congr fun w _ _ => h.1 w] at this

theorem Twin.copyout (h : Twin I s.mem sp n Z) (hZ : ∀ b v, Z b v &&& PTE_U = 0)
    (hn : n ≤ 2 ^ 26) (b : Bool) (x : CopyCall) :
    wp E (copyout (sp b * PGSIZE) x.dstva x.src x.len) (fun _ s' =>
      Twin I s'.mem sp n Z ∧ SameUser s.mem s'.mem (sp !b) n) s := by
  refine (copyout_frame (h.shape b) (hZ b) hn x.dstva x.src x.len).mono fun _ s' h' => ?_
  have hother : owned s.mem (sp !b) n ⊆ (mapped s.mem (sp b) 0 n)ᶜ := fun q hq hm =>
    Set.disjoint_left.mp (h.disjoint b) (.inl hm) hq
  have hkept : ∀ b', Shape I s'.mem (sp b') n (Z b') ∧
      owned s'.mem (sp b') n = owned s.mem (sp b') n ∧
      ∀ v, pte s'.mem (sp b') v = pte s.mem (sp b') v := by
    intro b'
    refine (h.shape b').same (h'.2.mono ?_)
    by_cases hb : b' = b
    · rw [hb]
      exact fun q hq hm => Set.disjoint_left.mp (h.shape b).user hm hq
    · rw [Bool.eq_not_of_ne hb]
      exact fun q hq => hother (.inr hq)
  refine ⟨⟨fun b' => (hkept b').1, fun b' => ?_⟩, (hkept !b).2.2, ?_⟩
  · rw [(hkept b').2.1, (hkept !b').2.1]
    exact h.disjoint b'
  · exact h'.2.mono fun q hq => hother (.inl hq)

theorem Twin.copyouts (h : Twin I s.mem sp n Z) (hZ : ∀ b v, Z b v &&& PTE_U = 0)
    (hn : n ≤ 2 ^ 26) (l : List (Bool × CopyCall)) :
    wp E (copyouts sp l) (fun _ s' => Twin I s'.mem sp n Z ∧
      ∀ b, (∀ x ∈ l, x.1 = b) → SameUser s.mem s'.mem (sp !b) n) s := by
  induction l generalizing s with
  | nil => exact ⟨h, fun b _ => ⟨fun _ => rfl, .refl⟩⟩
  | cons x l ih =>
    refine (h.copyout hZ hn x.1 x.2).bind fun _ s₁ h₁ => ?_
    refine (ih h₁.1).mono fun _ s₂ h₂ => ⟨h₂.1, fun b hb => ?_⟩
    have hx : x.1 = b := hb x (List.mem_cons_self ..)
    exact (hx ▸ h₁.2).trans (h₂.2 b fun y hy => hb y (List.mem_cons_of_mem x hy))

theorem Twin.isolated (h : Twin I s.mem sp n Z) (hZ : ∀ b v, Z b v &&& PTE_U = 0)
    (hn : n ≤ 2 ^ 26) : Isolated s sp n := by
  intro l₀ l b hb
  obtain ⟨_, s₁, hrun₁, h₁, -⟩ := (h.copyouts (E := fun _ => False) hZ hn l₀).returns
  obtain ⟨_, s₂, hrun₂, -, h₂⟩ := (h₁.copyouts (E := fun _ => False) hZ hn l).returns
  exact ⟨s₁, s₂, hrun₁, hrun₂, h₂ b hb⟩

end Twin

end Vm

/-! ## Slots -/

theorem kernelLeaves_user (v : ℕ) : kernelLeaves I t v &&& PTE_U = 0 := by
  simp only [kernelLeaves, update_apply]
  split
  · rw [mapEntry_eq (by decide), and_flags (by decide)]
    decide
  split
  · rw [mapEntry_eq (by decide), and_flags (by decide)]
    decide
  · exact Nat.zero_and _

namespace Kern

variable {N NF NO : ℕ} {E : KernPanic → Prop} {k : Kern N NF NO} {q : Fin N}

/-- The same open files. -/
structure Shows (k : Kern N NF NO) (x : Ftable N NF NO) : Prop where
  file : x.file = k.file
  ofile : ∀ q, x.ofile q = (k.proc q).ofile

/-- The call `m` by itself does to the open files what leads from `k` to `k'`. -/
def Runs (m : FileSys N NF NO Unit) (k k' : Kern N NF NO) : Prop :=
  ∀ x, Shows k x → wp (fun _ => False) (m.exec FileAct.run) (fun _ x' => Shows k' x') x

/-- A slot may change, but not its descriptors. -/
theorem Shows.update {k' : Kern N NF NO} {x : Ftable N NF NO} {d : Proc N NF NO} (h : Shows k x)
    (hf : k'.file = k.file) (hp : k'.proc = update k.proc q d)
    (hd : d.ofile = (k.proc q).ofile) : Shows k' x where
  file := h.file.trans hf.symm
  ofile j := by
    rw [hp]
    by_cases hj : j = q
    · rw [hj, update_self, hd]
      exact h.ofile q
    · rw [update_of_ne hj]
      exact h.ofile j

theorem freeproc_spec (h : (k.proc q).Shaped I K k.phys r t) :
    wp E (freeproc I q) (fun _ k' => Pool I k'.phys (K \ {t}) ∧
      Agree k.phys.mem k'.phys.mem (K \ {t}) ∧
      k' = { k with phys := k'.phys, proc := update k.proc q (k.proc q).clear }) k := by
  have hr : I.Managed r := h.space.rooted.table.managed .nil rfl
  rw [freeproc]
  refine wp_bind.mpr (wp_get.mpr ?_)
  dsimp only
  rw [h.trapframe, h.pagetable, if_pos h.managed.addr_ne_zero]
  refine wp_bind.mpr (wp_zoom.mpr ((h.space.kfree h.managed h.mem).mono fun _ s₁ h₁ => ?_))
  rw [if_pos hr.addr_ne_zero]
  refine wp_bind.mpr (wp_zoom.mpr ((proc_freepagetable_spec h₁.1
    (by have := h.managed.lt; omega) rfl).mono fun _ s₂ h₂ => ?_))
  exact ⟨h₂.1, (h₁.2.same.mono Set.subset_union_left).trans h₂.2, rfl⟩

/-- `freeproc` of a process that has at most a trapframe. -/
theorem freeproc_bare (hp : (k.proc q).pagetable = 0)
    (ht : (k.proc q).trapframe = 0 ∧ Pool I k.phys U ∨
      ∃ t, (k.proc q).trapframe = t * PGSIZE ∧ I.Managed t ∧ t ∉ U ∧ Pool I k.phys (insert t U)) :
    wp E (freeproc I q) (fun _ k' => Pool I k'.phys U ∧ Agree k.phys.mem k'.phys.mem U ∧
      k' = { k with phys := k'.phys, proc := update k.proc q (k.proc q).clear }) k := by
  rw [freeproc]
  refine wp_bind.mpr (wp_get.mpr ?_)
  dsimp only
  rcases ht with ⟨h0, hheap⟩ | ⟨t, ht, hm, htU, hheap⟩
  · rw [if_neg (not_not.mpr h0), if_neg (not_not.mpr hp)]
    exact ⟨hheap, .refl, rfl⟩
  · rw [ht, if_pos hm.addr_ne_zero]
    refine wp_bind.mpr (wp_zoom.mpr ((kfree_spec hheap hm (Set.mem_insert t U)).mono
      fun _ s₁ h₁ => ?_))
    rw [if_neg (not_not.mpr hp)]
    rw [Set.insert_sdiff_of_mem _ (Set.mem_singleton t), Set.sdiff_singleton_eq_self htU] at h₁
    exact ⟨h₁.1, h₁.2.mono fun x hx he => htU (Set.mem_singleton_iff.mp he ▸ hx), rfl⟩

/-- The files, the references to inodes and the free pages are as before. -/
structure Unspent (k k' : Kern N NF NO) : Prop where
  file : k'.file = k.file
  pipe : k'.pipe = k.pipe
  iref : k'.iref = k.iref
  pages : k'.phys.freePages = k.phys.freePages

/-- The slot that `allocproc` finds. -/
def unusedSlot (k : Kern N NF NO) : Option (Fin N) :=
  (List.finRange N).find? fun q => (k.proc q).state = .unused

/-- Nothing is left of a call that found no slot, or cleared the one it found, but that a number
is used. -/
structure Undone (U : Set ℕ) (k k' : Kern N NF NO) : Prop extends Unspent k k' where
  same : Agree k.phys.mem k'.phys.mem U
  table : k.unusedSlot = none ∧ k'.proc = k.proc ∧ k'.nextpid = k.nextpid ∨
    ∃ q, k.unusedSlot = some q ∧ k'.proc = update k.proc q (k.proc q).clear ∧
      k'.nextpid = k.nextpid + 1

/-- The slot `np` has an empty address space `c`, with the trapframe `t'`, and the next
number. -/
structure Allocated (I : KernelImage) (U : Set ℕ) (k k' : Kern N NF NO) (np : Fin N) (c t' : ℕ) :
    Prop where
  first : k.unusedSlot = some np
  same : Agree k.phys.mem k'.phys.mem U
  fresh : t' ∉ U
  shaped : (k'.proc np).Shaped I (insert t' U) k'.phys c t'
  size : (k'.proc np).sz = 0
  frame : ∃ tf pt, k' = { k with
    phys := k'.phys, nextpid := k.nextpid + 1, proc := update k.proc np { k.proc np with
      pid := k.nextpid, state := .used, trapframe := tf, pagetable := pt } }

theorem unused_of_slot (h : k.unusedSlot = some q) : (k.proc q).state = .unused := by
  simpa using List.find?_some h

section Undone

variable {k' : Kern N NF NO}

/-- A slot that `freeproc` cleared was not in use before the call. -/
theorem Undone.of_clear (hq : k.unusedSlot = some q) (hheap : Pool I k.phys U)
    (hheap' : Pool I k'.phys U) (hs : Agree k.phys.mem k'.phys.mem U)
    (hk : k' = { k with
      phys := k'.phys, nextpid := k.nextpid + 1, proc := update k.proc q (k.proc q).clear }) :
    Undone U k k' := by
  refine ⟨⟨by rw [hk], by rw [hk], by rw [hk], ?_⟩, hs,
    .inr ⟨q, hq, congrArg Kern.proc hk, congrArg Kern.nextpid hk⟩⟩
  rw [hheap.freePages_eq, hheap'.freePages_eq]

variable (h : Undone U k k')

include h

theorem Undone.used (hq : (k.proc q).state ≠ .unused) : k'.proc q = k.proc q := by
  obtain ⟨-, hp, -⟩ | ⟨np, hnp, hp, -⟩ := h.table
  · rw [hp]
  · have hne : q ≠ np := fun he => hq (he ▸ unused_of_slot hnp)
    rw [hp, update_of_ne hne]

theorem Undone.unused (hq : (k.proc q).state = .unused) : (k'.proc q).state = .unused := by
  obtain ⟨-, hp, -⟩ | ⟨np, -, hp, -⟩ := h.table
  · rw [hp, hq]
  · by_cases he : q = np
    · rw [hp, he, update_self]
      rfl
    · rw [hp, update_of_ne he, hq]

theorem Undone.files {x : Ftable N NF NO} (hx : Shows k x) : Shows k' x := by
  obtain ⟨-, hp, -⟩ | ⟨np, -, hp, -⟩ := h.table
  · exact ⟨hx.file.trans h.file.symm, fun q => (hx.ofile q).trans (by rw [hp])⟩
  · exact hx.update h.file hp rfl

end Undone

/-- The slot gets an empty address space, or is as before and the free list too. -/
theorem allocAt_spec (hheap : Pool I k.phys U) (hc : (k.proc q).Clear)
    (hq : k.unusedSlot = some q) :
    wp E (allocAt I q) (fun x k' => x = none ∧ Undone U k k' ∨
      ∃ c t', x = some q ∧ Allocated I U k k' q c t') k := by
  obtain ⟨htf, hpt, hsz⟩ := hc
  simp only [allocAt, allocpid, wp_bind, wp_get, wp_modify, wp_pure, wp_vm, wp_setProc]
  refine (kalloc_spec hheap).mono fun x s₁ hx => ?_
  simp only [update_self, update_idem]
  rcases hx with ⟨rfl, rfl, -⟩ | ⟨t, rfl, ht, htU, hheap₁, hs₁⟩
  · rw [if_pos rfl]
    refine (freeproc_bare (U := U) ?_ ?_).bind fun _ k₁ h₁ => ?_
    · simpa using hpt
    · exact .inl ⟨by simp, hheap⟩
    · obtain ⟨hheap₁, hs₁, hk₁⟩ := h₁
      simp only [update_idem, update_self] at hk₁
      exact .inl ⟨rfl, .of_clear hq hheap hheap₁ hs₁ hk₁⟩
  · rw [if_neg ht.addr_ne_zero]
    have hsU : Agree k.phys.mem s₁.mem U :=
      hs₁.mono fun x hx he => htU (Set.mem_singleton_iff.mp he ▸ hx)
    refine wp_bind.mpr (wp_vm.mpr ((proc_pagetable_spec (t := t) hheap₁
      (by have := ht.lt; omega)).mono fun x s₂ h₂ => ?_))
    simp only [wp_bind, wp_setProc, update_self, update_idem]
    obtain ⟨hs₂, ⟨rfl, hheap₂⟩ | ⟨r, rfl, hr, hspace⟩⟩ := h₂
    · rw [if_pos rfl]
      refine (freeproc_bare (U := U) ?_ ?_).bind fun _ k₁ h₁ => ?_
      · simp
      · exact .inr ⟨t, by simp, ht, htU, hheap₂⟩
      · obtain ⟨hheap₃, hs₃, hk₃⟩ := h₁
        simp only [update_idem, update_self] at hk₃
        exact .inl ⟨rfl, .of_clear hq hheap hheap₃
          ((hsU.trans (hs₂.mono (Set.subset_insert t U))).trans hs₃) hk₃⟩
    · rw [if_neg hr.addr_ne_zero]
      refine .inr ⟨r, t, rfl, hq, hsU.trans (hs₂.mono (Set.subset_insert t U)), htU, ?_, ?_,
        _, _, rfl⟩
      · simp only [update_self]
        refine ⟨rfl, rfl, ht, Set.mem_insert t U, ?_⟩
        show Space I (insert t U) s₂ r (pages (k.proc q).sz) _
        rwa [hsz]
      · simpa only [update_self] using hsz

theorem allocproc_spec (hheap : Pool I k.phys U)
    (hc : ∀ q, (k.proc q).state = .unused → (k.proc q).Clear) :
    wp E (allocproc I) (fun x k' => x = none ∧ Undone U k k' ∨
      ∃ np c t', x = some np ∧ Allocated I U k k' np c t') k := by
  rw [allocproc]
  refine wp_bind.mpr (wp_get.mpr ?_)
  cases hq : (List.finRange N).find? fun q => (k.proc q).state = .unused with
  | none => exact .inl ⟨rfl, ⟨rfl, rfl, rfl, rfl⟩, .refl, .inl ⟨hq, rfl, rfl⟩⟩
  | some q =>
    exact (allocAt_spec hheap (hc q (unused_of_slot hq)) hq).mono fun x k' h' =>
      h'.imp_right fun h => ⟨q, h⟩

section Allocated

variable {k₁ : Kern N NF NO} {np : Fin N} {t' : ℕ} (h : Allocated I U k k₁ np c t')

include h

theorem Allocated.slot : (k.proc np).state = .unused := unused_of_slot h.first

theorem Allocated.proc_of_ne (hne : q ≠ np) : k₁.proc q = k.proc q := by
  obtain ⟨tf, pt, hk⟩ := h.frame
  rw [hk]
  exact update_of_ne hne _ k.proc

theorem Allocated.file_eq : k₁.file = k.file := by
  obtain ⟨tf, pt, hk⟩ := h.frame
  rw [hk]

theorem Allocated.pid : (k₁.proc np).pid = k.nextpid := by
  obtain ⟨tf, pt, hk⟩ := h.frame
  rw [hk]
  simp only [update_self]

/-- `fork` gives back what `allocproc` took. -/
theorem Allocated.freeproc (hheap : Pool I k.phys U) (hs : Agree k₁.phys.mem s.mem (insert t' U))
    (hc : Space I (insert t' U) s c 0 (kernelLeaves I t')) :
    wp E (freeproc I np) (fun _ k' => Undone U k k') { k₁ with phys := s } := by
  obtain ⟨hpt, htf, hm, hmem, -⟩ := h.shaped
  have hd : (k₁.proc np).Shaped I (insert t' U) s c t' := by
    refine ⟨hpt, htf, hm, hmem, ?_⟩
    rw [h.size]
    exact hc
  refine (freeproc_spec (k := { k₁ with phys := s }) hd).mono fun _ k₂ h₂ => ?_
  rw [Set.insert_sdiff_of_mem _ (Set.mem_singleton t'), Set.sdiff_singleton_eq_self h.fresh] at h₂
  obtain ⟨hheap₂, hs₂, hk₂⟩ := h₂
  obtain ⟨tf, pt, hk₁⟩ := h.frame
  refine .of_clear h.first hheap hheap₂
    ((h.same.trans (hs.mono (Set.subset_insert t' U))).trans hs₂) ?_
  rw [hk₂, hk₁]
  simp only [update_idem, update_self]
  rfl

end Allocated

/-! ## `fork` -/

/-- The files get more references, and the child the descriptors. -/
theorem forkLoop_spec {p np : Fin N} (hne : p ≠ np)
    (hE : ∀ i f, (k.proc p).ofile i = some f → (k.file f).ref < 1 → E (.file .filedup))
    (l : List (Fin NO)) : wp E (forkLoop p np l) (fun _ k' => (∃ o, k' = { k with
      file := k'.file, proc := update k.proc np { k.proc np with ofile := o } }) ∧
      Runs (FileSys.forkLoop p np l) k k') k := by
  induction l generalizing k with
  | nil => exact ⟨⟨(k.proc np).ofile, by rw [update_eq_self]⟩, fun _ hx => hx⟩
  | cons i l ih =>
    rw [forkLoop]
    refine wp_bind.mpr (wp_get.mpr ?_)
    cases hf : (k.proc p).ofile i with
    | none =>
      refine (ih hE).mono fun _ k' h' => ⟨h'.1, fun x hx => ?_⟩
      simp only [FileSys.forkLoop, Ctl.wp_exec_bind, Ctl.wp_exec_call, FileAct.run, Ftable.getfd,
        wp_bind, wp_get, wp_pure, hx.ofile, hf]
      exact h'.2 x hx
    | some f =>
      refine wp_bind.mpr ?_
      rw [filedup]
      refine wp_bind.mpr (wp_get.mpr ?_)
      by_cases href : (k.file f).ref < 1
      · rw [if_pos href]
        exact hE i f hf href
      rw [if_neg href]
      refine wp_modify.mpr (wp_bind.mpr (wp_setProc.mpr ?_))
      refine (ih fun i' f' hf' href' => ?_).mono fun _ k' h' => ?_
      · simp only [update_of_ne hne] at hf'
        refine hE i' f' hf' ?_
        by_cases hff : f' = f
        · simp only [hff, update_self] at href'
          omega
        · simpa only [update_of_ne hff] using href'
      · obtain ⟨⟨o, ho⟩, hruns⟩ := h'
        refine ⟨⟨o, by simpa only [update_idem, update_self] using ho⟩, fun x hx => ?_⟩
        simp only [FileSys.forkLoop, Ctl.wp_exec_bind, Ctl.wp_exec_call, FileAct.run, Ftable.getfd,
          Ftable.filedup, Ftable.setfd, wp_bind, wp_get, wp_pure, wp_modify, hx.ofile, hx.file, hf,
          if_neg href]
        refine hruns _ ⟨by rw [← hx.file]; rfl, fun j => ?_⟩
        by_cases hj : j = np <;> simp [hj, Ftable.setFd, Ftable.setFile, hx.ofile]

/-- The child's registers are the parent's, but for `a0`. -/
theorem trapframe_copy {t t' i : ℕ} (hi : i < 36) :
    ((m.memmove (t' * PGSIZE) (t * PGSIZE) 288).store 8 (t' * PGSIZE + 112) 0).load 8
      (t' * PGSIZE + 8 * i) = if i = 14 then 0 else m.load 8 (t * PGSIZE + 8 * i) := by
  split
  · rename_i h14
    rw [h14, show 8 * 14 = 112 from rfl, Ram.load_store_self, Nat.zero_mod]
  · rw [Ram.load_store_of_disjoint (by omega)]
    refine Ram.load_shift fun j hj => ?_
    have hsrc : t * PGSIZE + (t' * PGSIZE + 8 * i + j - t' * PGSIZE) = t * PGSIZE + 8 * i + j := by
      omega
    rw [Ram.memmove, Ram.write_of_mem (by omega) (by omega), hsrc]

theorem trapframe_same {t t' : ℕ} : Agree m
    ((m.memmove (t' * PGSIZE) (t * PGSIZE) 288).store 8 (t' * PGSIZE + 112) 0) {t'}ᶜ := by
  have hmove : Agree m (m.write (t' * PGSIZE + 0) (fun i => m (t * PGSIZE + i)) 288) {t'}ᶜ :=
    .write (by decide)
  rw [Nat.add_zero] at hmove
  exact hmove.trans (.store (by decide : 14 < 512))

/-- What `forkChild` makes of the slot `np` and its trapframe. -/
structure Filled (k k' : Kern N NF NO) (p np : Fin N) : Prop where
  phys : k'.phys = { k.phys with mem := (k.phys.mem.memmove (k.proc np).trapframe
    (k.proc p).trapframe 288).store 8 ((k.proc np).trapframe + 112) 0 }
  slot : ∃ o, k'.proc = update k.proc np { k.proc np with
    sz := (k.proc p).sz, mask := (k.proc p).mask, ofile := o, cwd := (k.proc p).cwd,
    name := (k.proc p).name.take 15, parent := some p, state := .runnable }
  nextpid : k'.nextpid = k.nextpid
  files : Runs (FileSys.forkLoop p np (List.finRange NO)) k k'

theorem forkChild_spec {p np : Fin N} (hne : p ≠ np)
    (hE : ∀ i f, (k.proc p).ofile i = some f → (k.file f).ref < 1 → E (.file .filedup)) :
    wp E (forkChild p np) (fun x k' => x = (k.proc np).pid.toInt ∧ Filled k k' p np) k := by
  simp only [forkChild, wp_bind, wp_get, wp_setProc, wp_vm, update_self]
  refine wp_modify.mpr (wp_modify.mpr ?_)
  refine (forkLoop_spec hne (fun i f hf href => ?_) _).mono fun _ k' h' => ?_
  · simp only [update_of_ne hne] at hf
    exact hE i f hf href
  obtain ⟨⟨o, ho⟩, hruns⟩ := h'
  have hproc := congrArg Kern.proc ho
  have hphys := congrArg Kern.phys ho
  have hnextpid := congrArg Kern.nextpid ho
  simp only [update_self, update_idem] at hproc
  have hfiles : ∀ {k₂ : Kern N NF NO} {d : Proc N NF NO}, k₂.file = k'.file →
      k₂.proc = update k.proc np d → d.ofile = o →
      Runs (FileSys.forkLoop p np (List.finRange NO)) k k₂ := fun hf hp hd x hx =>
    (hruns x (hx.update rfl rfl rfl)).mono fun _ x' hx' =>
      hx'.update hf (by rw [hp, hproc, update_idem]) (by rw [hd, hproc, update_self])
  cases hcwd : (k.proc p).cwd with
  | none =>
    simp only [wp_pure, wp_bind, wp_setProc, wp_get, hproc, update_self, update_idem]
    refine ⟨trivial, hphys, ⟨o, by rw [hcwd]⟩, hnextpid, hfiles rfl rfl ?_⟩
    rfl
  | some ip =>
    simp only [idup, wp_pure, wp_bind, wp_setProc, wp_get, wp_modify, hproc, update_self,
      update_idem]
    refine ⟨trivial, hphys, ⟨o, by rw [hcwd]⟩, hnextpid, hfiles rfl rfl ?_⟩
    rfl

/-- The child `np` of `p` has the next number, a copy of the parent's memory and registers, and
pages of its own. -/
structure Forked (I : KernelImage) (k k' : Kern N NF NO) (p np : Fin N) (r t c t' : ℕ) : Prop where
  slot : (k.proc np).state = .unused
  runnable : (k'.proc np).state = .runnable
  pid : (k'.proc np).pid = k.nextpid
  size : (k'.proc np).sz = (k.proc p).sz
  parent : ∃ K, (k'.proc p).Shaped I K k'.phys r t
  child : ∃ K, (k'.proc np).Shaped I K k'.phys c t'
  taken : t' ∈ k.phys.freePages ∧ t' ∉ k'.phys.freePages
  copied : Copied k'.phys.mem r c (pages (k.proc p).sz)
  disjoint : Disjoint (mapped k'.phys.mem r 0 (pages (k.proc p).sz))
    (mapped k'.phys.mem c 0 (pages (k.proc p).sz))
  registers : ∀ i < 36, k'.phys.mem.load 8 (t' * PGSIZE + 8 * i) =
    if i = 14 then 0 else k.phys.mem.load 8 (t * PGSIZE + 8 * i)
  isolated : Isolated k'.phys (fun b => bif b then c else r) (pages (k.proc p).sz)

/-- The parent beside a child that got the pages outside `K`. -/
theorem Proc.Shaped.beside {d : Proc N NF NO} {n' t' : ℕ} (h : d.Shaped I K s r t)
    (hs : Agree s.mem s'.mem (K ∪ owned s.mem r (pages d.sz)))
    (ht' : t' ∉ K ∪ owned s.mem r (pages d.sz))
    (hc : Space I (insert t' (K ∪ owned s.mem r (pages d.sz))) s' c n' X) :
    d.Shaped I (insert t' K ∪ owned s'.mem c n') s' r t ∧
      Disjoint (owned s'.mem r (pages d.sz)) (owned s'.mem c n') := by
  obtain ⟨hshape, hown, -⟩ := h.space.shape.same (hs.mono fun q hq => .inr (.inr hq))
  have hdis := hc.disjoint
  rw [Set.disjoint_insert_left, Set.disjoint_union_left] at hdis
  have hle := h.space.le
  refine ⟨⟨h.pagetable, h.trapframe, h.managed, .inl (.inr h.mem), hshape.space (by omega) ?_ ?_⟩,
    ?_⟩
  · have hheap := hc.heap
    rw [hown, Set.insert_union]
    rwa [Set.insert_union, Set.union_right_comm, ← Set.insert_union] at hheap
  · rw [hown, Set.disjoint_union_left, Set.disjoint_insert_left]
    exact ⟨⟨fun hm => ht' (.inr hm), h.space.disjoint⟩, hdis.2.2.symm⟩
  · rw [hown]
    exact hdis.2.2

/-- Address spaces with disjoint pages are isolated. -/
theorem isolated_of_disjoint {t' : ℕ} (hr : Shape I s.mem r n (kernelLeaves I t))
    (hc : Shape I s.mem c n (kernelLeaves I t'))
    (hdis : Disjoint (owned s.mem r n) (owned s.mem c n)) (hn : n ≤ 2 ^ 26) :
    Isolated s (fun b => bif b then c else r) n := by
  refine Twin.isolated (I := I) (Z := fun b => bif b then kernelLeaves I t' else kernelLeaves I t)
    ⟨fun b => ?_, fun b => ?_⟩ (fun b v => ?_) hn
  · cases b
    · exact hr
    · exact hc
  · cases b
    · exact hdis
    · exact hdis.symm
  · cases b
    · exact kernelLeaves_user v
    · exact kernelLeaves_user v

section Fork

variable {k₁ k₂ : Kern N NF NO} {p np : Fin N} {t' : ℕ}

theorem Filled.other (hF : Filled { k₁ with phys := s } k₂ p np) (hne : q ≠ np) :
    k₂.proc q = k₁.proc q := by
  obtain ⟨o, hslot⟩ := hF.slot
  rw [hslot, update_of_ne hne]

/-- After `uvmcopy`, `forkChild` leaves a copy of the parent. -/
theorem Filled.forked (hF : Filled { k₁ with phys := s } k₂ p np) (hne : p ≠ np)
    (h : (k.proc p).Shaped I K k.phys r t) (hU : U = K ∪ owned k.phys.mem r (pages (k.proc p).sz))
    (hA : Allocated I U k k₁ np c t') (hs : Agree k₁.phys.mem s.mem (insert t' U))
    (hc : Space I (insert t' U) s c (pages (k.proc p).sz) (kernelLeaves I t'))
    (hcopied : Copied s.mem r c (pages (k.proc p).sz)) :
    Agree k.phys.mem k₂.phys.mem U ∧ Forked I k k₂ p np r t c t' := by
  subst hU
  have hle := h.space.le
  obtain ⟨o, hslot⟩ := hF.slot
  have hnp := (congrFun hslot np).trans (update_self ..)
  have hp : k₂.proc p = k.proc p := (hF.other hne).trans (hA.proc_of_ne hne)
  have hphys : k₂.phys = { s with mem :=
      (s.mem.memmove (t' * PGSIZE) (t * PGSIZE) 288).store 8 (t' * PGSIZE + 112) 0 } := by
    rw [hF.phys]
    simp only [hA.shaped.trapframe, hA.proc_of_ne hne, h.trapframe]
  have htf : Agree s.mem k₂.phys.mem {t'}ᶜ := by
    rw [hphys]
    exact trapframe_same
  have hs₁ := hA.same.trans (hs.mono (Set.subset_insert t' _))
  have hs₂ := hs₁.trans (htf.mono fun q hq he => hA.fresh (Set.mem_singleton_iff.mp he ▸ hq))
  have hfree : k₂.phys.freelist = s.freelist := by rw [hphys]
  have hc₂ := hc.frame (htf.mono fun q hq he => hq (.inl he)) hfree
  have hsize : (k₂.proc np).sz = (k.proc p).sz := by rw [hnp, hA.proc_of_ne hne]
  obtain ⟨hparent, hdis⟩ := h.beside hs₂ hA.fresh hc₂
  -- the trapframe of the child is in neither space
  obtain ⟨hsh, hown, -⟩ := h.space.shape.same (hs₁.mono fun q hq => .inr (.inr hq))
  have hr' := hsh.off (fun hm => hA.fresh (.inr (hown ▸ hm))) htf
  have hc' := hc.shape.off (Set.disjoint_left.mp hc.disjoint (Set.mem_insert t' _)) htf
  refine ⟨hs₂, hA.slot, by rw [hnp], by rw [hnp, ← hA.pid], hsize, ⟨_, hp ▸ hparent⟩,
    ⟨_, ?_, ?_, hA.shaped.managed, hA.shaped.mem, by rw [hsize]; exact hc₂⟩, ?_, ?_,
    hdis.mono Set.subset_union_left Set.subset_union_left, fun i hi => ?_,
    isolated_of_disjoint hparent.space.shape hc₂.shape hdis (by omega)⟩
  · rw [hnp, ← hA.shaped.pagetable]
  · rw [hnp, ← hA.shaped.trapframe]
  · rw [h.space.heap.freePages_eq, hc₂.heap.freePages_eq]
    exact ⟨⟨hA.shaped.managed, hA.fresh⟩, fun hfree => hfree.2 (.inl (.inl rfl))⟩
  · exact hcopied.same (by omega) (fun v _ => hr'.1 v) (fun v _ => hc'.1 v)
      (htf.mono (Set.union_subset hr'.2 hc'.2))
  · rw [hphys, trapframe_copy hi]
    split
    · rfl
    · exact hs₁.load (.inl h.mem) (by omega)

/-- The `fork` of the open files, by itself, gets from `k` to `k₁` as well. -/
def ForkFiles (k k₁ : Kern N NF NO) (p : Fin N) : Prop :=
  ∃ memory, ∀ x, Shows k x → (∀ q, x.state q = (k.proc q).state) →
    wp (fun _ => False) ((FileSys.fork p memory).exec FileAct.run) (fun _ x' => Shows k₁ x') x

theorem Undone.forkFiles (h : Undone U k k₁) : ForkFiles k k₁ p := by
  refine ⟨false, fun x hx _ => ?_⟩
  have h' := h.files hx
  simp only [FileSys.fork, Ctl.wp_exec_bind, Ctl.wp_exec_call, FileAct.run, Ftable.allocproc,
    wp_bind, wp_get]
  cases (List.finRange N).find? fun q => decide (x.state q = .unused) with
  | none => exact h'
  | some q => exact ⟨h'.file, h'.ofile⟩

theorem Filled.forkFiles (h : Filled { k₁ with phys := s } k₂ p np)
    (hA : Allocated I U k k₁ np c t') : ForkFiles k k₂ p := by
  refine ⟨true, fun x hx hstate => ?_⟩
  obtain ⟨tf, pt, hk⟩ := hA.frame
  have hx₁ : Shows k₁ x := hx.update hA.file_eq (congrArg Kern.proc hk) rfl
  have hfirst : (List.finRange N).find? (fun q => (k.proc q).state = .unused) = some np := hA.first
  simp only [FileSys.fork, Ctl.wp_exec_bind, Ctl.wp_exec_call, FileAct.run, Ftable.allocproc,
    wp_bind, wp_get, wp_modify, wp_pure, hstate, hfirst, if_true]
  exact (h.files (x.setState np .used) ⟨hx₁.file, hx₁.ofile⟩).mono fun _ x' h' =>
    ⟨h'.file, h'.ofile⟩

/-- The slot as the process table has it, unlocked, with what it has besides. -/
def Proc.entry (d : Proc N NF NO) (chan : Option (Fin N)) (uid : ℕ) : Xv6.Proc N :=
  ⟨false, d.state, chan, d.killed, d.xstate, d.pid, d.mask, d.parent, uid⟩

/-- The same process table, with no lock held. -/
structure Tabled (k : Kern N NF NO) (x : Procs N) : Prop where
  proc : ∀ q, ∃ chan uid, x.proc q = (k.proc q).entry chan uid
  nextpid : x.nextpid = k.nextpid
  waitLock : x.waitLock = none

/-- A run of `ProcTable` in which only `p` takes steps. -/
abbrev Alone [NeZero N] (p : Fin N) (x x' : Procs N) : Prop :=
  Machine.Reach Procs.step (fun _ l => l.proc = p) x x'

/-- The `fork` of `ProcTable`, by itself, gets from `k` to `k₁` as well, and returns `v`. -/
def ForkProcs (k k₁ : Kern N NF NO) (p : Fin N) (v : ℤ) : Prop :=
  ∀ [NeZero N] (x : Procs N), Tabled k x → x.Running p → x.pc p = .fork (.scan 0) →
    ∃ x' pid, Alone p x x' ∧ Tabled k₁ x' ∧ x'.pc p = .ret pid ∧ v = pid.toInt

theorem used_before (h : k.unusedSlot = some np) (hq : q < np) : (k.proc q).state ≠ .unused := by
  obtain ⟨-, i, hi, rfl, hbefore⟩ := List.find?_eq_some_iff_getElem.mp h
  simpa using hbefore q (by simpa [Fin.lt_def] using hq)

theorem Tabled.ne {x : Procs N} (h : Tabled k x) (hr : x.Running p)
    (hnp : k.unusedSlot = some np) : p ≠ np := by
  rintro rfl
  obtain ⟨chan, uid, hx⟩ := h.proc p
  rw [Procs.Running, hx, Proc.entry, unused_of_slot hnp] at hr
  cases hr

section Procs

variable [NeZero N] {x x' : Procs N}

theorem alone_fork (mem : Bool) {pt : ForkPt N} (hr : x.Running p) (hpc : x.pc p = .fork pt)
    (h : x.fork p mem pt = some x') : Alone p x x' :=
  .tail (a := .run p ⟨.fork, mem, true⟩) .refl rfl (by simp [Procs.step, hr, Procs.run, hpc, h])

/-- The loop of `allocproc` comes to `j` if all slots before it are in use. -/
theorem Tabled.scan (h : Tabled k x) (hr : x.Running p) (hpc : x.pc p = .fork (.scan 0)) {j : ℕ}
    (hj : j ≤ N) (hused : ∀ q : Fin N, q < j → (k.proc q).state ≠ .unused) :
    Alone p x (x.goto p (.fork (.scan j))) := by
  induction j with
  | zero =>
    rw [← hpc, Procs.goto, update_eq_self]
    exact .refl
  | succ j ih =>
    obtain ⟨chan, uid, hx⟩ := h.proc ⟨j, hj⟩
    refine (ih (by omega) fun q hq => hused q (by omega)).trans
      (alone_fork true hr (update_self ..) ?_)
    simp [Procs.fork, Procs.goto, hx, Proc.entry, hused ⟨j, hj⟩ (by simp), Nat.lt_of_succ_le hj]

/-- It stops at the slot that `allocproc` finds. -/
theorem Tabled.alloc (h : Tabled k x) (hr : x.Running p) (hpc : x.pc p = .fork (.scan 0))
    (hnp : k.unusedSlot = some np) :
    Alone p x ((x.goto p (.fork (.scan np))).allocAt p np) := by
  obtain ⟨chan, uid, hx⟩ := h.proc np
  refine (h.scan hr hpc np.isLt.le fun q hq => used_before hnp hq).trans
    (alone_fork true hr (update_self ..) ?_)
  simp [Procs.fork, hx, Proc.entry, unused_of_slot hnp]

/-- The rest of `fork`, when there is memory for the child. -/
theorem alone_child (hr : x.Running p) (hpc : x.pc p = .fork (.build np)) (hne : p ≠ np)
    (hw : x.waitLock = none) : ∃ x', Alone p x x' ∧
      x'.proc = update x.proc np { x.proc np with
        lock := false, mask := (x.proc p).mask, parent := some p, state := .runnable } ∧
      x'.nextpid = x.nextpid ∧ x'.waitLock = none ∧ x'.pc p = .ret (x.proc np).pid := by
  have hr' : ∀ {y : Procs N} {d}, y.proc = update x.proc np d → y.Running p := fun hy => by
    rw [Procs.Running, hy, update_of_ne hne]
    exact hr
  have hbuild := alone_fork true hr hpc rfl
  have hlink := hbuild.trans (alone_fork true (hr' rfl) (update_self ..) (by exact if_pos hw))
  have hparent := hlink.trans (alone_fork true (hr' rfl) (update_self ..) rfl)
  have hstart := hparent.trans (alone_fork true (hr' (by simp; rfl)) (update_self ..)
    (by exact if_neg (by simp)))
  refine ⟨_, hstart, ?_, rfl, rfl, update_self ..⟩
  simp

end Procs

theorem Undone.forkProcs (h : Undone U k k₁) : ForkProcs k k₁ p (-1) := by
  intro _ x hx hr hpc
  obtain ⟨hno, hp, hn⟩ | ⟨np, hnp, hp, hn⟩ := h.table
  · refine ⟨x.goto p (.ret (-1)), -1, (hx.scan hr hpc le_rfl fun q _ => ?_).trans
      (alone_fork true hr (update_self ..) ?_), ⟨?_, ?_, hx.waitLock⟩, update_self .., rfl⟩
    · simpa using List.find?_eq_none.mp hno q (List.mem_finRange q)
    · simp [Procs.fork, Procs.goto]
    · rw [hp]
      exact hx.proc
    · exact hx.nextpid.trans hn.symm
  · obtain ⟨chan, uid, hxnp⟩ := hx.proc np
    refine ⟨_, -1, (hx.alloc hr hpc hnp).trans (alone_fork false ?_ (update_self ..) rfl),
      ⟨fun q => ?_, ?_, hx.waitLock⟩, update_self .., rfl⟩
    · simp [Procs.Running, Procs.allocAt, update_of_ne (hx.ne hr hnp), hr]
    · rw [hp]
      by_cases hq : q = np
      · subst hq
        refine ⟨none, x.born, ?_⟩
        simp [Procs.allocAt, Proc.entry, Proc.clear, Xv6.Proc.free, Xv6.Proc.alloc, hxnp]
      · simpa [Procs.allocAt, update_of_ne hq] using hx.proc q
    · rw [hn, ← hx.nextpid]
      rfl

theorem Filled.forkProcs (h : Filled { k₁ with phys := s } k₂ p np)
    (hA : Allocated I U k k₁ np c t') : ForkProcs k k₂ p (k₁.proc np).pid.toInt := by
  rw [hA.pid]
  intro _ x hx hr hpc
  obtain ⟨o, hslot⟩ := h.slot
  obtain ⟨tf, pt, hk⟩ := hA.frame
  have hne := hx.ne hr hA.first
  have hr₁ : ((x.goto p (.fork (.scan np))).allocAt p np).Running p := by
    simp [Procs.Running, Procs.allocAt, update_of_ne hne, hr]
  obtain ⟨x', hrun, hproc, hn, hw, hret⟩ := alone_child hr₁ (update_self ..) hne hx.waitLock
  refine ⟨x', _, (hx.alloc hr hpc hA.first).trans hrun, ⟨fun q => ?_, ?_, hw⟩, hret, ?_⟩
  · rw [hproc, hslot, hk]
    by_cases hq : q = np
    · subst hq
      obtain ⟨chan, uid, hxq⟩ := hx.proc q
      obtain ⟨chan', uid', hxp⟩ := hx.proc p
      refine ⟨chan, x.born, ?_⟩
      simpa [Procs.allocAt, Procs.goto, Proc.entry, Xv6.Proc.alloc, hxq, hxp, update_of_ne hne]
        using hx.nextpid
    · simpa [Procs.allocAt, update_of_ne hq] using hx.proc q
  · rw [hn, h.nextpid, hk, ← hx.nextpid]
    rfl
  · simpa [Procs.allocAt, Procs.goto, Xv6.Proc.alloc] using congrArg BitVec.toInt hx.nextpid.symm

/-- `fork` leaves nothing, or a child with the next number. -/
theorem fork_spec (h : (k.proc p).Shaped I K k.phys r t) (hp : (k.proc p).state ≠ .unused)
    (hclear : ∀ q, (k.proc q).state = .unused → (k.proc q).Clear)
    (hE : ∀ i f, (k.proc p).ofile i = some f → (k.file f).ref < 1 → E (.file .filedup)) :
    wp E (fork I p) (fun x k' => ForkFiles k k' p ∧ ForkProcs k k' p x ∧
      (x = -1 ∧ Undone (K ∪ owned k.phys.mem r (pages (k.proc p).sz)) k k' ∨
      x = k.nextpid.toInt ∧ k'.proc p = k.proc p ∧
        Agree k.phys.mem k'.phys.mem (K ∪ owned k.phys.mem r (pages (k.proc p).sz)) ∧
        ∃ np c t', Forked I k k' p np r t c t')) k := by
  have hheap := h.space.heap
  have hle := h.space.le
  rw [fork]
  refine (allocproc_spec hheap hclear).bind fun x k₁ hx => ?_
  obtain ⟨rfl, hk⟩ | ⟨np, c, t', rfl, hA⟩ := hx
  · exact ⟨hk.forkFiles, hk.forkProcs, .inl ⟨rfl, hk⟩⟩
  have hne : p ≠ np := fun he => hp (he ▸ hA.slot)
  -- the parent's pages are pages in other use for the child
  obtain ⟨hshape, hown, -⟩ := h.space.shape.same (hA.same.mono fun q hq => .inr (.inr hq))
  have hspace := hA.shaped.space
  rw [hA.size, show pages 0 = 0 from rfl] at hspace
  refine wp_bind.mpr (wp_get.mpr (wp_bind.mpr (wp_vm.mpr ?_)))
  rw [hA.proc_of_ne hne, h.pagetable, hA.shaped.pagetable]
  refine (uvmcopy_spec hspace hshape ?_ (by omega)).mono fun x s₂ h₂ => ?_
  · rw [hown]
    exact Set.subset_union_right.trans (Set.subset_insert t' _)
  obtain ⟨hs₂, ⟨rfl, hc, hcopied⟩ | ⟨rfl, hc⟩⟩ := h₂
  · rw [if_neg (by decide)]
    refine (forkChild_spec hne fun i f hf href => ?_).mono fun x k₂ h₂ => ?_
    · rw [hA.proc_of_ne hne] at hf
      rw [hA.file_eq] at href
      exact hE i f hf href
    obtain ⟨rfl, hF⟩ := h₂
    obtain ⟨hs, hforked⟩ := hF.forked hne h rfl hA hs₂ hc hcopied
    exact ⟨hF.forkFiles hA, hF.forkProcs hA, .inr ⟨congrArg BitVec.toInt hA.pid,
      (hF.other hne).trans (hA.proc_of_ne hne), hs, np, c, t', hforked⟩⟩
  · rw [if_pos (by decide)]
    exact (hA.freeproc hheap hs₂ hc).bind fun _ k₂ h₂ =>
      ⟨h₂.forkFiles, h₂.forkProcs, .inl ⟨rfl, h₂⟩⟩

/-- A slot that was not in use is. -/
def Made (k k' : Kern N NF NO) : Prop :=
  ∃ q, (k.proc q).state = .unused ∧ (k'.proc q).state ≠ .unused

theorem Undone.not_made (h : Undone U k k₁) : ¬ Made k k₁ :=
  fun ⟨_, hq, hq'⟩ => hq' (h.unused hq)

theorem Forked.made (h : Forked I k k₁ p np r t c t') : Made k k₁ :=
  ⟨np, h.slot, by rw [h.runnable]; decide⟩

theorem Forked.freePages_ne (h : Forked I k k₁ p np r t c t') :
    k₁.phys.freePages ≠ k.phys.freePages := by
  intro he
  refine h.taken.2 ?_
  rw [he]
  exact h.taken.1

end Fork

end Kern

end Xv6
