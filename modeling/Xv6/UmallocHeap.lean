import Mathlib.Data.List.Perm.Basic
import Xv6.Machine
import Xv6.Umalloc

/-!
# The heap of a user program

`Heap.Ok` says that the free list and the live blocks lie apart from each other below `top`, with
their sizes in their headers. `malloc` and `free` keep it, by moves on the lists of free and live
blocks (`Move`) : memory is granted, a block is put back or taken.
-/

namespace Xv6.Umalloc

open Umalloc.Block FreeList Function

/-! ## Heaps -/

/-- A heap with the free list `nodes` and the live blocks `live`. -/
structure Heap.Ok (base top : ℕ) (h : Heap) (nodes live : List Block) : Prop where
  list : FreeList base h.mem nodes
  cur : h.freep ∈ nodes.map addr
  pos : 0 < base
  size : ∀ b ∈ live, size h.mem b.addr = b.size ∧ 0 < b.size
  off : live.Pairwise Off
  free : ∀ b ∈ live, ∀ c ∈ nodes, Off b c
  base : ∀ b ∈ live, base < b.addr
  below : ∀ b ∈ nodes ++ live, b.lim ≤ top
  top : top ≤ 2 ^ 64

/-- The free and the live blocks, and the state of the kernel. -/
structure Lists (σ : Type) where
  nodes : List Block
  live : List Block
  env : σ

/-- The moves that `malloc` and `free` are made of. -/
inductive Move {σ : Type} (sbrk : ℤ → σ → Option ℕ × σ) : Lists σ → Lists σ → Prop
  | grant {nodes live e nu a e'} : 0 < nu → nu * HEADER < 2 ^ 31 →
    sbrk ((nu * HEADER : ℕ) : ℤ) e = (some a, e') →
    Move sbrk ⟨nodes, live, e⟩ ⟨nodes, ⟨a, nu⟩ :: live, e'⟩
  | refuse {nodes live e n e'} : sbrk n e = (none, e') →
    Move sbrk ⟨nodes, live, e⟩ ⟨nodes, live, e'⟩
  | free {l a r b live e} : Sep (l ++ a :: b :: r) →
    Move sbrk ⟨l ++ a :: r, b :: live, e⟩ ⟨l ++ absorb a (absorb b r), live, e⟩
  | take {l a c r live e n} : 0 < n → n ≤ c.size →
    Move sbrk ⟨l ++ a :: c :: r, live, e⟩ ⟨l ++ a :: (shrink c n ++ r), given c n :: live, e⟩

namespace Block

variable {a b c d : Block} {l r : List Block}

/-- What has nothing in common with two blocks has nothing in common with what `absorb` makes of
them. -/
theorem off_absorb (hsep : Sep (b :: l)) (hoff : ∀ c ∈ b :: l, Off d c) :
    ∀ c ∈ absorb b l, Off d c := by
  obtain ⟨e, r, heq, haddr, ⟨rfl, rfl⟩ | ⟨f, rfl, hgap, hlim, -⟩⟩ := absorb_spec hsep
  · rwa [heq]
  · rw [heq]
    refine List.forall_mem_cons.mpr ⟨?_, fun c hc => hoff c (by simp [hc])⟩
    have hd : d.addr < d.lim := addr_lt_lim
    have hb : b.stop ≤ b.lim := stop_le_lim
    have hdb : Off d b := hoff b (by simp)
    have hdf : Off d f := hoff f (by simp)
    unfold Off at *
    omega

theorem lim_absorb {top : ℕ} (hsep : Sep (b :: l)) (hlim : ∀ c ∈ b :: l, c.lim ≤ top) :
    ∀ c ∈ absorb b l, c.lim ≤ top := by
  obtain ⟨e, r, heq, haddr, ⟨rfl, rfl⟩ | ⟨f, rfl, hgap, hle, -⟩⟩ := absorb_spec hsep
  · rwa [heq]
  · rw [heq]
    exact List.forall_mem_cons.mpr ⟨hle.trans (hlim f (by simp)), fun c hc => hlim c (by simp [hc])⟩

/-- A property of blocks that `absorb` keeps holds of all blocks after `free`. -/
theorem forall_mem_insert {P : Block → Prop}
    (hP : ∀ {b l}, Sep (b :: l) → (∀ c ∈ b :: l, P c) → ∀ c ∈ absorb b l, P c)
    (hsep : Sep (l ++ a :: b :: r)) (h : ∀ c ∈ l ++ a :: r, P c) (hb : P b) :
    ∀ c ∈ l ++ absorb a (absorb b r), P c := by
  obtain ⟨-, har, -⟩ := List.pairwise_append.mp hsep
  replace har : Sep (a :: b :: r) := har
  obtain ⟨hl, ha, hr⟩ : (∀ c ∈ l, P c) ∧ P a ∧ ∀ c ∈ r, P c := by
    simpa only [List.forall_mem_append, List.forall_mem_cons] using h
  have hbr := hP (List.pairwise_cons.mp har).2 (List.forall_mem_cons.mpr ⟨hb, hr⟩)
  exact List.forall_mem_append.mpr
    ⟨hl, hP har.absorb_right (List.forall_mem_cons.mpr ⟨ha, hbr⟩)⟩

/-- The headers of all blocks together. -/
def total (l : List Block) : ℕ := (l.map Block.size).sum

@[simp] theorem total_nil : total [] = 0 := rfl

@[simp] theorem total_cons : total (b :: l) = b.size + total l := List.sum_cons

@[simp] theorem total_append : total (l ++ r) = total l + total r := by
  rw [total, List.map_append, List.sum_append, total, total]

theorem total_absorb (h : b.size + total l < 2 ^ 32) : total (absorb b l) = b.size + total l := by
  cases l with
  | nil => simp [absorb]
  | cons c l =>
    rw [absorb]
    split
    · rw [total_cons] at h
      rw [total_cons, total_cons, Nat.mod_eq_of_lt (by omega), Nat.add_assoc]
    · rw [total_cons]

/-- No block is larger than all that `absorb` makes. -/
theorem exists_size_le_absorb (h : b.size + total l < 2 ^ 32) :
    ∀ c ∈ b :: l, ∃ d ∈ absorb b l, c.size ≤ d.size := by
  cases l with
  | nil => exact fun c hc => ⟨c, hc, Nat.le_refl _⟩
  | cons e l =>
    rw [absorb]
    split
    · rw [total_cons] at h
      have hmod : (b.size + e.size) % 2 ^ 32 = b.size + e.size := Nat.mod_eq_of_lt (by omega)
      rw [hmod]
      refine List.forall_mem_cons.mpr ⟨⟨_, List.mem_cons_self, by simp⟩,
        List.forall_mem_cons.mpr ⟨⟨_, List.mem_cons_self, by simp⟩, fun c hc => ?_⟩⟩
      exact ⟨c, List.mem_cons_of_mem _ hc, Nat.le_refl _⟩
    · exact fun c hc => ⟨c, hc, Nat.le_refl _⟩

theorem length_absorb_le : (absorb b l).length ≤ l.length + 1 := by
  cases l with
  | nil => exact Nat.le_refl _
  | cons c l =>
    rw [absorb]
    split
    · exact Nat.le_succ _
    · exact Nat.le_refl _

section Take

variable {n : ℕ}

theorem addr_le_given : c.addr ≤ (given c n).addr := Nat.le_add_right ..

theorem lim_given (hn : 0 < n) (hle : n ≤ c.size) : (given c n).lim = c.stop := by
  unfold given lim stop HEADER
  dsimp only
  omega

theorem of_mem_shrink (hle : n ≤ c.size) (hd : d ∈ shrink c n) :
    d.addr = c.addr ∧ d.stop = (given c n).addr ∧ d.lim = (given c n).addr := by
  unfold shrink at hd
  split at hd
  · exact absurd hd List.not_mem_nil
  · rw [List.mem_singleton.mp hd]
    unfold given stop lim HEADER
    dsimp only
    omega

/-- What has nothing in common with a block has nothing in common with its end. -/
theorem Off.given (hoff : Off b c) (hn : 0 < n) (hle : n ≤ c.size) : Off b (given c n) := by
  have h₁ : c.addr ≤ (FreeList.given c n).addr := addr_le_given
  have h₂ := lim_given hn hle
  have h₃ : c.stop ≤ c.lim := stop_le_lim
  unfold Off at *
  omega

theorem Off.shrink (hoff : Off b c) (hn : 0 < n) (hle : n ≤ c.size) :
    ∀ d ∈ shrink c n, Off b d := by
  intro d hd
  obtain ⟨h₁, -, h₂⟩ := of_mem_shrink hle hd
  have h₃ : (FreeList.given c n).addr < (FreeList.given c n).lim := addr_lt_lim
  have h₄ := lim_given hn hle
  have h₅ : c.stop ≤ c.lim := stop_le_lim
  unfold Off at *
  omega

end Take

end Block

namespace Heap.Ok

variable {base top fuel n : ℕ} {h h' : Heap} {nodes live l r : List Block} {a b c : Block}

theorem perm {live' : List Block} (hok : h.Ok base top nodes live) (hp : live.Perm live') :
    h.Ok base top nodes live' where
  list := hok.list
  cur := hok.cur
  pos := hok.pos
  size := fun b hb => hok.size b (hp.symm.subset hb)
  off := hok.off.perm hp Off.symm
  free := fun b hb => hok.free b (hp.symm.subset hb)
  base := fun b hb => hok.base b (hp.symm.subset hb)
  below := fun b hb => hok.below b ((hp.append_left nodes).symm.subset hb)
  top := hok.top

/-- The program writes to its own memory. -/
theorem write {m : Ram} (hok : h.Ok base top nodes live)
    (hsame : ∀ c ∈ nodes ++ live, SameHeader h.mem m c.addr) :
    (⟨m, h.freep⟩ : Heap).Ok base top nodes live where
  list := ⟨hok.list.linked.frame fun c hc => hsame c (List.mem_append_left live hc), hok.list.sep,
    hok.list.head, hok.list.lt⟩
  cur := hok.cur
  pos := hok.pos
  size := fun b hb =>
    ⟨(hsame b (List.mem_append_right nodes hb)).2.trans (hok.size b hb).1, (hok.size b hb).2⟩
  off := hok.off
  free := hok.free
  base := hok.base
  below := hok.below
  top := hok.top

theorem of_free (hok : h.Ok base top nodes (b :: live))
    (hfree : Umalloc.free fuel (b.addr + HEADER) h = some h') :
    ∃ l a r, nodes = l ++ a :: r ∧ Sep (l ++ a :: b :: r) ∧
      h'.Ok base top (l ++ absorb a (absorb b r)) live ∧ h'.freep = a.addr := by
  have hb : b ∈ b :: live := List.mem_cons_self
  have hoffb := hok.free b hb
  have hlt : b.addr < 2 ^ 64 := by
    have := hok.below b (List.mem_append_right nodes hb)
    have := hok.top
    have : b.addr < b.lim := addr_lt_lim
    omega
  obtain ⟨l, a, r, rfl, hbetween, hlist, hcur, hsame⟩ :=
    hok.list.free_spec hok.cur (hok.base b hb) hlt (hok.size b hb).1 hoffb hfree
  obtain ⟨hoffl, hofflive⟩ := List.pairwise_cons.mp hok.off
  have hsep := sep_insert hok.list.sep hoffb hbetween
  have hkeep : ∀ c ∈ live, c ∈ b :: live := fun c hc => List.mem_cons_of_mem b hc
  refine ⟨l, a, r, rfl, hsep, ⟨hlist, ?_, hok.pos, fun c hc => ?_, hofflive, fun c hc => ?_,
    fun c hc => hok.base c (hkeep c hc), ?_, hok.top⟩, hcur⟩
  · obtain ⟨d, r', hd, hda, -⟩ := absorb_spec (Sep.absorb_right (List.pairwise_append.mp hsep).2.1)
    rw [hcur, hd, ← hda]
    simp
  · have hc' := hok.size c (hkeep c hc)
    have hs := hsame c.addr (hoffl c hc).apart fun d hd =>
      (hok.free c (hkeep c hc) d hd).apart.symm
    exact ⟨hs.2.trans hc'.1, hc'.2⟩
  · exact forall_mem_insert off_absorb hsep (hok.free c (hkeep c hc)) (hoffl c hc).symm
  · obtain ⟨hnodes, hlive⟩ := List.forall_mem_append.mp hok.below
    obtain ⟨hblim, hlive⟩ := List.forall_mem_cons.mp hlive
    exact List.forall_mem_append.mpr ⟨forall_mem_insert lim_absorb hsep hnodes hblim, hlive⟩

theorem free_returns (hok : h.Ok base top nodes (b :: live)) (hfuel : 2 * nodes.length < fuel) :
    ∃ h', Umalloc.free fuel (b.addr + HEADER) h = some h' :=
  hok.list.free_returns hok.cur (hok.base b List.mem_cons_self) (hok.free b List.mem_cons_self)
    hfuel

/-- A block, or its end, is taken from the list. -/
theorem of_take (hok : h.Ok base top (l ++ a :: c :: r) live) (hn : 0 < n) (hle : n ≤ c.size) :
    (take n a.addr c.addr h).1 = (given c n).addr + HEADER ∧
      (take n a.addr c.addr h).2.Ok base top (l ++ a :: (shrink c n ++ r)) (given c n :: live) := by
  obtain ⟨hp, hlist, hcur, hsize, hsame⟩ := hok.list.take_spec hn hle
  have hc : c ∈ l ++ a :: c :: r := by simp
  have hoffc : ∀ b ∈ live, Off b c := fun b hb => hok.free b hb c hc
  obtain ⟨-, hac, hlac⟩ := List.pairwise_append.mp hok.list.sep
  obtain ⟨ha, hcr⟩ := List.pairwise_cons.mp hac
  have hgiven := lim_given hn hle
  have hstop : c.stop ≤ c.lim := stop_le_lim
  refine ⟨hp, hlist, ?_, hok.pos, ?_, ?_, ?_, ?_, ?_, hok.top⟩
  · rw [hcur]
    simp
  · refine List.forall_mem_cons.mpr ⟨⟨hsize, hn⟩, fun b hb => ?_⟩
    have hs := hsame b.addr (fun d hd => (hok.free b hb d hd).apart.symm)
      ((hoffc b hb).given hn hle).apart.symm
    exact ⟨hs.2.trans (hok.size b hb).1, (hok.size b hb).2⟩
  · exact List.pairwise_cons.mpr ⟨fun b hb => ((hoffc b hb).given hn hle).symm, hok.off⟩
  · refine List.forall_mem_cons.mpr ⟨fun d hd => ?_, fun b hb d hd => ?_⟩
    · have hcase : d ∈ shrink c n ∨ Off d c := by
        simp only [List.mem_append, List.mem_cons] at hd
        rcases hd with hd | rfl | hd | hd
        · exact .inr (.inl (hlac d hd c (by simp)))
        · exact .inr (.inl (ha c (by simp)))
        · exact .inl hd
        · exact .inr (.inr ((List.pairwise_cons.mp hcr).1 d hd))
      rcases hcase with hd | hd
      · exact .inr (of_mem_shrink hle hd).2.2.le
      · exact (hd.given hn hle).symm
    · simp only [List.mem_append, List.mem_cons] at hd
      rcases hd with hd | rfl | hd | hd
      · exact hok.free b hb d (by simp [hd])
      · exact hok.free b hb d (by simp)
      · exact (hoffc b hb).shrink hn hle d hd
      · exact hok.free b hb d (by simp [hd])
  · refine List.forall_mem_cons.mpr ⟨?_, hok.base⟩
    have h₁ := hok.list.base_le a (by simp)
    have h₂ := ha c List.mem_cons_self
    have h₃ : a.addr < a.lim := addr_lt_lim
    have h₄ : c.addr ≤ (given c n).addr := addr_le_given
    omega
  · have hclim := hok.below c (List.mem_append_left live hc)
    intro d hd
    simp only [List.mem_append, List.mem_cons] at hd
    rcases hd with (hd | rfl | hd | hd) | rfl | hd
    · exact hok.below d (by simp [hd])
    · exact hok.below d (by simp)
    · have h₁ := (of_mem_shrink hle hd).2.2
      have h₂ : (given c n).addr < (given c n).lim := addr_lt_lim
      omega
    · exact hok.below d (by simp [hd])
    · omega
    · exact hok.below d (by simp [hd])

/-- The kernel grants memory above the heap. -/
theorem of_grant {x nu top' : ℕ} (hok : h.Ok base top nodes live) (hnu : 0 < nu)
    (hlt : nu < 2 ^ 32) (hx : top ≤ x) (htop : x + HEADER * nu ≤ top') (htop' : top' ≤ 2 ^ 64) :
    (⟨setSize h.mem x nu, h.freep⟩ : Heap).Ok base top' nodes (⟨x, nu⟩ :: live) := by
  have hoff : ∀ c ∈ nodes ++ live, Off ⟨x, nu⟩ c := fun c hc => .inr ((hok.below c hc).trans hx)
  have hwrite := hok.write (m := setSize h.mem x nu) fun c hc => same_setSize (hoff c hc).apart
  have hlim : (⟨x, nu⟩ : Block).lim ≤ top' := by
    unfold lim
    dsimp only
    rwa [Nat.max_eq_right hnu]
  have htop'' : top ≤ top' := by omega
  refine ⟨hwrite.list, hok.cur, hok.pos, ?_, ?_, ?_, ?_, ?_, htop'⟩
  · refine List.forall_mem_cons.mpr ⟨⟨?_, hnu⟩, hwrite.size⟩
    exact size_setSize.trans (Nat.mod_eq_of_lt hlt)
  · exact List.pairwise_cons.mpr ⟨fun c hc => hoff c (List.mem_append_right nodes hc), hok.off⟩
  · exact List.forall_mem_cons.mpr
      ⟨fun c hc => hoff c (List.mem_append_left live hc), hok.free⟩
  · refine List.forall_mem_cons.mpr ⟨?_, hok.base⟩
    obtain ⟨fs, rfl⟩ := hok.list.eq_cons
    have h₁ := hok.below ⟨base, 0⟩ (by simp)
    have h₂ : (⟨base, 0⟩ : Block).addr < (⟨base, 0⟩ : Block).lim := addr_lt_lim
    dsimp only at h₂ ⊢
    omega
  · obtain ⟨hnodes, hlive⟩ := List.forall_mem_append.mp hok.below
    exact List.forall_mem_append.mpr ⟨fun c hc => (hnodes c hc).trans htop'',
      List.forall_mem_cons.mpr ⟨hlim, fun c hc => (hlive c hc).trans htop''⟩⟩

end Heap.Ok

/-! ## `malloc` -/

section Malloc

variable {σ : Type} {sbrk : ℤ → σ → Option ℕ × σ} {top : σ → ℕ} {base fuel n prevp p : ℕ}
  {h h' : Heap} {nodes live l r : List Block} {a b c : Block} {e e' : σ}

/-- Asked for more memory, `sbrk` refuses or grants memory above `top`. -/
structure Rises (sbrk : ℤ → σ → Option ℕ × σ) (top : σ → ℕ) : Prop where
  grant : ∀ {n : ℕ} {e a e'}, 0 < n → n * HEADER < 2 ^ 31 →
    sbrk ((n * HEADER : ℕ) : ℤ) e = (some a, e') →
      top e ≤ a ∧ a + HEADER * n ≤ top e' ∧ top e' ≤ 2 ^ 64
  refuse : ∀ {n : ℤ} {e e'}, sbrk n e = (none, e') → top e' = top e

abbrev Moves (sbrk : ℤ → σ → Option ℕ × σ) : Lists σ → Lists σ → Prop :=
  Relation.ReflTransGen (Move sbrk)

theorem int_of_lt (hn : n < 2 ^ 31) : int n = n := by
  exact Int.bmod_eq_of_le (by omega) (by omega)

/-- The number of headers that `morecore` asks for. -/
def core (nu : ℕ) : ℕ := if nu < 4096 then 4096 else nu

theorem core_bounds (hlt : n * HEADER < 2 ^ 31) :
    0 < core n ∧ n ≤ core n ∧ core n * HEADER < 2 ^ 31 := by
  unfold core HEADER at *
  split <;> omega

theorem morecore_refused (hlt : n * HEADER < 2 ^ 31)
    (hs : sbrk ((core n * HEADER : ℕ) : ℤ) e = (none, e')) :
    morecore sbrk fuel n h e = some (0, h, e') := by
  unfold morecore
  dsimp only
  rw [← core, int_of_lt (core_bounds hlt).2.2, hs]

theorem morecore_granted {x : ℕ} (hlt : n * HEADER < 2 ^ 31)
    (hs : sbrk ((core n * HEADER : ℕ) : ℤ) e = (some x, e')) :
    morecore sbrk fuel n h e =
      (free fuel (x + HEADER) ⟨setSize h.mem x (core n), h.freep⟩).map
        fun h => (h.freep, h, e') := by
  unfold morecore
  dsimp only
  rw [← core, int_of_lt (core_bounds hlt).2.2, hs]
  dsimp only
  cases free fuel (x + HEADER) ⟨setSize h.mem x (core n), h.freep⟩ <;> rfl

/-- What `morecore` does when the kernel grants memory. -/
theorem Heap.Ok.grown {x : ℕ} (hrises : Rises sbrk top) (hok : h.Ok base (top e) nodes live)
    (hlt : n * HEADER < 2 ^ 31) (hs : sbrk ((core n * HEADER : ℕ) : ℤ) e = (some x, e')) :
    (⟨setSize h.mem x (core n), h.freep⟩ : Heap).Ok base (top e') nodes
      (⟨x, core n⟩ :: live) ∧
    Move sbrk ⟨nodes, live, e⟩ ⟨nodes, ⟨x, core n⟩ :: live, e'⟩ := by
  obtain ⟨hpos, -, hbytes⟩ := core_bounds hlt
  obtain ⟨hx, hstop, htop⟩ := hrises.grant hpos hbytes hs
  exact ⟨hok.of_grant hpos (by unfold HEADER at hbytes; omega) hx hstop htop, .grant hpos hbytes hs⟩

theorem Heap.Ok.freep_ne_zero {t : ℕ} (hok : h.Ok base t nodes live) : h.freep ≠ 0 := by
  obtain ⟨d, hd, hdf⟩ := List.mem_map.mp hok.cur
  have := hok.list.base_le d hd
  have := hok.pos
  omega

/-- The result `q` of `malloc` : 0, or the memory of a new block. -/
def Served (sbrk : ℤ → σ → Option ℕ × σ) (top : σ → ℕ) (base n : ℕ) (s : Lists σ) (q : ℕ)
    (h' : Heap) (e' : σ) : Prop :=
  ∃ nodes, (q = 0 ∧ h'.Ok base (top e') nodes s.live ∧ Moves sbrk s ⟨nodes, s.live, e'⟩) ∨
    ∃ b : Block, q = b.addr + HEADER ∧ b.size = n ∧ h'.Ok base (top e') nodes (b :: s.live) ∧
      Moves sbrk s ⟨nodes, b :: s.live, e'⟩

theorem Served.head {s s' : Lists σ} {q : ℕ} (h : Served sbrk top base n s' q h' e')
    (hm : Moves sbrk s s') (hlive : s'.live = s.live) : Served sbrk top base n s q h' e' := by
  obtain ⟨nodes, ⟨hq, hok, hmoves⟩ | ⟨b, hq, hb, hok, hmoves⟩⟩ := h
  · rw [hlive] at hok hmoves
    exact ⟨nodes, .inl ⟨hq, hok, hm.trans hmoves⟩⟩
  · rw [hlive] at hok hmoves
    exact ⟨nodes, .inr ⟨b, hq, hb, hok, hm.trans hmoves⟩⟩

/-- Every result of the loop of `malloc` is right. -/
theorem Heap.Ok.of_search {q : ℕ} (hrises : Rises sbrk top) (hn : 0 < n)
    (hlt : n * HEADER < 2 ^ 31) (hok : h.Ok base (top e) nodes live)
    (hprev : prevp ∈ nodes.map addr)
    (hs : search sbrk n fuel prevp (ptr h.mem prevp) h e = some (q, h', e')) :
    Served sbrk top base n ⟨nodes, live, e⟩ q h' e' := by
  induction fuel generalizing prevp h nodes e with
  | zero => cases hs
  | succ fuel ih =>
    obtain ⟨a, ha, rfl⟩ := List.mem_map.mp hprev
    obtain ⟨l, r, rfl⟩ := List.append_of_mem ha
    have hp := hok.list.ptr_mem hprev
    rw [search] at hs
    by_cases hsize : n ≤ Umalloc.size h.mem (ptr h.mem a.addr)
    · -- `base` is too small, so there is a block after `a`
      have hr : ∃ c r', r = c :: r' := by
        cases r with
        | nil =>
          rw [hok.list.ptr_eq] at hsize
          obtain ⟨fs, hfs⟩ := hok.list.eq_cons
          have h0 := (linked_cons.mp (hfs ▸ hok.list.linked)).2.1
          dsimp only at h0
          simp only [List.head?_nil, Option.map_none, Option.getD_none, h0] at hsize
          omega
        | cons c r' => exact ⟨c, r', rfl⟩
      obtain ⟨c, r, rfl⟩ := hr
      rw [if_pos hsize] at hs
      have hpc : ptr h.mem a.addr = c.addr := hok.list.ptr_eq
      have hlist' : FreeList base h.mem ((l ++ [a]) ++ c :: r) := by simpa using hok.list
      rw [hpc, (linked_append_cons.mp hlist'.linked).2.1] at hsize
      obtain ⟨hq, htake⟩ := hok.of_take hn hsize
      cases hs
      rw [hpc]
      exact ⟨_, .inr ⟨given c n, hq, rfl, htake, .single (.take hn hsize)⟩⟩
    · rw [if_neg hsize] at hs
      by_cases hfreep : ptr h.mem a.addr = h.freep
      · rw [if_pos hfreep] at hs
        rcases hsb : sbrk ((core n * HEADER : ℕ) : ℤ) e with ⟨_ | x, e₁⟩
        · rw [morecore_refused hlt hsb] at hs
          cases hs
          exact ⟨_, .inl ⟨rfl, hrises.refuse hsb ▸ hok, .single (.refuse hsb)⟩⟩
        · obtain ⟨hgrown, hmove⟩ := hok.grown hrises hlt hsb
          rw [morecore_granted hlt hsb] at hs
          cases hfree : Umalloc.free fuel (x + HEADER) ⟨setSize h.mem x (core n), h.freep⟩ with
          | none =>
            rw [hfree] at hs
            cases hs
          | some h₁ =>
            obtain ⟨l₁, a₁, r₁, hnodes, hsep, hok₁, -⟩ := hgrown.of_free hfree
            rw [hfree] at hs
            rw [hnodes] at hmove ⊢
            simp only [Option.map_some, if_neg hok₁.freep_ne_zero] at hs
            exact (ih hok₁ hok₁.cur hs).head (.tail (.single hmove) (.free hsep)) rfl
      · rw [if_neg hfreep] at hs
        exact ih hok hp hs

/-- The loop of `malloc` ends at a block that is large enough. -/
theorem search_finds {k g : ℕ} (hk : (ptr h.mem)^[k] p = g) (hg : n ≤ size h.mem g)
    (havoid : ∀ j < k, (ptr h.mem)^[j] p ≠ h.freep) (hfuel : k < fuel) :
    ∃ x, search sbrk n fuel prevp p h e = some x := by
  induction k generalizing p prevp fuel with
  | zero =>
    obtain ⟨fuel, rfl⟩ : ∃ f, fuel = f + 1 := ⟨fuel - 1, by omega⟩
    have hpg : p = g := hk
    rw [search, hpg, if_pos hg]
    exact ⟨_, rfl⟩
  | succ k ih =>
    obtain ⟨fuel, rfl⟩ : ∃ f, fuel = f + 1 := ⟨fuel - 1, by omega⟩
    have hne : p ≠ h.freep := havoid 0 (Nat.succ_pos k)
    rw [search, if_neg hne]
    split
    · exact ⟨_, rfl⟩
    · exact ih hk (fun j hj => havoid (j + 1) (Nat.succ_lt_succ hj)) (by omega)

/-- The loop of `malloc` comes to `freep`, if it does not end before. -/
theorem search_comes_back {k F : ℕ} (hk : (ptr h.mem)^[k] p = h.freep)
    (hmore : ∀ fuel, F ≤ fuel → ∃ x, (match morecore sbrk fuel n h e with
      | none => none
      | some (p, h, e) => if p = 0 then some (0, h, e)
        else search sbrk n fuel p (ptr h.mem p) h e) = some x)
    (hfuel : F + k < fuel) : ∃ x, search sbrk n fuel prevp p h e = some x := by
  induction k generalizing p prevp fuel with
  | zero =>
    obtain ⟨fuel, rfl⟩ : ∃ f, fuel = f + 1 := ⟨fuel - 1, by omega⟩
    have hpf : p = h.freep := hk
    rw [search, if_pos hpf]
    split
    · exact ⟨_, rfl⟩
    · exact hmore fuel (by omega)
  | succ k ih =>
    obtain ⟨fuel, rfl⟩ : ∃ f, fuel = f + 1 := ⟨fuel - 1, by omega⟩
    rw [search]
    split
    · exact ⟨_, rfl⟩
    · split
      · exact hmore fuel (by omega)
      · exact ih hk (by omega)

/-- The loop of `malloc` ends, if what the kernel grants does not make the sizes too large. -/
theorem Heap.Ok.search_returns (hrises : Rises sbrk top) (hlt : n * HEADER < 2 ^ 31)
    (hok : h.Ok base (top e) nodes live)
    (hroom : ∀ x e', sbrk ((core n * HEADER : ℕ) : ℤ) e = (some x, e') →
      core n + total nodes < 2 ^ 32) :
    ∃ fuel x, search sbrk n fuel h.freep (ptr h.mem h.freep) h e = some x := by
  have hp := hok.list.ptr_mem hok.cur
  obtain ⟨k, -, hk⟩ := hok.list.linked.1.reaches hp hok.cur
  refine ⟨(2 * nodes.length + 3) + k + 1, search_comes_back hk (fun fuel hfuel => ?_)
    (Nat.lt_succ_self _)⟩
  rcases hsb : sbrk ((core n * HEADER : ℕ) : ℤ) e with ⟨_ | x, e₁⟩
  · rw [morecore_refused hlt hsb]
    exact ⟨_, rfl⟩
  · obtain ⟨hgrown, -⟩ := hok.grown hrises hlt hsb
    obtain ⟨h₁, hfree⟩ := @Heap.Ok.free_returns _ _ fuel _ _ _ _ hgrown (by omega)
    rw [morecore_granted hlt hsb, hfree]
    dsimp only [Option.map_some]
    split
    · exact ⟨_, rfl⟩
    · obtain ⟨l, a, r, rfl, -, hok₁, -⟩ := hgrown.of_free hfree
      have hbound := hroom x e₁ hsb
      rw [total_append, total_cons] at hbound
      -- the new block, or what it became part of, is large enough
      have hbr : (⟨x, core n⟩ : Block).size + total r < 2 ^ 32 := by
        dsimp only
        omega
      obtain ⟨c, hc, hnc⟩ := exists_size_le_absorb hbr _ List.mem_cons_self
      have habr : a.size + total (absorb ⟨x, core n⟩ r) < 2 ^ 32 := by
        rw [total_absorb hbr]
        dsimp only
        omega
      obtain ⟨g, hg, hcg⟩ := exists_size_le_absorb habr c (List.mem_cons_of_mem a hc)
      have hgmem := List.mem_append_right l hg
      have hsize : n ≤ Umalloc.size h₁.mem g.addr := by
        rw [hok₁.list.linked.2 g hgmem]
        exact ((core_bounds hlt).2.1.trans hnc).trans hcg
      obtain ⟨k', hk', hreach⟩ := hok₁.list.linked.1.reaches (hok₁.list.ptr_mem hok₁.cur)
        (List.mem_map_of_mem hgmem)
      obtain ⟨j, hj, hjg, havoid⟩ := exists_iterate_avoid hreach
      refine search_finds hjg hsize havoid ?_
      have h₁ : (absorb a (absorb ⟨x, core n⟩ r)).length ≤ _ := length_absorb_le
      have h₂ : (absorb ⟨x, core n⟩ r).length ≤ _ := length_absorb_le
      simp only [List.length_map, List.length_append, List.length_cons] at hk' hfuel
      omega

/-- The heap with which the loop of `malloc` begins. -/
def ready (base : ℕ) (h : Heap) : Heap :=
  if h.freep = 0 then ⟨setSize (setPtr h.mem base base) base 0, base⟩ else h

theorem malloc_eq {nbytes : ℕ} : malloc sbrk base fuel nbytes h e =
    search sbrk (units nbytes) fuel (ready base h).freep
      (ptr (ready base h).mem (ready base h).freep) (ready base h) e := rfl

theorem Heap.Ok.ready_eq {t : ℕ} (hok : h.Ok base t nodes live) : ready base h = h :=
  if_neg hok.freep_ne_zero

/-- The first call of `malloc` makes a list of `base` alone. -/
theorem ok_ready {t : ℕ} (hpos : 0 < base) (hbase : base + HEADER ≤ t) (ht : t ≤ 2 ^ 64)
    (hnull : h.freep = 0) : (ready base h).Ok base t [⟨base, 0⟩] [] := by
  have hlt : base < 2 ^ 64 := by
    unfold HEADER at hbase
    omega
  have hptr : ptr (setSize (setPtr h.mem base base) base 0) base = base := by
    rw [ptr_setSize, ptr_setPtr hlt]
  rw [ready, if_pos hnull]
  refine ⟨⟨⟨⟨rfl, hptr⟩, ?_⟩, List.pairwise_singleton .., rfl, ?_⟩, ?_, hpos, ?_, .nil, ?_, ?_, ?_,
    ht⟩
  · exact List.forall_mem_singleton.mpr size_setSize
  · exact List.forall_mem_singleton.mpr hlt
  · exact List.mem_singleton.mpr rfl
  · exact fun _ h => absurd h List.not_mem_nil
  · exact fun _ h => absurd h List.not_mem_nil
  · exact fun _ h => absurd h List.not_mem_nil
  · exact List.forall_mem_singleton.mpr hbase

end Malloc

end Xv6.Umalloc
