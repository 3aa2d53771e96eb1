import Xv6.Circular
import Xv6.Memory

/-!
# The allocator of user programs

`malloc`, `free` and `morecore` of `umalloc.c`, over the bytes of the memory. A `Header` is 16
bytes long, a pointer and a `uint` in its first 12 bytes, and `p + k` is `k` headers further on.
`sbrk` is any function of the state of the kernel. The loops take the number of their rounds;
`none` says that there were too few.

The free list is a circular list of blocks, the first of which is `base`, with size 0. `absorb`
is the one step of which `free` takes two : a block takes its neighbour in if there is no gap
between them, and points to it if there is one. `free_spec` and `take_spec` say what `free` and
the last step of `malloc` do to the list, whatever sizes it has.
-/

namespace Xv6.Umalloc

/-! ## The model -/

/-- `sizeof(Header)` -/
def HEADER : ℕ := 16

/-- `p->s.ptr` -/
def ptr (m : Ram) (p : ℕ) : ℕ := m.load 8 p

/-- `p->s.size` -/
def size (m : Ram) (p : ℕ) : ℕ := m.load 4 (p + 8)

/-- `p->s.ptr = v` -/
def setPtr (m : Ram) (p v : ℕ) : Ram := m.store 8 p v

/-- `p->s.size = v` -/
def setSize (m : Ram) (p v : ℕ) : Ram := m.store 4 (p + 8) v

/-- The memory, and `freep`. -/
structure Heap where
  mem : Ram
  freep : ℕ

/-- The loop of `free`, with `p` in it. -/
def place (m : Ram) (bp : ℕ) : (fuel p : ℕ) → Option ℕ
  | 0, _ => none
  | fuel + 1, p =>
    if p < bp ∧ bp < ptr m p then some p
    else if ptr m p ≤ p ∧ (p < bp ∨ bp < ptr m p) then some p
    else place m bp fuel (ptr m p)

/-- `free(ap)` -/
def free (fuel ap : ℕ) (h : Heap) : Option Heap := do
  let bp := ap - HEADER
  let p ← place h.mem bp fuel h.freep
  let m := h.mem
  let m :=
    if bp + HEADER * size m bp = ptr m p then
      let m := setSize m bp (size m bp + size m (ptr m p))
      setPtr m bp (ptr m (ptr m p))
    else setPtr m bp (ptr m p)
  let m :=
    if p + HEADER * size m p = bp then
      let m := setSize m p (size m p + size m bp)
      setPtr m p (ptr m bp)
    else setPtr m p bp
  return ⟨m, p⟩

/-- A number as an `int`. -/
def int (n : ℕ) : ℤ := Int.bmod n (2 ^ 32)

section Malloc

variable {σ : Type} (sbrk : ℤ → σ → Option ℕ × σ)

/-- `morecore(nu)`, which returns 0 or `freep`. -/
def morecore (fuel nu : ℕ) (h : Heap) (e : σ) : Option (ℕ × Heap × σ) :=
  let nu := if nu < 4096 then 4096 else nu
  match sbrk (int (nu * HEADER)) e with
  | (none, e) => some (0, h, e)
  | (some p, e) => do
    let h ← free fuel (p + HEADER) { h with mem := setSize h.mem p nu }
    return (h.freep, h, e)

/-- The block at `p`, or its end, is given away. -/
def take (nunits prevp p : ℕ) (h : Heap) : ℕ × Heap :=
  if size h.mem p = nunits then (p + HEADER, ⟨setPtr h.mem prevp (ptr h.mem p), prevp⟩)
  else
    let m := setSize h.mem p (size h.mem p - nunits)
    let p := p + HEADER * size m p
    (p + HEADER, ⟨setSize m p nunits, prevp⟩)

/-- The loop of `malloc`. -/
def search (nunits : ℕ) : (fuel prevp p : ℕ) → Heap → σ → Option (ℕ × Heap × σ)
  | 0, _, _, _, _ => none
  | fuel + 1, prevp, p, h, e =>
    if nunits ≤ size h.mem p then
      let r := take nunits prevp p h
      some (r.1, r.2, e)
    else if p = h.freep then
      match morecore sbrk fuel nunits h e with
      | none => none
      | some (p, h, e) => if p = 0 then some (0, h, e) else search nunits fuel p (ptr h.mem p) h e
    else search nunits fuel p (ptr h.mem p) h e

/-- `nunits`, of a `uint`. -/
def units (nbytes : ℕ) : ℕ := ((nbytes + HEADER - 1) / HEADER + 1) % 2 ^ 32

/-- `malloc(nbytes)`, with the address of `base`. -/
def malloc (base fuel nbytes : ℕ) (h : Heap) (e : σ) : Option (ℕ × Heap × σ) :=
  let h := if h.freep = 0 then ⟨setSize (setPtr h.mem base base) base 0, base⟩ else h
  search sbrk (units nbytes) fuel h.freep (ptr h.mem h.freep) h e

end Malloc

/-! ## Headers -/

section Header

variable {m : Ram} {p q v : ℕ}

/-- Two headers have no byte in common. -/
def Apart (p q : ℕ) : Prop := p + HEADER ≤ q ∨ q + HEADER ≤ p

theorem Apart.symm (h : Apart p q) : Apart q p := Or.symm h

/-- The headers at `p` are the same. -/
def SameHeader (m m' : Ram) (p : ℕ) : Prop := ptr m' p = ptr m p ∧ size m' p = size m p

theorem SameHeader.trans {m' m'' : Ram} (h : SameHeader m m' p) (h' : SameHeader m' m'' p) :
    SameHeader m m'' p :=
  ⟨h'.1.trans h.1, h'.2.trans h.2⟩

theorem same_of_bytes {m' : Ram} (h : ∀ x, p ≤ x → x < p + HEADER → m' x = m x) :
    SameHeader m m' p :=
  ⟨Ram.load_congr fun x hx hlt => h x hx (by unfold HEADER; omega),
    Ram.load_congr fun x hx hlt => h x (by omega) (by unfold HEADER; omega)⟩

@[simp] theorem ptr_setPtr (hv : v < 2 ^ 64) : ptr (setPtr m p v) p = v := by
  rw [ptr, setPtr, Ram.load_store_self]
  exact Nat.mod_eq_of_lt hv

@[simp] theorem size_setPtr : size (setPtr m p v) p = size m p :=
  Ram.load_store_of_disjoint (.inr (Nat.le_refl _))

@[simp] theorem size_setSize : size (setSize m p v) p = v % 2 ^ 32 := Ram.load_store_self

@[simp] theorem ptr_setSize : ptr (setSize m p v) p = ptr m p :=
  Ram.load_store_of_disjoint (.inl (Nat.le_refl _))

theorem same_setPtr (h : Apart p q) : SameHeader m (setPtr m p v) q := by
  refine same_of_bytes fun x hx hlt => ?_
  unfold Apart HEADER at *
  unfold setPtr Ram.store
  exact Ram.write_of_disjoint (by omega)

theorem same_setSize (h : Apart p q) : SameHeader m (setSize m p v) q := by
  refine same_of_bytes fun x hx hlt => ?_
  unfold Apart HEADER at *
  unfold setSize Ram.store
  exact Ram.write_of_disjoint (by omega)

theorem ptr_lt : ptr m p < 2 ^ 64 := Ram.load_lt ..

theorem size_lt : size m p < 2 ^ 32 := Ram.load_lt ..

end Header

-- from here on the fields of a header are known by the lemmas above only
attribute [irreducible] ptr size setPtr setSize

/-! ## Blocks -/

/-- A block of `size` headers, its own included. -/
structure Block where
  addr : ℕ
  size : ℕ
  deriving DecidableEq

namespace Block

variable {b c : Block} {l r : List Block}

/-- Where the block ends. -/
def stop (b : Block) : ℕ := b.addr + HEADER * b.size

/-- Where the block or its header ends. -/
def lim (b : Block) : ℕ := b.addr + HEADER * max 1 b.size

theorem header_le_lim : b.addr + HEADER ≤ b.lim := by
  unfold lim HEADER
  omega

theorem addr_lt_lim : b.addr < b.lim := by
  unfold lim HEADER
  omega

theorem stop_le_lim : b.stop ≤ b.lim := by
  unfold stop lim HEADER
  omega

/-- Blocks in the order of their addresses. -/
def Sep (l : List Block) : Prop := l.Pairwise fun a b => a.lim ≤ b.addr

theorem Sep.apart (h : Sep (b :: l)) : ∀ c ∈ l, Apart b.addr c.addr := fun c hc =>
  .inl (header_le_lim.trans ((List.pairwise_cons.mp h).1 c hc))

/-- A block takes in the next one if there is no gap between them. -/
def absorb (b : Block) : List Block → List Block
  | [] => [b]
  | c :: r => if b.stop = c.addr then ⟨b.addr, (b.size + c.size) % 2 ^ 32⟩ :: r else b :: c :: r

/-- The list from `a` on, in memory. -/
def Linked (m : Ram) (a : ℕ) (l : List Block) (z : ℕ) : Prop :=
  Seg (ptr m) a (l.map addr) z ∧ ∀ b ∈ l, Umalloc.size m b.addr = b.size

theorem Linked.frame {m m' : Ram} {a z : ℕ} (h : Linked m a l z)
    (hsame : ∀ b ∈ l, SameHeader m m' b.addr) : Linked m' a l z := by
  refine ⟨h.1.frame fun x hx => ?_, fun b hb => (hsame b hb).2.trans (h.2 b hb)⟩
  obtain ⟨b, hb, rfl⟩ := List.mem_map.mp hx
  exact (hsame b hb).1

theorem linked_append_cons {m : Ram} {a z : ℕ} : Linked m a (l ++ b :: r) z ↔
    Linked m a l b.addr ∧ Umalloc.size m b.addr = b.size ∧ Linked m (ptr m b.addr) r z := by
  simp only [Linked, List.map_append, List.map_cons, seg_append_cons, List.forall_mem_append,
    List.forall_mem_cons]
  exact ⟨fun ⟨⟨hl, hr⟩, hsl, hb, hsr⟩ => ⟨⟨hl, hsl⟩, hb, hr, hsr⟩,
    fun ⟨⟨hl, hsl⟩, hb, hr, hsr⟩ => ⟨⟨hl, hr⟩, hsl, hb, hsr⟩⟩

theorem linked_cons {m : Ram} {a z : ℕ} : Linked m a (b :: l) z ↔
    a = b.addr ∧ Umalloc.size m b.addr = b.size ∧ Linked m (ptr m b.addr) l z := by
  simp only [Linked, List.map_cons, Seg, List.forall_mem_cons]
  constructor
  · rintro ⟨⟨ha, hl⟩, hb, hsl⟩
    exact ⟨ha, hb, hl, hsl⟩
  · rintro ⟨ha, hb, hl, hsl⟩
    exact ⟨⟨ha, hl⟩, hb, hsl⟩

end Block

open Umalloc.Block

/-- One of the two steps of `free` : `x` takes in the block at `q`, or points to it. -/
def join (m : Ram) (x q : ℕ) : Ram :=
  if x + HEADER * size m x = q then
    setPtr (setSize m x (size m x + size m q)) x (ptr (setSize m x (size m x + size m q)) q)
  else setPtr m x q

section Join

variable {m : Ram} {x b : Block} {q z : ℕ} {l : List Block}

theorem same_join {p : ℕ} (h : Apart x.addr p) : SameHeader m (join m x.addr q) p := by
  unfold join
  split
  · exact (same_setSize h).trans (same_setPtr h)
  · exact same_setPtr h

/-- In memory, `join` is `absorb`. -/
theorem linked_join (hx : size m x.addr = x.size) (hl : Linked m q l z) (hsep : Sep (x :: l))
    (hq : q < 2 ^ 64) (hz : l = [] → z < x.addr) :
    Linked (join m x.addr q) x.addr (absorb x l) z := by
  have hsame : ∀ c ∈ l, SameHeader m (join m x.addr q) c.addr := fun c hc =>
    same_join (hsep.apart c hc)
  cases l with
  | nil =>
    have hqz : q = z := hl.1
    have hne : x.addr + HEADER * size m x.addr ≠ q := by
      have := hz rfl
      omega
    rw [join, if_neg hne, absorb]
    refine linked_cons.mpr ⟨rfl, size_setPtr.trans hx, ?_, fun _ h => absurd h List.not_mem_nil⟩
    exact (ptr_setPtr hq).trans hqz
  | cons c r =>
    obtain ⟨rfl, hc, hr⟩ := linked_cons.mp hl
    have hrest := hr.frame fun d hd => hsame d (List.mem_cons_of_mem c hd)
    have hcsame := hsame c List.mem_cons_self
    rw [join, hx] at hrest hcsame ⊢
    rw [absorb]
    by_cases hgap : x.stop = c.addr
    · rw [if_pos (show x.addr + HEADER * x.size = c.addr from hgap)] at hrest ⊢
      rw [if_pos hgap]
      have hptr : ptr (setSize m x.addr (x.size + size m c.addr)) c.addr = ptr m c.addr :=
        (same_setSize (hsep.apart c List.mem_cons_self)).1
      refine linked_cons.mpr ⟨rfl, ?_, ?_⟩
      · dsimp only
        rw [size_setPtr, size_setSize, hc]
      · rw [hptr] at hrest ⊢
        dsimp only
        rw [ptr_setPtr ptr_lt]
        exact hrest
    · rw [if_neg (show x.addr + HEADER * x.size ≠ c.addr from hgap)] at hrest hcsame ⊢
      rw [if_neg hgap]
      refine linked_cons.mpr ⟨rfl, size_setPtr.trans hx, ?_⟩
      rw [ptr_setPtr hq]
      refine linked_cons.mpr ⟨rfl, hcsame.2.trans hc, ?_⟩
      rw [hcsame.1]
      exact hrest

theorem free_none {bp fuel : ℕ} {h : Heap} (hq : place h.mem bp fuel h.freep = none) :
    free fuel (bp + HEADER) h = none := by
  rw [free, Nat.add_sub_cancel, hq]
  rfl

/-- `free` takes two steps. -/
theorem free_some {bp fuel q : ℕ} {h : Heap} (hq : place h.mem bp fuel h.freep = some q)
    (hap : Apart bp q) : free fuel (bp + HEADER) h =
      some ⟨join (join h.mem bp (ptr h.mem q)) q bp, q⟩ := by
  have hfirst : ∀ v, ptr (setSize h.mem bp v) q = ptr h.mem q := fun v => (same_setSize hap).1
  simp only [free, Nat.add_sub_cancel, hq, Option.bind_eq_bind, Option.bind_some, hfirst]
  rfl

end Join

attribute [irreducible] join

/-! ## The free list -/

namespace Block

variable {b c : Block} {l r : List Block}

/-- Two blocks have no byte in common, and no byte with the header of the other. -/
def Off (b c : Block) : Prop := b.lim ≤ c.addr ∨ c.lim ≤ b.addr

theorem Off.symm (h : Off b c) : Off c b := Or.symm h

instance : Std.Symm Off := ⟨fun _ _ => Off.symm⟩

theorem Off.apart (h : Off b c) : Apart b.addr c.addr :=
  h.imp header_le_lim.trans header_le_lim.trans

/-- The block that `absorb` puts in front begins at `b`, and ends where `b` or its neighbour
ends. -/
theorem absorb_spec (hsep : Sep (b :: l)) : ∃ c r, absorb b l = c :: r ∧ c.addr = b.addr ∧
    (c = b ∧ r = l ∨ ∃ d, l = d :: r ∧ b.stop = d.addr ∧ c.lim ≤ d.lim ∧
      c.size = (b.size + d.size) % 2 ^ 32) := by
  cases l with
  | nil => exact ⟨b, [], rfl, rfl, .inl ⟨rfl, rfl⟩⟩
  | cons d r =>
    rw [absorb]
    split
    · rename_i hgap
      refine ⟨_, r, rfl, rfl, .inr ⟨d, rfl, hgap, ?_, rfl⟩⟩
      have hlim : b.lim ≤ d.addr := (List.pairwise_cons.mp hsep).1 d List.mem_cons_self
      have hmod := Nat.mod_le (b.size + d.size) (2 ^ 32)
      unfold stop lim HEADER at *
      dsimp only
      omega
    · exact ⟨b, d :: r, rfl, rfl, .inl ⟨rfl, rfl⟩⟩

theorem absorb_sep (hsep : Sep (b :: l)) : Sep (absorb b l) := by
  obtain ⟨c, r, heq, haddr, ⟨rfl, rfl⟩ | ⟨d, rfl, -, hlim, -⟩⟩ := absorb_spec hsep
  · rwa [heq]
  · have hrest := List.pairwise_cons.mp (List.pairwise_cons.mp hsep).2
    rw [heq]
    exact List.pairwise_cons.mpr ⟨fun y hy => hlim.trans (hrest.1 y hy), hrest.2⟩

/-- `absorb` adds no address. -/
theorem addr_of_mem_absorb (hsep : Sep (b :: l)) (hc : c ∈ absorb b l) :
    ∃ d ∈ b :: l, d.addr = c.addr := by
  obtain ⟨e, r, heq, haddr, ⟨rfl, rfl⟩ | ⟨d, rfl, -⟩⟩ := absorb_spec hsep
  · exact ⟨c, heq ▸ hc, rfl⟩
  · rw [heq] at hc
    rcases List.mem_cons.mp hc with rfl | hc
    · exact ⟨b, List.mem_cons_self, haddr.symm⟩
    · exact ⟨c, List.mem_cons_of_mem b (List.mem_cons_of_mem d hc), rfl⟩

theorem Sep.absorb_right {a : Block} (hsep : Sep (a :: b :: l)) : Sep (a :: absorb b l) := by
  obtain ⟨hhead, htail⟩ := List.pairwise_cons.mp hsep
  refine List.pairwise_cons.mpr ⟨fun c hc => ?_, absorb_sep htail⟩
  obtain ⟨d, hd, haddr⟩ := addr_of_mem_absorb htail hc
  exact haddr ▸ hhead d hd

/-- Two steps of `absorb` leave the blocks in order. -/
theorem Sep.insert {a : Block} (hsep : Sep (l ++ a :: b :: r)) :
    Sep (l ++ absorb a (absorb b r)) := by
  obtain ⟨hl, hr, hlr⟩ := List.pairwise_append.mp hsep
  replace hr : Sep (a :: b :: r) := hr
  refine List.pairwise_append.mpr ⟨hl, absorb_sep hr.absorb_right, fun x hx c hc => ?_⟩
  obtain ⟨d, hd, hdc⟩ := addr_of_mem_absorb hr.absorb_right hc
  rw [← hdc]
  rcases List.mem_cons.mp hd with rfl | hd
  · exact hlr x hx d List.mem_cons_self
  · obtain ⟨e, he, hed⟩ := addr_of_mem_absorb (List.pairwise_cons.mp hr).2 hd
    exact hed ▸ hlr x hx e (List.mem_cons_of_mem a he)

/-- The place of an address in a list of blocks. -/
theorem Sep.split {bp : ℕ} (hsep : Sep (b :: l)) (hb : b.addr < bp) (hne : ∀ c ∈ l, c.addr ≠ bp) :
    ∃ l₁ a l₂, b :: l = l₁ ++ a :: l₂ ∧ a.addr < bp ∧ ∀ c ∈ l₂, bp < c.addr := by
  induction l generalizing b with
  | nil => exact ⟨[], b, [], rfl, hb, fun _ h => absurd h List.not_mem_nil⟩
  | cons d l ih =>
    obtain ⟨-, htail⟩ := List.pairwise_cons.mp hsep
    by_cases hd : d.addr < bp
    · obtain ⟨l₁, a, l₂, heq, ha, hl₂⟩ := ih htail hd fun c hc => hne c (List.mem_cons_of_mem d hc)
      exact ⟨b :: l₁, a, l₂, by rw [heq, List.cons_append], ha, hl₂⟩
    · have hlt : bp < d.addr := by
        have := hne d List.mem_cons_self
        omega
      refine ⟨[], b, d :: l, rfl, hb, List.forall_mem_cons.mpr ⟨hlt, fun c hc => ?_⟩⟩
      have := (List.pairwise_cons.mp htail).1 c hc
      have : d.addr < d.lim := addr_lt_lim
      omega

end Block

/-- The circular list of `base` and the free blocks. -/
structure FreeList (base : ℕ) (m : Ram) (nodes : List Block) : Prop where
  linked : Linked m base nodes base
  sep : Sep nodes
  head : nodes.head? = some ⟨base, 0⟩
  lt : ∀ c ∈ nodes, c.addr < 2 ^ 64

namespace FreeList

variable {base bp p fuel : ℕ} {m : Ram} {nodes l r : List Block} {a b : Block}

theorem eq_cons (h : FreeList base m nodes) : ∃ fs, nodes = ⟨base, 0⟩ :: fs :=
  List.head?_eq_some_iff.mp h.head

theorem mem_head (h : FreeList base m nodes) : base ∈ nodes.map addr := by
  obtain ⟨fs, rfl⟩ := h.eq_cons
  exact List.mem_cons_self

/-- The pointer of a block of the list. -/
theorem ptr_eq (h : FreeList base m (l ++ a :: r)) :
    ptr m a.addr = (r.head?.map addr).getD base := by
  obtain ⟨-, -, hr⟩ := linked_append_cons.mp h.linked
  cases r with
  | nil => exact hr.1
  | cons c r => exact (linked_cons.mp hr).1

theorem ptr_mem (h : FreeList base m nodes) (hp : p ∈ nodes.map addr) :
    ptr m p ∈ nodes.map addr := by
  obtain ⟨a, ha, rfl⟩ := List.mem_map.mp hp
  obtain ⟨l, r, rfl⟩ := List.append_of_mem ha
  rw [h.ptr_eq]
  cases r with
  | nil => exact h.mem_head
  | cons c r => simp

/-- `base` is before all other blocks. -/
theorem base_le (h : FreeList base m nodes) : ∀ c ∈ nodes, base ≤ c.addr := by
  obtain ⟨fs, rfl⟩ := h.eq_cons
  refine List.forall_mem_cons.mpr ⟨Nat.le_refl _, fun c hc => ?_⟩
  have hlim := (List.pairwise_cons.mp h.sep).1 c hc
  exact (Nat.le_of_lt addr_lt_lim).trans hlim

/-- `bp` is between `a` and the blocks `r`. -/
def Between (bp : ℕ) (a : Block) (r : List Block) : Prop := a.addr < bp ∧ ∀ c ∈ r, bp < c.addr

/-- The tests of the loop of `free` find out whether `bp` comes after `a`. -/
theorem stops_iff (h : FreeList base m (l ++ a :: r)) (hbp : base < bp) :
    (a.addr < bp ∧ bp < ptr m a.addr ∨
      ptr m a.addr ≤ a.addr ∧ (a.addr < bp ∨ bp < ptr m a.addr)) ↔ Between bp a r := by
  have hle := h.base_le a (by simp)
  have hsep := (List.pairwise_append.mp h.sep).2.1
  rw [h.ptr_eq]
  cases r with
  | nil =>
    simp only [List.head?_nil, Option.map_none, Option.getD_none, Between, List.not_mem_nil,
      false_imp_iff, implies_true, and_true]
    omega
  | cons c r =>
    obtain ⟨ha, hc⟩ := List.pairwise_cons.mp hsep
    have hac := ha c List.mem_cons_self
    have halt : a.addr < a.lim := addr_lt_lim
    have hclt : c.addr < c.lim := addr_lt_lim
    simp only [List.head?_cons, Option.map_some, Option.getD_some, Between, List.forall_mem_cons]
    constructor
    · intro hstop
      refine ⟨by omega, by omega, fun d hd => ?_⟩
      have := (List.pairwise_cons.mp hc).1 d hd
      omega
    · rintro ⟨hlt, hbc, -⟩
      exact .inl ⟨hlt, hbc⟩

theorem place_spec {q : ℕ} (h : FreeList base m nodes) (hbp : base < bp)
    (hp : p ∈ nodes.map addr) (hq : place m bp fuel p = some q) :
    ∃ l a r, nodes = l ++ a :: r ∧ a.addr = q ∧ Between bp a r := by
  induction fuel generalizing p with
  | zero => cases hq
  | succ fuel ih =>
    obtain ⟨a, ha, rfl⟩ := List.mem_map.mp hp
    obtain ⟨l, r, rfl⟩ := List.append_of_mem ha
    have hstop := h.stops_iff hbp
    rw [place] at hq
    by_cases hb : Between bp a r
    · refine ⟨l, a, r, rfl, ?_, hb⟩
      rcases hstop.mpr hb with h₁ | h₂
      · rw [if_pos h₁] at hq
        exact Option.some.inj hq
      · rw [if_pos h₂, ite_self] at hq
        exact Option.some.inj hq
    · have hnot := not_or.mp (mt hstop.mp hb)
      rw [if_neg hnot.1, if_neg hnot.2] at hq
      exact ih (h.ptr_mem hp) hq

theorem place_returns {k : ℕ} (h : FreeList base m (l ++ a :: r)) (hbp : base < bp)
    (hb : Between bp a r) (hk : (ptr m)^[k] p = a.addr) (hfuel : k < fuel) :
    ∃ q, place m bp fuel p = some q := by
  induction k generalizing p fuel with
  | zero =>
    obtain ⟨fuel, rfl⟩ : ∃ n, fuel = n + 1 := ⟨fuel - 1, by omega⟩
    have hpa : p = a.addr := hk
    rw [hpa, place]
    rcases (h.stops_iff hbp).mpr hb with h₁ | h₂
    · exact ⟨_, if_pos h₁⟩
    · rw [if_pos h₂, ite_self]
      exact ⟨_, rfl⟩
  | succ k ih =>
    obtain ⟨fuel, rfl⟩ : ∃ n, fuel = n + 1 := ⟨fuel - 1, by omega⟩
    rw [place]
    split
    · exact ⟨p, rfl⟩
    · split
      · exact ⟨p, rfl⟩
      · exact ih hk (by omega)

/-- A block that has no byte in common with those of the list has its place in it. -/
theorem sep_insert (hsep : Sep (l ++ a :: r)) (hoff : ∀ c ∈ l ++ a :: r, Off b c)
    (hb : Between b.addr a r) : Sep (l ++ a :: b :: r) := by
  have hbefore : ∀ c ∈ l ++ a :: r, c.addr < b.addr → c.lim ≤ b.addr := by
    intro c hc hlt
    have : b.addr < b.lim := addr_lt_lim
    have : Off b c := hoff c hc
    unfold Off at this
    omega
  have hafter : ∀ c ∈ r, b.lim ≤ c.addr := by
    intro c hc
    have : c.addr < c.lim := addr_lt_lim
    have := hb.2 c hc
    have : Off b c := hoff c (List.mem_append_right l (List.mem_cons_of_mem a hc))
    unfold Off at this
    omega
  obtain ⟨hl, har, hlar⟩ := List.pairwise_append.mp hsep
  obtain ⟨ha, hr⟩ := List.pairwise_cons.mp har
  refine List.pairwise_append.mpr ⟨hl, ?_, fun c hc d hd => ?_⟩
  · refine List.pairwise_cons.mpr ⟨List.forall_mem_cons.mpr ⟨?_, ha⟩,
      List.pairwise_cons.mpr ⟨hafter, hr⟩⟩
    exact hbefore a (List.mem_append_right l List.mem_cons_self) hb.1
  · have hca : c.lim ≤ a.addr := hlar c hc a List.mem_cons_self
    rcases List.mem_cons.mp hd with rfl | hd
    · exact hca
    · rcases List.mem_cons.mp hd with rfl | hd
      · exact hca.trans (Nat.le_of_lt hb.1)
      · exact hlar c hc d (List.mem_cons_of_mem a hd)

/-- `base` stays the first block. -/
theorem head_insert (h : FreeList base m (l ++ a :: r)) (hbase : base < b.addr)
    (hsep : Sep (b :: r)) : (l ++ absorb a (absorb b r)).head? = some ⟨base, 0⟩ := by
  have hhead := h.head
  cases l with
  | nil =>
    obtain ⟨c, r', hcr, hcb, -⟩ := absorb_spec hsep
    have ha : a = ⟨base, 0⟩ := Option.some.inj hhead
    have hne : a.stop ≠ c.addr := by
      rw [ha, hcb]
      exact Nat.ne_of_lt hbase
    rw [List.nil_append, hcr, absorb, if_neg hne, ha]
    rfl
  | cons x l => exact hhead

theorem free_spec {h h' : Heap} (hlist : FreeList base h.mem nodes)
    (hcur : h.freep ∈ nodes.map addr) (hbase : base < b.addr) (hlt : b.addr < 2 ^ 64)
    (hsize : size h.mem b.addr = b.size) (hoff : ∀ c ∈ nodes, Off b c)
    (hfree : free fuel (b.addr + HEADER) h = some h') :
    ∃ l a r, nodes = l ++ a :: r ∧ Between b.addr a r ∧
      FreeList base h'.mem (l ++ absorb a (absorb b r)) ∧ h'.freep = a.addr ∧
      ∀ y, Apart b.addr y → (∀ c ∈ nodes, Apart c.addr y) → SameHeader h.mem h'.mem y := by
  cases hq : place h.mem b.addr fuel h.freep with
  | none =>
    rw [free_none hq] at hfree
    cases hfree
  | some q =>
  obtain ⟨l, a, r, rfl, rfl, hb⟩ := hlist.place_spec hbase hcur hq
  have hba : Apart b.addr a.addr := (hoff a (by simp)).apart
  rw [free_some hq hba, Option.some.injEq] at hfree
  subst hfree
  have hsep := sep_insert hlist.sep hoff hb
  obtain ⟨hl, har, hlar⟩ := List.pairwise_append.mp hsep
  replace har : Sep (a :: b :: r) := har
  obtain ⟨hlinkl, hsizea, hlinkr⟩ := linked_append_cons.mp hlist.linked
  -- first `b` takes in the block after it
  have hbr : Linked (join h.mem b.addr (ptr h.mem a.addr)) b.addr (absorb b r) base :=
    linked_join hsize hlinkr (List.pairwise_cons.mp har).2 ptr_lt fun _ => hbase
  -- then `a` takes in `b`
  have hsizea' : size (join h.mem b.addr (ptr h.mem a.addr)) a.addr = a.size :=
    (same_join hba).2.trans hsizea
  have habr := linked_join hsizea' hbr har.absorb_right hlt fun hnil => by
    obtain ⟨c, r', hc, -⟩ := absorb_spec (List.pairwise_cons.mp har).2
    rw [hc] at hnil
    exact absurd hnil (List.cons_ne_nil c r')
  have hsame : ∀ y, Apart b.addr y → Apart a.addr y → SameHeader h.mem
      (join (join h.mem b.addr (ptr h.mem a.addr)) a.addr b.addr) y := fun y hby hay =>
    (same_join hby).trans (same_join hay)
  refine ⟨l, a, r, rfl, hb, ⟨?_, hsep.insert, ?_, ?_⟩, rfl, fun y hby hy =>
    hsame y hby (hy a (by simp))⟩
  · have hl' := hlinkl.frame fun c hc => hsame c.addr
      (hoff c (List.mem_append_left _ hc)).apart (.symm (.inl (header_le_lim.trans
        (hlar c hc a List.mem_cons_self))))
    obtain ⟨c, r', hcr, hca, -⟩ := absorb_spec har.absorb_right
    rw [hcr] at habr ⊢
    obtain ⟨-, hc, hr'⟩ := linked_cons.mp habr
    exact linked_append_cons.mpr ⟨hca ▸ hl', hc, hr'⟩
  · exact hlist.head_insert hbase (List.pairwise_cons.mp har).2
  · intro c hc
    rcases List.mem_append.mp hc with hc | hc
    · exact hlist.lt c (List.mem_append_left _ hc)
    · obtain ⟨d, hd, hdc⟩ := addr_of_mem_absorb har.absorb_right hc
      rw [← hdc]
      rcases List.mem_cons.mp hd with rfl | hd
      · exact hlist.lt d (by simp)
      · obtain ⟨e, he, hed⟩ := addr_of_mem_absorb (List.pairwise_cons.mp har).2 hd
        rw [← hed]
        rcases List.mem_cons.mp he with rfl | he
        · exact hlt
        · exact hlist.lt e (by simp [he])

theorem free_returns {h : Heap} (hlist : FreeList base h.mem nodes)
    (hcur : h.freep ∈ nodes.map addr) (hbase : base < b.addr) (hoff : ∀ c ∈ nodes, Off b c)
    (hfuel : 2 * nodes.length < fuel) : ∃ h', free fuel (b.addr + HEADER) h = some h' := by
  have hne : ∀ c ∈ nodes, c.addr ≠ b.addr := by
    intro c hc heq
    have := (hoff c hc).apart
    unfold Apart HEADER at this
    omega
  obtain ⟨fs, rfl⟩ := hlist.eq_cons
  obtain ⟨l, a, r, heq, hb⟩ := hlist.sep.split hbase fun c hc => hne c (List.mem_cons_of_mem _ hc)
  have ha : a ∈ (⟨base, 0⟩ :: fs : List Block) := heq ▸ by simp
  obtain ⟨k, hk, hreach⟩ := hlist.linked.1.reaches hcur (List.mem_map_of_mem ha)
  rw [List.length_map] at hk
  obtain ⟨q, hq⟩ := (heq ▸ hlist).place_returns hbase hb hreach (Nat.lt_of_le_of_lt hk hfuel)
  obtain ⟨l', a', r', heq', rfl, -⟩ := hlist.place_spec hbase hcur hq
  exact ⟨_, free_some hq (hoff a' (by rw [heq']; simp)).apart⟩

/-! ## What `malloc` takes -/

/-- What is left of a block. -/
def shrink (c : Block) (n : ℕ) : List Block := if c.size = n then [] else [⟨c.addr, c.size - n⟩]

/-- The end of a block. -/
def given (c : Block) (n : ℕ) : Block := ⟨c.addr + HEADER * (c.size - n), n⟩

theorem size_lt_of_mem (h : FreeList base m (l ++ a :: r)) : a.size < 2 ^ 32 :=
  (linked_append_cons.mp h.linked).2.1 ▸ size_lt

/-- The block after `a` leaves the list. -/
theorem unlink {c : Block} (h : FreeList base m (l ++ a :: c :: r)) :
    FreeList base (setPtr m a.addr (ptr m c.addr)) (l ++ a :: r) := by
  obtain ⟨hl, ha, hr⟩ := linked_append_cons.mp h.linked
  obtain ⟨-, -, hr⟩ := linked_cons.mp hr
  obtain ⟨hsl, hsar, hslar⟩ := List.pairwise_append.mp h.sep
  have hsub : List.Sublist (l ++ a :: r) (l ++ a :: c :: r) :=
    ((List.sublist_cons_self c r).cons_cons a).append_left l
  refine ⟨linked_append_cons.mpr ⟨hl.frame fun d hd => ?_, size_setPtr.trans ha, ?_⟩,
    h.sep.sublist hsub, ?_, fun d hd => h.lt d (hsub.subset hd)⟩
  · exact same_setPtr (.symm (.inl (header_le_lim.trans (hslar d hd a List.mem_cons_self))))
  · rw [ptr_setPtr ptr_lt]
    refine hr.frame fun d hd => same_setPtr (Sep.apart hsar d (List.mem_cons_of_mem c hd))
  · have := h.head
    cases l with
    | nil => exact this
    | cons x l => exact this

/-- A block of the list gives its end away. -/
theorem cut {c : Block} {n : ℕ} (h : FreeList base m (l ++ c :: r)) (hn : 0 < n)
    (hlt : n < c.size) (hl : l ≠ []) :
    FreeList base (setSize (setSize m c.addr (c.size - n)) (given c n).addr n)
      (l ++ ⟨c.addr, c.size - n⟩ :: r) := by
  have hq : Apart (given c n).addr c.addr := .inr (by unfold given HEADER; dsimp only; omega)
  have hstop : (given c n).addr + HEADER ≤ c.lim := by
    unfold given lim HEADER
    dsimp only
    omega
  obtain ⟨hll, hc, hr⟩ := linked_append_cons.mp h.linked
  obtain ⟨hsl, hsc, hslc⟩ := List.pairwise_append.mp h.sep
  obtain ⟨hcr, hsr⟩ := List.pairwise_cons.mp hsc
  have hsizec : c.size < 2 ^ 32 := h.size_lt_of_mem
  have hlimc : (⟨c.addr, c.size - n⟩ : Block).lim ≤ c.lim := by
    unfold lim HEADER
    dsimp only
    omega
  have hsame : ∀ y, Apart c.addr y → Apart (given c n).addr y → SameHeader m
      (setSize (setSize m c.addr (c.size - n)) (given c n).addr n) y := fun y hcy hqy =>
    (same_setSize hcy).trans (same_setSize hqy)
  have hcsame := same_setSize (m := setSize m c.addr (c.size - n)) (v := n) hq
  refine ⟨linked_append_cons.mpr ⟨hll.frame fun d hd => ?_, ?_, ?_⟩, ?_, ?_, ?_⟩
  · have hd' := header_le_lim.trans (hslc d hd c List.mem_cons_self)
    refine hsame _ (.inr hd') (.inr (hd'.trans ?_))
    unfold given
    dsimp only
    omega
  · dsimp only
    rw [hcsame.2, size_setSize]
    exact Nat.mod_eq_of_lt (by omega)
  · dsimp only
    rw [hcsame.1, ptr_setSize]
    refine hr.frame fun d hd => hsame _ (Sep.apart hsc d hd) ?_
    exact .inl (hstop.trans (hcr d hd))
  · refine List.pairwise_append.mpr ⟨hsl, List.pairwise_cons.mpr
      ⟨fun d hd => hlimc.trans (hcr d hd), hsr⟩, fun d hd e he => ?_⟩
    rcases List.mem_cons.mp he with rfl | he
    · exact hslc d hd c List.mem_cons_self
    · exact hslc d hd e (List.mem_cons_of_mem c he)
  · have := h.head
    cases l with
    | nil => exact absurd rfl hl
    | cons x l => exact this
  · intro d hd
    rcases List.mem_append.mp hd with hd | hd
    · exact h.lt d (List.mem_append_left _ hd)
    · rcases List.mem_cons.mp hd with rfl | hd
      · exact h.lt c (by simp)
      · exact h.lt d (by simp [hd])

/-- What the last step of `malloc` does to the list. -/
theorem take_spec {h : Heap} {c : Block} {n : ℕ} (hlist : FreeList base h.mem (l ++ a :: c :: r))
    (hn : 0 < n) (hle : n ≤ c.size) :
    (take n a.addr c.addr h).1 = (given c n).addr + HEADER ∧
      FreeList base (take n a.addr c.addr h).2.mem (l ++ a :: (shrink c n ++ r)) ∧
      (take n a.addr c.addr h).2.freep = a.addr ∧
      size (take n a.addr c.addr h).2.mem (given c n).addr = n ∧
      ∀ y, (∀ d ∈ l ++ a :: c :: r, Apart d.addr y) → Apart (given c n).addr y →
        SameHeader h.mem (take n a.addr c.addr h).2.mem y := by
  have hlist' : FreeList base h.mem (l ++ [a] ++ c :: r) := by simpa using hlist
  have hc : size h.mem c.addr = c.size := (linked_append_cons.mp hlist'.linked).2.1
  have hac : Apart a.addr c.addr :=
    Sep.apart (List.pairwise_append.mp hlist.sep).2.1 c List.mem_cons_self
  by_cases heq : c.size = n
  · have hgiven : given c n = c := by
      rw [given, heq, Nat.sub_self, Nat.mul_zero, Nat.add_zero, ← heq]
    rw [take, hc, if_pos heq, shrink, if_pos heq, hgiven]
    refine ⟨rfl, hlist.unlink, rfl, (same_setPtr hac).2.trans (hc.trans heq), fun y hy _ => ?_⟩
    exact same_setPtr (hy a (by simp))
  · have hsize : size (setSize h.mem c.addr (c.size - n)) c.addr = c.size - n := by
      rw [size_setSize]
      have := hlist'.size_lt_of_mem
      exact Nat.mod_eq_of_lt (by omega)
    have hcut := hlist'.cut hn (by omega) (by simp)
    have hnlt : n < 2 ^ 32 := Nat.lt_of_le_of_lt hle hlist'.size_lt_of_mem
    rw [take, hc, if_neg heq, shrink, if_neg heq]
    dsimp only
    rw [hsize]
    refine ⟨rfl, ?_, rfl, ?_, fun y hy hqy => ?_⟩
    · simpa [given] using hcut
    · rw [given, size_setSize]
      exact Nat.mod_eq_of_lt hnlt
    · exact (same_setSize (hy c (by simp))).trans (same_setSize hqy)

end FreeList

end Xv6.Umalloc
