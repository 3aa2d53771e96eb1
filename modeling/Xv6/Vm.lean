import Xv6.Prog
import Xv6.Memory

/-!
# Physical pages and page tables

`kalloc.c` and the part of `vm.c` that builds and uses page tables, as programs over the
physical memory. A page on the free list holds the pointer to the next one in its first
eight bytes, and a page table is a page of 512 entries whose valid entries point to the
tables of the next level. Numbers of type `uint64` are natural numbers, with `u64` where a
sum may leave the range.

The kernel memory that `copyout` reads and `copyin` fills is a value of its own. The loops of
the code recurse on a bound for the number of their rounds.
-/

namespace Xv6

/-! ## Constants -/

def PGSIZE : ℕ := 4096
def KERNBASE : ℕ := 0x80000000
def PHYSTOP : ℕ := KERNBASE + 128 * 1024 * 1024
/-- `1L << (9 + 9 + 9 + 12 - 1)` -/
def MAXVA : ℕ := 2 ^ 38
def TRAMPOLINE : ℕ := MAXVA - PGSIZE
def TRAPFRAME : ℕ := TRAMPOLINE - PGSIZE

theorem KERNBASE_aligned : KERNBASE % PGSIZE = 0 := by decide

def PTE_V : ℕ := 1
def PTE_R : ℕ := 2
def PTE_W : ℕ := 4
def PTE_X : ℕ := 8
def PTE_U : ℕ := 16

/-- The sum or difference of two `uint64`. -/
def u64 (z : ℤ) : ℕ := (z % 2 ^ 64).toNat

/-- An `int` made from a `uint64`, and made a `uint64` again. -/
def sext (x : ℕ) : ℕ := u64 ((x : ℤ).bmod (2 ^ 32))

def PGROUNDDOWN (a : ℕ) : ℕ := a / PGSIZE * PGSIZE
def PGROUNDUP (sz : ℕ) : ℕ := PGROUNDDOWN (u64 (sz + PGSIZE - 1))

def PA2PTE (pa : ℕ) : ℕ := pa >>> 12 <<< 10
def PTE2PA (pte : ℕ) : ℕ := u64 (pte >>> 10 <<< 12 : ℕ)
/-- `pte & 0x3FF` -/
def PTE_FLAGS (pte : ℕ) : ℕ := pte &&& 0x3FF

def PXSHIFT (level : ℕ) : ℕ := 12 + 9 * level
/-- The index of nine bits that `va` has for a table of the level. -/
def PX (level va : ℕ) : ℕ := va >>> PXSHIFT level &&& 0x1FF

/-! ## State -/

/-- Where the linker put the end of the kernel and the trampoline code. -/
structure KernelImage where
  /-- `end` -/
  stop : ℕ
  trampoline : ℕ
  trampoline_ge : KERNBASE ≤ trampoline
  trampoline_lt : trampoline + PGSIZE ≤ stop
  trampoline_aligned : trampoline % PGSIZE = 0
  stop_le : stop ≤ PHYSTOP

/-- The physical memory, and `kmem.freelist`. -/
structure Phys where
  mem : Ram
  freelist : ℕ

inductive VmPanic
  /-- "kfree" -/
  | kfree
  /-- "walk" -/
  | walk
  /-- "mappages: va not aligned", "mappages: size not aligned", "mappages: size" -/
  | mapArgs
  /-- "mappages: remap" -/
  | remap
  /-- "uvmunmap: not aligned" -/
  | unmapArgs
  /-- "uvmunmap: walk" -/
  | unmapWalk
  /-- "uvmunmap: not mapped" -/
  | notMapped
  /-- "uvmunmap: not a leaf" -/
  | notLeaf
  /-- "freewalk: leaf" -/
  | freewalkLeaf
  /-- "uvmcopy: pte should exist" -/
  | uvmcopyPte
  /-- "uvmcopy: page not present" -/
  | uvmcopyPage
  /-- a loop or a recursion that would go on and on -/
  | endless
  deriving DecidableEq, Repr

abbrev VmM := Prog Phys VmPanic

namespace Vm

/-! ## `kalloc.c` -/

def load64 (a : ℕ) : VmM ℕ := do
  return (← get).mem.load 8 a

def store64 (a v : ℕ) : VmM Unit :=
  modify fun s => { s with mem := s.mem.store 8 a v }

def memset (a : ℕ) (c : UInt8) (n : ℕ) : VmM Unit :=
  modify fun s => { s with mem := s.mem.memset a c n }

def memmove (dst src n : ℕ) : VmM Unit :=
  modify fun s => { s with mem := s.mem.memmove dst src n }

variable (I : KernelImage)

def kfree (pa : ℕ) : VmM Unit := do
  if pa % PGSIZE ≠ 0 ∨ pa < I.stop ∨ PHYSTOP ≤ pa then throw .kfree
  memset pa 1 PGSIZE
  let next := (← get).freelist
  store64 pa next
  modify fun s => { s with freelist := pa }

/-- `for(; p + PGSIZE <= pa_end; p += PGSIZE) kfree(p)`, for `k` pages at most. -/
def freeLoop (pa_end : ℕ) : (k p : ℕ) → VmM Unit
  | 0, _ => pure ()
  | k + 1, p => do
    if p + PGSIZE ≤ pa_end then
      kfree I p
      freeLoop pa_end k (p + PGSIZE)

def freerange (pa_start pa_end : ℕ) : VmM Unit :=
  freeLoop I pa_end (pa_end / PGSIZE) (PGROUNDUP pa_start)

-- irreducible, as `whnf` would run the loop over all pages
@[irreducible] def kinit : VmM Unit :=
  freerange I I.stop PHYSTOP

/-- The address of a free page, or 0. -/
def kalloc : VmM ℕ := do
  let r := (← get).freelist
  if r ≠ 0 then
    let next ← load64 r
    modify fun s => { s with freelist := next }
    memset r 5 PGSIZE
  return r

/-- `while(r)`, for `k` rounds at most. -/
def countLoop : (k r total_freemem : ℕ) → VmM ℕ
  | 0, _, _ => throw .endless
  | k + 1, r, total_freemem => do
    if r = 0 then
      return total_freemem
    else
      countLoop k (← load64 r) (total_freemem + PGSIZE)

/-- The bytes on the free list, if it has fewer than `k` pages. -/
def count_freemmem (k : ℕ) : VmM ℕ := do
  countLoop k (← get).freelist 0

/-! ## Walks -/

/-- One level of `walk` : the table of the next level. -/
def walkStep (va : ℕ) (alloc : Bool) (level pagetable : ℕ) : VmM (Option ℕ) := do
  let pte := pagetable + 8 * PX level va
  let e ← load64 pte
  if e &&& PTE_V ≠ 0 then
    return some (PTE2PA e)
  else if ¬ alloc then
    return none
  else
    let page ← kalloc
    if page = 0 then
      return none
    else
      memset page 0 PGSIZE
      store64 pte (PA2PTE page ||| PTE_V)
      return some page

/-- `for(int level = 2; level > 0; level--)` -/
def walkLoop (va : ℕ) (alloc : Bool) : (level pagetable : ℕ) → VmM (Option ℕ)
  | 0, pagetable => return some (pagetable + 8 * PX 0 va)
  | level + 1, pagetable => do
    match ← walkStep va alloc (level + 1) pagetable with
    | none => return none
    | some pagetable => walkLoop va alloc level pagetable

/-- The address of the entry for `va`. -/
def walk (pagetable va : ℕ) (alloc : Bool) : VmM (Option ℕ) := do
  if MAXVA ≤ va then throw .walk
  walkLoop va alloc 2 pagetable

/-- The physical address of a user page, or 0. -/
def walkaddr (pagetable va : ℕ) : VmM ℕ := do
  if MAXVA ≤ va then
    return 0
  else
    match ← walk pagetable va false with
    | none => return 0
    | some pte =>
      let e ← load64 pte
      if e &&& PTE_V = 0 then
        return 0
      else if e &&& PTE_U = 0 then
        return 0
      else
        return PTE2PA e

/-! ## Mappings -/

/-- The loop of `mappages`, for `k` pages at most. -/
def mapLoop (pagetable last perm : ℕ) : (k a pa : ℕ) → VmM ℤ
  | 0, _, _ => return 0
  | k + 1, a, pa => do
    match ← walk pagetable a true with
    | none => return -1
    | some pte =>
      let e ← load64 pte
      if e &&& PTE_V ≠ 0 then throw .remap
      store64 pte (PA2PTE pa ||| perm ||| PTE_V)
      if a = last then
        return 0
      else
        mapLoop pagetable last perm k (u64 (a + PGSIZE)) (u64 (pa + PGSIZE))

def mappages (pagetable va size pa perm : ℕ) : VmM ℤ := do
  if va % PGSIZE ≠ 0 then throw .mapArgs
  if size % PGSIZE ≠ 0 then throw .mapArgs
  if size = 0 then throw .mapArgs
  mapLoop pagetable (u64 (va + size - PGSIZE)) perm (size / PGSIZE) va pa

/-- What `uvmunmap` does to an entry. -/
def unmapEntry (pte : ℕ) (do_free : Bool) : VmM Unit := do
  let e ← load64 pte
  if e &&& PTE_V = 0 then throw .notMapped
  if PTE_FLAGS e = PTE_V then throw .notLeaf
  if do_free then kfree I (PTE2PA e)
  store64 pte 0

/-- `for(a = va; a < stop; a += PGSIZE)`, for `k` pages at most. -/
def unmapLoop (pagetable stop : ℕ) (do_free : Bool) : (k a : ℕ) → VmM Unit
  | 0, _ => pure ()
  | k + 1, a => do
    if a < stop then
      match ← walk pagetable a false with
      | none => throw .unmapWalk
      | some pte =>
        unmapEntry I pte do_free
        unmapLoop pagetable stop do_free k (u64 (a + PGSIZE))

def uvmunmap (pagetable va npages : ℕ) (do_free : Bool) : VmM Unit := do
  if va % PGSIZE ≠ 0 then throw .unmapArgs
  unmapLoop I pagetable (u64 (va + u64 (npages * PGSIZE))) do_free npages va

/-- A page table, or 0. -/
def uvmcreate : VmM ℕ := do
  let pagetable ← kalloc
  if pagetable = 0 then
    return 0
  else
    memset pagetable 0 PGSIZE
    return pagetable

def uvmdealloc (pagetable oldsz newsz : ℕ) : VmM ℕ := do
  if oldsz ≤ newsz then
    return oldsz
  else
    if PGROUNDUP newsz < PGROUNDUP oldsz then
      let npages := sext ((PGROUNDUP oldsz - PGROUNDUP newsz) / PGSIZE)
      uvmunmap I pagetable (PGROUNDUP newsz) npages true
    return newsz

/-- `for(a = oldsz; a < newsz; a += PGSIZE)`, for `k` pages at most. -/
def allocLoop (pagetable oldsz newsz xperm : ℕ) : (k a : ℕ) → VmM ℕ
  | 0, _ => return newsz
  | k + 1, a => do
    if a < newsz then
      let page ← kalloc
      if page = 0 then
        let _ ← uvmdealloc I pagetable a oldsz
        return 0
      else
        memset page 0 PGSIZE
        if (← mappages pagetable a PGSIZE page (PTE_R ||| PTE_U ||| xperm)) ≠ 0 then
          kfree I page
          let _ ← uvmdealloc I pagetable a oldsz
          return 0
        else
          allocLoop pagetable oldsz newsz xperm k (u64 (a + PGSIZE))
    else
      return newsz

/-- The new size, or 0. -/
def uvmalloc (pagetable oldsz newsz xperm : ℕ) : VmM ℕ := do
  if newsz < oldsz then
    return oldsz
  else
    let oldsz := PGROUNDUP oldsz
    allocLoop I pagetable oldsz newsz xperm ((newsz - oldsz) / PGSIZE + 1) oldsz

/-- `for(int i = 0; i < 512; i++)`, the last `k` rounds, where `free` is the recursive call. -/
def freewalkLoop (free : ℕ → VmM Unit) (pagetable : ℕ) : (k i : ℕ) → VmM Unit
  | 0, _ => pure ()
  | k + 1, i => do
    let pte ← load64 (pagetable + 8 * i)
    if pte &&& PTE_V ≠ 0 ∧ pte &&& (PTE_R ||| PTE_W ||| PTE_X) = 0 then
      free (PTE2PA pte)
      store64 (pagetable + 8 * i) 0
    else if pte &&& PTE_V ≠ 0 then
      throw .freewalkLeaf
    freewalkLoop free pagetable k (i + 1)

/-- `freewalk`, for `depth` levels of tables at most. -/
def freewalk : (depth pagetable : ℕ) → VmM Unit
  | 0, _ => throw .endless
  | depth + 1, pagetable => do
    freewalkLoop (freewalk depth) pagetable 512 0
    kfree I pagetable

def uvmfree (pagetable sz : ℕ) : VmM Unit := do
  if 0 < sz then uvmunmap I pagetable 0 (PGROUNDUP sz / PGSIZE) true
  freewalk I 3 pagetable

/-- `for(i = 0; i < sz; i += PGSIZE)`, for `k` pages at most. -/
def copyLoop (old new sz : ℕ) : (k i : ℕ) → VmM ℤ
  | 0, _ => return 0
  | k + 1, i => do
    if i < sz then
      match ← walk old i false with
      | none => throw .uvmcopyPte
      | some pte =>
        let e ← load64 pte
        if e &&& PTE_V = 0 then throw .uvmcopyPage
        let page ← kalloc
        if page = 0 then
          uvmunmap I new 0 (i / PGSIZE) true
          return -1
        else
          memmove page (PTE2PA e) PGSIZE
          if (← mappages new i PGSIZE page (PTE_FLAGS e)) ≠ 0 then
            kfree I page
            uvmunmap I new 0 (i / PGSIZE) true
            return -1
          else
            copyLoop old new sz k (u64 (i + PGSIZE))
    else
      return 0

def uvmcopy (old new sz : ℕ) : VmM ℤ :=
  copyLoop I old new sz (sz / PGSIZE + 1) 0

/-! ## Copies between the kernel and a user -/

/-- `while(len > 0)`, for `k` rounds at most. -/
def copyoutLoop (pagetable : ℕ) : (k dstva : ℕ) → (src : ℕ → UInt8) → (len : ℕ) → VmM ℤ
  | 0, _, _, _ => return 0
  | k + 1, dstva, src, len => do
    if len = 0 then
      return 0
    else
      let va0 := PGROUNDDOWN dstva
      if MAXVA ≤ va0 then
        return -1
      else
        match ← walk pagetable va0 false with
        | none => return -1
        | some pte =>
          let e ← load64 pte
          if e &&& PTE_V = 0 ∨ e &&& PTE_U = 0 ∨ e &&& PTE_W = 0 then
            return -1
          else
            let pa0 := PTE2PA e
            let n := min (PGSIZE - (dstva - va0)) len
            modify fun s => { s with mem := s.mem.write (pa0 + (dstva - va0)) src n }
            copyoutLoop pagetable k (u64 (va0 + PGSIZE)) (fun i => src (n + i)) (len - n)

/-- `len` bytes of `src` go to the user address `dstva`. -/
def copyout (pagetable dstva : ℕ) (src : ℕ → UInt8) (len : ℕ) : VmM ℤ :=
  copyoutLoop pagetable len dstva src len

/-- `while(len > 0)`, for `k` rounds at most ; `pos` is how far `dst` was advanced. -/
def copyinLoop (pagetable : ℕ) : (k : ℕ) → (dst : Ram) → (pos srcva len : ℕ) → VmM (ℤ × Ram)
  | 0, dst, _, _, _ => return (0, dst)
  | k + 1, dst, pos, srcva, len => do
    if len = 0 then
      return (0, dst)
    else
      let va0 := PGROUNDDOWN srcva
      let pa0 ← walkaddr pagetable va0
      if pa0 = 0 then
        return (-1, dst)
      else
        let n := min (PGSIZE - (srcva - va0)) len
        let m := (← get).mem
        copyinLoop pagetable k (dst.write pos (fun i => m (pa0 + (srcva - va0) + i)) n) (pos + n)
          (u64 (va0 + PGSIZE)) (len - n)

/-- `len` bytes from the user address `srcva` go to `dst`. -/
def copyin (pagetable : ℕ) (dst : Ram) (srcva len : ℕ) : VmM (ℤ × Ram) :=
  copyinLoop pagetable len dst 0 srcva len

/-- `while(n > 0)` : whether a NUL was found, and `dst` with how far it was advanced. -/
def strLoop (m : Ram) : (n p : ℕ) → (dst : Ram) → (pos : ℕ) → Bool × Ram × ℕ
  | 0, _, dst, pos => (false, dst, pos)
  | n + 1, p, dst, pos =>
    if m p = 0 then
      (true, Function.update dst pos 0, pos)
    else
      strLoop m n (p + 1) (Function.update dst pos (m p)) (pos + 1)

/-- `while(got_null == 0 && max > 0)`, for `k` rounds at most. -/
def copyinstrLoop (pagetable : ℕ) : (k : ℕ) → (dst : Ram) → (pos srcva max : ℕ) → VmM (ℤ × Ram)
  | 0, dst, _, _, _ => return (-1, dst)
  | k + 1, dst, pos, srcva, max => do
    if max = 0 then
      return (-1, dst)
    else
      let va0 := PGROUNDDOWN srcva
      let pa0 ← walkaddr pagetable va0
      if pa0 = 0 then
        return (-1, dst)
      else
        let n := min (PGSIZE - (srcva - va0)) max
        let m := (← get).mem
        match strLoop m n (pa0 + (srcva - va0)) dst pos with
        | (true, dst, _) => return (0, dst)
        | (false, dst, pos) => copyinstrLoop pagetable k dst pos (u64 (va0 + PGSIZE)) (max - n)

/-- Bytes from the user address `srcva` go to `dst`, up to a NUL, `max` at most. -/
def copyinstr (pagetable : ℕ) (dst : Ram) (srcva max : ℕ) : VmM (ℤ × Ram) :=
  copyinstrLoop pagetable max dst 0 srcva max

end Vm

end Xv6
