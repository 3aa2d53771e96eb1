import Xv6.UmallocHeap

/-!
# Runs of a program that uses the heap

A program calls `malloc` and `free` and writes to the memory it was given. The kernel answers
`sbrk` from any state of its own. `State.Inv` says that the heap is in order, with any property of
the lists of blocks that their moves keep, and every step of a program keeps it.
-/

namespace Xv6.Umalloc

open Umalloc.Block FreeList Function Machine

/-! ## The machine -/

/-- A block that `malloc` has returned, with what was asked for. -/
structure Alloc where
  block : Block
  nbytes : ℕ
  deriving DecidableEq

/-- What `malloc` returned. -/
def Alloc.ptr (a : Alloc) : ℕ := a.block.addr + HEADER

structure State (σ : Type) where
  heap : Heap
  env : σ
  live : List Alloc

/-- The calls and writes of a program. The loops run `fuel` rounds at most. -/
inductive Op
  | malloc (fuel nbytes : ℕ)
  | free (fuel p : ℕ)
  | write (x : ℕ) (v : UInt8)

section Machine

variable {σ : Type} (sbrk : ℤ → σ → Option ℕ × σ) (base : ℕ)

/-- A program frees only live blocks, and writes only inside them. -/
def step (s : State σ) : Op → Option (State σ)
  | .malloc fuel nbytes =>
    (malloc sbrk base fuel nbytes s.heap s.env).map fun r =>
      { heap := r.2.1
        env := r.2.2
        live := if r.1 = 0 then s.live else ⟨⟨r.1 - HEADER, units nbytes⟩, nbytes⟩ :: s.live }
  | .free fuel p =>
    match s.live.find? fun a => a.ptr = p with
    | none => none
    | some a =>
      (Umalloc.free fuel p s.heap).map fun h => { s with heap := h, live := s.live.erase a }
  | .write x v =>
    if ∃ a ∈ s.live, a.ptr ≤ x ∧ x < a.block.stop then
      some { s with heap := ⟨update s.heap.mem x v, s.heap.freep⟩ }
    else none

/-- A request is a `uint`, and its size in bytes is an `int`. -/
def Fits (nbytes : ℕ) : Prop := nbytes < 2 ^ 32 ∧ units nbytes * HEADER < 2 ^ 31

/-- Every request fits. -/
def Asks (_ : State σ) : Op → Prop
  | .malloc _ nbytes => Fits nbytes
  | _ => True

/-- A program that has not used its heap. -/
def State.start (m : Ram) (e : σ) : State σ := ⟨⟨m, 0⟩, e, []⟩

end Machine

section Runs

variable {σ : Type} {sbrk : ℤ → σ → Option ℕ × σ} {top : σ → ℕ} {base : ℕ} {s s' : State σ} {o : Op}
  {J : Lists σ → Prop} {nbytes : ℕ}

theorem units_pos (h : Fits nbytes) :
    0 < units nbytes ∧ nbytes + HEADER ≤ HEADER * units nbytes := by
  obtain ⟨h₁, -⟩ := h
  unfold units HEADER
  omega

/-- What holds of the lists of blocks at every time. -/
structure Keeps (sbrk : ℤ → σ → Option ℕ × σ) (J : Lists σ → Prop) : Prop where
  move : ∀ {s s'}, Move sbrk s s' → J s → J s'
  perm : ∀ {nodes live live' e}, live.Perm live' → J ⟨nodes, live, e⟩ → J ⟨nodes, live', e⟩

theorem Keeps.moves (hJ : Keeps sbrk J) {s s' : Lists σ} (hm : Moves sbrk s s') (h : J s) :
    J s' := by
  induction hm with
  | refl => exact h
  | tail _ hmove ih => exact hJ.move hmove ih

/-- The heap of a program, with `J` of its lists. -/
structure State.Inv (top : σ → ℕ) (base : ℕ) (J : Lists σ → Prop) (s : State σ) : Prop where
  ok : ∃ nodes, (ready base s.heap).Ok base (top s.env) nodes (s.live.map Alloc.block) ∧
    J ⟨nodes, s.live.map Alloc.block, s.env⟩
  null : s.heap.freep = 0 → s.live = []
  long : ∀ a ∈ s.live, a.nbytes + HEADER ≤ HEADER * a.block.size

theorem State.Inv.start {m : Ram} {e : σ} (hpos : 0 < base) (hbase : base + HEADER ≤ top e)
    (htop : top e ≤ 2 ^ 64) (hJ : J ⟨[⟨base, 0⟩], [], e⟩) :
    (State.start m e).Inv top base J where
  ok := ⟨_, ok_ready hpos hbase htop rfl, hJ⟩
  null := fun _ => rfl
  long := fun _ h => absurd h List.not_mem_nil

/-- Once there is a live block, there is a list. -/
theorem State.Inv.ok_of_mem (h : s.Inv top base J) {a : Alloc} (ha : a ∈ s.live) :
    ∃ nodes, s.heap.Ok base (top s.env) nodes (s.live.map Alloc.block) ∧
      J ⟨nodes, s.live.map Alloc.block, s.env⟩ := by
  have hne : s.heap.freep ≠ 0 := by
    intro hnull
    rw [h.null hnull] at ha
    exact absurd ha List.not_mem_nil
  obtain ⟨nodes, hok, hJ⟩ := h.ok
  rw [ready, if_neg hne] at hok
  exact ⟨nodes, hok, hJ⟩

theorem State.Inv.malloc {fuel q : ℕ} {h' : Heap} {e' : σ} (hrises : Rises sbrk top)
    (hJ : Keeps sbrk J) (h : s.Inv top base J) (hfits : Fits nbytes)
    (hm : malloc sbrk base fuel nbytes s.heap s.env = some (q, h', e')) :
    State.Inv top base J ⟨h', e', if q = 0 then s.live else
      ⟨⟨q - HEADER, units nbytes⟩, nbytes⟩ :: s.live⟩ := by
  obtain ⟨hpos, hlong⟩ := units_pos hfits
  obtain ⟨nodes, hok, hj⟩ := h.ok
  rw [malloc_eq] at hm
  obtain ⟨nodes', ⟨rfl, hok', hmoves⟩ | ⟨b, rfl, hb, hok', hmoves⟩⟩ :=
    hok.of_search hrises hpos hfits.2 hok.cur hm
  · rw [if_pos rfl]
    refine ⟨⟨nodes', ?_, hJ.moves hmoves hj⟩, fun hnull => absurd hnull hok'.freep_ne_zero, h.long⟩
    rwa [hok'.ready_eq]
  · have hq : b.addr + HEADER ≠ 0 := by
      unfold HEADER
      omega
    have hblock : (⟨b.addr, units nbytes⟩ : Block) = b := by rw [← hb]
    rw [if_neg hq, Nat.add_sub_cancel, hblock]
    refine ⟨⟨nodes', ?_, hJ.moves hmoves hj⟩, fun hnull => absurd hnull hok'.freep_ne_zero,
      List.forall_mem_cons.mpr ⟨?_, h.long⟩⟩
    · rw [hok'.ready_eq]
      exact hok'
    · dsimp only
      rwa [hb]

theorem State.Inv.free {fuel : ℕ} {h' : Heap} {a : Alloc} (hJ : Keeps sbrk J)
    (h : s.Inv top base J) (ha : a ∈ s.live) (hf : Umalloc.free fuel a.ptr s.heap = some h') :
    State.Inv top base J { s with heap := h', live := s.live.erase a } := by
  obtain ⟨nodes, hok, hj⟩ := h.ok_of_mem ha
  have hperm : (s.live.map Alloc.block).Perm (a.block :: (s.live.erase a).map Alloc.block) :=
    (List.perm_cons_erase ha).map Alloc.block
  obtain ⟨l, b, r, rfl, hsep, hok', -⟩ := (hok.perm hperm).of_free hf
  refine ⟨⟨_, ?_, hJ.move (.free hsep) (hJ.perm hperm hj)⟩,
    fun hnull => absurd hnull hok'.freep_ne_zero, fun c hc => h.long c (List.mem_of_mem_erase hc)⟩
  rw [hok'.ready_eq]
  exact hok'

theorem State.Inv.write {x : ℕ} {v : UInt8} {a : Alloc} (h : s.Inv top base J) (ha : a ∈ s.live)
    (hx : a.ptr ≤ x) (hlt : x < a.block.stop) :
    State.Inv top base J { s with heap := ⟨update s.heap.mem x v, s.heap.freep⟩ } := by
  obtain ⟨nodes, hok, hj⟩ := h.ok_of_mem ha
  have hmem : a.block ∈ s.live.map Alloc.block := List.mem_map_of_mem ha
  have hlim : a.block.stop ≤ a.block.lim := stop_le_lim
  -- no header of another block is in the block
  have hout : ∀ c ∈ nodes ++ s.live.map Alloc.block, c.addr + HEADER ≤ x ∨ x < c.addr := by
    have hoff : ∀ c : Block, Off a.block c → c.addr + HEADER ≤ x ∨ x < c.addr := by
      intro c hc
      have := header_le_lim (b := c)
      unfold Off Alloc.ptr at *
      omega
    refine List.forall_mem_append.mpr ⟨fun c hc => hoff c (hok.free _ hmem c hc), fun c hc => ?_⟩
    by_cases hca : c = a.block
    · rw [hca]
      exact .inl hx
    · exact hoff c (hok.off.forall hmem hc (Ne.symm hca))
  have hok' := hok.write (m := update s.heap.mem x v) fun c hc => same_of_bytes fun y hy hylt =>
    update_of_ne (by rcases hout c hc with h | h <;> omega) ..
  refine ⟨⟨nodes, ?_, hj⟩, h.null, h.long⟩
  rw [hok'.ready_eq]
  exact hok'

theorem State.Inv.step (hrises : Rises sbrk top) (hJ : Keeps sbrk J) (h : s.Inv top base J)
    (hask : Asks s o) (hs : step sbrk base s o = some s') : s'.Inv top base J := by
  cases o with
  | malloc fuel nbytes =>
    obtain ⟨⟨q, h', e'⟩, hm, rfl⟩ := Option.map_eq_some_iff.mp hs
    exact h.malloc hrises hJ hask hm
  | free fuel p =>
    rw [Umalloc.step] at hs
    split at hs
    · cases hs
    · rename_i a hfind
      obtain ⟨h', hf, rfl⟩ := Option.map_eq_some_iff.mp hs
      have hp : a.ptr = p := by simpa using List.find?_some hfind
      exact h.free hJ (List.mem_of_find?_eq_some hfind) (hp ▸ hf)
  | write x v =>
    rw [Umalloc.step] at hs
    split at hs
    · rename_i hlive
      obtain ⟨a, ha, hx, hlt⟩ := hlive
      cases hs
      exact h.write ha hx hlt
    · cases hs

end Runs

end Xv6.Umalloc
