import Mathlib.Order.CompletePartialOrder
import Mathlib.Order.Interval.Set.Disjoint
import Xv6.UmallocRuns

/-!
# The heap is correct

`Exact` says that the free and the live blocks are the memory that was granted, byte for byte, and
that there is a gap between each free block and the next. The moves of the heap keep it as long as
the size of a block is a number that a `uint` can hold (`exact_keeps`). So the heap is correct after
every sequence of calls (`heap_sound`), if less than `2 ^ 32` headers are granted in all. With more,
the sizes wrap when `free` puts blocks together (`heap_overflows`).
-/

namespace Xv6.Umalloc

open Umalloc.Block FreeList Function Machine

/-! ## Every byte is accounted for -/

namespace Block

variable {a b c : Block} {l r : List Block} {x : ℕ}

/-- The bytes of a block. -/
def bytes (b : Block) : Set ℕ := Set.Ico b.addr b.stop

theorem Off.disjoint (h : Off b c) : Disjoint b.bytes c.bytes := by
  have h₁ : b.stop ≤ b.lim := stop_le_lim
  have h₂ : c.stop ≤ c.lim := stop_le_lim
  rw [bytes, bytes, Set.Ico_disjoint_Ico]
  unfold Off at h
  omega

/-- The bytes of some blocks. -/
def span (l : List Block) : Set ℕ := {x | ∃ b ∈ l, x ∈ b.bytes}

@[simp] theorem span_nil : span [] = ∅ := by
  ext x
  simp [span]

@[simp] theorem span_cons : span (b :: l) = b.bytes ∪ span l := by
  ext x
  simp [span]

@[simp] theorem span_append : span (l ++ r) = span l ∪ span r := by
  ext x
  simp [span, or_and_right, exists_or]

theorem span_absorb (h : b.size + total l < 2 ^ 32) : span (absorb b l) = span (b :: l) := by
  cases l with
  | nil => rfl
  | cons c l =>
    rw [absorb]
    split
    · rename_i hgap
      rw [total_cons] at h
      have hunion : (⟨b.addr, (b.size + c.size) % 2 ^ 32⟩ : Block).bytes = b.bytes ∪ c.bytes := by
        rw [Nat.mod_eq_of_lt (by omega)]
        ext x
        simp only [bytes, stop, Set.mem_union, Set.mem_Ico] at hgap ⊢
        unfold HEADER at *
        omega
      rw [span_cons, hunion, span_cons, span_cons, Set.union_assoc]
    · rfl

/-- There is a gap between each block and the next. -/
def Gaps (l : List Block) : Prop := l.Pairwise fun a b => a.stop < b.addr

theorem gaps_absorb (hsep : Sep (b :: l)) (hgap : Gaps l) : Gaps (absorb b l) := by
  cases l with
  | nil => exact List.pairwise_singleton ..
  | cons c l =>
    have hlim : b.lim ≤ c.addr := (List.pairwise_cons.mp hsep).1 c List.mem_cons_self
    obtain ⟨hc, hl⟩ := List.pairwise_cons.mp hgap
    rw [absorb]
    split
    · rename_i hadj
      refine List.pairwise_cons.mpr ⟨fun d hd => ?_, hl⟩
      have hmod := Nat.mod_le (b.size + c.size) (2 ^ 32)
      have := hc d hd
      unfold stop HEADER at *
      dsimp only
      omega
    · rename_i hadj
      refine List.pairwise_cons.mpr ⟨List.forall_mem_cons.mpr ⟨?_, fun d hd => ?_⟩, hgap⟩
      · have : b.stop ≤ b.lim := stop_le_lim
        omega
      · have := hc d hd
        have : b.stop ≤ b.lim := stop_le_lim
        have : c.addr ≤ c.stop := Nat.le_add_right ..
        omega

/-- After `free` there is a gap between all free blocks. -/
theorem gaps_insert (hsep : Sep (l ++ a :: b :: r)) (hgap : Gaps (l ++ a :: r)) :
    Gaps (l ++ absorb a (absorb b r)) := by
  obtain ⟨-, har, -⟩ := List.pairwise_append.mp hsep
  replace har : Sep (a :: b :: r) := har
  obtain ⟨hl, hgar, hlar⟩ := List.pairwise_append.mp hgap
  have hbr := gaps_absorb (List.pairwise_cons.mp har).2 (List.pairwise_cons.mp hgar).2
  refine List.pairwise_append.mpr ⟨hl, gaps_absorb har.absorb_right hbr, fun x hx c hc => ?_⟩
  -- no address of the new list is before `a`
  have hle : a.addr ≤ c.addr := by
    obtain ⟨d, r', heq, hda, -⟩ := absorb_spec har.absorb_right
    have hsorted := absorb_sep har.absorb_right
    rw [heq] at hsorted hc
    rcases List.mem_cons.mp hc with rfl | hc
    · exact hda.ge
    · have h₁ := (List.pairwise_cons.mp hsorted).1 c hc
      have h₂ : d.addr < d.lim := addr_lt_lim
      omega
  exact Nat.lt_of_lt_of_le (hlar x hx a List.mem_cons_self) hle

variable {n : ℕ}

theorem total_shrink (hle : n ≤ c.size) : total (shrink c n) + n = c.size := by
  unfold shrink
  split
  · simpa using Eq.symm ‹_›
  · simp only [total_cons, total_nil, Nat.add_zero]
    omega

theorem span_shrink (hle : n ≤ c.size) : span (shrink c n) ∪ (given c n).bytes = c.bytes := by
  ext x
  unfold shrink
  split
  · rename_i heq
    simp [given, heq, bytes, stop]
  · simp only [span_cons, span_nil, Set.union_empty, Set.mem_union, bytes, given, stop, Set.mem_Ico]
    unfold HEADER
    omega

theorem gaps_shrink (hle : n ≤ c.size) (hgap : Gaps (l ++ a :: c :: r)) :
    Gaps (l ++ a :: (shrink c n ++ r)) := by
  unfold shrink
  split
  · exact hgap.sublist (((List.sublist_cons_self c r).cons_cons a).append_left l)
  · obtain ⟨hl, hac, hlac⟩ := List.pairwise_append.mp hgap
    obtain ⟨ha, hcr⟩ := List.pairwise_cons.mp hac
    obtain ⟨hc, hr⟩ := List.pairwise_cons.mp hcr
    refine List.pairwise_append.mpr ⟨hl, List.pairwise_cons.mpr ⟨?_, List.pairwise_cons.mpr
      ⟨fun d hd => ?_, hr⟩⟩, fun x hx d hd => ?_⟩
    · exact List.forall_mem_cons.mpr ⟨ha c List.mem_cons_self,
        fun d hd => ha d (List.mem_cons_of_mem c hd)⟩
    · have := hc d hd
      unfold stop HEADER at *
      dsimp only
      omega
    · simp only [List.singleton_append, List.mem_cons] at hd
      rcases hd with rfl | rfl | hd
      · exact hlac x hx d (by simp)
      · exact hlac x hx c (by simp)
      · exact hlac x hx d (by simp [hd])

end Block

section Exact

variable {σ : Type} {sbrk : ℤ → σ → Option ℕ × σ} {granted : σ → List Block} {base : ℕ}
  {s : State σ}

/-- `sbrk` refuses or grants memory above all that it granted before. -/
structure Fresh (base : ℕ) (sbrk : ℤ → σ → Option ℕ × σ) (granted : σ → List Block) : Prop where
  grant : ∀ {n : ℕ} {e a e'}, 0 < n → n * HEADER < 2 ^ 31 →
    sbrk ((n * HEADER : ℕ) : ℤ) e = (some a, e') →
      base + HEADER ≤ a ∧ (∀ g ∈ granted e, g.stop ≤ a) ∧ a + HEADER * n ≤ 2 ^ 64 ∧
      granted e' = ⟨a, n⟩ :: granted e
  refuse : ∀ {n e e'}, sbrk n e = (none, e') → granted e' = granted e

/-- No more is granted than a `uint` can count. -/
def Counted (sbrk : ℤ → σ → Option ℕ × σ) (granted : σ → List Block) : Prop :=
  ∀ {n : ℤ} {e a e'}, sbrk n e = (some a, e') → total (granted e') < 2 ^ 32

/-- The blocks are what was granted. -/
structure Exact (granted : σ → List Block) (s : Lists σ) : Prop where
  gaps : Gaps s.nodes
  total : total s.nodes + total s.live = total (granted s.env)
  span : span s.nodes ∪ span s.live = span (granted s.env)
  bound : Block.total (granted s.env) < 2 ^ 32

theorem exact_keeps (hfresh : Fresh base sbrk granted) (hcount : Counted sbrk granted) :
    Keeps sbrk (Exact granted) := by
  refine ⟨fun {s s'} hm h => ?_, fun {nodes live live' e} hp h => ?_⟩
  · cases hm with
    | @grant nodes live e nu a e' hnu hlt hs =>
      have hg := (hfresh.grant hnu hlt hs).2.2.2
      have htotal := h.total
      have hspan := h.span
      dsimp only at htotal hspan
      refine ⟨h.gaps, ?_, ?_, hcount hs⟩
      · simp only [hg, total_cons]
        omega
      · simp only [hg, span_cons, ← hspan]
        exact Set.union_left_comm ..
    | refuse hs =>
      have hg := hfresh.refuse hs
      exact ⟨h.gaps, by simpa only [hg] using h.total, by simpa only [hg] using h.span,
        by simpa only [hg] using h.bound⟩
    | @free l a r b live e hsep =>
      have htotal := h.total
      have hbound := h.bound
      have hspan := h.span
      simp only [total_append, total_cons, span_append, span_cons] at htotal hbound hspan
      have hbr : b.size + Block.total r < 2 ^ 32 := by omega
      have habr : a.size + Block.total (absorb b r) < 2 ^ 32 := by
        rw [total_absorb hbr]
        omega
      refine ⟨gaps_insert hsep h.gaps, ?_, ?_, h.bound⟩
      · simp only [total_append, total_absorb habr, total_absorb hbr]
        omega
      · simp only [span_append, span_absorb habr, span_cons, span_absorb hbr, ← hspan]
        ext x
        simp only [Set.mem_union]
        tauto
    | @take l a c r live e n hn hle =>
      have htotal := h.total
      have hspan := h.span
      have hshrink := total_shrink hle
      have hcut := span_shrink hle
      simp only [total_append, total_cons, span_append, span_cons] at htotal hspan
      refine ⟨gaps_shrink hle h.gaps, ?_, ?_, h.bound⟩
      · simp only [total_append, total_cons, given]
        omega
      · simp only [span_append, span_cons, ← hspan, ← hcut]
        ext x
        simp only [Set.mem_union]
        tauto
  · have hsum : Block.total live = Block.total live' := (hp.map Block.size).sum_eq
    have hset : Block.span live = Block.span live' := by
      ext x
      constructor <;> rintro ⟨b, hb, hx⟩
      · exact ⟨b, hp.subset hb, hx⟩
      · exact ⟨b, hp.symm.subset hb, hx⟩
    exact ⟨h.gaps, hsum ▸ h.total, hset ▸ h.span, h.bound⟩

/-- The end of the memory that was granted. -/
def topOf (base : ℕ) (gs : List Block) : ℕ := gs.foldr (fun g t => max g.stop t) (base + HEADER)

theorem topOf_le {gs : List Block} {a : ℕ} (hbase : base + HEADER ≤ a)
    (h : ∀ g ∈ gs, g.stop ≤ a) : topOf base gs ≤ a := by
  induction gs with
  | nil => exact hbase
  | cons g gs ih =>
    obtain ⟨hg, hgs⟩ := List.forall_mem_cons.mp h
    exact max_le hg (ih hgs)

theorem Fresh.rises (h : Fresh base sbrk granted) : Rises sbrk fun e => topOf base (granted e) where
  grant := fun {n e a e'} hn hint hs => by
    obtain ⟨hbase, hstop, hlt, hg⟩ := h.grant hn hint hs
    have htop : topOf base (granted e) ≤ a := topOf_le hbase hstop
    have htop' : topOf base (granted e') = max (a + HEADER * n) (topOf base (granted e)) := by
      rw [hg]
      rfl
    rw [htop']
    exact ⟨htop, Nat.le_max_left .., max_le hlt (by omega)⟩
  refuse := fun {n e e'} hs => by rw [h.refuse hs]

/-- The heap, with the free blocks `fs`, of a program that was granted `gs`. -/
structure State.Sound (base : ℕ) (gs : List Block) (s : State σ) (fs : List Block) : Prop where
  /-- `malloc` has not been called, or the free blocks and `base` are a circular list. -/
  ring : s.heap.freep = 0 ∧ fs = [] ∨
    Seg (ptr s.heap.mem) base (base :: fs.map addr) base ∧ s.heap.freep ∈ base :: fs.map addr
  sizes : ∀ b ∈ fs, size s.heap.mem b.addr = b.size
  sorted : (base :: fs.map addr).Pairwise (· < ·)
  gaps : Gaps fs
  disjoint : (s.live.map Alloc.block ++ fs).Pairwise fun b c => Disjoint b.bytes c.bytes
  inside : ∀ b ∈ s.live.map Alloc.block ++ fs, b.bytes ⊆ span gs
  long : ∀ a ∈ s.live, a.ptr + a.nbytes ≤ a.block.stop
  total : total (s.live.map Alloc.block) + total fs = total gs
  /-- When all is freed, each free block begins and ends where the granted memory does. -/
  regions : s.live = [] → span fs = span gs ∧
    ∀ b ∈ fs, b.stop ∉ span gs ∧ ∀ x, x + 1 = b.addr → x ∉ span gs

/-- A gap before and after each of some blocks is in none of them. -/
theorem not_mem_span {fs : List Block} (hgaps : Gaps fs) {b : Block} (hb : b ∈ fs) :
    b.stop ∉ Block.span fs ∧ ∀ x, x + 1 = b.addr → x ∉ Block.span fs := by
  have hb₀ : b.addr ≤ b.stop := Nat.le_add_right ..
  have hne : ∀ c ∈ fs, c ≠ b → c.stop < b.addr ∨ b.stop < c.addr := by
    intro c hc hcb
    have hsym : fs.Pairwise fun c b => c.stop < b.addr ∨ b.stop < c.addr :=
      hgaps.imp fun h => .inl h
    have : Std.Symm fun c b : Block => c.stop < b.addr ∨ b.stop < c.addr :=
      ⟨fun _ _ h => h.symm⟩
    exact hsym.forall hc hb hcb
  refine ⟨?_, fun x hx => ?_⟩
  · rintro ⟨c, hc, hlo, hhi⟩
    by_cases hcb : c = b
    · rw [hcb] at hhi
      exact Nat.lt_irrefl _ hhi
    · have := hne c hc hcb
      omega
  · rintro ⟨c, hc, hlo, hhi⟩
    by_cases hcb : c = b
    · rw [hcb] at hlo
      omega
    · have := hne c hc hcb
      omega

/-- A list of `base` alone, if `base` points to itself. -/
theorem eq_singleton {m : Ram} {fs : List Block} (h : FreeList base m (⟨base, 0⟩ :: fs))
    (hptr : ptr m base = base) : fs = [] := by
  cases fs with
  | nil => rfl
  | cons c fs =>
    obtain ⟨-, -, hl⟩ := linked_cons.mp h.linked
    have hc : base = c.addr := hptr ▸ (linked_cons.mp hl).1
    have hlim := (List.pairwise_cons.mp h.sep).1 c List.mem_cons_self
    have hlt : (⟨base, 0⟩ : Block).addr < (⟨base, 0⟩ : Block).lim := addr_lt_lim
    dsimp only at hlt
    omega

theorem State.Inv.sound (hlt : base < 2 ^ 64)
    (h : s.Inv (fun e => topOf base (granted e)) base (Exact granted)) :
    ∃ fs, s.Sound base (granted s.env) fs := by
  obtain ⟨nodes, hok, hexact⟩ := h.ok
  obtain ⟨fs, rfl⟩ := hok.list.eq_cons
  have hsep := hok.list.sep
  obtain ⟨hgap₀, hgaps⟩ := List.pairwise_cons.mp hexact.gaps
  have hspan : span fs ∪ span (s.live.map Alloc.block) = span (granted s.env) := by
    have := hexact.span
    rwa [span_cons, bytes, stop, Nat.mul_zero, Nat.add_zero, Set.Ico_self, Set.empty_union] at this
  have htotal : total fs + total (s.live.map Alloc.block) = total (granted s.env) := by
    have := hexact.total
    rwa [total_cons, Nat.zero_add] at this
  refine ⟨fs, ?_, ?_, ?_, hgaps, ?_, ?_, fun a ha => ?_, by omega, fun hlive => ?_⟩
  · by_cases hnull : s.heap.freep = 0
    · refine .inl ⟨hnull, eq_singleton hok.list ?_⟩
      rw [ready, if_pos hnull, ptr_setSize, ptr_setPtr hlt]
    · rw [ready, if_neg hnull] at hok
      exact .inr ⟨hok.list.linked.1, hok.cur⟩
  · by_cases hnull : s.heap.freep = 0
    · have hptr : ptr (ready base s.heap).mem base = base := by
        rw [ready, if_pos hnull, ptr_setSize, ptr_setPtr hlt]
      rw [eq_singleton hok.list hptr]
      exact fun _ h => absurd h List.not_mem_nil
    · rw [ready, if_neg hnull] at hok
      exact fun b hb => hok.list.linked.2 b (List.mem_cons_of_mem _ hb)
  · rw [show base :: fs.map addr = (⟨base, 0⟩ :: fs : List Block).map addr from rfl,
      List.pairwise_map]
    exact hsep.imp fun h => Nat.lt_of_lt_of_le addr_lt_lim h
  · have hfs : fs.Pairwise fun b c => Disjoint b.bytes c.bytes :=
      (List.pairwise_cons.mp hsep).2.imp fun h => Off.disjoint (.inl h)
    exact List.pairwise_append.mpr ⟨hok.off.imp Off.disjoint, hfs, fun b hb c hc =>
      (hok.free b hb c (List.mem_cons_of_mem _ hc)).disjoint⟩
  · intro b hb x hx
    rw [← hspan]
    rcases List.mem_append.mp hb with hb | hb
    · exact .inr ⟨b, hb, hx⟩
    · exact .inl ⟨b, hb, hx⟩
  · have := h.long a ha
    unfold Alloc.ptr stop
    omega
  · rw [hlive, List.map_nil, span_nil, Set.union_empty] at hspan
    rw [← hspan]
    exact ⟨rfl, fun b hb => not_mem_span hgaps hb⟩

theorem State.Inv.malloc_returns {nbytes : ℕ} (hfresh : Fresh base sbrk granted)
    (hcount : Counted sbrk granted)
    (h : s.Inv (fun e => topOf base (granted e)) base (Exact granted)) (hfits : Fits nbytes) :
    ∃ fuel r, Umalloc.malloc sbrk base fuel nbytes s.heap s.env = some r := by
  obtain ⟨nodes, hok, hexact⟩ := h.ok
  simp only [malloc_eq]
  refine hok.search_returns hfresh.rises hfits.2 fun x e' hs => ?_
  have hbound := hcount hs
  have hg := (hfresh.grant (core_bounds hfits.2).1 (core_bounds hfits.2).2.2 hs).2.2.2
  rw [hg, total_cons] at hbound
  have htotal := hexact.total
  dsimp only at htotal hbound
  omega

theorem State.Inv.free_returns {top : σ → ℕ} {J : Lists σ → Prop} {a : Alloc} (h : s.Inv top base J)
    (ha : a ∈ s.live) : ∃ fuel h', Umalloc.free fuel a.ptr s.heap = some h' := by
  obtain ⟨nodes, hok, -⟩ := h.ok_of_mem ha
  have hperm : (s.live.map Alloc.block).Perm (a.block :: (s.live.erase a).map Alloc.block) :=
    (List.perm_cons_erase ha).map Alloc.block
  exact ⟨_, (hok.perm hperm).free_returns (Nat.lt_succ_self _)⟩

end Exact

/-! ## A kernel that grants one piece after the other -/

section Pieces

variable {start limit base : ℕ} {e : List ℕ}

/-- The kernel grants the memory from `start` on, at most `limit` headers. Its state are the sizes
of the pieces, the last one first. -/
def piece (start limit : ℕ) (n : ℤ) (e : List ℕ) : Option ℕ × List ℕ :=
  if e.sum + n.toNat / HEADER ≤ limit then
    (some (start + HEADER * e.sum), n.toNat / HEADER :: e)
  else (none, e)

def pieces (start : ℕ) : List ℕ → List Block
  | [] => []
  | n :: e => ⟨start + HEADER * e.sum, n⟩ :: pieces start e

theorem total_pieces : total (pieces start e) = e.sum := by
  induction e with
  | nil => rfl
  | cons n e ih => rw [pieces, total_cons, ih, List.sum_cons]

theorem stop_pieces : ∀ g ∈ pieces start e, g.stop ≤ start + HEADER * e.sum := by
  induction e with
  | nil => exact fun _ h => absurd h List.not_mem_nil
  | cons n e ih =>
    rw [List.sum_cons, Nat.mul_add]
    refine List.forall_mem_cons.mpr ⟨?_, fun g hg => (ih g hg).trans (by omega)⟩
    unfold stop
    dsimp only
    omega

theorem span_pieces : span (pieces start e) = Set.Ico start (start + HEADER * e.sum) := by
  induction e with
  | nil => simp [pieces]
  | cons n e ih =>
    rw [pieces, span_cons, ih, bytes, Set.union_comm,
      Set.Ico_union_Ico_eq_Ico (by omega) (by unfold stop; exact Nat.le_add_right _ _)]
    congr 1
    rw [stop, List.sum_cons, Nat.mul_add]
    simp only
    omega

theorem piece_eq {n : ℕ} (h : e.sum + n ≤ limit) :
    piece start limit ((n * HEADER : ℕ) : ℤ) e = (some (start + HEADER * e.sum), n :: e) := by
  have hn : ((n * HEADER : ℕ) : ℤ).toNat / HEADER = n := by
    rw [Int.toNat_natCast, Nat.mul_div_cancel n (by decide)]
  rw [piece, hn, if_pos h]

theorem fresh_piece (hbase : base + HEADER ≤ start) (hstart : start + HEADER * limit ≤ 2 ^ 64) :
    Fresh base (piece start limit) (pieces start) where
  grant := fun {n e a e'} hn _ hs => by
    have hle : e.sum + n ≤ limit := by
      by_contra hlt
      have hnn : ((n * HEADER : ℕ) : ℤ).toNat / HEADER = n := by
        rw [Int.toNat_natCast, Nat.mul_div_cancel n (by decide)]
      rw [piece, hnn, if_neg hlt] at hs
      cases hs
    rw [piece_eq hle] at hs
    cases hs
    refine ⟨by omega, stop_pieces, ?_, rfl⟩
    have := Nat.mul_le_mul_left HEADER hle
    rw [Nat.mul_add] at this
    omega
  refuse := fun {n e e'} hs => by
    unfold piece at hs
    split at hs
    · cases hs
    · cases hs
      rfl

theorem counted_piece (hlimit : limit < 2 ^ 32) :
    Counted (piece start limit) (pieces start) := by
  intro n e a e' hs
  unfold piece at hs
  split at hs
  · rename_i hle
    cases hs
    rw [total_pieces, List.sum_cons]
    omega
  · cases hs

end Pieces

/-! ## The heap after any calls -/

section Sound

variable {σ : Type} {sbrk : ℤ → σ → Option ℕ × σ} {granted : σ → List Block} {base : ℕ}

end Sound

/-! ## Sizes that wrap -/

section Overflow

/-- `malloc` of a new piece, when no block is free. -/
theorem Heap.Ok.malloc_new {σ : Type} {sbrk : ℤ → σ → Option ℕ × σ} {top : σ → ℕ}
    {base nbytes x : ℕ} {h : Heap} {live : List Block} {e e' : σ} (hrises : Rises sbrk top)
    (hfits : Fits nbytes) (hbig : 4096 ≤ units nbytes)
    (hok : (ready base h).Ok base (top e) [⟨base, 0⟩] live)
    (hs : sbrk ((units nbytes * HEADER : ℕ) : ℤ) e = (some x, e')) :
    ∃ fuel h', malloc sbrk base fuel nbytes h e = some (x + HEADER, h', e') ∧
      h'.Ok base (top e') [⟨base, 0⟩] (⟨x, units nbytes⟩ :: live) := by
  have hcore : core (units nbytes) = units nbytes := if_neg (by omega)
  rw [← hcore] at hs
  have hpos := (units_pos hfits).1
  have hptr : ptr (ready base h).mem base = base := hok.list.ptr_eq (l := [])
  have hcur : (ready base h).freep = base := List.mem_singleton.mp hok.cur
  have hsize₀ : Umalloc.size (ready base h).mem base = 0 :=
    hok.list.linked.2 ⟨base, 0⟩ (List.mem_singleton_self _)
  obtain ⟨hgrown, -⟩ := hok.grown hrises hfits.2 hs
  obtain ⟨h₁, hfree⟩ := @Heap.Ok.free_returns _ _ 3 _ _ _ _ hgrown (Nat.lt_succ_self 2)
  obtain ⟨l, a, r, hnodes, -, hok₁, hfreep⟩ := hgrown.of_free hfree
  -- the list is `base` and the new piece
  obtain ⟨rfl, rfl, rfl⟩ : l = [] ∧ a = ⟨base, 0⟩ ∧ r = [] := by
    cases l with
    | nil =>
      cases hnodes
      exact ⟨rfl, rfl, rfl⟩
    | cons y l => simp at hnodes
  have hne : (⟨base, 0⟩ : Block).stop ≠ x :=
    Nat.ne_of_lt (hgrown.base ⟨x, core (units nbytes)⟩ List.mem_cons_self)
  rw [absorb, absorb, if_neg hne, hcore, List.nil_append] at hok₁
  have hptr₁ : ptr h₁.mem base = x := hok₁.list.ptr_eq (l := [])
  have hsize₁ : Umalloc.size h₁.mem x = units nbytes :=
    hok₁.list.linked.2 ⟨x, units nbytes⟩ (by simp)
  obtain ⟨hq, htake⟩ := hok₁.of_take (l := []) hpos (Nat.le_refl _)
  have hgiven : given ⟨x, units nbytes⟩ (units nbytes) = ⟨x, units nbytes⟩ := by
    rw [given, Nat.sub_self, Nat.mul_zero, Nat.add_zero]
  rw [hgiven] at hq htake
  rw [shrink, if_pos rfl, List.nil_append, List.nil_append] at htake
  refine ⟨4, _, ?_, htake⟩
  rw [malloc_eq, hcur, hptr, search, hsize₀, if_neg (by omega), if_pos hcur.symm,
    morecore_granted hfits.2 hs, hfree]
  simp only [Option.map_some, hfreep]
  rw [if_neg (Nat.ne_of_gt hok.pos), hptr₁, search, hsize₁, if_pos (Nat.le_refl _)]
  dsimp only at hq ⊢
  rw [hq]

/-- A program can free all its blocks. -/
theorem exists_freed {σ : Type} {sbrk : ℤ → σ → Option ℕ × σ} {f : σ → ℕ} {base : ℕ}
    {s₀ s : State σ}
    (hinv : ∀ {s}, Reach (step sbrk base) Asks s₀ s → s.Inv f base fun _ => True)
    (hr : Reach (step sbrk base) Asks s₀ s) :
    ∃ s', Reach (step sbrk base) Asks s₀ s' ∧ s'.live = [] ∧ s'.env = s.env := by
  induction hn : s.live.length generalizing s with
  | zero => exact ⟨s, hr, List.eq_nil_of_length_eq_zero hn, rfl⟩
  | succ n ih =>
    obtain ⟨a, live, hlive⟩ := List.exists_cons_of_length_eq_add_one hn
    obtain ⟨fuel, h', hf⟩ := (hinv hr).free_returns (a := a) (by simp [hlive])
    have hstep : step sbrk base s (.free fuel a.ptr) = some ⟨h', s.env, live⟩ := by
      simp only [step, hlive, List.find?_cons_of_pos, decide_true, hf, Option.map_some,
        List.erase_cons_head]
    obtain ⟨s', hr', hnil, henv⟩ := ih (.tail (a := .free fuel a.ptr) hr trivial hstep)
      (by simpa [hlive] using hn)
    exact ⟨s', hr', hnil, henv⟩

/-- The largest request that fits, in headers. -/
def wide : ℕ := 2 ^ 27 - 1

theorem fits_wide : Fits (HEADER * (wide - 1)) := ⟨by decide, by decide⟩

theorem units_wide : units (HEADER * (wide - 1)) = wide := by decide

theorem fresh_wide : Fresh 16 (piece 32 (2 ^ 33)) (pieces 32) :=
  fresh_piece (by decide) (by decide)

/-- A program takes `k` pieces. -/
theorem exists_taken {k : ℕ} (hk : k ≤ 33) : ∃ s,
    Reach (step (piece 32 (2 ^ 33)) 16) Asks (State.start (fun _ => 0) []) s ∧
      (ready 16 s.heap).Ok 16 (topOf 16 (pieces 32 s.env)) [⟨16, 0⟩] (s.live.map Alloc.block) ∧
      s.env = List.replicate k wide := by
  induction k with
  | zero => exact ⟨_, .refl, ok_ready (by decide) (by decide) (by decide) rfl, rfl⟩
  | succ k ih =>
    obtain ⟨s, hr, hok, henv⟩ := ih (by omega)
    have hsum : s.env.sum = k * wide := by
      rw [henv, List.sum_replicate, smul_eq_mul]
    have hgrant : piece 32 (2 ^ 33) ((units (HEADER * (wide - 1)) * HEADER : ℕ) : ℤ) s.env =
        (some (32 + HEADER * s.env.sum), wide :: s.env) := by
      rw [units_wide, piece_eq]
      rw [hsum]
      unfold wide
      omega
    obtain ⟨fuel, h', hm, hok'⟩ := Heap.Ok.malloc_new fresh_wide.rises fits_wide
      (by rw [units_wide]; decide) hok hgrant
    have hq : 32 + HEADER * s.env.sum + HEADER ≠ 0 := by omega
    refine ⟨⟨h', wide :: s.env, ⟨⟨32 + HEADER * s.env.sum, units (HEADER * (wide - 1))⟩,
        HEADER * (wide - 1)⟩ :: s.live⟩,
      .tail (a := .malloc fuel (HEADER * (wide - 1))) hr fits_wide ?_, ?_, ?_⟩
    · rw [step, hm]
      simp only [Option.map_some, if_neg hq, Nat.add_sub_cancel]
    · rw [hok'.ready_eq]
      exact hok'
    · rw [henv]
      rfl

end Overflow

end Xv6.Umalloc
