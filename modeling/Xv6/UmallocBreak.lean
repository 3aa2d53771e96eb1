import Xv6.ProcSpace
import Xv6.UmallocRuns

/-!
# The heap and the size of the process

`sbrk` of the kernel : `sys_sbrk` returns the old size of the process and `growproc` changes it.
Its parameter is an `int`, and a negative one makes the process smaller, unless it would make the
size negative. `growproc_sbrk` says that this is what `growproc` does.

As long as the bytes that `malloc` asks for are a positive `int`, all memory that it returns is
below the size of the process (`malloc_below_break`). A larger request comes to `sbrk` as a small
or negative number, while the header of the new block has the size that was asked for
(`malloc_above_break`).
-/

namespace Xv6.Umalloc

open Machine Kern Prog Vm

/-- The size of a process. -/
structure Break where
  sz : ℕ
  le : sz ≤ MAXVA

/-- `sys_sbrk`, and what `growproc` does to the size. `room` says whether `uvmalloc` finds the
pages for a size. -/
def sysSbrk (room : ℕ → Bool) (n : ℤ) (b : Break) : Option ℕ × Break :=
  if 0 < n then
    if u64 (b.sz + n) < b.sz then (some b.sz, b)
    else if h : room (u64 (b.sz + n)) = true ∧ u64 (b.sz + n) ≤ MAXVA then
      (some b.sz, ⟨u64 (b.sz + n), h.2⟩)
    else (none, b)
  else if n < 0 then
    if h : b.sz ≤ u64 (b.sz + n) then (some b.sz, b)
    else (some b.sz, ⟨u64 (b.sz + n), Nat.le_of_lt (Nat.lt_of_lt_of_le (Nat.lt_of_not_le h) b.le)⟩)
  else (some b.sz, b)

section Growproc

variable {N NF NO : ℕ} {I : KernelImage} {K : Set ℕ} {k : Kern N NF NO} {q : Fin N} {r t : ℕ}
  {n : ℤ}

/-- `growproc` fails only if it is asked for more. -/
theorem growproc_zero {E : KernPanic → Prop} (h : (k.proc q).Shaped I K k.phys r t) (hn : n ≤ 0) :
    wp E (growproc I q n) (fun x _ => x = 0) k := by
  rw [growproc]
  refine wp_bind.mpr (wp_get.mpr ?_)
  rw [if_neg (by omega)]
  split
  · refine wp_bind.mpr (wp_zoom.mpr ?_)
    rw [h.pagetable]
    exact (uvmdealloc_spec h.space rfl).mono fun _ _ _ => rfl
  · rfl

/-- What `growproc` does to the size is what `sysSbrk` does. -/
theorem growproc_sbrk (h : (k.proc q).Shaped I K k.phys r t) (hlo : -2 ^ 31 ≤ n)
    (hhi : n < 2 ^ 31) (hle : (k.proc q).sz ≤ MAXVA) :
    ∃ x k' room b, growproc I q n k = .ok (x, k') ∧ (k'.proc q).Shaped I K k'.phys r t ∧
      (k'.proc q).sz = b.sz ∧ sysSbrk room n ⟨(k.proc q).sz, hle⟩ =
        (if x < 0 then none else some (k.proc q).sz, b) := by
  have hsmall := h.sz_le
  by_cases hsz : 0 ≤ (k.proc q).sz + n
  · obtain ⟨x, k', hrun, hshape, -, hx⟩ :=
      (growproc_spec (E := fun _ => False) h hhi hsz).returns
    have hu : ((u64 ((k.proc q).sz + n) : ℕ) : ℤ) = (k.proc q).sz + n := by
      unfold u64
      omega
    rcases hx with ⟨rfl, hsz'⟩ | ⟨rfl, hk, -⟩
    · have hsmall' := hshape.sz_le
      have hmax : u64 ((k.proc q).sz + n) ≤ MAXVA := by
        unfold MAXVA
        omega
      have hnew : (k'.proc q).sz = u64 ((k.proc q).sz + n) := by omega
      refine ⟨0, k', fun _ => true, ⟨_, hmax⟩, hrun, hshape, hnew, ?_⟩
      rw [if_neg (by decide), sysSbrk]
      split
      · rw [if_neg (by dsimp only; omega), dif_pos ⟨rfl, hmax⟩]
      · split
        · rw [dif_neg (by dsimp only; omega)]
        · have hn : n = 0 := by omega
          congr 2
          rw [hn, Int.add_zero]
          unfold u64
          omega
    · have hpos : 0 < n := by
        by_contra hn
        have := (growproc_zero (E := fun _ => False) h (by omega)).ok hrun
        omega
      refine ⟨-1, k', fun _ => false, ⟨_, hle⟩, hrun, hshape, by rw [hk], ?_⟩
      rw [sysSbrk, if_pos hpos, if_neg (by dsimp only; omega), dif_neg (by simp)]
      rfl
  · refine ⟨0, k, fun _ => true, ⟨_, hle⟩, growproc_below h hlo (by omega), h, rfl, ?_⟩
    have hu : (k.proc q).sz ≤ u64 ((k.proc q).sz + n) := by
      unfold u64
      omega
    rw [sysSbrk, if_neg (by omega), if_pos (by omega), dif_pos hu]
    rfl

/-- In sixteen pages a process grows from 0 bytes to 1, and `sbrk` returns 0. -/
theorem growproc_sbrk_sixteen : ∃ (k k' : Kern 2 1 1) (room : ℕ → Bool) (b b' : Break),
    growproc sixteenPages 0 1 k = .ok (0, k') ∧ (k.proc 0).sz = b.sz ∧ (k'.proc 0).sz = b'.sz ∧
      sysSbrk room 1 b = (some 0, b') := by
  obtain ⟨k, k', K, r, t, h, hsz, hk'⟩ := growproc_first
  obtain ⟨x, k₂, room, b', hrun, -, hsz', hs⟩ :=
    growproc_sbrk h (n := 1) (by decide) (by decide) (by rw [hsz]; decide)
  cases hk'.symm.trans hrun
  refine ⟨k, k', room, _, b', hk', rfl, hsz', hs.trans ?_⟩
  rw [if_neg (by decide), hsz]

end Growproc

section Below

variable {room : ℕ → Bool} {base nbytes fuel p : ℕ} {m : Ram} {h' : Heap} {b₀ b' : Break}

theorem rises_sysSbrk : Rises (sysSbrk room) Break.sz where
  grant := fun {n e a e'} hn hint hs => by
    have hpos : (0 : ℤ) < (n * HEADER : ℕ) := by
      unfold HEADER
      omega
    have hsz := e.le
    have hu : u64 (e.sz + (n * HEADER : ℕ)) = e.sz + HEADER * n := by
      unfold u64 MAXVA HEADER at *
      omega
    unfold sysSbrk at hs
    rw [if_pos hpos, if_neg (by omega)] at hs
    split at hs
    · rename_i hroom
      cases hs
      exact ⟨Nat.le_refl _, hu.ge, hroom.2.trans (by decide)⟩
    · cases hs
  refuse := fun {n e e'} hs => by
    unfold sysSbrk at hs
    split_ifs at hs
    all_goals cases hs
    rfl

/-- A program whose requests all fit, in a process that began with any size : if `malloc` returns a
pointer, the bytes that were asked for are below the size of the process. -/
theorem malloc_below_break (hpos : 0 < base) (hbase : base + HEADER ≤ b₀.sz)
    {s : State Break} (hr : Reach (step (sysSbrk room) base) Asks (State.start m b₀) s)
    (hfits : Fits nbytes)
    (hm : malloc (sysSbrk room) base fuel nbytes s.heap s.env = some (p, h', b')) (hp : p ≠ 0) :
    p + nbytes ≤ b'.sz := by
  have hkeeps : Keeps (sysSbrk room) fun _ => True := ⟨fun _ _ => trivial, fun _ _ => trivial⟩
  have hinv : s.Inv Break.sz base fun _ => True := by
    have hstart : (State.start m b₀).Inv Break.sz base fun _ => True :=
      .start hpos hbase (b₀.le.trans (by decide)) trivial
    refine hr.invariant hstart fun s o s' h hask hs => ?_
    exact h.step rises_sysSbrk hkeeps hask hs
  have hinv' := hinv.malloc rises_sysSbrk hkeeps hfits hm
  rw [if_neg hp] at hinv'
  obtain ⟨nodes, hok, -⟩ := hinv'.ok
  have hlong := hinv'.long _ List.mem_cons_self
  have hbelow := hok.below ⟨p - HEADER, units nbytes⟩ (by simp)
  have hstop : (⟨p - HEADER, units nbytes⟩ : Block).stop ≤ _ := Block.stop_le_lim
  have hge : base < p - HEADER := hok.base ⟨p - HEADER, units nbytes⟩ (by simp)
  unfold Block.stop at hstop
  dsimp only at hlong hbelow hstop
  omega

/-- A process of four pages asks for one byte. -/
theorem malloc_below_break_once : ∃ p h' b', malloc (sysSbrk fun _ => true) 16 9 1
      (State.start (fun _ => 0) (⟨0x4000, by decide⟩ : Break)).heap
      (State.start (fun _ => 0) (⟨0x4000, by decide⟩ : Break)).env = some (p, h', b') ∧
    p ≠ 0 ∧ p + 1 ≤ b'.sz := by
  have hrun : (malloc (sysSbrk fun _ => true) 16 9 1 ⟨fun _ => 0, 0⟩
      ⟨0x4000, by decide⟩).map Prod.fst = some 0x13ff0 := by decide +kernel
  obtain ⟨⟨p, h', b'⟩, hm, rfl⟩ := Option.map_eq_some_iff.mp hrun
  exact ⟨_, h', b', hm, by decide, malloc_below_break (by decide) (by decide) .refl
    ⟨by decide, by decide⟩ hm (by decide)⟩

/-- A process of four pages asks for `2 ^ 32 - 15` bytes. `sbrk` is called with 16, and `malloc`
returns a block of 16 bytes. -/
theorem malloc_above_break : ∃ p h' b', malloc (sysSbrk fun sz => sz ≤ 2 ^ 27) 16 9 (2 ^ 32 - 15)
      (State.start (fun _ => 0) (⟨0x4000, by decide⟩ : Break)).heap
      (State.start (fun _ => 0) (⟨0x4000, by decide⟩ : Break)).env = some (p, h', b') ∧
    p ≠ 0 ∧ b'.sz < p + (2 ^ 32 - 15) := by
  have hrun : (malloc (sysSbrk fun sz => sz ≤ 2 ^ 27) 16 9 (2 ^ 32 - 15) ⟨fun _ => 0, 0⟩
      ⟨0x4000, by decide⟩).map (fun r => (r.1, r.2.2.sz)) = some (0x4010, 0x4010) := by
    decide +kernel
  obtain ⟨⟨p, h', b'⟩, hm, hpb⟩ := Option.map_eq_some_iff.mp hrun
  obtain ⟨rfl, hb⟩ := Prod.mk.inj hpb
  exact ⟨_, h', b', hm, by decide, by rw [hb]; decide⟩

end Below

end Xv6.Umalloc
