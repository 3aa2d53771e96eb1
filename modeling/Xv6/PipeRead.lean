import Xv6.PipeStream
import Xv6.UserCopy

/-!
# Reading from a pipe into user memory

The loop of `piperead`, with the `copyout` of `vm.c` to the memory of the reader. It runs under
`pi->lock`, so nothing else uses the pipe meanwhile. Each round takes a byte off the ring and
then copies it out. While the user's addresses are mapped for writing, the bytes taken off are
the bytes copied (`piperead_exact`). At the first address that is not, the loop ends with one
byte taken off and not copied (`readLoop_fault`). Its rounds are the steps that `piperead` takes in
`Pipe` (`readLoop_acts`).
-/

namespace Xv6

open Prog Vm

/-- The pipe and the memory. -/
structure PipeMem where
  pi : Pipe
  phys : Phys

namespace PipeMem

/-- `for(i = 0; i < n; i++)` of `piperead`, for `k` rounds at most. -/
def readLoop (pagetable addr : ℕ) (n : ℤ) : (k i : ℕ) → Prog PipeMem VmPanic ℤ
  | 0, i => return i
  | k + 1, i => do
    let s ← get
    if (i : ℤ) < n ∧ ¬ s.pi.Empty then
      let ch := s.pi.data (Ring.slot PIPESIZE s.pi.nread)
      modify fun s => { s with pi := { s.pi with nread := s.pi.nread + 1#32 } }
      let r ← zoom PipeMem.phys (fun t s => { s with phys := t }) id
        (copyout pagetable (u64 (addr + i)) (fun _ => ch) 1)
      if r = -1 then
        return i
      else
        modify fun s => { s with pi := { s.pi with delivered := s.pi.delivered ++ [ch] } }
        readLoop pagetable addr n k (i + 1)
    else
      return i

/-- `piperead` from where it holds the lock. It sleeps, without a result, if the pipe is empty
and may still be written. -/
def piperead (pagetable addr : ℕ) (n : ℤ) (killed : Bool) : Prog PipeMem VmPanic (Option ℤ) := do
  let s ← get
  if s.pi.Empty ∧ s.pi.writeopen then
    return if killed then some (-1) else none
  else
    some <$> readLoop pagetable addr n n.toNat 0

variable {E : VmPanic → Prop} {s : PipeMem} {p addr k i : ℕ} {n : ℤ} {q : List UInt8}

/-- A process at a point of `Pipe` acts, whatever its input. -/
def Acts (x y : Pipe × PipePc) : Prop :=
  ∃ f inp, pipeCode x.2 = .act f ∧ f inp x.1 = some y

/-- The loop takes the steps of `piperead` in `Pipe`, from the test of the loop on. -/
theorem readLoop_acts {pagetable : ℕ} (hk : n ≤ (i + k : ℕ)) :
    wp (fun _ => True) (readLoop pagetable addr n k i) (fun x s' => ∃ j : ℕ, x = j ∧
      Relation.ReflTransGen Acts (s.pi, .read .copy n i) (s'.pi, .read .done n j)) s := by
  have hstop : ∀ {i : ℕ} {s : PipeMem}, ¬ ((i : ℤ) < n ∧ ¬ s.pi.Empty) →
      Acts (s.pi, .read .copy n i) (s.pi, .read .done n i) := fun h =>
    ⟨_, ⟨.piperead n, none, true⟩, rfl, if_neg h⟩
  induction k generalizing s i with
  | zero => exact ⟨i, rfl, .single (hstop fun h => by omega)⟩
  | succ k ih =>
    rw [readLoop]
    refine wp_bind.mpr (wp_get.mpr ?_)
    split
    · rename_i hgo
      -- the byte is taken off, and the `copyout` is the input of the step
      have hget : ∀ ok : Bool, Acts (s.pi, .read .copy n i)
          (s.pi.get ok, if ok then .read .copy n (i + 1) else .read .done n i) := fun ok =>
        ⟨_, ⟨.piperead n, none, ok⟩, rfl, if_pos hgo⟩
      refine wp_bind.mpr (wp_modify.mpr (wp_bind.mpr (wp_zoom.mpr ?_)))
      refine wp.of_forall (fun _ => trivial) fun r t => ?_
      split
      · exact ⟨i, rfl, .single (hget false)⟩
      · refine wp_bind.mpr (wp_modify.mpr ((ih (by omega)).mono fun x s' hx => ?_))
        obtain ⟨j, rfl, hrun⟩ := hx
        exact ⟨j, rfl, .head (hget true) hrun⟩
    · exact ⟨i, rfl, .single (hstop ‹_›)⟩

/-- The unread bytes of the pipe. -/
def Unread (s : PipeMem) (q : List UInt8) : Prop :=
  Ring.Holds PIPESIZE s.pi.data s.pi.nread s.pi.nwrite q

theorem Unread.empty_iff (h : s.Unread q) : s.pi.Empty ↔ q = [] := h.eq_iff_nil PIPESIZE_lt

/-- One byte is delivered where the address is mapped for writing. -/
theorem copyout_byte {t : Phys} {ch : UInt8} (hu : UserPages t.mem p) :
    wp E (copyout (p * PGSIZE) addr (fun _ => ch) 1) (fun x t' =>
      x = 0 ∧ Writable t.mem p addr ∧ Delivered t.mem t'.mem p addr (fun _ => ch) 1 ∨
      x = -1 ∧ ¬ Writable t.mem p addr) t := by
  refine (copyoutLoop_spec (Nat.le_refl 1) (hu.apart fun _ => True) fun _ _ _ =>
    trivial).mono fun x t' h => ?_
  obtain ⟨-, N, -, hall, hd, ⟨hx, rfl⟩ | ⟨hx, hlt, hno⟩⟩ := h
  · exact .inl ⟨hx, hall 0 Nat.one_pos, hd⟩
  · obtain rfl : N = 0 := by omega
    exact .inr ⟨hx, hno⟩

/-- The first `N` rounds, at addresses that are mapped for writing. -/
theorem readLoop_rounds {N : ℕ} {Q : ℤ → PipeMem → Prop} (hq : s.Unread q)
    (hu : UserPages s.phys.mem p) (hN : N ≤ q.length) (hn : ∀ j < N, ((i + j : ℕ) : ℤ) < n)
    (hk : N ≤ k) (hw : ∀ j < N, Writable s.phys.mem p (addr + i + j))
    (hQ : ∀ s', s'.Unread (q.drop N) → UserPages s'.phys.mem p →
      (∀ v, pte s'.phys.mem p v = pte s.phys.mem p v) →
      Delivered s.phys.mem s'.phys.mem p (addr + i) (fun j => q.getD j 0) N →
      wp E (readLoop (p * PGSIZE) addr n (k - N) (i + N)) Q s') :
    wp E (readLoop (p * PGSIZE) addr n k i) Q s := by
  induction N generalizing s q k i with
  | zero => exact hQ s hq hu (fun _ => rfl) .refl
  | succ N ih =>
    obtain ⟨k, rfl⟩ : ∃ k', k = k' + 1 := ⟨k - 1, by omega⟩
    cases q with
    | nil => simp at hN
    | cons ch q =>
      have hw₀ := hw 0 (Nat.succ_pos N)
      rw [Nat.add_zero] at hw₀
      have haddr : u64 (addr + i) = addr + i := by
        have := hw₀.1.1
        unfold MAXVA at this
        unfold u64
        omega
      have hne : ¬ s.pi.Empty := fun he => absurd (hq.empty_iff.mp he) (List.cons_ne_nil ch q)
      rw [readLoop]
      refine wp_bind.mpr (wp_get.mpr ?_)
      rw [if_pos ⟨hn 0 (Nat.succ_pos N), hne⟩]
      refine wp_bind.mpr (wp_modify.mpr (wp_bind.mpr (wp_zoom.mpr ?_)))
      rw [haddr, hq.head]
      refine (copyout_byte hu).mono fun x t h => ?_
      obtain ⟨rfl, -, hd⟩ := h.resolve_right fun h => h.2 hw₀
      rw [if_neg (by decide)]
      refine wp_bind.mpr (wp_modify.mpr ?_)
      have hs := hd.same (hu.apart fun _ => True) (fun _ _ => trivial) fun j hj => by
        obtain rfl : j = 0 := by omega
        exact hw₀.1
      have hpte := pte_same hs
      refine ih (q := q) hq.pop (hu.same hs) (by simpa using hN) (fun j hj => ?_) (by omega)
        (fun j hj => ?_) fun s' hq' hu' hpte' hd' => ?_
      · rw [show i + 1 + j = i + (j + 1) by omega]
        exact hn (j + 1) (by omega)
      · rw [writable_congr hpte, show addr + (i + 1) + j = addr + i + (j + 1) by omega]
        exact hw (j + 1) (by omega)
      · have hk' : k + 1 - (N + 1) = k - N := by omega
        have hQ' := hQ s' hq' hu' (fun v => (hpte' v).trans (hpte v)) ?_
        · rwa [hk', show i + (N + 1) = i + 1 + N by omega] at hQ'
        · have hd₁ : Delivered s.phys.mem t.mem p (addr + i) (fun j => (ch :: q).getD j 0) 1 := by
            refine ⟨fun j hj => ?_, hd.outside⟩
            obtain rfl : j = 0 := by omega
            exact hd.inside 0 hj
          have hrest : (fun j => (ch :: q).getD (1 + j) 0) = fun j => q.getD j 0 := by
            funext j
            rw [Nat.add_comm]
            rfl
          rw [Nat.add_comm N 1]
          refine hd₁.trans ?_ (hu.apart fun _ => True) (fun _ _ => trivial) fun j hj =>
            (hw j (by omega)).1
          rwa [hrest]

theorem readLoop_stop {pagetable : ℕ} {Q : ℤ → PipeMem → Prop} (h : k = 0 ∨ s.pi.Empty)
    (hQ : Q i s) : wp E (readLoop pagetable addr n k i) Q s := by
  cases k with
  | zero => exact hQ
  | succ k =>
    rw [readLoop]
    refine wp_bind.mpr (wp_get.mpr ?_)
    rw [if_neg fun hc => hc.2 (h.resolve_left (Nat.succ_ne_zero k))]
    exact hQ

/-- At the first address that is not mapped for writing a byte is lost. -/
theorem readLoop_fault {N : ℕ} (hq : s.Unread q) (hu : UserPages s.phys.mem p)
    (hN : N < q.length) (hn : ∀ j ≤ N, ((i + j : ℕ) : ℤ) < n) (hk : N < k)
    (hw : ∀ j < N, Writable s.phys.mem p (addr + i + j))
    (hno : ¬ Writable s.phys.mem p (u64 (addr + (i + N : ℕ)))) :
    wp E (readLoop (p * PGSIZE) addr n k i) (fun x s' =>
      x = (i + N : ℕ) ∧ s'.Unread (q.drop (N + 1))) s := by
  refine readLoop_rounds hq hu hN.le (fun j hj => hn j hj.le) hk.le hw fun s' hq' hu' hpte _ => ?_
  obtain ⟨k', hk'⟩ : ∃ k', k - N = k' + 1 := ⟨k - N - 1, by omega⟩
  have hdrop : q.drop N = q[N] :: q.drop (N + 1) := List.drop_eq_getElem_cons hN
  rw [hdrop] at hq'
  rw [hk', readLoop]
  refine wp_bind.mpr (wp_get.mpr ?_)
  rw [if_pos ⟨hn N (Nat.le_refl N), fun he => List.cons_ne_nil _ _ (hq'.empty_iff.mp he)⟩]
  refine wp_bind.mpr (wp_modify.mpr (wp_bind.mpr (wp_zoom.mpr ?_)))
  refine (copyout_byte hu').mono fun x t h => ?_
  obtain ⟨rfl, -⟩ := h.resolve_left fun h => hno ((writable_congr hpte).mp h.2.1)
  rw [if_pos rfl]
  exact ⟨rfl, hq'.pop⟩

/-- **`piperead` takes off the ring what it delivers.** For every pipe, every `n` and every
address, if the user can write at the addresses of the bytes that are there to be read,
`piperead` returns their number, or `n` : these bytes are at the address, the user's other bytes
are as they were, and the other unread bytes are still in the pipe. -/
theorem piperead_exact (hq : s.Unread q) (hu : UserPages s.phys.mem p) (killed : Bool)
    (hstart : ¬ (s.pi.Empty ∧ s.pi.writeopen = true))
    (hw : ∀ j < q.length, (j : ℤ) < n → Writable s.phys.mem p (addr + j)) :
    ∃ N s', piperead (p * PGSIZE) addr n killed s = .ok (some (N : ℕ), s') ∧
      N = min n.toNat q.length ∧ s'.Unread (q.drop N) ∧
      (∀ v, pte s'.phys.mem p v = pte s.phys.mem p v) ∧
      ∀ va, Readable s.phys.mem p va → ubyte s'.phys.mem p va =
        if addr ≤ va ∧ va < addr + N then q.getD (va - addr) 0 else ubyte s.phys.mem p va := by
  have hspec : wp (fun _ => False) (piperead (p * PGSIZE) addr n killed) (fun x s' =>
      x = some ((min n.toNat q.length : ℕ) : ℤ) ∧ s'.Unread (q.drop (min n.toNat q.length)) ∧
      (∀ v, pte s'.phys.mem p v = pte s.phys.mem p v) ∧
      Delivered s.phys.mem s'.phys.mem p addr (fun j => q.getD j 0) (min n.toNat q.length)) s := by
    rw [piperead]
    refine wp_bind.mpr (wp_get.mpr ?_)
    rw [if_neg hstart]
    refine wp_map.mpr (readLoop_rounds (N := min n.toNat q.length) hq hu (Nat.min_le_right ..)
      (fun j hj => by omega) (Nat.min_le_left ..) (fun j hj => ?_) fun s' hq' _ hpte hd => ?_)
    · rw [Nat.add_zero]
      exact hw j (by omega) (by omega)
    · rw [Nat.zero_add]
      refine readLoop_stop ?_ ⟨rfl, hq', hpte, hd⟩
      rcases Nat.le_total n.toNat q.length with hle | hle
      · exact .inl (by omega)
      · exact .inr (hq'.empty_iff.mpr (by rw [Nat.min_eq_right hle, List.drop_length]))
  obtain ⟨x, s', hrun, rfl, hq', hpte, hd⟩ := hspec.returns
  refine ⟨_, s', hrun, rfl, hq', hpte, fun va hva => ?_⟩
  exact hd.reads (fun j hj => (hw j (by omega) (by omega)).1) (hu.apart fun _ => True)
    (fun _ _ => trivial) hva

/-- A pipe with the byte 7 in it. -/
def onePipe : Pipe := { Pipe.alloc (fun _ => 7) with nwrite := 1#32 }

theorem onePipe_unread (t : Phys) : (⟨onePipe, t⟩ : PipeMem).Unread [7] :=
  (Ring.Holds.nil (fun _ => 7) 0#32).advance (by decide) rfl

/-- A byte is read to a page of the user. -/
theorem piperead_exact_one : ∃ t : Phys, UserPages t.mem 0x87ffd ∧ Writable t.mem 0x87ffd 0 ∧
    ∃ N s', piperead (0x87ffd * PGSIZE) 0 1 false ⟨onePipe, t⟩ = .ok (some (N : ℕ), s') ∧
      N = min (1 : ℤ).toNat [(7 : UInt8)].length ∧ s'.Unread ([7].drop N) ∧
      (∀ v, pte s'.phys.mem 0x87ffd v = pte t.mem 0x87ffd v) ∧
      ∀ va, Readable t.mem 0x87ffd va → ubyte s'.phys.mem 0x87ffd va =
        if 0 ≤ va ∧ va < 0 + N then [7].getD (va - 0) 0 else ubyte t.mem 0x87ffd va := by
  obtain ⟨t, hu, hw⟩ := threePhys_user
  have hne : ¬ onePipe.Empty := by decide
  refine ⟨t, hu, hw, piperead_exact (onePipe_unread t) hu false (fun h => hne h.1) ?_⟩
  intro j hj _
  obtain rfl : j = 0 := by simpa using hj
  exact hw

/-- With no page mapped at the address, `piperead` returns 0 and the byte is gone. -/
theorem piperead_loses :
    (⟨onePipe, ⟨fun _ => 0, 0⟩⟩ : PipeMem).Unread [7] ∧
    (piperead (1 * PGSIZE) 0 1 false ⟨onePipe, ⟨fun _ => 0, 0⟩⟩).map
      (fun r => (r.1, decide r.2.pi.Empty)) = .ok (some 0, true) :=
  ⟨onePipe_unread _, by decide +kernel⟩

end PipeMem

end Xv6
