import Xv6.ProcControl
import Xv6.Scan

/-!
# Counting the processes

`count_proc` takes the lock of one slot at a time, and between two slots other processes fork
and wait. It is a `Scan` of the table. The number it returns has been the number of slots in use
at some moment of the call if no slot is freed meanwhile, or none allocated
(`count_proc_linear`). If both happen it need not be (`count_proc_torn`).
-/

set_option linter.unusedSectionVars false

namespace Xv6

open Function

variable {N : ℕ} [NeZero N] {s s' : Procs N} {t u : Fin N}

/-- The number of slots in use. -/
def Procs.inUse (s : Procs N) : ℕ := (Finset.univ.filter fun k => (s.proc k).state ≠ .unused).card

/-- The process is in `count_proc`. -/
def ProcPc.counting : ProcPc N → Bool
  | .count _ _ => true
  | _ => false

theorem ProcPc.counting_iff {pc : ProcPc N} : pc.counting = true ↔ ∃ k c, pc = .count k c := by
  cases pc <;> simp [ProcPc.counting]

/-- The step does not end the call of `count_proc` by `t`. -/
def InCount (t : Fin N) (s : Procs N) (a : ProcLabel N) : Prop :=
  ∀ s', s.step a = some s' → (s'.pc t).counting = true

/-- The step is no `freeproc`. -/
def NoFree (s : Procs N) (a : ProcLabel N) : Prop :=
  ∀ s', s.step a = some s' → ∀ k, (s.proc k).state ≠ .unused → (s'.proc k).state ≠ .unused

/-- The step is no `allocproc`. -/
def NoAlloc (s : Procs N) (a : ProcLabel N) : Prop :=
  ∀ s', s.step a = some s' → ∀ k, (s'.proc k).state ≠ .unused → (s.proc k).state ≠ .unused

instance (t : Fin N) (s : Procs N) (a : ProcLabel N) : Decidable (InCount t s a) :=
  inferInstanceAs (Decidable (∀ s' ∈ s.step a, (s'.pc t).counting = true))

instance (s : Procs N) (a : ProcLabel N) : Decidable (NoFree s a) :=
  inferInstanceAs (Decidable (∀ s' ∈ s.step a, ∀ k, (s.proc k).state ≠ .unused →
    (s'.proc k).state ≠ .unused))

/-- The slot is in use. -/
def Proc.taken (p : Proc N) : Bool := p.state ≠ .unused

/-- The call of `count_proc` by `t` as a scan. -/
def Procs.scan (t : Fin N) (s : Procs N) : Scan N where
  cell k := (s.proc k).taken
  pos := match s.pc t with
    | .count k _ => k
    | _ => 0
  sum := match s.pc t with
    | .count _ c => c
    | _ => 0

theorem scan_count : (s.scan t).count = s.inUse := by
  rw [Procs.inUse, Finset.card_filter]
  refine Finset.sum_congr rfl fun k _ => ?_
  by_cases h : (s.proc k).state = .unused <;> simp [Procs.scan, Proc.taken, h]

theorem scan_of_pc {k c : ℕ} (h : s.pc t = .count k c) :
    s.scan t = ⟨fun j => (s.proc j).taken, k, c⟩ := by
  simp [Procs.scan, h]

/-- A step changes at most one slot. -/
theorem ProcMove.proc_update (hm : ProcMove s t s') :
    ∃ j q, s'.proc = update s.proc j q := by
  cases hm with
  | alloc | build | buildFail | setParent | start | reparent | rewake | wakeParent | reap | kill
  | trace | fault | die | gone | sleep | doze | resume | dispatch | yield => exact ⟨_, _, rfl⟩
  | _ => exact ⟨t, s.proc t, (update_eq_self _ _).symm⟩

/-- A step of `t` in `count_proc` is a look, and a step of another process changes a cell. -/
theorem count_step {a : ProcLabel N} (hc : s.Control) {k c : ℕ} (hpc : s.pc t = .count k c)
    (hs : s.step a = some s') (hin : ∃ k c, s'.pc t = .count k c) :
    (s'.proc = s.proc ∧ (s.scan t).step .look = some (s'.scan t)) ∨
    ∃ j q, s'.proc = update s.proc j q ∧
      (s.scan t).step (.set j q.taken) = some (s'.scan t) := by
  have hset : s'.pc t = s.pc t → ∃ j q, s'.proc = update s.proc j q ∧
      (s.scan t).step (.set j q.taken) = some (s'.scan t) := by
    intro hpc'
    obtain ⟨j, q, hp⟩ := (move_of_step hs).proc_update
    refine ⟨j, q, hp, ?_⟩
    rw [scan_of_pc hpc, scan_of_pc (hpc'.trans hpc), hp]
    simp only [Scan.step, Option.some.injEq, Scan.mk.injEq, and_true]
    funext i
    by_cases hi : i = j
    · subst hi
      simp
    · simp [hi]
  by_cases hat : a.proc = t
  · cases a with
    | run u inp =>
      obtain rfl : u = t := hat
      simp only [Procs.step] at hs
      split at hs
      · simp only [Procs.run, hpc, Procs.countProc] at hs
        split at hs
        · rename_i hk
          refine .inl ?_
          split at hs
          · cases hs
          split at hs
          · rename_i hun
            cases hs
            refine ⟨rfl, ?_⟩
            have hcell : (s.proc ⟨k, hk⟩).taken = false := by simp [Proc.taken, hun]
            rw [scan_of_pc hpc, scan_of_pc (k := k + 1) (c := c) (by simp)]
            simp [Scan.step, hk, hcell]
          · rename_i hun
            cases hs
            refine ⟨rfl, ?_⟩
            have hcell : (s.proc ⟨k, hk⟩).taken = true := by simp [Proc.taken, hun]
            rw [scan_of_pc hpc, scan_of_pc (k := k + 1) (c := c + 1) (by simp)]
            simp [Scan.step, hk, hcell]
        · cases hs
          simp at hin
      · cases hs
    | dispatch u =>
      obtain rfl : u = t := hat
      refine .inr (hset ?_)
      simp only [Procs.step, hpc] at hs
      split at hs
      · simp at hs
        rw [← hs]
        rfl
      · cases hs
    | yield u =>
      obtain rfl : u = t := hat
      refine .inr (hset ?_)
      simp only [Procs.step] at hs
      split at hs <;> cases hs
      rfl
  · refine .inr (hset ?_)
    rcases (move_of_step hs).pc_other hc (Ne.symm hat) with h | ⟨h, -⟩
    · exact h
    · simp [hpc] at h

/-- The path of a call is a path of its scan. -/
theorem scan_path {ok : Procs N → ProcLabel N → Prop} (ok' : Scan N → ScanAct N → Prop)
    (hlook : ∀ s, ok' s .look)
    (hset : ∀ s a s' j q, ok s a → s.step a = some s' → s'.proc = update s.proc j q →
      ok' (s.scan t) (.set j q.taken))
    {l : List (Procs N)} (h : Machine.Path Procs.step (fun s a => InCount t s a ∧ ok s a) s l s')
    (hc : s.Control) (hpc : ∃ k c, s.pc t = .count k c) :
    Machine.Path Scan.step ok' (s.scan t) (l.map (Procs.scan t)) (s'.scan t) ∧
      ∀ u ∈ l, ∃ k c, u.pc t = .count k c := by
  have hI : ∀ s a s', (s.Control ∧ ∃ k c, s.pc t = .count k c) → InCount t s a ∧ ok s a →
      s.step a = some s' → s'.Control ∧ ∃ k c, s'.pc t = .count k c :=
    fun s a s' hi ha hs => ⟨(move_of_step hs).control hi.1,
      ProcPc.counting_iff.mp (ha.1 s' hs)⟩
  refine ⟨h.map (Procs.scan t) hI (fun s a s' hi hi' ha hs => ?_) ⟨hc, hpc⟩,
    fun u hu => (h.forall_mem hI ⟨hc, hpc⟩ u hu).2⟩
  obtain ⟨k, c, hp⟩ := hi.2
  rcases count_step hi.1 hp hs hi'.2 with ⟨-, hlook'⟩ | ⟨j, q, hproc, hstep⟩
  · exact ⟨.look, hlook _, hlook'⟩
  · exact ⟨_, hset s a s' j q ha.2 hs hproc, hstep⟩

/-- `count_proc` has seen all slots when it returns. -/
theorem count_return {inp : ProcInput} {k c : ℕ} {v : CInt} (hpc : s.pc t = .count k c)
    (hs : s.step (.run t inp) = some s') (hv : s'.pc t = .ret v) :
    N ≤ k ∧ v = BitVec.ofNat 32 c := by
  simp only [Procs.step] at hs
  split at hs
  · simp only [Procs.run, hpc, Procs.countProc] at hs
    split at hs
    · (repeat' split at hs) <;> cases hs <;> simp at hv
    · cases hs
      refine ⟨by omega, ?_⟩
      simpa using hv.symm
  · cases hs

/-- If no slot is freed during a call of `count_proc`, or none is allocated, then it returns the
number of slots in use at some moment between the first and the last lock it takes. -/
theorem count_proc_linear {l : List (Procs N)} {s'' : Procs N} {inp : ProcInput} {v : CInt}
    (h₀ : Machine.Reach Procs.step (fun _ _ => True) (Procs.start : Procs N) s)
    (hstart : s.pc t = .count 0 0)
    (h : Machine.Path Procs.step (fun s a => InCount t s a ∧ NoFree s a) s l s' ∨
      Machine.Path Procs.step (fun s a => InCount t s a ∧ NoAlloc s a) s l s')
    (hret : s'.step (.run t inp) = some s'') (hv : s''.pc t = .ret v) :
    ∃ u ∈ l, (∃ k c, u.pc t = .count k c ∧ k < N) ∧ v = BitVec.ofNat 32 u.inUse := by
  have hc := control_reach h₀
  have hN : 0 < N := Nat.pos_of_ne_zero (NeZero.ne N)
  have h0 : s.scan t = ⟨fun j => (s.proc j).taken, 0, 0⟩ := scan_of_pc hstart
  -- what is true of a scan that has counted
  have hres : ∀ {ok : Scan N → ScanAct N → Prop},
      Machine.Path Scan.step ok (s.scan t) (l.map (Procs.scan t)) (s'.scan t) ∧
        (∀ u ∈ l, ∃ k c, u.pc t = .count k c) → s' ∈ l →
      ((s'.scan t).pos = N → ∃ u ∈ l.map (Procs.scan t), u.pos < N ∧ u.count = (s'.scan t).sum) →
      ∃ u ∈ l, (∃ k c, u.pc t = .count k c ∧ k < N) ∧ v = BitVec.ofNat 32 u.inUse := by
    rintro ok ⟨hp, hcount⟩ hmem hfound
    obtain ⟨k, c, hk⟩ := hcount s' hmem
    obtain ⟨hge, rfl⟩ := count_return hk hret hv
    have hle := hp.forall_mem (I := fun s => s.pos ≤ N) (fun _ _ _ hi _ hs => Scan.pos_le hi hs)
      (by rw [h0]; exact Nat.zero_le _) _ hp.last_mem
    rw [scan_of_pc hk] at hle hfound
    obtain ⟨w, hw, hlt, hsum⟩ := hfound (le_antisymm hle hge)
    obtain ⟨u, hu, rfl⟩ := List.mem_map.mp hw
    obtain ⟨k', c', hk'⟩ := hcount u hu
    refine ⟨u, hu, ⟨k', c', hk', ?_⟩, ?_⟩
    · rwa [scan_of_pc hk'] at hlt
    · rw [← scan_count (t := t), hsum]
  rcases h with h | h
  · have hp := scan_path Scan.Rising (fun _ => trivial)
      (fun s a s' j q hok hs hp hcell => ?_) h hc ⟨0, 0, hstart⟩
    · exact hres hp h.last_mem
        (Scan.counted_of_rising hp.1 hN (by rw [h0]) (by rw [h0]))
    · have := hok s' hs j (of_decide_eq_true hcell)
      rw [hp, update_self] at this
      exact decide_eq_true this
  · have hp := scan_path Scan.Falling (fun _ => trivial)
      (fun s a s' j q hok hs hp hcell => ?_) h hc ⟨0, 0, hstart⟩
    · exact hres hp h.last_mem
        (Scan.counted_of_falling hp.1 hN (by rw [h0]) (by rw [h0]))
    · refine decide_eq_true (hok s' hs j ?_)
      rw [hp, update_self]
      exact of_decide_eq_true hcell

/-- `k` steps of process `t`, which makes the call `c` when it is in user space. -/
def steps (t : Fin 4) (k : ℕ) (c : ProcCall) : List (ProcLabel 4) :=
  List.replicate k (.run t { call := c, mem := true, copyout := true })

/-- Init has three children. The second exits and is waited for, the third has exited, and the
first calls `count_proc`. -/
def toCount : List (ProcLabel 4) :=
  [.dispatch 0] ++ steps 0 8 .fork ++ steps 0 9 .fork ++ steps 0 10 .fork ++
    [.dispatch 2] ++ steps 2 14 (.exit 0) ++ steps 0 6 .wait ++
    [.dispatch 3] ++ steps 3 14 (.exit 0) ++ [.dispatch 1] ++ steps 1 1 .countProc

/-- `count_proc` of process 1 returns `v` next. -/
def Procs.counted (s : Procs 4) (v : CInt) : Bool :=
  (s.step (.run 1 { call := .countProc, mem := true, copyout := true })).any fun s' =>
    s'.pc 1 = .ret v

/-- Init forks during the call. -/
theorem count_proc_linear_fork : ∃ s l s', Machine.Reach Procs.step (fun _ _ => True)
      (Procs.start : Procs 4) s ∧
    Machine.Path Procs.step (fun s a => InCount 1 s a ∧ NoFree s a) s l s' ∧
    s.inUse = 3 ∧ s'.inUse = 4 ∧ s'.counted 3 = true ∧
    ∃ u ∈ l, (∃ k c, u.pc 1 = .count k c ∧ k < 4) ∧ 3 = BitVec.ofNat 32 u.inUse := by
  obtain ⟨s, l, s', hr, hp, h⟩ := Machine.exists_path_of_exec Procs.step (fun _ _ => True)
    (fun s a => InCount 1 s a ∧ NoFree s a)
    (fun s _ s' => decide (s.pc 1 = .count 0 0 ∧ s.inUse = 3 ∧ s'.inUse = 4) && s'.counted 3)
    (Procs.start : Procs 4) toCount
    (steps 1 3 .countProc ++ steps 0 9 .fork ++ steps 1 1 .countProc) (by decide +kernel)
  rw [Bool.and_eq_true, decide_eq_true_eq] at h
  obtain ⟨⟨hpc, huse, huse'⟩, hcount⟩ := h
  refine ⟨s, l, s', hr, hp, huse, huse', hcount, ?_⟩
  obtain ⟨s'', hret, hv⟩ := (Option.any_eq_true ..).mp hcount
  exact count_proc_linear hr hpc (.inl hp) hret (of_decide_eq_true hv)

/-- While the child counts, past slot 2, init forks into slot 2 and waits for the child in slot
3. There were always three or four slots in use, and the call returns 2. -/
theorem count_proc_torn : ∃ s l s', Machine.Reach Procs.step (fun _ _ => True)
      (Procs.start : Procs 4) s ∧ s.pc 1 = .count 0 0 ∧
    Machine.Path Procs.step (fun s a => InCount 1 s a) s l s' ∧ s'.counted 2 = true ∧
    ∀ u ∈ l, u.inUse ≠ 2 := by
  obtain ⟨s, l, s', hr, hp, h⟩ := Machine.exists_path_of_exec Procs.step (fun _ _ => True)
    (fun s a => InCount 1 s a) (fun s l s' => decide (s.pc 1 = .count 0 0) && s'.counted 2 &&
      l.all fun u => u.inUse ≠ 2)
    (Procs.start : Procs 4) toCount
    (steps 1 3 .countProc ++ steps 0 9 .fork ++ steps 0 6 .wait ++ steps 1 1 .countProc)
    (by decide +kernel)
  simp only [Bool.and_eq_true, decide_eq_true_eq, List.all_eq_true] at h
  exact ⟨s, l, s', hr, h.1.1, hp, h.1.2, h.2⟩

end Xv6
