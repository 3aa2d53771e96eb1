import Xv6.ProcTree

/-!
# What a slot keeps

A slot of the process table is used again and again. `freeproc` and `allocproc` leave `p->mask`
as it is, so a slot keeps the mask of its last process until `fork` copies that of the parent.
`traced` reads off the history what the mask of a process should be, and in all runs it is that
(`trace_mask`).

Process ids come from a counter that wraps around. They are positive and differ from each other
as long as it has not (`pid_unique`) ; after that they need not be (`pid_wraps`).
-/

set_option linter.unusedSectionVars false

namespace Xv6

variable {N : ℕ} [NeZero N] {s s' : Procs N} {t k : Fin N}

/-- The mask a process should have : the argument of its last `trace`, or what its parent should
have had at the `fork`. -/
def traced : List (ProcEvent N) → ℕ → CInt
  | [], _ => 0
  | .trace p mask :: hist, q => if q = p then mask else traced hist q
  | .fork p np _ :: hist, q => if q = np then traced hist p else traced hist q
  | _ :: hist, q => traced hist q

/-! ## What a step does to a slot -/

/-- A process that is in the slot after a change was there before. -/
def Proc.Stays (p q : Proc N) : Prop :=
  q.state ≠ .unused → p.state ≠ .unused ∧ q.uid = p.uid ∧ q.pid = p.pid ∧ q.mask = p.mask

theorem Proc.Stays.of_woken {p q : Proc N} (hw : p.Woken q) : p.Stays q := by
  refine fun h => ⟨?_, hw.uid, hw.pid, hw.mask⟩
  rcases hw.state with hs | ⟨hs, -⟩
  · rwa [hs] at h
  · simp [hs]

/-- What a step means for the processes in the slots : `allocproc` puts a new one into a slot,
`trace` and `fork` set a mask, and other steps move a process or remove it. -/
inductive SlotMove (s : Procs N) (t : Fin N) (s' : Procs N) : Prop
  | alloc {j i} (hp : s.pc t = .fork (.scan i)) (hu : (s.proc j).state = .unused)
      (h : s' = s.allocAt t j)
  | mask {j q e} (hp : s'.proc = Function.update s.proc j q) (hh : s'.hist = e :: s.hist)
      (hj : (s.proc j).state ≠ .unused) (hu : q.uid = (s.proc j).uid)
      (hx : q.pid = (s.proc j).pid) (hn : s'.nextpid = s.nextpid) (hb : s'.born = s.born)
      (he : (s.pc t = .user ∧ j = t ∧ e = .trace (s.proc t).uid q.mask) ∨
        (s.proc t).state = .running ∧ s.pc t = .fork (.build j) ∧ q.mask = (s.proc t).mask ∧
          e = .fork (s.proc t).uid (s.proc j).uid q.mask)
  | stay {j q} (hp : s'.proc = Function.update s.proc j q) (hq : (s.proc j).Stays q)
      (hh : ∀ p, traced s'.hist p = traced s.hist p) (hn : s'.nextpid = s.nextpid)
      (hb : s'.born = s.born)
      (ht : ∀ k, (s'.proc k).state ≠ .unused → s.pc t = .fork (.build k) →
        s'.pc t = .fork (.build k))

theorem ProcMove.slotMove (hm : ProcMove s t s') (hc : s.Control) : SlotMove s t s' := by
  -- where `t` is, it copies no mask
  have other : ∀ {pc : ProcPc N}, s.pc t = pc → (∀ k, pc ≠ .fork (.build k)) →
      ∀ k, (s'.proc k).state ≠ .unused → s.pc t = .fork (.build k) → s'.pc t = .fork (.build k) :=
    fun hp hne k _ hu => absurd (hp.symm.trans hu) (hne k)
  have same : s'.proc = s.proc → s'.hist = s.hist → s'.nextpid = s.nextpid → s'.born = s.born →
      (∀ k, s.pc t ≠ .fork (.build k)) → SlotMove s t s' := fun hp hh hn hb ht =>
    .stay (j := t) (q := s.proc t) (by simp [hp]) (fun h => ⟨h, rfl, rfl, rfl⟩) (by simp [hh]) hn hb
      (other rfl ht)
  cases hm with
  | alloc hr hp hl hu => exact .alloc hp hu rfl
  | trace hr hp => exact .mask rfl rfl (by simp [hr]) rfl rfl rfl rfl (.inl ⟨hp, rfl, rfl⟩)
  | build hr hp =>
    exact .mask rfl rfl (by simp [hc.child t _ (by rw [hp]; rfl)]) rfl rfl rfl rfl
      (.inr ⟨hr, hp, rfl, rfl⟩)
  | @buildFail np hr hp =>
    refine .stay rfl (fun h => absurd rfl h) (fun _ => rfl) rfl rfl fun k hk hu => ?_
    obtain rfl : np = k := by simpa [hp] using hu
    simp [Proc.free] at hk
  | goto hr hi =>
    refine same rfl rfl rfl rfl fun k hu => ?_
    rw [hu] at hi
    cases hi
  | fault hr hp | sleep hr hp | doze hr hp | die hr hp | resume hr hp =>
    exact .stay rfl (fun _ => ⟨by simp [hr], rfl, rfl, rfl⟩) (fun _ => rfl) rfl rfl
      (other hp (by simp))
  | setParent hr hp | start hr hp =>
    exact .stay rfl (fun _ => ⟨by simp [hc.child t _ (by rw [hp]; rfl)], rfl, rfl, rfl⟩)
      (fun _ => rfl) rfl rfl (other hp (by simp))
  | reparent hr hp | gone hp =>
    exact .stay rfl (fun h => ⟨h, rfl, rfl, rfl⟩) (fun _ => rfl) rfl rfl (other hp (by simp))
  | rewake hr hp _ _ hq | wakeParent hr hp _ _ hq =>
    refine .stay rfl ?_ (fun _ => rfl) rfl rfl (other hp (by simp))
    rw [hq]
    split
    · exact fun h => ⟨h, rfl, rfl, rfl⟩
    · exact .of_woken (Proc.woken_wake _ _)
  | reap hr hp =>
    exact .stay rfl (fun h => absurd rfl h) (fun _ => rfl) rfl rfl (other hp (by simp))
  | kill hr hp =>
    exact .stay rfl (.of_woken (Proc.woken_kill _)) (fun _ => rfl) rfl rfl (other hp (by simp))
  | dispatch hr | yield hr =>
    exact .stay rfl (fun _ => ⟨by simp [hr], rfl, rfl, rfl⟩) (fun _ => rfl) rfl rfl fun _ _ hu => hu
  | _ hr hp => exact same rfl rfl rfl rfl (by simp [hp])

/-! ## The mask -/

/-- A process has the mask it should have, once `fork` has copied it. -/
def Procs.Masked (s : Procs N) : Prop :=
  ∀ k, (s.proc k).state ≠ .unused → (∀ t, s.pc t ≠ .fork (.build k)) →
    (s.proc k).mask = traced s.hist (s.proc k).uid

/-- Whoever copies a mask after the step of `t` did so before. -/
theorem ProcMove.building (hm : ProcMove s t s') (hc : s.Control)
    (ht : s.pc t = .fork (.build k) → s'.pc t = .fork (.build k))
    (hb : ∀ u, s'.pc u ≠ .fork (.build k)) (u : Fin N) : s.pc u ≠ .fork (.build k) := by
  intro hu
  by_cases hut : u = t
  · subst hut
    exact hb u (ht hu)
  · rcases hm.pc_other hc hut with h | ⟨h, -⟩
    · exact hb u (h.trans hu)
    · rw [h] at hu
      cases hu

theorem ProcMove.masked (hm : ProcMove s t s') (hc : s.Control) (he : s.Exits) (h : s.Masked) :
    s'.Masked := by
  intro k hk hb
  cases hm.slotMove hc with
  | @alloc j i hp hu hs =>
    subst hs
    have hkj : k ≠ j := by
      rintro rfl
      exact hb t (by simp [Procs.allocAt])
    have hb' := hm.building hc (by simp [hp]) hb
    simpa [Procs.allocAt, hkj] using h k (by simpa [Procs.allocAt, hkj] using hk) hb'
  | @mask j q e hp hh hj hu _ _ _ hev =>
    rw [hp] at hk ⊢
    rw [hh]
    by_cases hkj : k = j
    · subst hkj
      rw [Function.update_self, hu]
      rcases hev with ⟨-, rfl, rfl⟩ | ⟨hr, hbt, hmask, rfl⟩
      · simp [traced]
      · -- a process that runs is not under construction
        have hrun : ∀ u, s.pc u ≠ .fork (.build t) := fun u hu => by
          have := hc.child u t (by rw [hu]; rfl)
          simp [hr] at this
        simpa [traced, hmask] using h t (by simp [hr]) hrun
    · rw [Function.update_of_ne hkj] at hk ⊢
      have huid : (s.proc k).uid ≠ (s.proc j).uid := fun heq => hkj (he.uid_inj k j hk hj heq)
      rcases hev with ⟨hpt, rfl, rfl⟩ | ⟨-, hbt, -, rfl⟩
      · simpa [traced, huid] using h k hk (hm.building hc (by simp [hpt]) hb)
      · simpa [traced, huid] using h k hk (hm.building hc (by simp [hbt, Ne.symm hkj]) hb)
  | @stay j q hp hq hh _ _ ht =>
    have hb' := hm.building hc (ht k hk) hb
    rw [hh]
    rw [hp] at hk ⊢
    by_cases hkj : k = j
    · subst hkj
      rw [Function.update_self] at hk ⊢
      obtain ⟨hold, huid, -, hmask⟩ := hq hk
      rw [huid, hmask]
      exact h k hold hb'
    · rw [Function.update_of_ne hkj] at hk ⊢
      exact h k hk hb'

theorem masked_reach {ok : Procs N → ProcLabel N → Prop}
    (h : Machine.Reach Procs.step ok Procs.start s) : s.Masked := by
  refine h.invariant_of (fun _ => sane_reach) (fun k hk _ => ?_)
    fun s a s' hs hi _ hstep => (move_of_step hstep).masked hs.control hs.exits hi
  by_cases h0 : k = 0 <;> simp [Procs.start, h0, Proc.zero, traced]

/-- In every state of every run, whatever processes a slot has held before : a process that has
been started has the mask that the calls of `trace` by it and its ancestors give it. -/
theorem trace_mask (h : Machine.Reach Procs.step (fun _ _ => True) (Procs.start : Procs N) s)
    (hl : (s.proc t).Live) : (s.proc t).mask = traced s.hist (s.proc t).uid := by
  refine masked_reach h t (fun hu => by simp [Proc.Live, hu] at hl) fun u hu => ?_
  have := (control_reach h).child u t (by rw [hu]; rfl)
  simp [Proc.Live, this] at hl

/-- Init's first child calls `trace(7)` and exits, and init forks again. -/
def traceAndReuse : List (ProcLabel 2) :=
  let run (t : Fin 2) (k : ℕ) (c : ProcCall) : List (ProcLabel 2) :=
    List.replicate k (.run t { call := c, mem := true, copyout := true })
  [.dispatch 0] ++ run 0 8 .fork ++ [.dispatch 1] ++ run 1 2 (.trace 7) ++ run 1 10 (.exit 0) ++
    run 0 5 .wait ++ run 0 8 .fork

theorem trace_mask_reuse : ∃ s : Procs 2,
    Machine.Reach Procs.step (fun _ _ => True) Procs.start s ∧ .trace 2 7 ∈ s.hist ∧
      (s.proc 1).uid = 3 ∧ (s.proc 1).mask = traced s.hist 3 ∧ traced s.hist 3 = 0 := by
  have hr : Machine.Reach Procs.step (fun _ _ => True) (Procs.start : Procs 2) _ :=
    Machine.reach_of_exec _ (l := traceAndReuse) rfl
  exact ⟨_, hr, by decide, rfl, trace_mask hr (by decide), rfl⟩

/-! ## Process ids -/

/-- A process id is the number of the allocation, as far as an `int` goes. -/
structure Procs.Numbered (s : Procs N) : Prop where
  pos : 0 < s.born
  nextpid : s.nextpid = BitVec.ofNat 32 s.born
  pid : ∀ k, (s.proc k).state ≠ .unused → (s.proc k).pid = BitVec.ofNat 32 (s.proc k).uid
  uid : ∀ k, (s.proc k).state ≠ .unused → 0 < (s.proc k).uid ∧ (s.proc k).uid < s.born

theorem ProcMove.numbered (hm : ProcMove s t s') (hc : s.Control) (h : s.Numbered) :
    s'.Numbered := by
  -- a step that allocates nothing
  have keep : s'.nextpid = s.nextpid → s'.born = s.born →
      (∀ k, (s'.proc k).state ≠ .unused → (s.proc k).state ≠ .unused ∧
        (s'.proc k).uid = (s.proc k).uid ∧ (s'.proc k).pid = (s.proc k).pid) → s'.Numbered := by
    intro hn hb hslot
    refine ⟨hb ▸ h.pos, by rw [hn, hb, h.nextpid], fun k hk => ?_, fun k hk => ?_⟩
    · obtain ⟨hk, huid, hpid⟩ := hslot k hk
      rw [huid, hpid]
      exact h.pid k hk
    · obtain ⟨hk, huid, -⟩ := hslot k hk
      rw [huid, hb]
      exact h.uid k hk
  cases hm.slotMove hc with
  | @alloc j i hp hu hs =>
    subst hs
    refine ⟨Nat.succ_pos _, ?_, fun k hk => ?_, fun k hk => ?_⟩
    · simp only [Procs.allocAt, Procs.goto, Procs.set, h.nextpid, BitVec.ofNat_add]
      rfl
    · by_cases hkj : k = j
      · subst hkj
        simp [Procs.allocAt, Proc.alloc, h.nextpid]
      · simpa [Procs.allocAt, hkj] using h.pid k (by simpa [Procs.allocAt, hkj] using hk)
    · by_cases hkj : k = j
      · subst hkj
        simpa [Procs.allocAt, Proc.alloc] using h.pos
      · have := h.uid k (by simpa [Procs.allocAt, hkj] using hk)
        simp only [Procs.allocAt, Procs.goto_proc, Procs.set_proc, Procs.goto_born,
          Procs.set_born, Function.update_of_ne hkj]
        omega
  | @mask j q e hp _ hj hu hx hn hb =>
    refine keep hn hb fun k hk => ?_
    rw [hp] at hk ⊢
    by_cases hkj : k = j
    · subst hkj
      rw [Function.update_self]
      exact ⟨hj, hu, hx⟩
    · rw [Function.update_of_ne hkj] at hk ⊢
      exact ⟨hk, rfl, rfl⟩
  | @stay j q hp hq _ hn hb =>
    refine keep hn hb fun k hk => ?_
    rw [hp] at hk ⊢
    by_cases hkj : k = j
    · subst hkj
      rw [Function.update_self] at hk ⊢
      exact ⟨(hq hk).1, (hq hk).2.1, (hq hk).2.2.1⟩
    · rw [Function.update_of_ne hkj] at hk ⊢
      exact ⟨hk, rfl, rfl⟩

theorem numbered_reach {ok : Procs N → ProcLabel N → Prop}
    (h : Machine.Reach Procs.step ok Procs.start s) : s.Numbered := by
  refine h.invariant_of (fun _ => control_reach) ⟨Nat.succ_pos _, rfl, fun k hk => ?_,
    fun k hk => ?_⟩ fun s a s' hc hi _ hstep => (move_of_step hstep).numbered hc hi
  · by_cases h0 : k = 0 <;> simp [Procs.start, h0, Proc.zero] at hk ⊢
  · by_cases h0 : k = 0 <;> simp [Procs.start, h0, Proc.zero] at hk ⊢

/-- As long as there have been fewer than `2 ^ 31` calls of `allocpid`, the processes in use have
different process ids, and all of them are positive. -/
theorem pid_unique (h : Machine.Reach Procs.step (fun _ _ => True) (Procs.start : Procs N) s)
    (hb : s.born ≤ 2 ^ 31) :
    (∀ k, (s.proc k).state ≠ .unused → 0 < (s.proc k).pid.toInt) ∧
    ∀ j k, (s.proc j).state ≠ .unused → (s.proc k).state ≠ .unused →
      (s.proc j).pid = (s.proc k).pid → j = k := by
  have hn := numbered_reach h
  have huid : ∀ k, (s.proc k).state ≠ .unused → (s.proc k).pid.toNat = (s.proc k).uid := by
    intro k hk
    have := hn.uid k hk
    rw [hn.pid k hk, BitVec.toNat_ofNat]
    omega
  refine ⟨fun k hk => ?_, fun j k hj hk heq => ?_⟩
  · have := hn.uid k hk
    have := huid k hk
    rw [BitVec.toInt_eq_toNat_cond]
    split <;> omega
  · refine (sane_reach h).exits.uid_inj j k hj hk ?_
    rw [← huid j hj, ← huid k hk, heq]

theorem pid_unique_child : ∃ s : Procs 2,
    Machine.Reach Procs.step (fun _ _ => True) Procs.start s ∧ (s.proc 1).pid.toInt = 2 ∧
      ∀ j k, (s.proc j).state ≠ .unused → (s.proc k).state ≠ .unused →
        (s.proc j).pid = (s.proc k).pid → j = k := by
  have hr : Machine.Reach Procs.step (fun _ _ => True) (Procs.start : Procs 2) _ :=
    Machine.reach_of_exec _ (l := traceAndReuse.take 9) rfl
  exact ⟨_, hr, rfl, (pid_unique hr (by decide)).2⟩

/-- Init runs and its last `fork` has failed, as all before it have. -/
def forksFailed (born uid : ℕ) : Procs 2 where
  proc k := if k = 0 then { Proc.zero with state := .running, pid := 1, uid := 1 }
    else { Proc.zero with uid := uid }
  pc _ := .user
  waitLock := none
  nextpid := BitVec.ofNat 32 born
  born := born
  hist := []

/-- A `fork` that finds no memory takes a process id. -/
theorem forksFailed_succ (born uid : ℕ) : Machine.Reach Procs.step (fun _ _ => True)
    (forksFailed born uid) (forksFailed (born + 1) born) := by
  refine Machine.reach_of_exec _
    (l := List.replicate 5 (.run 0 { call := .fork, mem := false, copyout := true })) ?_
  refine (rfl : _ = some _).trans (congrArg some (Procs.ext (funext fun k => ?_)
    (funext fun k => ?_) rfl (BitVec.ofNat_add ..).symm rfl rfl))
  · match k with
    | 0 => rfl
    | 1 => rfl
  · match k with
    | 0 => rfl
    | 1 => rfl

theorem forksFailed_reach : ∀ n : ℕ, ∃ uid, Machine.Reach Procs.step (fun _ _ => True)
    Procs.start (forksFailed (n + 2) uid)
  | 0 => by
    refine ⟨0, Machine.reach_of_exec _ (l := [.dispatch 0]) ?_⟩
    refine (rfl : _ = some _).trans (congrArg some (Procs.ext (funext fun k => ?_) rfl rfl rfl rfl
      rfl))
    match k with
    | 0 => rfl
    | 1 => rfl
  | n + 1 => by
    obtain ⟨uid, h⟩ := forksFailed_reach n
    exact ⟨_, h.trans (forksFailed_succ _ _)⟩

/-- After `2 ^ 31 - 2` calls of `fork` that failed the next child has a negative process id, and
after `2 ^ 32 - 1` it has that of init. -/
theorem pid_wraps : (∃ s : Procs 2, Machine.Reach Procs.step (fun _ _ => True) Procs.start s ∧
      (s.proc 1).state ≠ .unused ∧ (s.proc 1).pid.toInt < 0) ∧
    ∃ s : Procs 2, Machine.Reach Procs.step (fun _ _ => True) Procs.start s ∧
      (s.proc 0).state ≠ .unused ∧ (s.proc 1).state ≠ .unused ∧
      (s.proc 0).pid = (s.proc 1).pid := by
  have hfork : ∀ n : ℕ, ∃ s : Procs 2, Machine.Reach Procs.step (fun _ _ => True) Procs.start s ∧
      (s.proc 0).state = .running ∧ (s.proc 0).pid = 1 ∧ (s.proc 1).state = .used ∧
      (s.proc 1).pid = BitVec.ofNat 32 (n + 2) := fun n => by
    obtain ⟨uid, h⟩ := forksFailed_reach n
    exact ⟨_, h.trans (Machine.reach_of_exec _
      (l := List.replicate 3 (.run 0 { call := .fork, mem := true, copyout := true })) rfl),
      rfl, rfl, rfl, rfl⟩
  constructor
  · obtain ⟨s, hr, -, -, hu, hp⟩ := hfork (2 ^ 31 - 2)
    exact ⟨s, hr, by simp [hu], by rw [hp]; decide⟩
  · obtain ⟨s, hr, h0, hp0, hu, hp⟩ := hfork (2 ^ 32 - 1)
    exact ⟨s, hr, by simp [h0], by simp [hu], by rw [hp0, hp]; decide⟩

end Xv6
