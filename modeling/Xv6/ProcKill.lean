import Xv6.ProcControl

/-!
# What `kill` hits

`kill(pid)` scans the table for a slot with that process id, and a free slot has process id
0. So `kill(0)` finds the first free slot, marks it and returns 0. `allocproc` leaves
`p->killed` as it is, and the next process in that slot is born killed
(`fork_born_killed`).

The condition `SparesUnused` on a step excludes exactly the match of a free slot. In every
run whose steps meet it, `kill` returns 0 only for a process in use and touches no other
slot, and a process that `fork` makes `RUNNABLE` has been killed only by a `kill` that named
it after its allocation (`kill_hits_target`). The history names processes by the number of
their allocation, so an event about a process is later than its `allocproc`.

Init has process id 1 and nothing protects it : whoever calls `kill(1)` makes init exit at its
next trap, and `exit` panics (`init_killed`). Nothing else makes it exit (`init_stays`).
-/

set_option linter.unusedSectionVars false

namespace Xv6

variable {N : ℕ} [NeZero N] {s s' : Procs N} {t : Fin N} {inp : ProcInput}

/-- The process is at a free slot in `kill`'s scan, and takes it for the one it looks for. -/
def Procs.matchesUnused (s : Procs N) : ProcPc N → Bool
  | .kill pid k =>
    if h : k < N then (s.proc ⟨k, h⟩).state = .unused ∧ (s.proc ⟨k, h⟩).pid = pid else false
  | _ => false

/-- The step is not a `kill` that matches a free slot. -/
def SparesUnused (s : Procs N) (a : ProcLabel N) : Prop :=
  s.matchesUnused (s.pc a.proc) = false

instance (s : Procs N) (a : ProcLabel N) : Decidable (SparesUnused s a) :=
  inferInstanceAs (Decidable (_ = _))

/-- Nobody has killed the process, unless the history says so. -/
def Proc.Unhurt (hist : List (ProcEvent N)) (p : Proc N) : Prop :=
  (p.state = .unused → p.killed = false) ∧
    (p.state = .used → p.killed = true → .kill p.uid p.pid ∈ hist)

/-- A process that has been started may have been killed in any way. -/
theorem Proc.Unhurt.of_started {hist : List (ProcEvent N)} {p : Proc N}
    (hu : p.state ≠ .unused) (he : p.state ≠ .used) : p.Unhurt hist :=
  ⟨fun h => absurd h hu, fun h => absurd h he⟩

theorem Proc.Unhurt.of_killed_eq {hist hist' : List (ProcEvent N)} {p p' : Proc N}
    (h : p.Unhurt hist) (hh : hist ⊆ hist') (hs : p'.state = p.state)
    (hk : p'.killed = p.killed) (hu : p'.uid = p.uid) (hp : p'.pid = p.pid) :
    p'.Unhurt hist' := by
  refine ⟨fun hst => ?_, fun hst hx => ?_⟩
  · rw [hk]
    exact h.1 (hs ▸ hst)
  · rw [hu, hp]
    exact hh (h.2 (hs ▸ hst) (hk ▸ hx))

theorem unhurt_update {j : Fin N} {q : Proc N} {hist' : List (ProcEvent N)}
    (h : ∀ k, (s.proc k).Unhurt s.hist) (hh : s.hist ⊆ hist') (hq : q.Unhurt hist')
    (k : Fin N) : (Function.update s.proc j q k).Unhurt hist' := by
  by_cases hk : k = j
  · subst hk
    simpa using hq
  · simpa [hk] using (h k).of_killed_eq hh rfl rfl rfl rfl

/-- A step that does not take a free slot for a process keeps the embryos unhurt. -/
theorem ProcMove.unhurt (hm : ProcMove s t s') (hc : s.Control)
    (hsp : s.matchesUnused (s.pc t) = false) (h : ∀ k, (s.proc k).Unhurt s.hist) :
    ∀ k, (s'.proc k).Unhurt s'.hist := by
  have hr : ∀ {p : Proc N} {hist}, p.state = .running → p.Unhurt hist := fun hs =>
    .of_started (by simp [hs]) (by simp [hs])
  cases hm with
  | @alloc j k hr hp hl hu =>
    refine unhurt_update h (List.Subset.refl _) ⟨by rintro ⟨⟩, fun _ hx => ?_⟩
    rw [Proc.alloc, (h j).1 hu] at hx
    cases hx
  | @build np _ _ =>
    exact unhurt_update h (List.subset_cons_self _ _)
      ((h np).of_killed_eq (List.subset_cons_self _ _) rfl rfl rfl rfl)
  | buildFail | reap =>
    refine unhurt_update h ?_ ⟨fun _ => rfl, by rintro ⟨⟩⟩
    simp
  | @setParent np _ _ _ | @reparent np _ _ _ _ _ _ =>
    exact unhurt_update h (List.Subset.refl _)
      ((h np).of_killed_eq (List.Subset.refl _) rfl rfl rfl rfl)
  | start =>
    exact unhurt_update h (List.Subset.refl _) (.of_started (by simp) (by simp))
  | @rewake j _ _ _ q _ _ _ _ hq | @wakeParent j _ _ q _ _ _ _ hq =>
    refine unhurt_update h (List.Subset.refl _) ?_
    rw [hq]
    split
    · exact h j
    · have hw := (s.proc j).woken_wake
      rcases (hw _).state with hs | ⟨-, hs⟩
      · exact (h j).of_killed_eq (List.Subset.refl _) hs (by simp) (hw _).uid (hw _).pid
      · exact .of_started (by simp [hs]) (by simp [hs])
  | @kill j k pid hr hp hj hl hx =>
    refine unhurt_update h (List.subset_cons_self _ _) ?_
    subst hj
    have hun : (s.proc j).state ≠ .unused := fun hun => by
      simp [hp, Procs.matchesUnused, hun, hx] at hsp
    rcases (s.proc j).woken_kill.state with hs | ⟨-, hs⟩
    · refine ⟨fun hst => absurd (hs ▸ hst) hun, fun _ _ => ?_⟩
      simp [Proc.kill, hx]
    · exact .of_started (by simp [hs]) (by simp [hs])
  | trace hr' => exact unhurt_update h (List.subset_cons_self _ _) (hr hr')
  | die => exact unhurt_update h (List.subset_cons_self _ _) (.of_started (by simp) (by simp))
  | gone hp =>
    have hat := hc.pcAt t
    refine unhurt_update h (List.Subset.refl _) (.of_started ?_ ?_) <;>
    · intro hs
      rw [show (s.proc t).state = _ from hs] at hat
      simp [hp, ProcState.At] at hat
  | fault hr' | sleep hr' => exact unhurt_update h (List.Subset.refl _) (hr hr')
  | doze | resume | dispatch | yield =>
    exact unhurt_update h (List.Subset.refl _) (.of_started (by simp) (by simp))
  | _ => exact h

theorem unhurt_reach (h : Machine.Reach Procs.step SparesUnused (Procs.start : Procs N) s) :
    ∀ k, (s.proc k).Unhurt s.hist := by
  refine h.invariant_of (fun _ => control_reach) (fun k => ?_)
    fun s a s' hc hi hok hs => (move_of_step hs).unhurt hc hok hi
  by_cases h0 : k = 0 <;> simp [Proc.Unhurt, Procs.start, h0, Proc.zero]

/-- A turn of `kill`'s loop either marks the slot it is at and returns 0, or changes no
slot and does not return 0. -/
theorem kill_step {pid : CInt} {k : ℕ} (hp : s.pc t = .kill pid k)
    (hs : s.step (.run t inp) = some s') :
    (s'.pc t = .ret 0 ∧ ∃ j, j.val = k ∧ (s.proc j).pid = pid ∧
      s'.proc = Function.update s.proc j (s.proc j).kill) ∨
    (s'.pc t ≠ .ret 0 ∧ s'.proc = s.proc) := by
  simp only [Procs.step] at hs
  split at hs
  case isFalse => cases hs
  simp only [Procs.run, hp, Procs.kill] at hs
  split at hs
  · rename_i hk
    split at hs
    · cases hs
    split at hs <;> cases hs
    · exact .inl ⟨by simp, ⟨k, hk⟩, rfl, ‹_›, rfl⟩
    · exact .inr ⟨by simp, rfl⟩
  · cases hs
    exact .inr ⟨by simp, rfl⟩

/-- `fork`'s last step makes its child `RUNNABLE` and leaves the rest of its slot alone. -/
theorem start_step {np : Fin N} {pid : CInt} (hp : s.pc t = .fork (.start np pid))
    (hs : s.step (.run t inp) = some s') :
    s'.proc np = { s.proc np with state := .runnable } ∧ s'.hist = s.hist := by
  simp only [Procs.step] at hs
  split at hs
  case isFalse => cases hs
  simp only [Procs.run, hp, Procs.fork] at hs
  split at hs <;> cases hs
  simp

/-- In every run in which no `kill` takes a free slot for a process : a `kill(pid)` that
returns 0 has found a process in use with that process id and changes no other slot, and
one that does not changes no slot ; and a process that `fork` makes `RUNNABLE` is not
killed, unless a `kill` has named it since its allocation. -/
theorem kill_hits_target
    (h : Machine.Reach Procs.step SparesUnused (Procs.start : Procs N) s) {inp : ProcInput}
    (hs : s.step (.run t inp) = some s') (hok : SparesUnused s (.run t inp)) :
    (∀ pid k, s.pc t = .kill pid k →
      (s'.pc t = .ret 0 → ∃ j, (s.proc j).state ≠ .unused ∧ (s.proc j).pid = pid ∧
        ∀ i, i ≠ j → s'.proc i = s.proc i) ∧
      (s'.pc t ≠ .ret 0 → s'.proc = s.proc)) ∧
    ∀ np pid, s.pc t = .fork (.start np pid) → (s'.proc np).state = .runnable ∧
      ((s'.proc np).killed = true → .kill (s'.proc np).uid (s'.proc np).pid ∈ s'.hist) := by
  refine ⟨fun pid k hp => ?_, fun np pid hp => ?_⟩
  · rcases kill_step hp hs with ⟨hret, j, rfl, hj, hproc⟩ | ⟨hret, hproc⟩
    · refine ⟨fun _ => ⟨j, fun hun => ?_, hj, fun i hi => by simp [hproc, hi]⟩,
        fun hne => absurd hret hne⟩
      simp [SparesUnused, ProcLabel.proc, hp, Procs.matchesUnused, hun, hj] at hok
    · exact ⟨fun h0 => absurd h0 hret, fun _ => hproc⟩
  · obtain ⟨hproc, hhist⟩ := start_step hp hs
    have hused : (s.proc np).state = .used := (control_reach h).child t np (by rw [hp]; rfl)
    rw [hproc, hhist]
    exact ⟨rfl, (unhurt_reach h np).2 hused⟩

/-- `k` steps of init, which makes the call `c` when it is in user space. -/
def initRun (k : ℕ) (c : ProcCall) : List (ProcLabel 2) :=
  List.replicate k (.run 0 { call := c, mem := true, copyout := true })

/-- Init forks and kills its child. -/
theorem kill_hits_child : ∃ s s' : Procs 2,
    Machine.Reach Procs.step SparesUnused Procs.start s ∧
      s.step (.run 0 ⟨.fork, true, true⟩) = some s' ∧
      s'.pc 0 = .ret 0 ∧ ∃ j, (s.proc j).state ≠ .unused ∧ (s.proc j).pid = 2 ∧
        ∀ i, i ≠ j → s'.proc i = s.proc i := by
  have hr : Machine.Reach Procs.step SparesUnused (Procs.start : Procs 2) _ :=
    Machine.reach_of_exec _ (l := [.dispatch 0] ++ initRun 8 .fork ++ initRun 2 (.kill 2)) rfl
  refine ⟨_, _, hr, rfl, rfl, ?_⟩
  refine ((kill_hits_target hr rfl (?_ : SparesUnused _ (.run 0 ⟨.fork, true, true⟩))).1 2 1
    rfl).1 rfl
  exact Eq.refl false

/-- Init calls `kill(0)`, which returns 0 though no process has that process id. It forks,
and its child is `RUNNABLE` and killed, though no `kill` has named it. -/
theorem fork_born_killed :
    (∃ s s' : Procs 2, Machine.Reach Procs.step (fun _ _ => True) Procs.start s ∧
      s.pc 0 = .kill 0 1 ∧ s.step (.run 0 ⟨.fork, true, true⟩) = some s' ∧
      s'.pc 0 = .ret 0 ∧ ∀ j, (s.proc j).state ≠ .unused → (s.proc j).pid ≠ 0) ∧
    ∃ s s' : Procs 2, Machine.Reach Procs.step (fun _ _ => True) Procs.start s ∧
      s.pc 0 = .fork (.start 1 2) ∧ s.step (.run 0 ⟨.fork, true, true⟩) = some s' ∧
      (s'.proc 1).state = .runnable ∧ (s'.proc 1).killed = true ∧
      .kill (s'.proc 1).uid (s'.proc 1).pid ∉ s'.hist :=
  ⟨⟨_, _, Machine.reach_of_exec _ (l := [.dispatch 0] ++ initRun 2 (.kill 0)) rfl, rfl, rfl,
      rfl, by decide⟩,
    ⟨_, _, Machine.reach_of_exec _ (l := [.dispatch 0] ++ initRun 4 (.kill 0) ++
      initRun 6 .fork) rfl, rfl, rfl, rfl, rfl, by decide⟩⟩

/-! ## Init -/

/-- A call of `exit`, or an unexpected trap. -/
def ProcCall.leaves : ProcCall → Bool
  | .exit _ | .fault => true
  | _ => false

/-- Init's own program does not call `exit` and takes no unexpected trap. -/
def InitBehaves (s : Procs N) : ProcLabel N → Prop
  | .run t inp => t = 0 → s.pc t = .user → inp.call.leaves = false
  | _ => True

/-- The step is not a call of `kill(1)`. -/
def SparesInit (s : Procs N) : ProcLabel N → Prop
  | .run t inp => s.pc t = .user → inp.call ≠ .kill 1
  | _ => True

instance (s : Procs N) (a : ProcLabel N) : Decidable (InitBehaves s a) :=
  match a with
  | .run t inp => inferInstanceAs (Decidable (t = 0 → s.pc t = .user → inp.call.leaves = false))
  | .dispatch _ | .yield _ => inferInstanceAs (Decidable True)

instance (s : Procs N) (a : ProcLabel N) : Decidable (SparesInit s a) :=
  match a with
  | .run t inp => inferInstanceAs (Decidable (s.pc t = .user → inp.call ≠ .kill 1))
  | .dispatch _ | .yield _ => inferInstanceAs (Decidable True)

/-- Nobody is about to kill init, and nobody has. -/
structure Procs.InitSafe (s : Procs N) : Prop where
  pid : (s.proc 0).pid = 1
  killed : (s.proc 0).killed = false
  scans : ∀ t pid k, s.pc t = .kill pid k → pid ≠ 1
  panic : ∀ t, s.pc t ≠ .panic

/-- Where a process comes into `exit` or into the scan of `kill`, it comes from user space, or
from the end of a system call. -/
theorem point_of_step (hs : s.step (.run t inp) = some s') :
    (s.pc t = .user ∧ s.usertrap t inp.call = some s') ∨
    (∃ v, s.pc t = .ret v) ∧ s.usertrapEnd t = some s' ∨
    (∃ pid k, s.pc t = .kill pid k ∧ (s'.pc t = .kill pid (k + 1) ∨ ∃ v, s'.pc t = .ret v)) ∨
    (∀ pid k, s'.pc t ≠ .kill pid k) ∧ s'.pc t ≠ .panic := by
  have hm := move_of_step hs
  simp only [Procs.step] at hs
  split at hs
  case isFalse => cases hs
  simp only [Procs.run] at hs
  split at hs
  · exact .inl ⟨‹_›, hs⟩
  · rename_i p hp
    refine .inr (.inr (.inr ?_))
    cases p <;> simp only [Procs.fork] at hs <;> (repeat' split at hs) <;> cases hs <;>
      simp [Procs.allocAt]
  · rename_i p st hp
    refine .inr (.inr (.inr ?_))
    cases p <;> simp only [Procs.exit] at hs <;> (repeat' split at hs) <;>
      simp only [Option.map_eq_some_iff, Option.some.injEq, reduceCtorEq] at hs
    case rewake.isTrue | wakeParent.isTrue =>
      obtain ⟨s₁, -, rfl⟩ := hs
      simp
    all_goals
      rw [← hs]
      simp
  · rename_i p hp
    refine .inr (.inr (.inr ?_))
    cases p <;> simp only [Procs.wait] at hs <;> (repeat' split at hs) <;> cases hs <;> simp
  · rename_i pid k hp
    refine .inr (.inr (.inl ⟨pid, k, hp, ?_⟩))
    simp only [Procs.kill] at hs
    (repeat' split at hs) <;> cases hs <;> simp
  · rename_i k total hp
    refine .inr (.inr (.inr ?_))
    simp only [Procs.countProc] at hs
    (repeat' split at hs) <;> cases hs <;> simp
  · exact .inr (.inl ⟨⟨_, ‹_›⟩, hs⟩)
  · cases hs
  · cases hs

/-- The points of all processes, after a step of `t`. -/
theorem ProcMove.forall_pc {P : ProcPc N → Prop} (hm : ProcMove s t s') (hc : s.Control)
    (h : ∀ u, P (s.pc u)) (huser : P .user) (ht : P (s'.pc t)) (u : Fin N) : P (s'.pc u) := by
  by_cases hu : u = t
  · rwa [hu]
  · rcases hm.pc_other hc hu with h' | ⟨-, h'⟩ <;> rw [h']
    · exact h u
    · exact huser

/-- A step that is no `kill` of init and no fault of init leaves its process id and flag alone. -/
theorem ProcMove.init_flags (hm : ProcMove s t s') (hc : s.Control) (hi : s.InitSafe)
    (hf : t = 0 → s.pc t ≠ .user) : (s'.proc 0).pid = 1 ∧ (s'.proc 0).killed = false := by
  have hold := And.intro hi.pid hi.killed
  have keep : ∀ {j : Fin N} {q : Proc N}, (j = 0 → q.pid = 1 ∧ q.killed = false) →
      (Function.update s.proc j q 0).pid = 1 ∧ (Function.update s.proc j q 0).killed = false := by
    intro j q h
    by_cases hj : j = 0
    · subst hj
      simpa using h rfl
    · simpa [Ne.symm hj] using hold
  have hlive := hc.init.1
  have hchild : ∀ {j}, (s.pc t).child = some j → j ≠ 0 := by
    rintro j hj rfl
    simp [Proc.Live, hc.child _ _ hj] at hlive
  cases hm with
  | trace hr hp => exact keep fun h0 => absurd hp (hf h0)
  | fault hr hp => exact keep fun h0 => absurd hp (hf h0)
  | alloc hr hp hl hu => exact keep (by rintro rfl; simp [Proc.Live, hu] at hlive)
  | build hr hp | buildFail hr hp | setParent hr hp | start hr hp =>
    exact keep fun h0 => absurd h0 (hchild (by rw [hp]; rfl))
  | reparent hr hp hk h => exact keep (by rintro rfl; exact hold)
  | @rewake j k i st q hr hp hk hl hq | @wakeParent j i st q hr hp hk hl hq =>
    refine keep ?_
    rintro rfl
    rw [hq]
    split <;> simpa [(Proc.woken_wake _ _).pid] using hold
  | reap hr hp h hl hz => exact keep (by rintro rfl; simp [Proc.Live, hz] at hlive)
  | @kill j k pid hr hp hj hl hx =>
    refine keep ?_
    rintro rfl
    exact absurd (hx.symm.trans hi.pid) (hi.scans t pid k hp)
  | die | gone | sleep | doze | resume | dispatch | yield =>
    exact keep (by rintro rfl; exact hold)
  | _ => exact hold

/-- Where a step takes its process, if it is no `kill(1)` and init's program stays. -/
theorem Procs.InitSafe.point (hi : s.InitSafe) (hs : s.step (.run t inp) = some s')
    (hb : InitBehaves s (.run t inp)) (hk : SparesInit s (.run t inp)) :
    (∀ pid k, s'.pc t = .kill pid k → pid ≠ 1) ∧ s'.pc t ≠ .panic := by
  have hexit : ∀ {st}, t ≠ 0 → Procs.enterExit t st = .exit .acquire st := fun h0 => if_neg h0
  have halive : (s.proc t).killed = true → t ≠ 0 := by
    rintro h rfl
    simp [hi.killed] at h
  rcases point_of_step hs with ⟨hp, h⟩ | ⟨-, h⟩ | ⟨pid, k, hp, h⟩ | h
  · simp only [Procs.usertrap] at h
    split at h
    · cases h
    split at h
    · rename_i hkilled
      cases h
      simp [hexit (halive hkilled)]
    · cases hcall : inp.call with
      | exit st =>
        rw [hcall] at h
        cases h
        simp [hexit fun h0 => absurd (hb h0 hp) (by rw [hcall]; rintro ⟨⟩)]
      | fault =>
        rw [hcall] at h
        cases h
        simp [hexit fun h0 => absurd (hb h0 hp) (by rw [hcall]; rintro ⟨⟩)]
      | kill pid =>
        rw [hcall] at h
        cases h
        simp only [Procs.goto_pc, Function.update_self, ProcPc.kill.injEq]
        refine ⟨?_, by simp⟩
        rintro _ _ ⟨rfl, -⟩ rfl
        exact hk hp hcall
      | _ =>
        rw [hcall] at h
        cases h
        simp
  · simp only [Procs.usertrapEnd] at h
    split at h
    · cases h
    split at h
    · rename_i hkilled
      cases h
      simp [hexit (halive hkilled)]
    · cases h
      simp
  · rcases h with h | ⟨v, h⟩ <;> rw [h]
    · refine ⟨?_, by simp⟩
      rintro _ _ ⟨rfl, -⟩
      exact hi.scans t pid k hp
    · simp
  · exact ⟨fun pid k h' => absurd h' (h.1 pid k), h.2⟩

/-- In user space init's flag stays clear if it does not fault. -/
theorem Procs.InitSafe.flags_user (hi : s.InitSafe) {c : ProcCall}
    (h : s.usertrap 0 c = some s') (hc : c.leaves = false) :
    (s'.proc 0).pid = 1 ∧ (s'.proc 0).killed = false := by
  have hold := And.intro hi.pid hi.killed
  simp only [Procs.usertrap, hi.killed] at h
  split at h
  · cases h
  cases c with
  | fault => cases hc
  | trace mask =>
    cases h
    exact ⟨by simpa using hi.pid, by simp⟩
  | _ =>
    cases h
    exact hold

theorem Procs.InitSafe.step (hi : s.InitSafe) (hc : s.Control) {a : ProcLabel N}
    (hs : s.step a = some s') (hb : InitBehaves s a) (hk : SparesInit s a) : s'.InitSafe := by
  have hm := move_of_step hs
  have hpoint : (∀ pid k, s'.pc a.proc = .kill pid k → pid ≠ 1) ∧ s'.pc a.proc ≠ .panic := by
    cases a with
    | run t inp => exact hi.point hs hb hk
    | dispatch t =>
      simp only [Procs.step] at hs
      (repeat' split at hs) <;> cases hs
      · simp [ProcLabel.proc]
      · exact ⟨hi.scans t, hi.panic t⟩
    | yield t =>
      simp only [Procs.step] at hs
      split at hs <;> cases hs
      exact ⟨hi.scans t, hi.panic t⟩
  have hflags : (s'.proc 0).pid = 1 ∧ (s'.proc 0).killed = false := by
    by_cases huser : a.proc = 0 ∧ s.pc a.proc = .user
    · cases a with
      | run t inp =>
        obtain ⟨rfl, hp⟩ := huser
        change s.pc 0 = .user at hp
        refine hi.flags_user (c := inp.call) ?_ (hb rfl hp)
        simp only [Procs.step] at hs
        split at hs
        · simpa only [Procs.run, hp] using hs
        · cases hs
      | dispatch t =>
        simp only [Procs.step] at hs
        (repeat' split at hs) <;> cases hs <;> obtain ⟨rfl, -⟩ := huser <;>
          exact ⟨by simpa [ProcLabel.proc] using hi.pid, by simpa [ProcLabel.proc] using hi.killed⟩
      | yield t =>
        simp only [Procs.step] at hs
        split at hs <;> cases hs
        obtain ⟨rfl, -⟩ := huser
        exact ⟨by simpa [ProcLabel.proc] using hi.pid, by simpa [ProcLabel.proc] using hi.killed⟩
    · exact hm.init_flags hc hi fun h0 hp => huser ⟨h0, hp⟩
  exact ⟨hflags.1, hflags.2, fun u => hm.forall_pc (P := fun pc => ∀ pid k,
      pc = .kill pid k → pid ≠ 1) hc hi.scans (by simp) hpoint.1 u,
    fun u => hm.forall_pc (P := fun pc => pc ≠ .panic) hc hi.panic (by simp) hpoint.2 u⟩

/-- If init's program neither calls `exit` nor takes an unexpected trap, and no process calls
`kill(1)`, the kernel does not reach `panic("init exiting")`. -/
theorem init_stays (h : Machine.Reach Procs.step (fun s a => InitBehaves s a ∧ SparesInit s a)
    (Procs.start : Procs N) s) (t : Fin N) : s.pc t ≠ .panic := by
  have hi : s.InitSafe := by
    refine h.invariant_of (fun _ => control_reach) ⟨rfl, rfl, nofun, nofun⟩ ?_
    exact fun s a s' hc hi hok hs => hi.step hc hs hok.1 hok.2
  exact hi.panic t

/-- Init forks and its child calls `kill(pid)`. Then init calls `wait`. -/
def forkThenKill (pid : CInt) : List (ProcLabel 2) :=
  [.dispatch 0] ++ initRun 8 .fork ++ [.dispatch 1] ++
    List.replicate 4 (.run 1 { call := .kill pid, mem := true, copyout := true }) ++
    initRun 1 .wait

theorem init_stays_child : ∃ s : Procs 2, Machine.Reach Procs.step
    (fun s a => InitBehaves s a ∧ SparesInit s a) Procs.start s ∧ (s.proc 1).killed = true ∧
      s.pc 0 ≠ .panic := by
  have hr : Machine.Reach Procs.step (fun s a => InitBehaves s a ∧ SparesInit s a)
    (Procs.start : Procs 2) _ := Machine.reach_of_exec _ (l := forkThenKill 2) rfl
  exact ⟨_, hr, rfl, init_stays hr 0⟩

/-- A child of init calls `kill(1)`, and init's next trap ends in `panic("init exiting")`. -/
theorem init_killed : ∃ s : Procs 2, Machine.Reach Procs.step InitBehaves Procs.start s ∧
    s.pc 0 = .panic :=
  ⟨_, Machine.reach_of_exec _ (l := forkThenKill 1) rfl, rfl⟩

end Xv6
