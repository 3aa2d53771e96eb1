import Xv6.Sched

/-!
# Sleep locks

`acquiresleep`, `releasesleep` and `holdingsleep` of `sleeplock.c` over the spin lock `lk->lk`,
with `sleep` and `wakeup` as the processors of `Sched` run them. A process calls `releasesleep`
only if it has the lock.

`locked` is set exactly while some process is between the two calls, and then for one process
only (`LockBook`). A process rests on `lk` only while `locked` is set, since `releasesleep`
wakes everyone before it lets go of `lk->lk` (`lockWake`). Together with `Cpus.reach_view`
this gives `sleeplock_excludes`.
-/

namespace Xv6

open Monitor Function

/-- `struct sleeplock`, without the name -/
structure SleepLock where
  locked : Bool
  pid : ℕ
  deriving DecidableEq, Repr

inductive AcquirePt
  | acquire
  | test
  | sleep
  | release
  deriving DecidableEq, Repr

inductive ReleasePt
  | acquire
  | clear
  | wakeup
  | release
  deriving DecidableEq, Repr

inductive HoldingPt
  | acquire
  | read
  /-- with the result -/
  | release (r : Bool)
  deriving DecidableEq, Repr

inductive LockPt
  /-- without the lock -/
  | out
  | acquiresleep (p : AcquirePt)
  /-- with the lock -/
  | inside
  | releasesleep (p : ReleasePt)
  /-- called with the lock, or without -/
  | holdingsleep (p : HoldingPt) (inside : Bool)
  deriving DecidableEq, Repr

/-- A point of the process `pid`. -/
structure LockPc where
  pid : ℕ
  pt : LockPt
  deriving DecidableEq, Repr

inductive LockCall
  | acquiresleep
  | releasesleep
  | holdingsleep
  deriving DecidableEq, Repr

/-- The process continues at `x`. -/
def LockPc.to (p : LockPc) (x : LockPt) : LockPc := { p with pt := x }

def lockCode (p : LockPc) : Instr Unit SleepLock LockPc LockCall :=
  match p.pt with
  | .out => .act fun i s =>
      match i with
      | .acquiresleep => some (s, p.to (.acquiresleep .acquire))
      | .releasesleep => none
      | .holdingsleep => some (s, p.to (.holdingsleep .acquire false))
  | .inside => .act fun i s =>
      match i with
      | .acquiresleep => none
      | .releasesleep => some (s, p.to (.releasesleep .acquire))
      | .holdingsleep => some (s, p.to (.holdingsleep .acquire true))
  | .acquiresleep .acquire => .acquire (p.to (.acquiresleep .test))
  | .acquiresleep .test => .act fun _ s =>
      if s.locked then some (s, p.to (.acquiresleep .sleep))
      else some (⟨true, p.pid⟩, p.to (.acquiresleep .release))
  | .acquiresleep .sleep => .sleep () (p.to (.acquiresleep .test))
  | .acquiresleep .release => .release (p.to .inside)
  | .releasesleep .acquire => .acquire (p.to (.releasesleep .clear))
  | .releasesleep .clear => .act fun _ _ => some (⟨false, 0⟩, p.to (.releasesleep .wakeup))
  | .releasesleep .wakeup => .wakeup () (p.to (.releasesleep .release))
  | .releasesleep .release => .release (p.to .out)
  | .holdingsleep .acquire b => .acquire (p.to (.holdingsleep .read b))
  | .holdingsleep .read b =>
      .branch fun s => p.to (.holdingsleep (.release (s.locked && s.pid == p.pid)) b)
  | .holdingsleep (.release _) b => .release (p.to (if b then .inside else .out))

/-- After `initsleeplock`. -/
def lockStart (M : ℕ) {N : ℕ} (pid : Fin N → ℕ) : Cpus N M Unit SleepLock LockPc :=
  .start N M Unit ⟨false, 0⟩ fun t => ⟨pid t, .out⟩

/-! ## Who has the lock -/

/-- The process is between `acquiresleep` and `releasesleep` : from where `locked` is set to
where it is cleared. -/
def LockPt.Inside : LockPt → Prop
  | .acquiresleep p => p = .release
  | .inside => True
  | .releasesleep p => p = .acquire ∨ p = .clear
  | .holdingsleep _ b => b = true
  | .out => False

theorem inside_of_next {p k : LockPc} (h : (lockCode p).Next k) :
    k.pid = p.pid ∧ (k.pt.Inside ↔ p.pt.Inside) ∧ ∀ r b, k.pt ≠ .holdingsleep (.release r) b := by
  obtain ⟨pid, pt⟩ := p
  generalize hc : lockCode ⟨pid, pt⟩ = c at h
  unfold lockCode at hc
  split at hc <;> rename_i heq <;> simp only at heq <;> subst heq <;> cases h <;> cases hc <;>
    simp [LockPc.to, LockPt.Inside]
  -- `holdingsleep` returns to where it was called
  rename_i b
  cases b <;> simp

/-- The actions of the programs. -/
inductive LockAct (s : SleepLock) (p : LockPc) : SleepLock → LockPc → Prop
  | call {x} (hin : x.Inside ↔ p.pt.Inside) (hr : ∀ r b, x ≠ .holdingsleep (.release r) b) :
      LockAct s p s (p.to x)
  | take (hp : ¬ p.pt.Inside) (hl : s.locked = false) :
      LockAct s p ⟨true, p.pid⟩ (p.to (.acquiresleep .release))
  | clear (hp : p.pt.Inside) : LockAct s p ⟨false, 0⟩ (p.to (.releasesleep .wakeup))
  | read {b} (hp : p.pt = .holdingsleep .read b) :
      LockAct s p s (p.to (.holdingsleep (.release (s.locked && s.pid == p.pid)) b))

variable {f : LockCall → SleepLock → Option (SleepLock × LockPc)} {i : LockCall} {p k : LockPc}
  {s s' : SleepLock}

theorem lockAct_of_code (hc : lockCode p = .act f)
    (hf : f i s = some (s', k)) : LockAct s p s' k := by
  unfold lockCode at hc
  split at hc <;> rename_i hp <;> cases hc <;> dsimp only at hf
  · cases i <;> cases hf <;> exact .call (by simp [LockPt.Inside, hp]) nofun
  · cases i <;> cases hf <;> exact .call (by simp [LockPt.Inside, hp]) nofun
  · split at hf <;> cases hf
    · exact .call (by simp [LockPt.Inside, hp]) nofun
    · exact .take (by simp [LockPt.Inside, hp]) (eq_false_of_ne_true ‹_›)
  · cases hf
    exact .clear (by simp [LockPt.Inside, hp])
  · cases hf
    exact .read hp

section Book

variable {N : ℕ} {pid : Fin N → ℕ} {s s' : SleepLock} {pts : Fin N → LockPc} {t : Fin N}

/-- `locked` and `pid` say who has the lock. -/
structure LockBook (pid : Fin N → ℕ) (s : SleepLock) (pts : Fin N → LockPc) : Prop where
  pids : ∀ t, (pts t).pid = pid t
  held : s.locked = true → ∃ t, (pts t).pt.Inside
  holder : ∀ t, (pts t).pt.Inside → s.locked = true ∧ s.pid = pid t
  single : ∀ t u, (pts t).pt.Inside → (pts u).pt.Inside → t = u

theorem LockBook.start (pid : Fin N → ℕ) : LockBook pid ⟨false, 0⟩ fun t => ⟨pid t, .out⟩ where
  pids _ := rfl
  held := nofun
  holder _ := False.elim
  single _ _ := False.elim

/-- The process `t` stays inside, or outside. -/
theorem LockBook.same (h : LockBook pid s pts) {k : LockPc} (hpid : k.pid = (pts t).pid)
    (hin : k.pt.Inside ↔ (pts t).pt.Inside) : LockBook pid s (update pts t k) := by
  have hiff : ∀ u, (update pts t k u).pt.Inside ↔ (pts u).pt.Inside := by
    intro u
    by_cases hu : u = t
    · subst hu; simpa using hin
    · simp [hu]
  refine ⟨fun u => ?_, ?_, ?_, ?_⟩
  · by_cases hu : u = t
    · subst hu; simpa [hpid] using h.pids u
    · simpa [hu] using h.pids u
  · simpa only [hiff] using h.held
  · simpa only [hiff] using h.holder
  · simpa only [hiff] using h.single

theorem LockBook.act (h : LockBook pid s pts) {k : LockPc} (ha : LockAct s (pts t) s' k) :
    LockBook pid s' (update pts t k) := by
  have hpid : ∀ x u, (update pts t ((pts t).to x) u).pid = pid u := by
    intro x u
    by_cases hu : u = t
    · subst hu; simpa [LockPc.to] using h.pids u
    · simpa [hu] using h.pids u
  cases ha with
  | call hin => exact h.same rfl hin
  | read hp => exact h.same rfl (by simp [LockPc.to, LockPt.Inside, hp])
  | take hp hl =>
    -- nobody else is inside, since `locked` is clear
    have hout : ∀ u, ¬ (pts u).pt.Inside := fun u hu => by
      simpa [hl] using (h.holder u hu).1
    have honly : ∀ u, (update pts t ((pts t).to (.acquiresleep .release)) u).pt.Inside → u = t := by
      intro u hu
      by_contra hut
      exact hout u (by simpa [hut] using hu)
    refine ⟨hpid _, fun _ => ⟨t, by simp [LockPc.to, LockPt.Inside]⟩, fun u hu => ?_,
      fun u v hu hv => (honly u hu).trans (honly v hv).symm⟩
    rw [honly u hu]
    exact ⟨rfl, h.pids t⟩
  | clear hp =>
    have hout : ∀ u, ¬ (update pts t ((pts t).to (.releasesleep .wakeup)) u).pt.Inside := by
      intro u hu
      by_cases hut : u = t
      · subst hut; simp [LockPc.to, LockPt.Inside] at hu
      · exact hut (h.single u t (by simpa [hut] using hu) hp)
    exact ⟨hpid _, nofun, fun u hu => absurd hu (hout u), fun u v hu => absurd hu (hout u)⟩

end Book

/-! ## Sleepers on the lock -/

/-- The points reached with `lk->lk` held. -/
def LockPt.Locked : LockPt → Prop
  | .acquiresleep p => p ≠ .acquire
  | .releasesleep p => p ≠ .acquire
  | .holdingsleep p _ => p ≠ .acquire
  | .out | .inside => False

def lockOutline : Outline LockPc SleepLock LockCall where
  crit p := p.pt.Locked
  inv _ := True
  asrt p s := p.pt = .acquiresleep .sleep → s.locked = true
  admits _ _ := True

/-- A process rests while the lock is taken. -/
def lockWake : Wake Unit SleepLock LockPc where
  idle _ s := s.locked = true
  owes p _ := p.pt = .releasesleep .wakeup

/-- Where the programs take `lk->lk`, give it up, sleep and wake others. -/
theorem lockCode_flow (p : LockPc) :
    (∀ k, lockCode p = .acquire k →
      ¬ p.pt.Locked ∧ k.pt.Locked ∧ k.pt ≠ .acquiresleep .sleep) ∧
    (∀ k, lockCode p = .release k →
      p.pt.Locked ∧ ¬ k.pt.Locked ∧ p.pt ≠ .releasesleep .wakeup) ∧
    (∀ c k, lockCode p = .sleep c k →
      p.pt = .acquiresleep .sleep ∧ k.pt = .acquiresleep .test) ∧
    (∀ c k, lockCode p = .wakeup c k →
      p.pt = .releasesleep .wakeup ∧ k.pt = .releasesleep .release) ∧
    ∀ k, lockCode p ≠ .killed k := by
  unfold lockCode
  split <;> rename_i hp <;> simp [hp, LockPc.to, LockPt.Locked]
  rename_i b
  cases b <;> simp

theorem lock_act (hc : lockCode p = .act f) (hp : p.pt.Locked) (hf : f i s = some (s', k)) :
    k.pt.Locked ∧ (k.pt = .acquiresleep .sleep → s'.locked = true) ∧
      (s'.locked = true ∨ k.pt = .releasesleep .wakeup ∨ s'.locked = s.locked) := by
  unfold lockCode at hc
  split at hc <;> rename_i hpt <;> cases hc <;> dsimp only at hf
  · simp [hpt, LockPt.Locked] at hp
  · simp [hpt, LockPt.Locked] at hp
  · split at hf <;> cases hf <;> simp_all [LockPc.to, LockPt.Locked]
  · cases hf
    simp [LockPc.to, LockPt.Locked]
  · cases hf
    simp [LockPc.to, LockPt.Locked]

theorem lock_actFree (hc : lockCode p = .act f) (hp : ¬ p.pt.Locked)
    (hf : f i s = some (s', k)) : ¬ k.pt.Locked ∧ s' = s := by
  unfold lockCode at hc
  split at hc <;> rename_i hpt <;> cases hc <;> dsimp only at hf
  · cases i <;> cases hf <;> simp [LockPc.to, LockPt.Locked]
  · cases i <;> cases hf <;> simp [LockPc.to, LockPt.Locked]
  all_goals simp [hpt, LockPt.Locked] at hp

theorem lockOutline_sound : lockOutline.Sound lockCode where
  acquire {p k} h := by
    obtain ⟨hp, hk, hne⟩ := (lockCode_flow p).1 k h
    exact ⟨hp, hk, fun _ _ he => absurd he hne⟩
  release {p k} h := by
    obtain ⟨hp, hk, -⟩ := (lockCode_flow p).2.1 k h
    exact ⟨hp, hk, fun _ _ => trivial⟩
  sleep {p c k} h := by
    obtain ⟨hp, hk⟩ := (lockCode_flow p).2.2.1 c k h
    exact ⟨by simp [lockOutline, hp, LockPt.Locked], by simp [lockOutline, hk, LockPt.Locked],
      fun _ _ => trivial, fun _ _ he => by cases hk.symm.trans he⟩
  wakeup {p c k} h := by
    obtain ⟨hp, hk⟩ := (lockCode_flow p).2.2.2.1 c k h
    exact ⟨by simp [lockOutline, hp, LockPt.Locked], by simp [lockOutline, hk, LockPt.Locked],
      fun _ _ he => by cases hk.symm.trans he⟩
  killed {p k} h := absurd h ((lockCode_flow p).2.2.2.2 k)
  act hc hp _ _ hf := by
    obtain ⟨hk, hs, -⟩ := lock_act hc hp hf
    exact ⟨hk, hs⟩
  actFree hc hp _ hf := by
    obtain ⟨hk, rfl⟩ := lock_actFree hc hp hf
    exact ⟨hk, id, fun _ _ => id⟩

theorem lockWake_sound : lockWake.Sound lockOutline lockCode where
  sleep {p c k s} h hs := hs ((lockCode_flow p).2.2.1 c k h).1
  wakeup _ hne := absurd rfl hne
  killed {p k c} h := absurd h ((lockCode_flow p).2.2.2.2 k)
  act {p f i s s' k c} hc hp _ _ hf hidle := by
    obtain ⟨-, -, hs | hk | hs⟩ := lock_act hc hp hf
    · exact .inl hs
    · exact .inr hk
    · rcases hidle with h | h
      · exact .inl (hs.trans h)
      · obtain ⟨pid, pt⟩ := p
        cases h
        cases hc
  actFree hc hp _ hf hidle := by
    obtain ⟨-, rfl⟩ := lock_actFree hc hp hf
    exact hidle

theorem lockWake_clean {N : ℕ} (s : State N Unit SleepLock LockPc) (a : Label N LockCall) :
    lockWake.Clean lockCode s a :=
  Wake.clean_of_code (fun p k _ hk => ((lockCode_flow p).2.1 k hk).2.2)
    (fun p c k _ hs ho => by cases ((lockCode_flow p).2.2.1 c k hs).1.symm.trans ho) s a

/-! ## Runs on the processors -/

section Runs

variable {N M : ℕ} {pid : Fin N → ℕ} {s : Cpus N M Unit SleepLock LockPc}

theorem lockBook_of_reach
    (h : Machine.Reach (Cpus.step lockCode) (fun _ _ => True) (lockStart M pid) s) :
    LockBook pid s.shared s.view.points ∧ (Injective pid → ∀ t r b,
      (s.proc t).pc.pt = .holdingsleep (.release r) b → r = b) := by
  have h' : Machine.Reach (step lockCode) (Meets fun _ _ _ => True) (lockStart M pid).view s.view :=
    (Cpus.reach_view h).2.mono fun s a _ => by cases a <;> trivial
  refine points_invariant (J := fun sh pts => LockBook pid sh pts ∧ (Injective pid → ∀ t r b,
    (pts t).pt = .holdingsleep (.release r) b → r = b))
    ⟨.start pid, fun _ t r b ht => LockPt.noConfusion ht⟩ ?_ ?_ h'
  · rintro sh pts t k ⟨hb, hr⟩ hn
    obtain ⟨hpid, hin, hne⟩ := inside_of_next hn
    exact ⟨hb.same hpid hin, fun hinj => (forall_update_iff pts
      (p := fun _ q => ∀ r b, q.pt = .holdingsleep (.release r) b → r = b)).2
      ⟨fun r b he => absurd he (hne r b), fun u _ => hr hinj u⟩⟩
  · rintro sh pts t i f sh' k ⟨hb, hr⟩ - hc hf
    have ha := lockAct_of_code hc hf
    refine ⟨hb.act ha, fun hinj => (forall_update_iff pts
      (p := fun _ q => ∀ r b, q.pt = .holdingsleep (.release r) b → r = b)).2
      ⟨fun r b he => ?_, fun u _ => hr hinj u⟩⟩
    cases ha with
    | call _ hne => exact absurd he (hne r b)
    | take => cases he
    | clear => cases he
    | @read b' hp =>
      cases he
      cases b with
      | true =>
        obtain ⟨hl, hpid⟩ := hb.holder t (by simp [hp, LockPt.Inside])
        simp [hl, hpid, hb.pids t]
      | false =>
        -- whoever has the lock has another pid
        by_contra hne
        obtain ⟨hl, hpid⟩ : sh.locked = true ∧ sh.pid = (pts t).pid := by simpa using hne
        obtain ⟨u, hu⟩ := hb.held hl
        obtain rfl : u = t := hinj ((hb.holder u hu).2.symm.trans (hpid.trans (hb.pids t)))
        simp [hp, LockPt.Inside] at hu

/-- `holdingsleep` returns 1 to the process that has the lock, and 0 to others. -/
theorem holdingsleep_result (hpid : Injective pid)
    (h : Machine.Reach (Cpus.step lockCode) (fun _ _ => True) (lockStart M pid) s) {t : Fin N}
    {r b : Bool} (ht : (s.proc t).pc.pt = .holdingsleep (.release r) b) : r = b :=
  (lockBook_of_reach h).2 hpid t r b ht

theorem holdingsleep_result_other : ∃ (s : Cpus 2 2 Unit SleepLock LockPc) (r : Bool),
    Machine.Reach (Cpus.step lockCode) (fun _ _ => True) (lockStart 2 ![1, 2]) s ∧
      (s.proc 1).pc.pt = .holdingsleep (.release r) false ∧ r = false :=
  have hr := Machine.reach_of_exec (fun _ _ => True)
    (l := List.replicate 6 (.step 0 .acquiresleep) ++ List.replicate 6 (.step 1 .holdingsleep)) rfl
  ⟨_, false, hr, rfl, holdingsleep_result (by decide) hr (t := 1) rfl⟩

/-- In every run of any number of processes on any number of processors at most one process
is between `acquiresleep` and `releasesleep`. While `lk->lk` is free and `locked` is 0, nobody
is `SLEEPING`, and a process that was in `sleep` is on its way back to look at `locked`. -/
theorem sleeplock_excludes
    (h : Machine.Reach (Cpus.step lockCode) (fun _ _ => True) (lockStart M pid) s) :
    (∀ t u, (s.proc t).pc.pt.Inside → (s.proc u).pc.pt.Inside → t = u) ∧
    (s.lock = none → s.shared.locked = false → ∀ t, (s.proc t).state ≠ .sleeping ∧
      ((s.proc t).pc.pt = .acquiresleep .sleep →
        (s.proc t).pos = .resumed () ∨ (s.proc t).pos = .relock)) := by
  refine ⟨(lockBook_of_reach h).1.single, fun hl hk t => ?_⟩
  obtain ⟨⟨role, hok⟩, hview⟩ := Cpus.reach_view h
  have hout : lockOutline.Ok lockCode s.view :=
    lockOutline_sound.ok (fun s a _ => by cases a <;> trivial)
      (.startAt (fun _ => id) trivial) hview
  have hrest : ∀ c, ¬ s.view.Resting t c := fun c hr => by
    have hidle : s.shared.locked = true := lockWake_sound.no_lost_wakeup lockOutline_sound
      (fun s a _ => by cases a <;> trivial) (fun s a _ _ => lockWake_clean s a)
      (.startAt (fun _ => id) trivial) .startAt hview hl hr
    simp [hk] at hidle
  refine ⟨fun hst => ?_, fun hpt => ?_⟩
  · obtain ⟨c, hr⟩ := hok.resting hst
    exact hrest c hr
  · have hcode : lockCode (s.proc t).pc = .sleep () ((s.proc t).pc.to (.acquiresleep .test)) := by
      simp [lockCode, hpt]
    -- with `lk->lk` free the process is not awake at a point of the critical section
    have hawake : ¬ s.view.Awake t := fun hw => by
      have hcrit : lockOutline.crit (s.view.thread t).pc := by
        change (s.proc t).pc.pt.Locked
        simp [hpt, LockPt.Locked]
      cases hl.symm.trans ((hout.lock_iff t).2 ⟨hcrit, hw⟩)
    have hmode : (s.view.thread t).mode = (s.proc t).mode := rfl
    cases hp : (s.proc t).pos with
    | code => exact absurd (.inl (by rw [hmode]; simp [Kproc.mode, hp])) hawake
    | letgo c => exact absurd (.inl (by rw [hmode]; simp [Kproc.mode, hp])) hawake
    | mark c => exact absurd (.inl (by rw [hmode]; simp [Kproc.mode, hp])) (hrest c)
    | sched c => exact absurd (.inl (by rw [hmode]; simp [Kproc.mode, hp])) (hrest c)
    | resumed c => exact .inl rfl
    | relock => exact .inr rfl
    | wakeup c j =>
      have hat := hok.pos t
      simp [Kproc.At, hp, hcode] at hat

end Runs

/-- Process `0` takes the lock, process `1` falls asleep on it on another processor, and `0`
gives it back. -/
def lockHandover : List (CpuLabel 2 2 LockCall) :=
  List.replicate 6 (.step 0 .acquiresleep) ++ List.replicate 11 (.step 1 .acquiresleep) ++
    List.replicate 8 (.step 0 .releasesleep)

theorem sleeplock_excludes_handover : ∃ s : Cpus 2 2 Unit SleepLock LockPc,
    Machine.Reach (Cpus.step lockCode) (fun _ _ => True) (lockStart 2 ![1, 2]) s ∧
      s.lock = none ∧ s.shared.locked = false ∧ (s.proc 1).pc.pt = .acquiresleep .sleep ∧
      (s.proc 1).state ≠ .sleeping :=
  have hr := Machine.reach_of_exec (fun _ _ => True) (l := lockHandover) rfl
  ⟨_, hr, rfl, rfl, rfl, ((sleeplock_excludes hr).2 rfl rfl 1).1⟩

end Xv6
