import Xv6.ProcTable

/-!
# Where the processes are

The control invariant of the process table (`Procs.Control`) : the state of a slot says
where its process can be, `wait_lock` is held exactly by the process at a point that holds
it, a child under construction is `USED` and has one builder, a process that is being
switched out holds its `p->lock`, and init neither exits nor has a parent.

A step is seen from two sides. `Touch` says what it does to the other processes and `Own`
what it does to the one that takes it ; with these two the invariants need no case
analysis over all the points of the programs. `control_reach` states the invariant for
every reachable state.
-/

namespace Xv6

namespace ProcPc

variable {N : ℕ}

/-- The slot the process builds a child in. -/
def child : ProcPc N → Option (Fin N)
  | .fork (.build np) | .fork (.link np _) | .fork (.setParent np _)
  | .fork (.start np _) => some np
  | _ => none

/-- The points at which the process holds its own `p->lock` over the step. -/
def ownsLock : ProcPc N → Bool
  | .exit .gone _ | .wait .doze => true
  | _ => false

/-- The process is switched out, for good or in `sleep`. -/
def out : ProcPc N → Bool
  | .exit .gone _ | .wait .asleep | .dead => true
  | _ => false

theorem idle_facts {pc : ProcPc N} (h : pc.idle) :
    pc.holdsWait = false ∧ pc.holdsProc = false ∧ pc.child = none ∧ pc.ownsLock = false ∧
      pc.out = false := by
  unfold ProcPc.idle at h
  split at h <;> simp_all [holdsWait, holdsProc, child, ownsLock, out]

@[simp] theorem holdsWait_user : (user : ProcPc N).holdsWait = false := rfl

theorem out_eq_false {pc : ProcPc N} (h₁ : pc.holdsProc = false) (h₂ : pc ≠ .dead)
    (h₃ : pc ≠ .wait .asleep) : pc.out = false := by
  unfold out
  split <;> simp_all [holdsProc]

end ProcPc

/-- Where a process in the given state can be. -/
def ProcState.At {N : ℕ} : ProcState → ProcPc N → Prop
  | .unused, pc => pc = .user ∨ pc = .dead
  | .used, pc => pc = .user
  | .sleeping, pc => pc = .wait .asleep
  | .runnable, pc => pc.holdsWait = false ∧ pc.holdsProc = false ∧ pc ≠ .dead
  | .running, pc => pc.out = false
  | .zombie, pc => pc = .dead ∨ ∃ st, pc = .exit .gone st

variable {N : ℕ} [NeZero N] {s s' : Procs N} {t u k : Fin N}

/-- Who is where, and who holds what. -/
structure Procs.Control (s : Procs N) : Prop where
  /-- the state of a process says where it can be -/
  pcAt : ∀ t, (s.proc t).state.At (s.pc t)
  /-- the holder of `wait_lock` is the one process at a point that holds it -/
  waitLock : ∀ t, (s.pc t).holdsWait = true ↔ s.waitLock = some t
  /-- a slot in which a child is built is `USED` -/
  child : ∀ t k, (s.pc t).child = some k → (s.proc k).state = .used
  /-- each child has one builder -/
  child_inj : ∀ t u k, (s.pc t).child = some k → (s.pc u).child = some k → t = u
  /-- a process that is being switched out holds its lock -/
  own : ∀ t, (s.pc t).ownsLock = true → (s.proc t).lock = true
  /-- init does not exit -/
  init : (s.proc 0).Live ∧ (s.pc 0).exiting = false
  parent_init : (s.proc 0).parent = none
  parent_ne : ∀ k, (s.proc k).parent ≠ some k

/-- What a step of process `t` does to its own slot and point. -/
inductive Own (s : Procs N) (t : Fin N) : Proc N → ProcPc N → Prop
  | steady {p pc} (hr : s.Running t) (hs : p.state = .running)
      (hp : p.parent = (s.proc t).parent) (hu : p.uid = (s.proc t).uid)
      (hx : (s.proc t).killed = true → p.killed = true) (ho : pc.out = false)
      (hl : pc.ownsLock = true → p.lock = true) : Own s t p pc
  | die {st} (hr : s.Running t) (hp : s.pc t = .exit .die st) :
      Own s t { s.proc t with lock := true, xstate := st, state := .zombie } (.exit .gone st)
  | gone {st} (hp : s.pc t = .exit .gone st) :
      Own s t { s.proc t with lock := false } .dead
  | doze (hr : s.Running t) (hp : s.pc t = .wait .doze) :
      Own s t { s.proc t with lock := false, chan := some t, state := .sleeping }
        (.wait .asleep)
  | resume (hr : (s.proc t).state = .runnable) (hp : s.pc t = .wait .asleep) :
      Own s t { s.proc t with state := .running, chan := none } (.wait .acquire)
  | dispatch (hr : (s.proc t).state = .runnable) (hp : s.pc t ≠ .wait .asleep) :
      Own s t { s.proc t with state := .running } (s.pc t)
  | yield (hr : s.Running t) (hw : (s.pc t).holdsWait = false)
      (hl : (s.pc t).holdsProc = false) :
      Own s t { s.proc t with state := .runnable } (s.pc t)

theorem Procs.Control.child_ne (h : s.Control) (hk : (s.pc t).child = some k) : k ≠ t := by
  rintro rfl
  have hat := h.pcAt k
  rw [h.child _ _ hk] at hat
  rw [show s.pc k = .user from hat] at hk
  cases hk

omit [NeZero N] in
/-- The step leaves the mover's slot alone. -/
theorem Own.of_same {pc : ProcPc N} (hr : s.Running t) (ho : pc.out = false)
    (hl : pc.ownsLock = false) : Own s t (s.proc t) pc :=
  .steady hr hr rfl rfl id ho (by simp [hl])

theorem ProcMove.waitLock_self (hm : ProcMove s t s') :
    (s'.waitLock = s.waitLock ∧ (s'.pc t).holdsWait = (s.pc t).holdsWait) ∨
      (s.waitLock = none ∧ s'.waitLock = some t ∧ (s'.pc t).holdsWait = true) ∨
      ((s.pc t).holdsWait = true ∧ s'.waitLock = none ∧ (s'.pc t).holdsWait = false) := by
  cases hm with
  | goto hr hi hi' h0 =>
    exact .inl ⟨rfl, by simp [(ProcPc.idle_facts hi).1, (ProcPc.idle_facts hi').1]⟩
  | fault hr hp hi' h0 =>
    exact .inl ⟨rfl, by simp [hp, (ProcPc.idle_facts hi').1, ProcPc.holdsWait_user]⟩
  | link hr hp hw | exitAcquire hr hp hw | waitAcquire hr hp hw =>
    exact .inr (.inl ⟨hw, rfl, by simp [ProcPc.holdsWait]⟩)
  | setParent hr hp | die hr hp | reap hr hp | sleep hr hp | fail hr hp =>
    exact .inr (.inr ⟨by rw [hp]; rfl, rfl, by simp [ProcPc.holdsWait]⟩)
  | gone hp => exact .inl ⟨rfl, by simp [hp, ProcPc.holdsWait]⟩
  | dispatch hr hp => exact .inl ⟨rfl, rfl⟩
  | yield hr hp => exact .inl ⟨rfl, rfl⟩
  | alloc hr hp => exact .inl ⟨rfl, by simp [hp, Procs.allocAt, ProcPc.holdsWait]⟩
  | _ hr hp => exact .inl ⟨rfl, by simp [hp, ProcPc.holdsWait]⟩

/-! ## Control -/

section Control

variable (h : s.Control) (hm : ProcMove s t s')

include h hm

open ProcPc in
/-- A step changes the process that takes it as `Own` says. -/
theorem ProcMove.self : ∃ p pc, s'.proc t = p ∧ s'.pc t = pc ∧ Own s t p pc := by
  refine ⟨_, _, rfl, rfl, ?_⟩
  have other : ∀ {j : Fin N} {p : Proc N} {pc : ProcPc N}, (s.proc t).state = .running →
      j ≠ t → pc.out = false → pc.ownsLock = false →
      Own s t (Function.update s.proc j p t) pc := by
    intro j p pc hr hj ho hl
    rw [Function.update_of_ne hj.symm]
    exact .of_same hr ho hl
  cases hm with
  | goto hr hi hi' h0 =>
    obtain ⟨-, -, -, hl, ho⟩ := idle_facts hi'
    simpa using Own.of_same hr ho hl
  | trace hr hp =>
    simp only [Procs.goto_proc, Procs.note_proc, Procs.set_proc, Procs.goto_pc,
      Function.update_self]
    exact .steady hr hr rfl rfl id rfl (by simp [ownsLock])
  | fault hr hp hi' h0 =>
    obtain ⟨-, -, -, hl, ho⟩ := idle_facts hi'
    simp only [Procs.goto_proc, Procs.set_proc, Procs.goto_pc, Function.update_self]
    exact .steady hr hr rfl rfl (fun _ => rfl) ho (by simp [hl])
  | alloc hr hp hl hu =>
    simpa [Procs.allocAt] using other hr (by rintro rfl; simp [hr] at hu) rfl rfl
  | build hr hp | buildFail hr hp | setParent hr hp | start hr hp =>
    simpa using other hr (h.child_ne (by rw [hp]; rfl)) rfl rfl
  | reparent hr hp hk hc =>
    simpa using other hr (by rintro rfl; exact h.parent_ne _ hc) rfl rfl
  | @rewake j k i st q hr hp hk hl hq | @wakeParent j i st q hr hp hk hl hq =>
    by_cases hj : j = t
    · subst hj
      simpa [hq] using Own.of_same hr rfl rfl
    · simpa using other hr hj rfl rfl
  | reap hr hp hc hl hz =>
    simpa using other hr (by rintro rfl; simp [hr] at hz) rfl rfl
  | @kill j k pid hr hp hj hl hx =>
    by_cases hj : j = t
    · subst hj
      simp only [Procs.goto_proc, Procs.note_proc, Procs.set_proc, Procs.goto_pc,
        Function.update_self]
      exact .steady hr (by simp [Proc.kill, hr]) rfl rfl (fun _ => rfl) rfl (by simp [ownsLock])
    · simpa using other hr hj rfl rfl
  | sleep hr hp =>
    simp only [Procs.goto_proc, Procs.lockWait_proc, Procs.set_proc, Procs.goto_pc,
      Function.update_self]
    exact .steady hr hr rfl rfl id rfl (fun _ => rfl)
  | die hr hp hl => simpa using Own.die hr hp
  | gone hp => simpa using Own.gone hp
  | doze hr hp => simpa using Own.doze hr hp
  | resume hr hp => simpa using Own.resume hr hp
  | dispatch hr hp => simpa using Own.dispatch hr hp
  | yield hr hw hl => simpa using Own.yield hr hw hl
  | _ hr => simpa using Own.of_same hr rfl rfl

/-- A step leaves a process alive that is not the mover, and where it was. -/
theorem ProcMove.live_other (hu : u ≠ t) (hl : (s.proc u).Live) :
    (s'.proc u).Live ∧ s'.pc u = s.pc u := by
  have hbuild : (s.pc t).child ≠ some u := fun hc => by
    simp [Proc.Live, h.child _ _ hc] at hl
  obtain ⟨p, pc, hp', hpc', ht⟩ := hm.touch hu
  rw [hp', hpc']
  cases ht with
  | same => exact ⟨hl, rfl⟩
  | alloc hp hl' hun => simp [Proc.Live, hun] at hl
  | build hp | buildFail hp | setParent hp | start hp => simp [hp, ProcPc.child] at hbuild
  | reparent hp hc => exact ⟨hl, rfl⟩
  | reap hp hc hl' hz => simp [Proc.Live, hz] at hl
  | woken hw =>
    refine ⟨?_, rfl⟩
    rcases hw.state with hs | ⟨-, hs⟩
    · rwa [Proc.Live, hs]
    · exact .inr (.inl hs)

/-- A process that takes a step has been made `RUNNABLE`. -/
theorem ProcMove.mover : (s.proc t).Live ∨ ∃ st, s.pc t = .exit .gone st := by
  obtain ⟨p, pc, -, -, ho⟩ := hm.self h
  cases ho with
  | gone hp => exact .inr ⟨_, hp⟩
  | _ hr => exact .inl (by simp [Proc.Live, hr])

theorem ProcMove.pcAt (u : Fin N) : (s'.proc u).state.At (s'.pc u) := by
  have hat := h.pcAt u
  by_cases hu : u = t
  · subst hu
    obtain ⟨p, pc, hp', hpc', ho⟩ := hm.self h
    rw [hp', hpc']
    cases ho with
    | steady hr hs _ _ _ ho _ => rw [hs]; exact ho
    | die hr hp => exact .inr ⟨_, rfl⟩
    | gone hp =>
      rw [hp] at hat
      cases hs : (s.proc u).state <;> simp_all [ProcState.At, ProcPc.holdsProc, ProcPc.out]
    | doze hr hp => rfl
    | resume hr hp => rfl
    | dispatch hr hp =>
      rw [hr] at hat
      exact ProcPc.out_eq_false hat.2.1 hat.2.2 hp
    | yield hr hw hl =>
      rw [hr] at hat
      exact ⟨hw, hl, by rintro hd; simp [hd, ProcState.At, ProcPc.out] at hat⟩
  · have hbuild : (s.pc t).child = some u → s.pc u = .user := fun hc => by
      simpa [h.child _ _ hc, ProcState.At] using hat
    have hrun : (s.proc u).state = .sleeping → ProcState.runnable.At (s.pc u) := fun hs => by
      rw [hs] at hat
      rw [show s.pc u = .wait .asleep from hat]
      simp [ProcState.At, ProcPc.holdsWait, ProcPc.holdsProc]
    obtain ⟨p, pc, hp', hpc', ht⟩ := hm.touch hu
    rw [hp', hpc']
    cases ht with
    | alloc hp hl' hun => rfl
    | buildFail hp => exact .inl (hbuild (by rw [hp]; rfl))
    | start hp =>
      rw [hbuild (by rw [hp]; rfl)]
      simp [ProcState.At, ProcPc.holdsWait, ProcPc.holdsProc]
    | reap hp hc hl' hz =>
      rw [hz] at hat
      rcases hat with hd | ⟨st, hg⟩
      · exact .inr hd
      · have := h.own u (by rw [hg]; rfl)
        simp [hl'] at this
    | woken hw =>
      rcases hw.state with hs | ⟨hs, hs'⟩
      · rwa [hs]
      · exact hs' ▸ hrun hs
    | _ => exact hat

/-- A step moves no process but its own, except that a slot given up by an exited process
starts afresh. -/
theorem ProcMove.pc_other (hu : u ≠ t) : s'.pc u = s.pc u ∨ (s.pc u = .dead ∧ s'.pc u = .user) := by
  obtain ⟨p, pc, -, hpc', ht⟩ := hm.touch hu
  rw [hpc']
  cases ht with
  | alloc hp hl hun =>
    have hat := h.pcAt u
    rw [hun] at hat
    rcases hat with hd | hd
    · exact .inl hd.symm
    · exact .inr ⟨hd, rfl⟩
  | _ => exact .inl rfl

/-- A function of the point that is the same in user space and for an exited process is the
same after another's step. -/
theorem ProcMove.congr_other {α : Type*} (f : ProcPc N → α) (hf : f .dead = f .user) (hu : u ≠ t) :
    f (s'.pc u) = f (s.pc u) := by
  rcases hm.pc_other h hu with hpc | ⟨hd, hus⟩
  · rw [hpc]
  · rw [hd, hus, hf]

theorem ProcMove.waitLock (u : Fin N) : (s'.pc u).holdsWait = true ↔ s'.waitLock = some u := by
  have hiff := h.waitLock u
  by_cases hu : u = t
  · subst hu
    rcases hm.waitLock_self with ⟨hw, hp⟩ | ⟨-, hw, hp⟩ | ⟨-, hw, hp⟩
    · rw [hw, hp, hiff]
    · simp [hw, hp]
    · simp [hw, hp]
  · rw [hm.congr_other h ProcPc.holdsWait rfl hu, hiff]
    rcases hm.waitLock_self with ⟨hw, -⟩ | ⟨hw, hw', -⟩ | ⟨hp, hw', -⟩
    · rw [hw]
    · simp [hw, hw', Ne.symm hu]
    · simp [(h.waitLock t).1 hp, hw', Ne.symm hu]

/-- The child that a process builds after a step is the one it built before, still `USED`,
or newly allocated. -/
theorem ProcMove.child_self (hk : (s'.pc t).child = some k) :
    (s'.proc k).state = .used ∧
      ((s.pc t).child = some k ∨ (s.proc k).state = .unused) := by
  have kept : (s.pc t).child = some k → (s'.proc k).state = (s.proc k).state →
      (s'.proc k).state = .used ∧ ((s.pc t).child = some k ∨ (s.proc k).state = .unused) :=
    fun hc hs => ⟨by rw [hs, h.child _ _ hc], .inl hc⟩
  cases hm with
  | goto hr hi hi' h0 => simp [(ProcPc.idle_facts hi').2.2.1] at hk
  | fault hr hp hi' h0 => simp [(ProcPc.idle_facts hi').2.2.1] at hk
  | @alloc j i hr hp hl hu =>
    obtain rfl : j = k := by simpa [Procs.allocAt, ProcPc.child] using hk
    exact ⟨by simp [Procs.allocAt, Proc.alloc], .inr hu⟩
  | build hr hp | link hr hp | setParent hr hp =>
    obtain rfl := by simpa [ProcPc.child] using hk
    exact kept (by rw [hp]; rfl) (by simp)
  | dispatch hr hp | yield hr hp =>
    have hc : (s.pc t).child = some k := hk
    exact kept hc (by simp [h.child_ne hc])
  | _ => simp [ProcPc.child] at hk

/-- A child under construction takes no steps. -/
theorem ProcMove.child_ne (hk : (s.pc u).child = some k) : k ≠ t := by
  rintro rfl
  have hused := h.child _ _ hk
  rcases hm.mover h with hl | ⟨st, hg⟩
  · simp [Proc.Live, hused] at hl
  · have hat := h.pcAt k
    simp [hused, ProcState.At, hg] at hat

theorem ProcMove.child {u k : Fin N} (hk : (s'.pc u).child = some k) :
    (s'.proc k).state = .used := by
  by_cases hu : u = t
  · subst hu
    exact (hm.child_self h hk).1
  · rw [hm.congr_other h ProcPc.child rfl hu] at hk
    have hused := h.child _ _ hk
    have hkt := hm.child_ne h hk
    have hinj : (s.pc t).child ≠ some k := fun hc => hu (h.child_inj _ _ _ hk hc)
    obtain ⟨p, pc, hp', -, ht⟩ := hm.touch hkt
    rw [hp']
    cases ht with
    | alloc hp hl hun => simp [hused] at hun
    | build hp | buildFail hp | setParent hp | start hp => simp [hp, ProcPc.child] at hinj
    | reap hp hc hl hz => simp [hused] at hz
    | woken hw => simpa [hused] using hw.state
    | _ => exact hused

theorem ProcMove.child_inj {u v k : Fin N} (hu : (s'.pc u).child = some k)
    (hv : (s'.pc v).child = some k) : u = v := by
  have key : ∀ v, v ≠ t → (s'.pc t).child = some k → (s'.pc v).child = some k → False := by
    intro v hvt ht hv
    rw [hm.congr_other h ProcPc.child rfl hvt] at hv
    rcases (hm.child_self h ht).2 with hc | hun
    · exact hvt (h.child_inj _ _ _ hv hc)
    · simp [h.child _ _ hv] at hun
  by_cases hut : u = t
  · subst hut
    by_contra hvu
    exact key v (Ne.symm hvu) hu hv
  · by_cases hvt : v = t
    · subst hvt
      exact (key u hut hv hu).elim
    · rw [hm.congr_other h ProcPc.child rfl hut] at hu
      rw [hm.congr_other h ProcPc.child rfl hvt] at hv
      exact h.child_inj _ _ _ hu hv

theorem ProcMove.own {u : Fin N} (ho : (s'.pc u).ownsLock = true) : (s'.proc u).lock = true := by
  by_cases hu : u = t
  · subst hu
    obtain ⟨p, pc, hp', hpc', hs⟩ := hm.self h
    rw [hp']
    rw [hpc'] at ho
    cases hs with
    | steady _ _ _ _ _ _ hl => exact hl ho
    | die hr hp => rfl
    | gone | doze | resume => cases ho
    | dispatch hr hp => exact h.own _ ho
    | yield hr hw hl => exact h.own _ ho
  · rw [hm.congr_other h ProcPc.ownsLock rfl hu] at ho
    have hlock := h.own _ ho
    have hbuild : (s.pc t).child ≠ some u := fun hc => by
      have hat := h.pcAt u
      rw [h.child _ _ hc] at hat
      rw [show s.pc u = .user from hat] at ho
      cases ho
    obtain ⟨p, pc, hp', -, ht⟩ := hm.touch hu
    rw [hp']
    cases ht with
    | alloc => rfl
    | build hp | buildFail hp => simp [hp, ProcPc.child] at hbuild
    | reap hp hc hl hz => simp [hlock] at hl
    | woken hw => rwa [hw.lock]
    | _ => exact hlock

theorem ProcMove.init : (s'.proc 0).Live ∧ (s'.pc 0).exiting = false := by
  obtain ⟨hl, hx⟩ := h.init
  by_cases ht : 0 = t
  · subst ht
    constructor
    · obtain ⟨p, pc, hp', -, hs⟩ := hm.self h
      rw [hp']
      cases hs with
      | steady _ hs => exact .inr (.inr hs)
      | die hr hp | gone hp => simp [hp, ProcPc.exiting] at hx
      | doze => exact .inl rfl
      | yield => exact .inr (.inl rfl)
      | resume | dispatch => exact .inr (.inr rfl)
    · cases hm with
      | goto hr hi hi' h0 | fault hr hp hi' h0 => simpa using h0 rfl
      | dispatch | yield => exact hx
      | gone hp => simp [hp, ProcPc.exiting] at hx
      | alloc => simp [Procs.allocAt, ProcPc.exiting]
      | _ hr hp => first | simp [ProcPc.exiting]; done | simp [hp, ProcPc.exiting] at hx
  · obtain ⟨hl', hpc⟩ := hm.live_other h ht hl
    exact ⟨hl', by rw [hpc, hx]⟩

/-- What a step does to `p->parent`. -/
theorem ProcMove.parent_cases (k : Fin N) :
    (s'.proc k).parent = (s.proc k).parent ∨ (s'.proc k).parent = none ∨
      (∃ pid, s.pc t = .fork (.setParent k pid) ∧ (s'.proc k).parent = some t) ∨
      (∃ st, s.pc t = .exit (.reparent k) st ∧ (s.proc k).parent = some t ∧
        (s'.proc k).parent = some 0) := by
  by_cases hk : k = t
  · subst hk
    left
    obtain ⟨p, pc, hp', -, hs⟩ := hm.self h
    rw [hp']
    cases hs with
    | steady _ _ hp => exact hp
    | _ => rfl
  · obtain ⟨p, pc, hp', -, ht⟩ := hm.touch hk
    rw [hp']
    cases ht with
    | buildFail | reap => exact .inr (.inl rfl)
    | setParent hp => exact .inr (.inr (.inl ⟨_, hp, rfl⟩))
    | reparent hp hc => exact .inr (.inr (.inr ⟨_, hp, hc, rfl⟩))
    | woken hw => exact .inl hw.parent
    | _ => exact .inl rfl

theorem ProcMove.parent_init : (s'.proc 0).parent = none := by
  rcases hm.parent_cases h 0 with hp | hp | ⟨pid, hp, -⟩ | ⟨st, -, hp, -⟩
  · rw [hp, h.parent_init]
  · exact hp
  · have hl := h.init.1
    simp [Proc.Live, h.child t 0 (by rw [hp]; rfl)] at hl
  · simp [h.parent_init] at hp

theorem ProcMove.parent_ne (k : Fin N) : (s'.proc k).parent ≠ some k := by
  rcases hm.parent_cases h k with hp | hp | ⟨pid, hp, hp'⟩ | ⟨st, -, hp, hp'⟩
  · rw [hp]
    exact h.parent_ne k
  · simp [hp]
  · rw [hp']
    have hk : k ≠ t := h.child_ne (by rw [hp]; rfl)
    simp [Ne.symm hk]
  · rw [hp']
    intro h0
    obtain rfl : 0 = k := by simpa using h0
    simp [h.parent_init] at hp

theorem ProcMove.control : s'.Control where
  pcAt := hm.pcAt h
  waitLock := hm.waitLock h
  child _ _ := hm.child h
  child_inj _ _ _ := hm.child_inj h
  own _ := hm.own h
  init := hm.init h
  parent_init := hm.parent_init h
  parent_ne := hm.parent_ne h

end Control

theorem control_start : (Procs.start : Procs N).Control where
  pcAt t := by
    by_cases ht : t = 0
    · subst ht
      simp [Procs.start, ProcState.At, ProcPc.holdsWait, ProcPc.holdsProc]
    · simp [Procs.start, ht, Proc.zero, ProcState.At]
  waitLock t := by simp [Procs.start, ProcPc.holdsWait]
  child t k hk := by simp [Procs.start, ProcPc.child] at hk
  child_inj t u k hk := by simp [Procs.start, ProcPc.child] at hk
  own t ho := by simp [Procs.start, ProcPc.ownsLock] at ho
  init := ⟨.inr (.inl (by simp [Procs.start])), rfl⟩
  parent_init := by simp [Procs.start, Proc.zero]
  parent_ne k := by
    by_cases hk : k = 0 <;> simp [Procs.start, hk, Proc.zero]

theorem control_reach {ok : Procs N → ProcLabel N → Prop}
    (h : Machine.Reach Procs.step ok Procs.start s) : s.Control :=
  h.invariant control_start fun _ _ _ hc _ hs => (move_of_step hs).control hc

end Xv6
