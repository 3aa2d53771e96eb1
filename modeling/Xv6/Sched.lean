import Xv6.Monitor

/-!
# Processors, processes and `p->lock`

`Monitor` lets a thread go to sleep in two steps and wakes threads in one visit each. Here are
the functions of `proc.c` behind it, at the granularity of `p->lock` : `sleep` takes `p->lock`,
releases `lk`, marks the process `SLEEPING` and calls `sched`, which switches to the scheduler
of the processor; the scheduler releases `p->lock`, and takes it again to run a process it
finds `RUNNABLE`. A timer interrupt makes a process that holds no lock `yield`. `wakeup` and
`kill` look at a process with its lock held. There are any number of processors.

From outside, `p->lock` is held from before `sleep` releases `lk` until the processor has left
the process. So a process that has released `lk` and still has its lock held is `dozing`, it is
`asleep` once the lock is free, and every step of the processors is one step of `Monitor` or
none (`Cpus.step_view`). What `Monitor` proves of a program holds on the processors.
-/

namespace Xv6

open Monitor Function

/-! ## The processors -/

/-- `p->state`, for a process that lives. -/
inductive RunState
  | runnable
  | running
  | sleeping
  deriving DecidableEq, Repr

/-- Where a process is in `sleep` and `wakeup`. -/
inductive KernelPt (C : Type*)
  /-- at an instruction of its program -/
  | code
  /-- `sleep(c)`, before `release(lk)` -/
  | letgo (c : C)
  /-- before `p->chan` and `p->state` are set -/
  | mark (c : C)
  /-- before `sched` -/
  | sched (c : C)
  /-- `sched` returned -/
  | resumed (c : C)
  /-- before `acquire(lk)` -/
  | relock
  /-- `wakeup(c)`, at `proc[j]` -/
  | wakeup (c : C) (j : ℕ)
  deriving DecidableEq, Repr

structure Kproc (C P : Type*) where
  pc : P
  pos : KernelPt C
  /-- in `yield`, and `sched` is called -/
  yields : Bool
  state : RunState
  chan : Option C
  killed : Bool
  /-- `p->lock` is held -/
  lock : Bool

/-- What a processor does : the loop of `scheduler`, a process, or the scheduler after the
process switched back to it. -/
inductive Cpu (N : ℕ)
  | scan (j : ℕ)
  | run (t : Fin N)
  | back (t : Fin N)
  deriving DecidableEq, Repr

structure Cpus (N M : ℕ) (C S P : Type*) where
  shared : S
  /-- who holds the lock `lk` of the program -/
  lock : Option (Fin N)
  proc : Fin N → Kproc C P
  cpu : Fin M → Cpu N

inductive CpuLabel (N M : ℕ) (I : Type*)
  | step (c : Fin M) (i : I)
  | timer (c : Fin M)
  | kill (t : Fin N)

variable {N M : ℕ} {C S P I : Type*}

namespace Cpus

def setProc (s : Cpus N M C S P) (t : Fin N) (p : Kproc C P) : Cpus N M C S P :=
  { s with proc := update s.proc t p }

def setCpu (s : Cpus N M C S P) (c : Fin M) (x : Cpu N) : Cpus N M C S P :=
  { s with cpu := update s.cpu c x }

def setLock (s : Cpus N M C S P) (l : Option (Fin N)) : Cpus N M C S P := { s with lock := l }

end Cpus

/-- What `wakeup` does to a process. -/
def Kproc.wakeup [DecidableEq C] (c : C) (p : Kproc C P) : Kproc C P :=
  if p.state = .sleeping ∧ p.chan = some c then { p with state := .runnable } else p

/-- What `kill` does to its target. -/
def Kproc.kill (p : Kproc C P) : Kproc C P :=
  { p with killed := true, state := if p.state = .sleeping then .runnable else p.state }

/-- A step of process `t` on the processor `c`. -/
def procStep [DecidableEq C] (code : P → Instr C S P I) (s : Cpus N M C S P) (c : Fin M)
    (t : Fin N) (i : I) : Option (Cpus N M C S P) :=
  let p := s.proc t
  if p.yields then some (s.setProc t { p with yields := false, lock := false })
  else match p.pos with
  | .code =>
    match code p.pc with
    | .acquire k =>
      if s.lock = none then some ((s.setProc t { p with pc := k }).setLock (some t)) else none
    | .release k =>
      if s.lock = some t then some ((s.setProc t { p with pc := k }).setLock none) else none
    | .sleep c' _ =>
      if s.lock = some t ∧ p.lock = false then
        some (s.setProc t { p with lock := true, pos := .letgo c' })
      else none
    | .wakeup c' _ => some (s.setProc t { p with pos := .wakeup c' 0 })
    | .killed k =>
      if p.lock = false then some (s.setProc t { p with pc := k p.killed }) else none
    | .act f => (f i s.shared).map fun r => { s.setProc t { p with pc := r.2 } with shared := r.1 }
  | .letgo c' =>
    if s.lock = some t then some ((s.setProc t { p with pos := .mark c' }).setLock none) else none
  | .mark c' =>
    some (s.setProc t { p with chan := some c', state := .sleeping, pos := .sched c' })
  | .sched c' => some ((s.setProc t { p with pos := .resumed c' }).setCpu c (.back t))
  | .resumed _ => some (s.setProc t { p with chan := none, lock := false, pos := .relock })
  | .relock =>
    match code p.pc with
    | .sleep _ k =>
      if s.lock = none then some ((s.setProc t { p with pc := k, pos := .code }).setLock (some t))
      else none
    | _ => none
  | .wakeup c' j =>
    if h : j < N then
      if (⟨j, h⟩ : Fin N) = t then some (s.setProc t { p with pos := .wakeup c' (j + 1) })
      else if (s.proc ⟨j, h⟩).lock then none
      else some ((s.setProc ⟨j, h⟩ ((s.proc ⟨j, h⟩).wakeup c')).setProc t
        { p with pos := .wakeup c' (j + 1) })
    else
      match code p.pc with
      | .wakeup _ k => some (s.setProc t { p with pc := k, pos := .code })
      | _ => none

/-- A step of the processor `c`. -/
def cpuStep [DecidableEq C] (code : P → Instr C S P I) (s : Cpus N M C S P) (c : Fin M) (i : I) :
    Option (Cpus N M C S P) :=
  match s.cpu c with
  | .scan j =>
    if h : j < N then
      let p := s.proc ⟨j, h⟩
      if p.lock then none
      else if p.state = .runnable then
        some ((s.setProc ⟨j, h⟩ { p with state := .running, lock := true }).setCpu c (.run ⟨j, h⟩))
      else some (s.setCpu c (.scan (j + 1)))
    else some (s.setCpu c (.scan 0))
  | .back t =>
    some ((s.setProc t { s.proc t with lock := false }).setCpu c (.scan (t + 1)))
  | .run t => procStep code s c t i

/-- `yield`, from an interrupt : the process holds no lock. -/
def timerStep (s : Cpus N M C S P) (c : Fin M) : Option (Cpus N M C S P) :=
  match s.cpu c with
  | .run t =>
    let p := s.proc t
    if s.lock ≠ some t ∧ p.lock = false then
      some ((s.setProc t { p with lock := true, state := .runnable, yields := true }).setCpu c
        (.back t))
    else none
  | _ => none

def Cpus.step [DecidableEq C] (code : P → Instr C S P I) (s : Cpus N M C S P) :
    CpuLabel N M I → Option (Cpus N M C S P)
  | .step c i => cpuStep code s c i
  | .timer c => timerStep s c
  | .kill t => if (s.proc t).lock then none else some (s.setProc t (s.proc t).kill)

/-- Every process is `RUNNABLE` and will start at its point of `p`, as after `fork`. -/
def Cpus.start (N M : ℕ) (C : Type*) (sh : S) (p : Fin N → P) : Cpus N M C S P where
  shared := sh
  lock := none
  proc t := ⟨p t, .code, true, .runnable, none, false, false⟩
  cpu _ := .scan 0

/-! ## As seen by `Monitor` -/

def Kproc.mode (p : Kproc C P) : Mode C :=
  match p.pos with
  | .code | .letgo _ => .running
  | .mark c | .sched c => .dozing c
  | .resumed c =>
    if p.state = .sleeping then if p.lock then .dozing c else .asleep c else .roused
  | .relock => .roused
  | .wakeup c j => .waking c j

def Kproc.thread (p : Kproc C P) : Thread C P := ⟨p.pc, p.mode, p.killed⟩

def Cpus.view (s : Cpus N M C S P) : State N C S P := ⟨s.shared, s.lock, fun t => (s.proc t).thread⟩

/-- Which processor has a process. -/
inductive Role (M : ℕ)
  | idle
  | run (c : Fin M)
  | back (c : Fin M)

/-- The processors and the processes agree on who runs whom. -/
def Coupled (cpu : Fin M → Cpu N) (role : Fin N → Role M) : Prop :=
  ∀ c t, (cpu c = .run t ↔ role t = .run c) ∧ (cpu c = .back t ↔ role t = .back c)

/-- A process is inside `sleep` with its lock held, and has not called `sched`. -/
def KernelPt.Inner : KernelPt C → Prop
  | .letgo _ | .mark _ | .sched _ => True
  | _ => False

/-- A process without a processor : it can only sleep where `sched` returns. -/
def Kproc.Off (p : Kproc C P) : Prop :=
  p.state ≠ .running ∧ ¬ p.pos.Inner ∧
    (p.state = .sleeping → ∃ c, p.pos = .resumed c ∧ p.chan = some c)

/-- A process on a processor runs, until it has marked itself. -/
def Kproc.On (p : Kproc C P) : Prop :=
  (p.pos.Inner → p.lock = true ∧ p.yields = false) ∧
    ((∀ c, p.pos ≠ .sched c) → p.state = .running) ∧
    ∀ c, p.pos = .sched c → p.state = .sleeping ∧ p.chan = some c

def Kproc.Fits : Role M → Kproc C P → Prop
  | .idle, p => p.lock = false ∧ p.Off
  | .run _, p => p.On
  | .back _, p => p.lock = true ∧ p.Off

/-- The program is at the `sleep` or `wakeup` that the process is in. -/
def Kproc.At (code : P → Instr C S P I) (p : Kproc C P) : Prop :=
  match p.pos with
  | .code => True
  | .letgo c | .mark c | .sched c | .resumed c => ∃ k, code p.pc = .sleep c k
  | .relock => ∃ c k, code p.pc = .sleep c k
  | .wakeup c _ => ∃ k, code p.pc = .wakeup c k

theorem Kproc.On.running {p : Kproc C P} (h : p.On) (hin : ¬ p.pos.Inner) : p.state = .running :=
  h.2.1 fun c hc => hin (by rw [hc]; trivial)

theorem Kproc.on_of_running {p : Kproc C P} (hin : ¬ p.pos.Inner) (hs : p.state = .running) :
    p.On :=
  ⟨fun h => absurd h hin, fun _ => hs, fun c hc => absurd (by rw [hc]; trivial) hin⟩

structure Cpus.Ok (code : P → Instr C S P I) (s : Cpus N M C S P) (role : Fin N → Role M) :
    Prop where
  coupled : Coupled s.cpu role
  fits : ∀ t, (s.proc t).Fits (role t)
  pos : ∀ t, (s.proc t).At code

namespace Coupled

variable {cpu : Fin M → Cpu N} {role : Fin N → Role M} {c : Fin M} {t : Fin N}

variable (h : Coupled cpu role)

include h

/-- The processor `c` and the process `t` have nobody else, before and after. -/
theorem update {x : Cpu N} {r : Role M} (hc : ∀ u, u ≠ t → cpu c ≠ .run u ∧ cpu c ≠ .back u)
    (ht : ∀ d, d ≠ c → role t ≠ .run d ∧ role t ≠ .back d)
    (hx : ∀ u, (x = .run u ↔ u = t ∧ r = .run c) ∧ (x = .back u ↔ u = t ∧ r = .back c))
    (hr : ∀ d, (r = .run d → d = c) ∧ (r = .back d → d = c)) :
    Coupled (Function.update cpu c x) (Function.update role t r) := by
  intro d u
  have h1 := h d u
  by_cases hd : d = c <;> by_cases hu : u = t
  · subst hd hu
    simpa using hx u
  · subst hd
    rw [update_self, update_of_ne hu]
    have h2 := hc u hu
    rw [Ne, Ne, h1.1, h1.2] at h2
    simp [hx u, hu, h2]
  · subst hu
    rw [update_of_ne hd, update_self]
    have h2 := ht d hd
    rw [Ne, Ne, ← h1.1, ← h1.2] at h2
    have h3 : r ≠ .run d ∧ r ≠ .back d := ⟨fun he => hd ((hr d).1 he), fun he => hd ((hr d).2 he)⟩
    simp [h2, h3]
  · rw [update_of_ne hd, update_of_ne hu]
    exact h1

theorem toBack (hc : cpu c = .run t) :
    Coupled (Function.update cpu c (.back t)) (Function.update role t (.back c)) := by
  refine h.update (fun u hu => ?_) (fun d hd => ?_) (fun u => by simp [eq_comm]) fun d => ?_
  · simp [hc, Ne.symm hu]
  · simp [(h c t).1.1 hc, Ne.symm hd]
  · simp [eq_comm]

theorem toIdle (hc : cpu c = .back t) (j : ℕ) :
    Coupled (Function.update cpu c (.scan j)) (Function.update role t .idle) := by
  refine h.update (fun u hu => ?_) (fun d hd => ?_) (fun u => by simp) fun d => by simp
  · simp [hc, Ne.symm hu]
  · simp [(h c t).2.1 hc, Ne.symm hd]

theorem toRun {j : ℕ} (hc : cpu c = .scan j) (ht : role t = .idle) :
    Coupled (Function.update cpu c (.run t)) (Function.update role t (.run c)) :=
  h.update (fun u _ => by simp [hc]) (fun d _ => by simp [ht]) (fun u => by simp [eq_comm])
    fun d => by simp [eq_comm]

theorem scan {j : ℕ} (hc : cpu c = .scan j) (k : ℕ) :
    Coupled (Function.update cpu c (.scan k)) role := by
  intro d u
  by_cases hd : d = c
  · subst hd
    have h1 := h d u
    rw [hc] at h1
    simpa using h1
  · rw [update_of_ne hd]
    exact h d u

end Coupled

namespace Cpus

variable {s s' : Cpus N M C S P} {role : Fin N → Role M} {code : P → Instr C S P I} {t : Fin N}
  {p : Kproc C P} {c : Fin M}

theorem view_setProc (s : Cpus N M C S P) (t : Fin N) (p : Kproc C P) :
    (s.setProc t p).view = { s.view with thread := update s.view.thread t p.thread } := by
  have h : (fun u => (update s.proc t p u).thread) =
      update (fun u => (s.proc u).thread) t p.thread :=
    funext (apply_update (fun _ => Kproc.thread) s.proc t p)
  simp only [view, setProc, h]

theorem view_setProc_same (h : p.thread = (s.proc t).thread) : (s.setProc t p).view = s.view := by
  rw [view_setProc, h]
  exact congrArg (fun f => { s.view with thread := f }) (update_eq_self t s.view.thread)

@[simp] theorem setProc_self (s : Cpus N M C S P) (t : Fin N) : s.setProc t (s.proc t) = s := by
  simp [setProc]

@[simp] theorem view_lock (s : Cpus N M C S P) : s.view.lock = s.lock := rfl

@[simp] theorem view_shared (s : Cpus N M C S P) : s.view.shared = s.shared := rfl

@[simp] theorem view_thread (s : Cpus N M C S P) (t : Fin N) :
    s.view.thread t = (s.proc t).thread := rfl

theorem Ok.start (code : P → Instr C S P I) (sh : S) (q : Fin N → P) :
    (Cpus.start N M C sh q).Ok code fun _ => .idle where
  coupled _ _ := by simp [Cpus.start]
  fits _ := ⟨rfl, nofun, id, nofun⟩
  pos _ := trivial

section Ok

variable (h : s.Ok code role)

include h

theorem Ok.setProc (hf : p.Fits (role t)) (ha : p.At code) : (s.setProc t p).Ok code role where
  coupled := h.coupled
  fits := (forall_update_iff s.proc (p := fun u q => q.Fits (role u))).2 ⟨hf, fun u _ => h.fits u⟩
  pos := (forall_update_iff s.proc (p := fun _ q => q.At code)).2 ⟨ha, fun u _ => h.pos u⟩

theorem Ok.switch {x : Cpu N} {r : Role M} (hc : Coupled (update s.cpu c x) (update role t r))
    (hf : p.Fits r) (ha : p.At code) : ((s.setProc t p).setCpu c x).Ok code (update role t r) where
  coupled := hc
  fits u := by
    by_cases hu : u = t
    · subst hu
      simpa [Cpus.setProc, setCpu] using hf
    · simpa [Cpus.setProc, setCpu, hu] using h.fits u
  pos := (forall_update_iff s.proc (p := fun _ q => q.At code)).2 ⟨ha, fun u _ => h.pos u⟩

theorem Ok.on (hc : s.cpu c = .run t) : (s.proc t).On := by
  have := h.fits t
  rwa [(h.coupled c t).1.1 hc] at this

/-- A process whose lock is free sleeps only where `sched` returns, and then has no
processor. -/
theorem Ok.sleeps (hl : (s.proc t).lock = false) :
    ¬ (s.proc t).pos.Inner ∧ ((s.proc t).state = .sleeping →
      role t = .idle ∧ ∃ c, (s.proc t).pos = .resumed c ∧ (s.proc t).chan = some c) := by
  have hf := h.fits t
  cases hr : role t with
  | idle =>
    rw [hr] at hf
    exact ⟨hf.2.2.1, fun hs => ⟨rfl, hf.2.2.2 hs⟩⟩
  | back c =>
    rw [hr] at hf
    exact absurd hf.1 (by simp [hl])
  | run c =>
    rw [hr] at hf
    have hin : ¬ (s.proc t).pos.Inner := fun hin => absurd (hf.1 hin).1 (by simp [hl])
    refine ⟨hin, fun hs => ?_⟩
    cases hs.symm.trans (hf.running hin)

theorem Ok.idle_of_runnable (hl : (s.proc t).lock = false) (hr : (s.proc t).state = .runnable) :
    role t = .idle := by
  have hf := h.fits t
  cases hrole : role t with
  | idle => rfl
  | back c =>
    rw [hrole] at hf
    exact absurd hf.1 (by simp [hl])
  | run c =>
    rw [hrole] at hf
    cases hr.symm.trans (hf.running (h.sleeps hl).1)

/-- `Monitor` sees a process whose lock is free asleep if its state is `SLEEPING`, and else
not at rest. -/
theorem Ok.mode_of_free (hl : (s.proc t).lock = false) :
    ((s.proc t).state = .sleeping ∧ role t = .idle ∧
      ∃ c, (s.proc t).pos = .resumed c ∧ (s.proc t).chan = some c ∧ (s.proc t).mode = .asleep c) ∨
    ((s.proc t).state ≠ .sleeping ∧ ∀ c, (s.proc t).mode ≠ .dozing c ∧
      (s.proc t).mode ≠ .asleep c) := by
  obtain ⟨hin, hsl⟩ := h.sleeps hl
  by_cases hs : (s.proc t).state = .sleeping
  · obtain ⟨hidle, c, hp, hch⟩ := hsl hs
    exact .inl ⟨hs, hidle, c, hp, hch, by simp [Kproc.mode, hp, hs, hl]⟩
  · refine .inr ⟨hs, fun c => ?_⟩
    unfold Kproc.mode
    generalize (s.proc t).pos = x at hin ⊢
    cases x <;> simp_all [KernelPt.Inner]

/-- `Monitor` sees a process that is `SLEEPING` at rest. -/
theorem Ok.resting (hs : (s.proc t).state = .sleeping) : ∃ c, s.view.Resting t c := by
  have hf := h.fits t
  have hoff : (s.proc t).Off → ∃ c, s.view.Resting t c := fun ho => by
    obtain ⟨c, hp, -⟩ := ho.2.2 hs
    refine ⟨c, ?_⟩
    cases hl : (s.proc t).lock <;>
      simp [State.Resting, view, Kproc.thread, Kproc.mode, hp, hs, hl]
  cases hr : role t with
  | idle =>
    rw [hr] at hf
    exact hoff hf.2
  | back c =>
    rw [hr] at hf
    exact hoff hf.2
  | run c =>
    rw [hr] at hf
    by_cases hp : ∃ c, (s.proc t).pos = .sched c
    · obtain ⟨c, hp⟩ := hp
      exact ⟨c, .inl (by simp [view, Kproc.thread, Kproc.mode, hp])⟩
    · cases hs.symm.trans (hf.2.1 (not_exists.mp hp))

/-- A sleeper is made `RUNNABLE`, by `wakeup` or by `kill`. -/
theorem Ok.rouse (hl : (s.proc t).lock = false) (hs : (s.proc t).state = .sleeping) (b : Bool) :
    (s.setProc t { s.proc t with state := .runnable, killed := b }).Ok code role := by
  obtain ⟨hin, hsl⟩ := h.sleeps hl
  refine h.setProc ?_ (h.pos t)
  rw [(hsl hs).1]
  exact ⟨hl, nofun, hin, nofun⟩

theorem Ok.fits_run (hc : s.cpu c = .run t) (hp : p.On) : p.Fits (role t) := by
  rwa [(h.coupled c t).1.1 hc]

/-- A process that runs keeps running, at an instruction of its program or in `wakeup`. -/
theorem Ok.fits_running (hc : s.cpu c = .run t) (hin : ¬ (s.proc t).pos.Inner) (hp : ¬ p.pos.Inner)
    (hst : p.state = (s.proc t).state) : p.Fits (role t) :=
  h.fits_run hc (Kproc.on_of_running hp (hst.trans ((h.on hc).running hin)))

theorem Ok.at_pos {x : KernelPt C} (hp : (s.proc t).pos = x) :
    Kproc.At code { s.proc t with pos := x } := hp ▸ h.pos t

end Ok

/-- One step of the processors is one step of `Monitor`, or none. -/
def Refines [DecidableEq C] (code : P → Instr C S P I) (s s' : Cpus N M C S P) : Prop :=
  (∃ role, s'.Ok code role) ∧
    (s'.view = s.view ∨ ∃ a, Monitor.step code s.view a = some s'.view)

section Step

variable [DecidableEq C]

section Ok

variable (h : s.Ok code role)

include h

/-- The process changes nothing that `Monitor` sees. -/
theorem Ok.stutter (hf : p.Fits (role t)) (ha : p.At code) (hv : p.thread = (s.proc t).thread) :
    Refines code s (s.setProc t p) :=
  ⟨⟨role, h.setProc hf ha⟩, .inl (view_setProc_same hv)⟩

theorem Ok.stutterSwitch {x : Cpu N} {r : Role M}
    (hc : Coupled (update s.cpu c x) (update role t r)) (hf : p.Fits r) (ha : p.At code)
    (hv : p.thread = (s.proc t).thread) : Refines code s ((s.setProc t p).setCpu c x) :=
  ⟨⟨_, h.switch hc hf ha⟩, .inl (view_setProc_same hv)⟩

/-- The process, and perhaps the program's lock and data, change as `Monitor` has it. -/
theorem Ok.visible {x : Cpus N M C S P} {b : Label N I} (hcpu : x.cpu = s.cpu)
    (hproc : x.proc = update s.proc t p) (hf : p.Fits (role t)) (ha : p.At code)
    (hstep : Monitor.step code s.view b = some
      ⟨x.shared, x.lock, update s.view.thread t p.thread⟩) : Refines code s x := by
  have hok := h.setProc hf ha
  have hview : x.view = ⟨x.shared, x.lock, update s.view.thread t p.thread⟩ := by
    rw [view, hproc]
    exact congrArg (fun v : State N C S P => State.mk x.shared x.lock v.thread)
      (view_setProc s t p)
  exact ⟨⟨role, hcpu ▸ h.coupled, hproc ▸ hok.fits, hproc ▸ hok.pos⟩, .inr ⟨b, hview ▸ hstep⟩⟩

/-- `wakeup` visits the process `u`. -/
theorem Ok.visit {u : Fin N} (hl : (s.proc u).lock = false) (d : C) :
    (s.setProc u ((s.proc u).wakeup d)).Ok code role ∧
      ((∃ d', (s.proc u).mode = .asleep d' ∧ (s.setProc u ((s.proc u).wakeup d)).view =
        if d' = d then s.view.setMode u .roused else s.view) ∨
      (∀ d', (s.proc u).mode ≠ .dozing d' ∧ (s.proc u).mode ≠ .asleep d') ∧
        (s.setProc u ((s.proc u).wakeup d)).view = s.view) := by
  rcases h.mode_of_free hl with ⟨hst, -, d', hpd, hch, hmd⟩ | ⟨hst, hnot⟩
  · by_cases hd : d' = d
    · have hw : (s.proc u).wakeup d =
          { s.proc u with state := .runnable, killed := (s.proc u).killed } := by
        simp [Kproc.wakeup, hst, hch, hd]
      rw [hw]
      refine ⟨h.rouse hl hst _, .inl ⟨d', hmd, ?_⟩⟩
      rw [if_pos hd, view_setProc]
      simp [State.setMode, Kproc.thread, Kproc.mode, hpd]
    · have hw : (s.proc u).wakeup d = s.proc u := by simp [Kproc.wakeup, hch, hd]
      rw [hw, setProc_self]
      exact ⟨h, .inl ⟨d', hmd, (if_neg hd).symm⟩⟩
  · have hw : (s.proc u).wakeup d = s.proc u := by simp [Kproc.wakeup, hst]
    rw [hw, setProc_self]
    exact ⟨h, .inr ⟨hnot, rfl⟩⟩

variable {i : I}

/-- A step at an instruction of the program. -/
theorem Ok.codeStep (hc : s.cpu c = .run t) (hy : (s.proc t).yields = false)
    (hp : (s.proc t).pos = .code) (hs : procStep code s c t i = some s') : Refines code s s' := by
  have hin : ¬ (s.proc t).pos.Inner := by rw [hp]; exact id
  have hrun := (h.on hc).running hin
  -- the process is taken to the point `k`
  have hf : ∀ k, Kproc.Fits (role t) { s.proc t with pc := k, pos := .code, yields := false } :=
    fun k => h.fits_running hc hin id rfl
  simp only [procStep, hy, hp, Bool.false_eq_true, if_false] at hs
  cases hi : code (s.proc t).pc with
  | acquire k =>
    simp only [hi] at hs
    split at hs <;> cases hs
    refine h.visible (b := .run t i) rfl rfl (hf k) trivial ?_
    simp [Monitor.step, runStep, Kproc.thread, Kproc.mode, hp, hi, ‹s.lock = none›, State.goto,
      setLock, Cpus.setProc]
  | release k =>
    simp only [hi] at hs
    split at hs <;> cases hs
    refine h.visible (b := .run t i) rfl rfl (hf k) trivial ?_
    simp [Monitor.step, runStep, Kproc.thread, Kproc.mode, hp, hi, ‹s.lock = some t›, State.goto,
      setLock, Cpus.setProc]
  | sleep c' k =>
    simp only [hi] at hs
    split at hs <;> cases hs
    refine h.stutter (h.fits_run hc ⟨fun _ => ⟨rfl, rfl⟩, fun _ => hrun, by rintro - ⟨⟩⟩) ⟨k, hi⟩ ?_
    simp [Kproc.thread, Kproc.mode, hp]
  | wakeup c' k =>
    simp only [hi] at hs
    cases hs
    refine h.visible (b := .run t i) rfl rfl (h.fits_running hc hin id rfl) ⟨k, hi⟩ ?_
    simp [Monitor.step, runStep, Kproc.thread, Kproc.mode, hp, hi, State.setMode, Cpus.setProc]
  | killed k =>
    simp only [hi] at hs
    split at hs <;> cases hs
    refine h.visible (b := .run t i) rfl rfl (hf _) trivial ?_
    simp [Monitor.step, runStep, Kproc.thread, Kproc.mode, hp, hi, State.goto, Cpus.setProc]
  | act f =>
    simp only [hi] at hs
    obtain ⟨⟨sh, k⟩, hfun, rfl⟩ := Option.map_eq_some_iff.mp hs
    refine h.visible (b := .run t i) rfl rfl (hf k) trivial ?_
    simp [Monitor.step, runStep, Kproc.thread, Kproc.mode, hp, hi, hfun, State.goto, Cpus.setProc]

/-- A step of `sleep` before `sched` returns, with `p->lock` held. -/
theorem Ok.innerStep (hc : s.cpu c = .run t) (hin : (s.proc t).pos.Inner)
    (hs : procStep code s c t i = some s') : Refines code s s' := by
  have hon := h.on hc
  obtain ⟨hlk, hy⟩ := hon.1 hin
  simp only [procStep, hy, Bool.false_eq_true, if_false] at hs
  cases hp : (s.proc t).pos with
  | letgo c' =>
    simp only [hp] at hs
    split at hs <;> cases hs
    obtain ⟨k, hk⟩ := h.at_pos hp
    refine h.visible (b := .run t i) rfl rfl (h.fits_run hc ⟨fun _ => ⟨hlk, rfl⟩,
      fun _ => hon.2.1 (by simp [hp]), by rintro - ⟨⟩⟩) ⟨k, hk⟩ ?_
    simp [Monitor.step, runStep, Kproc.thread, Kproc.mode, hp, hk, ‹s.lock = some t›, State.setMode,
      setLock, Cpus.setProc]
  | mark c' =>
    simp only [hp] at hs
    cases hs
    obtain ⟨k, hk⟩ := h.at_pos hp
    refine h.stutter (h.fits_run hc ⟨fun _ => ⟨hlk, rfl⟩, fun hne => absurd rfl (hne c'),
      fun d hd => ?_⟩) ⟨k, hk⟩ ?_
    · cases hd
      exact ⟨rfl, rfl⟩
    · simp [Kproc.thread, Kproc.mode, hp]
  | sched c' =>
    simp only [hp] at hs
    cases hs
    obtain ⟨hst, hch⟩ := hon.2.2 c' hp
    obtain ⟨k, hk⟩ := h.at_pos hp
    refine h.stutterSwitch (h.coupled.toBack hc) ?_ ⟨k, hk⟩ ?_
    · exact ⟨hlk, by simp [hst], id, fun _ => ⟨c', rfl, hch⟩⟩
    · simp [Kproc.thread, Kproc.mode, hp, hst, hlk]
  | code | resumed | relock | wakeup =>
    rw [hp] at hin
    exact hin.elim

/-- `wakeup` visits the process `j`, and goes on. -/
theorem Ok.visitStep (i : I) (hc : s.cpu c = .run t) {c' : C} {j : ℕ} (hj : j < N)
    (hp : (s.proc t).pos = .wakeup c' j) (hne : (⟨j, hj⟩ : Fin N) ≠ t)
    (hl : (s.proc ⟨j, hj⟩).lock = false) : Refines code s
      ((s.setProc ⟨j, hj⟩ ((s.proc ⟨j, hj⟩).wakeup c')).setProc t
        { s.proc t with pos := .wakeup c' (j + 1) }) := by
  obtain ⟨k, hk⟩ := h.at_pos hp
  obtain ⟨hok, hview⟩ := h.visit hl c'
  generalize hs₁ : s.setProc ⟨j, hj⟩ ((s.proc ⟨j, hj⟩).wakeup c') = s₁ at hok hview ⊢
  have hpt : s₁.proc t = s.proc t := by simp [← hs₁, Cpus.setProc, Ne.symm hne]
  have hcpu : s₁.cpu c = .run t := by rw [← hs₁]; exact hc
  have hok' : (s₁.setProc t { s.proc t with pos := .wakeup c' (j + 1) }).Ok code role :=
    hok.setProc (hok.fits_running hcpu (by rw [hpt, hp]; exact id) id (by rw [hpt])) ⟨k, hk⟩
  refine ⟨⟨role, hok'⟩, .inr ⟨.run t i, ?_⟩⟩
  have hv : (s₁.setProc t { s.proc t with pos := .wakeup c' (j + 1) }).view =
      s₁.view.setMode t (.waking c' (j + 1)) := by
    rw [view_setProc, ← hpt]
    rfl
  have hm : (s.proc t).mode = .waking c' j := by simp [Kproc.mode, hp]
  simp only [Monitor.step, runStep, view_thread, Kproc.thread, hm, hj, hne, dif_pos, if_false, hv]
  rcases hview with ⟨d', hmd, hview⟩ | ⟨hnot, hview⟩
  · rw [hmd, hview]
  · rw [hview]
    split
    · exact absurd ‹_› (hnot _).1
    · exact absurd ‹_› (hnot _).2
    · rfl

/-- A step of the process that the processor runs. -/
theorem Ok.procStep (hc : s.cpu c = .run t) (hs : Xv6.procStep code s c t i = some s') :
    Refines code s s' := by
  by_cases hy : (s.proc t).yields = true
  · have hin : ¬ (s.proc t).pos.Inner := fun hin => by simp [((h.on hc).1 hin).2] at hy
    simp only [Xv6.procStep, hy, if_true] at hs
    cases hs
    refine h.stutter (h.fits_running hc hin hin rfl) (h.pos t) ?_
    simp [Kproc.thread, Kproc.mode, (h.on hc).running hin]
  by_cases hin : (s.proc t).pos.Inner
  · exact h.innerStep hc hin hs
  have hy : (s.proc t).yields = false := eq_false_of_ne_true hy
  cases hp : (s.proc t).pos with
  | code => exact h.codeStep hc hy hp hs
  | letgo | mark | sched => exact absurd (by rw [hp]; trivial) hin
  | resumed c' =>
    simp only [Xv6.procStep, hy, hp, Bool.false_eq_true, if_false] at hs
    cases hs
    obtain ⟨k, hk⟩ := h.at_pos hp
    refine h.stutter (h.fits_running hc hin id rfl) ⟨c', k, hk⟩ ?_
    simp [Kproc.thread, Kproc.mode, hp, (h.on hc).running hin]
  | relock =>
    obtain ⟨c', k, hk⟩ := h.at_pos hp
    simp only [Xv6.procStep, hy, hp, hk, Bool.false_eq_true, if_false] at hs
    split at hs <;> cases hs
    refine h.visible (b := .run t i) rfl rfl (h.fits_running hc hin id rfl) trivial ?_
    simp [Monitor.step, runStep, Kproc.thread, Kproc.mode, hp, hk, ‹s.lock = none›, State.goto,
      setLock, Cpus.setProc]
  | wakeup c' j =>
    obtain ⟨k, hk⟩ := h.at_pos hp
    simp only [Xv6.procStep, hy, hp, hk, Bool.false_eq_true, if_false] at hs
    split at hs
    · rename_i hj
      split at hs
      · rename_i he
        cases hs
        refine h.visible (b := .run t i) rfl rfl (h.fits_running hc hin id rfl) ⟨k, hk⟩ ?_
        simp [Monitor.step, runStep, Kproc.thread, Kproc.mode, hp, hj, he, State.setMode,
          Cpus.setProc]
      · split at hs <;> cases hs
        simpa only [hy] using h.visitStep i hc hj hp ‹_› (eq_false_of_ne_true ‹_›)
    · rename_i hj
      cases hs
      refine h.visible (b := .run t i) rfl rfl (h.fits_running hc hin id rfl) trivial ?_
      simp [Monitor.step, runStep, Kproc.thread, Kproc.mode, hp, hk, hj, State.goto, Cpus.setProc]

/-- A step of the scheduler, or of the process that the processor runs. -/
theorem Ok.cpuStep (hs : Xv6.cpuStep code s c i = some s') : Refines code s s' := by
  simp only [Xv6.cpuStep] at hs
  split at hs
  · rename_i j hc
    have hnext : ∀ k, Refines code s (s.setCpu c (.scan k)) := fun k =>
      ⟨⟨role, h.coupled.scan hc k, h.fits, h.pos⟩, .inl rfl⟩
    split at hs
    · rename_i hj
      split at hs
      · cases hs
      rename_i hl
      have hl : (s.proc ⟨j, hj⟩).lock = false := eq_false_of_ne_true hl
      split at hs <;> cases hs
      · rename_i hr
        refine h.stutterSwitch (h.coupled.toRun hc (h.idle_of_runnable hl hr))
          (Kproc.on_of_running (h.sleeps hl).1 rfl) (h.pos _) ?_
        simp [Kproc.thread, Kproc.mode, hr]
      · exact hnext _
    · cases hs
      exact hnext 0
  · rename_i t hc
    cases hs
    have hf := h.fits t
    rw [(h.coupled c t).2.1 hc] at hf
    obtain ⟨hlk, hoff⟩ := hf
    by_cases hst : (s.proc t).state = .sleeping
    · obtain ⟨c', hp, -⟩ := hoff.2.2 hst
      have hok := h.switch (h.coupled.toIdle hc (t + 1))
        (p := { s.proc t with lock := false }) ⟨rfl, hoff⟩ (h.pos t)
      refine ⟨⟨_, hok⟩, .inr ⟨.run t i, ?_⟩⟩
      have hv := view_setProc s t { s.proc t with lock := false }
      refine Eq.trans ?_ (congrArg some hv.symm)
      simp [Monitor.step, runStep, State.setMode, Kproc.thread, Kproc.mode, hp, hst, hlk]
    · refine h.stutterSwitch (h.coupled.toIdle hc (t + 1)) ⟨rfl, hoff⟩ (h.pos t) ?_
      simp [Kproc.thread, Kproc.mode, hst]
  · exact h.procStep ‹_› hs

theorem Ok.timerStep (hs : Xv6.timerStep s c = some s') : Refines code s s' := by
  simp only [Xv6.timerStep] at hs
  split at hs
  · rename_i t hc
    split at hs <;> cases hs
    rename_i hl
    have hin := (h.sleeps hl.2).1
    refine h.stutterSwitch (h.coupled.toBack hc) ⟨rfl, by rintro ⟨⟩, hin, by rintro ⟨⟩⟩ (h.pos t) ?_
    simp [Kproc.thread, Kproc.mode, (h.on hc).running hin]
  · cases hs

theorem Ok.kill (hl : (s.proc t).lock = false) : Refines code s (s.setProc t (s.proc t).kill) := by
  rcases h.mode_of_free hl with ⟨hst, -, d, hpd, -, hmd⟩ | ⟨hst, hnot⟩
  · have hk : (s.proc t).kill = { s.proc t with state := .runnable, killed := true } := by
      simp [Kproc.kill, hst]
    rw [hk]
    refine ⟨⟨role, h.rouse hl hst true⟩, .inr ⟨.kill t, ?_⟩⟩
    simp only [Monitor.step, killStep, view_thread, Kproc.thread, hmd, view_setProc]
    simp [Kproc.mode, hpd]
  · have hk : (s.proc t).kill = { s.proc t with killed := true } := by simp [Kproc.kill, hst]
    rw [hk]
    refine ⟨⟨role, h.setProc ?_ (h.pos t)⟩, .inr ⟨.kill t, ?_⟩⟩
    · have hf := h.fits t
      cases hr : role t <;> rw [hr] at hf <;> exact hf
    · simp only [Monitor.step, killStep, view_setProc]
      split
      · exact absurd ‹_› (hnot _).1
      · exact absurd ‹_› (hnot _).2
      · rfl

end Ok

theorem step_view {a : CpuLabel N M I} (h : s.Ok code role) (hs : s.step code a = some s') :
    Refines code s s' := by
  cases a with
  | step c i => exact h.cpuStep hs
  | timer c => exact h.timerStep hs
  | kill t =>
    simp only [Cpus.step] at hs
    split at hs <;> cases hs
    exact h.kill (eq_false_of_ne_true ‹_›)

/-- Every state the processors reach is one that `Monitor` reaches. -/
theorem reach_view {sh : S} {q : Fin N → P}
    (h : Machine.Reach (Cpus.step code) (fun _ _ => True) (Cpus.start N M C sh q) s) :
    (∃ role, s.Ok code role) ∧
      Machine.Reach (Monitor.step code) (fun _ _ => True) (Cpus.start N M C sh q).view s.view := by
  refine h.invariant (I := fun s => (∃ role, s.Ok code role) ∧
    Machine.Reach (Monitor.step code) (fun _ _ => True) (Cpus.start N M C sh q).view s.view)
    ⟨⟨_, .start code sh q⟩, .refl⟩ ?_
  rintro s a s' ⟨⟨role, hok⟩, hr⟩ - hs
  obtain ⟨hok', hv | ⟨b, hb⟩⟩ := step_view hok hs
  · exact ⟨hok', hv ▸ hr⟩
  · exact ⟨hok', hr.tail trivial hb⟩

end Step

end Cpus

end Xv6
