import Xv6.Machine
import Mathlib.Data.Fin.Basic
import Mathlib.Logic.Function.Basic

/-!
# The process table

A model of `proc.c` : the table of `struct proc`, `wait_lock`, the process id
counter, and `fork`, `exit`, `wait`, `kill`, `trace` and `count_proc` as programs over
them ; `exec` returns and leaves the table alone. A step is what one process does between two
lock operations, so two processes interleave wherever the locks let them. A lock held over
several steps is part of the state : `wait_lock` names its holder, and each slot says whether
its `p->lock` is held.

A process runs only while it is `RUNNING`. The scheduler makes a `RUNNABLE` process run
(`dispatch`) and a timer interrupt takes a process that holds no lock off its CPU
(`yield`). `sleep` and `exit` leave the CPU with `p->lock` held, and the scheduler
releases it after the switch ; so each has a last step of its own.

Every allocation of a slot gets a number (`uid`) of its own, and the table keeps a
history of what happened to which allocation (`ProcEvent`). Neither exists in the kernel
and no step reads them.

`Procs.step` is the step function. `ProcMove` lists what a step can do, and
`move_of_step` proves the list complete ; the invariants of the table go by cases on it.
-/

namespace Xv6

/-- A C `int`. -/
abbrev CInt := BitVec 32

/-- `enum procstate`. -/
inductive ProcState
  | unused
  | used
  | sleeping
  | runnable
  | running
  | zombie
  deriving DecidableEq, Repr

/-- `struct proc`, as far as the process table's functions read it. The channel a process
sleeps on in `wait` is a process slot. -/
structure Proc (N : ℕ) where
  /-- `p->lock` is held over the current step. -/
  lock : Bool
  state : ProcState
  chan : Option (Fin N)
  killed : Bool
  xstate : CInt
  pid : CInt
  mask : CInt
  parent : Option (Fin N)
  /-- Which allocation of the slot this is. -/
  uid : ℕ
  deriving DecidableEq, Repr

namespace Proc

variable {N : ℕ}

/-- A slot that has never been used. -/
def zero : Proc N := ⟨false, .unused, none, false, 0, 0, 0, none, 0⟩

/-- What `allocproc` writes before its allocations : it leaves `killed` and `mask` as they
are. `p->lock` stays held. -/
def alloc (p : Proc N) (pid : CInt) (uid : ℕ) : Proc N :=
  { p with lock := true, state := .used, pid := pid, uid := uid }

/-- `freeproc` followed by the release of `p->lock`. The mask stays. -/
def free (p : Proc N) : Proc N :=
  { p with
    lock := false, state := .unused, chan := none, killed := false, xstate := 0, pid := 0,
    parent := none }

/-- The body of `wakeup`'s loop, for a process that is not the caller. -/
def wake (p : Proc N) (chan : Option (Fin N)) : Proc N :=
  if p.state = .sleeping ∧ p.chan = chan then { p with state := .runnable } else p

/-- What `kill` does to the process it finds. -/
def kill (p : Proc N) : Proc N :=
  { p with
    killed := true, state := if p.state = .sleeping then .runnable else p.state }

@[simp] theorem wake_killed (p : Proc N) (chan : Option (Fin N)) :
    (p.wake chan).killed = p.killed := by
  unfold wake
  split <;> rfl

/-- What `wakeup` and `kill` do to a process that they find. -/
structure Woken (p q : Proc N) : Prop where
  lock : q.lock = p.lock
  chan : q.chan = p.chan
  killed : p.killed = true → q.killed = true
  xstate : q.xstate = p.xstate
  pid : q.pid = p.pid
  uid : q.uid = p.uid
  parent : q.parent = p.parent
  mask : q.mask = p.mask
  state : q.state = p.state ∨ p.state = .sleeping ∧ q.state = .runnable

theorem Woken.refl (p : Proc N) : p.Woken p :=
  ⟨rfl, rfl, id, rfl, rfl, rfl, rfl, rfl, .inl rfl⟩

theorem woken_wake (p : Proc N) (chan : Option (Fin N)) : p.Woken (p.wake chan) := by
  unfold wake
  split
  · exact ⟨rfl, rfl, id, rfl, rfl, rfl, rfl, rfl, .inr ⟨And.left ‹_›, rfl⟩⟩
  · exact .refl p

theorem woken_kill (p : Proc N) : p.Woken p.kill := by
  refine ⟨rfl, rfl, fun _ => rfl, rfl, rfl, rfl, rfl, rfl, ?_⟩
  unfold kill
  dsimp only
  split
  · exact .inr ⟨‹_›, rfl⟩
  · exact .inl rfl

/-- The process exists and has not exited : it has been made `RUNNABLE` and is not
`ZOMBIE`. -/
def Live (p : Proc N) : Prop :=
  p.state = .sleeping ∨ p.state = .runnable ∨ p.state = .running

instance (p : Proc N) : Decidable p.Live :=
  inferInstanceAs (Decidable (_ ∨ _ ∨ _))

end Proc

/-- Points of `fork`. -/
inductive ForkPt (N : ℕ)
  /-- `allocproc`'s loop, at slot `k` -/
  | scan (k : ℕ)
  /-- `np->lock` held : the allocations, `uvmcopy` and the copies -/
  | build (np : Fin N)
  /-- before `acquire(&wait_lock)` -/
  | link (np : Fin N) (pid : CInt)
  /-- `wait_lock` held : `np->parent = p` -/
  | setParent (np : Fin N) (pid : CInt)
  /-- before `acquire(&np->lock)` : `np->state = RUNNABLE` -/
  | start (np : Fin N) (pid : CInt)
  deriving DecidableEq, Repr

/-- Points of `exit`, after the files are closed. -/
inductive ExitPt
  /-- before `acquire(&wait_lock)` -/
  | acquire
  /-- `reparent`'s loop, at slot `k` -/
  | reparent (k : ℕ)
  /-- `wakeup(initproc)` inside `reparent`, at slot `j` -/
  | rewake (k j : ℕ)
  /-- `wakeup(p->parent)`, at slot `j` -/
  | wakeParent (j : ℕ)
  /-- before `acquire(&p->lock)` -/
  | die
  /-- in `sched`, with `p->lock` held -/
  | gone
  deriving DecidableEq, Repr

/-- Why `wait` returns -1. -/
inductive WaitFail
  /-- `copyout` of the status failed -/
  | badaddr
  /-- `havekids` is 0 -/
  | nokids
  /-- the caller has been killed -/
  | killed
  deriving DecidableEq, Repr

/-- Points of `wait`. -/
inductive WaitPt
  /-- before `acquire(&wait_lock)`, at the start and when `sleep` reacquires it -/
  | acquire
  /-- the scan for exited children, at slot `k` -/
  | scan (k : ℕ) (havekids : Bool)
  /-- before `killed(p)` -/
  | killed
  /-- before `sleep(p, &wait_lock)` -/
  | sleep
  /-- inside `sleep` : `wait_lock` released, `p->lock` held -/
  | doze
  /-- switched out by `sleep` -/
  | asleep
  /-- before the release of `wait_lock` and the return of -1 -/
  | fail (why : WaitFail)
  deriving DecidableEq, Repr

/-- Where a process is. -/
inductive ProcPc (N : ℕ)
  | user
  | fork (p : ForkPt N)
  | exit (p : ExitPt) (status : CInt)
  | wait (p : WaitPt)
  | kill (pid : CInt) (k : ℕ)
  | count (k total : ℕ)
  /-- on the way back to user space, with `v` in `a0` -/
  | ret (v : CInt)
  /-- switched out for good -/
  | dead
  /-- `panic("init exiting")` -/
  | panic
  deriving DecidableEq, Repr

/-- What a process in user space does next. -/
inductive ProcCall
  | fork
  | exit (status : CInt)
  | wait
  | kill (pid : CInt)
  | trace (mask : CInt)
  | countProc
  /-- `exec`, or another system call that leaves the table alone -/
  | exec (v : CInt)
  /-- an unexpected trap : `setkilled(p)` -/
  | fault
  deriving DecidableEq, Repr

/-- What the rest of the machine decides in a step. -/
structure ProcInput where
  call : ProcCall
  /-- the page allocations of `fork` succeed -/
  mem : Bool
  /-- the status address of `wait` is null or `copyout` succeeds -/
  copyout : Bool
  deriving DecidableEq, Repr

/-- What the history remembers. -/
inductive ProcEvent (N : ℕ)
  /-- `fork` gave the child `np` the mask of `p` -/
  | fork (p np : ℕ) (mask : CInt)
  | trace (p : ℕ) (mask : CInt)
  /-- `kill(pid)` found `p` -/
  | kill (p : ℕ) (pid : CInt)
  /-- `p` became `ZOMBIE` with the argument of `exit` -/
  | exit (p : ℕ) (status : CInt)
  /-- `wait` in slot `t` copied out `status` and freed `p`, whose parent was `parent` -/
  | reap (t : Fin N) (parent : Option (Fin N)) (p : ℕ) (status : CInt)
  deriving DecidableEq, Repr

/-- The process table and its locks. -/
@[ext] structure Procs (N : ℕ) where
  proc : Fin N → Proc N
  pc : Fin N → ProcPc N
  /-- the holder of `wait_lock` -/
  waitLock : Option (Fin N)
  nextpid : CInt
  /-- the number of the next allocation -/
  born : ℕ
  hist : List (ProcEvent N)

/-- What a step is labelled with. -/
inductive ProcLabel (N : ℕ)
  | run (t : Fin N) (inp : ProcInput)
  | dispatch (t : Fin N)
  | yield (t : Fin N)
  deriving DecidableEq, Repr

/-- The process that takes the step. -/
def ProcLabel.proc {N : ℕ} : ProcLabel N → Fin N
  | .run t _ | .dispatch t | .yield t => t

namespace Procs

variable {N : ℕ}

/-- Process `t` has a CPU. -/
abbrev Running (s : Procs N) (t : Fin N) : Prop := (s.proc t).state = .running

/-- Process `t` moves to `pc`. -/
def goto (s : Procs N) (t : Fin N) (pc : ProcPc N) : Procs N :=
  { s with pc := Function.update s.pc t pc }

/-- Slot `k` becomes `p`. -/
def set (s : Procs N) (k : Fin N) (p : Proc N) : Procs N :=
  { s with proc := Function.update s.proc k p }

/-- The history grows by `e`. -/
def note (s : Procs N) (e : ProcEvent N) : Procs N := { s with hist := e :: s.hist }

/-- `wait_lock` changes hands. -/
def lockWait (s : Procs N) (h : Option (Fin N)) : Procs N := { s with waitLock := h }

section Fields

variable (s : Procs N) (t : Fin N) (pc : ProcPc N) (p : Proc N) (e : ProcEvent N)
  (h : Option (Fin N))

@[simp] theorem goto_proc : (s.goto t pc).proc = s.proc := rfl
@[simp] theorem goto_pc : (s.goto t pc).pc = Function.update s.pc t pc := rfl
@[simp] theorem goto_born : (s.goto t pc).born = s.born := rfl
@[simp] theorem goto_hist : (s.goto t pc).hist = s.hist := rfl

@[simp] theorem set_proc : (s.set t p).proc = Function.update s.proc t p := rfl
@[simp] theorem set_pc : (s.set t p).pc = s.pc := rfl
@[simp] theorem set_born : (s.set t p).born = s.born := rfl
@[simp] theorem set_hist : (s.set t p).hist = s.hist := rfl

@[simp] theorem note_proc : (s.note e).proc = s.proc := rfl
@[simp] theorem note_pc : (s.note e).pc = s.pc := rfl
@[simp] theorem note_hist : (s.note e).hist = e :: s.hist := rfl

@[simp] theorem lockWait_proc : (s.lockWait h).proc = s.proc := rfl
@[simp] theorem lockWait_pc : (s.lockWait h).pc = s.pc := rfl
@[simp] theorem lockWait_hist : (s.lockWait h).hist = s.hist := rfl

end Fields

/-! ## The programs -/

/-- `exit(status)`, whose first test is for `initproc`, the process in slot 0. -/
def enterExit [NeZero N] (t : Fin N) (status : CInt) : ProcPc N :=
  if t = 0 then .panic else .exit .acquire status

/-- What `allocproc` does with the free slot `j`, which the process `t` then builds a child
in. A new process starts in `forkret`. -/
def allocAt (s : Procs N) (t j : Fin N) : Procs N :=
  ({ s with nextpid := s.nextpid + 1, born := s.born + 1 }.set j
    ((s.proc j).alloc s.nextpid s.born)).goto j .user |>.goto t (.fork (.build j))

/-- `fork`, by process `t`. -/
def fork (s : Procs N) (t : Fin N) (mem : Bool) : ForkPt N → Option (Procs N)
  | .scan k =>
    if h : k < N then
      if (s.proc ⟨k, h⟩).lock then none
      else if (s.proc ⟨k, h⟩).state = .unused then some (s.allocAt t ⟨k, h⟩)
      else some (s.goto t (.fork (.scan (k + 1))))
    else some (s.goto t (.ret (-1)))
  | .build np =>
    let q := s.proc np
    if mem then
      some ((s.set np { q with lock := false, mask := (s.proc t).mask }).note
        (.fork (s.proc t).uid q.uid (s.proc t).mask) |>.goto t (.fork (.link np q.pid)))
    else some ((s.set np q.free).goto t (.ret (-1)))
  | .link np pid =>
    if s.waitLock = none then
      some ((s.lockWait (some t)).goto t (.fork (.setParent np pid)))
    else none
  | .setParent np pid =>
    some (((s.set np { s.proc np with parent := some t }).lockWait none).goto t
      (.fork (.start np pid)))
  | .start np pid =>
    if (s.proc np).lock then none
    else some ((s.set np { s.proc np with state := .runnable }).goto t (.ret pid))

/-- One turn of `wakeup(chan)`'s loop, at slot `j`, by process `t`. -/
def wakeAt (s : Procs N) (t : Fin N) (chan : Option (Fin N)) (j : Fin N) :
    Option (Procs N) :=
  if j = t then some s
  else if (s.proc j).lock then none
  else some (s.set j ((s.proc j).wake chan))

/-- `exit(status)`, by process `t`. -/
def exit [NeZero N] (s : Procs N) (t : Fin N) (status : CInt) : ExitPt → Option (Procs N)
  | .acquire =>
    if s.waitLock = none then
      some ((s.lockWait (some t)).goto t (.exit (.reparent 0) status))
    else none
  | .reparent k =>
    if h : k < N then
      let q := s.proc ⟨k, h⟩
      if q.parent = some t then
        some ((s.set ⟨k, h⟩ { q with parent := some 0 }).goto t (.exit (.rewake k 0) status))
      else some (s.goto t (.exit (.reparent (k + 1)) status))
    else some (s.goto t (.exit (.wakeParent 0) status))
  | .rewake k j =>
    if h : j < N then
      (s.wakeAt t (some 0) ⟨j, h⟩).map (·.goto t (.exit (.rewake k (j + 1)) status))
    else some (s.goto t (.exit (.reparent (k + 1)) status))
  | .wakeParent j =>
    if h : j < N then
      (s.wakeAt t (s.proc t).parent ⟨j, h⟩).map
        (·.goto t (.exit (.wakeParent (j + 1)) status))
    else some (s.goto t (.exit .die status))
  | .die =>
    if (s.proc t).lock then none
    else some (((s.set t
      { s.proc t with lock := true, xstate := status, state := .zombie }).lockWait none).note
        (.exit (s.proc t).uid status) |>.goto t (.exit .gone status))
  | .gone => some ((s.set t { s.proc t with lock := false }).goto t .dead)

/-- `wait`, by process `t`. -/
def wait (s : Procs N) (t : Fin N) (copyout : Bool) : WaitPt → Option (Procs N)
  | .acquire =>
    if s.waitLock = none then
      some ((s.lockWait (some t)).goto t (.wait (.scan 0 false)))
    else none
  | .scan k havekids =>
    if h : k < N then
      let pp := s.proc ⟨k, h⟩
      if pp.parent = some t then
        if pp.lock then none
        else if pp.state = .zombie then
          if copyout then
            some (((s.set ⟨k, h⟩ pp.free).lockWait none).note
              (.reap t pp.parent pp.uid pp.xstate) |>.goto t (.ret pp.pid))
          else some (s.goto t (.wait (.fail .badaddr)))
        else some (s.goto t (.wait (.scan (k + 1) true)))
      else some (s.goto t (.wait (.scan (k + 1) havekids)))
    else if havekids then some (s.goto t (.wait .killed))
    else some (s.goto t (.wait (.fail .nokids)))
  | .killed =>
    if (s.proc t).lock then none
    else if (s.proc t).killed then some (s.goto t (.wait (.fail .killed)))
    else some (s.goto t (.wait .sleep))
  | .sleep =>
    if (s.proc t).lock then none
    else some (((s.set t { s.proc t with lock := true }).lockWait none).goto t (.wait .doze))
  | .doze =>
    some ((s.set t { s.proc t with lock := false, chan := some t, state := .sleeping }).goto t
      (.wait .asleep))
  | .asleep => none
  | .fail _ => some ((s.lockWait none).goto t (.ret (-1)))

/-- `kill(pid)` at slot `k`, by process `t`. -/
def kill (s : Procs N) (t : Fin N) (pid : CInt) (k : ℕ) : Option (Procs N) :=
  if h : k < N then
    let p := s.proc ⟨k, h⟩
    if p.lock then none
    else if p.pid = pid then
      some (((s.set ⟨k, h⟩ p.kill).note (.kill p.uid pid)).goto t (.ret 0))
    else some (s.goto t (.kill pid (k + 1)))
  else some (s.goto t (.ret (-1)))

/-- `count_proc` at slot `k`, by process `t`. -/
def countProc (s : Procs N) (t : Fin N) (k total : ℕ) : Option (Procs N) :=
  if h : k < N then
    if (s.proc ⟨k, h⟩).lock then none
    else if (s.proc ⟨k, h⟩).state = .unused then some (s.goto t (.count (k + 1) total))
    else some (s.goto t (.count (k + 1) (total + 1)))
  else some (s.goto t (.ret (BitVec.ofNat 32 total)))

/-- `usertrap`, by process `t` : `killed(p)` comes before the system call. -/
def usertrap [NeZero N] (s : Procs N) (t : Fin N) (call : ProcCall) : Option (Procs N) :=
  if (s.proc t).lock then none
  else if (s.proc t).killed then some (s.goto t (enterExit t (-1)))
  else match call with
    | .fork => some (s.goto t (.fork (.scan 0)))
    | .exit status => some (s.goto t (enterExit t status))
    | .wait => some (s.goto t (.wait .acquire))
    | .kill pid => some (s.goto t (.kill pid 0))
    | .trace mask =>
      some (((s.set t { s.proc t with mask := mask }).note
        (.trace (s.proc t).uid mask)).goto t (.ret 0))
    | .countProc => some (s.goto t (.count 0 0))
    | .exec v => some (s.goto t (.ret v))
    | .fault =>
      some ((s.set t { s.proc t with killed := true }).goto t (enterExit t (-1)))

/-- The end of `usertrap` : a process killed meanwhile exits. -/
def usertrapEnd [NeZero N] (s : Procs N) (t : Fin N) : Option (Procs N) :=
  if (s.proc t).lock then none
  else if (s.proc t).killed then some (s.goto t (enterExit t (-1)))
  else some (s.goto t .user)

/-- What process `t` does next. -/
def run [NeZero N] (s : Procs N) (t : Fin N) (inp : ProcInput) : Option (Procs N) :=
  match s.pc t with
  | .user => s.usertrap t inp.call
  | .fork p => s.fork t inp.mem p
  | .exit p status => s.exit t status p
  | .wait p => s.wait t inp.copyout p
  | .kill pid k => s.kill t pid k
  | .count k total => s.countProc t k total
  | .ret _ => s.usertrapEnd t
  | .dead => none
  | .panic => none

end Procs

namespace ProcPc

variable {N : ℕ}

/-- The points at which the process holds `wait_lock`. -/
def holdsWait : ProcPc N → Bool
  | .fork (.setParent _ _) => true
  | .exit (.reparent _) _ | .exit (.rewake _ _) _ | .exit (.wakeParent _) _
  | .exit .die _ => true
  | .wait (.scan _ _) | .wait .killed | .wait .sleep | .wait (.fail _) => true
  | _ => false

/-- The points at which the process holds a `p->lock` over the step. -/
def holdsProc : ProcPc N → Bool
  | .fork (.build _) | .exit .gone _ | .wait .doze => true
  | _ => false

/-- The process is in the switch out of `exit`. -/
def leaving : ProcPc N → Bool
  | .exit .gone _ => true
  | _ => false

end ProcPc

namespace Procs

variable {N : ℕ} [NeZero N]

/-- A step of the machine. A process takes steps while it is `RUNNING`, and its last one,
the switch out of `exit`, as a `ZOMBIE`. `sleep` clears `p->chan` when it is switched in again. -/
def step (s : Procs N) : ProcLabel N → Option (Procs N)
  | .run t inp =>
    if (s.proc t).state = .running ∨ (s.pc t).leaving then s.run t inp else none
  | .dispatch t =>
    if (s.proc t).state = .runnable ∧ (s.proc t).lock = false then
      if s.pc t = .wait .asleep then
        some ((s.set t { s.proc t with state := .running, chan := none }).goto t
          (.wait .acquire))
      else some (s.set t { s.proc t with state := .running })
    else none
  | .yield t =>
    if (s.proc t).state = .running ∧ ¬ (s.pc t).holdsWait ∧ ¬ (s.pc t).holdsProc ∧
        (s.proc t).lock = false then
      some (s.set t { s.proc t with state := .runnable })
    else none

/-- After `userinit` : `initproc` is in slot 0 with process id 1. -/
def start : Procs N where
  proc := Function.update (fun _ => Proc.zero) 0
    { Proc.zero with state := .runnable, pid := 1, uid := 1 }
  pc := fun _ => .user
  waitLock := none
  nextpid := 2
  born := 2
  hist := []

end Procs

/-! ## What a step can do -/

namespace ProcPc

variable {N : ℕ}

/-- The points at which a process holds no lock, builds no child and is not asleep : user
space, the ways in and out of a system call, and the scans that hold one `p->lock` at a
time. -/
def idle : ProcPc N → Bool
  | .user | .fork (.scan _) | .exit .acquire _ | .wait .acquire => true
  | .kill _ _ | .count _ _ | .ret _ | .panic => true
  | _ => false

/-- The process is in `exit`. -/
def exiting : ProcPc N → Bool
  | .exit _ _ => true
  | _ => false

end ProcPc

open ProcState in
/-- The steps process `t` takes from `s`. Slots that a scan skips and the ways in and out
of a system call are all `goto`. -/
inductive ProcMove {N : ℕ} [NeZero N] (s : Procs N) (t : Fin N) : Procs N → Prop
  | goto {pc} (hr : s.Running t) (hi : (s.pc t).idle) (hi' : pc.idle)
      (h0 : t = 0 → pc.exiting = false) : ProcMove s t (s.goto t pc)
  | trace {mask} (hr : s.Running t) (hp : s.pc t = .user) :
      ProcMove s t (((s.set t { s.proc t with mask := mask }).note
        (.trace (s.proc t).uid mask)).goto t (.ret 0))
  | fault {pc} (hr : s.Running t) (hp : s.pc t = .user) (hi' : pc.idle)
      (h0 : t = 0 → pc.exiting = false) :
      ProcMove s t ((s.set t { s.proc t with killed := true }).goto t pc)
  | alloc {j k} (hr : s.Running t) (hp : s.pc t = .fork (.scan k)) (hl : (s.proc j).lock = false)
      (hu : (s.proc j).state = unused) : ProcMove s t (s.allocAt t j)
  | build {np} (hr : s.Running t) (hp : s.pc t = .fork (.build np)) :
      ProcMove s t (((s.set np { s.proc np with lock := false, mask := (s.proc t).mask }).note
        (.fork (s.proc t).uid (s.proc np).uid (s.proc t).mask)).goto t
          (.fork (.link np (s.proc np).pid)))
  | buildFail {np} (hr : s.Running t) (hp : s.pc t = .fork (.build np)) :
      ProcMove s t ((s.set np (s.proc np).free).goto t (.ret (-1)))
  | link {np pid} (hr : s.Running t) (hp : s.pc t = .fork (.link np pid)) (hw : s.waitLock = none) :
      ProcMove s t ((s.lockWait (some t)).goto t (.fork (.setParent np pid)))
  | setParent {np pid} (hr : s.Running t) (hp : s.pc t = .fork (.setParent np pid)) :
      ProcMove s t (((s.set np { s.proc np with parent := some t }).lockWait none).goto t
        (.fork (.start np pid)))
  | start {np pid} (hr : s.Running t) (hp : s.pc t = .fork (.start np pid))
      (hl : (s.proc np).lock = false) :
      ProcMove s t ((s.set np { s.proc np with state := runnable }).goto t (.ret pid))
  | exitAcquire {st} (hr : s.Running t) (hp : s.pc t = .exit .acquire st) (hw : s.waitLock = none) :
      ProcMove s t ((s.lockWait (some t)).goto t (.exit (.reparent 0) st))
  | reparent {j k st} (hr : s.Running t) (hp : s.pc t = .exit (.reparent k) st)
      (hk : (j : Fin N).val = k) (hc : (s.proc j).parent = some t) :
      ProcMove s t ((s.set j { s.proc j with parent := some 0 }).goto t (.exit (.rewake k 0) st))
  | reparentSkip {j k st} (hr : s.Running t) (hp : s.pc t = .exit (.reparent k) st)
      (hk : (j : Fin N).val = k) (hc : (s.proc j).parent ≠ some t) :
      ProcMove s t (s.goto t (.exit (.reparent (k + 1)) st))
  | reparentEnd {k st} (hr : s.Running t) (hp : s.pc t = .exit (.reparent k) st) (hk : N ≤ k) :
      ProcMove s t (s.goto t (.exit (.wakeParent 0) st))
  | rewake {j k i st q} (hr : s.Running t) (hp : s.pc t = .exit (.rewake k i) st)
      (hk : (j : Fin N).val = i) (hl : j ≠ t → (s.proc j).lock = false)
      (hq : q = if j = t then s.proc j else (s.proc j).wake (some 0)) :
      ProcMove s t ((s.set j q).goto t (.exit (.rewake k (i + 1)) st))
  | rewakeEnd {k i st} (hr : s.Running t) (hp : s.pc t = .exit (.rewake k i) st) (hk : N ≤ i) :
      ProcMove s t (s.goto t (.exit (.reparent (k + 1)) st))
  | wakeParent {j i st q} (hr : s.Running t) (hp : s.pc t = .exit (.wakeParent i) st)
      (hk : (j : Fin N).val = i) (hl : j ≠ t → (s.proc j).lock = false)
      (hq : q = if j = t then s.proc j else (s.proc j).wake (s.proc t).parent) :
      ProcMove s t ((s.set j q).goto t (.exit (.wakeParent (i + 1)) st))
  | wakeParentEnd {i st} (hr : s.Running t) (hp : s.pc t = .exit (.wakeParent i) st) (hk : N ≤ i) :
      ProcMove s t (s.goto t (.exit .die st))
  | die {st} (hr : s.Running t) (hp : s.pc t = .exit .die st) (hl : (s.proc t).lock = false) :
      ProcMove s t ((((s.set t
        { s.proc t with lock := true, xstate := st, state := zombie }).lockWait none).note
          (.exit (s.proc t).uid st)).goto t (.exit .gone st))
  | gone {st} (hp : s.pc t = .exit .gone st) :
      ProcMove s t ((s.set t { s.proc t with lock := false }).goto t .dead)
  | waitAcquire (hr : s.Running t) (hp : s.pc t = .wait .acquire) (hw : s.waitLock = none) :
      ProcMove s t ((s.lockWait (some t)).goto t (.wait (.scan 0 false)))
  | reap {j k hk} (hr : s.Running t) (hp : s.pc t = .wait (.scan k hk))
      (hc : (s.proc j).parent = some t) (hl : (s.proc j).lock = false)
      (hz : (s.proc j).state = zombie) :
      ProcMove s t ((((s.set j (s.proc j).free).lockWait none).note
        (.reap t (s.proc j).parent (s.proc j).uid (s.proc j).xstate)).goto t
          (.ret (s.proc j).pid))
  | badaddr {k hk} (hr : s.Running t) (hp : s.pc t = .wait (.scan k hk)) :
      ProcMove s t (s.goto t (.wait (.fail .badaddr)))
  | scanChild {j k hk} (hr : s.Running t) (hp : s.pc t = .wait (.scan k hk))
      (hj : (j : Fin N).val = k) (hz : (s.proc j).state ≠ zombie) :
      ProcMove s t (s.goto t (.wait (.scan (k + 1) true)))
  | scanSkip {j k hk} (hr : s.Running t) (hp : s.pc t = .wait (.scan k hk))
      (hj : (j : Fin N).val = k) (hc : (s.proc j).parent ≠ some t) :
      ProcMove s t (s.goto t (.wait (.scan (k + 1) hk)))
  | scanEnd {k} (hr : s.Running t) (hp : s.pc t = .wait (.scan k true)) (hk : N ≤ k) :
      ProcMove s t (s.goto t (.wait .killed))
  | nokids {k} (hr : s.Running t) (hp : s.pc t = .wait (.scan k false)) (hk : N ≤ k) :
      ProcMove s t (s.goto t (.wait (.fail .nokids)))
  | waitKilled (hr : s.Running t) (hp : s.pc t = .wait .killed) (hx : (s.proc t).killed = true) :
      ProcMove s t (s.goto t (.wait (.fail .killed)))
  | waitSleep (hr : s.Running t) (hp : s.pc t = .wait .killed) :
      ProcMove s t (s.goto t (.wait .sleep))
  | sleep (hr : s.Running t) (hp : s.pc t = .wait .sleep) :
      ProcMove s t (((s.set t { s.proc t with lock := true }).lockWait none).goto t (.wait .doze))
  | doze (hr : s.Running t) (hp : s.pc t = .wait .doze) :
      ProcMove s t ((s.set t
        { s.proc t with lock := false, chan := some t, state := sleeping }).goto t (.wait .asleep))
  | fail {why} (hr : s.Running t) (hp : s.pc t = .wait (.fail why)) :
      ProcMove s t ((s.lockWait none).goto t (.ret (-1)))
  | kill {j k pid} (hr : s.Running t) (hp : s.pc t = .kill pid k) (hj : (j : Fin N).val = k)
      (hl : (s.proc j).lock = false) (hx : (s.proc j).pid = pid) :
      ProcMove s t (((s.set j (s.proc j).kill).note (.kill (s.proc j).uid pid)).goto t (.ret 0))
  | resume (hr : (s.proc t).state = runnable) (hp : s.pc t = .wait .asleep) :
      ProcMove s t ((s.set t { s.proc t with state := running, chan := none }).goto t
        (.wait .acquire))
  | dispatch (hr : (s.proc t).state = runnable) (hp : s.pc t ≠ .wait .asleep) :
      ProcMove s t (s.set t { s.proc t with state := running })
  | yield (hr : s.Running t) (hw : (s.pc t).holdsWait = false) (hl : (s.pc t).holdsProc = false) :
      ProcMove s t (s.set t { s.proc t with state := runnable })

/-- What a step of process `t` can do to another process `k` : its new slot, and where it
is then. -/
inductive Touch {N : ℕ} [NeZero N] (s : Procs N) (t k : Fin N) : Proc N → ProcPc N → Prop
  | same : Touch s t k (s.proc k) (s.pc k)
  | alloc {i} (hp : s.pc t = .fork (.scan i)) (hl : (s.proc k).lock = false)
      (hu : (s.proc k).state = .unused) : Touch s t k ((s.proc k).alloc s.nextpid s.born) .user
  | build (hp : s.pc t = .fork (.build k)) :
      Touch s t k { s.proc k with lock := false, mask := (s.proc t).mask } (s.pc k)
  | buildFail (hp : s.pc t = .fork (.build k)) : Touch s t k (s.proc k).free (s.pc k)
  | setParent {pid} (hp : s.pc t = .fork (.setParent k pid)) :
      Touch s t k { s.proc k with parent := some t } (s.pc k)
  | start {pid} (hp : s.pc t = .fork (.start k pid)) :
      Touch s t k { s.proc k with state := .runnable } (s.pc k)
  | reparent {st} (hp : s.pc t = .exit (.reparent k) st) (hc : (s.proc k).parent = some t) :
      Touch s t k { s.proc k with parent := some 0 } (s.pc k)
  | woken {p} (hw : (s.proc k).Woken p) : Touch s t k p (s.pc k)
  | reap {i hk} (hp : s.pc t = .wait (.scan i hk)) (hc : (s.proc k).parent = some t)
      (hl : (s.proc k).lock = false) (hz : (s.proc k).state = .zombie) :
      Touch s t k (s.proc k).free (s.pc k)

section Moves

variable {N : ℕ} [NeZero N] {s s' : Procs N} {t : Fin N}

theorem enterExit_idle (t : Fin N) (st : CInt) : (Procs.enterExit t st).idle := by
  unfold Procs.enterExit
  split <;> rfl

theorem enterExit_zero {t : Fin N} {st : CInt} (h : t = 0) :
    (Procs.enterExit t st).exiting = false := by
  simp [Procs.enterExit, h, ProcPc.exiting]

omit [NeZero N] in
theorem wakeAt_eq {chan : Option (Fin N)} {j : Fin N} (h : s.wakeAt t chan j = some s') :
    (j ≠ t → (s.proc j).lock = false) ∧
      s' = s.set j (if j = t then s.proc j else (s.proc j).wake chan) := by
  unfold Procs.wakeAt at h
  split at h
  · rename_i hj
    cases h
    simp [hj, Procs.set]
  · rename_i hj
    split at h
    · cases h
    · cases h
      simp_all

theorem move_of_usertrap {c : ProcCall} (hr : s.Running t)
    (hp : s.pc t = .user) (h : s.usertrap t c = some s') : ProcMove s t s' := by
  have hi : (s.pc t).idle := by simp [hp, ProcPc.idle]
  unfold Procs.usertrap at h
  split at h
  · cases h
  split at h
  · cases h
    exact .goto hr hi (enterExit_idle t _) enterExit_zero
  cases c with
  | trace m =>
    cases h
    exact .trace hr hp
  | fault =>
    cases h
    exact .fault hr hp (enterExit_idle t _) enterExit_zero
  | exit st =>
    cases h
    exact .goto hr hi (enterExit_idle t _) enterExit_zero
  | _ =>
    cases h
    exact .goto hr hi rfl fun _ => rfl

theorem move_of_usertrapEnd {v : CInt} (hr : s.Running t)
    (hp : s.pc t = .ret v) (h : s.usertrapEnd t = some s') : ProcMove s t s' := by
  have hi : (s.pc t).idle := by simp [hp, ProcPc.idle]
  unfold Procs.usertrapEnd at h
  split at h
  · cases h
  split at h
  · cases h
    exact .goto hr hi (enterExit_idle t _) enterExit_zero
  · cases h
    exact .goto hr hi rfl fun _ => rfl

theorem move_of_fork {mem : Bool} {p : ForkPt N} (hr : s.Running t)
    (hp : s.pc t = .fork p) (h : s.fork t mem p = some s') : ProcMove s t s' := by
  cases p with
  | scan k =>
    have hi : (s.pc t).idle := by simp [hp, ProcPc.idle]
    simp only [Procs.fork] at h
    split at h
    · split at h
      · cases h
      · rename_i hl
        split at h
        · cases h
          exact .alloc hr hp (by simpa using hl) ‹_›
        · cases h
          exact .goto hr hi rfl fun _ => rfl
    · cases h
      exact .goto hr hi rfl fun _ => rfl
  | build np =>
    simp only [Procs.fork] at h
    split at h <;> cases h
    · exact .build hr hp
    · exact .buildFail hr hp
  | link np pid =>
    simp only [Procs.fork] at h
    split at h <;> cases h
    exact .link hr hp ‹_›
  | setParent np pid =>
    cases h
    exact .setParent hr hp
  | start np pid =>
    simp only [Procs.fork] at h
    split at h <;> cases h
    exact .start hr hp (Bool.eq_false_of_not_eq_true ‹_›)

theorem move_of_exit {st : CInt} {p : ExitPt} (hr : p ≠ .gone → s.Running t)
    (hp : s.pc t = .exit p st) (h : s.exit t st p = some s') : ProcMove s t s' := by
  cases p with
  | gone =>
    cases h
    exact .gone hp
  | acquire =>
    simp only [Procs.exit] at h
    split at h <;> cases h
    exact .exitAcquire (hr nofun) hp ‹_›
  | reparent k =>
    simp only [Procs.exit] at h
    split at h
    · split at h <;> cases h
      · exact .reparent (hr nofun) hp rfl ‹_›
      · exact .reparentSkip (hr nofun) hp rfl ‹_›
    · cases h
      exact .reparentEnd (hr nofun) hp (by omega)
  | rewake k j =>
    simp only [Procs.exit] at h
    split at h
    · obtain ⟨s₁, h₁, rfl⟩ := Option.map_eq_some_iff.mp h
      obtain ⟨hl, rfl⟩ := wakeAt_eq h₁
      exact .rewake (hr nofun) hp rfl hl rfl
    · cases h
      exact .rewakeEnd (hr nofun) hp (by omega)
  | wakeParent j =>
    simp only [Procs.exit] at h
    split at h
    · obtain ⟨s₁, h₁, rfl⟩ := Option.map_eq_some_iff.mp h
      obtain ⟨hl, rfl⟩ := wakeAt_eq h₁
      exact .wakeParent (hr nofun) hp rfl hl rfl
    · cases h
      exact .wakeParentEnd (hr nofun) hp (by omega)
  | die =>
    simp only [Procs.exit] at h
    split at h <;> cases h
    exact .die (hr nofun) hp (Bool.eq_false_of_not_eq_true ‹_›)

theorem move_of_wait {cp : Bool} {p : WaitPt} (hr : s.Running t)
    (hp : s.pc t = .wait p) (h : s.wait t cp p = some s') : ProcMove s t s' := by
  cases p with
  | acquire =>
    simp only [Procs.wait] at h
    split at h <;> cases h
    exact .waitAcquire hr hp ‹_›
  | scan k hk =>
    simp only [Procs.wait] at h
    split at h
    · rename_i hlt
      split at h
      · rename_i hc
        split at h
        · cases h
        rename_i hl
        split at h
        · split at h <;> cases h
          · exact .reap hr hp hc (by simpa using hl) ‹_›
          · exact .badaddr hr hp
        · cases h
          exact .scanChild hr hp (j := ⟨k, hlt⟩) rfl ‹_›
      · cases h
        exact .scanSkip hr hp rfl ‹_›
    · cases hk <;> cases h
      · exact .nokids hr hp (by omega)
      · exact .scanEnd hr hp (by omega)
  | killed =>
    simp only [Procs.wait] at h
    split at h
    · cases h
    split at h <;> cases h
    · exact .waitKilled hr hp ‹_›
    · exact .waitSleep hr hp
  | sleep =>
    simp only [Procs.wait] at h
    split at h <;> cases h
    exact .sleep hr hp
  | doze =>
    cases h
    exact .doze hr hp
  | asleep => cases h
  | fail why =>
    cases h
    exact .fail hr hp

/-- Every step of the machine is one of the moves. -/
theorem move_of_step {a : ProcLabel N} (h : s.step a = some s') : ProcMove s a.proc s' := by
  cases a with
  | run t inp =>
    simp only [Procs.step] at h
    split at h
    case isFalse => cases h
    rename_i hr
    unfold Procs.run at h
    have hr' : (∀ st, s.pc t ≠ .exit .gone st) → s.Running t := by
      intro hne
      refine hr.resolve_right ?_
      unfold ProcPc.leaving
      split <;> simp_all
    split at h
    all_goals rename_i hp
    · exact move_of_usertrap (hr' (by simp [hp])) hp h
    · exact move_of_fork (hr' (by simp [hp])) hp h
    · exact move_of_exit (fun hne => hr' (by simp [hp, hne])) hp h
    · exact move_of_wait (hr' (by simp [hp])) hp h
    · have hr := hr' (by simp [hp])
      have hi : (s.pc t).idle := by simp [hp, ProcPc.idle]
      simp only [Procs.kill] at h
      split at h
      · split at h
        · cases h
        rename_i hl
        split at h <;> cases h
        · exact .kill hr hp rfl (by simpa using hl) ‹_›
        · exact .goto hr hi rfl fun _ => rfl
      · cases h
        exact .goto hr hi rfl fun _ => rfl
    · have hr := hr' (by simp [hp])
      have hi : (s.pc t).idle := by simp [hp, ProcPc.idle]
      simp only [Procs.countProc] at h
      split at h
      · split at h
        · cases h
        split at h <;> cases h <;> exact .goto hr hi rfl fun _ => rfl
      · cases h
        exact .goto hr hi rfl fun _ => rfl
    · exact move_of_usertrapEnd (hr' (by simp [hp])) hp h
    · cases h
    · cases h
  | dispatch t =>
    simp only [Procs.step] at h
    split at h
    · rename_i hc
      split at h <;> cases h
      · exact .resume hc.1 ‹_›
      · exact .dispatch hc.1 ‹_›
    · cases h
  | yield t =>
    simp only [Procs.step] at h
    split at h <;> cases h
    rename_i hc
    exact .yield hc.1 (Bool.eq_false_of_not_eq_true hc.2.1)
      (Bool.eq_false_of_not_eq_true hc.2.2.1)

/-! ## What a step does to the other processes -/

/-- A step changes the other processes as `Touch` says. -/
theorem ProcMove.touch (hm : ProcMove s t s') {k : Fin N} (hk : k ≠ t) :
    ∃ p pc, s'.proc k = p ∧ s'.pc k = pc ∧ Touch s t k p pc := by
  refine ⟨_, _, rfl, rfl, ?_⟩
  have upd : ∀ {j : Fin N} {q : Proc N} {pc : ProcPc N}, (k = j → Touch s t k q (s.pc k)) →
      Touch s t k (Function.update s.proc j q k) (Function.update s.pc t pc k) := by
    intro j q pc h
    rw [Function.update_of_ne hk]
    by_cases hj : k = j
    · subst hj
      simpa using h rfl
    · simpa [hj] using Touch.same
  cases hm with
  | @alloc j i hr hp hl hu =>
    by_cases hj : k = j
    · subst hj
      simpa [Procs.allocAt, hk] using Touch.alloc hp hl hu
    · simpa [Procs.allocAt, hk, hj] using Touch.same
  | build hr hp => exact upd (by rintro rfl; exact .build hp)
  | buildFail hr hp => exact upd (by rintro rfl; exact .buildFail hp)
  | setParent hr hp => exact upd (by rintro rfl; exact .setParent hp)
  | start hr hp => exact upd (by rintro rfl; exact .start hp)
  | reparent hr hp hi hc =>
    refine upd ?_
    rintro rfl
    subst hi
    exact .reparent hp hc
  | rewake _ _ _ _ hq | wakeParent _ _ _ _ hq =>
    refine upd ?_
    rintro rfl
    rw [hq, if_neg hk]
    exact .woken (Proc.woken_wake _ _)
  | reap hr hp hc hl hz => exact upd (by rintro rfl; exact .reap hp hc hl hz)
  | kill => exact upd (by rintro rfl; exact .woken (Proc.woken_kill _))
  | _ => simpa [hk] using Touch.same

end Moves

end Xv6
