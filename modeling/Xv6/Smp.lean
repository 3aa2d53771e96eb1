import Mathlib.Data.Fintype.Card
import Mathlib.Data.Fintype.Option
import Xv6.ProcTable
import Xv6.Threads

/-!
# Processors and kernel threads

`ProcTable` lets a process run while it is `RUNNING`. Here are the processors that run it : any
number of them, each in `scheduler` on a stack of its own, or on the kernel stack of a process
after `swtch`. The functions of `proc.c` are programs whose actions are single reads and writes
of a `struct proc`, and the `acquire` and `release` of a lock, so processors interleave at every
one of them. A lock belongs to the processor that acquired it, as in `spinlock.c`, and is handed
from one stack to the other when that processor switches.

`swtch` stores the registers one at a time. `ctx` counts how many of the values in `p->context`
are those of the process ; the stack is left when all of them are stored, and `ctx` falls to zero
when the process runs from there.

Interrupts come when a processor holds no lock. A timer interrupt makes a process `yield`, and a
device interrupt runs `wakeup`, also on a processor that is in `scheduler`.
-/

namespace Xv6

open Function

/-- The registers that `swtch` stores. -/
def NREG : ℕ := 14

/-- The spin locks other than `p->lock`. -/
inductive Spin (κ : Type)
  | wait
  | pid
  | other (k : κ)
  deriving DecidableEq

instance {κ : Type} [Fintype κ] [DecidableEq κ] : Fintype (Spin κ) where
  elems := {.wait, .pid} ∪ Finset.univ.image Spin.other
  complete k := by cases k <;> simp

/-- An address to sleep on. -/
inductive Chan (N : ℕ)
  | proc (p : Fin N)
  | other (x : ℕ)
  deriving DecidableEq

/-- The fields of `struct proc` that have nothing to do with running it. -/
structure Pcb (N : ℕ) where
  chan : Option (Chan N)
  killed : Bool
  xstate : CInt
  pid : CInt
  parent : Option (Fin N)

/-! ## Programs of the kernel -/

inductive KAct (N : ℕ) (κ : Type)
  /-- `p->lock` -/
  | acquire (p : Fin N)
  | release (p : Fin N)
  /-- another lock -/
  | lock (k : Spin κ)
  | unlock (k : Spin κ)
  | myproc
  | holding (p : Fin N)
  /-- `mycpu()->noff` -/
  | noff
  | state (p : Fin N)
  | setState (p : Fin N) (st : ProcState)
  | get (p : Fin N)
  | put (p : Fin N) (f : Pcb N → Pcb N)
  /-- `nextpid++` -/
  | nextpid
  /-- `p->context` is set up for `forkret` -/
  | context (p : Fin N)
  /-- does an allocation, or a copy to or from user memory, succeed ? -/
  | input
  | swtch
  | panic

/-- What an action returns. -/
@[reducible] def KAct.Ans {N : ℕ} {κ : Type} : KAct N κ → Type
  | .myproc => Option (Fin N)
  | .holding _ => Bool
  | .noff => ℕ
  | .state _ => ProcState
  | .get _ => Pcb N
  | .nextpid => CInt
  | .input => Bool
  | .panic => Empty
  | _ => Unit

abbrev KProg (N : ℕ) (κ : Type) := Ctl (KAct N κ) KAct.Ans

/-- What a thread does when a function has returned : anything, or the next round of `wait`. -/
inductive KNext
  | code
  | waitLoop

namespace Kernel

variable {N : ℕ} {κ : Type}

abbrev act (a : KAct N κ) : KProg N κ a.Ans := Ctl.call a

def acquire (p : Fin N) : KProg N κ Unit := act (.acquire p)
def release (p : Fin N) : KProg N κ Unit := act (.release p)
def lock (k : Spin κ) : KProg N κ Unit := act (.lock k)
def unlock (k : Spin κ) : KProg N κ Unit := act (.unlock k)
def state (p : Fin N) : KProg N κ ProcState := act (.state p)
def setState (p : Fin N) (st : ProcState) : KProg N κ Unit := act (.setState p st)
def get (p : Fin N) : KProg N κ (Pcb N) := act (.get p)
def put (p : Fin N) (f : Pcb N → Pcb N) : KProg N κ Unit := act (.put p f)
def input : KProg N κ Bool := act .input
def holding (p : Fin N) : KProg N κ Bool := act (.holding p)
def noff : KProg N κ ℕ := act .noff
def nextpid : KProg N κ CInt := act .nextpid
def setContext (p : Fin N) : KProg N κ Unit := act (.context p)
def swtch : KProg N κ Unit := act .swtch
def panic {α : Type} : KProg N κ α := .act .panic nofun

/-- `c->proc`, which may be null. -/
def cproc : KProg N κ (Option (Fin N)) := act .myproc

/-- `myproc()`, where it is not null. -/
def myproc : KProg N κ (Fin N) := do
  match ← cproc with
  | some p => pure p
  | none => panic

/-- The loop over the process table, until `body` returns from it. -/
def forProc {β : Type} (body : Fin N → KProg N κ (Option β)) : List (Fin N) → KProg N κ (Option β)
  | [] => pure none
  | p :: l => do
    match ← body p with
    | some b => pure (some b)
    | none => forProc body l

/-- The last check of `sched` is that interrupts are off, as they are while a lock is held. -/
def sched : KProg N κ Unit := do
  let p ← myproc
  if ← holding p then do
    if (← noff) ≠ 1 then panic
    else if (← state p) = .running then panic
    else swtch
  else panic

def yield : KProg N κ Unit := do
  let p ← myproc
  acquire p
  setState p .runnable
  sched
  release p

/-- `sleep(chan, lk)` -/
def sleep (x : Chan N) (lk : Spin κ) : KProg N κ Unit := do
  let p ← myproc
  acquire p
  unlock lk
  put p fun y => { y with chan := some x }
  setState p .sleeping
  sched
  put p fun y => { y with chan := none }
  release p
  lock lk

def wakeup (x : Option (Chan N)) : KProg N κ Unit := do
  let _ ← forProc (β := Unit) (fun p => do
    if (← cproc) = some p then pure none
    else do
      acquire p
      if (← state p) = .sleeping then do
        if (← get p).chan = x then setState p .runnable else pure ()
      else pure ()
      release p
      pure none) (List.finRange N)

def kill (pid : CInt) : KProg N κ Unit := do
  let _ ← forProc (β := Unit) (fun p => do
    acquire p
    if (← get p).pid = pid then do
      put p fun y => { y with killed := true }
      if (← state p) = .sleeping then setState p .runnable else pure ()
      release p
      pure (some ())
    else do
      release p
      pure none) (List.finRange N)

def killed (p : Fin N) : KProg N κ Bool := do
  acquire p
  let y ← get p
  release p
  pure y.killed

/-- `freeproc` clears the fields with the lock held. -/
def freeproc (p : Fin N) : KProg N κ Unit := do
  put p fun _ => ⟨none, false, 0, 0, none⟩
  setState p .unused

/-- `allocproc` returns with the lock of the slot held. -/
def allocproc : KProg N κ (Option (Fin N)) := do
  match ← forProc (fun p => do
      acquire p
      if (← state p) = .unused then pure (some p)
      else do
        release p
        pure none) (List.finRange N) with
  | none => pure none
  | some p => do
    lock .pid
    let pid ← nextpid
    unlock .pid
    put p fun y => { y with pid := pid }
    setState p .used
    -- the trapframe page
    if !(← input) then do
      freeproc p
      release p
      pure none
    -- `proc_pagetable`
    else if !(← input) then do
      freeproc p
      release p
      pure none
    else do
      setContext p
      pure (some p)

/-- `fork`. The files are duplicated under the locks of their tables, with `np->lock` held. -/
def fork : KProg N κ Unit := do
  let p ← myproc
  match ← allocproc with
  | none => pure ()
  | some np => do
    -- `uvmcopy`
    if !(← input) then do
      freeproc np
      release np
    else do
      release np
      lock .wait
      put np fun y => { y with parent := some p }
      unlock .wait
      acquire np
      setState np .runnable
      release np

/-- A fork child's first scheduling. `fsinit`, in the first process, is code like any other. -/
def forkret : KProg N κ KNext := do
  release (← myproc)
  pure .code

section Init

variable [NeZero N]

def reparent (p : Fin N) : KProg N κ Unit := do
  let _ ← forProc (β := Unit) (fun pp => do
    if (← get pp).parent = some p then do
      put pp fun y => { y with parent := some 0 }
      wakeup (some (.proc 0))
      pure none
    else pure none) (List.finRange N)

/-- `exit`, after it has closed the files. -/
def exit (status : CInt) : KProg N κ KNext := do
  let p ← myproc
  if p = 0 then panic
  else do
    lock .wait
    reparent p
    wakeup ((← get p).parent.map .proc)
    acquire p
    put p fun y => { y with xstate := status }
    setState p .zombie
    unlock .wait
    sched
    panic

end Init

/-- The scan of `wait` for children of `p` : `none` if it returns from `wait`, else whether there
are any. -/
def waitScan (p : Fin N) : List (Fin N) → Bool → KProg N κ (Option Bool)
  | [], havekids => pure (some havekids)
  | pp :: l, havekids => do
    if (← get pp).parent = some p then do
      acquire pp
      if (← state pp) = .zombie then do
        -- `copyout`
        if ← input then freeproc pp else pure ()
        release pp
        unlock .wait
        pure none
      else do
        release pp
        waitScan p l true
    else waitScan p l havekids

/-- A round of the loop of `wait`, which holds `wait_lock`. -/
def waitLoop : KProg N κ KNext := do
  let p ← myproc
  match ← waitScan p (List.finRange N) false with
  | none => pure .code
  | some havekids =>
    if !havekids then do
      unlock .wait
      pure .code
    else if ← killed p then do
      unlock .wait
      pure .code
    else do
      sleep (.proc p) .wait
      pure .waitLoop

end Kernel

/-- What a thread calls. -/
inductive KCall (N : ℕ) (κ : Type)
  | yield
  | sleep (x : Chan N) (lk : Spin κ)
  | wakeup (x : Chan N)
  | kill (pid : CInt)
  | fork
  | exit (status : CInt)
  | wait
  /-- a lock around other code -/
  | lock (k : Spin κ)
  | unlock (k : Spin κ)

section Calls

variable {N : ℕ} {κ : Type} [NeZero N]

def KCall.body : KCall N κ → KProg N κ KNext
  | .yield => do Kernel.yield; pure .code
  | .sleep x lk => do Kernel.sleep x lk; pure .code
  | .wakeup x => do Kernel.wakeup (some x); pure .code
  | .kill pid => do Kernel.kill pid; pure .code
  | .fork => do Kernel.fork; pure .code
  | .exit status => Kernel.exit status
  | .wait => do Kernel.lock .wait; pure .waitLoop
  | .lock k => do Kernel.lock k; pure .code
  | .unlock k => do Kernel.unlock k; pure .code

/-- How a thread goes on. -/
def KNext.go (call : KCall N κ) : KNext → KProg N κ KNext
  | .code => call.body
  | .waitLoop => Kernel.waitLoop

end Calls

/-! ## The machine -/

/-- `struct proc`, with the kernel thread of the process. -/
structure Slot (N M : ℕ) (κ : Type) where
  state : ProcState
  /-- the processor that holds `p->lock` -/
  lock : Option (Fin M)
  pcb : Pcb N
  /-- how many registers in `p->context` are those of the thread -/
  ctx : ℕ
  /-- what the thread does next -/
  code : KProg N κ KNext

/-- Where a processor is in `scheduler`. -/
inductive SchedPt (N : ℕ) (κ : Type)
  /-- before `acquire(&proc[j].lock)` -/
  | scan (j : ℕ)
  /-- before the test of `p->state` -/
  | check (p : Fin N)
  /-- before `c->proc = p` -/
  | chosen (p : Fin N)
  /-- in `swtch(&c->context, &p->context)`, with `k` registers stored -/
  | switch (p : Fin N) (k : ℕ)
  /-- `swtch` returns -/
  | back (p : Fin N)
  /-- before `release(&p->lock)` -/
  | unlock (p : Fin N)
  /-- in an interrupt, before `acquire(&proc[j].lock)` -/
  | intr (m : KProg N κ Unit) (j : ℕ)

/-- `struct cpu`. `stack` is the process on whose kernel stack the processor is ; `pt` is where its
scheduler is or will go on. -/
structure Hart (N : ℕ) (κ : Type) where
  proc : Option (Fin N)
  stack : Option (Fin N)
  pt : SchedPt N κ

structure Smp (N M : ℕ) (κ : Type) where
  slot : Fin N → Slot N M κ
  spin : Spin κ → Option (Fin M)
  nextpid : CInt
  cpu : Fin M → Hart N κ

/-- The call that a thread makes next, and the answer to `input`. -/
structure SmpInput (N : ℕ) (κ : Type) where
  call : KCall N κ
  ok : Bool

inductive SmpLabel (N M : ℕ) (κ : Type)
  | go (c : Fin M) (i : SmpInput N κ)
  | timer (c : Fin M)
  | device (c : Fin M) (x : Chan N)

namespace Smp

variable {N M : ℕ} {κ : Type}

def setSlot (s : Smp N M κ) (p : Fin N) (f : Slot N M κ → Slot N M κ) : Smp N M κ :=
  { s with slot := update s.slot p (f (s.slot p)) }

def setCpu (s : Smp N M κ) (c : Fin M) (f : Hart N κ → Hart N κ) : Smp N M κ :=
  { s with cpu := update s.cpu c (f (s.cpu c)) }

variable [DecidableEq κ] [Fintype κ]

/-- `push_off` counts the locks that the processor holds. -/
def noff (s : Smp N M κ) (c : Fin M) : ℕ :=
  (Finset.univ.filter fun p => (s.slot p).lock = some c).card +
    (Finset.univ.filter fun k => s.spin k = some c).card

/-- An action on processor `c`. A lock that is held makes it wait, and a `panic` has no step. -/
def act (s : Smp N M κ) (c : Fin M) (i : SmpInput N κ) : (a : KAct N κ) → Option (a.Ans × Smp N M κ)
  | .acquire p =>
    if (s.slot p).lock = none then some ((), s.setSlot p fun x => { x with lock := some c })
    else none
  | .release p =>
    if (s.slot p).lock = some c then some ((), s.setSlot p fun x => { x with lock := none })
    else none
  | .lock k =>
    if s.spin k = none then some ((), { s with spin := update s.spin k (some c) }) else none
  | .unlock k =>
    if s.spin k = some c then some ((), { s with spin := update s.spin k none }) else none
  | .myproc => some ((s.cpu c).proc, s)
  | .holding p => some (decide ((s.slot p).lock = some c), s)
  | .noff => some (s.noff c, s)
  | .state p => some ((s.slot p).state, s)
  | .setState p st => some ((), s.setSlot p fun x => { x with state := st })
  | .get p => some ((s.slot p).pcb, s)
  | .put p f => some ((), s.setSlot p fun x => { x with pcb := f x.pcb })
  | .nextpid => some (s.nextpid, { s with nextpid := s.nextpid + 1 })
  | .context p => some ((), s.setSlot p fun x => { x with ctx := NREG, code := Kernel.forkret })
  | .input => some (i.ok, s)
  | .swtch => none
  | .panic => none

variable [NeZero N]

/-- A step of the thread of `p`, on processor `c`. -/
def thread (s : Smp N M κ) (c : Fin M) (p : Fin N) (i : SmpInput N κ) : Option (Smp N M κ) :=
  match (s.slot p).code with
  | .ret n => some (s.setSlot p fun x => { x with code := n.go i.call })
  | .act .swtch k =>
    -- `swtch(&p->context, &mycpu()->context)`
    match (s.cpu c).proc with
    | some q =>
      if (s.slot q).ctx ≠ NREG then some (s.setSlot q fun x => { x with ctx := x.ctx + 1 })
      else some ((s.setSlot p fun x => { x with code := k () }).setCpu c fun h =>
        { h with stack := none })
    | none => none
  | .act a k => (s.act c i a).map fun r => r.2.setSlot p fun x => { x with code := k r.1 }

/-- A step of processor `c` on its own stack. -/
def scheduler (s : Smp N M κ) (c : Fin M) (i : SmpInput N κ) : Option (Smp N M κ) :=
  let goto (s : Smp N M κ) (pt : SchedPt N κ) : Smp N M κ := s.setCpu c fun h => { h with pt := pt }
  match (s.cpu c).pt with
  | .scan j =>
    if h : j < N then
      if (s.slot ⟨j, h⟩).lock = none then
        some (goto (s.setSlot ⟨j, h⟩ fun x => { x with lock := some c }) (.check ⟨j, h⟩))
      else none
    else some (goto s (.scan 0))
  | .check p =>
    if (s.slot p).state = .runnable then
      some (goto (s.setSlot p fun x => { x with state := .running }) (.chosen p))
    else some (goto s (.unlock p))
  | .chosen p => some (s.setCpu c fun h => { h with proc := some p, pt := .switch p 0 })
  | .switch p k =>
    if k < NREG then some (goto s (.switch p (k + 1)))
    else some ((s.setSlot p fun x => { x with ctx := 0 }).setCpu c fun h =>
      { h with stack := some p, pt := .back p })
  | .back p => some (s.setCpu c fun h => { h with proc := none, pt := .unlock p })
  | .unlock p =>
    if (s.slot p).lock = some c then
      some (goto (s.setSlot p fun x => { x with lock := none }) (.scan (p + 1)))
    else none
  | .intr (.ret _) j => some (goto s (.scan j))
  | .intr (.act a k) j => (s.act c i a).map fun r => goto r.2 (.intr (k r.1) j)

/-- An interrupt on processor `c` runs `m` before the code it interrupts. -/
def interrupt (s : Smp N M κ) (c : Fin M) (m : KProg N κ Unit) : Option (Smp N M κ) :=
  if s.noff c = 0 then
    match (s.cpu c).stack with
    | some p => some (s.setSlot p fun x => { x with code := do m; x.code })
    | none =>
      match (s.cpu c).pt with
      | .scan j => some (s.setCpu c fun h => { h with pt := .intr m j })
      | _ => none
  else none

def step (s : Smp N M κ) : SmpLabel N M κ → Option (Smp N M κ)
  | .go c i =>
    match (s.cpu c).stack with
    | some p => s.thread c p i
    | none => s.scheduler c i
  | .timer c =>
    -- `myproc()` is null in the scheduler, and there is no `yield`
    if (s.cpu c).proc = none then none else s.interrupt c Kernel.yield
  | .device c x => s.interrupt c (Kernel.wakeup (some x))

/-- After `userinit`, when the processors call `scheduler`. -/
def start (N M : ℕ) (κ : Type) [NeZero N] : Smp N M κ where
  slot p := if p = 0 then ⟨.runnable, none, ⟨none, false, 0, 1, none⟩, NREG, Kernel.forkret⟩
    else ⟨.unused, none, ⟨none, false, 0, 0, none⟩, 0, Kernel.forkret⟩
  spin _ := none
  nextpid := 2
  cpu _ := ⟨none, none, .scan 0⟩

end Smp

end Xv6
