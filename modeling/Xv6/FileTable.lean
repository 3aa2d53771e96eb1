import Mathlib.Data.List.FinRange
import Xv6.ProcTable
import Xv6.Threads

/-!
# Open files

`file.c`, `pipealloc` and `pipeclose`, and the calls that create, copy and drop descriptors :
`sys_open`, `sys_dup`, `sys_close`, `sys_pipe`, `fork`, `exit` and `wait`. A system call is a
program whose actions are the sections under `ftable.lock`, `pi->lock` and `p->lock`, and
accesses to a descriptor table ; processes interleave at the actions.

An inode is known by the number of references to it that were handed out and not dropped. What
`create` and `namei` find, which page `kalloc` returns if any, and whether `copyout`,
`uvmcopy` and the memory of `allocproc` fail, are arguments of the calls. The working directory
is left out. A null pointer or a freed page given to `pipeclose`, and an `iput` of an inode
without references, stop with `stale`.
-/

namespace Xv6

open Function

inductive FdType
  | none
  | pipe
  | inode
  | device
  deriving DecidableEq, Repr

/-- `struct file`. The pipe is the number of its page. -/
structure File where
  type : FdType
  ref : ℕ
  readable : Bool
  writable : Bool
  pipe : ℕ
  ip : ℕ
  off : ℕ
  major : ℤ
  deriving DecidableEq, Repr

/-- `struct pipe`, as far as `pipealloc` and `pipeclose` use it. -/
structure PipeEnds where
  readopen : Bool
  writeopen : Bool
  deriving DecidableEq, Repr

/-- Clear the flag of one end. -/
def PipeEnds.close (e : PipeEnds) (writable : Bool) : PipeEnds :=
  if writable then { e with writeopen := false } else { e with readopen := false }

/-- A pipe is freed with its second end. -/
def PipeEnds.kept (e : PipeEnds) : Option PipeEnds :=
  if e.readopen = false ∧ e.writeopen = false then none else some e

/-- `p->ofile` -/
abbrev Ofile (NF NO : ℕ) := Fin NO → Option (Fin NF)

/-- `ftable`, and for each process its descriptors and its state, where `runnable` stands for
all states of a process that may make system calls. -/
structure Ftable (N NF NO : ℕ) where
  file : Fin NF → File
  ofile : Fin N → Ofile NF NO
  state : Fin N → ProcState
  page : ℕ → Option PipeEnds
  iref : ℕ → ℕ

inductive FilePanic
  | filedup
  | fileclose
  | initExiting
  | stale
  deriving DecidableEq, Repr

variable {N NF NO : ℕ}

abbrev FileM (N NF NO : ℕ) := Prog (Ftable N NF NO) FilePanic

namespace Ftable

def setFile (s : Ftable N NF NO) (f : Fin NF) (x : File) : Ftable N NF NO :=
  { s with file := update s.file f x }

def setFd (s : Ftable N NF NO) (p : Fin N) (fd : Fin NO) (v : Option (Fin NF)) :
    Ftable N NF NO :=
  { s with ofile := update s.ofile p (update (s.ofile p) fd v) }

def setState (s : Ftable N NF NO) (p : Fin N) (x : ProcState) : Ftable N NF NO :=
  { s with state := update s.state p x }

def setPage (s : Ftable N NF NO) (pi : ℕ) (e : Option PipeEnds) : Ftable N NF NO :=
  { s with page := update s.page pi e }

def setIref (s : Ftable N NF NO) (ip n : ℕ) : Ftable N NF NO :=
  { s with iref := update s.iref ip n }

/-- May `p` make a system call ? -/
def scheduled (p : Fin N) : FileM N NF NO Bool := do
  let s ← get
  pure (s.state p = .runnable)

def getfd (p : Fin N) (fd : Fin NO) : FileM N NF NO (Option (Fin NF)) := do
  let s ← get
  pure (s.ofile p fd)

/-- `p->ofile[fd] = v` -/
def setfd (p : Fin N) (fd : Fin NO) (v : Option (Fin NF)) : FileM N NF NO Unit :=
  modify fun s => s.setFd p fd v

def fdalloc (p : Fin N) (f : Fin NF) : FileM N NF NO (Option (Fin NO)) := do
  let s ← get
  match (List.finRange NO).find? fun fd => s.ofile p fd = none with
  | some fd => do
    modify fun s => s.setFd p fd (some f)
    pure (some fd)
  | none => pure none

def filealloc : FileM N NF NO (Option (Fin NF)) := do
  let s ← get
  match (List.finRange NF).find? fun f => (s.file f).ref = 0 with
  | some f => do
    modify fun s => s.setFile f { s.file f with ref := 1 }
    pure (some f)
  | none => pure none

def filedup (f : Fin NF) : FileM N NF NO Unit := do
  let s ← get
  if (s.file f).ref < 1 then throw .filedup
  else modify fun s => s.setFile f { s.file f with ref := (s.file f).ref + 1 }

/-- `fileclose` up to its `release` : the copy `ff`, if this was the last reference. -/
def unref (f : Fin NF) : FileM N NF NO (Option File) := do
  let s ← get
  if (s.file f).ref < 1 then throw .fileclose
  else if 0 < (s.file f).ref - 1 then do
    modify fun s => s.setFile f { s.file f with ref := (s.file f).ref - 1 }
    pure none
  else do
    modify fun s => s.setFile f { s.file f with ref := 0, type := .none }
    pure (some { s.file f with ref := 0 })

/-- The stores of `pipealloc` to a new file. -/
def setPipe (f : Fin NF) (pi : ℕ) (writable : Bool) : FileM N NF NO Unit :=
  modify fun s => s.setFile f
    { s.file f with type := .pipe, readable := !writable, writable := writable, pipe := pi }

/-- The stores of `sys_open` to a new file. -/
def setInode (f : Fin NF) (ip : ℕ) (device : Option ℤ) (readable writable : Bool) :
    FileM N NF NO Unit :=
  modify fun s => s.setFile f <|
    match device with
    | some major => { s.file f with
        type := .device, major := major, ip := ip, readable := readable, writable := writable }
    | none => { s.file f with
        type := .inode, off := 0, ip := ip, readable := readable, writable := writable }

/-- `kalloc` and the stores of `pipealloc` to the pipe. The page is any that is free. -/
def kalloc (free : Option ℕ) : FileM N NF NO (Option ℕ) := do
  let s ← get
  match free with
  | some pi =>
    if s.page pi = none then do
      modify fun s => s.setPage pi (some ⟨true, true⟩)
      pure (some pi)
    else pure none
  | none => pure none

def pipeclose (pi : ℕ) (writable : Bool) : FileM N NF NO Unit := do
  let s ← get
  match s.page pi with
  | none => throw .stale
  | some e =>
    modify fun s => s.setPage pi (e.close writable).kept

/-- The reference that `create` and `namei` return. -/
def iget (ip : ℕ) : FileM N NF NO Unit :=
  modify fun s => s.setIref ip (s.iref ip + 1)

def iput (ip : ℕ) : FileM N NF NO Unit := do
  let s ← get
  if s.iref ip = 0 then throw .stale
  else modify fun s => s.setIref ip (s.iref ip - 1)

def allocproc : FileM N NF NO (Option (Fin N)) := do
  let s ← get
  match (List.finRange N).find? fun q => s.state q = .unused with
  | some q => do
    modify fun s => s.setState q .used
    pure (some q)
  | none => pure none

/-- `freeproc` of a zombie, by `wait` -/
def reap (q : Fin N) : FileM N NF NO Unit := do
  let s ← get
  if s.state q = .zombie then modify fun s => s.setState q .unused else pure ()

/-- `count_openfile` -/
def countOpenfile (s : Ftable N NF NO) : ℕ :=
  (List.finRange NF).foldl (fun total f => if 0 < (s.file f).ref then total + 1 else total) 0

end Ftable

/-! ## Actions and programs -/

inductive FileAct (N NF NO : ℕ)
  | scheduled (p : Fin N)
  | getfd (p : Fin N) (fd : Fin NO)
  | setfd (p : Fin N) (fd : Fin NO) (v : Option (Fin NF))
  | fdalloc (p : Fin N) (f : Fin NF)
  | filealloc
  | filedup (f : Fin NF)
  | unref (f : Fin NF)
  | setPipe (f : Fin NF) (pi : ℕ) (writable : Bool)
  | setInode (f : Fin NF) (ip : ℕ) (device : Option ℤ) (readable writable : Bool)
  | kalloc (free : Option ℕ)
  | pipeclose (pi : ℕ) (writable : Bool)
  | iget (ip : ℕ)
  | iput (ip : ℕ)
  | allocproc
  /-- `freeproc` of a process that `fork` gives up -/
  | freeproc (q : Fin N)
  /-- `np->ofile[i] = f` -/
  | copyfd (q : Fin N) (i : Fin NO) (f : Fin NF)
  /-- `np->state = RUNNABLE` -/
  | runnable (q : Fin N)
  /-- `p->state = ZOMBIE` -/
  | zombie (p : Fin N)
  | reap (q : Fin N)
  | panic (e : FilePanic)

/-- What an action returns. -/
@[reducible] def FileAct.Res : FileAct N NF NO → Type
  | .scheduled _ => Bool
  | .getfd .. => Option (Fin NF)
  | .fdalloc .. => Option (Fin NO)
  | .filealloc => Option (Fin NF)
  | .unref _ => Option File
  | .kalloc _ => Option ℕ
  | .allocproc => Option (Fin N)
  | _ => Unit

def FileAct.run : (a : FileAct N NF NO) → FileM N NF NO a.Res
  | .scheduled p => Ftable.scheduled p
  | .getfd p fd => Ftable.getfd p fd
  | .setfd p fd v => Ftable.setfd p fd v
  | .fdalloc p f => Ftable.fdalloc p f
  | .filealloc => Ftable.filealloc
  | .filedup f => Ftable.filedup f
  | .unref f => Ftable.unref f
  | .setPipe f pi w => Ftable.setPipe f pi w
  | .setInode f ip device r w => Ftable.setInode f ip device r w
  | .kalloc free => Ftable.kalloc free
  | .pipeclose pi w => Ftable.pipeclose pi w
  | .iget ip => Ftable.iget ip
  | .iput ip => Ftable.iput ip
  | .allocproc => Ftable.allocproc
  | .freeproc q => modify fun s => s.setState q .unused
  | .copyfd q i f => Ftable.setfd q i (some f)
  | .runnable q => modify fun s => s.setState q .runnable
  | .zombie p => modify fun s => s.setState p .zombie
  | .reap q => Ftable.reap q
  | .panic e => throw e

/-- What a process does in a system call. -/
abbrev FileSys (N NF NO : ℕ) := Ctl (FileAct N NF NO) FileAct.Res

namespace FileSys

abbrev act (a : FileAct N NF NO) : FileSys N NF NO a.Res := Ctl.call a

/-- The end of `fileclose`, after the last reference. -/
def closeLast (ff : File) : FileSys N NF NO Unit :=
  match ff.type with
  | .pipe => act (.pipeclose ff.pipe ff.writable)
  | .inode => act (.iput ff.ip)
  | .device => act (.iput ff.ip)
  | .none => pure ()

def fileclose (f : Fin NF) : FileSys N NF NO Unit := do
  match ← act (.unref f) with
  | none => pure ()
  | some ff => closeLast ff

/-- `argfd` : the file of the descriptor. -/
def argfd (p : Fin N) (fd : ℕ) : FileSys N NF NO (Option (Fin NO × Fin NF)) :=
  if h : fd < NO then do
    let f ← act (.getfd p ⟨fd, h⟩)
    pure (f.map fun f => (⟨fd, h⟩, f))
  else pure none

def sysDup (p : Fin N) (fd : ℕ) : FileSys N NF NO Unit := do
  match ← argfd p fd with
  | none => pure ()
  | some (_, f) =>
    match ← act (.fdalloc p f) with
    | none => pure ()
    | some _ => act (.filedup f)

def sysClose (p : Fin N) (fd : ℕ) : FileSys N NF NO Unit := do
  match ← argfd p fd with
  | none => pure ()
  | some (fd, f) => do
    act (.setfd p fd none)
    fileclose f

/-- What `create` or `namei` and the checks of `sys_open` come to. -/
inductive Lookup
  | missing
  /-- the inode is a directory that is not to be written, or a device without driver -/
  | refused (ip : ℕ)
  | found (ip : ℕ) (device : Option ℤ) (readable writable : Bool)

def sysOpen (p : Fin N) : Lookup → FileSys N NF NO Unit
  | .missing => pure ()
  | .refused ip => do
    act (.iget ip)
    act (.iput ip)
  | .found ip device readable writable => do
    act (.iget ip)
    match ← act .filealloc with
    | none => act (.iput ip)
    | some f => do
      match ← act (.fdalloc p f) with
      | none => do
        fileclose f
        act (.iput ip)
      | some _ => act (.setInode f ip device readable writable)

/-- `pipealloc`. There is no pipe to free where it fails. -/
def pipealloc (free : Option ℕ) : FileSys N NF NO (Option (Fin NF × Fin NF)) := do
  match ← act .filealloc with
  | none => pure none
  | some f0 =>
    match ← act .filealloc with
    | none => do
      fileclose f0
      pure none
    | some f1 =>
      match ← act (.kalloc free) with
      | none => do
        fileclose f0
        fileclose f1
        pure none
      | some pi => do
        act (.setPipe f0 pi false)
        act (.setPipe f1 pi true)
        pure (some (f0, f1))

def closeBoth (rf wf : Fin NF) : FileSys N NF NO Unit := do
  fileclose rf
  fileclose wf

/-- `sys_pipe`, where `copied` says whether both `copyout` succeed. -/
def sysPipe (p : Fin N) (free : Option ℕ) (copied : Bool) : FileSys N NF NO Unit := do
  match ← pipealloc free with
  | none => pure ()
  | some (rf, wf) =>
    match ← act (.fdalloc p rf) with
    | none => closeBoth rf wf
    | some fd0 =>
      match ← act (.fdalloc p wf) with
      | none => do
        act (.setfd p fd0 none)
        closeBoth rf wf
      | some fd1 =>
        if copied then pure ()
        else do
          act (.setfd p fd0 none)
          act (.setfd p fd1 none)
          closeBoth rf wf

/-- The loop of `fork` over the descriptors `l`. -/
def forkLoop (p q : Fin N) : List (Fin NO) → FileSys N NF NO Unit
  | [] => pure ()
  | i :: l => do
    match ← act (.getfd p i) with
    | none => forkLoop p q l
    | some f => do
      act (.filedup f)
      act (.copyfd q i f)
      forkLoop p q l

/-- `fork`, where `memory` says whether `allocproc` and `uvmcopy` find it. -/
def fork (p : Fin N) (memory : Bool) : FileSys N NF NO Unit := do
  match ← act .allocproc with
  | none => pure ()
  | some q =>
    if memory then do
      forkLoop p q (List.finRange NO)
      act (.runnable q)
    else act (.freeproc q)

/-- The loop of `exit` over the descriptors `l`. -/
def exitLoop (p : Fin N) : List (Fin NO) → FileSys N NF NO Unit
  | [] => pure ()
  | fd :: l => do
    match ← act (.getfd p fd) with
    | none => exitLoop p l
    | some f => do
      fileclose f
      act (.setfd p fd none)
      exitLoop p l

def exit (initproc p : Fin N) : FileSys N NF NO Unit := do
  if p = initproc then act (.panic .initExiting)
  else do
    exitLoop p (List.finRange NO)
    act (.zombie p)

end FileSys

inductive FileCall (N : ℕ)
  | open (look : FileSys.Lookup)
  | dup (fd : ℕ)
  | close (fd : ℕ)
  | pipe (free : Option ℕ) (copied : Bool)
  | fork (memory : Bool)
  | exit
  | wait (q : Fin N)

def FileCall.body (initproc p : Fin N) : FileCall N → FileSys N NF NO Unit
  | .open look => FileSys.sysOpen p look
  | .dup fd => FileSys.sysDup p fd
  | .close fd => FileSys.sysClose p fd
  | .pipe free copied => FileSys.sysPipe p free copied
  | .fork memory => FileSys.fork p memory
  | .exit => FileSys.exit initproc p
  | .wait q => FileSys.act (.reap q)

/-- A call of process `p`, which does nothing unless `p` may run. -/
def FileCall.prog (initproc : Fin N) (c : FileCall N) (p : Fin N) : FileSys N NF NO (Fin N) := do
  if ← FileSys.act (.scheduled p) then do
    c.body initproc p
    pure p
  else pure p

/-- The processes and their calls. A process is known by its slot. -/
abbrev FileRun (N NF NO : ℕ) :=
  Threads (Fin N) (Ftable N NF NO) (FileAct N NF NO) FileAct.Res (Fin N)

abbrev FileRun.step (initproc : Fin N) :
    FileRun N NF NO → ThreadLabel (Fin N) (FileCall N) → Option (FileRun N NF NO) :=
  Threads.step FileAct.run (FileCall.prog initproc)

/-- After boot there is one process, without open files. -/
def Ftable.boot (initproc : Fin N) : Ftable N NF NO where
  file _ := ⟨.none, 0, false, false, 0, 0, 0, 0⟩
  ofile _ _ := none
  state p := if p = initproc then .runnable else .unused
  page _ := none
  iref _ := 0

def FileRun.boot (initproc : Fin N) : FileRun N NF NO := ⟨.boot initproc, id, fun _ => none⟩

end Xv6
