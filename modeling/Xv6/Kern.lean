import Xv6.FileTable
import Xv6.Vm

/-!
# Processes and their memory

The functions of `proc.c` that give a process its memory and take it away, as programs over the
process table, the file table and the physical memory : `allocproc`, `freeproc`,
`proc_pagetable`, `proc_freepagetable`, `growproc` and `fork`. A call runs without
interference, so locks are left out. A process is known by its slot and an inode by its
number.
-/

namespace Xv6

open Function Prog

namespace Kern

/-- `struct proc`, without locks, the kernel stack and its context. -/
structure Proc (N NF NO : ℕ) where
  state : ProcState
  killed : Bool
  xstate : CInt
  pid : CInt
  mask : CInt
  parent : Option (Fin N)
  sz : ℕ
  pagetable : ℕ
  trapframe : ℕ
  ofile : Ofile NF NO
  cwd : Option ℕ
  name : List UInt8

end Kern

/-- The process table, the file table with the pipes, the references to inodes, and the
memory. -/
structure Kern (N NF NO : ℕ) where
  phys : Phys
  proc : Fin N → Kern.Proc N NF NO
  nextpid : CInt
  file : Fin NF → File
  pipe : ℕ → PipeEnds
  iref : ℕ → ℕ

inductive KernPanic
  | vm (e : VmPanic)
  | file (e : FilePanic)
  deriving DecidableEq, Repr

abbrev KernM (N NF NO : ℕ) := Prog (Kern N NF NO) KernPanic

namespace Kern

variable {N NF NO : ℕ}

/-- A function of `vm.c` or `kalloc.c`. -/
def vm {α : Type} (m : VmM α) : KernM N NF NO α :=
  zoom Kern.phys (fun t s => { s with phys := t }) .vm m

def setProc (q : Fin N) (f : Proc N NF NO → Proc N NF NO) : KernM N NF NO Unit :=
  modify fun s => { s with proc := update s.proc q (f (s.proc q)) }

section Rules

variable {α : Type} {E : KernPanic → Prop} {k : Kern N NF NO}

@[simp] theorem wp_vm {m : VmM α} {Q : α → Kern N NF NO → Prop} : wp E (vm m) Q k ↔
    wp (fun e => E (.vm e)) m (fun a t => Q a { k with phys := t }) k.phys := wp_zoom

@[simp] theorem wp_setProc {q : Fin N} {f : Proc N NF NO → Proc N NF NO}
    {Q : Unit → Kern N NF NO → Prop} : wp E (setProc q f) Q k ↔
    Q () { k with proc := update k.proc q (f (k.proc q)) } := Iff.rfl

end Rules

variable (I : KernelImage)

/-! ## Page tables of processes -/

/-- A page table with the trampoline and the trapframe, or 0. -/
def proc_pagetable (trapframe : ℕ) : VmM ℕ := do
  let pagetable ← Vm.uvmcreate
  if pagetable = 0 then
    return 0
  else if (← Vm.mappages pagetable TRAMPOLINE PGSIZE I.trampoline (PTE_R ||| PTE_X)) < 0 then
    Vm.uvmfree I pagetable 0
    return 0
  else if (← Vm.mappages pagetable TRAPFRAME PGSIZE trapframe (PTE_R ||| PTE_W)) < 0 then
    Vm.uvmunmap I pagetable TRAMPOLINE 1 false
    Vm.uvmfree I pagetable 0
    return 0
  else
    return pagetable

def proc_freepagetable (pagetable sz : ℕ) : VmM Unit := do
  Vm.uvmunmap I pagetable TRAMPOLINE 1 false
  Vm.uvmunmap I pagetable TRAPFRAME 1 false
  Vm.uvmfree I pagetable sz

/-! ## Slots of the process table -/

def allocpid : KernM N NF NO CInt := do
  let pid := (← get).nextpid
  modify fun s => { s with nextpid := pid + 1 }
  return pid

/-- What `freeproc` leaves of a slot : the descriptors, the directory and the mask. -/
def Proc.clear (c : Proc N NF NO) : Proc N NF NO := { c with
  trapframe := 0, pagetable := 0, sz := 0, pid := 0, parent := none, name := [],
  killed := false, xstate := 0, state := .unused }

def freeproc (p : Fin N) : KernM N NF NO Unit := do
  let c := (← get).proc p
  if c.trapframe ≠ 0 then
    vm (Vm.kfree I c.trapframe)
  if c.pagetable ≠ 0 then
    vm (proc_freepagetable I c.pagetable c.sz)
  setProc p Proc.clear

/-- `allocproc` for the slot that it found. -/
def allocAt (p : Fin N) : KernM N NF NO (Option (Fin N)) := do
  let pid ← allocpid
  setProc p fun c => { c with pid := pid, state := .used }
  let trapframe ← vm Vm.kalloc
  setProc p fun c => { c with trapframe := trapframe }
  if trapframe = 0 then
    freeproc I p
    return none
  else
    let pagetable ← vm (proc_pagetable I trapframe)
    setProc p fun c => { c with pagetable := pagetable }
    if pagetable = 0 then
      freeproc I p
      return none
    else
      return some p

def allocproc : KernM N NF NO (Option (Fin N)) := do
  let s ← get
  match (List.finRange N).find? fun p => (s.proc p).state = .unused with
  | none => return none
  | some p => allocAt I p

/-! ## `growproc` and `fork` -/

/-- `growproc(n)` of the process `p`. -/
def growproc (p : Fin N) (n : ℤ) : KernM N NF NO ℤ := do
  let c := (← get).proc p
  if 0 < n then
    let sz ← vm (Vm.uvmalloc I c.pagetable c.sz (u64 (c.sz + n)) PTE_W)
    if sz = 0 then
      return -1
    else
      setProc p fun c => { c with sz := sz }
      return 0
  else if n < 0 then
    let sz ← vm (Vm.uvmdealloc I c.pagetable c.sz (u64 (c.sz + n)))
    setProc p fun c => { c with sz := sz }
    return 0
  else
    setProc p fun c => { c with sz := c.sz }
    return 0

def filedup (f : Fin NF) : KernM N NF NO Unit := do
  let s ← get
  if (s.file f).ref < 1 then
    throw (.file .filedup)
  else
    modify fun s => { s with file := update s.file f { s.file f with ref := (s.file f).ref + 1 } }

def idup (ip : ℕ) : KernM N NF NO Unit :=
  modify fun s => { s with iref := update s.iref ip (s.iref ip + 1) }

/-- `for(i = 0; i < NOFILE; i++)`, for the descriptors `l`. -/
def forkLoop (p np : Fin N) : List (Fin NO) → KernM N NF NO Unit
  | [] => pure ()
  | i :: l => do
    match ((← get).proc p).ofile i with
    | none => forkLoop p np l
    | some f => do
      filedup f
      setProc np fun c => { c with ofile := update c.ofile i (some f) }
      forkLoop p np l

/-- What `fork` does once it has copied the memory of `p` to `np`. -/
def forkChild (p np : Fin N) : KernM N NF NO ℤ := do
  let c := (← get).proc p
  setProc np fun d => { d with sz := c.sz, mask := c.mask }
  -- `*(np->trapframe) = *(p->trapframe)` and `np->trapframe->a0 = 0`
  let trapframe := ((← get).proc np).trapframe
  vm (Vm.memmove trapframe c.trapframe 288)
  vm (Vm.store64 (trapframe + 112) 0)
  forkLoop p np (List.finRange NO)
  match c.cwd with
  | none => pure ()
  | some ip => idup ip
  setProc np fun d => { d with cwd := c.cwd, name := c.name.take 15 }
  let pid := ((← get).proc np).pid
  setProc np fun d => { d with parent := some p }
  setProc np fun d => { d with state := .runnable }
  return pid.toInt

def fork (p : Fin N) : KernM N NF NO ℤ := do
  match ← allocproc I with
  | none => return -1
  | some np =>
    let s ← get
    if (← vm (Vm.uvmcopy I (s.proc p).pagetable (s.proc np).pagetable (s.proc p).sz)) < 0 then
      freeproc I np
      return -1
    else
      forkChild p np

end Kern

end Xv6
