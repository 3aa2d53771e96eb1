import Xv6.Monitor
import Xv6.Ring

/-!
# Pipes

The model of `pipe.c` at the grain of `pi->lock` : every process runs `pipewrite`,
`piperead` and `pipeclose` as a program over one `struct pipe`, any number of times and with
any arguments, and a `kill` may land between any two steps. The calls are written as
programs for `Monitor` : a point of `pipewrite` or `piperead` carries the loop counter `i`,
and what `copyin` and `copyout` do to the user's page is an input of the step.

Two ghosts are kept. `accepted` and `delivered` are the bytes that `pipewrite` put into the
pipe and that `piperead` handed to its callers. A point of `pipewrite` also carries `i₀`, the
value of `i` when the lock was last taken : the bytes from `i₀` to `i` were moved since the
readers were last woken.
-/

namespace Xv6

open Function Monitor

def PIPESIZE : ℕ := 512

/-- The channels `&pi->nread` and `&pi->nwrite`. -/
inductive PipeChan where
  | nread
  | nwrite
  deriving DecidableEq, Repr

/-- `struct pipe`, with the bytes that went through it. -/
structure Pipe where
  data : ℕ → UInt8
  nread : BitVec 32
  nwrite : BitVec 32
  readopen : Bool
  writeopen : Bool
  accepted : List UInt8
  delivered : List UInt8

namespace Pipe

/-- The fields `pipealloc` sets, on a page with the contents `data`. -/
def alloc (data : ℕ → UInt8) : Pipe where
  data := data
  nread := 0
  nwrite := 0
  readopen := true
  writeopen := true
  accepted := []
  delivered := []

/-- `pi->nread == pi->nwrite` -/
def Empty (pi : Pipe) : Prop :=
  pi.nread = pi.nwrite

/-- `pi->nwrite == pi->nread + PIPESIZE` -/
def Full (pi : Pipe) : Prop :=
  pi.nwrite = pi.nread + BitVec.ofNat 32 PIPESIZE

instance (pi : Pipe) : Decidable pi.Empty := inferInstanceAs (Decidable (_ = _))

instance (pi : Pipe) : Decidable pi.Full := inferInstanceAs (Decidable (_ = _))

/-- `pi->data[pi->nwrite++ % PIPESIZE] = ch` -/
def put (pi : Pipe) (ch : UInt8) : Pipe :=
  { pi with
    data := update pi.data (Ring.slot PIPESIZE pi.nwrite) ch
    nwrite := pi.nwrite + 1#32
    accepted := pi.accepted ++ [ch] }

/-- `ch = pi->data[pi->nread++ % PIPESIZE]`, then the `copyout` of `ch`. -/
def get (pi : Pipe) (copied : Bool) : Pipe :=
  { pi with
    nread := pi.nread + 1#32
    delivered :=
      if copied then pi.delivered ++ [pi.data (Ring.slot PIPESIZE pi.nread)] else pi.delivered }

/-- The assignment to `writeopen` or `readopen` in `pipeclose`. -/
def shut (pi : Pipe) (writable : Bool) : Pipe :=
  if writable then { pi with writeopen := false } else { pi with readopen := false }

end Pipe

/-! ## The calls -/

inductive WritePt where
  | acquire | loop | readopen | killed | full | wake | sleep | copy | done | release | fail
  deriving DecidableEq, Repr

inductive ReadPt where
  | acquire | empty | killed | sleep | copy | done | release | fail
  deriving DecidableEq, Repr

inductive ClosePt where
  | acquire | shut | wake | test | release | free
  deriving DecidableEq, Repr

/-- Where a process is. -/
inductive PipePc where
  | user
  | write (p : WritePt) (n : ℤ) (i i₀ : ℕ)
  | read (p : ReadPt) (n : ℤ) (i : ℕ)
  | close (p : ClosePt) (writable : Bool)
  | ret (v : ℤ)
  deriving DecidableEq, Repr

inductive PipeCall where
  | pipewrite (n : ℤ)
  | piperead (n : ℤ)
  | pipeclose (writable : Bool)

/-- What a step takes from outside : the call a user process makes, the byte `copyin`
found or its failure, and whether `copyout` succeeded. -/
structure PipeInput where
  call : PipeCall
  copyin : Option UInt8
  copyout : Bool

abbrev PipeInstr :=
  Instr PipeChan Pipe PipePc PipeInput

/-- `pipewrite(pi, addr, n)` -/
def pipewrite (n : ℤ) (i i₀ : ℕ) : WritePt → PipeInstr
  | .acquire => .acquire (.write .loop n 0 0)
  | .loop => .branch fun _ => .write (if (i : ℤ) < n then .readopen else .done) n i i₀
  | .readopen => .branch fun pi => .write (if pi.readopen then .killed else .fail) n i i₀
  | .killed => .killed fun k => .write (if k then .fail else .full) n i i₀
  | .full => .branch fun pi => .write (if pi.Full then .wake else .copy) n i i₀
  | .wake => .wakeup .nread (.write .sleep n i i)
  | .sleep => .sleep .nwrite (.write .loop n i i)
  | .copy => .act fun inp pi =>
      match inp.copyin with
      | none => some (pi, .write .done n i i₀)
      | some ch => some (pi.put ch, .write .loop n (i + 1) i₀)
  | .done => .wakeup .nread (.write .release n i i)
  | .release => .release (.ret i)
  | .fail => .release (.ret (-1))

/-- `piperead(pi, addr, n)` -/
def piperead (n : ℤ) (i : ℕ) : ReadPt → PipeInstr
  | .acquire => .acquire (.read .empty n 0)
  | .empty => .branch fun pi => .read (if pi.Empty ∧ pi.writeopen then .killed else .copy) n i
  | .killed => .killed fun k => .read (if k then .fail else .sleep) n i
  | .sleep => .sleep .nread (.read .empty n i)
  | .copy => .act fun inp pi =>
      if (i : ℤ) < n ∧ ¬ pi.Empty then
        some (pi.get inp.copyout, if inp.copyout then .read .copy n (i + 1) else .read .done n i)
      else some (pi, .read .done n i)
  | .done => .wakeup .nwrite (.read .release n i)
  | .release => .release (.ret i)
  | .fail => .release (.ret (-1))

/-- `pipeclose(pi, writable)`; `kfree(pi)` follows the release at `free`. -/
def pipeclose (writable : Bool) : ClosePt → PipeInstr
  | .acquire => .acquire (.close .shut writable)
  | .shut => .act fun _ pi => some (pi.shut writable, .close .wake writable)
  | .wake => .wakeup (if writable then .nread else .nwrite) (.close .test writable)
  | .test => .branch fun pi =>
      .close (if ¬ pi.readopen ∧ ¬ pi.writeopen then .free else .release) writable
  | .release => .release (.ret 0)
  | .free => .release (.ret 0)

/-- The program of a process that uses the pipe. -/
def pipeCode : PipePc → PipeInstr
  | .user => .act fun inp pi => some (pi,
      match inp.call with
      | .pipewrite n => .write .acquire n 0 0
      | .piperead n => .read .acquire n 0
      | .pipeclose w => .close .acquire w)
  | .write p n i i₀ => pipewrite n i i₀ p
  | .read p n i => piperead n i p
  | .close p w => pipeclose w p
  | .ret _ => .branch fun _ => .user

/-- Processes that share a pipe `pipealloc` just made. -/
def pipeStart (N : ℕ) (data : ℕ → UInt8) : Monitor.State N PipeChan Pipe PipePc :=
  .start N PipeChan (.alloc data) .user

/-- The points between `acquire(&pi->lock)` and its release. -/
def PipePc.Locked : PipePc → Prop
  | .write p _ _ _ => p ≠ .acquire
  | .read p _ _ => p ≠ .acquire
  | .close p _ => p ≠ .acquire
  | _ => False

/-! ## The instructions other than actions -/

variable {p k : PipePc} {c : PipeChan}

theorem pipeCode_acquire (h : pipeCode p = .acquire k) : ¬ p.Locked ∧
    ((∃ n, k = .write .loop n 0 0) ∨ (∃ n, k = .read .empty n 0) ∨ ∃ w, k = .close .shut w) := by
  rcases p with _ | ⟨p, n, i, i₀⟩ | ⟨p, n, i⟩ | ⟨p, w⟩ | v
  case write =>
    cases p <;> cases h
    exact ⟨fun hp => hp rfl, .inl ⟨n, rfl⟩⟩
  case read =>
    cases p <;> cases h
    exact ⟨fun hp => hp rfl, .inr (.inl ⟨n, rfl⟩)⟩
  case close =>
    cases p <;> cases h
    exact ⟨fun hp => hp rfl, .inr (.inr ⟨w, rfl⟩)⟩
  all_goals cases h

theorem pipeCode_release (h : pipeCode p = .release k) : p.Locked ∧ ∃ v, k = .ret v := by
  rcases p with _ | ⟨p, n, i, i₀⟩ | ⟨p, n, i⟩ | ⟨p, w⟩ | v
  case write => cases p <;> cases h <;> exact ⟨by simp [PipePc.Locked], _, rfl⟩
  case read => cases p <;> cases h <;> exact ⟨by simp [PipePc.Locked], _, rfl⟩
  case close => cases p <;> cases h <;> exact ⟨by simp [PipePc.Locked], _, rfl⟩
  all_goals cases h

theorem pipeCode_sleep (h : pipeCode p = .sleep c k) :
    (∃ n i i₀, p = .write .sleep n i i₀ ∧ c = .nwrite ∧ k = .write .loop n i i) ∨
      ∃ n i, p = .read .sleep n i ∧ c = .nread ∧ k = .read .empty n i := by
  rcases p with _ | ⟨p, n, i, i₀⟩ | ⟨p, n, i⟩ | ⟨p, w⟩ | v
  case write =>
    cases p <;> cases h
    exact .inl ⟨n, i, i₀, rfl, rfl, rfl⟩
  case read =>
    cases p <;> cases h
    exact .inr ⟨n, i, rfl, rfl, rfl⟩
  case close => cases p <;> cases h
  all_goals cases h

theorem pipeCode_wakeup (h : pipeCode p = .wakeup c k) :
    (∃ n i i₀, p = .write .wake n i i₀ ∧ c = .nread ∧ k = .write .sleep n i i) ∨
    (∃ n i i₀, p = .write .done n i i₀ ∧ c = .nread ∧ k = .write .release n i i) ∨
    (∃ n i, p = .read .done n i ∧ c = .nwrite ∧ k = .read .release n i) ∨
      ∃ w, p = .close .wake w ∧ c = (if w then .nread else .nwrite) ∧ k = .close .test w := by
  rcases p with _ | ⟨p, n, i, i₀⟩ | ⟨p, n, i⟩ | ⟨p, w⟩ | v
  case write =>
    cases p <;> cases h
    · exact .inl ⟨n, i, i₀, rfl, rfl, rfl⟩
    · exact .inr (.inl ⟨n, i, i₀, rfl, rfl, rfl⟩)
  case read =>
    cases p <;> cases h
    exact .inr (.inr (.inl ⟨n, i, rfl, rfl, rfl⟩))
  case close =>
    cases p <;> cases h
    exact .inr (.inr (.inr ⟨w, rfl, rfl, rfl⟩))
  all_goals cases h

theorem pipeCode_killed {k : Bool → PipePc} (h : pipeCode p = .killed k) :
    (∃ n i i₀, p = .write .killed n i i₀ ∧
      k = fun b => .write (if b then .fail else .full) n i i₀) ∨
      ∃ n i, p = .read .killed n i ∧ k = fun b => .read (if b then .fail else .sleep) n i := by
  rcases p with _ | ⟨p, n, i, i₀⟩ | ⟨p, n, i⟩ | ⟨p, w⟩ | v
  case write =>
    cases p <;> cases h
    exact .inl ⟨n, i, i₀, rfl, rfl⟩
  case read =>
    cases p <;> cases h
    exact .inr ⟨n, i, rfl, rfl⟩
  case close => cases p <;> cases h
  all_goals cases h

/-- Outside the lock a process only chooses its next call. -/
theorem pipeCode_actFree {f : PipeInput → Pipe → Option (Pipe × PipePc)} {inp : PipeInput}
    {pi pi' : Pipe} (hc : pipeCode p = .act f) (hp : ¬ p.Locked)
    (hf : f inp pi = some (pi', k)) : ¬ k.Locked ∧ pi' = pi := by
  rcases p with _ | ⟨p, n, i, i₀⟩ | ⟨p, n, i⟩ | ⟨p, w⟩ | v
  case user =>
    cases hc
    cases hf
    refine ⟨?_, rfl⟩
    rcases inp.call with n | n | w <;> simp [PipePc.Locked]
  case write => cases p <;> first | cases hc; done | simp [PipePc.Locked] at hp
  case read => cases p <;> first | cases hc; done | simp [PipePc.Locked] at hp
  case close => cases p <;> first | cases hc; done | simp [PipePc.Locked] at hp
  case ret =>
    cases hc
    cases hf
    exact ⟨id, rfl⟩

end Xv6
