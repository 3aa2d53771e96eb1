import Xv6.FileBlocks

/-!
# The life of an inode

The inode table, with processes that interleave wherever `itable.lock` or the lock of an inode
is released : `ilock` takes the lock in one step and reads the inode in another, and an `iput`
that frees the inode drops `itable.lock` in between (`ItPc`). `ialloc` marks an inode that is
free on disk, whichever it finds, and gets it in a second step. The steps are those of `Inode`,
cut at these places.

What a process may do between its calls is left open. It hands references to other processes, as
`fork` and the table of open files do, and changes the fields of an inode it has locked, together
with blocks. `Careful` says what callers keep to. An entry that nobody refers to keeps its copy
of an inode, and `Spares` says that a step does not change that inode on disk.

The state also records how many references each process has, and for each inode number how often
it was allocated (`epoch`) and how often since then an `iput` has discarded its contents
(`truncs`) and cleared its type (`clears`).
-/

namespace Xv6

open Function Prog

/-! ## The machine -/

/-- What `iput` saw under `itable.lock` when it decided to free the inode. -/
structure Check where
  inum : ℕ
  ref : ℕ
  /-- the references of the process itself -/
  mine : ℕ
  nlink : ℤ
  epoch : ℕ
deriving DecidableEq

/-- Where a process is. -/
inductive ItPc
  | idle
  /-- in `ilock`, with the lock -/
  | load (ip : Fin NINODE)
  /-- in `ialloc`, before `iget` -/
  | fetch (inum : ℕ)
  /-- in `iput`, before `itrunc` -/
  | trunc (ip : Fin NINODE) (c : Check)
  /-- before `ip->type = 0` -/
  | clear (ip : Fin NINODE) (c : Check)
  /-- before `ip->valid = 0` -/
  | unvalid (ip : Fin NINODE)
  /-- before `releasesleep` -/
  | release (ip : Fin NINODE)
  /-- before `ip->ref--` -/
  | drop (ip : Fin NINODE)
deriving DecidableEq

structure ItState (N : ℕ) where
  fs : Fs
  /-- the references of each process -/
  refs : Fin N → Fin NINODE → ℕ
  pc : Fin N → ItPc
  /-- `lk->pid` of a lock that is held -/
  owner : Fin NINODE → Option (Fin N)
  /-- fields were changed and not yet written by `iupdate` -/
  changed : Fin NINODE → Bool
  epoch : ℕ → ℕ
  truncs : ℕ → ℕ
  clears : ℕ → ℕ

inductive ItAct (N : ℕ)
  | iget (inum : ℕ)
  | idup (ip : Fin NINODE)
  /-- a reference goes to another process -/
  | give (q : Fin N) (ip : Fin NINODE)
  | ilock (ip : Fin NINODE)
  | iunlock (ip : Fin NINODE)
  /-- the fields change, and blocks -/
  | edit (ip : Fin NINODE) (d : Dinode) (bitmap : ℕ → Bool) (data : ℕ → Bytes)
  | iupdate (ip : Fin NINODE)
  | iput (ip : Fin NINODE)
  /-- `ialloc` finds inode `inum` free -/
  | ialloc (inum : ℕ) (type : FileType)
  /-- the next step of the call -/
  | go

namespace ItState

variable {N : ℕ}

/-- A function of `Fs`, and what it means for the processes. -/
def act (s : ItState N) {α : Type} (m : FsM α) (k : α → ItState N → ItState N) :
    Option (ItState N) :=
  match m s.fs with
  | .ok (a, fs) => some (k a { s with fs := fs })
  | .error _ => none

def goto (s : ItState N) (p : Fin N) (pc : ItPc) : ItState N :=
  { s with pc := update s.pc p pc }

def setRefs (s : ItState N) (p : Fin N) (ip : Fin NINODE) (r : ℕ) : ItState N :=
  { s with refs := update s.refs p (update (s.refs p) ip r) }

/-- One more reference. -/
def take (s : ItState N) (p : Fin N) (ip : Fin NINODE) : ItState N :=
  s.setRefs p ip (s.refs p ip + 1)

/-- One reference less. -/
def leave (s : ItState N) (p : Fin N) (ip : Fin NINODE) : ItState N :=
  s.setRefs p ip (s.refs p ip - 1)

def setOwner (s : ItState N) (ip : Fin NINODE) (o : Option (Fin N)) : ItState N :=
  { s with owner := update s.owner ip o }

def setChanged (s : ItState N) (ip : Fin NINODE) (b : Bool) : ItState N :=
  { s with changed := update s.changed ip b }

def check (s : ItState N) (p : Fin N) (ip : Fin NINODE) : Check where
  inum := (s.fs.itable ip).inum
  ref := (s.fs.itable ip).ref
  mine := s.refs p ip
  nlink := (s.fs.itable ip).d.nlink
  epoch := s.epoch (s.fs.itable ip).inum

/-- The inode is allocated. -/
def allocated (s : ItState N) (i : ℕ) (type : FileType) : ItState N := { s with
  fs := { s.fs with dinode := update s.fs.dinode i (.fresh type) }
  epoch := update s.epoch i (s.epoch i + 1)
  truncs := update s.truncs i 0
  clears := update s.clears i 0 }

def countTrunc (s : ItState N) (i : ℕ) : ItState N :=
  { s with truncs := update s.truncs i (s.truncs i + 1) }

def countClear (s : ItState N) (i : ℕ) : ItState N :=
  { s with clears := update s.clears i (s.clears i + 1) }

variable (L : FsLayout)

/-- A step of an idle process. -/
def call (s : ItState N) (p : Fin N) : ItAct N → Option (ItState N)
  | .iget inum => s.act (Fs.iget inum) fun ip s => s.take p ip
  | .idup ip => s.act (Fs.idup ip) fun _ s => s.take p ip
  | .give q ip => some ((s.leave p ip).take q ip)
  | .ilock ip => s.act (Fs.lock ip) fun _ s => (s.setOwner ip (some p)).goto p (.load ip)
  | .iunlock ip =>
    -- `holdingsleep`
    if s.owner ip = some p then s.act (Fs.iunlock ip) fun _ s => s.setOwner ip none else none
  | .edit ip d bitmap data =>
    some (setChanged { s with
      fs := { s.fs.setD ip fun _ => d with
        bitmap := bitmap
        data := data } } ip true)
  | .iupdate ip => s.act (Fs.iupdate L ip) fun _ s => s.setChanged ip false
  | .iput ip => s.act (Fs.iputTest ip) fun free t =>
    if free then (t.setOwner ip (some p)).goto p (.trunc ip (s.check p ip)) else t.leave p ip
  | .ialloc i type =>
    if 1 ≤ i ∧ i < L.ninodes ∧ (s.fs.dinode i).type = .none then
      some ((s.allocated i type).goto p (.fetch i))
    else none
  | .go => none

/-- The next step of a process in a call. -/
def next (s : ItState N) (p : Fin N) : ItPc → Option (ItState N)
  | .idle => none
  | .load ip => s.act (Fs.load L ip) fun _ s => s.goto p .idle
  | .fetch i => s.act (Fs.iget i) fun ip s => (s.take p ip).goto p .idle
  | .trunc ip c => s.act (Fs.itrunc L ip) fun _ t =>
    (t.countTrunc (s.fs.itable ip).inum).goto p (.clear ip c)
  | .clear ip _ => s.act (Fs.clearType L ip) fun _ t =>
    (t.countClear (s.fs.itable ip).inum).goto p (.unvalid ip)
  | .unvalid ip => s.act (Fs.unvalid ip) fun _ s => s.goto p (.release ip)
  | .release ip => s.act (Fs.releasesleep ip) fun _ s => (s.setOwner ip none).goto p (.drop ip)
  | .drop ip => s.act (Fs.iputDrop ip) fun _ s => (s.leave p ip).goto p .idle

def step (s : ItState N) : Fin N × ItAct N → Option (ItState N)
  | (p, .go) => s.next L p (s.pc p)
  | (p, a) =>
    match s.pc p with
    | .idle => s.call L p a
    | _ => none

/-- What a process keeps to, besides making one call at a time : it uses inodes it has a
reference to, keeps one as long as it has the inode locked, and changes an inode only with the
lock, with an `iupdate` before it unlocks. Only `iput` writes a type of 0. -/
def Careful (s : ItState N) : Fin N × ItAct N → Prop
  | (p, .idup ip) => 0 < s.refs p ip
  | (p, .ilock ip) => 0 < s.refs p ip
  | (p, .give _ ip) => 0 < s.refs p ip ∧ (s.owner ip = some p → 1 < s.refs p ip)
  | (p, .iput ip) => 0 < s.refs p ip ∧ (s.owner ip = some p → 1 < s.refs p ip)
  | (_, .iunlock ip) => s.changed ip = false
  | (p, .edit ip ..) => s.owner ip = some p
  | (p, .iupdate ip) => s.owner ip = some p ∧ (s.fs.itable ip).d.type ≠ .none
  | (_, .ialloc _ type) => type ≠ .none
  | (_, .iget _) | (_, .go) => True

instance (s : ItState N) (l : Fin N × ItAct N) : Decidable (s.Careful l) :=
  match l with
  | (p, .idup ip) => inferInstanceAs (Decidable (0 < s.refs p ip))
  | (p, .ilock ip) => inferInstanceAs (Decidable (0 < s.refs p ip))
  | (p, .give _ ip) => inferInstanceAs (Decidable (0 < s.refs p ip ∧
      (s.owner ip = some p → 1 < s.refs p ip)))
  | (p, .iput ip) => inferInstanceAs (Decidable (0 < s.refs p ip ∧
      (s.owner ip = some p → 1 < s.refs p ip)))
  | (_, .iunlock ip) => inferInstanceAs (Decidable (s.changed ip = false))
  | (p, .edit ip ..) => inferInstanceAs (Decidable (s.owner ip = some p))
  | (p, .iupdate ip) => inferInstanceAs (Decidable (s.owner ip = some p ∧
      (s.fs.itable ip).d.type ≠ .none))
  | (_, .ialloc _ type) => inferInstanceAs (Decidable (type ≠ .none))
  | (_, .iget _) | (_, .go) => inferInstanceAs (Decidable True)

/-- An entry that nobody refers to has a copy of an inode. -/
def Old (s : ItState N) (ip : Fin NINODE) : Prop :=
  (s.fs.itable ip).ref = 0 ∧ (s.fs.itable ip).valid = true

instance (s : ItState N) (ip : Fin NINODE) : Decidable (s.Old ip) :=
  inferInstanceAs (Decidable (_ ∧ _))

/-- The step does not change an inode on disk that an entry without references has a copy of. -/
def Spares (s : ItState N) (l : Fin N × ItAct N) : Prop :=
  ∀ s', s.step L l = some s' → ∀ ip, s.Old ip →
    s'.fs.dinode (s.fs.itable ip).inum = s.fs.dinode (s.fs.itable ip).inum

/-- After boot no inode is in memory. The disk has anything on it. -/
def boot (dinode : ℕ → Dinode) (bitmap : ℕ → Bool) (data : ℕ → Bytes) : ItState N where
  fs := ⟨bitmap, dinode, data, fun _ => ⟨0, 0, false, false, .fresh .none⟩, []⟩
  refs _ _ := 0
  pc _ := .idle
  owner _ := none
  changed _ := false
  epoch _ := 0
  truncs _ := 0
  clears _ := 0

end ItState

end Xv6
