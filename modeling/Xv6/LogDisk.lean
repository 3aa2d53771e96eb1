import Mathlib.Data.List.Basic
import Xv6.BufCache
import Xv6.LogAdmit

/-!
# The log on disk

`commit`, `recover_from_log` and what they call, one step for each place at which another
process can run or the power can fail. A write of one block is atomic. Any number of
processes read blocks, and change and log blocks between `begin_op` and `end_op` ; the last
`end_op` commits. A crash may come in any state. It leaves the disk, and process `0` then
recovers before anybody else runs.

A panic and a wait are labels that cannot be taken. Operations read and log blocks outside
the log area only (`Superblock.Home`). A buffer they have changed is logged before it is
released.

What has happened is kept in `hist` : the contents of a block at each `log_write`, each
write to disk of a header that is not empty, and each crash. `groups` splits the logged
writes into those of committed groups and those of the current one, and `applyWrites` is
the disk they describe. Two more ghosts, `pins` and `todo`, are the blocks that `log_write`
has pinned and the blocks that recovery has yet to install.
-/

namespace Xv6

open Function

/-- A block as the words a log header is made of. -/
def Block := ℕ → ℕ

instance : Inhabited Block := ⟨fun _ => 0⟩

/-- `lh->block[0..lh->n)` of a block read as a `struct logheader`. -/
def Block.header (d : Block) : List ℕ := (List.range (d 0)).map fun i => d (i + 1)

/-- `write_head`'s stores to the header block. -/
def Block.setHeader (d : Block) (l : List ℕ) : Block
  | 0 => l.length
  | i + 1 => l[i]?.getD (d (i + 1))

@[simp] theorem Block.header_setHeader (d : Block) (l : List ℕ) : (d.setHeader l).header = l := by
  refine List.ext_getElem? fun i => ?_
  by_cases hi : i < l.length
  · simp [header, setHeader, hi]
  · simp [header, setHeader, hi]

/-- What the log needs of `struct superblock`. -/
structure Superblock where
  logstart : ℕ
  nlog : ℕ
  /-- there is room for the header -/
  pos : 0 < nlog

/-- The blocks outside the log area. -/
def Superblock.Home (sb : Superblock) (b : ℕ) : Prop := b < sb.logstart ∨ sb.logstart + sb.nlog ≤ b

instance (sb : Superblock) (b : ℕ) : Decidable (sb.Home b) := inferInstanceAs (Decidable (_ ∨ _))

/-! ## What was logged -/

/-- A `log_write` by operation `op`, with the data of the buffer then. -/
structure LogWrite where
  op : ℕ
  blockno : ℕ
  data : Block

inductive LogEvent
  | write (w : LogWrite)
  /-- a header with `n > 0` reached the disk -/
  | commit
  | crash

/-- The writes of the committed groups, and those of the group that is open. -/
structure Groups where
  done : List LogWrite
  current : List LogWrite

def Groups.next (g : Groups) : LogEvent → Groups
  | .write w => { g with current := g.current ++ [w] }
  | .commit => ⟨g.done ++ g.current, []⟩
  | .crash => { g with current := [] }

def groups (h : List LogEvent) : Groups := h.foldl Groups.next ⟨[], []⟩

def LogEvent.write? : LogEvent → Option LogWrite
  | .write w => some w
  | _ => none

/-- All logged writes, of whatever group. -/
def writes (h : List LogEvent) : List LogWrite := h.filterMap LogEvent.write?

/-- The disk `d` with the writes applied in order. -/
def applyWrites (d : ℕ → Block) (ws : List LogWrite) : ℕ → Block :=
  ws.foldl (fun d w => update d w.blockno w.data) d

/-! ## Points -/

/-- The loops that copy one block after another. -/
inductive CopyPass
  | write_log
  | install_trans (recovering : Bool)
  deriving DecidableEq, Repr

/-- An iteration of such a loop. Both loops read the log block first ; from the copy on
`src` is the buffer copied from and `dst` the one copied to. -/
inductive CopyPt (NB : ℕ)
  | test
  | getLog
  | lockLog (x : Fin NB)
  | loadLog (x : Fin NB)
  | getHome (x : Fin NB)
  | lockHome (x y : Fin NB)
  | loadHome (x y : Fin NB)
  | memmove (x y : Fin NB)
  | bwrite (src dst : Fin NB)
  | bunpin (src dst : Fin NB)
  | unlockSrc (src dst : Fin NB)
  | dropSrc (src dst : Fin NB)
  | unlockDst (dst : Fin NB)
  | dropDst (dst : Fin NB)
  deriving DecidableEq, Repr

/-- `read_head`, `write_head` of a group, and `write_head` after `log.lh.n = 0`. -/
inductive HeadPass
  | read
  | commit
  | clear
  deriving DecidableEq, Repr

inductive HeadPt (NB : ℕ)
  | get
  | lock (x : Fin NB)
  | load (x : Fin NB)
  | body (x : Fin NB)
  | bwrite (x : Fin NB)
  | unlock (x : Fin NB)
  | drop (x : Fin NB)
  deriving DecidableEq, Repr

/-- `commit` and `recover_from_log`. -/
inductive CommitPt (NB : ℕ)
  /-- `if (log.lh.n > 0)` -/
  | test
  | copy (pass : CopyPass) (tail : ℕ) (pt : CopyPt NB)
  | head (pass : HeadPass) (pt : HeadPt NB)
  | done
  deriving DecidableEq, Repr

inductive FsPc (NB : ℕ)
  /-- outside of operations -/
  | user
  /-- between `begin_op` and `end_op`, as operation `o` -/
  | op (o : ℕ)
  /-- in `commit` or `recover_from_log` -/
  | commit (pt : CommitPt NB)
  deriving DecidableEq, Repr

structure LogFs (N NB : ℕ) where
  disk : ℕ → Block
  cache : Cache N NB Block
  log : LogState
  pc : Fin N → FsPc NB
  /-- recovery is over -/
  up : Bool
  /-- the number of operations so far -/
  ops : ℕ
  /-- the pinned blocks -/
  pins : List ℕ
  /-- the blocks that recovery has not installed yet -/
  todo : List ℕ
  hist : List LogEvent

inductive FsLabel (N NB : ℕ)
  | bget (p : Fin N) (b : ℕ)
  | acquiresleep (p : Fin N) (i : Fin NB)
  | load (p : Fin N) (i : Fin NB)
  | modify (p : Fin N) (i : Fin NB) (d : Block)
  | log_write (p : Fin N) (i : Fin NB)
  | releasesleep (p : Fin N) (i : Fin NB)
  | drop (p : Fin N) (i : Fin NB)
  | begin_op (p : Fin N)
  | end_op (p : Fin N)
  /-- a step of `commit` or `recover_from_log` -/
  | commit (p : Fin N)
  | crash

/-- The buffers copied from and to : `write_log` copies to the log block `x`,
`install_trans` to the home block `y`. -/
def CopyPass.src {α : Type} (x y : α) : CopyPass → α
  | .write_log => y
  | .install_trans _ => x

def CopyPass.dst {α : Type} (x y : α) : CopyPass → α
  | .write_log => x
  | .install_trans _ => y

/-- What follows `read_head` and `write_head`. -/
def HeadPass.next {NB : ℕ} : HeadPass → CommitPt NB
  | .read => .copy (.install_trans true) 0 .test
  | .commit => .copy (.install_trans false) 0 .test
  | .clear => .done

/-- A process that is not committing. -/
def FsPc.client {NB : ℕ} : FsPc NB → Bool
  | .commit _ => false
  | _ => true

/-- One in an operation. -/
def FsPc.inOp {NB : ℕ} : FsPc NB → ℕ
  | .op _ => 1
  | _ => 0

@[simp] theorem FsPc.inOp_user {NB : ℕ} : (user : FsPc NB).inOp = 0 := rfl
@[simp] theorem FsPc.inOp_op {NB : ℕ} (o : ℕ) : (op o : FsPc NB).inOp = 1 := rfl
@[simp] theorem FsPc.inOp_commit {NB : ℕ} (pt : CommitPt NB) : (commit pt).inOp = 0 := rfl

namespace LogFs

variable {N NB : ℕ} (sb : Superblock)

/-! ## Steps of `commit` and `recover_from_log` -/

def goto (s : LogFs N NB) (p : Fin N) (pc : FsPc NB) : LogFs N NB :=
  { s with pc := update s.pc p pc }

/-- The cache becomes `c` and the committing process goes on at `pt`. -/
def cached (s : LogFs N NB) (p : Fin N) (pt : CommitPt NB) (c : Cache N NB Block) : LogFs N NB :=
  { s with cache := c, pc := update s.pc p (.commit pt) }

/-- `bwrite` : panics unless the buffer is locked by the caller. -/
def bwrite (s : LogFs N NB) (p : Fin N) (i : Fin NB) : Option (LogFs N NB) :=
  if (s.cache.buf i).holder = some p then
    (s.cache.buf i).blockno.map fun b =>
      { s with
        disk := update s.disk b (s.cache.buf i).data
        cache := s.cache.settle p i
        todo := s.todo.erase b }
  else none

/-- An iteration of `write_log` or `install_trans`. -/
def copyStep (s : LogFs N NB) (p : Fin N) (pass : CopyPass) (tail : ℕ) :
    CopyPt NB → Option (LogFs N NB)
  | .test =>
    if tail < s.log.n then some (s.goto p (.commit (.copy pass tail .getLog)))
    else match pass with
      | .write_log => some (s.goto p (.commit (.head .commit .get)))
      -- `log.lh.n = 0` follows `install_trans` in both its callers
      | .install_trans _ =>
        some ({ s with log := { s.log with block := [], written := [] } }.goto p
          (.commit (.head .clear .get)))
  | .getLog =>
    (s.cache.bget p (sb.logstart + tail + 1)).map fun (c, x) =>
      s.cached p (.copy pass tail (.lockLog x)) c
  | .lockLog x => (s.cache.acquiresleep p x).map (s.cached p (.copy pass tail (.loadLog x)))
  | .loadLog x => (s.cache.load s.disk p x).map (s.cached p (.copy pass tail (.getHome x)))
  | .getHome x =>
    s.log.block[tail]?.bind fun b => (s.cache.bget p b).map fun (c, y) =>
      s.cached p (.copy pass tail (.lockHome x y)) c
  | .lockHome x y => (s.cache.acquiresleep p y).map (s.cached p (.copy pass tail (.loadHome x y)))
  | .loadHome x y => (s.cache.load s.disk p y).map (s.cached p (.copy pass tail (.memmove x y)))
  | .memmove x y =>
    (s.cache.modify p (pass.dst x y) (s.cache.buf (pass.src x y)).data).map
      (s.cached p (.copy pass tail (.bwrite (pass.src x y) (pass.dst x y))))
  | .bwrite src dst =>
    (s.bwrite p dst).map fun s => s.goto p (.commit (.copy pass tail
      (if pass = .install_trans false then .bunpin src dst else .unlockSrc src dst)))
  | .bunpin src dst =>
    (s.cache.buf dst).blockno.map fun b =>
      { s.cached p (.copy pass tail (.unlockSrc src dst)) (s.cache.bunpin dst) with
        pins := s.pins.erase b }
  | .unlockSrc src dst =>
    (s.cache.releasesleep p src).map (s.cached p (.copy pass tail (.dropSrc src dst)))
  | .dropSrc src dst => (s.cache.drop p src).map (s.cached p (.copy pass tail (.unlockDst dst)))
  | .unlockDst dst => (s.cache.releasesleep p dst).map (s.cached p (.copy pass tail (.dropDst dst)))
  | .dropDst dst => (s.cache.drop p dst).map (s.cached p (.copy pass (tail + 1) .test))

/-- `read_head` and `write_head`. -/
def headStep (s : LogFs N NB) (p : Fin N) (pass : HeadPass) : HeadPt NB → Option (LogFs N NB)
  | .get =>
    (s.cache.bget p sb.logstart).map fun (c, x) => s.cached p (.head pass (.lock x)) c
  | .lock x => (s.cache.acquiresleep p x).map (s.cached p (.head pass (.load x)))
  | .load x => (s.cache.load s.disk p x).map (s.cached p (.head pass (.body x)))
  | .body x =>
    match pass with
    | .read => some ({ s with log := { s.log with block := (s.cache.buf x).data.header } }.goto p
        (.commit (.head .read (.unlock x))))
    | pass => (s.cache.modify p x ((s.cache.buf x).data.setHeader s.log.block)).map
        (s.cached p (.head pass (.bwrite x)))
  | .bwrite x =>
    (s.bwrite p x).map fun s' =>
      { s'.goto p (.commit (.head pass (.unlock x))) with
        hist := if 0 < s.log.n then s.hist ++ [.commit] else s.hist }
  | .unlock x => (s.cache.releasesleep p x).map (s.cached p (.head pass (.drop x)))
  | .drop x => (s.cache.drop p x).map (s.cached p pass.next)

def commitStep (s : LogFs N NB) (p : Fin N) : CommitPt NB → Option (LogFs N NB)
  | .test => some (s.goto p (.commit (if 0 < s.log.n then .copy .write_log 0 .test else .done)))
  | .copy pass tail pt => s.copyStep sb p pass tail pt
  | .head pass pt => s.headStep sb p pass pt
  | .done =>
    if s.up then some ({ s with log := { s.log with committing := false } }.goto p .user)
    else some ({ s with up := true }.goto p .user)

/-! ## The system -/

variable [NeZero N]

/-- Power on, with the contents of the disk. -/
def boot (disk : ℕ → Block) (ops : ℕ) (hist : List LogEvent) : LogFs N NB where
  disk := disk
  cache := .binit
  log := ⟨sb.nlog, 0, false, [], []⟩
  pc := fun p => if p = 0 then .commit (.head .read .get) else .user
  up := false
  ops := ops
  pins := []
  todo := (disk sb.logstart).header
  hist := hist

def start (disk : ℕ → Block) : LogFs N NB := boot sb disk 0 []

def step (s : LogFs N NB) : FsLabel N NB → Option (LogFs N NB)
  | .bget p b =>
    if s.up ∧ (s.pc p).client ∧ sb.Home b then
      (s.cache.bget p b).map fun (c, _) => { s with cache := c }
    else none
  | .acquiresleep p i =>
    if s.up ∧ (s.pc p).client then
      (s.cache.acquiresleep p i).map fun c => { s with cache := c }
    else none
  | .load p i =>
    if s.up ∧ (s.pc p).client then
      (s.cache.load s.disk p i).map fun c => { s with cache := c }
    else none
  | .modify p i d =>
    match s.pc p with
    | .op _ => (s.cache.modify p i d).map fun c => { s with cache := c }
    | _ => none
  | .log_write p i =>
    match s.pc p, (s.cache.buf i).blockno with
    | .op o, some b =>
      if sb.Home b ∧ (s.cache.refs p i = some .ready ∨ s.cache.refs p i = some .dirty) then
        match s.log.log_write b ⟨[], 0⟩ with
        | (log, .log_write _ _ _) =>
          let c := s.cache.settle p i
          some { s with
            cache := if b ∈ s.log.block then c else c.bpin i
            log := log
            pins := if b ∈ s.log.block then s.pins else s.pins ++ [b]
            hist := s.hist ++ [.write ⟨o, b, (s.cache.buf i).data⟩] }
        | _ => none
      else none
    | _, _ => none
  | .releasesleep p i =>
    if s.up ∧ (s.pc p).client then
      (s.cache.releasesleep p i).map fun c => { s with cache := c }
    else none
  | .drop p i =>
    if s.up ∧ (s.pc p).client then
      (s.cache.drop p i).map fun c => { s with cache := c }
    else none
  | .begin_op p =>
    if s.up ∧ s.pc p = .user ∧ s.log.admits then
      some ({ s with
        log := { s.log with outstanding := s.log.outstanding + 1 }
        ops := s.ops + 1 }.goto p (.op s.ops))
    else none
  | .end_op p =>
    match s.pc p with
    | .op _ =>
      match s.log.end_op with
      | (log, .end_op .unlock) => some ({ s with log := log }.goto p (.commit .test))
      | (log, .end_op .wakeup) => some ({ s with log := log }.goto p .user)
      | _ => none
    | _ => none
  | .commit p =>
    match s.pc p with
    | .commit pt => s.commitStep sb p pt
    | _ => none
  | .crash => some (boot sb s.disk s.ops (s.hist ++ [.crash]))

end LogFs

/-- The steps of the system. -/
inductive FsMove {N NB : ℕ} [NeZero N] (sb : Superblock) (s : LogFs N NB) : LogFs N NB → Prop
  | cache {q i c'} (hq : (s.pc q).client = true) (hm : CacheMove s.disk s.cache q i c') :
      FsMove sb s { s with cache := c' }
  | modify {q o i d c'} (hq : s.pc q = .op o) (hm : s.cache.modify q i d = some c') :
      FsMove sb s { s with cache := c' }
  | log_write {q o i b} (hq : s.pc q = .op o) (hb : (s.cache.buf i).blockno = some b)
      (hhome : sb.Home b)
      (hr : s.cache.refs q i = some .ready ∨ s.cache.refs q i = some .dirty)
      (hfit : s.log.n < s.log.size - 1) :
      FsMove sb s { s with
        cache := if b ∈ s.log.block then s.cache.settle q i else (s.cache.settle q i).bpin i
        log := s.log.record b
        pins := if b ∈ s.log.block then s.pins else s.pins ++ [b]
        hist := s.hist ++ [.write ⟨o, b, (s.cache.buf i).data⟩] }
  | begin_op {q} (hup : s.up = true) (hq : s.pc q = .user) (ha : s.log.committing = false) :
      FsMove sb s ({ s with
        log := { s.log with outstanding := s.log.outstanding + 1 }
        ops := s.ops + 1 }.goto q (.op s.ops))
  | end_op {q o} (hq : s.pc q = .op o) :
      FsMove sb s ({ s with
        log := { s.log with outstanding := s.log.outstanding - 1 } }.goto q .user)
  | last {q o} (hq : s.pc q = .op o) (hone : s.log.outstanding - 1 = 0) :
      FsMove sb s ({ s with
        log := { s.log with outstanding := s.log.outstanding - 1, committing := true } }.goto q
          (.commit .test))
  | commit {q pt s'} (hq : s.pc q = .commit pt) (hs : s.commitStep sb q pt = some s') :
      FsMove sb s s'
  | crash : FsMove sb s (LogFs.boot sb s.disk s.ops (s.hist ++ [.crash]))

theorem LogState.log_write_fit {l l' : LogState} {w w' : OpLog} {pt : LogWritePt} {b b' : ℕ}
    (h : l.log_write b w = (l', .log_write pt b' w')) : l.n < l.size - 1 ∧ l' = l.record b := by
  unfold LogState.log_write at h
  split at h
  · cases h
  · split at h <;> cases h
    exact ⟨by omega, rfl⟩

theorem LogState.end_op_unlock {l l' : LogState} (h : l.end_op = (l', .end_op .unlock)) :
    l.outstanding - 1 = 0 ∧
      l' = { l with outstanding := l.outstanding - 1, committing := true } := by
  simp only [LogState.end_op] at h
  split at h
  · cases h
  · split at h <;> cases h
    exact ⟨‹_›, rfl⟩

theorem LogState.end_op_wakeup {l l' : LogState} (h : l.end_op = (l', .end_op .wakeup)) :
    l' = { l with outstanding := l.outstanding - 1 } := by
  simp only [LogState.end_op] at h
  split at h
  · cases h
  · split at h <;> cases h
    rfl

theorem fsMove_of_step {N NB : ℕ} [NeZero N] {sb : Superblock} {s s' : LogFs N NB}
    {a : FsLabel N NB} (h : s.step sb a = some s') : FsMove sb s s' := by
  cases a with
  | bget p b =>
    obtain ⟨hg, h⟩ := Option.ite_none_right_eq_some.mp h
    obtain ⟨c', i, rfl, hm, -⟩ := move_of_bget s.disk h
    exact .cache hg.2.1 hm
  | acquiresleep p i =>
    obtain ⟨hg, h⟩ := Option.ite_none_right_eq_some.mp h
    obtain ⟨c', rfl, hm, -⟩ := move_of_acquiresleep s.disk h
    exact .cache hg.2 hm
  | load p i =>
    obtain ⟨hg, h⟩ := Option.ite_none_right_eq_some.mp h
    obtain ⟨c', rfl, hm, -⟩ := move_of_load h
    exact .cache hg.2 hm
  | modify p i d =>
    simp only [LogFs.step] at h
    split at h
    · rename_i hq
      obtain ⟨c', hget, rfl⟩ := Option.map_eq_some_iff.mp h
      exact .modify hq hget
    · cases h
  | log_write p i =>
    simp only [LogFs.step] at h
    split at h
    · rename_i o b hq hb
      split at h
      · rename_i hg
        split at h
        · rename_i log _ _ _ hl
          obtain ⟨hfit, rfl⟩ := LogState.log_write_fit hl
          cases h
          exact .log_write hq hb hg.1 hg.2 hfit
        · cases h
      · cases h
    · cases h
  | releasesleep p i =>
    obtain ⟨hg, h⟩ := Option.ite_none_right_eq_some.mp h
    obtain ⟨c', rfl, hm, -⟩ := move_of_releasesleep s.disk h
    exact .cache hg.2 hm
  | drop p i =>
    obtain ⟨hg, h⟩ := Option.ite_none_right_eq_some.mp h
    obtain ⟨c', rfl, hm⟩ := move_of_drop s.disk h
    exact .cache hg.2 hm
  | begin_op p =>
    obtain ⟨hg, h⟩ := Option.ite_none_right_eq_some.mp h
    cases h
    have ha : s.log.committing = false := by
      have hadm := hg.2.2
      simp only [LogState.admits, Bool.and_eq_true, Bool.not_eq_true'] at hadm
      exact hadm.1
    exact .begin_op hg.1 hg.2.1 ha
  | end_op p =>
    simp only [LogFs.step] at h
    split at h
    · rename_i hq
      split at h
      · rename_i hl
        obtain ⟨hone, rfl⟩ := LogState.end_op_unlock hl
        cases h
        exact .last hq hone
      · rename_i hl
        obtain rfl := LogState.end_op_wakeup hl
        cases h
        exact .end_op hq
      · cases h
    · cases h
  | commit p =>
    simp only [LogFs.step] at h
    split at h
    · exact .commit ‹_› h
    · cases h
  | crash =>
    cases h
    exact .crash

end Xv6
