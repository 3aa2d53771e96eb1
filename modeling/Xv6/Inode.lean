import Xv6.Prog
import Xv6.LogDisk

/-!
# Blocks and inodes

The lower half of `fs.c` : the allocation of blocks and inodes, the table of inodes in
memory, and the reads and writes of an inode's contents. The functions are programs over
`Fs`, the file system as the buffer cache shows it, and each is what a process does under one
lock, so that processes interleave between them and not inside. A bitmap bit and an on-disk
inode are values of their own here ; the contents of a data block are bytes, as an indirect
block holds block numbers and a directory holds entries.

A panic is an error, and so are two things the code cannot go on from : waiting for a lock
that the same process holds, and reading an inode whose number is not below `ninodes`, which
would take other blocks for inodes. `logged` collects the arguments of `log_write`.
-/

namespace Xv6

open Function

/-! ## Constants -/

def BSIZE : ℕ := 1024
def NDIRECT : ℕ := 12
/-- `BSIZE / sizeof(uint)` -/
def NINDIRECT : ℕ := 256
def MAXFILE : ℕ := NDIRECT + NINDIRECT
/-- inodes per block -/
def IPB : ℕ := 16
/-- bitmap bits per block -/
def BPB : ℕ := BSIZE * 8
def NINODE : ℕ := 50
/-- `sizeof(struct dirent)` -/
def DIRENT : ℕ := 16
def DIRSIZ : ℕ := 14

/-- The inode table has a first entry. -/
theorem NINODE_pos : 0 < NINODE := by decide

/-- The rest of `struct superblock`. -/
structure FsLayout extends Superblock where
  size : ℕ
  ninodes : ℕ
  inodestart : ℕ
  bmapstart : ℕ
  /-- a block number is an `uint` -/
  size_lt : size < 2 ^ 32

namespace FsLayout

variable (L : FsLayout)

/-- The data blocks follow the bitmap. -/
def datastart : ℕ := L.bmapstart + (L.size / BPB + 1)

/-- The block of inode `i`. -/
def IBLOCK (i : ℕ) : ℕ := i / IPB + L.inodestart

/-- The bitmap block of block `b`. -/
def BBLOCK (b : ℕ) : ℕ := b / BPB + L.bmapstart

end FsLayout

/-! ## State -/

inductive FileType
  /-- a free inode -/
  | none
  | dir
  | file
  | device
  deriving DecidableEq, Repr

/-- `struct dinode` -/
structure Dinode where
  type : FileType
  major : ℤ
  minor : ℤ
  nlink : ℤ
  size : ℕ
  /-- `addrs[0..NDIRECT]` -/
  addrs : ℕ → ℕ

/-- An inode with everything zero but the type. -/
def Dinode.fresh (type : FileType) : Dinode := ⟨type, 0, 0, 0, 0, fun _ => 0⟩

/-- `struct inode` : the copy `d` of the on-disk inode is there if `valid`. -/
structure Inode where
  inum : ℕ
  ref : ℕ
  valid : Bool
  locked : Bool
  d : Dinode

/-- The bytes of a block. -/
abbrev Bytes := ℕ → UInt8

structure Fs where
  bitmap : ℕ → Bool
  dinode : ℕ → Dinode
  data : ℕ → Bytes
  itable : Fin NINODE → Inode
  /-- the blocks passed to `log_write`, the last one first -/
  logged : List ℕ

inductive FsPanic
  /-- "freeing free block" -/
  | freeingFreeBlock
  /-- "iget: no inodes" -/
  | noInodes
  /-- "ilock" -/
  | ilock
  /-- "ilock: no type" -/
  | noType
  /-- "iunlock" -/
  | iunlock
  /-- "bmap: out of range" -/
  | outOfRange
  /-- "dirlookup not DIR" -/
  | notDir
  /-- "dirlookup read", "dirlink read", "isdirempty: readi" -/
  | dirRead
  /-- "unlink: nlink < 1" -/
  | nlink
  /-- "unlink: writei" -/
  | writei
  /-- waiting for a lock that is held -/
  | hang
  /-- "sched locks" -/
  | schedLocks
  /-- an inode number that is not below `ninodes` -/
  | outside
  deriving DecidableEq, Repr

abbrev FsM := Prog Fs FsPanic

/-! ## Words and entries in a block -/

/-- `((uint*)data)[j]` -/
def Bytes.word (d : Bytes) (j : ℕ) : ℕ :=
  (d (4 * j)).toNat + 2 ^ 8 * (d (4 * j + 1)).toNat + 2 ^ 16 * (d (4 * j + 2)).toNat +
    2 ^ 24 * (d (4 * j + 3)).toNat

/-- `((uint*)data)[j] = v` -/
def Bytes.setWord (d : Bytes) (j v : ℕ) : Bytes := fun k =>
  if k / 4 = j then UInt8.ofNat (v / 2 ^ (8 * (k % 4))) else d k

/-- `memmove(data + off, src, m)` -/
def Bytes.splice (d : Bytes) (off m : ℕ) (src : Bytes) : Bytes := fun k =>
  if off ≤ k ∧ k < off + m then src (k - off) else d k

theorem Bytes.word_setWord_self {d : Bytes} {j v : ℕ} (hv : v < 2 ^ 32) :
    (d.setWord j v).word j = v := by
  have h0 : 4 * j / 4 = j := by omega
  have h1 : (4 * j + 1) / 4 = j := by omega
  have h2 : (4 * j + 2) / 4 = j := by omega
  have h3 : (4 * j + 3) / 4 = j := by omega
  have m0 : 4 * j % 4 = 0 := by omega
  have m1 : (4 * j + 1) % 4 = 1 := by omega
  have m2 : (4 * j + 2) % 4 = 2 := by omega
  have m3 : (4 * j + 3) % 4 = 3 := by omega
  simp only [word, setWord, h0, h1, h2, h3, m0, m1, m2, m3, if_true, UInt8.toNat_ofNat']
  omega

theorem Bytes.word_setWord_of_ne {d : Bytes} {j k v : ℕ} (h : k ≠ j) :
    (d.setWord j v).word k = d.word k := by
  have h0 : 4 * k / 4 ≠ j := by omega
  have h1 : (4 * k + 1) / 4 ≠ j := by omega
  have h2 : (4 * k + 2) / 4 ≠ j := by omega
  have h3 : (4 * k + 3) / 4 ≠ j := by omega
  simp only [word, setWord, h0, h1, h2, h3, if_false]

/-- The bytes of the words `w`. -/
theorem Bytes.word_ofNat {w : ℕ → ℕ} {k : ℕ} (h : w k < 2 ^ 32) :
    Bytes.word (fun i => UInt8.ofNat (w (i / 4) / 2 ^ (8 * (i % 4)))) k = w k := by
  have hdiv : ∀ j, j < 4 → (4 * k + j) / 4 = k ∧ (4 * k + j) % 4 = j := fun j hj => by omega
  obtain ⟨d0, m0⟩ := hdiv 0 (by omega)
  rw [Nat.add_zero] at d0 m0
  simp only [word, d0, m0, hdiv, Nat.reduceLT, UInt8.toNat_ofNat']
  omega

@[simp] theorem Bytes.word_zero (j : ℕ) : Bytes.word (fun _ => 0) j = 0 := rfl

/-! ## Buffers -/

/-- A copy to or from memory : byte `k` of the buffer, and whether the page it is on is
mapped. -/
structure Mem where
  byte : Bytes
  mapped : ℕ → Bool

/-- How many of the bytes `[k, k + m)` come before the first one that is not mapped. -/
def Mem.run (u : Mem) (k m : ℕ) : ℕ :=
  match Prog.firstFrom (fun j => !u.mapped j) m k with
  | some j => j - k
  | none => m

namespace Fs

/-! ## Small steps -/

def setInode (s : Fs) (ip : Fin NINODE) (f : Inode → Inode) : Fs :=
  { s with itable := update s.itable ip (f (s.itable ip)) }

/-- A change to the fields of the in-memory inode that live on disk. -/
def setD (s : Fs) (ip : Fin NINODE) (f : Dinode → Dinode) : Fs :=
  s.setInode ip fun x => { x with d := f x.d }

def log_write (b : ℕ) : FsM Unit := modify fun s => { s with logged := b :: s.logged }

def bzero (b : ℕ) : FsM Unit := do
  modify fun s => { s with data := update s.data b fun _ => 0 }
  log_write b

variable (L : FsLayout)

/-! ## Blocks -/

/-- The first free block of the bitmap blocks from the `k`-th on. -/
def firstFree (bitmap : ℕ → Bool) : (n k : ℕ) → Option ℕ
  | 0, _ => none
  | n + 1, k =>
    if k * BPB < L.size then
      -- `bi < BPB && b + bi < sb.size`
      match Prog.firstFrom (fun bi => !bitmap (k * BPB + bi)) (min BPB (L.size - k * BPB)) 0 with
      | some bi => some (k * BPB + bi)
      | none => firstFree bitmap n (k + 1)
    else none

/-- Returns `0` when there is no free block. -/
def balloc : FsM ℕ := do
  let s ← get
  match firstFree L s.bitmap (L.size / BPB + 1) 0 with
  | some b =>
    modify fun s => { s with bitmap := update s.bitmap b true }
    log_write (L.BBLOCK b)
    bzero b
    pure b
  | none => pure 0

def bfree (b : ℕ) : FsM Unit := do
  let s ← get
  if s.bitmap b then
    modify fun s => { s with bitmap := update s.bitmap b false }
    log_write (L.BBLOCK b)
  else throw .freeingFreeBlock

/-! ## The inode table -/

/-- `iget` : the entry of `inum`, or an empty one recycled for it. -/
def iget (inum : ℕ) : FsM (Fin NINODE) := do
  let s ← get
  match (List.finRange NINODE).find? fun ip =>
    0 < (s.itable ip).ref ∧ (s.itable ip).inum = inum with
  | some ip =>
    modify fun s => s.setInode ip fun x => { x with ref := x.ref + 1 }
    pure ip
  | none =>
    match (List.finRange NINODE).find? fun ip => (s.itable ip).ref = 0 with
    | some ip =>
      modify fun s => s.setInode ip fun x => { x with inum := inum, ref := 1, valid := false }
      pure ip
    | none => throw .noInodes

/-- The loop of `ialloc` : the first inode that is free on disk, marked with its new type. -/
def iallocLoop (type : FileType) : FsM (Option ℕ) := do
  let s ← get
  match Prog.firstFrom (fun i => (s.dinode i).type = .none) (L.ninodes - 1) 1 with
  | some inum =>
    modify fun s => { s with dinode := update s.dinode inum (.fresh type) }
    log_write (L.IBLOCK inum)
    pure (some inum)
  | none => pure none

/-- Copy the in-memory inode to disk. -/
def iupdate (ip : Fin NINODE) : FsM Unit := do
  modify fun s => { s with
    dinode := update s.dinode (s.itable ip).inum (s.itable ip).d }
  let s ← get
  log_write (L.IBLOCK (s.itable ip).inum)

def idup (ip : Fin NINODE) : FsM Unit :=
  modify fun s => s.setInode ip fun x => { x with ref := x.ref + 1 }

def acquiresleep (ip : Fin NINODE) : FsM Unit := do
  let s ← get
  if (s.itable ip).locked then throw .hang
  else modify fun s => s.setInode ip fun x => { x with locked := true }

def releasesleep (ip : Fin NINODE) : FsM Unit :=
  modify fun s => s.setInode ip fun x => { x with locked := false }

/-- The beginning of `ilock`. -/
def lock (ip : Fin NINODE) : FsM Unit := do
  let s ← get
  if (s.itable ip).ref < 1 then throw .ilock else acquiresleep ip

/-- The rest of `ilock` : the inode is read if there is no copy. -/
def load (ip : Fin NINODE) : FsM Unit := do
  let s ← get
  if (s.itable ip).valid then pure ()
  else if L.ninodes ≤ (s.itable ip).inum then throw .outside
  else do
    modify fun s => s.setInode ip fun x => { x with d := s.dinode x.inum, valid := true }
    if (s.dinode (s.itable ip).inum).type = .none then throw .noType else pure ()

def ilock (ip : Fin NINODE) : FsM Unit := do
  lock ip
  load L ip

def iunlock (ip : Fin NINODE) : FsM Unit := do
  let s ← get
  if (s.itable ip).locked ∧ 1 ≤ (s.itable ip).ref then releasesleep ip else throw .iunlock

/-! ## Contents -/

/-- `ip->addrs[n]`, allocated if necessary. -/
def ensure (ip : Fin NINODE) (n : ℕ) : FsM ℕ := do
  let s ← get
  if (s.itable ip).d.addrs n = 0 then do
    let addr ← balloc L
    if addr = 0 then pure 0
    else do
      modify fun s => s.setD ip fun d => { d with addrs := update d.addrs n addr }
      pure addr
  else pure ((s.itable ip).d.addrs n)

/-- Entry `j` of the indirect block `a`, allocated if necessary. -/
def entry (a j : ℕ) : FsM ℕ := do
  let s ← get
  if (s.data a).word j = 0 then do
    let addr ← balloc L
    if addr = 0 then pure 0
    else do
      modify fun s => { s with data := update s.data a ((s.data a).setWord j addr) }
      log_write a
      pure addr
  else pure ((s.data a).word j)

/-- The number of the block that holds block `bn` of the file, allocated if necessary ; `0`
if the disk is full. -/
def bmap (ip : Fin NINODE) (bn : ℕ) : FsM ℕ :=
  if bn < NDIRECT then ensure L ip bn
  else if bn - NDIRECT < NINDIRECT then do
    let addr ← ensure L ip NDIRECT
    if addr = 0 then pure 0 else entry L addr (bn - NDIRECT)
  else throw .outOfRange

/-- The loop of `itrunc` over the direct blocks. -/
def truncDirect (ip : Fin NINODE) : FsM Unit :=
  Prog.forUp (fun i => do
    let s ← get
    if (s.itable ip).d.addrs i = 0 then pure ()
    else do
      bfree L ((s.itable ip).d.addrs i)
      modify fun s => s.setD ip fun d => { d with addrs := update d.addrs i 0 }) NDIRECT 0

/-- The loop of `itrunc` over the entries of the indirect block. -/
def truncEntries (ip : Fin NINODE) : FsM Unit :=
  Prog.forUp (fun j => do
    let s ← get
    if (s.data ((s.itable ip).d.addrs NDIRECT)).word j = 0 then pure ()
    else bfree L ((s.data ((s.itable ip).d.addrs NDIRECT)).word j)) NINDIRECT 0

/-- The part of `itrunc` on the indirect block. -/
def truncIndirect (ip : Fin NINODE) : FsM Unit := do
  let s ← get
  if (s.itable ip).d.addrs NDIRECT = 0 then pure ()
  else do
    truncEntries L ip
    bfree L ((s.itable ip).d.addrs NDIRECT)
    modify fun s => s.setD ip fun d => { d with addrs := update d.addrs NDIRECT 0 }

/-- Discard the contents. -/
def itrunc (ip : Fin NINODE) : FsM Unit := do
  truncDirect L ip
  truncIndirect L ip
  modify fun s => s.setD ip fun d => { d with size := 0 }
  iupdate L ip

/-- The test of `iput`, with what is under the same `itable.lock` : if this is the last
reference to an inode without links, the inode is locked to free it ; if not, the reference
is dropped. An `acquiresleep` that has to wait calls `sched` with `itable.lock` held. -/
def iputTest (ip : Fin NINODE) : FsM Bool := do
  let s ← get
  if (s.itable ip).ref = 1 ∧ (s.itable ip).valid ∧ (s.itable ip).d.nlink = 0 then
    if (s.itable ip).locked then throw .schedLocks
    else do
      modify fun s => s.setInode ip fun x => { x with locked := true }
      pure true
  else do
    modify fun s => s.setInode ip fun x => { x with ref := x.ref - 1 }
    pure false

/-- `ip->type = 0`, and `iupdate` -/
def clearType (ip : Fin NINODE) : FsM Unit := do
  modify fun s => s.setD ip fun d => { d with type := .none }
  iupdate L ip

/-- `ip->valid = 0` -/
def unvalid (ip : Fin NINODE) : FsM Unit :=
  modify fun s => s.setInode ip fun x => { x with valid := false }

/-- What `iput` does with the inode locked. -/
def iputFree (ip : Fin NINODE) : FsM Unit := do
  itrunc L ip
  clearType L ip
  unvalid ip
  releasesleep ip

/-- The last lines of `iput`. -/
def iputDrop (ip : Fin NINODE) : FsM Unit :=
  modify fun s => s.setInode ip fun x => { x with ref := x.ref - 1 }

/-- The loop of `readi`, with `fuel` rounds left. Returns the bytes read, `none` for `-1`. -/
def readLoop (ip : Fin NINODE) (dst : Mem) (n : ℕ) :
    (fuel tot off : ℕ) → Bytes → FsM (Option ℕ × Bytes)
  | 0, tot, _, buf => pure (some tot, buf)
  | fuel + 1, tot, off, buf =>
    if tot < n then do
      let addr ← bmap L ip (off / BSIZE)
      if addr = 0 then pure (some tot, buf)
      else do
        let s ← get
        let m := min (n - tot) (BSIZE - off % BSIZE)
        let c := dst.run tot m
        let buf := Bytes.splice buf tot c fun k => s.data addr (off % BSIZE + k)
        if c = m then readLoop ip dst n fuel (tot + m) (off + m) buf else pure (none, buf)
    else pure (some tot, buf)

/-- `readi` to the buffer `dst` : the result, and the bytes of the buffer. -/
def readi (ip : Fin NINODE) (dst : Mem) (off n : ℕ) : FsM (Option ℕ × Bytes) := do
  let s ← get
  let size := (s.itable ip).d.size
  if size < off ∨ (off + n) % 2 ^ 32 < off then pure (some 0, dst.byte)
  else
    let n := if size < off + n then size - off else n
    readLoop L ip dst n n 0 off dst.byte

/-- The loop of `writei`, with `fuel` rounds left. Returns `tot` and `off`. -/
def writeLoop (ip : Fin NINODE) (src : Mem) (n : ℕ) : (fuel tot off : ℕ) → FsM (ℕ × ℕ)
  | 0, tot, off => pure (tot, off)
  | fuel + 1, tot, off =>
    if tot < n then do
      let addr ← bmap L ip (off / BSIZE)
      if addr = 0 then pure (tot, off)
      else do
        let m := min (n - tot) (BSIZE - off % BSIZE)
        let c := src.run tot m
        -- `copyin` has copied the mapped pages when it fails
        modify fun s => { s with
          data := update s.data addr
            (Bytes.splice (s.data addr) (off % BSIZE) c fun k => src.byte (tot + k)) }
        if c = m then do
          log_write addr
          writeLoop ip src n fuel (tot + m) (off + m)
        else pure (tot, off)
    else pure (tot, off)

/-- `writei` from the buffer `src` : the number of bytes written, `none` for `-1`. -/
def writei (ip : Fin NINODE) (src : Mem) (off n : ℕ) : FsM (Option ℕ) := do
  let s ← get
  if (s.itable ip).d.size < off ∨ (off + n) % 2 ^ 32 < off then pure none
  else if MAXFILE * BSIZE < off + n then pure none
  else do
    let (tot, off) ← writeLoop L ip src n n 0 off
    modify fun s => s.setD ip fun d => { d with size := if d.size < off then off else d.size }
    iupdate L ip
    pure (some tot)

/-- `iget` counts one more reference in the entry of the inode, or takes an empty entry. -/
theorem iget_rule {E : FsPanic → Prop} {Q : Fin NINODE → Fs → Prop} {s : Fs} {i : ℕ}
    (hhit : ∀ ip, 0 < (s.itable ip).ref → (s.itable ip).inum = i →
      Q ip (s.setInode ip fun x => { x with ref := x.ref + 1 }))
    (hnew : (∀ q, 0 < (s.itable q).ref → (s.itable q).inum ≠ i) → ∀ ip, (s.itable ip).ref = 0 →
      Q ip (s.setInode ip fun x => { x with inum := i, ref := 1, valid := false }))
    (hfull : (∀ q, (s.itable q).ref ≠ 0) → E .noInodes) : Prog.wp E (iget i) Q s := by
  simp only [iget, Prog.wp_bind, Prog.wp_get]
  split
  · rename_i ip hfind
    have hp : 0 < (s.itable ip).ref ∧ (s.itable ip).inum = i := by
      simpa using List.find?_some hfind
    exact hhit ip hp.1 hp.2
  · rename_i hfind
    have hnot : ∀ q, 0 < (s.itable q).ref → (s.itable q).inum ≠ i := fun q h1 h2 =>
      absurd (List.find?_eq_none.mp hfind q (List.mem_finRange q)) (by simp [h1, h2])
    split
    · rename_i ip hempty
      exact hnew hnot ip (by simpa using List.find?_some hempty)
    · rename_i hnone
      refine hfull fun q hq => ?_
      exact absurd (List.find?_eq_none.mp hnone q (List.mem_finRange q)) (by simp [hq])

end Fs

end Xv6
