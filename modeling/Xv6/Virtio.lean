import Xv6.Inode
import Xv6.Ring
import Xv6.Threads

/-!
# The virtio disk

`virtio_disk.c` and the device share a table of descriptors and two rings. `virtio_disk_rw`
allocates three descriptors, links them into a chain that describes the request, puts the number
of the first into the avail ring and waits ; the device takes the heads of chains from that ring
in order, completes them in any order, and puts them into the used ring, from which
`virtio_disk_intr` takes them and wakes the callers. The four indices of the rings count to
`2 ^ 16` and wrap.

Calls of the driver are programs over the shared memory (`Threads`), and any number of them
interleave with each other and with the device. All they do to the memory is done with
`vdisk_lock` held. A process that sleeps can be woken at any time, by `kill` if by nothing else :
`sleep` gives the lock up, and returns when it has it again. A round of a loop is a program, and
the thread remembers between rounds which loop it is in (`Loc`).

A buffer is locked by its user, `bread` or `bwrite`, while `virtio_disk_rw` is called.
-/

namespace Xv6.Virtio

open Function

/-- The number of descriptors. -/
def NUM : ℕ := 8

def VRING_DESC_F_NEXT : BitVec 16 := 1
def VRING_DESC_F_WRITE : BitVec 16 := 2

/-- What a descriptor points to. -/
inductive Addr (B : Type)
  | null
  /-- `&disk.ops[i]` -/
  | op (i : ℕ)
  /-- `b->data` -/
  | data (b : B)
  /-- `&disk.info[i].status` -/
  | status (i : ℕ)

/-- `struct virtq_desc` -/
structure Desc (B : Type) where
  addr : Addr B
  len : ℕ
  flags : BitVec 16
  next : ℕ

/-- `struct virtio_blk_req` -/
structure BlkReq where
  type : ℕ
  reserved : ℕ
  sector : ℕ

structure Info (B : Type) where
  b : Option B
  status : ℕ

/-- A request, with the descriptors of its chain : `idx`, `b` and `write` of a call. -/
structure Chain (B : Type) where
  idx0 : ℕ
  idx1 : ℕ
  idx2 : ℕ
  b : B
  blockno : BitVec 32
  write : Bool

def Chain.descs {B : Type} (c : Chain B) : List ℕ := [c.idx0, c.idx1, c.idx2]

/-- `struct disk`, what it shares with the device, and `lock` and `disk` of the buffers. -/
structure Disk (B : Type) where
  vdiskLock : Bool
  bufLock : B → Bool
  disk : B → Bool
  free : ℕ → Bool
  desc : ℕ → Desc B
  ops : ℕ → BlkReq
  info : ℕ → Info B
  /-- `avail->ring` and `avail->idx` -/
  availRing : ℕ → ℕ
  availIdx : BitVec 16
  /-- `used->ring[].id` and `used->idx` -/
  usedRing : ℕ → ℕ
  usedTop : BitVec 16
  /-- `disk.used_idx` -/
  usedIdx : BitVec 16
  /-- how far the device has looked in the avail ring -/
  last : BitVec 16
  /-- the heads that it has taken and not completed -/
  busy : List ℕ
  /-- the requests that were published, the number of the last one at each head, and the numbers
  of those that the device has completed -/
  reqs : List (Chain B)
  cur : ℕ → ℕ
  completed : List ℕ

inductive Err
  /-- a lock is held, or the device has nothing to do -/
  | blocked
  /-- `panic("free_desc 1")` -/
  | freeDesc1
  /-- `panic("free_desc 2")` -/
  | freeDesc2
  /-- `panic("virtio_disk_intr status")` -/
  | status
  /-- `b->disk = 0` with `b` null -/
  | nullBuf
  deriving DecidableEq

variable {B : Type} [DecidableEq B]

namespace Disk

abbrev M (B : Type) := Prog (Disk B) Err

def acquire : M B Unit := do
  if (← get).vdiskLock then throw .blocked
  else modify fun s => { s with vdiskLock := true }

def release : M B Unit :=
  modify fun s => { s with vdiskLock := false }

def lockBuf (b : B) : M B Unit := do
  if (← get).bufLock b then throw .blocked
  else modify fun s => { s with bufLock := update s.bufLock b true }

def unlockBuf (b : B) : M B Unit :=
  modify fun s => { s with bufLock := update s.bufLock b false }

/-- `alloc_desc` -/
def allocDesc : M B (Option ℕ) := do
  match (List.range NUM).find? (← get).free with
  | some i => do
    modify fun s => { s with free := update s.free i false }
    pure (some i)
  | none => pure none

/-- `free_desc`. Its `wakeup` lets others find the descriptor, which they may at any time. -/
def freeDesc (i : ℕ) : M B Unit := do
  if NUM ≤ i then throw .freeDesc1
  else if (← get).free i then throw .freeDesc2
  else modify fun s => { s with
    desc := update s.desc i ⟨.null, 0, 0, 0⟩
    free := update s.free i true }

/-- The flags and the next descriptor of `desc[i]`. -/
def link (i : ℕ) : M B (BitVec 16 × ℕ) := do
  let s ← get
  pure ((s.desc i).flags, (s.desc i).next)

/-- `sector` is computed with 32 bits. -/
def sector (blockno : BitVec 32) : ℕ := (blockno * 2).toNat

/-- The descriptors, the header and the book-keeping of a request. -/
def format (c : Chain B) : M B Unit := do
  modify fun s => { s with
    ops := update s.ops c.idx0 ⟨if c.write then 1 else 0, 0, sector c.blockno⟩ }
  modify fun s => { s with
    desc := update s.desc c.idx0 ⟨.op c.idx0, 16, VRING_DESC_F_NEXT, c.idx1 % 2 ^ 16⟩ }
  modify fun s => { s with
    desc := update s.desc c.idx1 ⟨.data c.b, BSIZE,
      (if c.write then 0 else VRING_DESC_F_WRITE) ||| VRING_DESC_F_NEXT, c.idx2 % 2 ^ 16⟩ }
  modify fun s => { s with
    info := update s.info c.idx0 { s.info c.idx0 with status := 255 } }
  modify fun s => { s with
    desc := update s.desc c.idx2 ⟨.status c.idx0, 1, VRING_DESC_F_WRITE, 0⟩ }
  modify fun s => { s with
    disk := update s.disk c.b true
    info := update s.info c.idx0 { s.info c.idx0 with b := some c.b } }

/-- `avail->ring[avail->idx % NUM] = i` -/
def ring (i : ℕ) : M B Unit :=
  modify fun s => { s with
    availRing := update s.availRing (Ring.slot NUM s.availIdx) (i % 2 ^ 16) }

/-- `avail->idx += 1`, which publishes the request. -/
def publish (c : Chain B) : M B ℕ := do
  let n := (← get).reqs.length
  modify fun s => { s with
    availIdx := s.availIdx + 1
    reqs := s.reqs ++ [c]
    cur := update s.cur c.idx0 n }
  pure n

/-- `b->disk` -/
def busyBuf (b : B) : M B Bool := do
  pure ((← get).disk b)

/-- `info[i].b = 0` -/
def clear (i : ℕ) : M B Unit :=
  modify fun s => { s with info := update s.info i { s.info i with b := none } }

/-- The next entry of the used ring, if there is one. -/
def used : M B (Option ℕ) := do
  let s ← get
  pure (if s.usedIdx ≠ s.usedTop then some (s.usedRing (Ring.slot NUM s.usedIdx)) else none)

def status (i : ℕ) : M B ℕ := do
  pure ((← get).info i).status

def infoB (i : ℕ) : M B (Option B) := do
  pure ((← get).info i).b

/-- `b->disk = 0; wakeup(b); disk.used_idx += 1` -/
def finish (b : B) : M B Unit :=
  modify fun s => { s with disk := update s.disk b false, usedIdx := s.usedIdx + 1 }

/-! ### The device -/

/-- The device takes the next head from the avail ring. -/
def take : M B Unit := do
  let s ← get
  if s.last = s.availIdx then throw .blocked
  else modify fun s => { s with
    last := s.last + 1
    busy := s.availRing (Ring.slot NUM s.last) :: s.busy }

/-- The device writes 0 where the third descriptor of a chain says. -/
def writeStatus (s : Disk B) (h : ℕ) : ℕ → Info B :=
  match (s.desc (s.desc (s.desc h).next).next).addr with
  | .status i => update s.info i { s.info i with status := 0 }
  | _ => s.info

/-- The device completes a request, and appends it to the used ring. -/
def complete (h : ℕ) : M B Unit := do
  if h ∈ (← get).busy then
    modify fun s => { s with
      info := s.writeStatus h
      usedRing := update s.usedRing (Ring.slot NUM s.usedTop) h
      usedTop := s.usedTop + 1
      busy := s.busy.erase h
      completed := s.cur h :: s.completed }
  else throw .blocked

end Disk

/-! ## Programs -/

inductive Act (B : Type)
  | acquire
  | release
  | lockBuf (b : B)
  | unlockBuf (b : B)
  | allocDesc
  | freeDesc (i : ℕ)
  | link (i : ℕ)
  | format (c : Chain B)
  | ring (i : ℕ)
  | publish (c : Chain B)
  | busyBuf (b : B)
  | clear (i : ℕ)
  | used
  | status (i : ℕ)
  | infoB (i : ℕ)
  | finish (b : B)
  | take
  | complete (h : ℕ)
  | panic (e : Err)

/-- What an action answers. -/
@[reducible] def Act.Res : Act B → Type
  | .allocDesc => Option ℕ
  | .link _ => BitVec 16 × ℕ
  | .publish _ => ℕ
  | .busyBuf _ => Bool
  | .used => Option ℕ
  | .status _ => ℕ
  | .infoB _ => Option B
  | .panic _ => Empty
  | _ => Unit

def Act.run : (a : Act B) → Disk.M B a.Res
  | .acquire => Disk.acquire
  | .release => Disk.release
  | .lockBuf b => Disk.lockBuf b
  | .unlockBuf b => Disk.unlockBuf b
  | .allocDesc => Disk.allocDesc
  | .freeDesc i => Disk.freeDesc i
  | .link i => Disk.link i
  | .format c => Disk.format c
  | .ring i => Disk.ring i
  | .publish c => Disk.publish c
  | .busyBuf b => Disk.busyBuf b
  | .clear i => Disk.clear i
  | .used => Disk.used
  | .status i => Disk.status i
  | .infoB i => Disk.infoB i
  | .finish b => Disk.finish b
  | .take => Disk.take
  | .complete h => Disk.complete h
  | .panic e => throw e

/-- Where a thread is between two rounds. -/
inductive Loc (B : Type)
  /-- in no call ; the last request that one returned for -/
  | idle (done : Option ℕ)
  /-- asleep on `free[0]` -/
  | alloc (b : B) (blockno : BitVec 32) (write : Bool)
  /-- asleep on `b`, with the request number -/
  | wait (c : Chain B) (n : ℕ)
  /-- in `free_chain`, at `i` -/
  | free (i : ℕ) (c : Chain B) (n : ℕ)
  /-- in the loop of `virtio_disk_intr` -/
  | intr

inductive Call (B : Type)
  | rw (b : B) (blockno : BitVec 32) (write : Bool)
  | intr
  /-- the device -/
  | take
  | complete (h : ℕ)

abbrev Code (B : Type) := Ctl (Act B) Act.Res

namespace Code

omit [DecidableEq B]

abbrev act (a : Act B) : Code B a.Res := Ctl.call a

def panic {α : Type} (e : Err) : Code B α := Ctl.act (.panic e) nofun

/-- `alloc3_desc`, its loop written out. -/
def alloc3Desc : Code B (Option (ℕ × ℕ × ℕ)) := do
  match ← act .allocDesc with
  | none => pure none
  | some i => do
    match ← act .allocDesc with
    | none => do
      act (.freeDesc i)
      pure none
    | some j => do
      match ← act .allocDesc with
      | none => do
        act (.freeDesc i)
        act (.freeDesc j)
        pure none
      | some k => pure (some (i, j, k))

/-- The loop that waits for `virtio_disk_intr`, with the lock held. -/
def waitRound (c : Chain B) (n : ℕ) : Code B (Loc B) := do
  if ← act (.busyBuf c.b) then do
    act .release
    pure (.wait c n)
  else do
    act (.clear c.idx0)
    pure (.free c.idx0 c n)

/-- The loop that allocates, with the lock held, and what follows it. -/
def allocRound (b : B) (blockno : BitVec 32) (write : Bool) : Code B (Loc B) := do
  match ← alloc3Desc with
  | none => do
    act .release
    pure (.alloc b blockno write)
  | some (i, j, k) => do
    let c : Chain B := ⟨i, j, k, b, blockno, write⟩
    act (.format c)
    act (.ring i)
    let n ← act (.publish c)
    waitRound c n

/-- A round of `free_chain`, and the end of `virtio_disk_rw`. -/
def freeRound (i : ℕ) (c : Chain B) (n : ℕ) : Code B (Loc B) := do
  let (flag, nxt) ← act (.link i)
  act (.freeDesc i)
  if flag &&& VRING_DESC_F_NEXT ≠ 0 then pure (.free nxt c n)
  else do
    act .release
    act (.unlockBuf c.b)
    pure (.idle (some n))

/-- A round of `virtio_disk_intr`. -/
def intrRound : Code B (Loc B) := do
  match ← act .used with
  | none => do
    act .release
    pure (.idle none)
  | some id => do
    if (← act (.status id)) ≠ 0 then panic .status
    else do
      match ← act (.infoB id) with
      | none => panic .nullBuf
      | some b => do
        act (.finish b)
        pure .intr

/-- What a thread does next. In a loop it goes on with it, whatever the call. -/
def prog (call : Call B) : Loc B → Code B (Loc B)
  | .idle done =>
    match call with
    | .rw b blockno write => do
      act (.lockBuf b)
      act .acquire
      allocRound b blockno write
    | .intr => do
      act .acquire
      pure .intr
    | .take => do
      act .take
      pure (.idle done)
    | .complete h => do
      act (.complete h)
      pure (.idle done)
  | .alloc b blockno write => do
    act .acquire
    allocRound b blockno write
  | .wait c n => do
    act .acquire
    waitRound c n
  | .free i c n => freeRound i c n
  | .intr => intrRound

end Code

/-- The driver and the device. -/
abbrev Sys (ι B : Type) := Threads ι (Disk B) (Act B) Act.Res (Loc B)

def Sys.step {ι : Type} [DecidableEq ι] : Sys ι B → ThreadLabel ι (Call B) → Option (Sys ι B) :=
  Threads.step Act.run Code.prog

/-- After `virtio_disk_init`. -/
def Disk.init (B : Type) : Disk B where
  vdiskLock := false
  bufLock _ := false
  disk _ := false
  free i := decide (i < NUM)
  desc _ := ⟨.null, 0, 0, 0⟩
  ops _ := ⟨0, 0, 0⟩
  info _ := ⟨none, 0⟩
  availRing _ := 0
  availIdx := 0
  usedRing _ := 0
  usedTop := 0
  usedIdx := 0
  last := 0
  busy := []
  reqs := []
  cur _ := 0
  completed := []

def Sys.init (ι B : Type) : Sys ι B :=
  ⟨Disk.init B, fun _ => .idle none, fun _ => none⟩

end Xv6.Virtio
