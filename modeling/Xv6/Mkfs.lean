import Xv6.FsCalls

/-!
# mkfs

The program that writes the initial image of the file system. The image is a file of sectors of
`BSIZE` bytes, and here the inodes and the bitmap are bytes of sectors as everything else. A
failed `assert` and `die` stop it.

`Mkfs.mount` is the image as the kernel reads it : an on-disk inode is a `struct dinode` at its
place in its block, little-endian (`Bytes.dinode`), a bit of the bitmap is a bit of a byte.
-/

namespace Xv6

open Function Prog

def NINODES : ℕ := 200
def FSMAGIC : ℕ := 0x10203040

def ninodeblocks : ℕ := NINODES / IPB + 1

/-- The size of the image, which the source chooses per lab (2000, 10000 or 200000). -/
structure MkfsConf where
  FSSIZE : ℕ
  /-- there is room for boot block, superblock, log, inodes and bitmap -/
  room : 2 + LOGSIZE + ninodeblocks + (FSSIZE / BPB + 1) ≤ FSSIZE
  /-- offsets in the image are `uint` -/
  lt : FSSIZE < 2 ^ 22

namespace MkfsConf

variable (F : MkfsConf)

def nbitmap : ℕ := F.FSSIZE / BPB + 1

/-- The number of blocks before the data blocks. -/
def nmeta : ℕ := 2 + LOGSIZE + ninodeblocks + F.nbitmap

def nblocks : ℕ := F.FSSIZE - F.nmeta

/-- The superblock. -/
def layout : FsLayout where
  logstart := 2
  nlog := LOGSIZE
  pos := by decide
  size := F.FSSIZE
  ninodes := NINODES
  inodestart := 2 + LOGSIZE
  bmapstart := 2 + LOGSIZE + ninodeblocks
  size_lt := F.lt.trans (by decide)

end MkfsConf

/-! ## `struct dinode` in a block -/

/-- `T_DIR`, `T_FILE` and `T_DEVICE` -/
def FileType.code : FileType → ℕ
  | .none => 0
  | .dir => 1
  | .file => 2
  | .device => 3

def FileType.ofCode : ℕ → FileType
  | 1 => .dir
  | 2 => .file
  | 3 => .device
  | _ => .none

/-- A `short` as its two bytes. -/
def half (x : ℤ) : ℕ := (x % 2 ^ 16).toNat

/-- The 16 words of a `struct dinode`. -/
def Dinode.word (d : Dinode) : ℕ → ℕ
  | 0 => d.type.code + 2 ^ 16 * half d.major
  | 1 => half d.minor + 2 ^ 16 * half d.nlink
  | 2 => d.size
  | w + 3 => d.addrs w

def Dinode.ofWords (w : ℕ → ℕ) : Dinode where
  type := .ofCode (w 0 % 2 ^ 16)
  major := Fs.short ((w 0 / 2 ^ 16 : ℕ))
  minor := Fs.short ((w 1 % 2 ^ 16 : ℕ))
  nlink := Fs.short ((w 1 / 2 ^ 16 : ℕ))
  size := w 2
  addrs n := if n ≤ NDIRECT then w (n + 3) else 0

/-- `((struct dinode*)data)[k]` -/
def Bytes.dinode (b : Bytes) (k : ℕ) : Dinode := .ofWords fun w => b.word (16 * k + w)

/-- `((struct dinode*)data)[k] = d` -/
def Bytes.setDinode (b : Bytes) (k : ℕ) (d : Dinode) : Bytes := fun i =>
  if i / 64 = k then UInt8.ofNat (d.word (i % 64 / 4) / 2 ^ (8 * (i % 4))) else b i

/-! ## The program -/

structure Mkfs where
  image : ℕ → Bytes
  /-- the length of the image file -/
  sectors : ℕ
  freeinode : ℕ
  freeblock : ℕ

inductive MkfsFail
  | die
  | assertion
  deriving DecidableEq, Repr

abbrev MkfsM := Prog Mkfs MkfsFail

/-- A file of the host : its path, a string, and its contents. -/
structure HostFile where
  path : List UInt8
  bytes : List UInt8
  path_ne : 0 ∉ path

/-- get rid of "user/" -/
def HostFile.base (f : HostFile) : List UInt8 :=
  if f.path.take 5 = [117, 115, 101, 114, 47] then f.path.drop 5 else f.path

/-- Skip leading _ in name. -/
def HostFile.shortname (f : HostFile) : List UInt8 :=
  if f.base.head? = some 95 then f.base.tail else f.base

namespace Mkfs

def wsect (sec : ℕ) (buf : Bytes) : MkfsM Unit :=
  modify fun s => { s with image := update s.image sec buf, sectors := max s.sectors (sec + 1) }

def rsect (sec : ℕ) : MkfsM Bytes := do
  let s ← get
  if sec < s.sectors then pure (s.image sec) else throw .die

variable (F : MkfsConf)

def winode (inum : ℕ) (ip : Dinode) : MkfsM Unit := do
  let buf ← rsect (F.layout.IBLOCK inum)
  wsect (F.layout.IBLOCK inum) (buf.setDinode (inum % IPB) ip)

def rinode (inum : ℕ) : MkfsM Dinode := do
  let buf ← rsect (F.layout.IBLOCK inum)
  pure (buf.dinode (inum % IPB))

def ialloc (type : FileType) : MkfsM ℕ := do
  let s ← get
  modify fun s => { s with freeinode := s.freeinode + 1 }
  winode F s.freeinode ⟨type, 0, 0, 1, 0, fun _ => 0⟩
  pure s.freeinode

/-- `buf[i/8] |= 0x1 << (i%8)` for the `i` below `used` -/
def bits : ℕ → Bytes
  | 0 => fun _ => 0
  | i + 1 => update (bits i) (i / 8) (bits i (i / 8) ||| UInt8.ofNat (2 ^ (i % 8)))

def balloc (used : ℕ) : MkfsM Unit :=
  if used < BPB then wsect F.layout.bmapstart (bits used) else throw .assertion

/-- `freeblock++` -/
def nextBlock : MkfsM ℕ := do
  let s ← get
  modify fun s => { s with freeblock := s.freeblock + 1 }
  pure s.freeblock

/-- `din.addrs[n]`, a new block if it is `0`. -/
def fillAddr (din : Dinode) (n : ℕ) : MkfsM Dinode := do
  if din.addrs n = 0 then do
    let b ← nextBlock
    pure { din with addrs := update din.addrs n b }
  else pure din

/-- The part of `iappend` that finds block `fbn` of the file : its number, and the inode. -/
def findBlock (din : Dinode) (fbn : ℕ) : MkfsM (ℕ × Dinode) := do
  if fbn < NDIRECT then do
    let din ← fillAddr din fbn
    pure (din.addrs fbn, din)
  else do
    let din ← fillAddr din NDIRECT
    let indirect ← rsect (din.addrs NDIRECT)
    if indirect.word (fbn - NDIRECT) = 0 then do
      let b ← nextBlock
      wsect (din.addrs NDIRECT) (indirect.setWord (fbn - NDIRECT) b)
      pure (b, din)
    else pure (indirect.word (fbn - NDIRECT), din)

/-- The loop of `iappend`, with `tot` of the `n` bytes done and `fuel` rounds left. Returns the
inode and `off`. -/
def appendLoop (p : Bytes) (n : ℕ) : (fuel tot off : ℕ) → Dinode → MkfsM (Dinode × ℕ)
  | 0, _, off, din => pure (din, off)
  | fuel + 1, tot, off, din =>
    if tot < n then
      if off / BSIZE < MAXFILE then do
        let (x, din) ← findBlock din (off / BSIZE)
        let n1 := min (n - tot) ((off / BSIZE + 1) * BSIZE - off)
        let buf ← rsect x
        wsect x (buf.splice (off - off / BSIZE * BSIZE) n1 fun k => p (tot + k))
        appendLoop p n fuel (tot + n1) (off + n1) din
      else throw .assertion
    else pure (din, off)

def iappend (inum : ℕ) (p : Bytes) (n : ℕ) : MkfsM Unit := do
  let din ← rinode F inum
  let (din, off) ← appendLoop p n n 0 din.size din
  winode F inum { din with size := off }

/-- The loop that copies the rest `l` of a host file. -/
def copyLoop (inum : ℕ) : (fuel : ℕ) → List UInt8 → MkfsM Unit
  | 0, _ => pure ()
  | fuel + 1, l =>
    if l = [] then pure ()
    else do
      iappend F inum (cstring (l.take BSIZE)) (min l.length BSIZE)
      copyLoop inum fuel (l.drop BSIZE)

/-- The body of the loop of `main` over the files. -/
def addFile (rootino : ℕ) (f : HostFile) : MkfsM Unit := do
  if 47 ∈ f.base then throw .assertion
  else if DIRSIZ < f.shortname.length then throw .assertion
  else do
    let inum ← ialloc F .file
    iappend F rootino (dirent inum (cstring f.shortname)) DIRENT
    copyLoop F inum f.bytes.length f.bytes

def addFiles (rootino : ℕ) : List HostFile → MkfsM Unit
  | [] => pure ()
  | f :: l => do
    addFile F rootino f
    addFiles rootino l

/-- The words of `struct superblock`. -/
def superblock : Bytes :=
  let L := F.layout
  let words :=
    [FSMAGIC, L.size, F.nblocks, L.ninodes, L.nlog, L.logstart, L.inodestart, L.bmapstart]
  fun k => UInt8.ofNat (words.getD (k / 4) 0 / 2 ^ (8 * (k % 4)))

/-- fix size of root inode dir -/
def fixRoot (rootino : ℕ) : MkfsM Unit := do
  let din ← rinode F rootino
  winode F rootino { din with size := (din.size / BSIZE + 1) * BSIZE }

/-- `main`, from the zeroing of the image on. -/
def main (files : List HostFile) : MkfsM Unit := do
  forUp (fun i => wsect i fun _ => 0) F.FSSIZE 0
  wsect 1 (superblock F)
  let rootino ← ialloc F .dir
  if rootino = ROOTINO then do
    iappend F rootino (dirent rootino dot) DIRENT
    iappend F rootino (dirent rootino dotdot) DIRENT
    addFiles F rootino files
    fixRoot F rootino
    let s ← get
    balloc F s.freeblock
  else throw .assertion

/-- `main` starts with an empty image. -/
def start : Mkfs := ⟨fun _ _ => 0, 0, 1, F.nmeta⟩

/-! ## The image as the kernel sees it -/

/-- The on-disk inode `i`. -/
def dinode (s : Mkfs) (i : ℕ) : Dinode := (s.image (F.layout.IBLOCK i)).dinode (i % IPB)

/-- `bp->data[bi/8] & (1 << (bi % 8))` -/
def bit (s : Mkfs) (b : ℕ) : Bool :=
  (s.image (F.layout.BBLOCK b) (b % BPB / 8) &&& UInt8.ofNat (2 ^ (b % BPB % 8))) ≠ 0

/-- The file system after boot, with no inode in memory. -/
def mount (s : Mkfs) : Fs where
  bitmap := s.bit F
  dinode := s.dinode F
  data := s.image
  itable _ := ⟨0, 0, false, false, .fresh .none⟩
  logged := []

end Mkfs

/-! ## The format of inodes -/

theorem FileType.ofCode_code (t : FileType) : FileType.ofCode t.code = t := by
  cases t <;> rfl

theorem Bytes.word_setDinode_self {b : Bytes} {k w : ℕ} {d : Dinode} (hw : w < 16)
    (hd : d.word w < 2 ^ 32) : (b.setDinode k d).word (16 * k + w) = d.word w := by
  have hdiv : ∀ j, j < 4 → (4 * (16 * k + w) + j) / 64 = k := fun j hj => by omega
  have hmod : ∀ j, j < 4 → (4 * (16 * k + w) + j) % 64 / 4 = w := fun j hj => by omega
  have hbyte : ∀ j, j < 4 → (4 * (16 * k + w) + j) % 4 = j := fun j hj => by omega
  have h0 := hdiv 0 (by omega)
  have m0 := hmod 0 (by omega)
  have b0 := hbyte 0 (by omega)
  simp only [Nat.add_zero] at h0 m0 b0
  simp only [word, setDinode, h0, m0, b0, hdiv, hmod, hbyte, Nat.reduceLT, if_true,
    UInt8.toNat_ofNat']
  omega

theorem Bytes.word_setDinode_of_ne {b : Bytes} {k k' w : ℕ} {d : Dinode} (hw : w < 16)
    (h : k' ≠ k) : (b.setDinode k d).word (16 * k' + w) = b.word (16 * k' + w) := by
  have hne : ∀ j, j < 4 → (4 * (16 * k' + w) + j) / 64 ≠ k := fun j hj => by omega
  have h0 := hne 0 (by omega)
  simp only [Nat.add_zero] at h0
  simp only [word, setDinode, h0, hne, Nat.reduceLT, if_false]

/-- The values of the fields fit, and nothing is beyond the array `addrs`. -/
structure Dinode.Fits (d : Dinode) : Prop where
  major : -2 ^ 15 ≤ d.major ∧ d.major < 2 ^ 15
  minor : -2 ^ 15 ≤ d.minor ∧ d.minor < 2 ^ 15
  nlink : -2 ^ 15 ≤ d.nlink ∧ d.nlink < 2 ^ 15
  size : d.size < 2 ^ 32
  addrs : ∀ n, d.addrs n < 2 ^ 32
  beyond : ∀ n, NDIRECT < n → d.addrs n = 0

theorem half_lt (x : ℤ) : half x < 2 ^ 16 := by
  unfold half
  omega

theorem short_half {x : ℤ} (h : -2 ^ 15 ≤ x ∧ x < 2 ^ 15) : Fs.short (half x) = x := by
  unfold Fs.short half
  omega

theorem Dinode.Fits.word_lt {d : Dinode} (h : d.Fits) (w : ℕ) : d.word w < 2 ^ 32 := by
  match w with
  | 0 =>
    have := half_lt d.major
    have : d.type.code < 2 ^ 16 := by cases d.type <;> decide
    simp only [word]
    omega
  | 1 =>
    have := half_lt d.minor
    have := half_lt d.nlink
    simp only [word]
    omega
  | 2 => exact h.size
  | w + 3 => exact h.addrs w

theorem Dinode.ofWords_word {d : Dinode} (h : d.Fits) : Dinode.ofWords d.word = d := by
  obtain ⟨type, major, minor, nlink, size, addrs⟩ := d
  have h0 := half_lt major
  have h1 := half_lt minor
  have hcode : type.code < 2 ^ 16 := by cases type <;> decide
  have htype : (type.code + 2 ^ 16 * half major) % 2 ^ 16 = type.code := by omega
  have hmajor : (type.code + 2 ^ 16 * half major) / 2 ^ 16 = half major := by omega
  have hminor : (half minor + 2 ^ 16 * half nlink) % 2 ^ 16 = half minor := by omega
  have hnlink : (half minor + 2 ^ 16 * half nlink) / 2 ^ 16 = half nlink := by omega
  have haddrs : (fun n => if n ≤ NDIRECT then addrs n else 0) = addrs := by
    funext n
    split
    · rfl
    · exact (h.beyond n (by omega)).symm
  simp only [ofWords, word, htype, hmajor, hminor, hnlink, haddrs, FileType.ofCode_code,
    mk.injEq, and_true, true_and]
  exact ⟨short_half h.major, short_half h.minor, short_half h.nlink⟩

theorem Dinode.ofWords_congr {w w' : ℕ → ℕ} (h : ∀ k, k < 16 → w k = w' k) :
    Dinode.ofWords w = Dinode.ofWords w' := by
  simp only [ofWords, h 0 (by omega), h 1 (by omega), h 2 (by omega)]
  congr 1
  funext n
  split
  · rename_i hn
    exact h (n + 3) (by unfold NDIRECT at hn; omega)
  · rfl

theorem Bytes.dinode_setDinode_self {b : Bytes} {k : ℕ} {d : Dinode} (h : d.Fits) :
    (b.setDinode k d).dinode k = d := by
  rw [Bytes.dinode, ← Dinode.ofWords_word h]
  refine Dinode.ofWords_congr fun w hw => ?_
  rw [Dinode.ofWords_word h]
  exact Bytes.word_setDinode_self hw (h.word_lt w)

theorem Bytes.dinode_setDinode_of_ne {b : Bytes} {k k' : ℕ} {d : Dinode} (h : k' ≠ k) :
    (b.setDinode k d).dinode k' = b.dinode k' :=
  Dinode.ofWords_congr fun _ hw => Bytes.word_setDinode_of_ne hw h

theorem Bytes.word_lt (b : Bytes) (j : ℕ) : b.word j < 2 ^ 32 := by
  have h0 := (b (4 * j)).toNat_lt
  have h1 := (b (4 * j + 1)).toNat_lt
  have h2 := (b (4 * j + 2)).toNat_lt
  have h3 := (b (4 * j + 3)).toNat_lt
  unfold word
  omega

theorem short_bounds (x : ℤ) : -2 ^ 15 ≤ Fs.short x ∧ Fs.short x < 2 ^ 15 := by
  unfold Fs.short
  omega

/-- What is read from a block fits. -/
theorem Bytes.dinode_fits (b : Bytes) (k : ℕ) : (b.dinode k).Fits where
  major := short_bounds _
  minor := short_bounds _
  nlink := short_bounds _
  size := b.word_lt _
  addrs n := by
    simp only [dinode, Dinode.ofWords]
    split
    · exact b.word_lt _
    · decide
  beyond n hn := if_neg (by omega)

@[simp] theorem Bytes.dinode_zero (k : ℕ) :
    Bytes.dinode (fun _ => 0) k = ⟨.none, 0, 0, 0, 0, fun _ => 0⟩ := by
  simp only [Bytes.dinode, Dinode.ofWords, Bytes.word_zero]
  simp [FileType.ofCode, Fs.short]

end Xv6
