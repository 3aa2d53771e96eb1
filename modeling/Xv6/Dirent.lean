import Xv6.Inode

/-!
# Directories

A directory is a file of entries of `DIRENT` bytes, two for the inode number and `DIRSIZ` for
the name. The functions that look at the entries of a locked directory and change them :
`dirlookup`, the search and the write of `dirlink`, `isdirempty`, and the write of
`sys_unlink`.
-/

namespace Xv6

open Function

/-! ## Names -/

/-- `strncmp`, for the `n` bytes from the `i`-th on. -/
def strncmp (p q : Bytes) : (n i : ℕ) → ℤ
  | 0, _ => 0
  | n + 1, i =>
    if p i ≠ 0 ∧ p i = q i then strncmp p q n (i + 1) else (p i).toNat - (q i).toNat

def namecmp (s t : Bytes) : ℤ := strncmp s t DIRSIZ 0

theorem strncmp_congr {p q q' : Bytes} : ∀ {n i : ℕ}, (∀ k, k < i + n → q k = q' k) →
    strncmp p q n i = strncmp p q' n i
  | 0, _, _ => rfl
  | n + 1, i, h => by
    have hrec : strncmp p q n (i + 1) = strncmp p q' n (i + 1) :=
      strncmp_congr fun k hk => h k (by omega)
    rw [strncmp, strncmp, h i (by omega), hrec]

/-- `strncpy` : nothing but zeros after the end of `t`. -/
def strncpy (t : Bytes) : Bytes := fun k => if (List.range k).all fun j => t j ≠ 0 then t k else 0

/-- The string of the bytes `l`. -/
def cstring (l : List UInt8) : Bytes := fun k => l.getD k 0

def dot : Bytes := cstring [46]
def dotdot : Bytes := cstring [46, 46]

/-! ## Entries -/

/-- `de.inum`, an `ushort` -/
def Bytes.inum (de : Bytes) : ℕ := (de 0).toNat + 2 ^ 8 * (de 1).toNat

/-- `de.name` -/
def Bytes.name (de : Bytes) : Bytes := fun k => de (2 + k)

/-- `de` with the inode number `inum` and the name `name`. -/
def dirent (inum : ℕ) (name : Bytes) : Bytes
  | 0 => UInt8.ofNat inum
  | 1 => UInt8.ofNat (inum / 2 ^ 8)
  | k + 2 => strncpy name k

theorem dirent_inum {inum : ℕ} {name : Bytes} : (dirent inum name).inum = inum % 2 ^ 16 := by
  simp only [Bytes.inum, dirent, UInt8.toNat_ofNat']
  omega

/-- A buffer of the kernel. -/
def kernel (b : Bytes) : Mem := ⟨b, fun _ => true⟩

namespace Fs

variable (L : FsLayout)

/-- `readi` of the entry at `off`. -/
def readDirent (dp : Fin NINODE) (off : ℕ) : FsM Bytes := do
  let (r, de) ← readi L dp (kernel fun _ => 0) off DIRENT
  if r = some DIRENT then pure de else throw .dirRead

/-- The loop of `dirlookup`, with `fuel` rounds left. -/
def lookupLoop (dp : Fin NINODE) (name : Bytes) : (fuel off : ℕ) → FsM (Option (Fin NINODE × ℕ))
  | 0, _ => pure none
  | fuel + 1, off => do
    let s ← get
    if off < (s.itable dp).d.size then do
      let de ← readDirent L dp off
      if de.inum ≠ 0 ∧ namecmp name de.name = 0 then do
        let ip ← iget de.inum
        pure (some (ip, off))
      else lookupLoop dp name fuel (off + DIRENT)
    else pure none

/-- `dirlookup` : the inode of the entry, and its offset. -/
def dirlookup (dp : Fin NINODE) (name : Bytes) : FsM (Option (Fin NINODE × ℕ)) := do
  let s ← get
  if (s.itable dp).d.type = .dir then
    lookupLoop L dp name ((s.itable dp).d.size / DIRENT + 1) 0
  else throw .notDir

/-- The offset of the first empty entry from `off` on, or the size of the directory. -/
def emptyLoop (dp : Fin NINODE) : (fuel off : ℕ) → FsM ℕ
  | 0, off => pure off
  | fuel + 1, off => do
    let s ← get
    if off < (s.itable dp).d.size then do
      let de ← readDirent L dp off
      if de.inum = 0 then pure off else emptyLoop dp fuel (off + DIRENT)
    else pure off

/-- The second half of `dirlink`, for a name that is not there : whether the entry was
written. -/
def dirappend (dp : Fin NINODE) (name : Bytes) (inum : ℕ) : FsM Bool := do
  let s ← get
  let off ← emptyLoop L dp ((s.itable dp).d.size / DIRENT + 1) 0
  let r ← writei L dp (kernel (dirent inum name)) off DIRENT
  pure (r = some DIRENT)

/-- `sys_unlink` clears the entry at `off`. -/
def erase (dp : Fin NINODE) (off : ℕ) : FsM Unit := do
  let r ← writei L dp (kernel fun _ => 0) off DIRENT
  if r = some DIRENT then pure () else throw .writei

def emptyFrom (dp : Fin NINODE) : (fuel off : ℕ) → FsM Bool
  | 0, _ => pure true
  | fuel + 1, off => do
    let s ← get
    if off < (s.itable dp).d.size then do
      let de ← readDirent L dp off
      if de.inum ≠ 0 then pure false else emptyFrom dp fuel (off + DIRENT)
    else pure true

/-- Is the directory empty except for "." and ".." ? -/
def isdirempty (dp : Fin NINODE) : FsM Bool := do
  let s ← get
  emptyFrom L dp ((s.itable dp).d.size / DIRENT + 1) (2 * DIRENT)

/-! ## Fields of an inode -/

/-- A value stored in a `short`. -/
def short (x : ℤ) : ℤ := (x + 2 ^ 15) % 2 ^ 16 - 2 ^ 15

/-- A change to the inode, written back. -/
def change (ip : Fin NINODE) (f : Dinode → Dinode) : FsM Unit := do
  modify fun s => s.setD ip f
  iupdate L ip

end Fs

end Xv6
