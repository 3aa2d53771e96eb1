import Xv6.Dirent
import Xv6.Threads

/-!
# System calls on files

`namex`, `create` and the system calls of `sysfile.c` that name a file, as programs whose
actions are the functions of `Inode` and `Dirent`. A process holds the lock of an inode from
`ilock` to `iunlock` ; an `ilock` of an inode that is locked has no step.

A process keeps its open files. Whether `filealloc` finds an entry in the table of open files is
left open (`full`).
-/

namespace Xv6

open Function

def ROOTINO : ℕ := 1
def NOFILE : ℕ := 16
def NDEV : ℤ := 10

/-! ## Actions -/

/-- The changes to the fields of an inode, each followed by `iupdate`. -/
inductive Edit
  /-- `create` of an inode -/
  | init (major minor : ℤ)
  /-- `ip->nlink = 0` -/
  | clear
  /-- `ip->nlink += k` -/
  | add (k : ℤ)

def Edit.apply (d : Dinode) : Edit → Dinode
  | .init major minor => { d with major := Fs.short major, minor := Fs.short minor, nlink := 1 }
  | .clear => { d with nlink := 0 }
  | .add k => { d with nlink := Fs.short (d.nlink + k) }

inductive FsAct
  | iget (inum : ℕ)
  | idup (ip : Fin NINODE)
  | ilock (ip : Fin NINODE)
  | iunlock (ip : Fin NINODE)
  | iputTest (ip : Fin NINODE)
  | iputFree (ip : Fin NINODE)
  | iputDrop (ip : Fin NINODE)
  | ialloc (type : FileType)
  /-- read fields of the inode -/
  | peek (ip : Fin NINODE)
  | change (ip : Fin NINODE) (e : Edit)
  | itrunc (ip : Fin NINODE)
  | readi (ip : Fin NINODE) (dst : Mem) (off n : ℕ)
  | writei (ip : Fin NINODE) (src : Mem) (off n : ℕ)
  | dirlookup (dp : Fin NINODE) (name : Bytes)
  | dirappend (dp : Fin NINODE) (name : Bytes) (inum : ℕ)
  | isdirempty (dp : Fin NINODE)
  | erase (dp : Fin NINODE) (off : ℕ)
  | panic (e : FsPanic)

/-- What an action returns. -/
@[reducible] def FsAct.Res : FsAct → Type
  | .iget _ => Fin NINODE
  | .iputTest _ => Bool
  | .ialloc _ => Option ℕ
  | .peek _ => Inode
  | .readi .. => Option ℕ × Bytes
  | .writei .. => Option ℕ
  | .dirlookup .. => Option (Fin NINODE × ℕ)
  | .dirappend .. => Bool
  | .isdirempty _ => Bool
  | _ => Unit

def FsAct.run (L : FsLayout) : (a : FsAct) → FsM a.Res
  | .iget inum => Fs.iget inum
  | .idup ip => Fs.idup ip
  | .ilock ip => Fs.ilock L ip
  | .iunlock ip => Fs.iunlock ip
  | .iputTest ip => Fs.iputTest ip
  | .iputFree ip => Fs.iputFree L ip
  | .iputDrop ip => Fs.iputDrop ip
  | .ialloc type => Fs.iallocLoop L type
  | .peek ip => (fun s => s.itable ip) <$> get
  | .change ip e => Fs.change L ip e.apply
  | .itrunc ip => Fs.itrunc L ip
  | .readi ip dst off n => Fs.readi L ip dst off n
  | .writei ip src off n => Fs.writei L ip src off n
  | .dirlookup dp name => Fs.dirlookup L dp name
  | .dirappend dp name inum => Fs.dirappend L dp name inum
  | .isdirempty dp => Fs.isdirempty L dp
  | .erase dp off => Fs.erase L dp off
  | .panic e => throw e

/-- What a process does in a system call. -/
abbrev Sys := Ctl FsAct FsAct.Res

namespace Sys

abbrev act (a : FsAct) : Sys a.Res := Ctl.call a

def iget (inum : ℕ) : Sys (Fin NINODE) := act (.iget inum)
def idup (ip : Fin NINODE) : Sys Unit := act (.idup ip)
def ilock (ip : Fin NINODE) : Sys Unit := act (.ilock ip)
def iunlock (ip : Fin NINODE) : Sys Unit := act (.iunlock ip)
def peek (ip : Fin NINODE) : Sys Inode := act (.peek ip)
def change (ip : Fin NINODE) (e : Edit) : Sys Unit := act (.change ip e)
def itrunc (ip : Fin NINODE) : Sys Unit := act (.itrunc ip)
def dirlookup (dp : Fin NINODE) (name : Bytes) : Sys (Option (Fin NINODE × ℕ)) :=
  act (.dirlookup dp name)
def isdirempty (dp : Fin NINODE) : Sys Bool := act (.isdirempty dp)

/-- `iput` : the last reference to an inode without links frees it. -/
def iput (ip : Fin NINODE) : Sys Unit := do
  if ← act (.iputTest ip) then do
    act (.iputFree ip)
    act (.iputDrop ip)
  else pure ()

def iunlockput (ip : Fin NINODE) : Sys Unit := do
  iunlock ip
  iput ip

def ialloc (type : FileType) : Sys (Option (Fin NINODE)) := do
  match ← act (.ialloc type) with
  | some inum => some <$> iget inum
  | none => pure none

/-- `dirlink` : whether the entry was written. -/
def dirlink (dp : Fin NINODE) (name : Bytes) (inum : ℕ) : Sys Bool := do
  match ← dirlookup dp name with
  | some (ip, _) => do
    iput ip
    pure false
  | none => act (.dirappend dp name inum)

/-! ## Paths -/

/-- `skipelem`, for a path without the `0` at its end : the rest of the path and the name. -/
def skipelem (path : List UInt8) : Option (List UInt8 × Bytes) :=
  match path.dropWhile (· = 47) with
  | [] => none
  | c :: l =>
    some ((((c :: l).dropWhile (· ≠ 47)).dropWhile (· = 47)),
      cstring (((c :: l).takeWhile (· ≠ 47)).take DIRSIZ))

/-- A name is taken off the path. -/
theorem skipelem_length {path rest : List UInt8} {name : Bytes}
    (h : skipelem path = some (rest, name)) : rest.length < path.length := by
  unfold skipelem at h
  split at h
  · cases h
  · rename_i x l hpath
    cases h
    have hle := (List.dropWhile_suffix (· = 47) (l := path)).length_le
    rw [hpath] at hle
    have hx : x ≠ 47 := by
      intro hx
      have := List.head?_dropWhile_not (· = 47) path
      simp [hpath, hx] at this
    have h1 := (List.dropWhile_suffix (· = 47) (l := (x :: l).dropWhile (· ≠ 47))).length_le
    have h2 : ((x :: l).dropWhile (· ≠ 47)).length ≤ l.length := by
      rw [List.dropWhile_cons_of_pos (by simpa using hx)]
      exact (List.dropWhile_suffix _).length_le
    simp only [List.length_cons] at hle
    omega

/-- The loop of `namex`, with `fuel` rounds left. -/
def namexLoop (parent : Bool) :
    (fuel : ℕ) → List UInt8 → Fin NINODE → Sys (Option (Fin NINODE × Bytes))
  | 0, _, _ => pure none
  | fuel + 1, path, ip =>
    match skipelem path with
    | none =>
      if parent then do
        iput ip
        pure none
      else pure (some (ip, fun _ => 0))
    | some (path, name) => do
      ilock ip
      let x ← peek ip
      if x.d.type ≠ .dir then do
        iunlockput ip
        pure none
      else if parent ∧ path = [] then do
        iunlock ip
        pure (some (ip, name))
      else do
        match ← dirlookup ip name with
        | none => do
          iunlockput ip
          pure none
        | some (next, _) => do
          iunlockput ip
          namexLoop parent fuel path next

/-- `namex` : the inode of the path, or of its parent with the last name. -/
def namex (cwd : Fin NINODE) (path : List UInt8) (parent : Bool) :
    Sys (Option (Fin NINODE × Bytes)) := do
  if path.head? = some 47 then do
    let ip ← iget ROOTINO
    namexLoop parent (path.length + 1) path ip
  else do
    idup cwd
    namexLoop parent (path.length + 1) path cwd

def namei (cwd : Fin NINODE) (path : List UInt8) : Sys (Option (Fin NINODE)) :=
  (Option.map Prod.fst) <$> namex cwd path false

def nameiparent (cwd : Fin NINODE) (path : List UInt8) : Sys (Option (Fin NINODE × Bytes)) :=
  namex cwd path true

/-! ## System calls -/

/-- The entries of a new directory, the second only after the first. -/
def linkDots (ip dp : Fin NINODE) : Sys Bool := do
  let x ← peek ip
  if ← dirlink ip dot x.inum then do
    let y ← peek dp
    dirlink ip dotdot y.inum
  else pure false

/-- The rest of `create` once there is an inode. It returns the inode locked. -/
def createIn (dp ip : Fin NINODE) (name : Bytes) (type : FileType) (major minor : ℤ) :
    Sys (Option (Fin NINODE)) := do
  ilock ip
  change ip (.init major minor)
  let dots ← if type = .dir then linkDots ip dp else pure true
  let x ← peek ip
  let ok ← if dots then dirlink dp name x.inum else pure false
  if ok then do
    if type = .dir then change dp (.add 1) else pure ()
    iunlockput dp
    pure (some ip)
  else do
    change ip .clear
    iunlockput ip
    iunlockput dp
    pure none

/-- `create` : the inode is locked. -/
def create (cwd : Fin NINODE) (path : List UInt8) (type : FileType) (major minor : ℤ) :
    Sys (Option (Fin NINODE)) := do
  match ← nameiparent cwd path with
  | none => pure none
  | some (dp, name) => do
    ilock dp
    match ← dirlookup dp name with
    | some (ip, _) => do
      iunlockput dp
      ilock ip
      let x ← peek ip
      if type = .file ∧ (x.d.type = .file ∨ x.d.type = .device) then pure (some ip)
      else do
        iunlockput ip
        pure none
    | none => do
      match ← ialloc type with
      | none => do
        iunlockput dp
        pure none
      | some ip => createIn dp ip name type major minor

/-- `sys_link` once `old` is found. -/
def linkTo (cwd ip : Fin NINODE) (new : List UInt8) : Sys ℤ := do
  let bad : Sys ℤ := do
    ilock ip
    change ip (.add (-1))
    iunlockput ip
    pure (-1)
  match ← nameiparent cwd new with
  | none => bad
  | some (dp, name) => do
    ilock dp
    let x ← peek ip
    if ← dirlink dp name x.inum then do
      iunlockput dp
      iput ip
      pure 0
    else do
      iunlockput dp
      bad

def link (cwd : Fin NINODE) (old new : List UInt8) : Sys ℤ := do
  match ← namei cwd old with
  | none => pure (-1)
  | some ip => do
    ilock ip
    let x ← peek ip
    if x.d.type = .dir then do
      iunlockput ip
      pure (-1)
    else do
      change ip (.add 1)
      iunlock ip
      linkTo cwd ip new

/-- `sys_unlink` of the entry at `off` of `dp`, for `ip`. -/
def unlinkAt (dp ip : Fin NINODE) (off : ℕ) : Sys ℤ := do
  ilock ip
  let x ← peek ip
  if x.d.nlink < 1 then do
    act (.panic .nlink)
    pure (-1)
  else do
    let empty ← if x.d.type = .dir then isdirempty ip else pure true
    if empty then do
      act (.erase dp off)
      if x.d.type = .dir then change dp (.add (-1)) else pure ()
      iunlockput dp
      change ip (.add (-1))
      iunlockput ip
      pure 0
    else do
      iunlockput ip
      iunlockput dp
      pure (-1)

def unlink (cwd : Fin NINODE) (path : List UInt8) : Sys ℤ := do
  match ← nameiparent cwd path with
  | none => pure (-1)
  | some (dp, name) => do
    ilock dp
    if namecmp name dot = 0 ∨ namecmp name dotdot = 0 then do
      iunlockput dp
      pure (-1)
    else do
      match ← dirlookup dp name with
      | none => do
        iunlockput dp
        pure (-1)
      | some (ip, off) => unlinkAt dp ip off

end Sys

/-! ## Processes -/

/-- `struct file`, for an inode. -/
structure OpenFile where
  ip : Fin NINODE
  readable : Bool
  writable : Bool
  off : ℕ
  /-- `FD_DEVICE`, not `FD_INODE` -/
  device : Bool

/-- The open files of a process. -/
structure Local where
  ofile : Fin NOFILE → Option OpenFile

namespace Sys

def fdalloc (l : Local) : Option (Fin NOFILE) :=
  (List.finRange NOFILE).find? fun fd => (l.ofile fd).isNone

/-- `sys_open` with the inode locked. -/
def openInode (l : Local) (ip : Fin NINODE) (omode : ℕ) (full : Bool) : Sys (Local × ℤ) := do
  let x ← peek ip
  if x.d.type = .device ∧ (x.d.major < 0 ∨ NDEV ≤ x.d.major) then do
    iunlockput ip
    pure (l, -1)
  else
    match if full then none else fdalloc l with
    | none => do
      iunlockput ip
      pure (l, -1)
    | some fd => do
      if omode.testBit 10 ∧ x.d.type = .file then itrunc ip else pure ()
      iunlock ip
      let l' : Local := { l with
        ofile := update l.ofile fd (some {
          ip := ip
          readable := !omode.testBit 0
          writable := omode.testBit 0 || omode.testBit 1
          off := 0
          device := x.d.type = .device }) }
      pure (l', fd.val)

def sys_open (l : Local) (cwd : Fin NINODE) (path : List UInt8) (omode : ℕ) (full : Bool) :
    Sys (Local × ℤ) := do
  if omode.testBit 9 then
    match ← create cwd path .file 0 0 with
    | none => pure (l, -1)
    | some ip => openInode l ip omode full
  else
    match ← namei cwd path with
    | none => pure (l, -1)
    | some ip => do
      ilock ip
      let x ← peek ip
      if x.d.type = .dir ∧ omode ≠ 0 then do
        iunlockput ip
        pure (l, -1)
      else openInode l ip omode full

/-- `sys_mkdir` and `sys_mknod`. -/
def make (cwd : Fin NINODE) (path : List UInt8) (type : FileType) (major minor : ℤ) : Sys ℤ := do
  match ← create cwd path type major minor with
  | none => pure (-1)
  | some ip => do
    iunlockput ip
    pure 0

end Sys

end Xv6
