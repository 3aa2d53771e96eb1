import Mathlib.Data.List.TakeWhile
import Xv6.MkfsSpec

/-!
# The kernel on the image of mkfs

`mkfs` and the kernel each have their own code for the blocks of a file, the place of an inode
and the names in a directory. Here the kernel's `namei`, `ilock` and `readi` run on the image
that `mkfs` wrote (`Mkfs.mount`), and find the files with their contents (`mkfs_mount`).

The names have to be distinct and also other than "." and "..", which the root directory
already has : `mkfs` takes the host file `_.` for ".", and the kernel then finds the root
(`mkfs_mount_dot`).
-/

namespace Xv6

open Function Prog

/-! ## Names -/

/-- A file name of the file system. -/
structure Nameable (nm : List UInt8) : Prop where
  nonempty : nm ≠ []
  slash : 47 ∉ nm
  zero : 0 ∉ nm
  short : nm.length ≤ DIRSIZ

variable {l : List UInt8}

theorem cstring_of_lt {k : ℕ} (h : k < l.length) (h0 : 0 ∉ l) : cstring l k ≠ 0 := by
  simp only [cstring, List.getD_eq_getElem _ _ h]
  exact fun heq => h0 (heq ▸ List.getElem_mem h)

theorem cstring_of_le {k : ℕ} (h : l.length ≤ k) : cstring l k = 0 :=
  List.getD_eq_default _ _ h

/-- A string ends at its first zero. -/
theorem strncpy_cstring (h0 : 0 ∉ l) : strncpy (cstring l) = cstring l := by
  funext k
  unfold strncpy
  split
  · rfl
  · rename_i h
    refine (cstring_of_le (Nat.not_lt.mp fun hk => h ?_)).symm
    simp only [List.all_eq_true, List.mem_range, decide_eq_true_eq]
    exact fun j hj => cstring_of_lt (hj.trans hk) h0

theorem strncmp_self (p : Bytes) : ∀ n i, strncmp p p n i = 0
  | 0, _ => rfl
  | n + 1, i => by
    rw [strncmp]
    split
    · exact strncmp_self p n (i + 1)
    · omega

/-- Strings that compare equal agree up to the end of the first. -/
theorem strncmp_eq_zero {p q : Bytes} : ∀ {n i : ℕ}, strncmp p q n i = 0 → ∀ k, i ≤ k →
    k < i + n → (∀ j, i ≤ j → j < k → p j ≠ 0) → p k = q k
  | 0, i, _, k, hik, hk, _ => by omega
  | n + 1, i, h, k, hik, hk, hpre => by
    rw [strncmp] at h
    split at h
    · rename_i hc
      rcases hik.eq_or_lt with rfl | hlt
      · exact hc.2
      · exact strncmp_eq_zero h k hlt (by omega) fun j hj => hpre j (by omega)
    · rename_i hc
      have heq : p i = q i := UInt8.toNat_inj.mp (by omega)
      have hi0 : p i = 0 := by
        by_contra h0
        exact hc ⟨h0, heq⟩
      obtain rfl : k = i := by
        by_contra hne
        exact hpre i le_rfl (by omega) hi0
      exact heq

/-- `namecmp` tells names apart. -/
theorem namecmp_cstring {a b : List UInt8} (ha : Nameable a) (hb : Nameable b) :
    namecmp (cstring a) (cstring b) = 0 ↔ a = b := by
  constructor
  · intro h
    have hagree : ∀ k, k ≤ a.length → k < DIRSIZ → cstring a k = cstring b k := fun k hk hlt =>
      strncmp_eq_zero h k (Nat.zero_le _) (by omega) fun j _ hj =>
        cstring_of_lt (by omega) ha.zero
    have hlen : a.length = b.length := by
      have hle : a.length ≤ b.length := by
        by_contra hlt
        have heq := hagree b.length (by omega) (by have := ha.short; omega)
        rw [cstring_of_le le_rfl] at heq
        exact cstring_of_lt (by omega) ha.zero heq
      refine hle.antisymm (Nat.not_lt.mp fun hlt => ?_)
      have heq := hagree a.length le_rfl (by have := hb.short; omega)
      rw [cstring_of_le le_rfl] at heq
      exact cstring_of_lt hlt hb.zero heq.symm
    refine List.ext_getElem hlen fun k hk hk' => ?_
    have heq := hagree k hk.le (by have := ha.short; omega)
    simpa only [cstring, List.getD_eq_getElem _ _ hk, List.getD_eq_getElem _ _ hk'] using heq
  · rintro rfl
    exact strncmp_self _ _ _

/-- `skipelem` of a path with one name. -/
theorem skipelem_name {nm : List UInt8} (h : Nameable nm) :
    Sys.skipelem (47 :: nm) = some ([], cstring nm) := by
  obtain ⟨c, l, rfl⟩ := List.exists_cons_of_ne_nil h.nonempty
  have hne : ∀ x ∈ c :: l, x ≠ 47 := fun x hx heq => h.slash (heq ▸ hx)
  have hdrop : (47 :: c :: l).dropWhile (fun x => decide (x = 47)) = c :: l := by
    simp [hne c (by simp)]
  have hall : ∀ x ∈ c :: l, decide (x ≠ 47) = true := fun x hx => decide_eq_true (hne x hx)
  have hrest : (c :: l).dropWhile (fun x => decide (x ≠ 47)) = [] :=
    List.dropWhile_eq_nil_iff.mpr hall
  have htake : (c :: l).takeWhile (fun x => decide (x ≠ 47)) = c :: l :=
    List.takeWhile_eq_self_iff.mpr hall
  simp only [Sys.skipelem, hdrop]
  rw [hrest, htake, List.take_of_length_le h.short]
  rfl

/-! ## The entries of the root directory -/

/-- The names in the root directory. -/
def rootNames (files : List HostFile) : List (List UInt8) :=
  [46] :: [46, 46] :: files.map HostFile.shortname

/-- The inode number of entry `j`. -/
def rootInum (j : ℕ) : ℕ := if j < 2 then ROOTINO else j

theorem rootNames_snoc (files : List HostFile) (f : HostFile) :
    rootNames (files ++ [f]) = rootNames files ++ [f.shortname] := by
  simp [rootNames]

theorem rootNames_length (files : List HostFile) : (rootNames files).length = files.length + 2 := by
  simp [rootNames]

theorem rootBytes_getD {files : List HostFile} {j k : ℕ} {nm : List UInt8}
    (hj : (rootNames files)[j]? = some nm) (hk : k < DIRENT) :
    (rootBytes files).getD (j * DIRENT + k) 0 = dirent (rootInum j) (cstring nm) k := by
  induction files using List.reverseRecOn with
  | nil =>
    match j with
    | 0 =>
      obtain rfl : [46] = nm := by simpa [rootNames] using hj
      rw [rootBytes, List.append_assoc, List.getD_append _ _ _ _ (by simpa [entryBytes_length]),
        Nat.zero_mul, Nat.zero_add, entryBytes_getD hk]
      rfl
    | 1 =>
      obtain rfl : [46, 46] = nm := by simpa [rootNames] using hj
      rw [rootBytes, List.append_assoc,
        List.getD_append_right _ _ _ _ (by simp [entryBytes_length]),
        List.getD_append _ _ _ _ (by simp [entryBytes_length, hk]), entryBytes_length,
        Nat.one_mul, Nat.add_sub_cancel_left, entryBytes_getD hk]
      rfl
    | j + 2 => simp [rootNames] at hj
  | append_singleton files f ih =>
    rw [rootNames_snoc] at hj
    have hlt := (List.getElem?_eq_some_iff.mp hj).1
    rw [List.length_append, List.length_singleton, rootNames_length] at hlt
    rw [rootBytes_snoc]
    by_cases hlast : j < files.length + 2
    · rw [List.getElem?_append_left (by rwa [rootNames_length])] at hj
      rw [List.getD_append _ _ _ _ ?_]
      · exact ih hj
      · rw [rootBytes_length]
        calc j * DIRENT + k < (j + 1) * DIRENT := by rw [Nat.add_one_mul]; omega
          _ ≤ (files.length + 2) * DIRENT := Nat.mul_le_mul_right _ hlast
    · obtain rfl : j = files.length + 2 := by omega
      rw [List.getElem?_append_right (by rw [rootNames_length]), rootNames_length, Nat.sub_self]
        at hj
      obtain rfl : f.shortname = nm := by simpa using hj
      rw [List.getD_append_right _ _ _ _ (by rw [rootBytes_length]; omega), rootBytes_length,
        Nat.add_sub_cancel_left, entryBytes_getD hk, rootInum, if_neg (by omega)]

namespace Fs

variable {L : FsLayout} {E : FsPanic → Prop} {t : Fs} {ip dp : Fin NINODE}

/-- The inode begins with the bytes `l`. -/
structure Shows (t : Fs) (ip : Fin NINODE) (l : List UInt8) : Prop where
  size : l.length ≤ (t.itable ip).d.size
  mapped : ∀ bn, bn * BSIZE < l.length → t.slot ip (Dinode.index bn) ≠ 0
  bytes : ∀ o, o < l.length → t.byte ip o = l.getD o 0

theorem Shows.readDirent {l : List UInt8} (h : t.Shows dp l) {off : ℕ}
    (hoff : off + DIRENT ≤ l.length) (hlt : l.length < 2 ^ 32) {Q : Bytes → Fs → Prop}
    (hQ : ∀ de, (∀ k, k < DIRENT → de k = l.getD (off + k) 0) → Q de t) :
    wp E (readDirent L dp off) Q t := by
  have hsize := h.size
  have hmin : min (off + DIRENT) (t.itable dp).d.size = off + DIRENT := by omega
  refine (readi_exact (fun _ => rfl) (by omega) fun bn hbn => ?_).bind ?_
  · rw [hmin] at hbn
    exact h.mapped bn (hbn.trans_le hoff)
  · rintro ⟨r, de⟩ t' ⟨rfl, hr, hde⟩
    rw [hmin, Nat.add_sub_cancel_left] at hr hde
    simp only at hr hde
    simp only [hr, if_true, wp_pure]
    refine hQ de fun k hk => ?_
    rw [hde, if_pos hk, h.bytes _ (by omega)]

section Lookup

variable {files : List HostFile} (h : t.Shows dp (rootBytes files))
  (hlen : files.length + 2 ≤ NINODES) (hname : ∀ nm ∈ rootNames files, Nameable nm)
  {j : ℕ} {nm : List UInt8} (hj : (rootNames files)[j]? = some nm)
  (hfirst : ∀ i, i < j → (rootNames files)[i]? ≠ some nm)
  {Q : Option (Fin NINODE × ℕ) → Fs → Prop}
  (hQ : wp E (iget (rootInum j)) (fun ip => Q (some (ip, j * DIRENT))) t)
include h hlen hname hj hfirst hQ

theorem Shows.lookupLoop : ∀ fuel i, i ≤ j → j < i + fuel →
    wp E (lookupLoop L dp (cstring nm) fuel (i * DIRENT)) Q t
  | 0, i, hij, hlt => by omega
  | fuel + 1, i, hij, hlt => by
    have hjlt := (List.getElem?_eq_some_iff.mp hj).1
    rw [rootNames_length] at hjlt
    obtain ⟨nm', hi⟩ : ∃ nm', (rootNames files)[i]? = some nm' :=
      ⟨_, List.getElem?_eq_getElem (by rw [rootNames_length]; omega)⟩
    have hmem := List.mem_of_getElem? hi
    have hsize := h.size
    have hend : i * DIRENT + DIRENT ≤ (rootBytes files).length := by
      rw [rootBytes_length, ← Nat.add_one_mul]
      exact Nat.mul_le_mul_right _ (by omega)
    have hsmall : (rootBytes files).length < 2 ^ 32 := by
      rw [rootBytes_length]
      unfold NINODES at hlen
      unfold DIRENT
      omega
    have hoff : i * DIRENT < (t.itable dp).d.size := by
      have : 0 < DIRENT := by decide
      omega
    simp only [Fs.lookupLoop, wp_bind, wp_get, if_pos hoff]
    refine h.readDirent hend hsmall fun de hde => ?_
    -- the entry that was read is the one that `mkfs` wrote
    have hentry : ∀ k, k < DIRENT → de k = dirent (rootInum i) (cstring nm') k := fun k hk =>
      (hde k hk).trans (rootBytes_getD hi hk)
    have hinum : de.inum = rootInum i := by
      have hmod : rootInum i % 2 ^ 16 = rootInum i := by
        unfold NINODES at hlen
        unfold rootInum ROOTINO
        split <;> omega
      rw [← hmod, ← dirent_inum, Bytes.inum, hentry 0 (by decide), hentry 1 (by decide)]
      rfl
    have hcmp : namecmp (cstring nm) de.name = namecmp (cstring nm) (cstring nm') :=
      strncmp_congr fun k hk => by
        rw [Nat.zero_add] at hk
        rw [Bytes.name, hentry (2 + k) (by unfold DIRSIZ at hk; unfold DIRENT; omega), Nat.add_comm]
        exact congrFun (strncpy_cstring (hname nm' hmem).zero) k
    have hne : rootInum i ≠ 0 := by
      unfold rootInum ROOTINO
      split <;> omega
    simp only [hinum, hcmp, namecmp_cstring (hname nm (List.mem_of_getElem? hj)) (hname nm' hmem),
      wp_ite]
    by_cases heq : nm = nm'
    · obtain rfl : i = j := by
        refine hij.eq_or_lt.resolve_right fun hlt' => hfirst i hlt' ?_
        rw [hi, heq]
      rw [if_pos ⟨hne, heq⟩]
      exact wp_bind.mpr hQ
    · rw [if_neg fun h => heq h.2, ← Nat.add_one_mul]
      refine Shows.lookupLoop fuel (i + 1) ?_ (by omega)
      refine hij.lt_of_ne fun hij' => heq ?_
      subst hij'
      exact Option.some.inj (hj.symm.trans hi)

/-- `dirlookup` in the root directory finds the entry of the name. -/
theorem Shows.dirlookup (hdir : (t.itable dp).d.type = .dir) :
    wp E (dirlookup L dp (cstring nm)) Q t := by
  have hjlt := (List.getElem?_eq_some_iff.mp hj).1
  have hsize := h.size
  rw [rootNames_length] at hjlt
  rw [rootBytes_length] at hsize
  have hfuel : j < (t.itable dp).d.size / DIRENT + 1 := by
    unfold DIRENT at hsize ⊢
    omega
  simp only [Fs.dirlookup, wp_bind, wp_get, if_pos hdir]
  have hloop := h.lookupLoop (L := L) hlen hname hj hfirst hQ ((t.itable dp).d.size / DIRENT + 1) 0
    (Nat.zero_le j) (by rwa [Nat.zero_add])
  rwa [Nat.zero_mul] at hloop

end Lookup

end Fs

/-! ## Paths -/

/-- `namei` of a path from the root, and `ilock` of the inode. -/
def openPath (path : List UInt8) : Sys (Option (Fin NINODE)) := do
  match ← Sys.namei ⟨0, NINODE_pos⟩ path with
  | none => pure none
  | some ip => do
    Sys.ilock ip
    pure (some ip)

namespace Mkfs

variable {F : MkfsConf} {s : Mkfs} {E : FsPanic → Prop}

/-- The file system of the image, with the inodes `t` in memory. -/
def mountWith (F : MkfsConf) (s : Mkfs) (t : Fin NINODE → Inode) : Fs :=
  { s.mount F with itable := t }

/-- No inode in memory. -/
def noInode : Inode := ⟨0, 0, false, false, .fresh .none⟩

section Table

variable {t : Fin NINODE → Inode} {ip : Fin NINODE} {i r : ℕ} {v : Bool} {d : Dinode}

/-- `iget` counts one more reference to the entry of the inode, or takes an empty entry. -/
theorem iget_mount {Q : Fin NINODE → Fs → Prop} (hfree : ∃ q, (t q).ref = 0)
    (hhit : ∀ ip, 0 < (t ip).ref → (t ip).inum = i →
      Q ip (s.mountWith F (update t ip { t ip with ref := (t ip).ref + 1 })))
    (hnew : (∀ q, 0 < (t q).ref → (t q).inum ≠ i) → ∀ ip, (t ip).ref = 0 →
      Q ip (s.mountWith F (update t ip { t ip with inum := i, ref := 1, valid := false }))) :
    wp E (Fs.iget i) Q (s.mountWith F t) := by
  obtain ⟨q, hq⟩ := hfree
  exact Fs.iget_rule hhit hnew fun hfull => absurd hq (hfull q)

variable {Q : Unit → Fs → Prop}

/-- `ilock` of an inode, whose copy is right if there is one. -/
theorem ilock_mount (hx : t ip = ⟨i, r + 1, v, false, d⟩) (hi : i < NINODES)
    (htype : (s.dinode F i).type ≠ .none) (hd : v = true → d = s.dinode F i)
    (hQ : Q () (s.mountWith F (update t ip ⟨i, r + 1, true, true, s.dinode F i⟩))) :
    wp E (Fs.ilock F.layout ip) Q (s.mountWith F t) := by
  have hi' : ¬ F.layout.ninodes ≤ i := Nat.not_le.mpr hi
  have hfields : (s.mountWith F t).itable ip = ⟨i, r + 1, v, false, d⟩ := hx
  simp only [Fs.ilock, Fs.lock, Fs.load, wp_bind, wp_get, wp_ite, Fs.acquiresleep, hfields,
    wp_modify, wp_pure]
  cases v with
  | true => simpa [Fs.setInode, hd rfl, hx, mountWith] using hQ
  | false => simpa [Fs.setInode, hx, mountWith, mount, hi', htype] using hQ

theorem iunlock_mount (hx : t ip = ⟨i, r + 1, v, true, d⟩)
    (hQ : Q () (s.mountWith F (update t ip ⟨i, r + 1, v, false, d⟩))) :
    wp E (Fs.iunlock ip) Q (s.mountWith F t) := by
  simpa [Fs.iunlock, Fs.releasesleep, Fs.setInode, mountWith, hx] using hQ

/-- `iput` of an inode that has links. -/
theorem iput_mount (hx : t ip = ⟨i, r, v, false, d⟩) (hlink : d.nlink ≠ 0)
    (hQ : Q () (s.mountWith F (update t ip ⟨i, r - 1, v, false, d⟩))) :
    wp E ((Sys.iput ip).exec (FsAct.run F.layout)) Q (s.mountWith F t) := by
  refine Ctl.wp_exec_bind.mpr (Ctl.wp_exec_call.mpr ?_)
  simpa [FsAct.run, Fs.iputTest, Fs.setInode, mountWith, hx, hlink] using hQ

theorem iunlockput_mount (hx : t ip = ⟨i, r + 1, v, true, d⟩) (hlink : d.nlink ≠ 0)
    (hQ : Q () (s.mountWith F (update t ip ⟨i, r, v, false, d⟩))) :
    wp E ((Sys.iunlockput ip).exec (FsAct.run F.layout)) Q (s.mountWith F t) := by
  refine Ctl.wp_exec_bind.mpr (Ctl.wp_exec_call.mpr (iunlock_mount hx ?_))
  refine iput_mount (update_self ..) hlink ?_
  rwa [update_idem]

end Table

/-- The root directory is there, with the entries of the files. -/
structure RootOk (F : MkfsConf) (files : List HostFile) (s : Mkfs) : Prop where
  type : (s.dinode F ROOTINO).type = .dir
  nlink : (s.dinode F ROOTINO).nlink = 1
  live : ∀ i, 1 ≤ i → i < files.length + 2 → (s.dinode F i).type ≠ .none
  shows : ∀ t ip, (t ip).d = s.dinode F ROOTINO → (s.mountWith F t).Shows ip (rootBytes files)

variable {files : List HostFile} {j : ℕ} {nm : List UInt8}

theorem free_entry {x : Inode} (ip : Fin NINODE) :
    ∃ q, (update (fun _ => noInode) ip x q).ref = 0 := by
  have hne : (⟨0, by decide⟩ : Fin NINODE) ≠ ⟨1, by decide⟩ := by decide
  by_cases h : ip = ⟨0, by decide⟩
  · exact ⟨⟨1, by decide⟩, by rw [update_of_ne (h ▸ hne.symm)]; rfl⟩
  · exact ⟨⟨0, by decide⟩, by rw [update_of_ne (Ne.symm h)]; rfl⟩

theorem openPath_spec (h : RootOk F files s) (hlen : files.length + 2 ≤ NINODES)
    (hname : ∀ nm ∈ rootNames files, Nameable nm) (hj : (rootNames files)[j]? = some nm)
    (hfirst : ∀ i, i < j → (rootNames files)[i]? ≠ some nm) :
    wp E ((openPath (47 :: nm)).exec (FsAct.run F.layout)) (fun r t => ∃ ip, r = some ip ∧
      t = s.mountWith F t.itable ∧
      t.itable ip = ⟨rootInum j, 1, true, true, s.dinode F (rootInum j)⟩) (s.mount F) := by
  have hnm := hname nm (List.mem_of_getElem? hj)
  have hroot : (s.dinode F ROOTINO).type ≠ .none := by
    rw [h.type]
    decide
  have hlink : (s.dinode F ROOTINO).nlink ≠ 0 := by
    rw [h.nlink]
    decide
  have hlast : (rootInum j) < NINODES ∧ (s.dinode F (rootInum j)).type ≠ .none := by
    have hjlt := (List.getElem?_eq_some_iff.mp hj).1
    rw [rootNames_length] at hjlt
    unfold rootInum
    split
    · exact ⟨by decide, hroot⟩
    · exact ⟨by omega, h.live j (by omega) hjlt⟩
  refine Ctl.wp_exec_bind.mpr (Ctl.wp_exec_map.mpr ?_)
  have hhead : (47 :: nm).head? = some 47 := rfl
  rw [Sys.namex, if_pos hhead]
  -- `iget` and `ilock` of the root
  refine Ctl.wp_exec_bind.mpr (Ctl.wp_exec_call.mpr (iget_mount (t := fun _ => noInode)
    ⟨⟨0, by decide⟩, rfl⟩ (fun ip href => absurd href (Nat.lt_irrefl 0)) fun _ dp _ => ?_))
  rw [Sys.namexLoop, skipelem_name hnm]
  refine Ctl.wp_exec_bind.mpr (Ctl.wp_exec_call.mpr (ilock_mount (update_self ..) (by decide) hroot
    nofun ?_))
  rw [update_idem]
  refine Ctl.wp_exec_bind.mpr (Ctl.wp_exec_call.mpr ?_)
  have hpeek : update (fun _ => noInode) dp ⟨ROOTINO, 0 + 1, true, true, s.dinode F ROOTINO⟩ dp =
    ⟨ROOTINO, 0 + 1, true, true, s.dinode F ROOTINO⟩ := update_self ..
  generalize htab : update (fun _ => noInode) dp
    ⟨ROOTINO, 0 + 1, true, true, s.dinode F ROOTINO⟩ = t at hpeek ⊢
  have hitable : (s.mountWith F t).itable dp = t dp := rfl
  simp only [FsAct.run, wp_map, wp_get, hitable, hpeek]
  rw [if_neg (not_not.mpr h.type), if_neg fun h => Bool.false_ne_true h.1]
  -- the entry, and the inode of the file
  refine Ctl.wp_exec_bind.mpr (Ctl.wp_exec_call.mpr ((h.shows t dp (by rw [hpeek])).dirlookup
    hlen hname hj hfirst ?_ (by rw [hitable, hpeek]; exact h.type)))
  refine iget_mount (htab ▸ free_entry dp) (fun ip href hinum => ?_) fun hnot ip href => ?_
  · -- "." and ".." : the entry of the root has one more reference for a while
    obtain rfl : ip = dp := by
      by_contra hne
      rw [← htab, update_of_ne hne] at href
      exact absurd href (Nat.lt_irrefl 0)
    rw [hpeek] at hinum ⊢
    refine Ctl.wp_exec_bind.mpr (iunlockput_mount (update_self ..) hlink ?_)
    rw [update_idem]
    have hlt : ROOTINO < NINODES := by decide
    refine Ctl.wp_exec_bind.mpr (Ctl.wp_exec_call.mpr (ilock_mount (update_self ..) hlt hroot
      (fun _ => rfl) ⟨ip, rfl, rfl, ?_⟩))
    rw [← hinum]
    exact update_self ..
  · have hne : ip ≠ dp := by
      rintro rfl
      rw [hpeek] at href
      exact Nat.one_ne_zero href
    have hempty : t ip = noInode := by rw [← htab, update_of_ne hne]
    rw [hempty]
    refine Ctl.wp_exec_bind.mpr (iunlockput_mount ((update_of_ne hne.symm _ _).trans hpeek) hlink
      ?_)
    refine Ctl.wp_exec_bind.mpr (Ctl.wp_exec_call.mpr (ilock_mount (v := false) (d := .fresh .none)
      ?_ hlast.1 hlast.2 nofun ⟨ip, rfl, rfl, update_self ..⟩))
    rw [update_of_ne hne, update_self]
    rfl

/-! ## The image -/

variable {t : Fin NINODE → Inode} {ip : Fin NINODE}

/-- The kernel sees the contents of the inodes. -/
theorem Holds.shows (h : Holds F files s) {i : ℕ} (h1 : 1 ≤ i) (hi : i < s.freeinode)
    (hd : (t ip).d = (finish F s).dinode F i) :
    ((finish F s).mountWith F t).Shows ip (contents files i) := by
  have hslot : ∀ n, ((finish F s).mountWith F t).slot ip n = (s.dinode F i).slot s.image n :=
    fun n => by
      rw [← h.finish_slot h1 hi, ← hd]
      rfl
  have hfile := h.ok.stores h1 hi
  refine ⟨?_, fun bn hbn => ?_, fun o ho => ?_⟩
  · have hsize : (((finish F s).mountWith F t).itable ip).d.size =
        ((finish F s).dinode F i).size := congrArg Dinode.size hd
    rw [hsize, h.finish_size h1 hi]
    split
    · rename_i hroot
      rw [hroot, contents_root, rootBytes_length]
      unfold BSIZE
      omega
    · exact le_rfl
  · have hlt := blocks_lt hbn
    rw [Nat.mul_div_cancel _ (by decide)] at hlt
    rw [hslot]
    exact (hfile.filled _).mpr hlt
  · have huse := h.ok.inUse h1 hi ((hfile.filled _).mpr (blocks_lt ho))
    rw [← hfile.bytes o ho, Fs.byte_eq, hslot]
    exact congrFun (finish_image (F.bmapstart_lt.trans_le huse)) _

theorem Holds.rooted (h : Holds F files s) : RootOk F files (finish F s) := by
  have hfree := h.freeinode
  have htype : ((finish F s).dinode F ROOTINO).type = .dir := by
    rw [h.finish_root]
    exact h.root.type
  refine ⟨htype, ?_, fun i hi1 hi => ?_, fun t ip hd => ?_⟩
  · rw [h.finish_root]
    exact h.root.nlink
  · by_cases hi0 : i = ROOTINO
    · rw [hi0, htype]
      decide
    · rw [finish_dinode ((hfree ▸ hi).trans_le h.ok.last) hi0]
      exact h.ok.live hi1 (hfree ▸ hi)
  · rw [← contents_root]
    exact h.shows le_rfl h.root_lt hd

end Mkfs

/-! ## Mounting -/

/-- `readsb` : the words of the superblock. -/
def readsb (b : Bytes) : List ℕ := (List.range 8).map b.word

theorem readsb_superblock (F : MkfsConf) : readsb (Mkfs.superblock F) =
    [FSMAGIC, F.layout.size, F.nblocks, F.layout.ninodes, F.layout.nlog, F.layout.logstart,
      F.layout.inodestart, F.layout.bmapstart] := by
  generalize hw : [FSMAGIC, F.layout.size, F.nblocks, F.layout.ninodes, F.layout.nlog,
    F.layout.logstart, F.layout.inodestart, F.layout.bmapstart] = words
  have hlt : ∀ x ∈ words, x < 2 ^ 32 := by
    have hsize := F.layout.size_lt
    have hblocks : F.nblocks < 2 ^ 32 := lt_of_le_of_lt (Nat.sub_le _ _) hsize
    have hrest : ∀ x ∈ [FSMAGIC, NINODES, LOGSIZE, 2, 2 + LOGSIZE, 2 + LOGSIZE + ninodeblocks],
        x < 2 ^ 32 := by decide
    simp only [← hw, List.forall_mem_cons] at hrest ⊢
    tauto
  have hlen : words.length = 8 := by rw [← hw]; rfl
  calc readsb (Mkfs.superblock F) = (List.range 8).map fun k => words.getD k 0 := by
        refine List.map_congr_left fun k hk => ?_
        have hk8 : k < words.length := hlen ▸ List.mem_range.mp hk
        rw [Mkfs.superblock, hw]
        refine Bytes.word_ofNat (w := fun k => words.getD k 0) ?_
        rw [List.getD_eq_getElem _ _ hk8]
        exact hlt _ (List.getElem_mem hk8)
    _ = words := by rw [← hw]; rfl

/-- Inode `ip` is a file that contains `l`, and `readi` returns its bytes. -/
structure IsFile (L : FsLayout) (t : Fs) (ip : Fin NINODE) (l : List UInt8) : Prop where
  type : (t.itable ip).d.type = .file
  size : (t.itable ip).d.size = l.length
  read : ∀ dst off n, (∀ k, dst.mapped k = true) → off + n < 2 ^ 32 →
    ∃ buf, Fs.readi L ip dst off n t = .ok ((some (min (off + n) l.length - off), buf), t) ∧
      ∀ k, buf k = if k < min (off + n) l.length - off then l.getD (off + k) 0 else dst.byte k

theorem Fs.Shows.isFile {L : FsLayout} {t : Fs} {ip : Fin NINODE} (h : t.Shows ip l)
    (htype : (t.itable ip).d.type = .file) (hsize : (t.itable ip).d.size = l.length) :
    IsFile L t ip l := by
  refine ⟨htype, hsize, fun dst off n hdst hlt => ?_⟩
  obtain ⟨⟨r, buf⟩, t', hrun, rfl, rfl, hbuf⟩ := (Fs.readi_exact (L := L) hdst hlt fun bn hbn =>
    h.mapped bn (by omega)).returns
  rw [hsize] at hrun hbuf
  refine ⟨buf, hrun, fun k => (hbuf k).trans ?_⟩
  split
  · exact h.bytes _ (by omega)
  · rfl

theorem HostFile.shortname_subset {f : HostFile} : f.shortname ⊆ f.base := by
  unfold shortname
  split
  · exact List.tail_subset _
  · exact List.Subset.refl _

theorem HostFile.base_subset {f : HostFile} : f.base ⊆ f.path := by
  unfold base
  split
  · exact List.drop_subset _ _
  · exact List.Subset.refl _

theorem Fitting.nameable {F : MkfsConf} {files : List HostFile} (hfit : Fitting F files)
    (hne : ∀ f ∈ files, f.shortname ≠ []) : ∀ nm ∈ rootNames files, Nameable nm := by
  intro nm hmem
  simp only [rootNames, List.mem_cons, List.mem_map] at hmem
  rcases hmem with rfl | rfl | ⟨f, hf, rfl⟩
  · exact ⟨by decide, by decide, by decide, by decide⟩
  · exact ⟨by decide, by decide, by decide, by decide⟩
  · obtain ⟨hslash, hshort⟩ := hfit.names f hf
    exact ⟨hne f hf, fun h => hslash (HostFile.shortname_subset h),
      fun h => f.path_ne (HostFile.base_subset (HostFile.shortname_subset h)), hshort⟩

/-- What the kernel finds under the names of an image : the boot code reads the superblock and an
empty log, and then the files and the root are there. -/
structure Mounts (F : MkfsConf) (files : List HostFile) (s : Mkfs) : Prop where
  super : readsb (s.image 1) = [FSMAGIC, F.layout.size, F.nblocks, F.layout.ninodes,
    F.layout.nlog, F.layout.logstart, F.layout.inodestart, F.layout.bmapstart]
  log : (s.image F.layout.logstart).word 0 = 0
  file : ∀ f ∈ files, ∃ ip t,
    (openPath (47 :: f.shortname)).exec (FsAct.run F.layout) (s.mount F) = .ok (some ip, t) ∧
      IsFile F.layout t ip f.bytes
  root : ∀ nm ∈ [[46], [46, 46]], ∃ ip t,
    (openPath (47 :: nm)).exec (FsAct.run F.layout) (s.mount F) = .ok (some ip, t) ∧
      (t.itable ip).inum = ROOTINO

open Mkfs in
/-- `mkfs` and the kernel agree on the format. -/
theorem mkfs_mount {F : MkfsConf} {files : List HostFile} (hfit : Fitting F files)
    (hlen : files.length + 2 ≤ NINODES) (hnodup : (files.map HostFile.shortname).Nodup)
    (hname : ∀ f ∈ files, f.shortname ≠ [] ∧ f.shortname ≠ [46] ∧ f.shortname ≠ [46, 46]) :
    ∃ s, Mkfs.main F files (Mkfs.start F) = .ok ((), s) ∧ Mounts F files s := by
  obtain ⟨s, hs, -, hrun⟩ := main_ok hlen hfit
  have hnameable := hfit.nameable fun f hf => (hname f hf).1
  have hroot : (rootNames files).Nodup := by
    refine List.nodup_cons.mpr ⟨?_, List.nodup_cons.mpr ⟨?_, hnodup⟩⟩
    · simp only [List.mem_cons, List.mem_map, not_or, not_exists, not_and]
      exact ⟨by decide, fun f hf => (hname f hf).2.1⟩
    · simp only [List.mem_map, not_exists, not_and]
      exact fun f hf => (hname f hf).2.2
  have hfirst : ∀ i j nm, i < j → (rootNames files)[j]? = some nm →
      (rootNames files)[i]? ≠ some nm := fun i j nm hij hj hi =>
    List.nodup_iff_getElem?_ne_getElem?.mp hroot i j hij (List.getElem?_eq_some_iff.mp hj).1
      (hi.trans hj.symm)
  refine ⟨_, hrun, ?_, ?_, fun f hf => ?_, fun nm hnm => ?_⟩
  · rw [finish_of_lt F.one_lt_inodestart, hs.ok.super, readsb_superblock]
  · have hlt : F.layout.logstart < F.layout.inodestart := (by decide : 2 < 2 + LOGSIZE)
    rw [finish_of_lt hlt, hs.ok.log _ le_rfl hlt, Bytes.word_zero]
  · obtain ⟨k, hk⟩ := List.mem_iff_getElem?.mp hf
    have hklt := (List.getElem?_eq_some_iff.mp hk).1
    have hj : (rootNames files)[k + 2]? = some f.shortname := by simp [rootNames, hk]
    obtain ⟨_, t, hopen, ip, rfl, ht, hip⟩ := (openPath_spec hs.rooted hlen hnameable hj
      fun i hi => hfirst i (k + 2) _ hi hj).returns
    have hinum : rootInum (k + 2) = k + 2 := if_neg (by omega)
    have hlast : k + 2 < s.freeinode := by
      rw [hs.freeinode]
      omega
    have hcontents : contents files (k + 2) = f.bytes := by
      simp [contents, ROOTINO, hk]
    rw [hinum] at hip
    have hshows : ((finish F s).mountWith F t.itable).Shows ip (contents files (k + 2)) :=
      hs.shows (by omega) hlast (by rw [hip])
    refine ⟨ip, t, hopen, ?_⟩
    have htype : ((finish F s).dinode F (k + 2)).type = .file := by
      rw [finish_dinode (hlast.trans_le hs.ok.last) (by unfold ROOTINO; omega),
        (hs.ok.stores (by omega) hlast).type, if_neg (by unfold ROOTINO; omega)]
    have hsize := hs.finish_size (by omega) hlast
    rw [if_neg (by unfold ROOTINO; omega)] at hsize
    have hfile := hshows.isFile (L := F.layout) (by rw [← ht, hip]; exact htype)
      (by rw [← ht, hip]; exact hsize)
    rwa [← ht, hcontents] at hfile
  · have hroot : ∃ j, j < 2 ∧ (rootNames files)[j]? = some nm := by
      simp only [List.mem_cons, List.not_mem_nil, or_false] at hnm
      rcases hnm with rfl | rfl
      · exact ⟨0, by decide, rfl⟩
      · exact ⟨1, by decide, rfl⟩
    obtain ⟨j, hj2, hj⟩ := hroot
    obtain ⟨_, t, hopen, ip, rfl, -, hip⟩ := (openPath_spec hs.rooted hlen hnameable hj
      fun i hi => hfirst i j _ hi hj).returns
    refine ⟨ip, t, hopen, ?_⟩
    rw [hip]
    exact if_pos hj2

theorem mkfs_mount_oneFile :
    ∃ s, Mkfs.main conf2000 oneFile (Mkfs.start conf2000) = .ok ((), s) ∧
      Mounts conf2000 oneFile s :=
  mkfs_mount oneFile_fitting (by decide) (by decide) (by decide)

/-- The host file `_.`, of one byte. -/
def dotFile : List HostFile := [⟨[95, 46], [1], by decide⟩]

theorem dotFile_fitting : Fitting conf2000 dotFile := by
  refine ⟨?_, ?_, ?_, ?_⟩ <;> decide

/-- The name of the host file `_.` is ".", under which the kernel finds the root directory. -/
theorem mkfs_mount_dot : dotFile.length + 2 ≤ NINODES ∧
    (dotFile.map HostFile.shortname).Nodup ∧ Fitting conf2000 dotFile ∧
    ∃ s, Mkfs.main conf2000 dotFile (Mkfs.start conf2000) = .ok ((), s) ∧
      (∃ ip t, (openPath (47 :: [46])).exec (FsAct.run conf2000.layout) (s.mount conf2000) =
        .ok (some ip, t) ∧ (t.itable ip).d.type = .dir) ∧ ¬ Mounts conf2000 dotFile s := by
  refine ⟨by decide, by decide, dotFile_fitting, ?_⟩
  obtain ⟨s, hs, -, hrun⟩ := Mkfs.main_ok (by decide) dotFile_fitting
  have hroot := hs.rooted
  have hj : (rootNames dotFile)[0]? = some [46] := rfl
  obtain ⟨_, t, hopen, ip, rfl, -, hip⟩ := (Mkfs.openPath_spec hroot (by decide)
    (dotFile_fitting.nameable (by decide)) hj nofun).returns
  have htype : (t.itable ip).d.type = .dir := by
    rw [hip]
    exact hroot.type
  refine ⟨_, hrun, ⟨ip, t, hopen, htype⟩, fun hm => ?_⟩
  obtain ⟨f, hf⟩ : ∃ f, f ∈ dotFile := ⟨_, List.mem_singleton_self _⟩
  have hname : f.shortname = [46] := by
    obtain rfl := List.mem_singleton.mp hf
    rfl
  obtain ⟨ip', t', hopen', hfile⟩ := hm.file f hf
  rw [hname, hopen] at hopen'
  cases hopen'
  have := hfile.type
  rw [htype] at this
  cases this

end Xv6
