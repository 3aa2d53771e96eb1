import Mathlib.Data.List.Induction
import Mathlib.Data.Nat.Bitwise
import Xv6.MkfsImage

/-!
# What mkfs writes

`main` makes the root directory and adds the files one after the other (`Mkfs.Holds`). It ends
with the image of all of them, if they fit (`Mkfs.main_spec`).

The image is consistent exactly but for two cases that `main` does not look at (`mkfs_consistent`).
It rounds the size of the root directory up to the next multiple of `BSIZE`, and when the entries
fill their blocks that is one block too many (`mkfs_root_hole`). And nothing bounds the inode
numbers by `NINODES` : `main` takes one for each file (`Mkfs.takes_main`).
-/

namespace Xv6

open Function Prog

/-! ## The directory -/

/-- The bytes of a directory entry. -/
def entryBytes (inum : ℕ) (name : Bytes) : List UInt8 := (List.range DIRENT).map (dirent inum name)

theorem entryBytes_length (inum : ℕ) (name : Bytes) : (entryBytes inum name).length = DIRENT := by
  simp [entryBytes]

theorem entryBytes_getD {inum k : ℕ} {name : Bytes} (hk : k < DIRENT) :
    (entryBytes inum name).getD k 0 = dirent inum name k := by
  simp [entryBytes, List.getD, hk]

/-- The entries of the files, which get the inode numbers from `2` on. -/
def fileEntries (files : List HostFile) : List UInt8 :=
  (files.mapIdx fun k f => entryBytes (k + 2) (cstring f.shortname)).flatten

/-- The root directory. -/
def rootBytes (files : List HostFile) : List UInt8 :=
  entryBytes ROOTINO dot ++ entryBytes ROOTINO dotdot ++ fileEntries files

/-- What each inode contains. -/
def contents (files : List HostFile) (i : ℕ) : List UInt8 :=
  if i = ROOTINO then rootBytes files
  else if i = 0 then [] else (files[i - 2]?.map HostFile.bytes).getD []

theorem rootBytes_snoc (files : List HostFile) (f : HostFile) :
    rootBytes (files ++ [f]) =
      rootBytes files ++ entryBytes (files.length + 2) (cstring f.shortname) := by
  simp [rootBytes, fileEntries, List.mapIdx_append]

theorem rootBytes_length (files : List HostFile) :
    (rootBytes files).length = (files.length + 2) * DIRENT := by
  induction files using List.reverseRecOn with
  | nil => simp [rootBytes, fileEntries, entryBytes_length, DIRENT]
  | append_singleton files f ih =>
    rw [rootBytes_snoc, List.length_append, ih, entryBytes_length, List.length_append,
      List.length_singleton]
    unfold DIRENT
    omega

theorem contents_snoc (files : List HostFile) (f : HostFile) :
    contents (files ++ [f]) = update (update (contents files) ROOTINO
      (rootBytes files ++ entryBytes (files.length + 2) (cstring f.shortname)))
      (files.length + 2) f.bytes := by
  funext i
  by_cases hi : i = files.length + 2
  · subst hi
    have h1 : files.length + 2 ≠ ROOTINO := by unfold ROOTINO; omega
    simp [contents, h1]
  · rw [update_of_ne hi]
    by_cases hroot : i = ROOTINO
    · subst hroot
      rw [update_self]
      simp [contents, rootBytes_snoc]
    · rw [update_of_ne hroot]
      simp only [contents, hroot, if_false]
      split
      · rfl
      · by_cases hlt : i - 2 < files.length
        · rw [List.getElem?_append_left hlt]
        · have h2 : files.length + 1 ≤ i - 2 ∨ i = 1 := by omega
          rcases h2 with h2 | h2
          · rw [List.getElem?_eq_none (by simp; omega), List.getElem?_eq_none (by omega)]
          · exact absurd h2 hroot

/-- The blocks that the files and the root directory take. -/
def need (files : List HostFile) : ℕ :=
  blocks ((files.length + 2) * DIRENT) + (files.map fun f => blocks f.bytes.length).sum

theorem need_append (pre l : List HostFile) : need pre ≤ need (pre ++ l) := by
  have hroot : blocks ((pre.length + 2) * DIRENT) ≤ blocks (((pre ++ l).length + 2) * DIRENT) := by
    refine blocks_mono (Nat.mul_le_mul_right _ ?_)
    rw [List.length_append]
    omega
  simp only [need, List.map_append, List.sum_append]
  omega

/-- The files fit in the limits, but for the number of inodes. -/
structure Fitting (F : MkfsConf) (files : List HostFile) : Prop where
  names : ∀ f ∈ files, 47 ∉ f.base ∧ f.shortname.length ≤ DIRSIZ
  sizes : ∀ f ∈ files, f.bytes.length ≤ MAXFILE * BSIZE
  room : F.nmeta + need files ≤ F.FSSIZE
  bitmap : F.nmeta + need files < BPB

namespace Mkfs

variable {F : MkfsConf} {s : Mkfs} {E : MkfsFail → Prop}

/-- The image holds the files `pre`. -/
structure Holds (F : MkfsConf) (pre : List HostFile) (s : Mkfs) : Prop where
  ok : Ok F (contents pre) s
  freeinode : s.freeinode = pre.length + 2
  freeblock : s.freeblock = F.nmeta + need pre

theorem contents_root (files : List HostFile) : contents files ROOTINO = rootBytes files :=
  if_pos rfl

theorem contents_fresh (files : List HostFile) : contents files (files.length + 2) = [] := by
  have h1 : files.length + 2 ≠ ROOTINO := by unfold ROOTINO; omega
  simp [contents, h1]

variable {files : List HostFile} {b : ℕ}

theorem addFile_spec {pre : List HostFile} {f : HostFile} (h : Holds F pre s)
    (hpre : pre ++ [f] <+: files) (hlen : files.length + 2 ≤ NINODES)
    (hE : ¬ Fitting F files → ∀ e, E e) :
    wp E (addFile F ROOTINO f) (fun _ s' => Holds F (pre ++ [f]) s') s := by
  have hmem : f ∈ files := hpre.subset (by simp)
  obtain ⟨rest, hrest⟩ := hpre
  have hprelen : pre.length + 1 ≤ files.length := by
    rw [← hrest]
    simp
  have hneed : need (pre ++ [f]) ≤ need files := hrest ▸ need_append _ _
  have hneed' : need (pre ++ [f]) = blocks ((rootBytes pre).length + DIRENT) +
      ((pre.map fun f => blocks f.bytes.length).sum + blocks f.bytes.length) := by
    simp only [need, rootBytes_length, List.length_append, List.map_append, List.sum_append,
      List.length_singleton, List.map_cons, List.map_nil, List.sum_singleton,
      Nat.add_right_comm pre.length 1 2, Nat.add_one_mul]
  have hold : need pre = blocks (rootBytes pre).length +
      (pre.map fun f => blocks f.bytes.length).sum := by
    rw [need, rootBytes_length]
  simp only [addFile, wp_ite]
  split
  · rename_i hslash
    exact hE (fun hf => (hf.names f hmem).1 hslash) _
  split
  · rename_i hlong
    exact hE (fun hf => by have := (hf.names f hmem).2; omega) _
  -- the inode, the entry and then the contents
  have hfree := h.freeinode
  have hfb := h.freeblock
  refine wp_bind.mpr (ialloc_spec h.ok (by omega) ?_ fun s₁ h₁ hfree₁ hfb₁ => ?_)
  · rw [if_neg]
    unfold ROOTINO
    omega
  refine wp_bind.mpr (iappend_spec (l := entryBytes s.freeinode (cstring f.shortname)) h₁ le_rfl
    (by unfold ROOTINO; omega) (entryBytes_length _ _).symm (fun k hk => ?_) (fun hlt => ?_)
    (fun hlt => ?_) fun s₂ h₂ hfree₂ => ?_)
  · rw [entryBytes_length] at hk
    exact (entryBytes_getD hk).symm
  · rw [contents_root, entryBytes_length] at hlt
    exact hE fun hf => by have := hf.room; omega
  · rw [contents_root, entryBytes_length, rootBytes_length] at hlt
    unfold MAXFILE BSIZE NDIRECT NINDIRECT DIRENT at hlt
    unfold NINODES at hlen
    omega
  have hblocks := h₁.freeblock_update h₂ (show ROOTINO < NINODES by decide)
  rw [contents_root, List.length_append, entryBytes_length] at hblocks
  have hne : s.freeinode ≠ ROOTINO := by
    unfold ROOTINO
    omega
  have hempty : contents pre s.freeinode = [] := by
    rw [hfree]
    exact contents_fresh pre
  refine copyLoop_spec _ _ h₂ (by omega) (by omega) le_rfl (fun hlt => ?_) (fun hlt => ?_)
    fun s₃ h₃ hfree₃ => ?_
  · rw [update_of_ne hne, hempty, List.length_nil, blocks_zero, Nat.zero_add] at hlt
    exact hE fun hf => by have := hf.room; omega
  · rw [update_of_ne hne, hempty, List.length_nil, Nat.zero_add] at hlt
    exact hE fun hf => by have := hf.sizes f hmem; omega
  · have hblocks' := h₂.freeblock_update h₃ (show s.freeinode < NINODES by omega)
    rw [update_of_ne hne, hempty, List.nil_append, List.length_nil, blocks_zero] at hblocks'
    refine ⟨?_, ?_, ?_⟩
    · rw [contents_snoc, ← hfree]
      rwa [update_of_ne hne, hempty, List.nil_append, contents_root] at h₃
    · rw [List.length_append, List.length_singleton]
      omega
    · omega

theorem addFiles_spec (hlen : files.length + 2 ≤ NINODES) (hE : ¬ Fitting F files → ∀ e, E e) :
    ∀ (l pre : List HostFile) {s : Mkfs}, Holds F pre s →
      pre ++ l = files → wp E (addFiles F ROOTINO l) (fun _ s' => Holds F files s') s
  | [], pre, s, h, hpre => by
    rw [List.append_nil] at hpre
    exact hpre ▸ h
  | f :: l, pre, s, h, hpre => by
    have hstep : pre ++ [f] ++ l = files := by simpa using hpre
    refine (addFile_spec h ⟨l, hstep⟩ hlen hE).bind fun _ s' h' => ?_
    exact addFiles_spec hlen hE l (pre ++ [f]) h' hstep

/-! ## The whole program -/

theorem zero_spec {Q : Unit → Mkfs → Prop} (hQ : Q () { start F with sectors := F.FSSIZE }) :
    wp E (forUp (fun i => wsect i fun _ => 0) F.FSSIZE 0) Q (start F) := by
  refine (wp_forUp (fun i s => s = { start F with sectors := i }) F.FSSIZE 0 ?_ rfl).mono ?_
  · rintro i s - - rfl
    simp [wsect, start]
  · rintro ⟨⟩ s rfl
    simpa using hQ

/-- The image after the superblock is written. -/
def blank (F : MkfsConf) : Mkfs :=
  Mkfs.setSector { start F with sectors := F.FSSIZE } 1 (superblock F)

theorem blank_image (hb : b ≠ 1) : (blank F).image b = fun _ => 0 := update_of_ne hb ..

theorem blank_dinode (i : ℕ) : (blank F).dinode F i = ⟨.none, 0, 0, 0, 0, fun _ => 0⟩ := by
  rw [dinode, blank_image (F.one_lt_IBLOCK i).ne', Bytes.dinode_zero]

theorem blank_ok : Ok F (fun _ => []) (blank F) := by
  have hnone : ∀ i, ((blank F).inodes F i).type = .none := fun i => by
    unfold inodes
    split
    · rw [blank_dinode]
    · rfl
  have hsuper : (blank F).image 1 = superblock F := by simp [blank, setSector]
  refine ⟨rfl, le_rfl, (by decide : 1 ≤ NINODES), F.nmeta_le, fun b hb => ?_, hsuper,
    fun b hb _ => blank_image (lt_of_lt_of_le (by decide : 1 < 2) hb).ne', fun b hb _ => ?_,
    ⟨⟨?_, ?_, ?_⟩, ?_⟩, fun h1 hi => absurd h1 (Nat.not_le.mpr hi),
    fun _ => Nat.zero_le _, ?_, ?_⟩
  · exact blank_image (F.one_lt.trans_le hb).ne'
  · exact blank_image (lt_of_lt_of_le (by decide : 1 < 2 + LOGSIZE + ninodeblocks) hb).ne'
  · rintro ⟨i, n⟩ r hr
    exact absurd (hnone i) (places_eq_some.mp hr).2.1
  · rintro ⟨i, n⟩ y r hr
    exact absurd (hnone i) (places_eq_some.mp hr).2.1
  · rintro r ⟨hlo, -, hbit⟩
    have hlt : r < F.nmeta := of_decide_eq_true hbit
    exact absurd hlo (Nat.not_le.mpr hlt)
  · intro b hb
    exact decide_eq_true (show b < F.nmeta from hb)
  · intro i _ _
    rw [blank_dinode]
    exact ⟨rfl, rfl⟩
  · simp only [List.length_nil, blocks_zero, Finset.sum_const_zero, Nat.add_zero]
    rfl

theorem contents_nil : contents [] = update (fun _ => []) ROOTINO (rootBytes []) := by
  funext i
  by_cases hi : i = ROOTINO
  · subst hi
    simp [contents]
  · simp [contents, hi]

/-- The root directory gets its first two entries. -/
theorem dots_spec {m : MkfsM Unit} {Q : Unit → Mkfs → Prop} (h : Ok F (fun _ => []) s)
    (hfree : s.freeinode = ROOTINO + 1) (hfb : s.freeblock = F.nmeta)
    (hE : ¬ Fitting F files → ∀ e, E e) (hQ : ∀ s', Holds F [] s' → wp E m Q s') : wp E (do
      iappend F ROOTINO (dirent ROOTINO dot) DIRENT
      iappend F ROOTINO (dirent ROOTINO dotdot) DIRENT
      m) Q s := by
  have hneed := need_append [] files
  have hnil : need [] = 1 := by decide
  have hone : blocks DIRENT = 1 := by decide
  have htwo : blocks (DIRENT + DIRENT) = 1 := by decide
  have hsmall : ¬ MAXFILE * BSIZE < DIRENT + DIRENT := by decide
  rw [hnil, List.nil_append] at hneed
  have hroom : F.FSSIZE < F.nmeta + 1 → ∀ e, E e := fun hlt =>
    hE fun hf => by have := hf.room; omega
  have hlt : ROOTINO < NINODES := by decide
  have hentry : ∀ name k, k < (entryBytes ROOTINO name).length →
      dirent ROOTINO name k = (entryBytes ROOTINO name).getD k 0 := fun name k hk =>
    (entryBytes_getD (by rwa [entryBytes_length] at hk)).symm
  refine wp_bind.mpr (iappend_spec (l := entryBytes ROOTINO dot) h le_rfl (by omega)
    (entryBytes_length _ _).symm (hentry dot) ?_ ?_ fun s₂ h₂ hfree₂ => ?_)
  · rw [entryBytes_length, List.length_nil, Nat.zero_add, hone, blocks_zero]
    exact fun h => hroom (by omega)
  · rw [entryBytes_length, List.length_nil]
    exact fun h => absurd h (by omega)
  have hb₂ := h.freeblock_update h₂ hlt
  rw [List.nil_append, entryBytes_length, List.length_nil, hone, blocks_zero] at hb₂
  rw [List.nil_append] at h₂
  refine wp_bind.mpr (iappend_spec (l := entryBytes ROOTINO dotdot) h₂ le_rfl (by omega)
    (entryBytes_length _ _).symm (hentry dotdot) ?_ ?_ fun s₃ h₃ hfree₃ => hQ s₃ ?_)
  · rw [entryBytes_length, update_self, entryBytes_length, hone, htwo]
    exact fun h => hroom (by omega)
  · rw [entryBytes_length, update_self, entryBytes_length]
    exact fun h => absurd h hsmall
  have hb₃ := h₂.freeblock_update h₃ hlt
  rw [update_self, List.length_append, entryBytes_length, entryBytes_length, hone, htwo] at hb₃
  refine ⟨?_, ?_, ?_⟩
  · rw [update_self, update_idem] at h₃
    rw [contents_nil]
    simpa [rootBytes, fileEntries] using h₃
  · rw [hfree₃, hfree₂, hfree]
    rfl
  · rw [hnil]
    omega

/-- The root directory, with its size rounded up. -/
def rounded (din : Dinode) : Dinode := { din with size := (din.size / BSIZE + 1) * BSIZE }

/-- The last steps of `main` : the size of the root, and the bitmap. -/
def finish (F : MkfsConf) (s : Mkfs) : Mkfs :=
  (s.setDinode F ROOTINO (rounded (s.dinode F ROOTINO))).setSector F.layout.bmapstart
    (bits s.freeblock)

/-- `mkfs` writes the image of the files, unless they do not fit. -/
theorem main_spec (hlen : files.length + 2 ≤ NINODES) (hE : ¬ Fitting F files → ∀ e, E e) :
    wp E (main F files) (fun _ s' => ∃ s, Holds F files s ∧ s.freeblock < BPB ∧ s' = finish F s)
      (start F) := by
  refine wp_bind.mpr (zero_spec (wp_bind.mpr (wsect_spec ?_ ?_)))
  · exact F.one_lt.trans_le F.nmeta_le
  refine wp_bind.mpr (ialloc_spec (s := blank F) blank_ok (by decide : 1 < NINODES) rfl
    fun s₁ h₁ hfree₁ hfb₁ => ?_)
  have hroot : (blank F).freeinode = ROOTINO := rfl
  rw [hroot] at hfree₁ ⊢
  simp only [if_true]
  refine dots_spec h₁ hfree₁ hfb₁ hE fun s₂ h₂ => ?_
  refine (addFiles_spec hlen hE files [] h₂ rfl).bind fun _ s h => ?_
  have hlt : ROOTINO < NINODES := by decide
  refine wp_bind.mpr (wp_bind.mpr (rinode_spec hlt h.ok.sectors
    (winode_spec hlt h.ok.sectors (wp_bind.mpr ?_))))
  rw [wp_get]
  simp only [Mkfs.balloc, wp_ite]
  have hfb : (s.setDinode F ROOTINO (rounded (s.dinode F ROOTINO))).freeblock = s.freeblock := rfl
  rw [rounded] at hfb
  rw [hfb]
  split
  · rename_i hused
    refine wsect_spec ?_ ⟨s, h, hused, rfl⟩
    have := F.bmapstart_lt
    have := F.nmeta_le
    have := h.ok.sectors
    simp only [setDinode, setSector]
    omega
  · rename_i hused
    refine hE (fun hf => ?_) _
    have := hf.bitmap
    have := h.freeblock
    omega

theorem main_ok (hlen : files.length + 2 ≤ NINODES) (hfit : Fitting F files) :
    ∃ s, Holds F files s ∧ s.freeblock < BPB ∧ main F files (start F) = .ok ((), finish F s) := by
  obtain ⟨⟨⟩, s', hrun, s, hs, hlt, rfl⟩ := (main_spec hlen fun hf => absurd hfit hf).returns
  exact ⟨s, hs, hlt, hrun⟩

/-! ## The last steps -/

theorem and_two_pow_ne_zero {x : UInt8} {k : ℕ} (hk : k < 8) :
    x &&& UInt8.ofNat (2 ^ k) ≠ 0 ↔ x.toNat.testBit k = true := by
  have hlt : 2 ^ k < 2 ^ 8 := Nat.pow_lt_pow_right (by decide) hk
  rw [ne_eq, ← UInt8.toNat_inj, UInt8.toNat_and, UInt8.toNat_ofNat', Nat.mod_eq_of_lt hlt,
    Nat.and_two_pow]
  cases x.toNat.testBit k <;> simp

theorem testBit_bits (b : ℕ) : ∀ u, (bits u (b / 8)).toNat.testBit (b % 8) = decide (b < u)
  | 0 => by simp [bits]
  | u + 1 => by
    have ih := testBit_bits b u
    have hlt : 2 ^ (u % 8) < 2 ^ 8 := Nat.pow_lt_pow_right (by decide) (Nat.mod_lt u (by decide))
    by_cases h : b / 8 = u / 8
    · rw [bits, h, update_self, ← h, UInt8.toNat_or, Nat.testBit_or, ih, UInt8.toNat_ofNat',
        Nat.mod_eq_of_lt hlt, Nat.testBit_two_pow, Bool.eq_iff_iff]
      simp only [Bool.or_eq_true, decide_eq_true_eq]
      omega
    · rw [bits, update_of_ne h, ih, Bool.eq_iff_iff]
      simp only [decide_eq_true_eq]
      omega

theorem finish_of_ne (hb : b ≠ F.layout.bmapstart) :
    (finish F s).image b = (s.setDinode F ROOTINO (rounded (s.dinode F ROOTINO))).image b :=
  update_of_ne hb _ _

theorem finish_bitmap : (finish F s).image F.layout.bmapstart = bits s.freeblock := by
  simp [finish, setSector]

theorem finish_image (hb : F.layout.bmapstart < b) : (finish F s).image b = s.image b :=
  (finish_of_ne hb.ne').trans (image_setDinode (by decide) hb.le)

theorem finish_dinode {i : ℕ} (hi : i < NINODES) (hne : i ≠ ROOTINO) :
    (finish F s).dinode F i = s.dinode F i :=
  (dinode_congr (finish_of_ne (F.IBLOCK_lt hi).ne)).trans (dinode_setDinode_of_ne hne)

theorem finish_root (hsize : (s.dinode F ROOTINO).size ≤ MAXFILE * BSIZE) :
    (finish F s).dinode F ROOTINO = rounded (s.dinode F ROOTINO) := by
  have hfits : (rounded (s.dinode F ROOTINO)).Fits := by
    refine { dinode_fits s ROOTINO with size := ?_ }
    unfold MAXFILE NDIRECT NINDIRECT BSIZE at hsize
    simp only [rounded, BSIZE]
    omega
  have hroot : ROOTINO < NINODES := by decide
  exact (dinode_congr (finish_of_ne (F.IBLOCK_lt hroot).ne)).trans (dinode_setDinode_self hfits)

theorem finish_of_lt (hb : b < F.layout.inodestart) : (finish F s).image b = s.image b :=
  (finish_of_ne (hb.trans_le (Nat.le_add_right _ _)).ne).trans (image_setDinode_of_lt hb)

/-- The bitmap marks the blocks below `freeblock`. -/
theorem finish_bit {c : ℕ → List UInt8} (h : Ok F c s) (hlt : s.freeblock < BPB)
    (hb : b < F.FSSIZE) :
    (finish F s).bit F b = decide (b < s.freeblock) := by
  have hmod : b % BPB % 8 < 8 := Nat.mod_lt _ (by decide)
  rw [bit, decide_eq_decide, and_two_pow_ne_zero hmod]
  by_cases hfirst : b < BPB
  · have hsector : (finish F s).image (F.layout.BBLOCK b) = bits s.freeblock := by
      rw [FsLayout.BBLOCK, Nat.div_eq_of_lt hfirst, Nat.zero_add]
      exact finish_bitmap
    rw [hsector, Nat.mod_eq_of_lt hfirst, testBit_bits, decide_eq_true_iff]
  · -- the other blocks of the bitmap are as they were zeroed
    have hlo : F.layout.bmapstart < F.layout.BBLOCK b :=
      Nat.lt_add_of_pos_left (Nat.div_pos (by omega) (by decide))
    have hhi : F.layout.BBLOCK b < F.nmeta := by
      have hdiv : b / BPB ≤ F.FSSIZE / BPB := Nat.div_le_div_right hb.le
      have hstart : F.layout.bmapstart = 2 + LOGSIZE + ninodeblocks := rfl
      simp only [FsLayout.BBLOCK, MkfsConf.nmeta, MkfsConf.nbitmap]
      omega
    rw [finish_image hlo, h.bitmap _ hlo.le hhi]
    simp only [UInt8.toNat_zero, Nat.zero_testBit, Bool.false_eq_true, false_iff]
    omega

end Mkfs

/-! ## Consistency -/

/-- What an image has to satisfy, with the inodes below `freeinode` allocated. -/
structure Consistent (F : MkfsConf) (s : Mkfs) : Prop where
  super : s.image 1 = Mkfs.superblock F
  inodes : ∀ i, 1 ≤ i → i < s.freeinode →
    i < F.layout.ninodes ∧ F.layout.inodestart ≤ F.layout.IBLOCK i ∧
      F.layout.IBLOCK i < F.layout.bmapstart
  range : ∀ i n, 1 ≤ i → i < s.freeinode → (s.dinode F i).slot s.image n ≠ 0 →
    F.layout.datastart ≤ (s.dinode F i).slot s.image n ∧
      (s.dinode F i).slot s.image n < F.layout.size
  once : ∀ i n j m, 1 ≤ i → i < s.freeinode → 1 ≤ j → j < s.freeinode →
    (s.dinode F i).slot s.image n ≠ 0 →
    (s.dinode F j).slot s.image m = (s.dinode F i).slot s.image n → j = i ∧ m = n
  mapped : ∀ i bn, 1 ≤ i → i < s.freeinode → bn * BSIZE < (s.dinode F i).size →
    (s.dinode F i).block s.image bn ≠ 0
  bitmap : ∀ b, b < F.layout.size → (s.bit F b = true ↔ b < s.freeblock)

namespace Mkfs

variable {F : MkfsConf} {s : Mkfs} {files : List HostFile}

theorem Holds.root_lt (h : Holds F files s) : ROOTINO < s.freeinode := by
  rw [h.freeinode]
  exact Nat.lt_of_lt_of_le (by decide) (Nat.le_add_left 2 _)

/-- The root directory is an inode of the image. -/
theorem Holds.root (h : Holds F files s) : Stores F s ROOTINO (contents files ROOTINO) :=
  h.ok.stores le_rfl h.root_lt

theorem Holds.finish_root (h : Holds F files s) :
    (finish F s).dinode F ROOTINO = rounded (s.dinode F ROOTINO) :=
  Mkfs.finish_root (by rw [h.root.size]; exact h.ok.small ROOTINO)

/-- After the last steps an inode has the slots it had. -/
theorem Holds.finish_slot (h : Holds F files s) {i : ℕ} (h1 : 1 ≤ i) (hi : i < s.freeinode)
    (n : ℕ) : ((finish F s).dinode F i).slot (finish F s).image n =
      (s.dinode F i).slot s.image n := by
  have hframe := Dinode.slot_frame
    (fun _ hn => finish_image (F.bmapstart_lt.trans_le (h.ok.inUse h1 hi hn))) n
  by_cases hroot : i = ROOTINO
  · subst hroot
    rw [h.finish_root, ← hframe]
    exact Dinode.slot_congr rfl fun _ => rfl
  · rw [finish_dinode (hi.trans_le h.ok.last) hroot, hframe]

theorem Holds.finish_size (h : Holds F files s) {i : ℕ} (h1 : 1 ≤ i) (hi : i < s.freeinode) :
    ((finish F s).dinode F i).size = if i = ROOTINO
      then ((files.length + 2) * DIRENT / BSIZE + 1) * BSIZE else (contents files i).length := by
  split
  · rename_i hroot
    subst hroot
    rw [h.finish_root, rounded, h.root.size, contents_root, rootBytes_length]
  · rename_i hroot
    rw [finish_dinode (hi.trans_le h.ok.last) hroot, (h.ok.stores h1 hi).size]

theorem Holds.finish_consistent (h : Holds F files s) (hlt : s.freeblock < BPB)
    (halign : ¬ BSIZE ∣ (files.length + 2) * DIRENT) : Consistent F (finish F s) := by
  have hinode : ∀ i, i < s.freeinode → i < F.layout.ninodes := fun i hi => hi.trans_le h.ok.last
  have hlive : ∀ i, 1 ≤ i → i < s.freeinode → (s.inodes F i).type ≠ .none := fun i h1 hi => by
    rw [inodes_of_lt (hi.trans_le h.ok.last)]
    exact h.ok.live h1 hi
  refine ⟨(finish_of_lt F.one_lt_inodestart).trans h.ok.super,
    fun i h1 hi => ⟨hinode i hi, ?_, F.IBLOCK_lt (hinode i hi)⟩, fun i n h1 hi hslot => ?_,
    fun i n j m h1 hi hj1 hj hslot heq => ?_, fun i bn h1 hi hbn => ?_, fun b hb => ?_⟩
  · exact Nat.le_add_left _ _
  · rw [h.finish_slot h1 hi] at hslot ⊢
    rw [← inodes_of_lt (hinode i hi)] at hslot ⊢
    have huse := h.ok.marked.inUse (hinode i hi) (hlive i h1 hi) hslot
    exact ⟨huse.1, huse.2.1⟩
  · rw [h.finish_slot h1 hi] at hslot heq
    rw [h.finish_slot hj1 hj] at heq
    rw [← inodes_of_lt (hinode i hi)] at hslot heq
    rw [← inodes_of_lt (hinode j hj)] at heq
    exact h.ok.marked.slot_inj (hinode i hi) (hlive i h1 hi) (hinode j hj) (hlive j hj1 hj) hslot
      heq
  · rw [Dinode.block, h.finish_slot h1 hi, (h.ok.stores h1 hi).filled]
    rw [h.finish_size h1 hi] at hbn
    have hbyte : bn * BSIZE < (contents files i).length := by
      split at hbn
      · -- the rounding adds nothing, since the last block has an entry but is not full
        rename_i hroot
        rw [hroot, contents_root, rootBytes_length]
        have hpos : 0 < BSIZE := by decide
        have hle : bn ≤ (files.length + 2) * DIRENT / BSIZE :=
          Nat.lt_succ_iff.mp (Nat.lt_of_mul_lt_mul_right hbn)
        refine lt_of_le_of_ne ((Nat.le_div_iff_mul_le hpos).mp hle) fun heq => halign ?_
        exact ⟨bn, by rw [← heq, Nat.mul_comm]⟩
      · exact hbn
    have := blocks_lt hbyte
    rwa [Nat.mul_div_cancel _ (by decide)] at this
  · rw [finish_bit h.ok hlt hb, decide_eq_true_iff]
    rfl

/-- A root directory whose entries end with a block has no block for what its size is rounded
up to. -/
theorem Holds.root_hole (h : Holds F files s) (halign : BSIZE ∣ (files.length + 2) * DIRENT) :
    ((finish F s).dinode F ROOTINO).block (finish F s).image
        ((files.length + 2) * DIRENT / BSIZE) = 0 ∧
      ¬ Consistent F (finish F s) := by
  have h1 : 1 ≤ ROOTINO := le_rfl
  have hlt := h.root_lt
  have hhole : ((finish F s).dinode F ROOTINO).block (finish F s).image
      ((files.length + 2) * DIRENT / BSIZE) = 0 := by
    rw [Dinode.block, h.finish_slot h1 hlt]
    by_contra hne
    rw [← ne_eq, h.root.filled, contents_root, rootBytes_length] at hne
    obtain ⟨n, hn⟩ := halign
    rw [hn, Nat.mul_div_cancel_left _ (by decide)] at hne
    exact absurd hne (Nat.not_lt.mpr (blocks_mul_le n))
  refine ⟨hhole, fun hc => hc.mapped ROOTINO _ h1 hlt ?_ hhole⟩
  rw [h.finish_size h1 hlt, if_pos rfl]
  exact Nat.mul_lt_mul_of_pos_right (Nat.lt_succ_self _) (by decide)

/-! ## The number of inodes -/

/-- A run of `m` that returns has taken `k` inodes. -/
def Takes {α : Type} (k : ℕ) (m : MkfsM α) : Prop :=
  ∀ s, wp (fun _ => True) m (fun _ s' => s'.freeinode = s.freeinode + k) s

section Takes

variable {α β : Type} {m : MkfsM α} {f : α → MkfsM β} {k l : ℕ}

theorem Takes.bind (hm : Takes k m) (hf : ∀ a, Takes l (f a)) : Takes (k + l) (m >>= f) := fun s =>
  (hm s).bind fun a s' h => (hf a s').mono fun _ _ h' => by rw [h', h, Nat.add_assoc]

/-- What comes after a program that takes no inode. -/
theorem Takes.skip (hm : Takes 0 m) (hf : ∀ a, Takes k (f a)) : Takes k (m >>= f) := by
  simpa only [Nat.zero_add] using hm.bind hf

theorem Takes.ite {c : Prop} [Decidable c] {m' : MkfsM α} (hm : Takes k m) (hm' : Takes k m') :
    Takes k (if c then m else m') := by
  split
  · exact hm
  · exact hm'

theorem takes_pure (a : α) : Takes 0 (pure a : MkfsM α) := fun _ => rfl

theorem takes_throw (e : MkfsFail) : Takes k (throw e : MkfsM α) := fun _ => trivial

theorem takes_get : Takes 0 (get : MkfsM Mkfs) := fun _ => wp_get.mpr (Nat.add_zero _)

theorem takes_wsect (sec : ℕ) (buf : Bytes) : Takes 0 (wsect sec buf) := fun _ => rfl

theorem takes_rsect (sec : ℕ) : Takes 0 (rsect sec) :=
  takes_get.skip fun _ => (takes_pure _).ite (takes_throw _)

theorem takes_winode (inum : ℕ) (ip : Dinode) : Takes 0 (winode F inum ip) :=
  (takes_rsect _).skip fun _ => takes_wsect _ _

theorem takes_rinode (inum : ℕ) : Takes 0 (rinode F inum) :=
  (takes_rsect _).skip fun _ => takes_pure _

theorem takes_nextBlock : Takes 0 nextBlock := fun _ => rfl

theorem takes_fillAddr (din : Dinode) (n : ℕ) : Takes 0 (fillAddr din n) :=
  (takes_nextBlock.skip fun _ => takes_pure _).ite (takes_pure _)

theorem takes_findBlock (din : Dinode) (fbn : ℕ) : Takes 0 (findBlock din fbn) := by
  refine ((takes_fillAddr _ _).skip fun _ => takes_pure _).ite
    ((takes_fillAddr _ _).skip fun _ => (takes_rsect _).skip fun _ => ?_)
  exact (takes_nextBlock.skip fun _ => (takes_wsect _ _).skip fun _ => takes_pure _).ite
    (takes_pure _)

theorem takes_appendLoop (p : Bytes) (n : ℕ) :
    ∀ (fuel tot off : ℕ) (din : Dinode), Takes 0 (appendLoop p n fuel tot off din)
  | 0, _, _, _ => takes_pure _
  | fuel + 1, _, _, _ =>
    (((takes_findBlock _ _).skip fun _ => (takes_rsect _).skip fun _ =>
      (takes_wsect _ _).skip fun _ => takes_appendLoop p n fuel _ _ _).ite
        (takes_throw _)).ite (takes_pure _)

theorem takes_iappend (inum : ℕ) (p : Bytes) (n : ℕ) : Takes 0 (iappend F inum p n) :=
  (takes_rinode _).skip fun _ => (takes_appendLoop p n _ _ _ _).skip fun _ => takes_winode _ _

theorem takes_copyLoop (inum : ℕ) : ∀ (fuel : ℕ) (l : List UInt8), Takes 0 (copyLoop F inum fuel l)
  | 0, _ => takes_pure _
  | fuel + 1, _ =>
    (takes_pure _).ite ((takes_iappend _ _ _).skip fun _ => takes_copyLoop inum fuel _)

theorem takes_ialloc (type : FileType) : Takes 1 (ialloc F type) := fun s => by
  refine wp_bind.mpr (wp_get.mpr (wp_bind.mpr (wp_modify.mpr (wp_bind.mpr ?_))))
  exact (takes_winode _ _ _).mono fun _ _ h => h

theorem takes_addFile (rootino : ℕ) (f : HostFile) : Takes 1 (addFile F rootino f) :=
  (takes_throw _).ite <| (takes_throw _).ite <| (takes_ialloc _).bind fun _ =>
    (takes_iappend _ _ _).skip fun _ => takes_copyLoop _ _ _

theorem takes_addFiles (rootino : ℕ) :
    ∀ files : List HostFile, Takes files.length (addFiles F rootino files)
  | [] => takes_pure _
  | f :: l => by
    rw [List.length_cons, Nat.add_comm]
    exact (takes_addFile rootino f).bind fun _ => takes_addFiles rootino l

/-- `main` takes an inode for the root directory and one for each file. -/
theorem takes_main (F : MkfsConf) (files : List HostFile) :
    Takes (1 + files.length) (main F files) := by
  have hzero : Takes 0 (forUp (fun i => wsect i fun _ => 0) F.FSSIZE 0) := fun s =>
    wp_forUp (fun _ s' => s'.freeinode = s.freeinode + 0) F.FSSIZE 0 (fun i t _ _ h =>
      (takes_wsect i _ t).mono fun _ _ h' => h'.trans h) rfl
  have hend : ∀ rootino, Takes 0 (do fixRoot F rootino; let s ← get; balloc F s.freeblock) :=
    fun rootino => ((takes_rinode _).skip fun _ => takes_winode _ _).skip fun _ =>
      takes_get.skip fun _ => (takes_wsect _ _).ite (takes_throw _)
  refine hzero.skip fun _ => (takes_wsect _ _).skip fun _ => (takes_ialloc _).bind fun rootino =>
    Takes.ite ?_ (takes_throw _)
  exact (takes_iappend _ _ _).skip fun _ => (takes_iappend _ _ _).skip fun _ =>
    (takes_addFiles rootino files).bind fun _ => hend rootino

end Takes

end Mkfs

open Mkfs in
/-- What `mkfs` writes when it comes to its end is consistent exactly if there are inodes for the
files and the entries of the root directory do not end with a block. -/
theorem mkfs_consistent {F : MkfsConf} {files : List HostFile} {s : Mkfs}
    (hrun : Mkfs.main F files (Mkfs.start F) = .ok ((), s)) :
    Consistent F s ↔
      files.length + 2 ≤ NINODES ∧ ¬ BSIZE ∣ (files.length + 2) * DIRENT := by
  by_cases hlen : files.length + 2 ≤ NINODES
  · obtain ⟨s₀, hs₀, hlt, rfl⟩ := (main_spec (E := fun _ => True) hlen fun _ _ => trivial).ok hrun
    exact ⟨fun hc => ⟨hlen, fun halign => (hs₀.root_hole halign).2 hc⟩,
      fun h => hs₀.finish_consistent hlt h.2⟩
  · refine iff_of_false (fun hc => ?_) fun h => hlen h.1
    have hfree : s.freeinode = 1 + (1 + files.length) := (takes_main F files _).ok hrun
    exact lt_irrefl NINODES (hc.inodes NINODES (by decide) (by omega)).1

/-- The image of `FSSIZE` 2000. -/
def conf2000 : MkfsConf := ⟨2000, by decide, by decide⟩

/-- A file named `a` of three bytes. -/
def oneFile : List HostFile := [⟨[97], [1, 2, 3], by decide⟩]

theorem oneFile_fitting : Fitting conf2000 oneFile := by
  refine ⟨?_, ?_, ?_, ?_⟩ <;> decide

theorem mkfs_consistent_oneFile :
    ∃ s, Mkfs.main conf2000 oneFile (Mkfs.start conf2000) = .ok ((), s) ∧
      Consistent conf2000 s := by
  obtain ⟨s, -, -, hrun⟩ := Mkfs.main_ok (by decide) oneFile_fitting
  exact ⟨_, hrun, (mkfs_consistent hrun).mpr ⟨by decide, by decide⟩⟩

/-- 62 empty files, with names of two letters. -/
def manyFiles : List HostFile := (List.finRange 62).map fun k : Fin 62 =>
  ⟨[UInt8.ofNat (97 + k.val / 8), UInt8.ofNat (97 + k.val % 8)], [], by revert k; decide⟩

theorem manyFiles_fitting : Fitting conf2000 manyFiles := by
  refine ⟨?_, ?_, ?_, ?_⟩ <;> decide

/-- With 62 files the entries fill one block, and the root directory gets the size of two. -/
theorem mkfs_root_hole : (manyFiles.map HostFile.shortname).Nodup ∧
    ∃ s, Mkfs.main conf2000 manyFiles (Mkfs.start conf2000) = .ok ((), s) ∧
      (s.dinode conf2000 ROOTINO).size = 2 * BSIZE ∧
      (s.dinode conf2000 ROOTINO).block s.image 1 = 0 ∧ ¬ Consistent conf2000 s := by
  obtain ⟨s, hs, -, hrun⟩ := Mkfs.main_ok (by decide) manyFiles_fitting
  have hsize := hs.finish_size (i := ROOTINO) le_rfl (by rw [hs.freeinode]; decide)
  have hdouble : (manyFiles.length + 2) * DIRENT / BSIZE + 1 = 2 := by decide
  rw [if_pos rfl, hdouble] at hsize
  obtain ⟨hhole, hbad⟩ := hs.root_hole (by decide)
  exact ⟨by decide, _, hrun, hsize, hhole, hbad⟩

end Xv6
