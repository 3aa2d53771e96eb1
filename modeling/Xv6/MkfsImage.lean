import Mathlib.Algebra.BigOperators.Group.Finset.Basic
import Mathlib.Data.List.GetD
import Xv6.MkfsAppend

/-!
# The image that mkfs builds

`Mkfs.Ok F c s` : inode `i` of the image has the contents `c i`, each in blocks of its own, and
the blocks below `freeblock` are in use. `ialloc` and `iappend` keep that up, and stop only when
the disk or the file is full.
-/

namespace Xv6

open Function Prog

namespace Mkfs

variable {F : MkfsConf} {s s₀ : Mkfs} {inum : ℕ} {d din : Dinode} {E : MkfsFail → Prop}

/-! ## The image between the steps of `main` -/

/-- Inode `i` is the root directory or a file, with the contents `l` and the blocks they need. -/
structure Stores (F : MkfsConf) (s : Mkfs) (i : ℕ) (l : List UInt8) : Prop where
  type : (s.dinode F i).type = if i = ROOTINO then .dir else .file
  nlink : (s.dinode F i).nlink = 1
  size : (s.dinode F i).size = l.length
  filled : ∀ n, (s.dinode F i).slot s.image n ≠ 0 ↔ n < blocks l.length
  bytes : ∀ o, o < l.length → (s.dinode F i).byteAt s.image o = l.getD o 0

/-- The contents of inode `i` are `c i`. -/
structure Ok (F : MkfsConf) (c : ℕ → List UInt8) (s : Mkfs) : Prop where
  sectors : s.sectors = F.FSSIZE
  first : 1 ≤ s.freeinode
  last : s.freeinode ≤ NINODES
  bound : s.freeblock ≤ F.FSSIZE
  zero : ∀ b, s.freeblock ≤ b → s.image b = fun _ => 0
  super : s.image 1 = superblock F
  log : ∀ b, F.layout.logstart ≤ b → b < F.layout.inodestart → s.image b = fun _ => 0
  bitmap : ∀ b, F.layout.bmapstart ≤ b → b < F.nmeta → s.image b = fun _ => 0
  marked : Marked F.layout (s.inodes F) s.below s.image
  stores : ∀ {i}, 1 ≤ i → i < s.freeinode → Stores F s i (c i)
  small : ∀ i, (c i).length ≤ MAXFILE * BSIZE
  free : ∀ i, i < NINODES → i = 0 ∨ s.freeinode ≤ i → (s.dinode F i).type = .none ∧ c i = []
  count : s.freeblock = F.nmeta + ∑ i ∈ Finset.range NINODES, blocks (c i).length

/-! ## Writing an inode -/

/-- Inode `inum` is written to its block. -/
def setDinode (F : MkfsConf) (s : Mkfs) (inum : ℕ) (d : Dinode) : Mkfs :=
  s.setSector (F.layout.IBLOCK inum) ((s.image (F.layout.IBLOCK inum)).setDinode (inum % IPB) d)

/-- What `winode` writes is read back. -/
theorem dinode_setDinode_self (hd : d.Fits) : (s.setDinode F inum d).dinode F inum = d := by
  simp only [dinode, setDinode, setSector, update_self]
  exact Bytes.dinode_setDinode_self hd

/-- The other inodes of the block are kept. -/
theorem dinode_setDinode_of_ne {i : ℕ} (hi : i ≠ inum) :
    (s.setDinode F inum d).dinode F i = s.dinode F i := by
  by_cases hblock : F.layout.IBLOCK i = F.layout.IBLOCK inum
  · have hmod : i % IPB ≠ inum % IPB := by
      unfold FsLayout.IBLOCK IPB at *
      omega
    simp only [dinode, setDinode, setSector, hblock, update_self]
    exact Bytes.dinode_setDinode_of_ne hmod
  · exact dinode_congr (update_of_ne hblock _ _)

/-- `winode` writes to inode blocks only. -/
theorem image_setDinode {b : ℕ} (hi : inum < NINODES) (hb : F.layout.bmapstart ≤ b) :
    (s.setDinode F inum d).image b = s.image b := by
  have := F.IBLOCK_lt hi
  exact update_of_ne (by omega) _ _

theorem image_setDinode_of_lt {b : ℕ} (hb : b < F.layout.inodestart) :
    (s.setDinode F inum d).image b = s.image b :=
  update_of_ne (hb.trans_le (Nat.le_add_left _ _)).ne _ _

theorem inodes_setDinode (hi : inum < NINODES) (hd : d.Fits) :
    (s.setDinode F inum d).inodes F = update (s.inodes F) inum d := by
  funext i
  by_cases h : i = inum
  · subst h
    simp [inodes, hi, dinode_setDinode_self hd]
  · simp only [inodes, update_of_ne h, dinode_setDinode_of_ne h]

/-- Inode blocks are in the image. -/
theorem inode_sector (hi : inum < NINODES) (hs : s.sectors = F.FSSIZE) :
    F.layout.IBLOCK inum < s.sectors := by
  have := F.IBLOCK_lt hi
  have := F.bmapstart_lt
  have := F.nmeta_le
  omega

theorem rinode_spec {Q : Dinode → Mkfs → Prop} (hi : inum < NINODES) (hs : s.sectors = F.FSSIZE)
    (hQ : Q (s.dinode F inum) s) : wp E (rinode F inum) Q s :=
  wp_bind.mpr (rsect_spec (inode_sector hi hs) hQ)

theorem winode_spec {Q : Unit → Mkfs → Prop} (hi : inum < NINODES) (hs : s.sectors = F.FSSIZE)
    (hQ : Q () (s.setDinode F inum d)) : wp E (winode F inum d) Q s :=
  wp_bind.mpr (rsect_spec (inode_sector hi hs) (wsect_spec (inode_sector hi hs) hQ))

theorem dinode_fits (s : Mkfs) (i : ℕ) : (s.dinode F i).Fits := Bytes.dinode_fits _ _

end Mkfs

/-- The bitmap goes with the types and the addresses, and the contents of data blocks. -/
theorem Marked.congr {L : FsLayout} {ino ino' : ℕ → Dinode} {bitmap : ℕ → Bool}
    {data data' : ℕ → Bytes} (hm : Marked L ino bitmap data)
    (ht : ∀ i, i < L.ninodes → (ino' i).type = (ino i).type)
    (ha : ∀ i, i < L.ninodes → (ino' i).addrs = (ino i).addrs)
    (hdata : ∀ b, L.datastart ≤ b → data' b = data b) : Marked L ino' bitmap data' where
  owns := by
    have hplaces : places L ino' data' = places L ino data := by
      refine places_congr ht fun i n hi hn => Dinode.slot_congr (ha i hi) fun h0 => hdata _ ?_
      have huse := hm.inUse (n := NDIRECT) hi hn (by rwa [Dinode.slot_le le_rfl])
      rw [Dinode.slot_le le_rfl] at huse
      exact huse.1
    rw [hplaces]
    exact hm.owns
  reserved := hm.reserved

namespace Mkfs

variable {F : MkfsConf} {s s₀ : Mkfs} {inum : ℕ} {d din : Dinode} {E : MkfsFail → Prop}
variable {c : ℕ → List UInt8} {l : List UInt8} {Q : Unit → Mkfs → Prop} {i : ℕ}

theorem inodes_of_lt (hi : i < NINODES) : s.inodes F i = s.dinode F i := if_pos hi

/-- A stored inode is in use. -/
theorem Stores.live (h : Stores F s i l) : (s.dinode F i).type ≠ .none := by
  rw [h.type]
  split <;> simp

/-- The contents stay where the inode stays and its blocks do. -/
theorem Stores.congr (h : Stores F s₀ i l) (hd : s.dinode F i = s₀.dinode F i)
    (hkeep : ∀ n, (s₀.dinode F i).slot s₀.image n ≠ 0 →
      s.image ((s₀.dinode F i).slot s₀.image n) = s₀.image ((s₀.dinode F i).slot s₀.image n)) :
    Stores F s i l := by
  have hslot := Dinode.slot_frame hkeep
  refine ⟨hd ▸ h.type, hd ▸ h.nlink, hd ▸ h.size, fun n => ?_, fun o ho => ?_⟩
  · rw [hd, hslot]
    exact h.filled n
  · have hmap := (h.filled (Dinode.index (o / BSIZE))).mpr (blocks_lt ho)
    rw [hd, ← h.bytes o ho]
    simp only [Dinode.byteAt, Dinode.block, hslot, hkeep _ hmap]

theorem Ok.live (h : Ok F c s) (h1 : 1 ≤ i) (hi : i < s.freeinode) :
    (s.dinode F i).type ≠ .none := (h.stores h1 hi).live

/-- The blocks of the files are data blocks in use. -/
theorem Ok.inUse (h : Ok F c s) {i n : ℕ} (h1 : 1 ≤ i) (hi : i < s.freeinode)
    (hn : (s.dinode F i).slot s.image n ≠ 0) : F.nmeta ≤ (s.dinode F i).slot s.image n := by
  have hlt : i < NINODES := hi.trans_le h.last
  have hlive := h.live h1 hi
  rw [← inodes_of_lt hlt] at hlive hn ⊢
  exact (h.marked.inUse hlt hlive hn).1

/-- Before the first round of `iappend`. -/
theorem Ok.work (h : Ok F c s) (h1 : 1 ≤ inum) (hi : inum < s.freeinode) (src : Mem) :
    Work F s inum src 0 (blocks (s.dinode F inum).size) (s.dinode F inum) s := by
  have hlt : inum < NINODES := hi.trans_le h.last
  have hfocus : (s.view F inum (s.dinode F inum)).Focus F.layout theInode := by
    refine ⟨by rw [view_itable]; exact hlt, by simpa using h.live h1 hi, ?_⟩
    have hino : (s.view F inum (s.dinode F inum)).ino theInode = s.inodes F := by
      simp only [Fs.ino, view_itable]
      rw [← inodes_of_lt hlt]
      exact update_eq_self _ _
    rw [hino]
    exact h.marked
  refine ⟨h.sectors, rfl, ?_, h.bound, h.zero, fun _ _ => rfl, dinode_fits s inum, ?_, rfl,
    .refl hfocus⟩
  · rw [h.count]
    exact Nat.le_add_right _ _
  · rw [(h.stores h1 hi).size]
    exact (h.stores h1 hi).filled

/-- The blocks of one file more or less. -/
theorem sum_blocks_update (hi : inum < NINODES) (x : List UInt8) :
    ∑ i ∈ Finset.range NINODES, blocks (update c inum x i).length + blocks (c inum).length =
      ∑ i ∈ Finset.range NINODES, blocks (c i).length + blocks x.length := by
  have hcomp : (fun i => blocks (update c inum x i).length) =
      update (fun i => blocks (c i).length) inum (blocks x.length) := by
    funext i
    by_cases h : i = inum
    · subst h
      simp
    · simp [h]
  have hmem : inum ∈ Finset.range NINODES := Finset.mem_range.mpr hi
  have hsum := Finset.sum_update_of_mem hmem (fun i => blocks (c i).length) (blocks x.length)
  have hold := Finset.sum_eq_add_sum_sdiff_singleton_of_mem hmem fun i => blocks (c i).length
  rw [Finset.sum_congr rfl fun i _ => congrFun hcomp i, hsum]
  omega

/-- A file other than the one that `iappend` works on keeps its contents. -/
theorem Ok.other {src : Mem} {tot m i : ℕ} {x : Dinode} (h : Ok F c s₀)
    (hw : Work F s₀ inum src tot m din s) (hinum : inum < NINODES) (h1 : 1 ≤ i)
    (hi : i < s₀.freeinode) (hne : i ≠ inum) : Stores F (s.setDinode F inum x) i (c i) := by
  have hlt : i < NINODES := hi.trans_le h.last
  refine (h.stores h1 hi).congr ((dinode_setDinode_of_ne hne).trans
    (dinode_congr (hw.low _ ((F.IBLOCK_lt hlt).trans F.bmapstart_lt)))) fun n hn => ?_
  rw [image_setDinode hinum (F.bmapstart_lt.le.trans (h.inUse h1 hi hn))]
  have hlive := h.live h1 hi
  rw [← inodes_of_lt hlt] at hlive hn ⊢
  exact hw.wrote.others i hlt (by simpa using hne) hlive n hn

theorem Work.din_eq {src : Mem} {tot m : ℕ} (hw : Work F s₀ inum src tot m din s) :
    din = { s₀.dinode F inum with addrs := din.addrs } := by
  have h := congrFun hw.wrote.itable theInode
  simpa using h

/-- The slots of the inode stay when it is written back with a new size. -/
theorem Work.slot_back {src : Mem} {tot m : ℕ} (hw : Work F s₀ inum src tot m din s)
    (hi : inum < NINODES) (size n : ℕ) :
    Dinode.slot (s.setDinode F inum { din with size := size }).image { din with size := size } n =
      din.slot s.image n := by
  refine Dinode.slot_congr rfl fun h0 => image_setDinode hi ?_
  have hm : NDIRECT < m := (hw.filled NDIRECT).mp (by rwa [Dinode.slot_le le_rfl])
  have huse := hw.inUse hm
  rw [Dinode.slot_le le_rfl] at huse
  exact F.bmapstart_lt.le.trans huse.1

/-- The bytes of the inode that was appended to. -/
theorem Ok.append_bytes {p : Bytes} (h : Ok F c s₀) (h1 : 1 ≤ inum) (hi : inum < s₀.freeinode)
    (hp : ∀ k, k < l.length → p k = l.getD k 0)
    (hw : Work F s₀ inum (kernel p) l.length (blocks ((c inum).length + l.length)) din s) {o : ℕ}
    (ho : o < (c inum).length + l.length) :
    s.image (din.slot s.image (Dinode.index (o / BSIZE))) (o % BSIZE) =
      (c inum ++ l).getD o 0 := by
  have hlen := (h.stores h1 hi).size
  have hbytes := hw.wrote.bytes (o := o)
  simp only [hlen, view_slot] at hbytes
  have hbyte : (s.view F inum din).byte theInode o =
      s.image (din.slot s.image (Dinode.index (o / BSIZE))) (o % BSIZE) := by
    rw [Fs.byte_eq, view_slot]
    rfl
  rw [hbyte] at hbytes
  by_cases hold : o < (c inum).length
  · rw [hbytes (.inl (((h.stores h1 hi).filled _).mpr (blocks_lt hold))), if_neg (by omega),
      List.getD_append _ _ _ _ hold, ← (h.stores h1 hi).bytes o hold, Fs.byte_eq, view_slot]
    rfl
  · rw [hbytes (.inr ⟨by omega, ho⟩), if_pos ⟨by omega, ho⟩,
      List.getD_append_right _ _ _ _ (by omega)]
    exact hp _ (by omega)

/-- `iappend` ends with the inode written back. -/
theorem Ok.append {p : Bytes} (h : Ok F c s₀) (h1 : 1 ≤ inum) (hi : inum < s₀.freeinode)
    (hp : ∀ k, k < l.length → p k = l.getD k 0)
    (hsize : (c inum).length + l.length ≤ MAXFILE * BSIZE)
    (hw : Work F s₀ inum (kernel p) l.length (blocks ((s₀.dinode F inum).size + l.length)) din s) :
    Ok F (update c inum (c inum ++ l))
      (s.setDinode F inum { din with size := (s₀.dinode F inum).size + l.length }) := by
  have hlt : inum < NINODES := hi.trans_le h.last
  have hlen := (h.stores h1 hi).size
  rw [hlen] at hw ⊢
  have hfits : Dinode.Fits { din with size := (c inum).length + l.length } :=
    { hw.fits with size := hsize.trans_lt (by decide) }
  have hself : (s.setDinode F inum { din with size := (c inum).length + l.length }).dinode F inum =
      { din with size := (c inum).length + l.length } := dinode_setDinode_self hfits
  have hslot := hw.slot_back hlt ((c inum).length + l.length)
  have hdin := hw.din_eq
  refine ⟨hw.sectors, hw.freeinode ▸ h.first, hw.freeinode ▸ h.last, hw.bound, ?_, ?_, ?_, ?_, ?_,
    fun {i} hi1 hi2 => ?_, ?_, ?_, ?_⟩
  · intro b hb
    have hb' : s.freeblock ≤ b := hb
    rw [image_setDinode hlt (F.bmapstart_lt.le.trans (hw.start.trans hb'))]
    exact hw.zero b hb'
  · rw [image_setDinode_of_lt F.one_lt_inodestart, hw.low 1 F.one_lt, h.super]
  · intro b hlo hhi
    rw [image_setDinode_of_lt hhi, hw.low b (hhi.trans F.inodestart_lt)]
    exact h.log b hlo hhi
  · intro b hlo hhi
    rw [image_setDinode hlt hlo, hw.low b hhi]
    exact h.bitmap b hlo hhi
  · rw [inodes_setDinode hlt hfits]
    refine hw.wrote.focus.marked.congr (fun i _ => ?_) (fun i _ => ?_) fun b hb =>
      image_setDinode hlt (F.bmapstart_lt.le.trans hb)
    · by_cases hne : i = inum
      · subst hne
        simp
      · simp [Fs.ino, view, hne]
    · by_cases hne : i = inum
      · subst hne
        simp
      · simp [Fs.ino, view, hne]
  · by_cases hne : i = inum
    · rw [hne, update_self]
      refine ⟨?_, ?_, by rw [hself, List.length_append], fun n => ?_, fun o ho => ?_⟩
      · rw [hself]
        exact (congrArg Dinode.type hdin).trans (h.stores h1 hi).type
      · rw [hself]
        exact (congrArg Dinode.nlink hdin).trans (h.stores h1 hi).nlink
      · rw [hself, hslot, List.length_append]
        exact hw.filled n
      · rw [List.length_append] at ho
        rw [hself, ← h.append_bytes h1 hi hp hw ho, Dinode.byteAt, Dinode.block, hslot,
          image_setDinode hlt (F.bmapstart_lt.le.trans (hw.inUse (blocks_lt ho)).1)]
    · rw [update_of_ne hne]
      exact h.other hw hlt hi1 (hw.freeinode ▸ hi2) hne
  · intro i
    by_cases hne : i = inum
    · rw [hne, update_self, List.length_append]
      exact hsize
    · rw [update_of_ne hne]
      exact h.small i
  · intro i hi1 hi2
    have hi2' : i = 0 ∨ s₀.freeinode ≤ i := hw.freeinode ▸ hi2
    have hne : i ≠ inum := by omega
    rw [dinode_setDinode_of_ne hne, update_of_ne hne,
      dinode_congr (hw.low _ ((F.IBLOCK_lt hi1).trans F.bmapstart_lt))]
    exact h.free i hi1 hi2'
  · have hcount := hw.count
    have hsum := sum_blocks_update (c := c) hlt (c inum ++ l)
    have hold := h.count
    rw [hlen] at hcount
    rw [List.length_append] at hsum
    simp only [setDinode, setSector]
    omega

/-- `iappend` appends the bytes, or the disk or the file is full. -/
theorem iappend_spec {p : Bytes} {n : ℕ} (h : Ok F c s) (h1 : 1 ≤ inum) (hi : inum < s.freeinode)
    (hn : n = l.length) (hp : ∀ k, k < l.length → p k = l.getD k 0)
    (hE : F.FSSIZE + blocks (c inum).length < s.freeblock + blocks ((c inum).length + l.length) →
      ∀ e, E e)
    (hmax : MAXFILE * BSIZE < (c inum).length + l.length → ∀ e, E e)
    (hQ : ∀ s', Ok F (update c inum (c inum ++ l)) s' → s'.freeinode = s.freeinode → Q () s') :
    wp E (iappend F inum p n) Q s := by
  subst hn
  have hlt : inum < NINODES := hi.trans_le h.last
  have hlen := (h.stores h1 hi).size
  rw [← hlen] at hE hmax
  refine wp_bind.mpr (rinode_spec hlt h.sectors (wp_bind.mpr ?_))
  refine (appendLoop_spec hE hmax l.length 0 (h.work h1 hi (kernel p)) (by omega)
    (Nat.zero_le _) (by rw [hlen]; exact h.small inum)).mono ?_
  rintro ⟨din, off⟩ s' ⟨rfl, hsize, hw⟩
  refine winode_spec hlt hw.sectors (hQ _ ?_ hw.freeinode)
  exact h.append h1 hi hp (hlen ▸ hsize) hw

theorem slot_fresh {img : ℕ → Bytes} {type : FileType} {nlink : ℤ} (n : ℕ) :
    Dinode.slot img ⟨type, 0, 0, nlink, 0, fun _ => 0⟩ n = 0 := by
  simp [Dinode.slot]

theorem blocks_zero : blocks 0 = 0 := by decide

/-- `ialloc` gives the next inode number, with empty contents. -/
theorem Ok.ialloc (h : Ok F c s) (hlt : s.freeinode < NINODES) {type : FileType}
    (htype : type = if s.freeinode = ROOTINO then .dir else .file) :
    Ok F c (Mkfs.setDinode F { s with freeinode := s.freeinode + 1 } s.freeinode
      ⟨type, 0, 0, 1, 0, fun _ => 0⟩) := by
  let s₁ : Mkfs := { s with freeinode := s.freeinode + 1 }
  have hfits : Dinode.Fits ⟨type, 0, 0, 1, 0, fun _ => 0⟩ :=
    ⟨by simp, by simp, by simp, by simp, fun _ => by simp, fun _ _ => rfl⟩
  have hself : (s₁.setDinode F s.freeinode ⟨type, 0, 0, 1, 0, fun _ => 0⟩).dinode F s.freeinode =
      ⟨type, 0, 0, 1, 0, fun _ => 0⟩ := dinode_setDinode_self hfits
  have hother : ∀ i, i ≠ s.freeinode →
      (s₁.setDinode F s.freeinode ⟨type, 0, 0, 1, 0, fun _ => 0⟩).dinode F i = s.dinode F i :=
    fun i hi => dinode_setDinode_of_ne hi
  have hstart : F.nmeta ≤ s.freeblock := by
    rw [h.count]
    exact Nat.le_add_right _ _
  have himage : ∀ b, F.layout.bmapstart ≤ b →
      (s₁.setDinode F s.freeinode ⟨type, 0, 0, 1, 0, fun _ => 0⟩).image b = s.image b :=
    fun b hb => image_setDinode hlt hb
  have hdata := fun b (hb : F.nmeta ≤ b) => himage b (F.bmapstart_lt.le.trans hb)
  obtain ⟨hnone, hempty⟩ := h.free s.freeinode hlt (.inr le_rfl)
  refine ⟨h.sectors, Nat.le_succ_of_le h.first, hlt, h.bound, ?_, ?_, ?_, ?_, ?_,
    fun {i} hi1 hi2 => ?_, h.small, ?_, h.count⟩
  · exact fun b hb => (hdata b (hstart.trans hb)).trans (h.zero b hb)
  · exact (image_setDinode_of_lt F.one_lt_inodestart).trans h.super
  · exact fun b hlo hhi => (image_setDinode_of_lt hhi).trans (h.log b hlo hhi)
  · exact fun b hlo hhi => (himage b hlo).trans (h.bitmap b hlo hhi)
  · refine ⟨?_, h.marked.reserved⟩
    have hplaces : places F.layout (update (s.inodes F) s.freeinode ⟨type, 0, 0, 1, 0, fun _ => 0⟩)
        (s₁.setDinode F s.freeinode ⟨type, 0, 0, 1, 0, fun _ => 0⟩).image =
        places F.layout (s.inodes F) s.image := by
      funext ⟨i, n⟩
      by_cases hi : i = s.freeinode
      · subst hi
        rw [places_eq_none (by rw [update_self]; exact slot_fresh n)]
        exact (if_neg fun hlive => hlive.2.1 (by rwa [inodes_of_lt hlt])).symm
      · unfold places
        simp only [update_of_ne hi]
        by_cases hlive : i < F.layout.ninodes ∧ (s.inodes F i).type ≠ .none
        · rw [(Dinode.slot_congr rfl fun h0 => hdata _ ?_ : (s.inodes F i).slot _ n = _)]
          have huse := h.marked.inUse (n := NDIRECT) hlive.1 hlive.2
            (by rwa [Dinode.slot_le le_rfl])
          rw [Dinode.slot_le le_rfl] at huse
          exact huse.1
        · rw [if_neg fun h => hlive ⟨h.1, h.2.1⟩, if_neg fun h => hlive ⟨h.1, h.2.1⟩]
    rw [inodes_setDinode hlt hfits]
    exact hplaces ▸ h.marked.owns
  · by_cases hi : i = s.freeinode
    · rw [hi, hempty]
      refine ⟨?_, ?_, ?_, fun n => ?_, fun o ho => absurd ho (Nat.not_lt_zero o)⟩
      · rw [hself]
        exact htype
      · rw [hself]
      · rw [hself]
        rfl
      · rw [hself, slot_fresh, List.length_nil, blocks_zero]
        simp
    · have hlast : i < s.freeinode + 1 := hi2
      exact (h.stores hi1 (by omega)).congr (hother i hi) fun _ hn =>
        hdata _ (h.inUse hi1 (by omega) hn)
  · intro i hi1 hi2
    have hne : i ≠ s.freeinode := by
      have := h.first
      simp only [setDinode, setSector] at hi2
      omega
    rw [hother i hne]
    refine h.free i hi1 (hi2.imp_right fun h => ?_)
    simp only [setDinode, setSector] at h
    omega

/-- The next inode is taken. -/
theorem ialloc_spec {type : FileType} {Q : ℕ → Mkfs → Prop} (h : Ok F c s)
    (hlt : s.freeinode < NINODES) (htype : type = if s.freeinode = ROOTINO then .dir else .file)
    (hQ : ∀ s', Ok F c s' → s'.freeinode = s.freeinode + 1 → s'.freeblock = s.freeblock →
      Q s.freeinode s') :
    wp E (Mkfs.ialloc F type) Q s := by
  simp only [Mkfs.ialloc, wp_bind, wp_get, wp_modify]
  exact winode_spec hlt h.sectors (hQ _ (h.ialloc hlt htype) rfl rfl)

theorem Ok.freeblock_update {s' : Mkfs} {x : List UInt8} (h : Ok F c s)
    (h' : Ok F (update c inum x) s') (hi : inum < NINODES) :
    s'.freeblock + blocks (c inum).length = s.freeblock + blocks x.length := by
  have := sum_blocks_update (c := c) hi x
  have := h.count
  have := h'.count
  omega

/-- The blocks of a host file are appended. -/
theorem copyLoop_spec : ∀ (fuel : ℕ) (l : List UInt8) {c : ℕ → List UInt8} {s : Mkfs}, Ok F c s →
    1 ≤ inum → inum < s.freeinode → l.length ≤ fuel →
    (F.FSSIZE + blocks (c inum).length < s.freeblock + blocks ((c inum).length + l.length) →
      ∀ e, E e) →
    (MAXFILE * BSIZE < (c inum).length + l.length → ∀ e, E e) →
    (∀ s', Ok F (update c inum (c inum ++ l)) s' → s'.freeinode = s.freeinode → Q () s') →
    wp E (copyLoop F inum fuel l) Q s
  | 0, l, c, s, h, _, _, hfuel, _, _, hQ => by
    obtain rfl : l = [] := List.length_eq_zero_iff.mp (by omega)
    exact hQ s (by simpa using h) rfl
  | fuel + 1, l, c, s, h, h1, hi, hfuel, hE, hmax, hQ => by
    simp only [copyLoop, wp_ite]
    split
    · rename_i hnil
      subst hnil
      exact hQ s (by simpa using h) rfl
    · rename_i hne
      have hpos : 0 < l.length := List.length_pos_iff.mpr hne
      have htake : (l.take BSIZE).length = min l.length BSIZE := by
        rw [List.length_take, Nat.min_comm]
      have hdrop : (l.drop BSIZE).length = l.length - BSIZE := List.length_drop
      have hmono : blocks ((c inum).length + (l.take BSIZE).length) ≤
          blocks ((c inum).length + l.length) := blocks_mono (by omega)
      refine wp_bind.mpr (iappend_spec h h1 hi htake.symm (fun _ _ => rfl)
        (fun hlt => hE (by omega)) (fun hlt => hmax (by omega)) fun s' h' hfree => ?_)
      have hblocks := h.freeblock_update h' (hi.trans_le h.last)
      rw [List.length_append] at hblocks
      have hpart : (c inum ++ l.take BSIZE).length + (l.drop BSIZE).length =
          (c inum).length + l.length := by
        rw [List.length_append, htake, hdrop]
        omega
      have hBSIZE : 0 < BSIZE := by decide
      refine copyLoop_spec fuel (l.drop BSIZE) h' h1 (hfree ▸ hi) (by omega) ?_ ?_ ?_
      · rw [update_self, hpart, List.length_append]
        exact fun hlt => hE (by omega)
      · rw [update_self, hpart]
        exact hmax
      · intro s'' h'' hfree'
        rw [update_self, update_idem, List.append_assoc, List.take_append_drop] at h''
        exact hQ s'' h'' (hfree'.trans hfree)

end Mkfs

end Xv6
