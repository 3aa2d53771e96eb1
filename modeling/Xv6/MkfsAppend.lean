import Xv6.FileData
import Xv6.Mkfs

/-!
# How mkfs appends to a file

`mkfs` takes blocks in order, so the blocks below `freeblock` are the ones in use, and the slots
of an inode fill up in order (`blocks`). While `iappend` runs, the image with the inode at hand
is seen as the file system in which the kernel's `writei` works on that inode (`Mkfs.view`), and
the lemmas about the kernel's steps apply to the loop (`Mkfs.appendLoop_spec`).
-/

namespace Xv6

open Function Prog

/-! ## How many blocks a file takes -/

/-- The blocks of a file of `len` bytes, with the indirect block. -/
def blocks (len : ℕ) : ℕ :=
  let nb := (len + (BSIZE - 1)) / BSIZE
  if nb ≤ NDIRECT then nb else nb + 1

theorem blocks_mono {a b : ℕ} (h : a ≤ b) : blocks a ≤ blocks b := by
  have hdiv : (a + (BSIZE - 1)) / BSIZE ≤ (b + (BSIZE - 1)) / BSIZE :=
    Nat.div_le_div_right (by omega)
  simp only [blocks]
  split <;> split <;> omega

/-- The slots up to that of a file's last block are full. -/
theorem blocks_of_block {off n : ℕ} (hn : 0 < n) (hle : off + n ≤ (off / BSIZE + 1) * BSIZE) :
    blocks (off + n) = Dinode.index (off / BSIZE) + 1 := by
  have hnb : (off + n + (BSIZE - 1)) / BSIZE = off / BSIZE + 1 := by
    unfold BSIZE at hle ⊢
    omega
  simp only [blocks, Dinode.index, hnb]
  split <;> split <;> omega

/-- A file has the blocks of its bytes. -/
theorem blocks_lt {o len : ℕ} (h : o < len) : Dinode.index (o / BSIZE) < blocks len := by
  have hle : o + 1 ≤ (o / BSIZE + 1) * BSIZE := by
    unfold BSIZE
    omega
  have := blocks_of_block Nat.one_pos hle
  have := blocks_mono (show o + 1 ≤ len from h)
  omega

/-- A file of whole blocks has no block after its last. -/
theorem blocks_mul_le (n : ℕ) : blocks (BSIZE * n) ≤ Dinode.index n := by
  have hnb : (BSIZE * n + (BSIZE - 1)) / BSIZE = n := by
    unfold BSIZE
    omega
  simp only [blocks, Dinode.index, hnb]
  split <;> split <;> omega

/-- The next block is there, or it is the next one to take. -/
theorem blocks_at (off : ℕ) : blocks off = Dinode.index (off / BSIZE) + 1 ∨
    blocks off = off / BSIZE ∧ off / BSIZE ≤ NDIRECT ∨
    blocks off = Dinode.index (off / BSIZE) ∧ NDIRECT < off / BSIZE := by
  have hnb : (off + (BSIZE - 1)) / BSIZE = off / BSIZE + 1 ∨
      (off + (BSIZE - 1)) / BSIZE = off / BSIZE := by
    unfold BSIZE
    omega
  simp only [blocks, Dinode.index]
  rcases hnb with hnb | hnb <;> rw [hnb] <;> split <;> split <;> omega

theorem MkfsConf.datastart_eq (F : MkfsConf) : F.layout.datastart = F.nmeta := rfl

theorem MkfsConf.nmeta_le (F : MkfsConf) : F.nmeta ≤ F.FSSIZE := F.room

theorem MkfsConf.IBLOCK_lt (F : MkfsConf) {i : ℕ} (h : i < NINODES) :
    F.layout.IBLOCK i < F.layout.bmapstart := by
  simp only [FsLayout.IBLOCK, MkfsConf.layout, ninodeblocks, IPB]
  unfold NINODES at h
  unfold NINODES
  omega

theorem MkfsConf.one_lt_IBLOCK (F : MkfsConf) (i : ℕ) : 1 < F.layout.IBLOCK i :=
  lt_of_lt_of_le (by decide : 1 < 2 + LOGSIZE) (Nat.le_add_left _ _)

theorem MkfsConf.one_lt (F : MkfsConf) : 1 < F.nmeta :=
  lt_of_lt_of_le (by decide : 1 < 2 + LOGSIZE + ninodeblocks) (Nat.le_add_right _ _)

theorem MkfsConf.one_lt_inodestart (F : MkfsConf) : 1 < F.layout.inodestart :=
  (by decide : 1 < 2 + LOGSIZE)

theorem MkfsConf.inodestart_lt (F : MkfsConf) : F.layout.inodestart < F.nmeta :=
  lt_of_lt_of_le (by decide : 2 + LOGSIZE < 2 + LOGSIZE + ninodeblocks) (Nat.le_add_right _ _)

theorem MkfsConf.bmapstart_lt (F : MkfsConf) : F.layout.bmapstart < F.nmeta :=
  Nat.lt_add_of_pos_right (Nat.succ_pos _)

namespace Mkfs

variable (F : MkfsConf)

/-- The on-disk inodes. -/
def inodes (s : Mkfs) (i : ℕ) : Dinode := if i < NINODES then s.dinode F i else .fresh .none

/-- The blocks in use. -/
def below (s : Mkfs) (b : ℕ) : Bool := b < s.freeblock

def theInode : Fin NINODE := ⟨0, NINODE_pos⟩

/-- The image, with `d` in the place of inode `inum`, as a file system in which that inode is
locked. -/
def view (s : Mkfs) (inum : ℕ) (d : Dinode) : Fs where
  bitmap := s.below
  dinode := s.inodes F
  data := s.image
  itable := update (fun _ => ⟨0, 0, false, false, .fresh .none⟩) theInode ⟨inum, 1, true, true, d⟩
  logged := []

variable {F} {s s₀ : Mkfs} {inum : ℕ} {d din : Dinode}

@[simp] theorem view_itable : (s.view F inum d).itable theInode = ⟨inum, 1, true, true, d⟩ := by
  simp [view]

@[simp] theorem view_slot {n : ℕ} : (s.view F inum d).slot theInode n = d.slot s.image n := by
  simp [Fs.slot, view]

@[simp] theorem view_ino : (s.view F inum d).ino theInode inum = d := by
  simp [Fs.ino, view]

theorem dinode_congr {s' : Mkfs} {i : ℕ}
    (h : s'.image (F.layout.IBLOCK i) = s.image (F.layout.IBLOCK i)) :
    s'.dinode F i = s.dinode F i := by
  rw [dinode, dinode, h]

theorem inodes_congr {s' : Mkfs} (h : ∀ b, b < F.nmeta → s'.image b = s.image b) :
    s'.inodes F = s.inodes F := by
  funext i
  unfold inodes
  split
  · rename_i hi
    exact dinode_congr (h _ ((F.IBLOCK_lt hi).trans F.bmapstart_lt))
  · rfl

/-! ## The loop of `iappend` -/

/-- `tot` bytes of `src` are appended to inode `inum` of `s₀`, which has `m` slots filled, and
is in `din` and not yet in the image. -/
structure Work (F : MkfsConf) (s₀ : Mkfs) (inum : ℕ) (src : Mem) (tot m : ℕ) (din : Dinode)
    (s : Mkfs) : Prop where
  sectors : s.sectors = F.FSSIZE
  freeinode : s.freeinode = s₀.freeinode
  start : F.nmeta ≤ s.freeblock
  bound : s.freeblock ≤ F.FSSIZE
  zero : ∀ b, s.freeblock ≤ b → s.image b = fun _ => 0
  low : ∀ b, b < F.nmeta → s.image b = s₀.image b
  fits : din.Fits
  filled : ∀ n, din.slot s.image n ≠ 0 ↔ n < m
  count : s.freeblock + blocks (s₀.dinode F inum).size = s₀.freeblock + m
  wrote : Fs.Wrote F.layout (s₀.view F inum (s₀.dinode F inum)) theInode src
    (s₀.dinode F inum).size tot (s.view F inum din)

variable {src : Mem} {tot m : ℕ}

theorem below_succ : update s.below s.freeblock true = fun b => decide (b < s.freeblock + 1) := by
  funext b
  by_cases hb : b = s.freeblock
  · simp [hb]
  · simp only [update_of_ne hb, below]
    congr 1
    exact propext ⟨fun h => by omega, fun h => by omega⟩

theorem Work.pos (hw : Work F s₀ inum src tot m din s) : s.freeblock ≠ 0 := by
  have := F.layout.datastart_pos
  have := hw.start
  rw [F.datastart_eq] at *
  omega

theorem Work.update_zero (hw : Work F s₀ inum src tot m din s) :
    update s.image s.freeblock (fun _ => 0) = s.image := by
  rw [← hw.zero s.freeblock le_rfl, update_eq_self]

theorem Work.inUse (hw : Work F s₀ inum src tot m din s) {n : ℕ} (h : n < m) :
    F.nmeta ≤ din.slot s.image n ∧ din.slot s.image n < s.freeblock := by
  have huse := hw.wrote.focus.marked.inUse (i := inum) (n := n)
    (by simpa using hw.wrote.focus.inum) (by simpa using hw.wrote.focus.type)
    (by rw [view_ino]; exact (hw.filled n).mpr h)
  rw [view_ino] at huse
  exact ⟨huse.1, by simpa [view, below] using huse.2.2⟩

/-- A sector of the image is written. -/
def setSector (s : Mkfs) (x : ℕ) (buf : Bytes) : Mkfs := { s with image := update s.image x buf }

theorem setSector_max {x : ℕ} (h : x < s.sectors) (buf : Bytes) :
    { s with image := update s.image x buf, sectors := max s.sectors (x + 1) } =
      s.setSector x buf := by
  rw [setSector, max_eq_left h]

theorem view_free (s : Mkfs) : (s.view F inum din).bitmap s.freeblock = false := by
  simp [view, below]

/-- The next block, which has been zero from the start, goes into slot `m`, as when the kernel
allocates a block. -/
theorem Work.take {s' : Mkfs} {d : Dinode} (hw : Work F s₀ inum src tot m din s)
    (hroom : s.freeblock < F.FSSIZE) (hsect : s'.sectors = s.sectors)
    (hfree : s'.freeinode = s.freeinode) (hnext : s'.freeblock = s.freeblock + 1)
    (himage : ∀ b, b < F.nmeta ∨ s.freeblock ≤ b → s'.image b = s.image b)
    (hd : d = { din with addrs := d.addrs }) (hfits : d.Fits)
    (hslot : ∀ n, d.slot s'.image n = if n = m then s.freeblock else din.slot s.image n)
    (hkeep : ∀ i n, i < NINODES → ((s.view F inum din).ino theInode i).type ≠ .none →
      i ≠ inum ∨ n ≠ NDIRECT → ((s.view F inum din).ino theInode i).slot s.image n ≠ 0 →
      s'.image (((s.view F inum din).ino theInode i).slot s.image n) =
        s.image (((s.view F inum din).ino theInode i).slot s.image n)) :
    Work F s₀ inum src tot (m + 1) d s' := by
  have hzero : din.slot s.image m = 0 := by
    by_contra h0
    exact absurd ((hw.filled m).mp h0) (lt_irrefl m)
  have hitable : (s'.view F inum d).itable = update (s.view F inum din).itable theInode
      ⟨inum, 1, true, true, d⟩ := by
    simp only [view, update_idem]
  have hbelow : s'.below = update s.below s.freeblock true := by
    rw [below_succ]
    funext b
    rw [below, hnext]
  obtain ⟨hf, hg, -⟩ := hw.wrote.focus.fill (t := s'.view F inum d) (n := m)
    (by rw [view_slot, hzero]) hw.start hroom (view_free s)
    (by rw [hitable, update_self, view_itable]; exact congrArg _ (congrArg _ hd))
    (inodes_congr fun b hb => himage b (.inl hb)) hbelow
    ((himage _ (.inr le_rfl)).trans (hw.zero _ le_rfl))
    (fun n => by rw [view_slot, view_slot, hslot])
    fun i n hi ht hne => hkeep i n hi ht (by rwa [view_itable] at hne)
  refine ⟨hsect.trans hw.sectors, hfree.trans hw.freeinode, ?_, by rwa [hnext], fun b hb => ?_,
    fun b hb => (himage b (.inl hb)).trans (hw.low b hb), hfits, fun n => ?_, ?_,
    hw.wrote.grow hf hg⟩
  · rw [hnext]
    exact hw.start.trans (Nat.le_succ _)
  · rw [himage b (.inr (by omega)), hw.zero b (by omega)]
  · rw [hslot]
    split
    · simp only [hw.pos, ne_eq, not_false_eq_true, true_iff]
      omega
    · rw [hw.filled n]
      omega
  · have := hw.count
    omega

/-- The next block goes into `addrs[m]`. -/
theorem Work.takeAddr (hw : Work F s₀ inum src tot m din s) (hm : m ≤ NDIRECT)
    (hroom : s.freeblock < F.FSSIZE) :
    Work F s₀ inum src tot (m + 1) { din with addrs := update din.addrs m s.freeblock }
      { s with freeblock := s.freeblock + 1 } := by
  have hzero : din.addrs m = 0 := by
    by_contra h0
    rw [← Dinode.slot_le hm] at h0
    exact absurd ((hw.filled m).mp h0) (lt_irrefl m)
  have hlt : s.freeblock < 2 ^ 32 := hroom.trans (F.lt.trans (by decide))
  have hind := hw.wrote.focus.indirect_ne_free hw.start (view_free s)
  rw [view_itable] at hind
  refine hw.take hroom rfl rfl rfl (fun _ _ => rfl) rfl
    { hw.fits with addrs := fun n => ?_, beyond := fun n hn => ?_ } (fun n => ?_)
    fun _ _ _ _ _ _ => rfl
  · by_cases hnm : n = m
    · simpa [hnm] using hlt
    · simpa [hnm] using hw.fits.addrs n
  · have hnm : n ≠ m := by omega
    simpa [hnm] using hw.fits.beyond n hn
  · conv_lhs => rw [← hw.update_zero]
    exact Dinode.slot_setAddr hm hzero hind n

/-- The next block goes into entry `j` of the indirect block. -/
theorem Work.takeEntry {j : ℕ} (hw : Work F s₀ inum src tot (NDIRECT + 1 + j) din s)
    (hj : j < NINDIRECT) (hroom : s.freeblock < F.FSSIZE) :
    Work F s₀ inum src tot (NDIRECT + 1 + j + 1) din
      { s.setSector (din.addrs NDIRECT) ((s.image (din.addrs NDIRECT)).setWord j s.freeblock)
        with freeblock := s.freeblock + 1 } := by
  have ha : din.addrs NDIRECT ≠ 0 := by
    rw [← Dinode.slot_le le_rfl]
    exact (hw.filled NDIRECT).mpr (by omega)
  obtain ⟨hlo, hhi⟩ := hw.inUse (n := NDIRECT) (by omega)
  rw [Dinode.slot_le le_rfl] at hlo hhi
  have hlt : s.freeblock < 2 ^ 32 := hroom.trans (F.lt.trans (by decide))
  refine hw.take hroom rfl rfl rfl (fun b hb => update_of_ne (by omega) ..) rfl hw.fits
    (Dinode.slot_setEntry hj ha hlt) fun i n hi ht hne _ => update_of_ne ?_ ..
  have hother := hw.wrote.focus.indirect_ne (by rwa [view_itable]) hi ht (by rwa [view_itable])
  rwa [view_itable] at hother

/-- The round of the loop that writes `c` bytes to block `x`. -/
theorem Work.write {c x : ℕ} (hw : Work F s₀ inum src tot m din s)
    (hx : x = din.slot s.image (Dinode.index (((s₀.dinode F inum).size + tot) / BSIZE)))
    (hm : Dinode.index (((s₀.dinode F inum).size + tot) / BSIZE) < m)
    (hc : c ≤ BSIZE - ((s₀.dinode F inum).size + tot) % BSIZE) :
    Work F s₀ inum src (tot + c) m din (s.setSector x ((s.image x).splice
      (((s₀.dinode F inum).size + tot) % BSIZE) c fun k => src.byte (tot + k))) := by
  obtain ⟨hlo, hhi⟩ := hw.inUse hm
  rw [← hx] at hlo hhi
  have hx0 : x ≠ 0 := hx ▸ (hw.filled _).mpr hm
  have hslotx : (s.view F inum din).slot theInode
      (Dinode.index (((s₀.dinode F inum).size + tot) / BSIZE)) = x := by rw [view_slot, ← hx]
  have hstep := hw.wrote.splice (c := c) (by rwa [hslotx]) hc []
  rw [hslotx] at hstep
  have hlow : ∀ b buf, b < F.nmeta → update s.image x buf b = s.image b := fun b buf hb =>
    update_of_ne (by omega) _ _
  -- the block is no indirect block
  have hne : din.addrs NDIRECT ≠ x := by
    obtain ⟨-, -, hne, -⟩ := hw.wrote.focus.write (Dinode.index_ne_indirect _)
      (hslotx.trans_ne hx0) (fun _ => 0) []
    have h := hne NDIRECT (Dinode.index_ne_indirect _).symm
    rwa [hslotx, view_slot, Dinode.slot_le le_rfl] at h
  have hslot : ∀ n buf, din.slot (update s.image x buf) n = din.slot s.image n := fun n buf =>
    Dinode.slot_congr rfl fun _ => update_of_ne hne _ _
  refine ⟨hw.sectors, hw.freeinode, hw.start, hw.bound, fun b hb => ?_,
    fun b hb => (hlow b _ hb).trans (hw.low b hb), hw.fits, fun n => ?_, hw.count, ?_⟩
  · have hb' : s.freeblock ≤ b := hb
    exact (update_of_ne (by omega) _ _).trans (hw.zero b hb')
  · rw [setSector, hslot]
    exact hw.filled n
  · have hview : ∀ buf, (s.setSector x buf).view F inum din =
        (s.view F inum din).setData x buf [] := fun buf => by
      have hinodes : (s.setSector x buf).inodes F = s.inodes F :=
        inodes_congr fun b hb => hlow b buf hb
      simp only [view, Fs.setData, hinodes]
      rfl
    rw [hview]
    exact hstep

variable {E : MkfsFail → Prop}

theorem rsect_spec {x : ℕ} {Q : Bytes → Mkfs → Prop} (h : x < s.sectors) (hQ : Q (s.image x) s) :
    wp E (rsect x) Q s := by
  simp only [rsect, wp_bind, wp_get, if_pos h]
  exact hQ

/-- A sector beyond the end of the image cannot be read. -/
theorem rsect_lost {x : ℕ} {Q : Bytes → Mkfs → Prop} (h : s.sectors ≤ x) (hE : ∀ e, E e) :
    wp E (rsect x) Q s := by
  simp only [rsect, wp_bind, wp_get, if_neg (Nat.not_lt.mpr h)]
  exact hE _

theorem wsect_spec {x : ℕ} {buf : Bytes} {Q : Unit → Mkfs → Prop} (h : x < s.sectors)
    (hQ : Q () (s.setSector x buf)) : wp E (wsect x buf) Q s := by
  rw [← setSector_max h] at hQ
  exact hQ

/-- A slot that is full stays, the next one gets the next block. -/
theorem fillAddr_spec (hw : Work F s₀ inum src tot m din s) {n : ℕ} (hn : n ≤ NDIRECT)
    (hm : n ≤ m) : wp E (fillAddr din n) (fun d s' =>
      (F.FSSIZE ≤ s.freeblock ∧ n = m ∧ F.FSSIZE ≤ d.addrs n ∧ s'.sectors = F.FSSIZE) ∨
      Work F s₀ inum src tot (max m (n + 1)) d s') s := by
  have hfull := hw.filled n
  rw [Dinode.slot_le hn] at hfull
  simp only [fillAddr, wp_ite]
  split
  · rename_i hzero
    obtain rfl : n = m := by
      have : ¬ n < m := fun h => hfull.mpr h hzero
      omega
    simp only [nextBlock, wp_bind, wp_get, wp_modify, wp_pure]
    by_cases hroom : s.freeblock < F.FSSIZE
    · rw [max_eq_right (Nat.le_succ n)]
      exact .inr (hw.takeAddr hn hroom)
    · have hle : F.FSSIZE ≤ s.freeblock := by omega
      exact .inl ⟨hle, trivial, by simpa using hle, hw.sectors⟩
  · rename_i hne
    rw [max_eq_left (hfull.mp hne)]
    exact .inr hw

/-- Block `off / BSIZE` of the file is there afterwards, unless there is no block left. -/
theorem findBlock_spec {off : ℕ} (hw : Work F s₀ inum src tot (blocks off) din s)
    (hmax : off / BSIZE < MAXFILE)
    (hE : F.FSSIZE < s.freeblock + (Dinode.index (off / BSIZE) + 1 - blocks off) → ∀ e, E e) :
    wp E (findBlock din (off / BSIZE)) (fun r s' =>
      (F.FSSIZE ≤ r.1 ∧ s'.sectors = F.FSSIZE ∧ ∀ e, E e) ∨
      (r.1 = r.2.slot s'.image (Dinode.index (off / BSIZE)) ∧
        Work F s₀ inum src tot (Dinode.index (off / BSIZE) + 1) r.2 s')) s := by
  have hat := blocks_at off
  generalize hm : blocks off = m at *
  generalize off / BSIZE = fbn at *
  simp only [findBlock, wp_ite]
  split
  · rename_i hd
    have hidx : Dinode.index fbn = fbn := if_pos hd
    rw [hidx] at hat hE ⊢
    refine (fillAddr_spec hw hd.le (by omega)).bind ?_
    rintro d s' (⟨hfull, rfl, hlost, hsect⟩ | hw')
    · exact .inl ⟨hlost, hsect, hE (by omega)⟩
    · rw [max_eq_right (by omega)] at hw'
      exact .inr ⟨(Dinode.slot_le hd.le).symm, hw'⟩
  · rename_i hd
    have hidx : Dinode.index fbn = NDIRECT + 1 + (fbn - NDIRECT) := Fs.index_indirect hd
    have hj : fbn - NDIRECT < NINDIRECT := by
      unfold MAXFILE at hmax
      omega
    generalize hjd : fbn - NDIRECT = j at *
    rw [hidx] at hat hE ⊢
    refine (fillAddr_spec hw le_rfl (by omega)).bind ?_
    rintro d s' (⟨hfull, hmn, hlost, hsect⟩ | hw')
    · exact wp_bind.mpr (rsect_lost (by omega) (hE (by omega)))
    have ha : d.addrs NDIRECT ≠ 0 := by
      rw [← Dinode.slot_le le_rfl]
      exact (hw'.filled NDIRECT).mpr (by omega)
    obtain ⟨-, hhi⟩ := hw'.inUse (n := NDIRECT) (by omega)
    rw [Dinode.slot_le le_rfl] at hhi
    have hsec : d.addrs NDIRECT < s'.sectors := by
      rw [hw'.sectors]
      exact hhi.trans_le hw'.bound
    refine wp_bind.mpr (rsect_spec hsec ?_)
    have hentry := hw'.filled (NDIRECT + 1 + j)
    rw [Dinode.slot_entry hj ha] at hentry
    simp only [wp_ite]
    split
    · rename_i hzero
      have hnext : max m (NDIRECT + 1) = NDIRECT + 1 + j := by
        have : ¬ NDIRECT + 1 + j < max m (NDIRECT + 1) := fun h => hentry.mpr h hzero
        omega
      have hcount := hw.count
      have hcount' := hw'.count
      rw [hnext] at hw' hcount'
      simp only [nextBlock, wp_bind, wp_get, wp_modify, wp_pure]
      refine wsect_spec hsec ?_
      by_cases hroom : s'.freeblock < F.FSSIZE
      · refine .inr ⟨?_, hw'.takeEntry hj hroom⟩
        have hlt : s'.freeblock < 2 ^ 32 := hroom.trans (F.lt.trans (by decide))
        exact ((Dinode.slot_setEntry hj ha hlt _).trans (if_pos rfl)).symm
      · have hle : F.FSSIZE ≤ s'.freeblock := by omega
        exact .inl ⟨hle, hw'.sectors, hE (by omega)⟩
    · rename_i hne
      have hlast : max m (NDIRECT + 1) = NDIRECT + 1 + j + 1 := by
        have := hentry.mp hne
        omega
      rw [hlast] at hw'
      exact .inr ⟨(Dinode.slot_entry hj ha).symm, hw'⟩

/-- The loop of `iappend` appends all the bytes, unless the file or the disk is full. -/
theorem appendLoop_spec {p : Bytes} {n : ℕ}
    (hE : F.FSSIZE + blocks (s₀.dinode F inum).size <
      s₀.freeblock + blocks ((s₀.dinode F inum).size + n) → ∀ e, E e)
    (hmax : MAXFILE * BSIZE < (s₀.dinode F inum).size + n → ∀ e, E e) :
    ∀ (fuel tot : ℕ) {din : Dinode} {s : Mkfs},
      Work F s₀ inum (kernel p) tot (blocks ((s₀.dinode F inum).size + tot)) din s →
      n - tot ≤ fuel → tot ≤ n → (s₀.dinode F inum).size + tot ≤ MAXFILE * BSIZE →
      wp E (appendLoop p n fuel tot ((s₀.dinode F inum).size + tot) din) (fun r s' =>
        r.2 = (s₀.dinode F inum).size + n ∧ (s₀.dinode F inum).size + n ≤ MAXFILE * BSIZE ∧
        Work F s₀ inum (kernel p) n (blocks ((s₀.dinode F inum).size + n)) r.1 s') s
  | 0, tot, din, s, hw, hfuel, hle, hsize => by
    obtain rfl : tot = n := by omega
    exact ⟨rfl, hsize, hw⟩
  | fuel + 1, tot, din, s, hw, hfuel, hle, hsize => by
    simp only [appendLoop, wp_ite]
    split
    case isFalse hn =>
      obtain rfl : tot = n := by omega
      exact ⟨rfl, hsize, hw⟩
    rename_i hlt
    split
    case isFalse hfull =>
      refine hmax ?_ _
      have := (Nat.le_div_iff_mul_le (by decide)).mp (Nat.not_lt.mp hfull)
      omega
    rename_i hbn
    generalize hoff : (s₀.dinode F inum).size + tot = off at *
    generalize hn1 : min (n - tot) ((off / BSIZE + 1) * BSIZE - off) = n1
    have hmod : off - off / BSIZE * BSIZE = off % BSIZE := by
      unfold BSIZE
      omega
    have hfit : 0 < n1 ∧ n1 ≤ BSIZE - off % BSIZE ∧ off + n1 ≤ (off / BSIZE + 1) * BSIZE := by
      unfold BSIZE at hn1 ⊢
      omega
    have hnext : blocks (off + n1) = Dinode.index (off / BSIZE) + 1 :=
      blocks_of_block hfit.1 hfit.2.2
    have hfinal : blocks (off + n1) ≤ blocks ((s₀.dinode F inum).size + n) :=
      blocks_mono (by omega)
    have hcount := hw.count
    have hbound := hw.bound
    refine (findBlock_spec hw hbn fun h => hE (by omega)).bind ?_
    rintro ⟨x, d⟩ s' (⟨hlost, hsect, hE'⟩ | ⟨hx, hw'⟩)
    · exact wp_bind.mpr (rsect_lost (hsect.trans_le hlost) hE')
    simp only at hx hw'
    have hsec : x < s'.sectors := by
      rw [hw'.sectors, hx]
      exact (hw'.inUse (Nat.lt_succ_self _)).2.trans_le hw'.bound
    refine wp_bind.mpr (rsect_spec hsec (wp_bind.mpr (wsect_spec hsec ?_)))
    rw [hmod, ← hoff, Nat.add_assoc]
    rw [← hoff] at hx hw' hfit hnext
    have hstep := hw'.write hx (Nat.lt_succ_self _) hfit.2.1
    rw [← hnext, Nat.add_assoc] at hstep
    have hlast : (off / BSIZE + 1) * BSIZE ≤ MAXFILE * BSIZE := Nat.mul_le_mul_right _ hbn
    exact appendLoop_spec hE hmax fuel (tot + n1) hstep (by omega) (by omega) (by omega)

end Mkfs

end Xv6
