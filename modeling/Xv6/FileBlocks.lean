import Mathlib.Data.Finset.Card
import Xv6.Dirent
import Xv6.Ownership

/-!
# The blocks of files

An inode has slots for block numbers : `addrs`, and the entries of its indirect block.
`Marked` relates them to the bitmap through `Owns` : each data block that is marked is in one
slot of one allocated inode, and the blocks before the data blocks are marked as well.

While a function works on an inode, the copy in memory counts and not the one on disk
(`Fs.Focus`). `bmap` gives the inode new blocks and keeps the blocks it has with their
contents (`Fs.Grows`, `Fs.bmap_spec`), also when it gets an indirect block but then no block
to put in it.
-/

namespace Xv6

open Function Prog

/-! ## Where an inode keeps block numbers -/

namespace Dinode

variable (data : ℕ → Bytes) (d : Dinode)

/-- The block numbers of an inode : `addrs[0..NDIRECT]`, and then those in the indirect
block. -/
def slot (n : ℕ) : ℕ :=
  if n ≤ NDIRECT then d.addrs n
  else if n ≤ NDIRECT + NINDIRECT ∧ d.addrs NDIRECT ≠ 0 then
    (data (d.addrs NDIRECT)).word (n - NDIRECT - 1)
  else 0

/-- The slot of block `bn` of the file. -/
def index (bn : ℕ) : ℕ := if bn < NDIRECT then bn else bn + 1

/-- The block that holds block `bn` of the file, `0` if there is none. -/
def block (bn : ℕ) : ℕ := d.slot data (index bn)

/-- The byte of the file at `off`. -/
def byteAt (off : ℕ) : UInt8 := data (d.block data (off / BSIZE)) (off % BSIZE)

/-- `inum` of the entry at `off`. -/
def inumAt (off : ℕ) : ℕ :=
  (d.byteAt data off).toNat + 2 ^ 8 * (d.byteAt data (off + 1)).toNat

/-- No block below the size is missing, and the entries of a directory name inodes. -/
structure Good (L : FsLayout) : Prop where
  mapped : ∀ bn, bn * BSIZE < d.size → d.block data bn ≠ 0
  entries : d.type = .dir → ∀ k, (k + 1) * DIRENT ≤ d.size → d.inumAt data (k * DIRENT) < L.ninodes

theorem index_ne_indirect (bn : ℕ) : index bn ≠ NDIRECT := by
  unfold index
  split <;> omega

theorem index_inj {bn bn' : ℕ} (h : index bn = index bn') : bn = bn' := by
  unfold index at h
  split at h <;> split at h <;> omega

variable {data d}

variable {n : ℕ} {d' : Dinode} {data' : ℕ → Bytes}

theorem slot_le (h : n ≤ NDIRECT) : d.slot data n = d.addrs n := if_pos h

theorem slot_entry {j : ℕ} (hj : j < NINDIRECT) (ha : d.addrs NDIRECT ≠ 0) :
    d.slot data (NDIRECT + 1 + j) = (data (d.addrs NDIRECT)).word j := by
  unfold slot
  rw [if_neg (by omega), if_pos ⟨by omega, ha⟩]
  congr 1
  omega

theorem slot_eq_zero (hn : NDIRECT < n) (ha : d.addrs NDIRECT = 0) : d.slot data n = 0 := by
  unfold slot
  rw [if_neg (by omega), if_neg (by simp [ha])]

theorem slot_congr_entry (hn : NDIRECT < n) (ha : d'.addrs NDIRECT = d.addrs NDIRECT)
    (hdata : d.addrs NDIRECT ≠ 0 → data' (d.addrs NDIRECT) = data (d.addrs NDIRECT)) :
    d'.slot data' n = d.slot data n := by
  have hle : ¬ n ≤ NDIRECT := by omega
  simp only [slot, hle, if_false, ha]
  by_cases h0 : d.addrs NDIRECT = 0
  · simp [h0]
  · rw [hdata h0]

/-- Only the contents of the indirect block matter for the slots. -/
theorem slot_congr (ha : d'.addrs = d.addrs)
    (hdata : d.addrs NDIRECT ≠ 0 → data' (d.addrs NDIRECT) = data (d.addrs NDIRECT)) :
    d'.slot data' n = d.slot data n := by
  by_cases hn : n ≤ NDIRECT
  · rw [slot_le hn, slot_le hn, ha]
  · exact slot_congr_entry (by omega) (by rw [ha]) hdata

/-- The slots stay if the contents of the blocks in them do. -/
theorem slot_frame (h : ∀ n, d.slot data n ≠ 0 → data' (d.slot data n) = data (d.slot data n))
    (n : ℕ) : d.slot data' n = d.slot data n :=
  slot_congr rfl fun ha => by
    have hn := h NDIRECT
    rw [slot_le le_rfl] at hn
    exact hn ha

theorem inumAt_congr {off : ℕ} (h0 : d'.byteAt data' off = d.byteAt data off)
    (h1 : d'.byteAt data' (off + 1) = d.byteAt data (off + 1)) :
    d'.inumAt data' off = d.inumAt data off := by
  simp only [inumAt, h0, h1]

/-- A file is as good as before if its blocks are. -/
theorem Good.frame {L : FsLayout} (hg : d.Good data L)
    (h : ∀ n, d.slot data n ≠ 0 → data' (d.slot data n) = data (d.slot data n)) :
    d.Good data' L := by
  have hslot := slot_frame h
  have hbyte : ∀ off, off < d.size → d.byteAt data' off = d.byteAt data off := fun off hoff => by
    have hdiv : off / BSIZE * BSIZE < d.size := (Nat.div_mul_le_self _ _).trans_lt hoff
    simp only [byteAt, block, hslot, h _ (hg.mapped _ hdiv)]
  refine ⟨fun bn hbn => ?_, fun hdir k hk => ?_⟩
  · rw [block, hslot]
    exact hg.mapped bn hbn
  · have hlt : k * DIRENT + 1 < d.size := by
      unfold DIRENT at hk ⊢
      omega
    rw [inumAt_congr (hbyte _ (by omega)) (hbyte _ hlt)]
    exact hg.entries hdir k hk

end Dinode

/-! ## Who has which block -/

theorem FsLayout.datastart_pos (L : FsLayout) : 0 < L.datastart :=
  Nat.add_pos_right _ (Nat.succ_pos _)

variable (L : FsLayout)

/-- The block in slot `x.2` of inode `x.1`. -/
def places (ino : ℕ → Dinode) (data : ℕ → Bytes) (x : ℕ × ℕ) : Option ℕ :=
  if x.1 < L.ninodes ∧ (ino x.1).type ≠ .none ∧ (ino x.1).slot data x.2 ≠ 0 then
    some ((ino x.1).slot data x.2)
  else none

/-- The data blocks that are marked in the bitmap. -/
def InUse (bitmap : ℕ → Bool) (b : ℕ) : Prop := L.datastart ≤ b ∧ b < L.size ∧ bitmap b = true

/-- The bitmap marks the blocks of the inodes, and those before the data blocks. -/
structure Marked (ino : ℕ → Dinode) (bitmap : ℕ → Bool) (data : ℕ → Bytes) : Prop where
  owns : Owns (places L ino data) (InUse L bitmap)
  reserved : ∀ b, b < L.datastart → bitmap b = true

section Places

variable {L} {ino ino' : ℕ → Dinode} {bitmap : ℕ → Bool} {data data' : ℕ → Bytes} {i n b c : ℕ}

theorem places_eq_some : places L ino data (i, n) = some b ↔
    i < L.ninodes ∧ (ino i).type ≠ .none ∧ b ≠ 0 ∧ (ino i).slot data n = b := by
  unfold places
  split
  · rename_i h
    constructor
    · intro hb
      cases hb
      exact ⟨h.1, h.2.1, h.2.2, rfl⟩
    · rintro ⟨-, -, -, rfl⟩
      rfl
  · rename_i h
    constructor
    · intro hb
      cases hb
    · rintro ⟨h1, h2, h3, rfl⟩
      exact absurd ⟨h1, h2, h3⟩ h

theorem places_of (hi : i < L.ninodes) (ht : (ino i).type ≠ .none)
    (hs : (ino i).slot data n ≠ 0) : places L ino data (i, n) = some ((ino i).slot data n) :=
  places_eq_some.mpr ⟨hi, ht, hs, rfl⟩

theorem places_eq_none (hs : (ino i).slot data n = 0) : places L ino data (i, n) = none :=
  if_neg fun h => h.2.2 hs

theorem places_congr (ht : ∀ i, i < L.ninodes → (ino' i).type = (ino i).type)
    (hs : ∀ i n, i < L.ninodes → (ino i).type ≠ .none →
      (ino' i).slot data' n = (ino i).slot data n) :
    places L ino' data' = places L ino data := by
  funext ⟨i, n⟩
  by_cases hi : i < L.ninodes
  · by_cases hn : (ino i).type = .none
    · simp [places, ht i hi, hn]
    · simp only [places, ht i hi, hs i n hi hn]
  · simp [places, hi]

/-- The block of a slot is a data block, in use. -/
theorem Marked.inUse (hm : Marked L ino bitmap data) (hi : i < L.ninodes)
    (ht : (ino i).type ≠ .none) (hs : (ino i).slot data n ≠ 0) :
    InUse L bitmap ((ino i).slot data n) :=
  hm.owns.used_of (places_of hi ht hs)

theorem Marked.slot_inj (hm : Marked L ino bitmap data) {i' n' : ℕ} (hi : i < L.ninodes)
    (ht : (ino i).type ≠ .none) (hi' : i' < L.ninodes) (ht' : (ino i').type ≠ .none)
    (hs : (ino i).slot data n ≠ 0) (heq : (ino i').slot data n' = (ino i).slot data n) :
    i' = i ∧ n' = n := by
  have h := hm.owns.inj (places_of hi' ht' (heq ▸ hs)) ((places_of hi ht hs).trans (by rw [heq]))
  exact ⟨congrArg Prod.fst h, congrArg Prod.snd h⟩

/-- A change to a block that is in no indirect slot keeps the slots. -/
theorem places_write (hb : ∀ i, i < L.ninodes → (ino i).type ≠ .none →
    (ino i).addrs NDIRECT ≠ 0 → (ino i).addrs NDIRECT ≠ c) {x : Bytes} :
    places L ino (update data c x) = places L ino data :=
  places_congr (fun _ _ => rfl) fun i _ hi ht =>
    Dinode.slot_congr rfl fun ha => update_of_ne (hb i hi ht ha) _ _

/-! ## Taking a block -/

/-- A new block in `addrs[n]`, its contents zero. -/
theorem Dinode.slot_setAddr {d : Dinode} (hn : n ≤ NDIRECT) (hzero : d.addrs n = 0)
    (hne : d.addrs NDIRECT ≠ b) (m : ℕ) :
    Dinode.slot (update data b fun _ => 0) { d with addrs := update d.addrs n b } m =
      if m = n then b else d.slot data m := by
  by_cases hm : m ≤ NDIRECT
  · rw [slot_le hm]
    by_cases hmn : m = n
    · simp [hmn]
    · simp [hmn, slot_le hm]
  · rw [if_neg (by omega)]
    by_cases hnd : n = NDIRECT
    · subst hnd
      rw [slot_eq_zero (by omega) hzero]
      simp [slot, hm]
    · exact slot_congr_entry (by omega) (update_of_ne (Ne.symm hnd) _ _) fun _ =>
        update_of_ne hne _ _

/-- A new block in entry `j` of the indirect block. -/
theorem Dinode.slot_setEntry {d : Dinode} {j : ℕ} (hj : j < NINDIRECT)
    (ha : d.addrs NDIRECT ≠ 0) (hb : b < 2 ^ 32) (m : ℕ) :
    d.slot (update data (d.addrs NDIRECT) ((data (d.addrs NDIRECT)).setWord j b)) m =
      if m = NDIRECT + 1 + j then b else d.slot data m := by
  by_cases hm : m ≤ NDIRECT
  · rw [slot_le hm, slot_le hm, if_neg (by omega)]
  · obtain ⟨k, rfl⟩ : ∃ k, m = NDIRECT + 1 + k := ⟨m - NDIRECT - 1, by omega⟩
    by_cases hk : k < NINDIRECT
    · rw [slot_entry hk ha, slot_entry hk ha, update_self]
      by_cases hkj : k = j
      · rw [hkj, if_pos rfl, Bytes.word_setWord_self hb]
      · rw [if_neg (by omega), Bytes.word_setWord_of_ne hkj]
    · rw [if_neg (by omega)]
      simp [slot, hm, show ¬ NDIRECT + 1 + k ≤ NDIRECT + NINDIRECT by omega]

theorem Marked.take {bitmap' : ℕ → Bool} (hm : Marked L ino bitmap data) (hi : i < L.ninodes)
    (ht : (ino i).type ≠ .none) (hzero : (ino i).slot data n = 0) (hb : L.datastart ≤ b)
    (hlt : b < L.size) (hfree : bitmap b = false) (hmap : bitmap' = update bitmap b true)
    (htype : ∀ k, (ino' k).type = (ino k).type)
    (hslot : ∀ m, (ino' i).slot data' m = if m = n then b else (ino i).slot data m)
    (hother : ∀ k m, k ≠ i → k < L.ninodes → (ino k).type ≠ .none →
      (ino' k).slot data' m = (ino k).slot data m) : Marked L ino' bitmap' data' where
  owns := by
    have hb0 : b ≠ 0 := Nat.ne_of_gt (L.datastart_pos.trans_le hb)
    have hplaces : places L ino' data' = update (places L ino data) (i, n) (some b) := by
      funext ⟨k, m⟩
      by_cases hk : k = i
      · subst hk
        by_cases hmn : m = n
        · subst hmn
          rw [update_self]
          exact places_eq_some.mpr ⟨hi, by rwa [htype], hb0, by rw [hslot, if_pos rfl]⟩
        · have hne : (k, m) ≠ (k, n) := fun h => hmn (congrArg Prod.snd h)
          rw [update_of_ne hne]
          simp only [places, htype, hslot, if_neg hmn]
      · have hne : (k, m) ≠ (i, n) := fun h => hk (congrArg Prod.fst h)
        rw [update_of_ne hne]
        by_cases hlive : k < L.ninodes ∧ (ino k).type ≠ .none
        · simp only [places, htype, hother k m hk hlive.1 hlive.2]
        · simp only [places, htype]
          rw [if_neg fun h => hlive ⟨h.1, h.2.1⟩, if_neg fun h => hlive ⟨h.1, h.2.1⟩]
    rw [hplaces]
    refine hm.owns.take (places_eq_none hzero) (fun h => ?_) fun c => ?_
    · simp [h.2.2] at hfree
    · rw [hmap]
      unfold InUse
      by_cases hc : c = b
      · simp [hc, hb, hlt]
      · simp [hc]
  reserved c hc := by
    rw [hmap, update_of_ne (by omega)]
    exact hm.reserved c hc

end Places

/-! ## An inode being worked on -/

namespace Fs

/-- The inodes on disk, but for `ip` the one in memory. -/
def ino (s : Fs) (ip : Fin NINODE) : ℕ → Dinode :=
  update s.dinode (s.itable ip).inum (s.itable ip).d

/-- Slot `n` of the inode in memory. -/
def slot (s : Fs) (ip : Fin NINODE) (n : ℕ) : ℕ := (s.itable ip).d.slot s.data n

/-- Block `b` has been marked and zeroed. -/
def allocated (s : Fs) (b : ℕ) : Fs := { s with
  bitmap := update s.bitmap b true
  data := update s.data b fun _ => 0
  logged := b :: L.BBLOCK b :: s.logged }

/-- Block `b` in `addrs[n]`. -/
def setAddr (s : Fs) (ip : Fin NINODE) (n b : ℕ) : Fs :=
  s.setD ip fun d => { d with addrs := update d.addrs n b }

/-- Block `b` in entry `j` of block `a`. -/
def setEntry (s : Fs) (a j b : ℕ) : Fs := { s with
  data := update s.data a ((s.data a).setWord j b)
  logged := a :: s.logged }

/-- While `ip` is worked on, its copy in memory counts. -/
structure Focus (s : Fs) (ip : Fin NINODE) : Prop where
  inum : (s.itable ip).inum < L.ninodes
  type : (s.itable ip).d.type ≠ .none
  marked : Marked L (s.ino ip) s.bitmap s.data

/-- The blocks of the files other than `ip` keep their contents. -/
def Keeps (s : Fs) (ip : Fin NINODE) (s' : Fs) : Prop :=
  ∀ i, i < L.ninodes → i ≠ (s.itable ip).inum → (s.dinode i).type ≠ .none → ∀ n,
    (s.dinode i).slot s.data n ≠ 0 →
    s'.data ((s.dinode i).slot s.data n) = s.data ((s.dinode i).slot s.data n)

/-- The file gets new blocks, and keeps the ones it has with their contents. -/
structure Grows (s : Fs) (ip : Fin NINODE) (s' : Fs) : Prop where
  itable : s'.itable = update s.itable ip { s.itable ip with
    d := { (s.itable ip).d with addrs := (s'.itable ip).d.addrs } }
  dinode : s'.dinode = s.dinode
  slots : ∀ n, s.slot ip n ≠ 0 → s'.slot ip n = s.slot ip n
  bytes : ∀ n, n ≠ NDIRECT → s.slot ip n ≠ 0 → s'.data (s.slot ip n) = s.data (s.slot ip n)
  /-- a new block is zero -/
  fresh : ∀ n, n ≠ NDIRECT → s.slot ip n = 0 → s'.slot ip n ≠ 0 →
    s'.data (s'.slot ip n) = fun _ => 0
  others : s.Keeps L ip s'

variable {L} {s s' s'' : Fs} {ip : Fin NINODE} {n b : ℕ}

@[simp] theorem ino_self : s.ino ip (s.itable ip).inum = (s.itable ip).d := update_self ..

theorem ino_of_ne {i : ℕ} (h : i ≠ (s.itable ip).inum) : s.ino ip i = s.dinode i :=
  update_of_ne h ..

theorem Keeps.refl : s.Keeps L ip s := fun _ _ _ _ _ _ => rfl

theorem Keeps.trans (h : s.Keeps L ip s') (h' : s'.Keeps L ip s'')
    (hinum : (s'.itable ip).inum = (s.itable ip).inum) (hdi : s'.dinode = s.dinode) :
    s.Keeps L ip s'' := by
  intro i hi hne ht n hn
  have hslot := Dinode.slot_frame (h i hi hne ht) n
  have hk := h' i hi (hinum ▸ hne) (by rwa [hdi]) n
  rw [hdi, hslot] at hk
  rw [hk hn, h i hi hne ht n hn]

theorem Grows.refl : s.Grows L ip s :=
  ⟨by simp, rfl, fun _ _ => rfl, fun _ _ _ => rfl, fun _ _ h h' => absurd h h', .refl⟩

theorem Grows.inum (h : s.Grows L ip s') : (s'.itable ip).inum = (s.itable ip).inum := by
  rw [h.itable]
  simp

theorem Grows.trans (h : s.Grows L ip s') (h' : s'.Grows L ip s'') : s.Grows L ip s'' where
  itable := by
    rw [h'.itable, h.itable]
    simp
  dinode := h'.dinode.trans h.dinode
  slots n hn := by
    have hs := h.slots n hn
    rw [h'.slots n (hs ▸ hn), hs]
  bytes n hne hn := by
    have hs := h.slots n hn
    have hb := h'.bytes n hne (hs ▸ hn)
    rw [hs] at hb
    rw [hb, h.bytes n hne hn]
  fresh n hne hn hn' := by
    by_cases hs : s'.slot ip n = 0
    · exact h'.fresh n hne hs hn'
    · rw [h'.slots n hs, h'.bytes n hne hs]
      exact h.fresh n hne hn hs
  others := h.others.trans h'.others h.inum h.dinode

section Focus

variable (hf : s.Focus L ip)

include hf

/-- A block that no inode has is no indirect block of any. -/
theorem Focus.ne_of_free (hfree : s.bitmap b = false) {i n : ℕ} (hi : i < L.ninodes)
    (ht : (s.ino ip i).type ≠ .none) (hs : (s.ino ip i).slot s.data n ≠ 0) :
    (s.ino ip i).slot s.data n ≠ b := by
  intro heq
  have huse := (hf.marked.inUse hi ht hs).2.2
  simp [heq, hfree] at huse

theorem Focus.indirect_ne_free (hb : L.datastart ≤ b)
    (hfree : s.bitmap b = false) : (s.itable ip).d.addrs NDIRECT ≠ b := by
  by_cases h0 : (s.itable ip).d.addrs NDIRECT = 0
  · rw [h0]
    exact (Nat.ne_of_gt (L.datastart_pos.trans_le hb)).symm
  · have hne := hf.ne_of_free hfree (n := NDIRECT) hf.inum (by simpa using hf.type)
      (by simpa [Dinode.slot_le] using h0)
    simpa [Dinode.slot_le] using hne

/-- A free block, zeroed, is put in the empty slot `n`. Of the blocks in use only the indirect
block of `ip` may change. -/
theorem Focus.fill {t : Fs} (hzero : s.slot ip n = 0) (hb : L.datastart ≤ b) (hlt : b < L.size)
    (hfree : s.bitmap b = false)
    (hit : t.itable = update s.itable ip { s.itable ip with
      d := { (s.itable ip).d with addrs := (t.itable ip).d.addrs } }) (hdi : t.dinode = s.dinode)
    (hbm : t.bitmap = update s.bitmap b true) (hnew : t.data b = fun _ => 0)
    (hslot : ∀ m, t.slot ip m = if m = n then b else s.slot ip m)
    (hkeep : ∀ i m, i < L.ninodes → (s.ino ip i).type ≠ .none →
      i ≠ (s.itable ip).inum ∨ m ≠ NDIRECT → (s.ino ip i).slot s.data m ≠ 0 →
      t.data ((s.ino ip i).slot s.data m) = s.data ((s.ino ip i).slot s.data m)) :
    t.Focus L ip ∧ s.Grows L ip t ∧ t.slot ip n = b := by
  have hself := (congrFun hit ip).trans (update_self ..)
  have hinum : (t.itable ip).inum = (s.itable ip).inum := by rw [hself]
  have htype : (t.itable ip).d.type = (s.itable ip).d.type := by rw [hself]
  have hino : t.ino ip (s.itable ip).inum = (t.itable ip).d := hinum ▸ ino_self
  have hother : ∀ k, k ≠ (s.itable ip).inum → t.ino ip k = s.ino ip k := fun k hk => by
    rw [ino_of_ne (hinum ▸ hk), ino_of_ne hk, hdi]
  have hlive : (s.ino ip (s.itable ip).inum).type ≠ .none := by simpa using hf.type
  refine ⟨⟨hinum ▸ hf.inum, htype ▸ hf.type, ?_⟩, ⟨hit, hdi, fun m hm => ?_, fun m hmn hm => ?_,
    fun m _ hm hm' => ?_, fun i hi hne ht m hm => ?_⟩, by rw [hslot, if_pos rfl]⟩
  · refine hf.marked.take hf.inum (n := n) hlive (by rw [ino_self]; exact hzero) hb hlt hfree hbm
      (fun k => ?_) (fun m => ?_) fun k m hk hkn hkt => ?_
    · by_cases hk : k = (s.itable ip).inum
      · rw [hk, hino, ino_self, htype]
      · rw [hother k hk]
    · rw [hino, ino_self]
      exact hslot m
    · rw [hother k hk]
      exact Dinode.slot_frame (fun n hn => hkeep k n hkn hkt (.inl hk) hn) m
  · rw [hslot, if_neg]
    rintro rfl
    exact hm hzero
  · have hk := hkeep (s.itable ip).inum m hf.inum hlive (.inr hmn) (by simpa [slot] using hm)
    simpa [slot] using hk
  · obtain rfl : m = n := by
      by_contra hmn
      exact hm' (by rw [hslot, if_neg hmn, hm])
    rw [hslot, if_pos rfl, hnew]
  · rw [← ino_of_ne hne] at ht hm ⊢
    exact hkeep i m hi ht (.inl hne) hm

theorem Focus.setAddr (hn : n ≤ NDIRECT) (hzero : (s.itable ip).d.addrs n = 0)
    (hb : L.datastart ≤ b) (hlt : b < L.size) (hfree : s.bitmap b = false) :
    ((s.allocated L b).setAddr ip n b).Focus L ip ∧
      s.Grows L ip ((s.allocated L b).setAddr ip n b) ∧
      ((s.allocated L b).setAddr ip n b).slot ip n = b := by
  have hself : ((s.allocated L b).setAddr ip n b).itable ip = { s.itable ip with
      d := { (s.itable ip).d with addrs := update (s.itable ip).d.addrs n b } } := update_self ..
  refine hf.fill ((Dinode.slot_le hn).trans hzero) hb hlt hfree (by rw [hself]; rfl) rfl rfl
    (update_self ..) (fun m => ?_)
    fun i m hi ht _ hm => update_of_ne (hf.ne_of_free hfree hi ht hm) ..
  rw [slot, hself]
  exact Dinode.slot_setAddr hn hzero (hf.indirect_ne_free hb hfree) m

/-- The indirect block is in use, and it is no other file's block. -/
theorem Focus.indirect_ne (ha : (s.itable ip).d.addrs NDIRECT ≠ 0) {i n : ℕ} (hi : i < L.ninodes)
    (ht : (s.ino ip i).type ≠ .none) (hne : i ≠ (s.itable ip).inum ∨ n ≠ NDIRECT) :
    (s.ino ip i).slot s.data n ≠ (s.itable ip).d.addrs NDIRECT := by
  intro heq
  have hslot : (s.ino ip (s.itable ip).inum).slot s.data NDIRECT =
      (s.itable ip).d.addrs NDIRECT := by
    rw [ino_self, Dinode.slot_le le_rfl]
  have hinj := hf.marked.slot_inj (n := NDIRECT) hf.inum (by simpa using hf.type) hi ht
    (by rwa [hslot]) (heq.trans hslot.symm)
  exact hne.elim (fun h => h hinj.1) fun h => h hinj.2

theorem Focus.setEntry {j : ℕ} (hj : j < NINDIRECT) (ha : (s.itable ip).d.addrs NDIRECT ≠ 0)
    (hzero : (s.data ((s.itable ip).d.addrs NDIRECT)).word j = 0) (hb : L.datastart ≤ b)
    (hlt : b < L.size) (hfree : s.bitmap b = false) :
    ((s.allocated L b).setEntry ((s.itable ip).d.addrs NDIRECT) j b).Focus L ip ∧
      s.Grows L ip ((s.allocated L b).setEntry ((s.itable ip).d.addrs NDIRECT) j b) ∧
      ((s.allocated L b).setEntry ((s.itable ip).d.addrs NDIRECT) j b).slot ip
        (NDIRECT + 1 + j) = b := by
  have hab := hf.indirect_ne_free hb hfree
  -- the new block is not the indirect block, so zeroing it changes no slot
  have hdata : update s.data b (fun _ => 0) ((s.itable ip).d.addrs NDIRECT) =
      s.data ((s.itable ip).d.addrs NDIRECT) := update_of_ne hab ..
  refine hf.fill ((Dinode.slot_entry hj ha).trans hzero) hb hlt hfree (update_eq_self ..).symm rfl
    rfl ((update_of_ne (Ne.symm hab) ..).trans (update_self ..)) (fun m => ?_)
    fun i m hi ht hne hm => ?_
  · refine (Dinode.slot_setEntry hj ha (hlt.trans L.size_lt) m).trans ?_
    congr 1
    exact Dinode.slot_congr rfl fun _ => hdata
  · exact (update_of_ne (hf.indirect_ne ha hi ht hne) ..).trans
      (update_of_ne (hf.ne_of_free hfree hi ht hm) ..)

end Focus

/-! ## `balloc` and `bmap` -/

theorem firstFree_some {bitmap : ℕ → Bool} : ∀ {n k b : ℕ}, firstFree L bitmap n k = some b →
    bitmap b = false ∧ b < L.size
  | n + 1, k, b, h => by
    simp only [firstFree] at h
    split at h
    · split at h
      · rename_i bi hbi
        cases h
        obtain ⟨hp, -, hlt, -⟩ := firstFrom_some hbi
        refine ⟨by simpa using hp, ?_⟩
        have := Nat.min_le_right BPB (L.size - k * BPB)
        omega
      · exact firstFree_some h
    · cases h

theorem firstFree_none {bitmap : ℕ → Bool} {n : ℕ} : ∀ {k : ℕ}, firstFree L bitmap n k = none →
    ∀ b, k * BPB ≤ b → b < (k + n) * BPB → b < L.size → bitmap b = true := by
  induction n with
  | zero =>
    intro k _ b hk hlt _
    rw [Nat.add_zero] at hlt
    exact absurd hlt (Nat.not_lt.mpr hk)
  | succ n ih =>
    intro k h b hk hlt hsize
    rw [firstFree, if_pos (hk.trans_lt hsize)] at h
    split at h
    · cases h
    · rename_i hnone
      by_cases hb : b < (k + 1) * BPB
      · have hin := firstFrom_none hnone (b - k * BPB) (Nat.zero_le _) (by
          rw [Nat.add_one_mul] at hb
          omega)
        rw [Nat.add_sub_of_le hk] at hin
        simpa using hin
      · rw [Nat.add_comm n, ← Nat.add_assoc] at hlt
        exact ih h b (Nat.not_lt.mp hb) hlt hsize

variable {E : FsPanic → Prop}

/-- `balloc` returns `0` if no block is free, or a free data block marked and zeroed. -/
theorem balloc_spec (hres : ∀ b, b < L.datastart → s.bitmap b = true) :
    wp E (balloc L) (fun b s' => (b = 0 ∧ s' = s ∧ ∀ c, c < L.size → s.bitmap c = true) ∨
      (L.datastart ≤ b ∧ b < L.size ∧ s.bitmap b = false ∧ s' = s.allocated L b)) s := by
  simp only [balloc, wp_bind, wp_get]
  split
  · rename_i b hb
    obtain ⟨hfree, hlt⟩ := firstFree_some hb
    simp only [bzero, log_write, wp_bind, wp_modify, wp_pure]
    refine .inr ⟨?_, hlt, hfree, rfl⟩
    by_contra hlt'
    simp [hres b (by omega)] at hfree
  · rename_i hnone
    refine .inl ⟨rfl, rfl, fun c hc => firstFree_none hnone c (by omega) ?_ hc⟩
    have := Nat.div_add_mod L.size BPB
    have := Nat.mod_lt L.size (show 0 < BPB by decide)
    rw [Nat.zero_add, Nat.add_one_mul, Nat.mul_comm]
    omega

/-! ### Enough blocks -/

section Room

variable {T : Finset ℕ}

/-- As many blocks are free as are missing in the slots `T`. -/
def Room (L : FsLayout) (s : Fs) (ip : Fin NINODE) (T : Finset ℕ) : Prop :=
  (T.filter fun k => s.slot ip k = 0).card ≤
    ((Finset.range L.size).filter fun b => s.bitmap b = false).card

theorem Room.congr (h : s.Room L ip T) (hslot : ∀ k, s'.slot ip k = s.slot ip k)
    (hmap : s'.bitmap = s.bitmap) : s'.Room L ip T := by
  unfold Room
  simp only [hslot, hmap]
  exact h

theorem Room.free (h : s.Room L ip T) (hn : n ∈ T) (h0 : s.slot ip n = 0) :
    ∃ b, b < L.size ∧ s.bitmap b = false := by
  have hpos : 0 < (T.filter fun k => s.slot ip k = 0).card :=
    Finset.card_pos.mpr ⟨n, Finset.mem_filter.mpr ⟨hn, h0⟩⟩
  obtain ⟨b, hb⟩ := Finset.card_pos.mp (hpos.trans_le h)
  obtain ⟨hlt, hfree⟩ := Finset.mem_filter.mp hb
  exact ⟨b, Finset.mem_range.mp hlt, hfree⟩

/-- A missing block is filled with a free one. -/
theorem Room.take (h : s.Room L ip T) (hg : s.Grows L ip s') (hn : n ∈ T)
    (h0 : s.slot ip n = 0) (h1 : s'.slot ip n ≠ 0) (hb : b < L.size) (hfree : s.bitmap b = false)
    (hmap : s'.bitmap = update s.bitmap b true) : s'.Room L ip T := by
  have hmissing : (T.filter fun k => s'.slot ip k = 0) ⊆
      (T.filter fun k => s.slot ip k = 0).erase n := by
    intro k hk
    obtain ⟨hkT, hk0⟩ := Finset.mem_filter.mp hk
    refine Finset.mem_erase.mpr ⟨?_, Finset.mem_filter.mpr ⟨hkT, ?_⟩⟩
    · rintro rfl
      exact h1 hk0
    · by_contra hne
      exact hne ((hg.slots k hne).symm.trans hk0)
  have hleft : ((Finset.range L.size).filter fun c => s'.bitmap c = false) =
      ((Finset.range L.size).filter fun c => s.bitmap c = false).erase b := by
    ext c
    simp only [Finset.mem_filter, Finset.mem_erase, hmap]
    by_cases hc : c = b
    · simp [hc]
    · simp [hc]
  have hcard := Finset.card_le_card hmissing
  rw [Finset.card_erase_of_mem (Finset.mem_filter.mpr ⟨hn, h0⟩)] at hcard
  unfold Room at h ⊢
  rw [hleft, Finset.card_erase_of_mem (Finset.mem_filter.mpr ⟨Finset.mem_range.mpr hb, hfree⟩)]
  omega

/-- The slots that a write to block `bn` may have to fill are in `T`. -/
def Covers (T : Finset ℕ) (bn : ℕ) : Prop :=
  Dinode.index bn ∈ T ∧ (NDIRECT ≤ bn → NDIRECT ∈ T)

end Room

/-! ### `bmap` -/

/-- After a lookup of slot `n` that allocates : the result is in the slot, unless it is 0, and it is
not 0 if enough blocks are free for the slots of a set with `C`. -/
structure Ensured (L : FsLayout) (s : Fs) (ip : Fin NINODE) (n : ℕ) (C : Finset ℕ → Prop) (a : ℕ)
    (s' : Fs) : Prop where
  focus : s'.Focus L ip
  grows : s.Grows L ip s'
  slot : a ≠ 0 → s'.slot ip n = a
  room : ∀ {T}, C T → s.Room L ip T → a ≠ 0 ∧ s'.Room L ip T

theorem index_indirect {bn : ℕ} (hd : ¬ bn < NDIRECT) :
    Dinode.index bn = NDIRECT + 1 + (bn - NDIRECT) := by
  rw [Dinode.index, if_neg hd]
  omega

section Bmap

variable (hf : s.Focus L ip)

include hf

theorem Ensured.there {C : Finset ℕ → Prop} (hb : b ≠ 0)
    (hn : s.slot ip n = b) : Ensured L s ip n C b s :=
  ⟨hf, .refl, fun _ => hn, fun _ h => ⟨hb, h⟩⟩

/-- A free block is put in an empty slot, by `put`. -/
theorem balloc_fills (h0 : s.slot ip n = 0) {put : ℕ → FsM ℕ}
    (hput : ∀ b, L.datastart ≤ b → b < L.size → s.bitmap b = false → wp E (put b) (fun a s' =>
      a = b ∧ (s'.Focus L ip ∧ s.Grows L ip s' ∧ s'.slot ip n = b) ∧
        s'.bitmap = update s.bitmap b true) (s.allocated L b)) :
    wp E (do let addr ← balloc L; if addr = 0 then pure 0 else put addr)
      (Ensured L s ip n (n ∈ ·)) s := by
  refine wp_bind.mpr ((balloc_spec hf.marked.reserved).mono ?_)
  rintro b s' (⟨rfl, rfl, hfull⟩ | ⟨hb, hlt, hfree, rfl⟩)
  · refine ⟨hf, .refl, fun h => absurd rfl h, fun hT h => ?_⟩
    obtain ⟨b, hb, hfree⟩ := h.free hT h0
    simp [hfull b hb] at hfree
  · have hb0 : b ≠ 0 := Nat.ne_of_gt (L.datastart_pos.trans_le hb)
    rw [if_neg hb0]
    refine (hput b hb hlt hfree).mono ?_
    rintro a s' ⟨rfl, ⟨hf', hg, hslot⟩, hmap⟩
    exact ⟨hf', hg, fun _ => hslot, fun hT h =>
      ⟨hb0, h.take hg hT h0 (hslot.trans_ne hb0) hlt hfree hmap⟩⟩

theorem ensure_spec (hn : n ≤ NDIRECT) : wp E (ensure L ip n) (Ensured L s ip n (n ∈ ·)) s := by
  simp only [ensure, wp_bind, wp_get, wp_ite]
  split
  · rename_i hzero
    refine wp_bind.mp (balloc_fills hf ((Dinode.slot_le hn).trans hzero) fun b hb hlt hfree => ?_)
    simp only [wp_bind, wp_modify, wp_pure]
    exact ⟨trivial, hf.setAddr hn hzero hb hlt hfree, rfl⟩
  · rename_i hne
    exact .there hf hne (Dinode.slot_le hn)

theorem entry_spec {a j : ℕ} (ha : (s.itable ip).d.addrs NDIRECT = a) (ha0 : a ≠ 0)
    (hj : j < NINDIRECT) :
    wp E (entry L a j) (Ensured L s ip (NDIRECT + 1 + j) (NDIRECT + 1 + j ∈ ·)) s := by
  subst ha
  simp only [entry, wp_bind, wp_get, wp_ite]
  split
  · rename_i hzero
    refine wp_bind.mp (balloc_fills hf ((Dinode.slot_entry hj ha0).trans hzero)
      fun b hb hlt hfree => ?_)
    simp only [log_write, wp_bind, wp_modify, wp_pure]
    exact ⟨trivial, hf.setEntry hj ha0 hzero hb hlt hfree, rfl⟩
  · rename_i hne
    exact .there hf hne (Dinode.slot_entry hj ha0)

/-- `bmap` gives the file the block if it can. -/
theorem bmap_spec {bn : ℕ} (hbn : bn < MAXFILE) :
    wp E (bmap L ip bn) (Ensured L s ip (Dinode.index bn) (Covers · bn)) s := by
  unfold Covers
  simp only [bmap, wp_ite]
  split
  · rename_i hd
    rw [show Dinode.index bn = bn from if_pos hd]
    exact (ensure_spec hf hd.le).mono fun a s' h =>
      ⟨h.focus, h.grows, h.slot, fun hT => h.room hT.1⟩
  · rename_i hd
    have hj : bn - NDIRECT < NINDIRECT := by
      unfold MAXFILE at hbn
      omega
    rw [if_pos hj, wp_bind, index_indirect hd]
    refine (ensure_spec hf le_rfl).mono fun a s' h => ?_
    simp only [wp_ite]
    split
    · rename_i ha0
      exact ⟨h.focus, h.grows, fun h0 => absurd rfl h0, fun hT hr =>
        absurd ha0 (h.room (hT.2 (Nat.not_lt.mp hd)) hr).1⟩
    · rename_i ha0
      have ha := (Dinode.slot_le le_rfl).symm.trans (h.slot ha0)
      refine (entry_spec h.focus ha ha0 hj).mono fun b s'' h' => ?_
      exact ⟨h'.focus, h.grows.trans h'.grows, h'.slot, fun hT hr =>
        h'.room hT.1 (h.room (hT.2 (Nat.not_lt.mp hd)) hr).2⟩

end Bmap

theorem bmap_mapped {bn : ℕ} (h : s.slot ip (Dinode.index bn) ≠ 0) (hbn : bn < MAXFILE) :
    wp E (bmap L ip bn) (fun a s' => a = s.slot ip (Dinode.index bn) ∧ s' = s) s := by
  simp only [bmap, wp_ite]
  split
  · rename_i hd
    rw [show Dinode.index bn = bn from if_pos hd, slot, Dinode.slot_le hd.le] at h ⊢
    simp [ensure, h]
  · rename_i hd
    have hj : bn - NDIRECT < NINDIRECT := by
      unfold MAXFILE at hbn
      omega
    rw [index_indirect hd] at h ⊢
    have ha : (s.itable ip).d.addrs NDIRECT ≠ 0 := fun h0 =>
      h (Dinode.slot_eq_zero (by omega) h0)
    rw [slot, Dinode.slot_entry hj ha] at h ⊢
    simp [hj, ha, h, ensure, entry]

end Fs

end Xv6
