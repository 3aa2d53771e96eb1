import Xv6.FileData
import Xv6.FsCalls

/-!
# The operations on inodes keep the file system consistent

Between operations the copies of inodes in memory agree with those on disk, the bitmap marks
exactly the blocks in use, and no file has a hole (`Fs.Inv`). An operation works on the copy of
one inode and writes it back (`Fs.Inv.writeback`).

Above blocks and bytes, a file is a `Node` : its type, its number of links and, if it is a
directory, its entries. The specifications say what an operation does to the nodes
(`Fs.nodes`) and to the table of inodes (`Fs.tab`).
-/

namespace Xv6

open Function Prog

/-! ## Nodes -/

/-- A directory entry. -/
structure Entry where
  inum : ℕ
  name : Bytes

/-- The entry in the bytes `b`. -/
def Bytes.entry (b : Bytes) : Entry := ⟨b.inum, fun k => if k < DIRSIZ then b.name k else 0⟩

/-- `e` at position `k`, or at the end. -/
def putEntry (l : List Entry) (k : ℕ) (e : Entry) : List Entry := l.take k ++ e :: l.drop (k + 1)

theorem map_range_put {f g : ℕ → Entry} {m k : ℕ} (hk : k ≤ m)
    (h : ∀ j, j < m → j ≠ k → g j = f j) :
    (List.range (max m (k + 1))).map g = putEntry ((List.range m).map f) k (g k) := by
  refine List.ext_getElem ?_ fun j hj hj' => ?_
  · simp only [putEntry, List.length_map, List.length_range, List.length_append, List.length_take,
      List.length_cons, List.length_drop]
    omega
  · simp only [List.length_map, List.length_range] at hj
    simp only [putEntry, List.getElem_map, List.getElem_range, List.getElem_append,
      List.length_take, List.length_map, List.length_range, List.getElem_take,
      Nat.min_eq_left hk]
    by_cases hjk : j < k
    · rw [dif_pos hjk]
      exact h j (by omega) (by omega)
    · rw [dif_neg hjk]
      by_cases hj0 : j = k
      · subst hj0
        simp
      · obtain ⟨i, rfl⟩ : ∃ i, j = k + 1 + i := ⟨j - k - 1, by omega⟩
        have hi : k + 1 + i - k = i + 1 := by omega
        simp only [hi, List.getElem_cons_succ, List.getElem_drop, List.getElem_map,
          List.getElem_range]
        exact h _ (by omega) (by omega)

structure Node where
  type : FileType
  nlink : ℤ
  /-- the entries of a directory -/
  ents : List Entry
  /-- the bytes of a directory after its last whole entry -/
  tail : ℕ

namespace Dinode

variable (data : ℕ → Bytes) (d : Dinode)

/-- The entry at `off`. -/
def entryAt (off : ℕ) : Entry :=
  ⟨d.inumAt data off, fun k => if k < DIRSIZ then d.byteAt data (off + 2 + k) else 0⟩

def ents : List Entry :=
  if d.type = .dir then (List.range (d.size / DIRENT)).map fun k => d.entryAt data (k * DIRENT)
  else []

/-- How much is left of a directory after the entries. -/
def tail : ℕ := if d.type = .dir then d.size % DIRENT else 0

/-- The node of an inode that is allocated. -/
def node : Option Node :=
  if d.type = .none then none else some ⟨d.type, d.nlink, d.ents data, d.tail⟩

variable {data d} {data' : ℕ → Bytes} {d' : Dinode}

variable {off : ℕ} {L : FsLayout}

theorem entryAt_congr (h : ∀ k, k < DIRENT → d'.byteAt data' (off + k) = d.byteAt data (off + k)) :
    d'.entryAt data' off = d.entryAt data off := by
  have h0 : d'.byteAt data' off = d.byteAt data off := h 0 (by decide)
  have h1 := h 1 (by decide)
  have hname : (fun k => if k < DIRSIZ then d'.byteAt data' (off + 2 + k) else 0) =
      fun k => if k < DIRSIZ then d.byteAt data (off + 2 + k) else 0 := by
    funext k
    split
    · rename_i hk
      have := h (2 + k) (by unfold DIRSIZ at hk; unfold DIRENT; omega)
      rwa [← Nat.add_assoc] at this
    · rfl
  rw [entryAt, entryAt, hname, inumAt_congr h0 h1]

/-- The entry of the bytes `b`. -/
theorem entryAt_eq {b : Bytes} (h : ∀ k, k < DIRENT → d.byteAt data (off + k) = b k) :
    d.entryAt data off = b.entry := by
  have h0 : d.byteAt data off = b 0 := h 0 (by decide)
  have hname : (fun k => if k < DIRSIZ then d.byteAt data (off + 2 + k) else 0) =
      fun k => if k < DIRSIZ then b.name k else 0 := by
    funext k
    split
    · rename_i hk
      rw [Nat.add_assoc]
      exact h (2 + k) (by unfold DIRSIZ at hk; unfold DIRENT; omega)
    · rfl
  rw [entryAt, hname, inumAt, h0, h 1 (by decide)]
  rfl

/-- Entries below the size do not change if the bytes below the size do not. -/
theorem ents_congr (ht : d'.type = d.type) (hs : d'.size = d.size)
    (h : ∀ off, off < d.size → d'.byteAt data' off = d.byteAt data off) :
    d'.ents data' = d.ents data := by
  unfold ents
  rw [ht, hs]
  split
  · refine List.map_congr_left fun k hk => entryAt_congr fun j hj => h _ ?_
    have hk' := List.mem_range.mp hk
    unfold DIRENT at hk' hj ⊢
    omega
  · rfl

/-- The fields that matter for being good. -/
theorem Good.congr (hg : d.Good data L) (ht : d'.type = d.type) (hs : d'.size = d.size)
    (ha : d'.addrs = d.addrs) : d'.Good data L := by
  have hblock : ∀ bn, d'.block data bn = d.block data bn := fun bn =>
    slot_congr ha fun _ => rfl
  have hbyte : ∀ off, d'.byteAt data off = d.byteAt data off := fun off => by
    rw [byteAt, byteAt, hblock]
  refine ⟨fun bn hbn => ?_, fun hdir k hk => ?_⟩
  · rw [hblock]
    exact hg.mapped bn (hs ▸ hbn)
  · rw [inumAt_congr (hbyte _) (hbyte _)]
    exact hg.entries (ht.symm.trans hdir) k (hs ▸ hk)

theorem ents_congr_fields (ht : d'.type = d.type) (hs : d'.size = d.size)
    (ha : d'.addrs = d.addrs) : d'.ents data = d.ents data :=
  ents_congr ht hs fun off _ => by
    rw [byteAt, byteAt, block, block, slot_congr ha fun _ => rfl]

theorem node_eq_some {n : Node} (h : d.node data = some n) :
    d.type ≠ .none ∧ n = ⟨d.type, d.nlink, d.ents data, d.tail⟩ := by
  unfold node at h
  split at h
  · cases h
  · exact ⟨‹_›, (Option.some.inj h).symm⟩

theorem node_of (h : d.type ≠ .none) :
    d.node data = some ⟨d.type, d.nlink, d.ents data, d.tail⟩ := if_neg h

theorem ents_dir (h : d.type = .dir) : d.ents data =
    (List.range (d.size / DIRENT)).map fun k => d.entryAt data (k * DIRENT) := if_pos h

theorem ents_of_ne (h : d.type ≠ .dir) : d.ents data = [] := if_neg h

theorem tail_congr (ht : d'.type = d.type) (hs : d'.size % DIRENT = d.size % DIRENT) :
    d'.tail = d.tail := by
  rw [tail, tail, ht, hs]

theorem Good.byteAt_frame (hg : d.Good data L)
    (h : ∀ n, d.slot data n ≠ 0 → data' (d.slot data n) = data (d.slot data n))
    (hoff : off < d.size) : d.byteAt data' off = d.byteAt data off := by
  have hdiv : off / BSIZE * BSIZE < d.size := (Nat.div_mul_le_self _ _).trans_lt hoff
  simp only [byteAt, block, slot_frame h, h _ (hg.mapped _ hdiv)]

/-- A file whose blocks keep their contents stays the same. -/
theorem Good.node_frame (hg : d.Good data L)
    (h : ∀ n, d.slot data n ≠ 0 → data' (d.slot data n) = data (d.slot data n)) :
    d.node data' = d.node data := by
  unfold node
  rw [ents_congr rfl rfl fun off hoff => hg.byteAt_frame h hoff]

/-- The file `d` on the blocks `data` is the same as `d'` on `data'`. -/
structure Same (data : ℕ → Bytes) (d : Dinode) (data' : ℕ → Bytes) (d' : Dinode) : Prop where
  type : d'.type = d.type
  major : d'.major = d.major
  minor : d'.minor = d.minor
  nlink : d'.nlink = d.nlink
  size : d'.size = d.size
  bytes : ∀ off, off < d.size → d'.byteAt data' off = d.byteAt data off

theorem Same.node (h : Same data d data' d') : d'.node data' = d.node data := by
  rw [Dinode.node, Dinode.node, h.type, h.nlink, ents_congr h.type h.size h.bytes,
    tail_congr h.type (by rw [h.size])]

theorem Same.trans {data'' : ℕ → Bytes} {d'' : Dinode} (h : Same data d data' d')
    (h' : Same data' d' data'' d'') : Same data d data'' d'' where
  type := h'.type.trans h.type
  major := h'.major.trans h.major
  minor := h'.minor.trans h.minor
  nlink := h'.nlink.trans h.nlink
  size := h'.size.trans h.size
  bytes off hoff := (h'.bytes off (h.size ▸ hoff)).trans (h.bytes off hoff)

end Dinode

/-- What an edit makes of the number of links. -/
def Edit.links (k : ℤ) : Edit → ℤ
  | .init _ _ => 1
  | .clear => 0
  | .add j => Fs.short (k + j)

theorem Edit.apply_fields (e : Edit) (d : Dinode) : (e.apply d).type = d.type ∧
    (e.apply d).size = d.size ∧ (e.apply d).addrs = d.addrs ∧
    (e.apply d).nlink = e.links d.nlink := by
  cases e <;> exact ⟨rfl, rfl, rfl, rfl⟩

/-! ## The invariant -/

/-- An entry of the table of inodes, without the copy of the inode. -/
structure Tab where
  inum : ℕ
  ref : ℕ
  valid : Bool
  locked : Bool

def Inode.tab (x : Inode) : Tab := ⟨x.inum, x.ref, x.valid, x.locked⟩

structure TableOk (L : FsLayout) (tab : Fin NINODE → Tab) : Prop where
  /-- an inode has one entry -/
  uniq : ∀ {ip jp}, 0 < (tab ip).ref → 0 < (tab jp).ref → (tab ip).inum = (tab jp).inum → ip = jp
  inum : ∀ {ip}, 0 < (tab ip).ref → (tab ip).inum < L.ninodes
  locked : ∀ {ip}, (tab ip).locked = true → 0 < (tab ip).ref ∧ (tab ip).valid = true

namespace Fs

variable (L : FsLayout)

def tab (s : Fs) (ip : Fin NINODE) : Tab := (s.itable ip).tab

def nodes (s : Fs) (i : ℕ) : Option Node :=
  if i < L.ninodes then (s.dinode i).node s.data else none

/-- The part of the state that is on disk. -/
def disk (s : Fs) : (ℕ → Bool) × (ℕ → Dinode) × (ℕ → Bytes) := (s.bitmap, s.dinode, s.data)

/-- Inode `i` is free in both states, or the same file in both. -/
def SameFile (s s' : Fs) (i : ℕ) : Prop :=
  ((s.dinode i).type = .none ∧ (s'.dinode i).type = .none) ∨
    Dinode.Same s.data (s.dinode i) s'.data (s'.dinode i)

/-- All files are the same. -/
def SameTree (s s' : Fs) : Prop := ∀ i, i < L.ninodes → s.SameFile s' i

/-- All files but that of inode `j` are the same. -/
def SameBut (s : Fs) (j : ℕ) (s' : Fs) : Prop := ∀ i, i < L.ninodes → i ≠ j → s.SameFile s' i

/-- What holds between operations. -/
structure Inv (s : Fs) : Prop where
  table : TableOk L s.tab
  /-- changes to the copy in memory have been written back -/
  sync : ∀ {ip}, 0 < (s.tab ip).ref → (s.tab ip).valid = true →
    (s.itable ip).d = s.dinode (s.tab ip).inum ∧ (s.itable ip).d.type ≠ .none
  marked : Marked L s.dinode s.bitmap s.data
  good : ∀ {i}, i < L.ninodes → (s.dinode i).type ≠ .none → (s.dinode i).Good s.data L

/-- The entry `ip` of the table may be worked on. -/
def Live (s : Fs) (ip : Fin NINODE) : Prop := 0 < (s.tab ip).ref ∧ (s.tab ip).valid = true

variable {L} {E : FsPanic → Prop} {s s' : Fs} {ip jp : Fin NINODE}

/-! ### The same files -/

variable {i j off tot : ℕ} {s'' : Fs} {f : Dinode → Dinode} {src : Mem}

theorem SameFile.refl : s.SameFile s i := .inr ⟨rfl, rfl, rfl, rfl, rfl, fun _ _ => rfl⟩

theorem SameFile.trans (h : s.SameFile s' i) (h' : s'.SameFile s'' i) : s.SameFile s'' i := by
  rcases h with ⟨h0, h1⟩ | h
  · refine .inl ⟨h0, ?_⟩
    rcases h' with h' | h'
    · exact h'.2
    · exact h'.type.trans h1
  · rcases h' with ⟨h1, h2⟩ | h'
    · exact .inl ⟨h.type.symm.trans h1, h2⟩
    · exact .inr (h.trans h')

theorem SameFile.node (h : s.SameFile s' i) :
    (s'.dinode i).node s'.data = (s.dinode i).node s.data := by
  rcases h with ⟨h0, h1⟩ | h
  · rw [Dinode.node, Dinode.node, if_pos h0, if_pos h1]
  · exact h.node

theorem SameTree.refl : s.SameTree L s := fun _ _ => .refl

theorem SameTree.trans (h : s.SameTree L s') (h' : s'.SameTree L s'') :
    s.SameTree L s'' := fun i hi => (h i hi).trans (h' i hi)

theorem SameTree.nodes (h : s.SameTree L s') : s'.nodes L = s.nodes L := by
  funext i
  unfold Fs.nodes
  split
  · exact (h i ‹_›).node
  · rfl

theorem SameTree.but (h : s.SameTree L s') : s.SameBut L j s' := fun i hi _ => h i hi

theorem SameBut.trans (h : s.SameBut L j s') (h' : s'.SameBut L j s'') :
    s.SameBut L j s'' := fun i hi hne => (h i hi hne).trans (h' i hi hne)

theorem SameBut.tree (h : s.SameBut L j s') (hj : s.SameFile s' j) : s.SameTree L s' :=
  fun i hi => by
  by_cases hij : i = j
  · rwa [hij]
  · exact h i hi hij

theorem sameTree_of_disk (h : s'.disk = s.disk) : s.SameTree L s' := fun i _ => by
  obtain ⟨-, hdi, hda⟩ := Prod.ext_iff.mp h |>.imp id Prod.ext_iff.mp
  refine .inr ⟨?_, ?_, ?_, ?_, ?_, fun off _ => ?_⟩ <;>
    simp_all [disk]

theorem nodes_of_disk (h : s'.disk = s.disk) : s'.nodes L = s.nodes L :=
  (sameTree_of_disk h).nodes

theorem lt_of_nodes (hn : s.nodes L i = some n) : i < L.ninodes := by
  by_contra h
  rw [nodes, if_neg h] at hn
  cases hn

theorem dinode_of_nodes (hn : s.nodes L i = some n) :
    (s.dinode i).type ≠ .none ∧ n = ⟨(s.dinode i).type, (s.dinode i).nlink,
      (s.dinode i).ents s.data, (s.dinode i).tail⟩ := by
  rw [nodes, if_pos (lt_of_nodes hn)] at hn
  exact Dinode.node_eq_some hn

/-- Only the inode `j` changes on disk, and no block. -/
theorem sameBut_of_update {d : Dinode} (hdi : s'.dinode = update s.dinode j d)
    (hda : s'.data = s.data) : s.SameBut L j s' := fun i _ hne => by
  have hd : s'.dinode i = s.dinode i := by rw [hdi, update_of_ne hne]
  refine .inr ?_
  rw [hd, hda]
  exact ⟨rfl, rfl, rfl, rfl, rfl, fun _ _ => rfl⟩

theorem Inv.live (hi : s.Inv L) (h : (s.tab ip).locked = true) : s.Live ip := hi.table.locked h

theorem Inv.inum (hi : s.Inv L) (hl : s.Live ip) : (s.itable ip).inum < L.ninodes :=
  hi.table.inum hl.1

theorem Inv.ino (hi : s.Inv L) (hl : s.Live ip) : s.ino ip = s.dinode := by
  rw [Fs.ino, (hi.sync hl.1 hl.2).1]
  exact update_eq_self ..

theorem Inv.focus (hi : s.Inv L) (hl : s.Live ip) : s.Focus L ip where
  inum := hi.inum hl
  type := (hi.sync hl.1 hl.2).2
  marked := by
    rw [hi.ino hl]
    exact hi.marked

theorem Inv.goodSelf (hi : s.Inv L) (hl : s.Live ip) : (s.itable ip).d.Good s.data L := by
  obtain ⟨hd, ht⟩ := hi.sync hl.1 hl.2
  rw [hd] at ht ⊢
  exact hi.good (hi.inum hl) ht

theorem Inv.nodes_self (hi : s.Inv L) (hl : s.Live ip) :
    s.nodes L (s.tab ip).inum = (s.itable ip).d.node s.data := by
  rw [nodes, if_pos (hi.table.inum hl.1), (hi.sync hl.1 hl.2).1]

/-- The copy of `ip` in memory may have changed, nothing else in the table. -/
def OnlyD (s : Fs) (ip : Fin NINODE) (s' : Fs) : Prop :=
  ∃ d, s'.itable = update s.itable ip { s.itable ip with d := d }

theorem OnlyD.tab (h : s.OnlyD ip s') : s'.tab = s.tab := by
  obtain ⟨d, h⟩ := h
  funext jp
  unfold Fs.tab
  by_cases hj : jp = ip
  · rw [h, hj, update_self]
    rfl
  · rw [h, update_of_ne hj]

/-- The state after the copy of `ip` is written back. -/
def wroteBack (s : Fs) (ip : Fin NINODE) (lg : List ℕ) : Fs := { s with
  dinode := update s.dinode (s.itable ip).inum (s.itable ip).d
  logged := lg }

/-- The work on the copy of `ip` keeps the rest of the file system. -/
structure Works (L : FsLayout) (s : Fs) (ip : Fin NINODE) (s' : Fs) : Prop where
  itable : s.OnlyD ip s'
  dinode : s'.dinode = s.dinode
  marked : Marked L (s'.ino ip) s'.bitmap s'.data
  others : s.Keeps L ip s'

theorem Works.inum (hw : Works L s ip s') : (s'.itable ip).inum = (s.tab ip).inum := by
  rw [← hw.itable.tab]
  rfl

theorem Works.good (hi : s.Inv L) (hw : Works L s ip s') (lg : List ℕ)
    (hg : (s'.itable ip).d.type ≠ .none → (s'.itable ip).d.Good s'.data L) (hlt : i < L.ninodes)
    (ht : ((s'.wroteBack ip lg).dinode i).type ≠ .none) :
    ((s'.wroteBack ip lg).dinode i).Good s'.data L := by
  simp only [wroteBack] at ht ⊢
  by_cases h : i = (s'.itable ip).inum
  · rw [h, update_self] at ht ⊢
    exact hg ht
  · rw [update_of_ne h, hw.dinode] at ht ⊢
    exact (hi.good hlt ht).frame (hw.others i hlt (fun h' => h (h'.trans hw.inum.symm)) ht)

theorem Works.nodes (hi : s.Inv L) (hw : Works L s ip s') (hlt : (s.tab ip).inum < L.ninodes)
    (lg : List ℕ) : (s'.wroteBack ip lg).nodes L =
      update (s.nodes L) (s.tab ip).inum ((s'.itable ip).d.node s'.data) := by
  funext i
  simp only [Fs.nodes, wroteBack, hw.inum]
  by_cases h : i = (s.tab ip).inum
  · rw [h, update_self, update_self, if_pos hlt]
  · rw [update_of_ne h, update_of_ne h, hw.dinode]
    by_cases hi' : i < L.ninodes
    · rw [if_pos hi', Fs.nodes, if_pos hi']
      by_cases ht : (s.dinode i).type = .none
      · simp only [Dinode.node, ht, if_true]
      · exact (hi.good hi' ht).node_frame (hw.others i hi' h ht)
    · rw [if_neg hi', Fs.nodes, if_neg hi']

/-- The work on `ip` leaves the other files alone. -/
theorem Works.sameBut (hi : s.Inv L) (hw : Works L s ip s') (lg : List ℕ) :
    s.SameBut L (s.tab ip).inum (s'.wroteBack ip lg) := fun i hlt hne => by
  have hd : (s'.wroteBack ip lg).dinode i = s.dinode i := by
    rw [← hw.dinode, wroteBack, hw.inum]
    exact update_of_ne hne _ _
  by_cases ht : (s.dinode i).type = .none
  · exact .inl ⟨ht, by rw [hd, ht]⟩
  · refine .inr ?_
    rw [hd]
    exact ⟨rfl, rfl, rfl, rfl, rfl, fun off hoff =>
      (hi.good hlt ht).byteAt_frame (hw.others i hlt hne ht) hoff⟩

theorem Works.sync_of_ne (hi : s.Inv L) (hl : 0 < (s.tab ip).ref) (hw : Works L s ip s')
    (lg : List ℕ) {jp : Fin NINODE} (hne : jp ≠ ip) (href : 0 < (s.tab jp).ref)
    (hval : (s.tab jp).valid = true) :
    (s'.itable jp).d = (s'.wroteBack ip lg).dinode (s.tab jp).inum ∧
      (s'.itable jp).d.type ≠ .none := by
  obtain ⟨d, hit⟩ := hw.itable
  have hinum : (s.tab jp).inum ≠ (s'.itable ip).inum := fun h =>
    hne (hi.table.uniq href hl (h.trans hw.inum))
  have hdi : (s'.wroteBack ip lg).dinode (s.tab jp).inum = s.dinode (s.tab jp).inum := by
    rw [wroteBack, ← hw.dinode]
    exact update_of_ne hinum _ _
  rw [hdi, hit, update_of_ne hne]
  exact hi.sync href hval

/-- The work ends with the copy of `ip` being written back. -/
theorem Inv.writeback (hi : s.Inv L) (hl : s.Live ip) (hw : Works L s ip s')
    (ht : (s'.itable ip).d.type ≠ .none) (hg : (s'.itable ip).d.Good s'.data L) (lg : List ℕ) :
    (s'.wroteBack ip lg).Inv L where
  table := by
    have htab : (s'.wroteBack ip lg).tab = s.tab := hw.itable.tab
    rw [htab]
    exact hi.table
  sync {jp} href hval := by
    have htab : (s'.wroteBack ip lg).tab = s.tab := hw.itable.tab
    rw [htab] at href hval ⊢
    by_cases h : jp = ip
    · rw [h]
      refine ⟨?_, ht⟩
      simp only [wroteBack, hw.inum, update_self]
    · exact hw.sync_of_ne hi hl.1 lg h href hval
  marked := hw.marked
  good hlt htype := hw.good hi lg (fun _ => hg) hlt htype

/-! ## Fields -/

theorem itable_setD : ((s.setD ip f).itable ip).d = f (s.itable ip).d := by
  simp only [setD, setInode, update_self]

theorem onlyD_setD : s.OnlyD ip (s.setD ip f) := ⟨_, rfl⟩

theorem OnlyD.trans (h : s.OnlyD ip s') (h' : s'.OnlyD ip s'') : s.OnlyD ip s'' := by
  obtain ⟨d, h⟩ := h
  obtain ⟨d', h'⟩ := h'
  refine ⟨d', ?_⟩
  rw [h', h]
  simp

/-- A change to fields other than the type and the block numbers. -/
theorem Works.setD (hw : Works L s ip s') (ht : (f (s'.itable ip).d).type = (s'.itable ip).d.type)
    (ha : (f (s'.itable ip).d).addrs = (s'.itable ip).d.addrs) : Works L s ip (s'.setD ip f) where
  itable := hw.itable.trans onlyD_setD
  dinode := hw.dinode
  marked := by
    refine ⟨?_, hw.marked.reserved⟩
    have hinum : ((s'.setD ip f).itable ip).inum = (s'.itable ip).inum := by
      simp only [Fs.setD, setInode, update_self]
    have hino : ∀ i, (s'.setD ip f).ino ip i = if i = (s'.itable ip).inum then f (s'.itable ip).d
        else s'.ino ip i := fun i => by
      rw [Fs.ino, itable_setD, hinum]
      by_cases h : i = (s'.itable ip).inum
      · rw [h, update_self, if_pos rfl]
      · rw [update_of_ne h, if_neg h, ino_of_ne h]
        rfl
    have hplaces : places L ((s'.setD ip f).ino ip) s'.data = places L (s'.ino ip) s'.data := by
      refine places_congr (fun i _ => ?_) fun i n _ _ => ?_
      · rw [hino]
        split
        · rename_i h
          rw [h, ino_self, ht]
        · rfl
      · rw [hino]
        split
        · rename_i h
          rw [h, ino_self]
          exact Dinode.slot_congr ha fun _ => rfl
        · rfl
    have howns := hw.marked.owns
    rw [← hplaces] at howns
    exact howns
  others := hw.others

theorem Inv.works (hi : s.Inv L) (hl : s.Live ip) : Works L s ip s where
  itable := ⟨(s.itable ip).d, by simp⟩
  dinode := rfl
  marked := (hi.focus hl).marked
  others := .refl

theorem change_spec (hi : s.Inv L) (hl : s.Live ip) {e : Edit} {n : Node}
    (hn : s.nodes L (s.tab ip).inum = some n) :
    wp E (change L ip fun d => e.apply d) (fun _ s' => s'.Inv L ∧ s'.tab = s.tab ∧
      s'.nodes L = update (s.nodes L) (s.tab ip).inum
        (some { n with nlink := e.links n.nlink }) ∧
      s'.dinode = update s.dinode (s.tab ip).inum (e.apply (s.dinode (s.tab ip).inum)) ∧
      s'.data = s.data) s := by
  simp only [change, iupdate, log_write, wp_bind, wp_modify, wp_get]
  obtain ⟨ht, hs, ha, hk⟩ := e.apply_fields (s.itable ip).d
  have hw := (hi.works hl).setD (f := fun d => e.apply d) ht ha
  have htype := (hi.sync hl.1 hl.2).2
  have hd : ((s.setD ip fun d => e.apply d).itable ip).d = e.apply (s.itable ip).d := itable_setD
  have hgood := (hi.goodSelf hl).congr ht hs ha
  have hinv := hi.writeback hl hw (hd ▸ ht ▸ htype) (hd ▸ hgood)
  have hnodes := hw.nodes hi (hi.table.inum hl.1)
  rw [hi.nodes_self hl] at hn
  obtain ⟨-, rfl⟩ := Dinode.node_eq_some hn
  refine ⟨hinv _, hw.itable.tab, (hnodes _).trans ?_, ?_, rfl⟩
  · rw [hd, Dinode.node_of (ht ▸ htype), ht, hk, Dinode.ents_congr_fields ht hs ha,
      Dinode.tail_congr ht (by rw [hs])]
    rfl
  · show update s.dinode ((s.setD ip fun d => e.apply d).itable ip).inum _ = _
    rw [hd, hw.inum, (hi.sync hl.1 hl.2).1]

/-! ## Writing -/

/-- The size after a write up to `e`. -/
def grownTo (e : ℕ) (d : Dinode) : Dinode := { d with size := if d.size < e then e else d.size }

theorem Wrote.works (hw : Wrote L s ip src off tot s') :
    Works L s ip s' := ⟨⟨_, hw.itable⟩, hw.dinode, hw.focus.marked, hw.others⟩

theorem Wrote.fields (hw : Wrote L s ip src off tot s') :
    (s'.itable ip).d.type = (s.itable ip).d.type ∧ (s'.itable ip).d.size = (s.itable ip).d.size ∧
      (s'.itable ip).d.nlink = (s.itable ip).d.nlink := by
  rw [hw.itable, update_self]
  exact ⟨rfl, rfl, rfl⟩

theorem Wrote.device (hw : Wrote L s ip src off tot s') :
    (s'.itable ip).d.major = (s.itable ip).d.major ∧
      (s'.itable ip).d.minor = (s.itable ip).d.minor := by
  rw [hw.itable, update_self]
  exact ⟨rfl, rfl⟩

/-- `writei` returns -1 at once. -/
def Refuses (s : Fs) (ip : Fin NINODE) (off n : ℕ) : Prop :=
  ((s.itable ip).d.size < off ∨ (off + n) % 2 ^ 32 < off) ∨ MAXFILE * BSIZE < off + n

/-- `writei` fails, or writes some of the bytes and then writes the inode back. -/
theorem writei_wrote (hf : s.Focus L ip) {n : ℕ} :
    wp E (writei L ip src off n) (fun r s' => (r = none ∧ s' = s ∧ s.Refuses ip off n) ∨
      ∃ tot c s₁ lg, r = some tot ∧ tot ≤ n ∧ (tot = n ∨ tot = 0 ∨ (off + tot) % BSIZE = 0) ∧
      ¬ s.Refuses ip off n ∧ s.Ends ip src off n tot c ∧ Wrote L s ip src off (tot + c) s₁ ∧
      s' = (s₁.setD ip (grownTo (off + tot))).wroteBack ip lg) s := by
  simp only [writei, wp_bind, wp_get, wp_ite]
  split
  · rename_i hoff
    exact .inl ⟨rfl, rfl, .inl hoff⟩
  · rename_i hoff
    split
    · rename_i hmax
      exact .inl ⟨rfl, rfl, .inr hmax⟩
    · rename_i hmax
      refine (writeLoop_spec (by omega) n 0 (Wrote.refl hf)
        (by simp) (by omega) (by omega) (.inr (.inl rfl))).mono ?_
      rintro ⟨tot, o⟩ s₁ ⟨ho, hle, hend, ⟨c, hc, hw⟩, -⟩
      obtain rfl : o = off + tot := ho
      simp only [iupdate, log_write, wp_bind, wp_modify, wp_get, wp_pure]
      exact .inr ⟨tot, c, s₁, _, rfl, hle, hend, not_or.mpr ⟨hoff, hmax⟩, hc, hw, rfl⟩

/-- From a buffer of the kernel, nothing is written that is not reported. -/
theorem Ends.kernel {b : Bytes} {n c : ℕ} (h : s.Ends ip (kernel b) off n tot c) : c = 0 :=
  h.why.elim And.left fun h => nomatch h.fails

/-- A write leaves no hole. -/
theorem Wrote.mapped_size (hi : s.Inv L) (hl : s.Live ip) {c : ℕ}
    (hw : Wrote L s ip src off (tot + c) s') (hoff : off ≤ (s.itable ip).d.size) {bn : ℕ}
    (hbn : bn * BSIZE < (grownTo (off + tot) (s'.itable ip).d).size) :
    (grownTo (off + tot) (s'.itable ip).d).block s'.data bn ≠ 0 := by
  have hblock : (grownTo (off + tot) (s'.itable ip).d).block s'.data bn =
      s'.slot ip (Dinode.index bn) := rfl
  rw [hblock]
  by_cases h : bn * BSIZE < (s.itable ip).d.size
  · have hs : s.slot ip (Dinode.index bn) ≠ 0 := (hi.goodSelf hl).mapped bn h
    rwa [hw.slots _ hs]
  · have hlt : bn * BSIZE < off + tot := by
      simp only [grownTo, hw.fields.2.1] at hbn
      split at hbn <;> omega
    have hm := hw.mapped (bn * BSIZE) (by omega) (by omega)
    rwa [Nat.mul_div_cancel _ (by decide)] at hm

/-! ## Writing an entry -/

section Entry

variable {b : Bytes} {k tot : ℕ}

theorem Wrote.byte_eq (hi : s.Inv L) (hl : s.Live ip)
    (hw : Wrote L s ip (kernel b) (k * DIRENT) tot s') {o : ℕ}
    (ho : o < (s.itable ip).d.size ∨ (k * DIRENT ≤ o ∧ o < k * DIRENT + tot)) :
    (s'.itable ip).d.byteAt s'.data o = if k * DIRENT ≤ o ∧ o < k * DIRENT + tot then
      b (o - k * DIRENT) else (s.itable ip).d.byteAt s.data o := by
  refine hw.bytes (ho.imp_left fun h => ?_)
  exact (hi.goodSelf hl).mapped _ ((Nat.div_mul_le_self _ _).trans_lt h)

theorem Wrote.entry_other (hi : s.Inv L) (hl : s.Live ip)
    (hw : Wrote L s ip (kernel b) (k * DIRENT) tot s') (htot : tot ≤ DIRENT) {j : ℕ}
    (hj : (j + 1) * DIRENT ≤ (s.itable ip).d.size) (hjk : j ≠ k ∨ tot = 0) :
    (s'.itable ip).d.entryAt s'.data (j * DIRENT) =
      (s.itable ip).d.entryAt s.data (j * DIRENT) := by
  refine Dinode.entryAt_congr fun i hi' => ?_
  rw [hw.byte_eq hi hl (.inl (by unfold DIRENT at hj hi' ⊢; omega)), if_neg]
  unfold DIRENT at hi' htot ⊢
  omega

theorem Wrote.entry_self (hi : s.Inv L) (hl : s.Live ip)
    (hw : Wrote L s ip (kernel b) (k * DIRENT) DIRENT s') :
    (s'.itable ip).d.entryAt s'.data (k * DIRENT) = b.entry := by
  have hbyte : ∀ i, i < DIRENT → (s'.itable ip).d.byteAt s'.data (k * DIRENT + i) = b i := by
    intro i hi'
    rw [hw.byte_eq hi hl (.inr ⟨by omega, by omega⟩), if_pos ⟨by omega, by omega⟩,
      Nat.add_sub_cancel_left]
  exact Dinode.entryAt_eq hbyte

/-- The entry at `k` is written, or nothing is. -/
theorem writeEntry_spec (hi : s.Inv L) (hl : s.Live ip) (hb : b.inum < L.ninodes) {n : Node}
    (hn : s.nodes L (s.tab ip).inum = some n) (hdir : n.type = .dir)
    (hk : (k + 1) * DIRENT ≤ (s.itable ip).d.size ∨ k * DIRENT = (s.itable ip).d.size) :
    wp E (writei L ip (kernel b) (k * DIRENT) DIRENT) (fun r s' => s'.Inv L ∧ s'.tab = s.tab ∧
      s.SameBut L (s.tab ip).inum s' ∧
      ((r ≠ some DIRENT ∧ s.SameTree L s') ∨ (r = some DIRENT ∧
        s'.nodes L = update (s.nodes L) (s.tab ip).inum
          (some { n with ents := putEntry n.ents k b.entry })))) s := by
  rw [hi.nodes_self hl] at hn
  obtain ⟨hnone, rfl⟩ := Dinode.node_eq_some hn
  refine (writei_wrote (hi.focus hl)).mono ?_
  rintro r s' (⟨rfl, rfl, -⟩ | ⟨tot, c, s₁, lg, rfl, hle, hend, hnot, hc, hw, rfl⟩)
  · exact ⟨hi, rfl, SameTree.refl.but, .inl ⟨by simp, .refl⟩⟩
  · obtain rfl := hc.kernel
    have hoff : k * DIRENT ≤ (s.itable ip).d.size := by
      unfold Refuses at hnot
      omega
    obtain ⟨ht, hsz, hlk⟩ := hw.fields
    have hworks := hw.works.setD (f := grownTo (k * DIRENT + tot)) rfl rfl
    have hd : ((s₁.setD ip (grownTo (k * DIRENT + tot))).itable ip).d =
        grownTo (k * DIRENT + tot) (s₁.itable ip).d := itable_setD
    have hnone' : (s₁.itable ip).d.type ≠ .none := ht ▸ hnone
    have htot : tot = 0 ∨ tot = DIRENT := by
      unfold DIRENT BSIZE at *
      omega
    -- the entries below the new size name inodes
    have hent : ∀ j, (j + 1) * DIRENT ≤ (grownTo (k * DIRENT + tot) (s₁.itable ip).d).size →
        (s₁.itable ip).d.inumAt s₁.data (j * DIRENT) < L.ninodes := by
      intro j hj
      simp only [grownTo, hsz] at hj
      by_cases hjk : j ≠ k ∨ tot = 0
      · have hj' : (j + 1) * DIRENT ≤ (s.itable ip).d.size := by
          unfold DIRENT at *
          split at hj <;> omega
        have he := congrArg Entry.inum (hw.entry_other hi hl hle hj' hjk)
        exact he.trans_lt ((hi.goodSelf hl).entries hdir j hj')
      · obtain ⟨rfl, h0⟩ := not_or.mp hjk |>.imp not_not.mp id
        obtain rfl := htot.resolve_left h0
        exact (congrArg Entry.inum (hw.entry_self hi hl)).trans_lt hb
    refine ⟨hi.writeback hl hworks (hd ▸ hnone') (hd ▸ ⟨fun bn => hw.mapped_size hi hl hoff,
      fun _ => hent⟩) lg, hworks.itable.tab, hworks.sameBut hi lg, ?_⟩
    have hnodes := hworks.nodes hi (hi.table.inum hl.1) lg
    rw [hd] at hnodes
    have htail : (grownTo (k * DIRENT + tot) (s₁.itable ip).d).tail = (s.itable ip).d.tail := by
      refine Dinode.tail_congr ht ?_
      simp only [grownTo, hsz]
      unfold DIRENT at *
      split <;> omega
    have hnode : ∀ l, (grownTo (k * DIRENT + tot) (s₁.itable ip).d).ents s₁.data = l →
        (grownTo (k * DIRENT + tot) (s₁.itable ip).d).node s₁.data =
          some ⟨(s.itable ip).d.type, (s.itable ip).d.nlink, l, (s.itable ip).d.tail⟩ :=
      fun l hl' => by
        rw [Dinode.node_of (d := grownTo _ _) hnone', hl', htail, ← ht, ← hlk]
        rfl
    rcases htot with rfl | rfl
    · refine .inl ⟨by decide, (hworks.sameBut hi lg).tree (.inr ?_)⟩
      have hdi : ((s₁.setD ip (grownTo (k * DIRENT + 0))).wroteBack ip lg).dinode
          (s.tab ip).inum = grownTo (k * DIRENT + 0) (s₁.itable ip).d := by
        rw [wroteBack, hworks.inum, hd]
        exact update_self ..
      have hsize : (grownTo (k * DIRENT + 0) (s₁.itable ip).d).size = (s.itable ip).d.size := by
        simp only [grownTo, hsz]
        rw [if_neg (by omega)]
      obtain ⟨hmaj, hmin⟩ := hw.device
      rw [hdi, ← (hi.sync hl.1 hl.2).1]
      exact ⟨ht, hmaj, hmin, hlk, hsize, fun o ho =>
        (hw.byte_eq hi hl (.inl ho)).trans (if_neg (by omega))⟩
    · refine .inr ⟨rfl, hnodes.trans (congrArg (update (s.nodes L) (s.tab ip).inum) (hnode _ ?_))⟩
      have hdir' : (s₁.itable ip).d.type = .dir := ht.trans hdir
      have hsize : (grownTo (k * DIRENT + DIRENT) (s₁.itable ip).d).size / DIRENT =
          max ((s.itable ip).d.size / DIRENT) (k + 1) := by
        simp only [grownTo, hsz]
        unfold DIRENT at *
        split <;> omega
      rw [Dinode.ents_dir (d := grownTo _ _) hdir', hsize, Dinode.ents_dir hdir,
        ← hw.entry_self hi hl]
      refine map_range_put ?_ fun j hj hjk => ?_
      · unfold DIRENT at *
        omega
      · refine hw.entry_other hi hl le_rfl ?_ (.inl hjk)
        unfold DIRENT at *
        omega

end Entry

end Fs

end Xv6
