import Xv6.InodeOwn

/-!
# What `writei` promises

`writei` from memory that is mapped, with enough free blocks, writes all the bytes
(`writei_array`). The blocks it needs are the slots in the range that are empty, with that of
the indirect block ; `balloc` fails only when no block is free, so a count of the free blocks
that covers them (`Fs.Room`) is kept by each allocation and suffices.

Without these conditions `writei` reports how much it has written. The copy of a chunk can
fail after some bytes of the block have been replaced, and then the file has changed beyond
what is reported (`writei_stray`). If these bytes are as they were, or beyond the end of the file,
the report is right (`writei_reports`) ; for a file without holes, only then
(`writei_misreports`).
-/

namespace Xv6

open Function Prog

namespace Fs

variable {L : FsLayout} {s s' s₁ : Fs} {ip : Fin NINODE} {src : Mem} {off n tot m : ℕ}

/-! ## Reading a file that may have holes -/

theorem bmap_beyond {bn : ℕ} (h : ¬ bn < MAXFILE) {Q : ℕ → Fs → Prop} :
    wp (fun e => e = .outOfRange) (bmap L ip bn) Q s := by
  unfold MAXFILE at h
  rw [bmap, if_neg (by omega), if_neg (by omega)]
  exact rfl

/-- The loop of `readi` copies the contents, and allocates the blocks that are missing. -/
theorem readLoop_contents {dst : Mem} :
    ∀ (fuel tot : ℕ) (buf : Bytes) {s' : Fs}, s'.Focus L ip → s.Grows L ip s' → tot ≤ n →
      (∀ k, k < tot → buf k = s.contents ip (off + k)) →
      wp (fun e => e = .outOfRange) (readLoop L ip dst n fuel tot (off + tot) buf) (fun r _ =>
        ∀ m, r.1 = some m → m ≤ n ∧ ∀ k, k < m → r.2 k = s.contents ip (off + k)) s'
  | 0, tot, buf, s', _, _, hle, hbuf => by
    intro m hm
    cases hm
    exact ⟨hle, hbuf⟩
  | fuel + 1, tot, buf, s', hf, hg, hle, hbuf => by
    have hdone : ∀ m, some tot = some m → m ≤ n ∧ ∀ k, k < m → buf k = s.contents ip (off + k) := by
      intro m hm
      cases hm
      exact ⟨hle, hbuf⟩
    simp only [readLoop, wp_ite, wp_bind]
    split
    · rename_i hlt
      by_cases hbn : (off + tot) / BSIZE < MAXFILE
      swap
      · exact bmap_beyond hbn
      refine (bmap_spec hf hbn).mono ?_
      rintro a s₁ ⟨hf₁, hg₁, ha, -⟩
      by_cases ha0 : a = 0
      · rw [if_pos ha0]
        exact hdone
      · rw [if_neg ha0]
        have hslot := ha ha0
        subst hslot
        generalize hm : min (n - tot) (BSIZE - (off + tot) % BSIZE) = m
        split
        · rename_i hc
          rw [hc, Nat.add_assoc]
          refine readLoop_contents fuel (tot + m) _ hf₁ (hg.trans hg₁) (by omega) fun k hk =>
            splice_reads (by omega) hbuf (fun o ho => ?_) hk
          rw [← (hg.trans hg₁).contents, contents_of_slot (by rwa [ho]), byte_eq, ho]
        · rintro - ⟨⟩
    · exact hdone

/-- What `readi` returns of `ip` are the bytes `c`. -/
def ReadsAs (L : FsLayout) (s : Fs) (ip : Fin NINODE) (c : ℕ → UInt8) : Prop :=
  ∀ dst off n, wp (fun e => e = .outOfRange) (readi L ip dst off n) (fun r _ =>
    ∀ m, r.1 = some m → m ≤ n ∧ ∀ k, k < m → r.2 k = c (off + k)) s

theorem Focus.readsAs (hf : s.Focus L ip) {c : ℕ → UInt8}
    (hc : ∀ o, o < (s.itable ip).d.size → s.contents ip o = c o) : s.ReadsAs L ip c := by
  intro dst off n
  simp only [readi, wp_bind, wp_get, wp_ite]
  split
  · intro m hm
    cases hm
    exact ⟨Nat.zero_le _, by simp⟩
  · rename_i hoff
    have hread : ∀ n', n' ≤ n → off + n' ≤ (s.itable ip).d.size →
        wp (fun e => e = .outOfRange) (readLoop L ip dst n' n' 0 off dst.byte) (fun r _ =>
          ∀ m, r.1 = some m → m ≤ n ∧ ∀ k, k < m → r.2 k = c (off + k)) s := fun n' hn' hle => by
      refine (readLoop_contents n' 0 dst.byte hf .refl (Nat.zero_le _)
        (by simp)).mono ?_
      intro r _ hr m hm
      obtain ⟨hmn, hbytes⟩ := hr m hm
      exact ⟨hmn.trans hn', fun k hk => (hbytes k hk).trans (hc _ (by omega))⟩
    split
    · exact hread _ (by omega) (by omega)
    · exact hread _ le_rfl (by omega)

/-! ## The inode is written back -/

/-- What the state is like after the write, and after the inode with its new size is written
back. -/
structure Written (L : FsLayout) (s : Fs) (ip : Fin NINODE) (src : Mem) (off tot c : ℕ)
    (s' : Fs) : Prop where
  focus : s'.Focus L ip
  size : (s'.itable ip).d.size = max (s.itable ip).d.size (off + tot)
  type : (s'.itable ip).d.type = (s.itable ip).d.type
  slots : ∀ k, s.slot ip k ≠ 0 → s'.slot ip k ≠ 0
  mapped : ∀ o, off ≤ o → o < off + tot → s'.slot ip (Dinode.index (o / BSIZE)) ≠ 0
  contents : ∀ o, s'.contents ip o =
    if off ≤ o ∧ o < off + (tot + c) then src.byte (o - off) else s.contents ip o
  itable : ∀ jp, jp ≠ ip → s'.itable jp = s.itable jp
  dinode : ∀ i, i ≠ (s.itable ip).inum → s'.dinode i = s.dinode i
  others : s.Keeps L ip s'

variable {c o : ℕ} {E : FsPanic → Prop}

theorem Wrote.written (hf : s.Focus L ip) (hw : Wrote L s ip src off (tot + c) s₁) (lg : List ℕ) :
    Written L s ip src off tot c ((s₁.setD ip (grownTo (off + tot))).wroteBack ip lg) := by
  obtain ⟨ht, hsz, -⟩ := hw.fields
  have hworks := hw.works.setD (f := grownTo (off + tot)) rfl rfl
  generalize hs' : (s₁.setD ip (grownTo (off + tot))).wroteBack ip lg = s'
  have hit : s'.itable = (s₁.setD ip (grownTo (off + tot))).itable := hs' ▸ rfl
  have hd : (s'.itable ip).d = grownTo (off + tot) (s₁.itable ip).d := by
    rw [hit]
    exact itable_setD
  have hinum : (s'.itable ip).inum = (s.itable ip).inum := by
    rw [hit]
    exact hworks.inum
  have hdata : s'.data = s₁.data := hs' ▸ rfl
  have hdi : s'.dinode = update s.dinode (s.itable ip).inum (s'.itable ip).d := by
    rw [← hinum, hit, ← hw.dinode, ← hs']
    rfl
  have hslot : ∀ k, s'.slot ip k = s₁.slot ip k := fun k => by
    rw [slot, hd, hdata]
    rfl
  refine ⟨⟨?_, ?_, ?_⟩, ?_, ?_, fun k hk => ?_, fun o h1 h2 => ?_, fun o => ?_, fun jp hj => ?_,
    fun i hi => ?_, ?_⟩
  · rw [hinum]
    exact hf.inum
  · rw [hd]
    exact ht.trans_ne hf.type
  · have hm := hworks.marked
    have hino : (s₁.setD ip (grownTo (off + tot))).ino ip = s'.ino ip := by
      rw [ino, ino, ← hit, hdi, hinum, update_idem]
      exact congrArg (fun f => update f _ _) hw.dinode
    rw [hino] at hm
    exact hs' ▸ hm
  · rw [hd]
    simp only [grownTo, hsz]
    split <;> omega
  · rw [hd]
    exact ht
  · rw [hslot, hw.slots k hk]
    exact hk
  · rw [hslot]
    exact hw.mapped o h1 (by omega)
  · have hc : s'.contents ip o = s₁.contents ip o := by
      rw [Fs.contents, Fs.contents, Fs.byte_eq, Fs.byte_eq, hslot, hdata]
    rw [hc]
    exact hw.contents o
  · have hsame : s'.itable jp = s₁.itable jp := by
      rw [hit]
      exact update_of_ne hj _ _
    rw [hsame, hw.itable, update_of_ne hj]
  · rw [hdi, update_of_ne hi]
  · intro i hi hne ht k hk
    rw [hdata]
    exact hw.others i hi hne ht k hk

/-! ## Enough blocks -/

/-- The slots that a write of `n` bytes at `off` may have to fill : those of the blocks that it
writes to, and that of the indirect block. -/
def touched (off n : ℕ) : Finset ℕ :=
  let blocks := (Finset.range MAXFILE).filter fun bn =>
    max off (bn * BSIZE) < min (off + n) ((bn + 1) * BSIZE)
  blocks.image Dinode.index ∪ (blocks.filter (NDIRECT ≤ ·)).image fun _ => NDIRECT

theorem touched_covers (hmax : off + n ≤ MAXFILE * BSIZE) (h1 : off ≤ o) (h2 : o < off + n) :
    Covers (touched off n) (o / BSIZE) := by
  have hmem : o / BSIZE ∈ (Finset.range MAXFILE).filter fun bn =>
      max off (bn * BSIZE) < min (off + n) ((bn + 1) * BSIZE) := by
    refine Finset.mem_filter.mpr ⟨Finset.mem_range.mpr ?_, ?_⟩
    · refine Nat.div_lt_of_lt_mul ?_
      rw [Nat.mul_comm]
      omega
    · unfold BSIZE
      omega
  refine ⟨Finset.mem_union_left _ (Finset.mem_image_of_mem _ hmem), fun hd => ?_⟩
  exact Finset.mem_union_right _
    (Finset.mem_image.mpr ⟨o / BSIZE, Finset.mem_filter.mpr ⟨hmem, hd⟩, rfl⟩)

theorem writei_room (hf : s.Focus L ip) (hoff : off ≤ (s.itable ip).d.size)
    (hmax : off + n ≤ MAXFILE * BSIZE) (hsrc : ∀ k, k < n → src.mapped k = true)
    (hroom : s.Room L ip (touched off n)) :
    wp E (writei L ip src off n) (fun r _ => r = some n) s := by
  have hlt : off + n < 2 ^ 32 := hmax.trans_lt (by decide)
  simp only [writei, wp_bind, wp_get, wp_ite]
  rw [if_neg (by rw [Nat.mod_eq_of_lt hlt]; omega), if_neg (by omega)]
  refine (writeLoop_spec hmax n 0 (.refl hf) (by simp) (by omega) (Nat.zero_le _)
    (.inr (.inl rfl))).mono ?_
  rintro ⟨tot, o⟩ s₁ ⟨-, -, -, -, hall⟩
  obtain rfl : tot = n := hall _ (fun o => touched_covers hmax) hroom hsrc
  simp [iupdate, log_write]

/-- No block below the size is missing. -/
def Holeless (s : Fs) (ip : Fin NINODE) : Prop :=
  ∀ bn, bn * BSIZE < (s.itable ip).d.size → s.slot ip (Dinode.index bn) ≠ 0

theorem Holeless.slot (h : s.Holeless ip) (ho : o < (s.itable ip).d.size) :
    s.slot ip (Dinode.index (o / BSIZE)) ≠ 0 :=
  h _ ((Nat.div_mul_le_self _ _).trans_lt ho)

/-- A write below the size needs no block. -/
theorem Holeless.room (h : s.Holeless ip) (hle : off + n ≤ (s.itable ip).d.size) :
    s.Room L ip (touched off n) := by
  have hempty : ((touched off n).filter fun k => s.slot ip k = 0) = ∅ := by
    refine Finset.filter_eq_empty_iff.mpr fun m hm => ?_
    have hslot : ∀ {bn}, bn ∈ (Finset.range MAXFILE).filter (fun bn =>
        max off (bn * BSIZE) < min (off + n) ((bn + 1) * BSIZE)) →
        s.slot ip (Dinode.index bn) ≠ 0 := fun hbn =>
      h _ (by have := (Finset.mem_filter.mp hbn).2; omega)
    rcases Finset.mem_union.mp hm with hm | hm
    · obtain ⟨bn, hbn, rfl⟩ := Finset.mem_image.mp hm
      exact hslot hbn
    · obtain ⟨bn, hbn, rfl⟩ := Finset.mem_image.mp hm
      obtain ⟨hbn, hd⟩ := Finset.mem_filter.mp hbn
      -- the block has its number in the indirect block
      intro h0
      refine hslot hbn (Dinode.slot_eq_zero ?_ ((Dinode.slot_le le_rfl).symm.trans h0))
      rw [index_indirect (Nat.not_lt.mpr hd)]
      omega
  unfold Room
  rw [hempty, Finset.card_empty]
  exact Nat.zero_le _

theorem Written.holeless (hw : Written L s ip src off tot c s') (h : s.Holeless ip)
    (hoff : off ≤ (s.itable ip).d.size) : s'.Holeless ip := by
  intro bn hbn
  rw [hw.size] at hbn
  by_cases hold : bn * BSIZE < (s.itable ip).d.size
  · exact hw.slots _ (h bn hold)
  · have hm := hw.mapped (bn * BSIZE) (by omega) (by omega)
    rwa [Nat.mul_div_cancel _ (by decide)] at hm

theorem Written.byte (hw : Written L s ip src off tot 0 s') (h : s.Holeless ip)
    (hoff : off ≤ (s.itable ip).d.size) (ho : o < (s'.itable ip).d.size) :
    s'.byte ip o = if off ≤ o ∧ o < off + tot then src.byte (o - off) else s.byte ip o := by
  rw [← contents_of_slot ((hw.holeless h hoff).slot ho), hw.contents o, Nat.add_zero]
  split
  · rfl
  · rw [hw.size] at ho
    exact contents_of_slot (h.slot (by omega))

/-- The inodes other than that of `ip` are as they were, and so are their files. -/
def SameOthers (L : FsLayout) (s : Fs) (ip : Fin NINODE) (s' : Fs) : Prop :=
  (∀ jp, jp ≠ ip → s'.itable jp = s.itable jp) ∧
  ∀ i, i < L.ninodes → i ≠ (s.itable ip).inum → s'.dinode i = s.dinode i ∧
    ((s.dinode i).type ≠ .none → ∀ o, (s.dinode i).block s.data (o / BSIZE) ≠ 0 →
      (s'.dinode i).block s'.data (o / BSIZE) = (s.dinode i).block s.data (o / BSIZE) ∧
      (s'.dinode i).byteAt s'.data o = (s.dinode i).byteAt s.data o)

theorem Written.sameOthers (hw : Written L s ip src off tot c s') : s.SameOthers L ip s' := by
  refine ⟨hw.itable, fun i hi hne => ⟨hw.dinode i hne, fun ht o ho => ?_⟩⟩
  have hblock : (s.dinode i).block s'.data (o / BSIZE) = (s.dinode i).block s.data (o / BSIZE) :=
    Dinode.slot_frame (hw.others i hi hne ht) _
  rw [hw.dinode i hne, Dinode.byteAt, hblock]
  exact ⟨rfl, congrFun (hw.others i hi hne ht _ ho) _⟩

/-- With enough blocks and a source that is mapped, `writei` writes all the bytes. -/
theorem writei_written (hf : s.Focus L ip) (hoff : off ≤ (s.itable ip).d.size)
    (hmax : off + n ≤ MAXFILE * BSIZE) (hsrc : ∀ k, k < n → src.mapped k = true)
    (hroom : s.Room L ip (touched off n)) :
    wp E (writei L ip src off n) (fun r s' => r = some n ∧ Written L s ip src off n 0 s' ∧
      s.OnlyD ip s') s := by
  refine ((writei_wrote hf).and (writei_room hf hoff hmax hsrc hroom)).mono ?_
  rintro r s' ⟨⟨rfl, -⟩ | ⟨tot, c, s₁, lg, rfl, -, -, -, hends, hwrote, rfl⟩, hr⟩
  · cases hr
  obtain rfl : tot = n := Option.some.inj hr
  obtain rfl : c = 0 := hends.why.elim And.left fun h => by
    have := h.lt
    omega
  exact ⟨rfl, hwrote.written hf lg, hwrote.works.itable.trans onlyD_setD⟩

/-! ## Writing without a report that is wrong -/

/-- The bytes that are copied before a copy fails, in the chunk that is not reported, are those of
the file or beyond its end. -/
def NoStray (s : Fs) (ip : Fin NINODE) (src : Mem) (off n : ℕ) : Prop :=
  s.Refuses ip off n ∨ ∀ k < n, (∀ j < k, src.mapped j = true) → src.mapped k = false →
    ∀ j < k, (off + j) / BSIZE = (off + k) / BSIZE → off + j < (s.itable ip).d.size →
      src.byte j = s.contents ip (off + j)

/-- The state is as a write of `tot` bytes leaves it, in memory and for `readi`. -/
structure Reported (L : FsLayout) (s : Fs) (ip : Fin NINODE) (src : Mem) (off tot : ℕ) (s' : Fs) :
    Prop where
  size : (s'.itable ip).d.size = max (s.itable ip).d.size (off + tot)
  contents : ∀ o, o < (s'.itable ip).d.size → s'.contents ip o =
    if off ≤ o ∧ o < off + tot then src.byte (o - off) else s.contents ip o
  reads : s'.ReadsAs L ip fun o =>
    if off ≤ o ∧ o < off + tot then src.byte (o - off) else s.contents ip o

/-- The chunk that fails is that of the first byte that is not mapped. -/
theorem Stray.same_block {j : ℕ} (h : Stray src off n tot c) (hle : tot ≤ j) (hlt : j < tot + c) :
    (off + j) / BSIZE = (off + (tot + c)) / BSIZE := by
  have hchunk := h.chunk
  unfold BSIZE at *
  omega

theorem Written.reported (hwr : Written L s ip src off tot c s') (hnot : ¬ s.Refuses ip off n)
    (hends : s.Ends ip src off n tot c) (hno : s.NoStray ip src off n) :
    s.Reported L ip src off tot s' := by
  have hcont : ∀ o, o < (s'.itable ip).d.size → s'.contents ip o =
      if off ≤ o ∧ o < off + tot then src.byte (o - off) else s.contents ip o := by
    intro o ho
    rw [hwr.contents o]
    rw [hwr.size] at ho
    by_cases hin : off ≤ o ∧ o < off + tot
    · rw [if_pos hin, if_pos ⟨hin.1, by omega⟩]
    rw [if_neg hin]
    split
    · rename_i hextra
      -- a stray byte of the file
      have hstray := hends.why.resolve_left fun h => by omega
      have hbyte := hno.resolve_left hnot (tot + c) hstray.lt hends.mapped hstray.fails (o - off)
        (by omega) (hstray.same_block (by omega) (by omega)) (by omega)
      rwa [Nat.add_sub_cancel' hextra.1] at hbyte
    · rfl
  exact ⟨hwr.size, hcont, hwr.focus.readsAs hcont⟩

/-- A byte of a file without holes is what `readi` returns. -/
theorem ReadsAs.byte {c : ℕ → UInt8} (h : s.ReadsAs L ip c) (hh : s.Holeless ip)
    (ho : o < (s.itable ip).d.size) (hlt : o + 1 < 2 ^ 32) : c o = s.contents ip o := by
  obtain ⟨r, s', hrun, -, hlen, hbyte⟩ := (readi_exact (E := fun _ => False) (L := L)
    (fun _ => rfl : ∀ k, (kernel fun _ => 0).mapped k = true) hlt
    fun bn hbn => hh bn (by omega)).returns
  have h1 : min (o + 1) (s.itable ip).d.size - o = 1 := by omega
  rw [h1] at hlen hbyte
  rw [contents_of_slot (hh.slot ho)]
  exact (((h _ o 1).ok hrun 1 hlen).2 0 Nat.one_pos).symm.trans
    ((hbyte 0).trans (if_pos Nat.one_pos))

/-- A byte that shows which was not reported. -/
theorem Written.not_reads (hwr : Written L s ip src off tot c s') (hh : s.Holeless ip)
    (hnot : ¬ s.Refuses ip off n) (hends : s.Ends ip src off n tot c)
    (hno : ¬ s.NoStray ip src off n) : ¬ s'.ReadsAs L ip fun o =>
      if off ≤ o ∧ o < off + tot then src.byte (o - off) else s.contents ip o := by
  intro hreads
  refine hno (.inr fun k hk hfirst hfails j hj hblock hsize => ?_)
  simp only [Refuses, not_or, Nat.not_lt] at hnot
  have hlt : off + j + 1 < 2 ^ 32 := by
    have hmax : MAXFILE * BSIZE < 2 ^ 32 := by decide
    omega
  have hmapped := hends.mapped
  have hle : tot + c ≤ k := by
    by_contra hgt
    rw [hmapped k (by omega)] at hfails
    cases hfails
  have hbyte := hreads.byte (hwr.holeless hh hnot.1.1) (by rw [hwr.size]; omega) hlt
  rw [hwr.contents, Nat.add_sub_cancel_left] at hbyte
  rcases hends.why with ⟨rfl, rfl | h0⟩ | hstray
  · omega
  · -- the block of the byte is there
    have hbn : (off + tot) / BSIZE ≤ (off + j) / BSIZE := by
      rw [hblock]
      exact Nat.div_le_div_right (by omega)
    exact absurd h0 (hh _ ((Nat.mul_le_mul_right _ hbn).trans_lt
      ((Nat.div_mul_le_self _ _).trans_lt hsize)))
  · -- the first byte that is not mapped ends the copy
    have hkc : k = tot + c := by
      by_contra hne
      have := hfirst (tot + c) (by omega)
      rw [hstray.fails] at this
      cases this
    have hin : tot ≤ j := by
      have hstart := hstray.start
      have hchunk := hstray.chunk
      unfold BSIZE at *
      omega
    rw [if_neg (by omega), if_pos (by omega)] at hbyte
    exact hbyte.symm

end Fs

open Fs

/-- A write that ends early has changed what it reports and nothing else, if the bytes that were
copied and are not reported do not show. -/
theorem writei_reports {L : FsLayout} {s : Fs} {ip : Fin NINODE} {src : Mem} {off n : ℕ}
    (hf : s.Focus L ip) (hw : s.NoStray ip src off n) :
    wp (fun _ => False) (writei L ip src off n) (fun r s' => match r with
      | none => s' = s
      | some tot => tot ≤ n ∧ s.Reported L ip src off tot s') s := by
  refine (writei_wrote hf).mono ?_
  rintro r s' (⟨rfl, rfl, -⟩ | ⟨tot, c, s₁, lg, rfl, hle, -, hnot, hends, hwrote, rfl⟩)
  · rfl
  · exact ⟨hle, (hwrote.written hf lg).reported hnot hends hw⟩

/-- If they do, `readi` of a file without holes shows them. -/
theorem writei_misreports {L : FsLayout} {s : Fs} {ip : Fin NINODE} {src : Mem} {off n : ℕ}
    (hf : s.Focus L ip) (hh : s.Holeless ip) (hw : ¬ s.NoStray ip src off n) :
    ∃ tot s', writei L ip src off n s = .ok (some tot, s') ∧ ¬ s'.ReadsAs L ip fun o =>
      if off ≤ o ∧ o < off + tot then src.byte (o - off) else s.contents ip o := by
  obtain ⟨r, s', hrun, h⟩ := (writei_wrote (E := fun _ => False) hf).returns
  obtain ⟨-, -, href⟩ | ⟨tot, c, s₁, lg, rfl, -, -, hnot, hends, hwrote, rfl⟩ := h
  · exact absurd (.inl href) hw
  · exact ⟨tot, _, hrun, (hwrote.written hf lg).not_reads hh hnot hends hw⟩

/-- With enough blocks and a source that is mapped, `writei` and `readi` implement an array of
bytes, and leave other files alone. -/
theorem writei_array {L : FsLayout} {s : Fs} {ip : Fin NINODE} {src : Mem} {off n : ℕ}
    (hf : s.Focus L ip) (hholes : s.Holeless ip) (hoff : off ≤ (s.itable ip).d.size)
    (hmax : off + n ≤ MAXFILE * BSIZE) (hsrc : ∀ k, k < n → src.mapped k = true)
    (hroom : s.Room L ip (touched off n)) :
    wp (fun _ => False) (writei L ip src off n) (fun r s' => r = some n ∧ s'.Focus L ip ∧
      s'.Holeless ip ∧ (s'.itable ip).d.size = max (s.itable ip).d.size (off + n) ∧
      (∀ o, o < (s'.itable ip).d.size → s'.byte ip o =
        if off ≤ o ∧ o < off + n then src.byte (o - off) else s.byte ip o) ∧
      (∀ dst off' n', (∀ k, dst.mapped k = true) → off' + n' < 2 ^ 32 →
        wp (fun _ => False) (readi L ip dst off' n') (fun r s'' => s'' = s' ∧
          r.1 = some (min (off' + n') (s'.itable ip).d.size - off') ∧
          ∀ k, k < min (off' + n') (s'.itable ip).d.size - off' →
            r.2 k = s'.byte ip (off' + k)) s') ∧
      s.SameOthers L ip s') s := by
  refine (writei_written hf hoff hmax hsrc hroom).mono ?_
  rintro r s' ⟨rfl, hwr, -⟩
  have hh := hwr.holeless hholes hoff
  refine ⟨rfl, hwr.focus, hh, hwr.size, fun o ho => hwr.byte hholes hoff ho,
    fun dst off' n' hdst hlt => ?_, hwr.sameOthers⟩
  refine (readi_exact hdst hlt fun bn hbn => hh bn (by omega)).mono ?_
  rintro r s'' ⟨hs'', hlen, hbytes⟩
  exact ⟨hs'', hlen, fun k hk => (hbytes k).trans (if_pos hk)⟩

/-! ## One file -/

theorem small_size : 20 < 2 ^ 32 := by decide

/-- Blocks 3 to 19 are data blocks. -/
def smallLayout : FsLayout where
  logstart := 0
  nlog := 1
  size := 20
  ninodes := 2
  inodestart := 1
  bmapstart := 2
  size_lt := small_size
  pos := Nat.one_pos

/-- A file of 1023 bytes, in block 3. -/
def smallInode : Dinode := ⟨.file, 0, 0, 1, 1023, fun n => if n = 0 then 3 else 0⟩

def smallEntry : Fin NINODE := ⟨0, NINODE_pos⟩

/-- Inode 1 is the file, and it is locked. All its bytes are zero. -/
def loneFile : Fs where
  bitmap b := b < 4
  dinode i := if i = 1 then smallInode else .fresh .none
  data _ _ := 0
  itable ip :=
    if ip = smallEntry then ⟨1, 1, true, true, smallInode⟩ else ⟨0, 0, false, false, .fresh .none⟩
  logged := []

/-- Inode 1 is the only one, and has block 3. -/
theorem marked_one {L : FsLayout} {d : Dinode} {data : ℕ → Bytes}
    (hd : d.addrs = fun n => if n = 0 then 3 else 0) (ht : d.type ≠ .none) (hn : 1 < L.ninodes)
    (hstart : L.datastart = 3) (hsize : 3 < L.size) :
    Marked L (fun i => if i = 1 then d else .fresh .none) (fun b => b < 4) data := by
  have hslot : ∀ k, d.slot data k = if k = 0 then 3 else 0 := fun k => by
    unfold Dinode.slot
    rw [hd]
    split
    · rfl
    · rw [if_neg (by simp [NDIRECT]), if_neg (by omega)]
  have hplaces : ∀ {i k b}, places L (fun i => if i = 1 then d else .fresh .none) data (i, k) =
      some b ↔ i = 1 ∧ k = 0 ∧ b = 3 := fun {i k b} => by
    rw [places_eq_some]
    by_cases hi : i = 1
    · rw [if_pos hi, hslot]
      constructor
      · rintro ⟨-, -, hb, hk⟩
        split at hk
        · exact ⟨hi, ‹_›, hk.symm⟩
        · exact absurd hk.symm hb
      · rintro ⟨rfl, rfl, rfl⟩
        exact ⟨hn, ht, by decide, rfl⟩
    · simp [hi, Dinode.fresh]
  refine ⟨⟨?_, ?_, ?_⟩, fun b hb => decide_eq_true (by omega)⟩
  · rintro ⟨i, k⟩ b h
    obtain ⟨-, -, rfl⟩ := hplaces.mp h
    exact ⟨hstart.le, hsize, rfl⟩
  · rintro ⟨i, k⟩ ⟨i', k'⟩ b h h'
    obtain ⟨rfl, rfl, -⟩ := hplaces.mp h
    obtain ⟨rfl, rfl, -⟩ := hplaces.mp h'
    rfl
  · rintro b ⟨h1, -, h2⟩
    have h2 : b < 4 := of_decide_eq_true h2
    exact ⟨(1, 0), hplaces.mpr ⟨rfl, rfl, by omega⟩⟩

theorem loneFile_focus : loneFile.Focus smallLayout smallEntry where
  inum := by decide
  type := by decide
  marked := by
    have hino : loneFile.ino smallEntry = loneFile.dinode := update_eq_self (f := loneFile.dinode) 1
    rw [hino]
    exact marked_one rfl (by decide) (by decide) rfl (by decide)

/-- The source of a write is at the end of a page, and the next page is not mapped. -/
def lastByte : Mem := ⟨fun _ => 7, fun k => k = 0⟩

/-- The first byte goes to the block of the file, and the copy of the second one, which is a chunk
of its own, fails. -/
theorem writei_reports_short : ∃ s',
    writei smallLayout smallEntry lastByte 1023 2 loneFile = .ok (some 1, s') ∧
    (s'.itable smallEntry).d.size = 1024 ∧ s'.ReadsAs smallLayout smallEntry fun o =>
      if 1023 ≤ o ∧ o < 1023 + 1 then 7 else loneFile.contents smallEntry o := by
  have hw : loneFile.NoStray smallEntry lastByte 1023 2 := .inr fun k hk _ _ j hj hblock _ => by
    unfold BSIZE at hblock
    omega
  exact ⟨_, rfl, rfl, ((writei_reports loneFile_focus hw).ok rfl).2.reads⟩

/-- The byte that a `readi` of one byte returns. -/
def readByte (L : FsLayout) (ip : Fin NINODE) (off : ℕ) (s : Fs) : Option UInt8 :=
  match readi L ip (kernel fun _ => 255) off 1 s with
  | .ok ((some 1, buf), _) => some (buf 0)
  | _ => none

/-- A write of two bytes at the start of the file copies one and fails. It reports that nothing
was written, and the first byte has changed. -/
theorem writei_stray : ∃ s', loneFile.Focus smallLayout smallEntry ∧
    writei smallLayout smallEntry lastByte 0 2 loneFile = .ok (some 0, s') ∧
    (s'.itable smallEntry).d.size = 1023 ∧
    readByte smallLayout smallEntry 0 loneFile = some 0 ∧
    readByte smallLayout smallEntry 0 s' = some 7 :=
  ⟨_, loneFile_focus, rfl, rfl, rfl, rfl⟩

theorem loneFile_holeless : loneFile.Holeless smallEntry := by
  intro bn hbn
  have hlt : bn * 1024 < 1023 := hbn
  obtain rfl : bn = 0 := by omega
  decide

/-- The last byte of the file is overwritten, and the file grows into its second block. -/
theorem writei_array_grow : ∃ s',
    writei smallLayout smallEntry (kernel fun _ => 7) 1022 4 loneFile = .ok (some 4, s') ∧
    (s'.itable smallEntry).d.size = 1026 ∧ s'.Holeless smallEntry ∧
    s'.byte smallEntry 1021 = 0 ∧ s'.byte smallEntry 1025 = 7 := by
  have hroom : loneFile.Room smallLayout smallEntry (touched 1022 4) := by
    unfold Room
    decide +kernel
  have hsrc : ∀ k, k < 4 → (kernel fun _ => 7).mapped k = true := fun _ _ => rfl
  obtain ⟨r, s', hrun, rfl, -, hh', hsize, hbytes, -⟩ := (writei_array loneFile_focus
    loneFile_holeless (by decide) (by decide) hsrc hroom).returns
  have hsize : (s'.itable smallEntry).d.size = 1026 := hsize
  refine ⟨s', hrun, hsize, hh', ?_, ?_⟩
  · rw [hbytes 1021 (by omega), if_neg (by omega)]
    rfl
  · rw [hbytes 1025 (by omega), if_pos ⟨by omega, by omega⟩]
    rfl

end Xv6
