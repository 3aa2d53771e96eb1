import Xv6.FileBlocks

/-!
# Reading and writing files

A file without holes is an array of bytes. `readi` of it changes nothing and returns the
bytes (`Fs.readi_exact`) ; a missing block counts as zeros (`Fs.contents`). `writei` replaces a
range of bytes (`Fs.Wrote`). It stops short only at the end of a block, but when the copy from
user memory fails in the middle of a block, it has replaced bytes that it does not report
(`Fs.Stray`).
-/

namespace Xv6

open Function Prog

namespace Fs

variable {L : FsLayout} {s s' s'' : Fs} {ip : Fin NINODE} {n b : ℕ}

/-! ## Reading and writing -/

/-- The byte of the file at `off`. -/
def byte (s : Fs) (ip : Fin NINODE) (off : ℕ) : UInt8 := (s.itable ip).d.byteAt s.data off

variable {off : ℕ} {E : FsPanic → Prop} {src : Mem}

theorem byte_eq :
    s.byte ip off = s.data (s.slot ip (Dinode.index (off / BSIZE))) (off % BSIZE) := rfl

theorem lt_of_slot {bn : ℕ} (h : s.slot ip (Dinode.index bn) ≠ 0) : bn < MAXFILE := by
  by_contra hge
  unfold MAXFILE at hge
  refine h ?_
  have hn : Dinode.index bn = bn + 1 := if_neg (by omega)
  have h1 : ¬ bn + 1 ≤ NDIRECT := by omega
  have h2 : ¬ bn + 1 ≤ NDIRECT + NINDIRECT := by omega
  simp [hn, slot, Dinode.slot, h1, h2]

/-- A copy of `m` bytes stops at the first byte that is not mapped. -/
theorem Mem.run_spec {u : Mem} {k m : ℕ} : u.run k m ≤ m ∧
    (∀ j, k ≤ j → j < k + u.run k m → u.mapped j = true) ∧
    (u.run k m ≠ m → u.mapped (k + u.run k m) = false) := by
  unfold Mem.run
  split
  · rename_i j hj
    obtain ⟨hp, hle, hlt, hfirst⟩ := firstFrom_some hj
    have hkj : k + (j - k) = j := by omega
    rw [hkj]
    exact ⟨by omega, fun i h1 h2 => by simpa using hfirst i h1 h2, fun _ => by simpa using hp⟩
  · rename_i hj
    refine ⟨le_rfl, fun i h1 h2 => ?_, fun h => absurd rfl h⟩
    simpa using firstFrom_none hj i h1 h2

theorem Mem.run_le {u : Mem} {k m : ℕ} : u.run k m ≤ m := Mem.run_spec.1

theorem Mem.run_eq {u : Mem} {k m : ℕ} (hm : ∀ j, j < k + m → u.mapped j = true) :
    u.run k m = m := by
  by_contra hne
  obtain ⟨hle, -, hfails⟩ := Mem.run_spec (u := u) (k := k) (m := m)
  have hfalse := hfails hne
  rw [hm _ (by omega)] at hfalse
  cases hfalse

/-- The bytes of the next block continue those that were read. -/
theorem splice_reads {buf x : Bytes} {c : ℕ → UInt8} {tot m : ℕ}
    (hm : m ≤ BSIZE - (off + tot) % BSIZE) (hbuf : ∀ k, k < tot → buf k = c (off + k))
    (hx : ∀ o, o / BSIZE = (off + tot) / BSIZE → x (o % BSIZE) = c o) {k : ℕ} (hk : k < tot + m) :
    Bytes.splice buf tot m (fun k => x ((off + tot) % BSIZE + k)) k = c (off + k) := by
  rw [Bytes.splice]
  by_cases hkt : k < tot
  · rw [if_neg (by omega)]
    exact hbuf k hkt
  · have hblk : (off + k) / BSIZE = (off + tot) / BSIZE ∧
        (off + k) % BSIZE = (off + tot) % BSIZE + (k - tot) := by
      unfold BSIZE at hm ⊢
      omega
    rw [if_pos ⟨by omega, by omega⟩, ← hx _ hblk.1, hblk.2]

/-- The loop of `readi` over blocks that are there changes nothing. It copies the bytes of the
file, as far as memory is mapped. -/
theorem readLoop_spec {dst : Mem} {n : ℕ}
    (hmap : ∀ bn, bn * BSIZE < off + n → s.slot ip (Dinode.index bn) ≠ 0) :
    ∀ (fuel tot : ℕ) (buf : Bytes), n - tot ≤ fuel → tot ≤ n →
      (∀ k, k < tot → buf k = s.byte ip (off + k)) →
      wp E (readLoop L ip dst n fuel tot (off + tot) buf) (fun r s' => s' = s ∧
        (∀ m, r.1 = some m → m = n ∧ ∀ k, k < n → r.2 k = s.byte ip (off + k)) ∧
        (∀ k, n ≤ k → r.2 k = buf k) ∧ ((∀ k, dst.mapped k = true) → r.1 = some n)) s
  | 0, tot, buf, hfuel, hle, hbuf => by
    obtain rfl : tot = n := by omega
    refine ⟨rfl, fun m hm => ?_, fun _ _ => rfl, fun _ => rfl⟩
    cases hm
    exact ⟨rfl, hbuf⟩
  | fuel + 1, tot, buf, hfuel, hle, hbuf => by
    simp only [readLoop, wp_ite, wp_bind]
    split
    · rename_i hlt
      have hdiv : (off + tot) / BSIZE * BSIZE < off + n :=
        (Nat.div_mul_le_self _ _).trans_lt (by omega)
      have hs := hmap _ hdiv
      refine (bmap_mapped hs (lt_of_slot hs)).mono ?_
      rintro a s' ⟨rfl, hs'⟩
      rw [if_neg hs, hs']
      generalize hm : min (n - tot) (BSIZE - (off + tot) % BSIZE) = m
      have hbeyond : ∀ c x k, c ≤ m → n ≤ k → Bytes.splice buf tot c x k = buf k :=
        fun c x k hc hk => if_neg (by omega)
      split
      · rename_i hc
        rw [hc, Nat.add_assoc]
        refine (readLoop_spec hmap fuel (tot + m) _ ?_ (by omega) fun k hk => ?_).mono ?_
        · have := Nat.mod_lt (off + tot) (show 0 < BSIZE by decide)
          omega
        · refine splice_reads (by omega) hbuf (fun o ho => ?_) hk
          rw [byte_eq, ho]
        · rintro r s'' ⟨hs'', hr, hrest, hall⟩
          exact ⟨hs'', hr, fun k hk => (hrest k hk).trans (hbeyond m _ k le_rfl hk), hall⟩
      · rename_i hc
        refine ⟨rfl, by rintro - ⟨⟩, fun k hk => ?_, fun hall =>
          absurd (Mem.run_eq fun j _ => hall j) hc⟩
        dsimp only
        exact hbeyond _ _ k Mem.run_le hk
    · obtain rfl : tot = n := by omega
      refine ⟨rfl, fun m hm => ?_, fun _ _ => rfl, fun _ => rfl⟩
      cases hm
      exact ⟨rfl, hbuf⟩

/-- To memory that is mapped, `readi` copies the bytes up to the end of the file. The blocks of
these bytes have to be there. -/
theorem readi_exact {dst : Mem} {n : ℕ} (hdst : ∀ k, dst.mapped k = true) (hlt : off + n < 2 ^ 32)
    (hmap : ∀ bn, bn * BSIZE < min (off + n) (s.itable ip).d.size →
      s.slot ip (Dinode.index bn) ≠ 0) : wp E (readi L ip dst off n) (fun r s' => s' = s ∧
      r.1 = some (min (off + n) (s.itable ip).d.size - off) ∧
      ∀ k, r.2 k = if k < min (off + n) (s.itable ip).d.size - off then s.byte ip (off + k)
        else dst.byte k) s := by
  simp only [readi, wp_bind, wp_get, wp_ite]
  split
  · rename_i hbeyond
    rw [Nat.mod_eq_of_lt hlt] at hbeyond
    have h0 : min (off + n) (s.itable ip).d.size - off = 0 := by omega
    rw [h0]
    exact ⟨rfl, rfl, fun k => rfl⟩
  · rename_i hoff
    have hn' : (if (s.itable ip).d.size < off + n then (s.itable ip).d.size - off else n) =
        min (off + n) (s.itable ip).d.size - off := by
      split <;> omega
    rw [hn']
    refine (readLoop_spec (fun bn hbn => hmap bn (by omega)) _ 0 dst.byte (by omega) (by omega)
      (by simp)).mono ?_
    rintro r s' ⟨hs', hr, hrest, hall⟩
    refine ⟨hs', hall hdst, fun k => ?_⟩
    split
    · rename_i hk
      exact (hr _ (hall hdst)).2 k hk
    · rename_i hk
      exact hrest k (Nat.not_lt.mp hk)

/-- The contents of a data block. -/
def setData (s : Fs) (b : ℕ) (x : Bytes) (lg : List ℕ) : Fs :=
  { s with data := update s.data b x, logged := lg }

/-- The contents of a data block of `ip` change. -/
theorem Focus.write (hf : s.Focus L ip) (hn : n ≠ NDIRECT) (hs : s.slot ip n ≠ 0) (x : Bytes)
    (lg : List ℕ) : (s.setData (s.slot ip n) x lg).Focus L ip ∧
      (∀ m, (s.setData (s.slot ip n) x lg).slot ip m = s.slot ip m) ∧
      (∀ m, m ≠ n → s.slot ip m ≠ s.slot ip n) ∧
      s.Keeps L ip (s.setData (s.slot ip n) x lg) := by
  have hself : (s.ino ip (s.itable ip).inum).type ≠ .none := by simpa using hf.type
  have hslot : (s.ino ip (s.itable ip).inum).slot s.data n = s.slot ip n := by
    rw [ino_self]
    rfl
  have hne : ∀ i m, i < L.ninodes → (s.ino ip i).type ≠ .none →
      (i ≠ (s.itable ip).inum ∨ m ≠ n) → (s.ino ip i).slot s.data m ≠ s.slot ip n := by
    intro i m hi ht hor heq
    obtain ⟨rfl, rfl⟩ := hf.marked.slot_inj hf.inum hself hi ht (by rwa [hslot])
      (heq.trans hslot.symm)
    simp at hor
  have hind : ∀ i, i < L.ninodes → (s.ino ip i).type ≠ .none →
      (s.ino ip i).addrs NDIRECT ≠ s.slot ip n := fun i hi ht => by
    have h := hne i NDIRECT hi ht (.inr (Ne.symm hn))
    rwa [Dinode.slot_le le_rfl] at h
  refine ⟨⟨hf.inum, hf.type, ⟨?_, hf.marked.reserved⟩⟩, fun m => ?_, fun m hm => ?_, ?_⟩
  · have hplaces : places L (s.ino ip) (update s.data (s.slot ip n) x) =
        places L (s.ino ip) s.data := places_write fun i hi ht _ => hind i hi ht
    show Owns (places L (s.ino ip) (update s.data (s.slot ip n) x)) _
    rw [hplaces]
    exact hf.marked.owns
  · refine Dinode.slot_congr rfl fun _ => update_of_ne ?_ _ _
    have h := hind _ hf.inum hself
    rwa [ino_self] at h
  · have h := hne _ m hf.inum hself (.inr hm)
    rwa [ino_self] at h
  · intro i hi hni ht m _
    refine update_of_ne ?_ _ _
    have h := hne i m hi (by rwa [ino_of_ne hni]) (.inl hni)
    rwa [ino_of_ne hni] at h

/-- The byte of the file at `off`, zero if its block is missing. -/
def contents (s : Fs) (ip : Fin NINODE) (off : ℕ) : UInt8 :=
  if s.slot ip (Dinode.index (off / BSIZE)) = 0 then 0 else s.byte ip off

theorem contents_of_slot {o : ℕ} (h : s.slot ip (Dinode.index (o / BSIZE)) ≠ 0) :
    s.contents ip o = s.byte ip o := if_neg h

/-- New blocks do not show. -/
theorem Grows.contents (hg : s.Grows L ip s') (o : ℕ) : s'.contents ip o = s.contents ip o := by
  by_cases h : s.slot ip (Dinode.index (o / BSIZE)) = 0
  · rw [Fs.contents, Fs.contents, if_pos h]
    split
    · rfl
    · rename_i h'
      rw [byte_eq, hg.fresh _ (Dinode.index_ne_indirect _) h h']
  · have hs := hg.slots _ h
    rw [contents_of_slot h, contents_of_slot (hs.trans_ne h), byte_eq, byte_eq, hs,
      hg.bytes _ (Dinode.index_ne_indirect _) h]

/-- From `s` to `s'`, `tot` bytes of `src` were written at `off` of `ip`. -/
structure Wrote (L : FsLayout) (s : Fs) (ip : Fin NINODE) (src : Mem) (off tot : ℕ) (s' : Fs) :
    Prop where
  focus : s'.Focus L ip
  itable : s'.itable = update s.itable ip { s.itable ip with
    d := { (s.itable ip).d with addrs := (s'.itable ip).d.addrs } }
  dinode : s'.dinode = s.dinode
  slots : ∀ n, s.slot ip n ≠ 0 → s'.slot ip n = s.slot ip n
  mapped : ∀ o, off ≤ o → o < off + tot → s'.slot ip (Dinode.index (o / BSIZE)) ≠ 0
  contents : ∀ o, s'.contents ip o =
    if off ≤ o ∧ o < off + tot then src.byte (o - off) else s.contents ip o
  others : s.Keeps L ip s'

/-- The bytes of blocks that are there. -/
theorem Wrote.bytes {tot : ℕ} (hw : Wrote L s ip src off tot s') {o : ℕ}
    (ho : s.slot ip (Dinode.index (o / BSIZE)) ≠ 0 ∨ (off ≤ o ∧ o < off + tot)) :
    s'.byte ip o = if off ≤ o ∧ o < off + tot then src.byte (o - off) else s.byte ip o := by
  have hc := hw.contents o
  by_cases hin : off ≤ o ∧ o < off + tot
  · rw [contents_of_slot (hw.mapped o hin.1 hin.2), if_pos hin] at hc
    rw [hc, if_pos hin]
  · have h := ho.resolve_right hin
    rw [contents_of_slot ((hw.slots _ h).trans_ne h), if_neg hin, contents_of_slot h] at hc
    rw [hc, if_neg hin]

theorem Wrote.inum {tot : ℕ} (hw : Wrote L s ip src off tot s') :
    (s'.itable ip).inum = (s.itable ip).inum := by
  rw [hw.itable]
  simp

theorem Wrote.refl (hf : s.Focus L ip) : Wrote L s ip src off 0 s where
  focus := hf
  itable := by simp
  dinode := rfl
  slots _ _ := rfl
  mapped o h1 h2 := by omega
  contents o := by rw [if_neg (by omega)]
  others := .refl

/-- New blocks do not matter. -/
theorem Wrote.grow {tot : ℕ} (hw : Wrote L s ip src off tot s') (hf : s''.Focus L ip)
    (hg : s'.Grows L ip s'') : Wrote L s ip src off tot s'' where
  focus := hf
  itable := by
    rw [hg.itable, hw.itable]
    simp
  dinode := hg.dinode.trans hw.dinode
  slots n hn := by
    have hs := hw.slots n hn
    rw [hg.slots n (hs ▸ hn), hs]
  mapped o h1 h2 := by
    have hs := hw.mapped o h1 h2
    rwa [hg.slots _ hs]
  contents o := (hg.contents o).trans (hw.contents o)
  others := hw.others.trans hg.others hw.inum hw.dinode

/-- The round of `writei` that writes `c` bytes to the block `bmap` found. -/
theorem Wrote.splice {tot c : ℕ} (hw : Wrote L s ip src off tot s')
    (ha : s'.slot ip (Dinode.index ((off + tot) / BSIZE)) ≠ 0)
    (hc : c ≤ BSIZE - (off + tot) % BSIZE) (lg : List ℕ) : Wrote L s ip src off (tot + c)
      (s'.setData (s'.slot ip (Dinode.index ((off + tot) / BSIZE)))
        (Bytes.splice (s'.data (s'.slot ip (Dinode.index ((off + tot) / BSIZE))))
          ((off + tot) % BSIZE) c fun k => src.byte (tot + k)) lg) := by
  generalize hx : Bytes.splice (s'.data (s'.slot ip (Dinode.index ((off + tot) / BSIZE))))
    ((off + tot) % BSIZE) c (fun k => src.byte (tot + k)) = x
  obtain ⟨hf, hslot, hne, hk⟩ := hw.focus.write (Dinode.index_ne_indirect _) ha x lg
  -- an offset that is written to lies in the block
  have hin : ∀ o, off + tot ≤ o → o < off + tot + c → o / BSIZE = (off + tot) / BSIZE := by
    intro o h1 h2
    unfold BSIZE at hc ⊢
    omega
  refine ⟨hf, hw.itable, hw.dinode, fun n hn => (hslot n).trans (hw.slots n hn), ?_, ?_,
    hw.others.trans hk hw.inum hw.dinode⟩
  · intro o h1 h2
    rw [hslot]
    by_cases ho : o < off + tot
    · exact hw.mapped o h1 ho
    · rwa [hin o (by omega) (by omega)]
  · intro o
    have hold : ¬ (off + tot ≤ o ∧ o < off + tot + c) → s'.contents ip o =
        if off ≤ o ∧ o < off + (tot + c) then src.byte (o - off) else s.contents ip o :=
      fun hnot => by
        rw [hw.contents o]
        congr 1
        exact propext ⟨fun h => ⟨h.1, by omega⟩, fun h => ⟨h.1, by omega⟩⟩
    have hcont : (s'.setData (s'.slot ip (Dinode.index ((off + tot) / BSIZE))) x lg).contents ip o =
        if s'.slot ip (Dinode.index (o / BSIZE)) = 0 then 0 else
          update s'.data (s'.slot ip (Dinode.index ((off + tot) / BSIZE))) x
            (s'.slot ip (Dinode.index (o / BSIZE))) (o % BSIZE) := by
      rw [Fs.contents, byte_eq, hslot]
      rfl
    rw [hcont]
    by_cases hbn : o / BSIZE = (off + tot) / BSIZE
    · rw [hbn, if_neg ha, update_self, ← hx, Bytes.splice]
      by_cases hnew : off + tot ≤ o ∧ o < off + tot + c
      · have hmod : (off + tot) % BSIZE ≤ o % BSIZE ∧ o % BSIZE < (off + tot) % BSIZE + c := by
          unfold BSIZE at hbn ⊢
          omega
        have hidx : tot + (o % BSIZE - (off + tot) % BSIZE) = o - off := by
          unfold BSIZE at hbn hmod ⊢
          omega
        rw [if_pos hmod, if_pos ⟨by omega, by omega⟩, hidx]
      · have hmod : ¬ ((off + tot) % BSIZE ≤ o % BSIZE ∧ o % BSIZE < (off + tot) % BSIZE + c) := by
          unfold BSIZE at hbn ⊢
          omega
        rw [if_neg hmod, ← hold hnew, contents_of_slot (hbn ▸ ha), byte_eq, hbn]
    · rw [update_of_ne (hne _ fun h => hbn (Dinode.index_inj h)), ← byte_eq]
      exact hold fun h => hbn (hin o h.1 h.2)

/-- After `tot` bytes that are reported, `c` more were copied before the copy of the chunk
failed. -/
structure Stray (src : Mem) (off n tot c : ℕ) : Prop where
  /-- the chunk starts where the copied bytes end -/
  start : tot = 0 ∨ (off + tot) % BSIZE = 0
  /-- it ends with the block -/
  chunk : (off + tot) % BSIZE + c < BSIZE
  lt : tot + c < n
  fails : src.mapped (tot + c) = false

/-- Why `writei` ends after `tot` bytes and `c` more that it does not report : it is done, there
is no block, or a copy has failed. -/
structure Ends (s : Fs) (ip : Fin NINODE) (src : Mem) (off n tot c : ℕ) : Prop where
  mapped : ∀ j, j < tot + c → src.mapped j = true
  why : c = 0 ∧ (tot = n ∨ s.slot ip (Dinode.index ((off + tot) / BSIZE)) = 0) ∨
    Stray src off n tot c

/-- `bmap` finds a block that is there. -/
theorem bmap_missing (hf : s.Focus L ip) {bn : ℕ} (hbn : bn < MAXFILE) :
    wp E (bmap L ip bn) (fun a _ => a = 0 → s.slot ip (Dinode.index bn) = 0) s := by
  by_cases h0 : s.slot ip (Dinode.index bn) = 0
  · exact (bmap_spec hf hbn).mono fun _ _ _ _ => h0
  · exact (bmap_mapped h0 hbn).mono fun a _ h ha => absurd (h.1.symm.trans ha) h0

/-- The loop of `writei` ends with the bytes written, or at the end of a block. -/
theorem writeLoop_spec {n : ℕ} (hmax : off + n ≤ MAXFILE * BSIZE) :
    ∀ (fuel tot : ℕ) {s' : Fs}, Wrote L s ip src off tot s' →
      (∀ j, j < tot → src.mapped j = true) → n - tot ≤ fuel → tot ≤ n →
      (tot = n ∨ tot = 0 ∨ (off + tot) % BSIZE = 0) →
      wp E (writeLoop L ip src n fuel tot (off + tot)) (fun r s'' => r.2 = off + r.1 ∧
        r.1 ≤ n ∧ (r.1 = n ∨ r.1 = 0 ∨ (off + r.1) % BSIZE = 0) ∧
        (∃ c, s.Ends ip src off n r.1 c ∧ Wrote L s ip src off (r.1 + c) s'') ∧
        ∀ T, (∀ o, off ≤ o → o < off + n → Covers T (o / BSIZE)) → s'.Room L ip T →
          (∀ k < n, src.mapped k = true) → r.1 = n) s'
  | 0, tot, s', hw, hmapped, hfuel, hle, hend =>
    ⟨rfl, hle, hend, ⟨0, ⟨hmapped, .inl ⟨rfl, .inl (by dsimp only; omega)⟩⟩, hw⟩,
      fun _ _ _ _ => by dsimp only; omega⟩
  | fuel + 1, tot, s', hw, hmapped, hfuel, hle, hend => by
    simp only [writeLoop, wp_ite, wp_bind]
    split
    · rename_i hlt
      have hbn : (off + tot) / BSIZE < MAXFILE := by
        refine Nat.div_lt_of_lt_mul ?_
        rw [Nat.mul_comm]
        omega
      refine ((bmap_spec hw.focus hbn).and (bmap_missing hw.focus hbn)).mono ?_
      rintro a s₁ ⟨⟨hf, hg, ha, hroom⟩, hmiss⟩
      have hw' := hw.grow hf hg
      have hcov : ∀ T, (∀ o, off ≤ o → o < off + n → Covers T (o / BSIZE)) →
          Covers T ((off + tot) / BSIZE) := fun T hT => hT _ (Nat.le_add_right ..) (by omega)
      by_cases ha0 : a = 0
      · rw [if_pos ha0]
        refine ⟨rfl, hle, hend, ⟨0, ⟨hmapped, .inl ⟨rfl, .inr ?_⟩⟩, hw'⟩, fun T hT hr _ =>
          absurd ha0 (hroom (hcov T hT) hr).1⟩
        by_contra h0
        exact h0 ((hw.slots _ h0).symm.trans (hmiss ha0))
      · rw [if_neg ha0]
        have hslot := ha ha0
        subst hslot
        generalize hm : min (n - tot) (BSIZE - (off + tot) % BSIZE) = m
        simp only [wp_bind, wp_modify, wp_ite]
        obtain ⟨hrun, hcopied, hfails⟩ := Mem.run_spec (u := src) (k := tot) (m := m)
        have hmapped' : ∀ j, j < tot + src.run tot m → src.mapped j = true := fun j hj => by
          by_cases hjt : j < tot
          · exact hmapped j hjt
          · exact hcopied j (by omega) hj
        have hstep := hw'.splice (c := src.run tot m) ha0 (by omega)
        split
        · rename_i hc
          have hpos : 0 < m := by
            have := Nat.mod_lt (off + tot) (show 0 < BSIZE by decide)
            omega
          have hend' : tot + m = n ∨ tot + m = 0 ∨ (off + (tot + m)) % BSIZE = 0 := by
            by_cases hall : m = n - tot
            · exact .inl (by omega)
            · have hrest : m = BSIZE - (off + tot) % BSIZE := by omega
              refine .inr (.inr ?_)
              unfold BSIZE at hrest ⊢
              omega
          rw [hc] at hstep hmapped'
          simp only [log_write, wp_modify, hc, Nat.add_assoc]
          refine (writeLoop_spec hmax fuel (tot + m) (hstep _) hmapped' (by omega) (by omega)
            hend').mono fun r s'' h => ⟨h.1, h.2.1, h.2.2.1, h.2.2.2.1, fun T hT hr hsrc => ?_⟩
          refine h.2.2.2.2 T hT ((hroom (hcov T hT) hr).2.congr ?_ rfl) hsrc
          exact (hf.write (Dinode.index_ne_indirect _) ha0 _ _).2.1
        · rename_i hc
          refine ⟨rfl, hle, hend, ⟨src.run tot m, ⟨hmapped', .inr ?_⟩, hstep _⟩, fun _ _ _ hsrc =>
            absurd (Mem.run_eq fun j hj => hsrc j (by omega)) hc⟩
          exact ⟨hend.resolve_left (Nat.ne_of_lt hlt), by dsimp only; omega, by dsimp only; omega,
            hfails hc⟩
    · exact ⟨rfl, hle, hend, ⟨0, ⟨hmapped, .inl ⟨rfl, .inl (by dsimp only; omega)⟩⟩, hw⟩,
        fun _ _ _ _ => by dsimp only; omega⟩

end Fs

end Xv6
