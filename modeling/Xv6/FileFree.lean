import Xv6.InodeOwn

/-!
# Freeing blocks and inodes

`itrunc` gives up the blocks of a file one after the other. While it goes through the indirect
block the numbers in it stay, so what the file still owns is what `dropped` leaves of it. At
the end no slot of the inode holds a block, and it may be freed (`Fs.iputFree_spec`).
-/

namespace Xv6

open Function Prog

variable {L : FsLayout} {ino ino' : ℕ → Dinode} {bitmap : ℕ → Bool} {data : ℕ → Bytes} {i n b : ℕ}

theorem inUse_update {r : ℕ} :
    InUse L (update bitmap b false) r ↔ InUse L bitmap r ∧ r ≠ b := by
  unfold InUse
  by_cases h : r = b
  · simp [h]
  · simp [h]

theorem Marked.give (hm : Marked L ino bitmap data) (hi : i < L.ninodes)
    (ht : (ino i).type ≠ .none) (hs : (ino i).slot data n ≠ 0)
    (htype : ∀ k, (ino' k).type = (ino k).type)
    (hslot : ∀ m, (ino' i).slot data m = if m = n then 0 else (ino i).slot data m)
    (hother : ∀ k m, k ≠ i → (ino' k).slot data m = (ino k).slot data m) :
    Marked L ino' (update bitmap ((ino i).slot data n) false) data where
  owns := by
    have hplaces : places L ino' data = update (places L ino data) (i, n) none := by
      funext ⟨k, m⟩
      by_cases hkm : (k, m) = (i, n)
      · rw [hkm, update_self]
        exact places_eq_none (by rw [hslot, if_pos rfl])
      · rw [update_of_ne hkm]
        have hsame : (ino' k).slot data m = (ino k).slot data m := by
          by_cases hk : k = i
          · subst hk
            rw [hslot, if_neg fun h => hkm (by rw [h])]
          · exact hother k m hk
        simp only [places, htype, hsame]
    rw [hplaces]
    exact hm.owns.give (places_of hi ht hs) fun r => inUse_update
  reserved c hc := by
    have huse := hm.inUse hi ht hs
    rw [update_of_ne (by have := huse.1; omega)]
    exact hm.reserved c hc

/-- What is owned once the first `j` entries of the indirect block of inode `i` are freed. -/
def dropped (L : FsLayout) (ino : ℕ → Dinode) (data : ℕ → Bytes) (i j : ℕ) (x : ℕ × ℕ) : Option ℕ :=
  if x.1 = i ∧ NDIRECT < x.2 ∧ x.2 ≤ NDIRECT + j then none else places L ino data x

theorem dropped_zero : dropped L ino data i 0 = places L ino data := by
  funext x
  exact if_neg (by omega)

theorem dropped_succ {j : ℕ} :
    dropped L ino data i (j + 1) = update (dropped L ino data i j) (i, NDIRECT + 1 + j) none := by
  funext ⟨k, m⟩
  by_cases h : (k, m) = (i, NDIRECT + 1 + j)
  · obtain ⟨rfl, rfl⟩ := Prod.mk.inj h
    rw [update_self]
    exact if_pos ⟨rfl, by omega, by omega⟩
  · rw [update_of_ne h]
    unfold dropped
    congr 1
    refine propext ⟨fun ⟨hk, h1, h2⟩ => ⟨hk, h1, ?_⟩, fun ⟨hk, h1, h2⟩ => ⟨hk, h1, by omega⟩⟩
    dsimp only at hk h1 h2 ⊢
    have : m ≠ NDIRECT + 1 + j := fun hm => h (by rw [hk, hm])
    omega

/-- An entry of the indirect block that is empty has nothing to drop. -/
theorem dropped_succ_of_zero {j : ℕ} (h : (ino i).slot data (NDIRECT + 1 + j) = 0) :
    dropped L ino data i (j + 1) = dropped L ino data i j := by
  rw [dropped_succ, update_eq_self_iff]
  unfold dropped
  split
  · rfl
  · exact (places_eq_none h).symm

namespace Fs

variable {E : FsPanic → Prop} {s s' : Fs} {ip : Fin NINODE}

/-- Block `b` is free. -/
def freed (L : FsLayout) (s : Fs) (b : ℕ) : Fs := { s with
  bitmap := update s.bitmap b false
  logged := L.BBLOCK b :: s.logged }

theorem bfree_spec (h : s.bitmap b = true) :
    wp E (bfree L b) (fun _ s' => s' = s.freed L b) s := by
  simp only [bfree, wp_bind, wp_get, h, if_true, log_write, wp_modify]
  rfl

/-- The slots of `ip` once `addrs[n]` is cleared, for a direct block. -/
theorem slot_clear {d : Dinode} (hn : n < NDIRECT) (m : ℕ) :
    Dinode.slot data { d with addrs := update d.addrs n 0 } m =
      if m = n then 0 else d.slot data m := by
  by_cases hm : m ≤ NDIRECT
  · rw [Dinode.slot_le hm]
    by_cases hmn : m = n
    · simp [hmn]
    · simp [hmn, Dinode.slot_le hm]
  · rw [if_neg (by omega)]
    exact Dinode.slot_congr_entry (by omega) (update_of_ne (by omega) _ _) fun _ => rfl

/-- The state while `itrunc` works on `ip`. -/
structure Trunc (L : FsLayout) (s : Fs) (ip : Fin NINODE) (k : ℕ) (s' : Fs) : Prop where
  works : Works L s ip s'
  data : s'.data = s.data
  zero : ∀ i, i < k → (s'.itable ip).d.addrs i = 0
  type : (s'.itable ip).d.type = (s.itable ip).d.type
  nlink : (s'.itable ip).d.nlink = (s.itable ip).d.nlink

theorem ino_setAddr {i : ℕ} : (s.setAddr ip n b).ino ip i =
    if i = (s.itable ip).inum then
      { (s.itable ip).d with addrs := update (s.itable ip).d.addrs n b }
    else s.ino ip i := by
  have hinum : ((s.setAddr ip n b).itable ip).inum = (s.itable ip).inum := by
    simp only [Fs.setAddr, setD, setInode, update_self]
  have hd : ((s.setAddr ip n b).itable ip).d =
      { (s.itable ip).d with addrs := update (s.itable ip).d.addrs n b } := itable_setD
  rw [ino, hd, hinum]
  by_cases h : i = (s.itable ip).inum
  · rw [h, update_self, if_pos rfl]
  · rw [update_of_ne h, if_neg h, ino_of_ne h]
    rfl

theorem Trunc.live {k : ℕ} (h : Trunc L s ip k s') (hi : s.Inv L) (hl : s.Live ip) :
    (s'.itable ip).d.type ≠ .none ∧ (s'.itable ip).inum < L.ninodes :=
  ⟨h.type ▸ (hi.sync hl.1 hl.2).2, h.works.inum ▸ hi.table.inum hl.1⟩

/-- A slot without a block. -/
theorem Trunc.skip {k : ℕ} (h : Trunc L s ip k s') (h0 : (s'.itable ip).d.addrs k = 0) :
    Trunc L s ip (k + 1) s' := by
  refine ⟨h.works, h.data, fun i hlt => ?_, h.type, h.nlink⟩
  rcases (Nat.le_of_lt_succ hlt).eq_or_lt with rfl | hlt
  · exact h0
  · exact h.zero i hlt

/-- The slot is cleared when its block is free. -/
theorem Trunc.clear {k : ℕ} {t : Fs} (h : Trunc L s ip k s') (hit : t.itable = s'.itable)
    (hdi : t.dinode = s'.dinode) (hda : t.data = s'.data)
    (hm : Marked L ((t.setAddr ip k 0).ino ip) t.bitmap s'.data) :
    Trunc L s ip (k + 1) (t.setAddr ip k 0) := by
  have hd : ((t.setAddr ip k 0).itable ip).d =
      { (s'.itable ip).d with addrs := update (s'.itable ip).d.addrs k 0 } := by
    rw [← hit]
    exact itable_setD
  have honly : s'.OnlyD ip (t.setAddr ip k 0) := by
    rw [OnlyD, ← hit]
    exact onlyD_setD
  refine ⟨⟨h.works.itable.trans honly, hdi.trans h.works.dinode, ?_, ?_⟩,
    hda.trans h.data, fun i hlt => ?_, by rw [hd]; exact h.type, by rw [hd]; exact h.nlink⟩
  · rw [← hda] at hm
    exact hm
  · intro i hi hne ht n hn
    exact (congrFun hda _).trans (h.works.others i hi hne ht n hn)
  · rw [hd]
    rcases (Nat.le_of_lt_succ hlt).eq_or_lt with rfl | hlt
    · simp
    · simp only [update_of_ne hlt.ne]
      exact h.zero i hlt

/-- A round of the loop over the direct blocks. -/
theorem Trunc.step {k : ℕ} (hi : s.Inv L) (hl : s.Live ip) (h : Trunc L s ip k s')
    (hk : k < NDIRECT) (ha : (s'.itable ip).d.addrs k ≠ 0) :
    s'.bitmap ((s'.itable ip).d.addrs k) = true ∧
      Trunc L s ip (k + 1) ((s'.freed L ((s'.itable ip).d.addrs k)).setAddr ip k 0) := by
  obtain ⟨htype, hinum⟩ := h.live hi hl
  have hslot : (s'.ino ip (s'.itable ip).inum).slot s'.data k = (s'.itable ip).d.addrs k := by
    rw [ino_self, Dinode.slot_le hk.le]
  have htype' : (s'.ino ip (s'.itable ip).inum).type ≠ .none := by rwa [ino_self]
  have huse := h.works.marked.inUse hinum htype' (hslot ▸ ha)
  rw [hslot] at huse
  have hself : ∀ i, ((s'.freed L ((s'.itable ip).d.addrs k)).setAddr ip k 0).ino ip i =
      if i = (s'.itable ip).inum then
        { (s'.itable ip).d with addrs := update (s'.itable ip).d.addrs k 0 }
      else s'.ino ip i := fun i => ino_setAddr
  refine ⟨huse.2.2, h.clear rfl rfl rfl ?_⟩
  have hbitmap : (s'.freed L ((s'.itable ip).d.addrs k)).bitmap =
      update s'.bitmap ((s'.ino ip (s'.itable ip).inum).slot s'.data k) false := by
    rw [hslot]
    rfl
  rw [hbitmap]
  refine h.works.marked.give hinum htype' (hslot ▸ ha) (fun i => ?_) (fun m => ?_)
    fun i m hne => ?_
  · rw [hself]
    split
    · rename_i h
      rw [h, ino_self]
    · rfl
  · rw [hself, if_pos rfl, ino_self]
    exact slot_clear hk m
  · rw [hself, if_neg hne]

/-- The loop over the entries of the indirect block. -/
theorem truncEntries_spec {a : ℕ} (hm : Marked L (s.ino ip) s.bitmap s.data)
    (hinum : (s.itable ip).inum < L.ninodes) (htype : (s.itable ip).d.type ≠ .none)
    (ha : (s.itable ip).d.addrs NDIRECT = a) (ha0 : a ≠ 0) :
    wp E (truncEntries L ip) (fun _ s' => s'.itable = s.itable ∧ s'.dinode = s.dinode ∧
      s'.data = s.data ∧
      Owns (dropped L (s.ino ip) s.data (s.itable ip).inum NINDIRECT) (InUse L s'.bitmap) ∧
      ∀ b, b < L.datastart → s'.bitmap b = true) s := by
  subst ha
  refine wp.mono (wp_forUp (I := fun j s' => s'.itable = s.itable ∧ s'.dinode = s.dinode ∧
    s'.data = s.data ∧
    Owns (dropped L (s.ino ip) s.data (s.itable ip).inum j) (InUse L s'.bitmap) ∧
    ∀ b, b < L.datastart → s'.bitmap b = true) NINDIRECT 0 ?_
    ⟨rfl, rfl, rfl, by rw [dropped_zero]; exact hm.owns, hm.reserved⟩) fun _ s' h => ?_
  · rintro j t - hj ⟨hit, hdi, hda, howns, hres⟩
    have hj' : j < NINDIRECT := by omega
    have hslot : (s.ino ip (s.itable ip).inum).slot s.data (NDIRECT + 1 + j) =
        (s.data ((s.itable ip).d.addrs NDIRECT)).word j := by
      rw [ino_self, Dinode.slot_entry hj' ha0]
    simp only [wp_bind, wp_get, wp_ite, hit, hda]
    split
    · rename_i h0
      refine ⟨hit, hdi, hda, ?_, hres⟩
      rwa [dropped_succ_of_zero (hslot.trans h0)]
    · rename_i h0
      have hown : dropped L (s.ino ip) s.data (s.itable ip).inum j
          ((s.itable ip).inum, NDIRECT + 1 + j) =
          some ((s.data ((s.itable ip).d.addrs NDIRECT)).word j) := by
        unfold dropped
        rw [if_neg (by omega), ← hslot]
        exact places_of hinum (by rwa [ino_self]) (by rwa [hslot])
      have huse := howns.used_of hown
      refine (bfree_spec huse.2.2).mono ?_
      rintro - s' rfl
      refine ⟨hit, hdi, hda, ?_, fun c hc => ?_⟩
      · rw [dropped_succ]
        exact howns.give hown fun r => inUse_update
      · have hne : c ≠ (s.data ((s.itable ip).d.addrs NDIRECT)).word j := by
          have := huse.1
          omega
        exact (update_of_ne hne _ _).trans (hres c hc)
  · simpa only [Nat.zero_add] using h

/-- What is left once the indirect block is freed too. -/
theorem update_dropped {d : Dinode} :
    update (dropped L (update ino i d) data i NINDIRECT) (i, NDIRECT) none =
      places L (update ino i { d with addrs := update d.addrs NDIRECT 0 }) data := by
  funext ⟨k, m⟩
  by_cases hk : k = i
  · subst hk
    have hslot : m < NDIRECT → Dinode.slot data { d with addrs := update d.addrs NDIRECT 0 } m =
        d.slot data m := fun hm => by
      rw [Dinode.slot_le hm.le, Dinode.slot_le hm.le]
      exact update_of_ne hm.ne _ _
    have hzero : NDIRECT ≤ m → Dinode.slot data { d with addrs := update d.addrs NDIRECT 0 } m =
        0 := fun hm => by
      rcases hm.eq_or_lt with rfl | hm
      · simp [Dinode.slot_le]
      · exact Dinode.slot_eq_zero hm (by simp)
    rcases lt_trichotomy m NDIRECT with hm | rfl | hm
    · have hne : (k, m) ≠ (k, NDIRECT) := fun h => hm.ne (congrArg Prod.snd h)
      rw [update_of_ne hne, dropped, if_neg (by omega)]
      simp only [places, update_self, hslot hm]
    · rw [update_self]
      exact (places_eq_none (by rw [update_self, hzero le_rfl])).symm
    · have hne : (k, m) ≠ (k, NDIRECT) := fun h => hm.ne' (congrArg Prod.snd h)
      rw [update_of_ne hne, places_eq_none (by rw [update_self, hzero hm.le]), dropped]
      split
      · rfl
      · rename_i hlarge
        refine places_eq_none ?_
        have h1 : ¬ m ≤ NDIRECT := by omega
        have h2 : ¬ m ≤ NDIRECT + NINDIRECT := fun h => hlarge ⟨rfl, hm, h⟩
        simp [Dinode.slot, h1, h2]
  · have hne : (k, m) ≠ (i, NDIRECT) := fun h => hk (congrArg Prod.fst h)
    rw [update_of_ne hne, dropped, if_neg fun h => hk h.1]
    simp only [places, update_of_ne hk]

/-- The indirect block is freed after its entries. -/
theorem Trunc.indirect {t : Fs} (hi : s.Inv L) (hl : s.Live ip) (h : Trunc L s ip NDIRECT s')
    (ha0 : (s'.itable ip).d.addrs NDIRECT ≠ 0) (hit : t.itable = s'.itable)
    (hdi : t.dinode = s'.dinode) (hda : t.data = s'.data)
    (howns : Owns (dropped L (s'.ino ip) s'.data (s'.itable ip).inum NINDIRECT) (InUse L t.bitmap))
    (hres : ∀ b, b < L.datastart → t.bitmap b = true) :
    t.bitmap ((s'.itable ip).d.addrs NDIRECT) = true ∧ Trunc L s ip (NDIRECT + 1)
      ((t.freed L ((s'.itable ip).d.addrs NDIRECT)).setAddr ip NDIRECT 0) := by
  obtain ⟨htype, hinum⟩ := h.live hi hl
  have hown : dropped L (s'.ino ip) s'.data (s'.itable ip).inum NINDIRECT
      ((s'.itable ip).inum, NDIRECT) = some ((s'.itable ip).d.addrs NDIRECT) := by
    have hslot : (s'.ino ip (s'.itable ip).inum).slot s'.data NDIRECT =
        (s'.itable ip).d.addrs NDIRECT := by rw [ino_self, Dinode.slot_le le_rfl]
    unfold dropped
    rw [if_neg (by omega), ← hslot]
    exact places_of hinum (by rwa [ino_self]) (by rwa [hslot])
  have huse := howns.used_of hown
  refine ⟨huse.2.2, h.clear hit hdi hda ⟨?_, fun c hc => ?_⟩⟩
  · have hino : ((t.freed L ((s'.itable ip).d.addrs NDIRECT)).setAddr ip NDIRECT 0).ino ip =
        update s'.dinode (s'.itable ip).inum
          { (s'.itable ip).d with addrs := update (s'.itable ip).d.addrs NDIRECT 0 } := by
      rw [← hit, ← hdi]
      simp [ino, Fs.setAddr, setD, setInode, freed]
    rw [hino, ← update_dropped]
    exact howns.give hown fun r => inUse_update
  · have hne : c ≠ (s'.itable ip).d.addrs NDIRECT := by
      have := huse.1
      omega
    exact (update_of_ne hne ..).trans (hres c hc)

theorem truncDirect_spec (hi : s.Inv L) (hl : s.Live ip) :
    wp E (truncDirect L ip) (fun _ s' => Trunc L s ip NDIRECT s') s := by
  have h0 : Trunc L s ip 0 s :=
    ⟨hi.works hl, rfl, nofun, rfl, rfl⟩
  refine wp.mono (wp_forUp (I := fun k s' => Trunc L s ip k s') NDIRECT 0 ?_ h0) fun _ s' h => ?_
  · rintro k t - hk ht
    simp only [wp_bind, wp_get, wp_ite]
    split
    · exact ht.skip ‹_›
    · rename_i ha
      obtain ⟨hbit, htrunc⟩ := ht.step hi hl (by omega) ha
      refine (bfree_spec hbit).mono ?_
      rintro - u rfl
      exact htrunc
  · rwa [Nat.zero_add] at h

theorem truncIndirect_spec (hi : s.Inv L) (hl : s.Live ip) (h : Trunc L s ip NDIRECT s') :
    wp E (truncIndirect L ip) (fun _ s'' => Trunc L s ip (NDIRECT + 1) s'') s' := by
  simp only [truncIndirect, wp_bind, wp_get, wp_ite]
  split
  · exact h.skip ‹_›
  · rename_i ha0
    obtain ⟨htype, hinum⟩ := h.live hi hl
    refine (truncEntries_spec h.works.marked hinum htype rfl ha0).mono ?_
    rintro - t ⟨hit, hdi, hda, howns, hres⟩
    obtain ⟨hbit, htrunc⟩ := h.indirect hi hl ha0 hit hdi hda howns hres
    refine (bfree_spec hbit).bind ?_
    rintro - u rfl
    exact htrunc

/-- The inode has no blocks. -/
def Bare (s : Fs) (ip : Fin NINODE) : Prop := ∀ n, n ≤ NDIRECT → (s.itable ip).d.addrs n = 0

theorem itrunc_spec (hi : s.Inv L) (hl : s.Live ip) {n : Node}
    (hn : s.nodes L (s.tab ip).inum = some n) :
    wp E (itrunc L ip) (fun _ s' => s'.Inv L ∧ s'.tab = s.tab ∧ s'.Bare ip ∧
      s.SameBut L (s.tab ip).inum s' ∧ s'.nodes L =
        update (s.nodes L) (s.tab ip).inum (some { n with ents := [], tail := 0 })) s := by
  rw [hi.nodes_self hl] at hn
  obtain ⟨hnone, rfl⟩ := Dinode.node_eq_some hn
  simp only [itrunc, wp_bind]
  refine (truncDirect_spec hi hl).mono ?_
  rintro - s₁ h₁
  refine (truncIndirect_spec hi hl h₁).bind ?_
  rintro - s₂ h₂
  simp only [iupdate, log_write, wp_bind, wp_modify, wp_get]
  have hw := h₂.works.setD (f := fun d => { d with size := 0 }) rfl rfl
  have hd : ((s₂.setD ip fun d => { d with size := 0 }).itable ip).d =
      { (s₂.itable ip).d with size := 0 } := itable_setD
  have hnone' : (s₂.itable ip).d.type ≠ .none := h₂.type ▸ hnone
  have hgood : Dinode.Good s₂.data { (s₂.itable ip).d with size := 0 } L :=
    ⟨by simp, fun _ k h => by
      unfold DIRENT at h
      simp at h⟩
  refine ⟨hi.writeback hl hw (hd ▸ hnone') (hd ▸ hgood) _, hw.itable.tab, fun n hn => ?_,
    hw.sameBut hi _, (hw.nodes hi (hi.table.inum hl.1) _).trans ?_⟩
  · have haddr : ∀ n, ({ (s₂.itable ip).d with size := 0 } : Dinode).addrs n =
        (s₂.itable ip).d.addrs n := fun _ => rfl
    show ((s₂.setD ip fun d => { d with size := 0 }).itable ip).d.addrs n = 0
    rw [hd, haddr]
    exact h₂.zero n (Nat.lt_succ_of_le hn)
  · rw [hd, Dinode.node_of (d := { (s₂.itable ip).d with size := 0 }) hnone', ← h₂.type, ← h₂.nlink]
    have hents : Dinode.ents s₂.data { (s₂.itable ip).d with size := 0 } = [] := by
      unfold Dinode.ents
      split
      · simp
      · rfl
    have htail : Dinode.tail { (s₂.itable ip).d with size := 0 } = 0 := by
      unfold Dinode.tail
      split <;> rfl
    rw [htail]
    exact congrArg (fun l => update (s.nodes L) (s.tab ip).inum
      (some ⟨(s₂.itable ip).d.type, (s₂.itable ip).d.nlink, l, 0⟩)) hents

end Fs

end Xv6
