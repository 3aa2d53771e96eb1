import Xv6.FileFree

/-!
# The table of inodes

The functions that take, drop and lock references change one entry of the table and no file
(`Fs.Inv.setInode`). `iallocLoop` gives a free inode its type, and `iputFree` takes the type
away again once the inode has no blocks.
-/

namespace Xv6

open Function Prog

variable {L : FsLayout} {tab : Fin NINODE → Tab} {ip : Fin NINODE}

theorem TableOk.update (h : TableOk L tab) {x : Tab} (hinum : 0 < x.ref → x.inum < L.ninodes)
    (huniq : 0 < x.ref → ∀ jp, jp ≠ ip → 0 < (tab jp).ref → (tab jp).inum ≠ x.inum)
    (hlock : x.locked = true → 0 < x.ref ∧ x.valid = true) : TableOk L (update tab ip x) := by
  refine ⟨fun {jp kp} => ?_, fun {jp} => ?_, fun {jp} => ?_⟩
  · by_cases hj : jp = ip <;> by_cases hk : kp = ip
    · intros
      rw [hj, hk]
    · simp only [hj, update_self, update_of_ne hk]
      exact fun h1 h2 h3 => absurd h3.symm (huniq h1 kp hk h2)
    · simp only [hk, update_self, update_of_ne hj]
      exact fun h1 h2 h3 => absurd h3 (huniq h2 jp hj h1)
    · simp only [update_of_ne hj, update_of_ne hk]
      exact h.uniq
  · by_cases hj : jp = ip
    · simpa only [hj, update_self] using hinum
    · simpa only [update_of_ne hj] using h.inum
  · by_cases hj : jp = ip
    · simpa only [hj, update_self] using hlock
    · simpa only [update_of_ne hj] using h.locked

/-- An entry keeps its inode. -/
theorem TableOk.update_same (h : TableOk L tab) {x : Tab} (hinum : x.inum = (tab ip).inum)
    (href : 0 < x.ref → 0 < (tab ip).ref)
    (hlock : x.locked = true → 0 < x.ref ∧ x.valid = true) : TableOk L (Function.update tab ip x) :=
  h.update (fun hr => hinum ▸ h.inum (href hr))
    (fun hr _ hne hj heq => hne (h.uniq hj (href hr) (heq.trans hinum))) hlock

namespace Fs

variable {E : FsPanic → Prop} {s s' : Fs} {f : Inode → Inode}

theorem tab_setInode : (s.setInode ip f).tab = update s.tab ip (f (s.itable ip)).tab := by
  funext jp
  by_cases h : jp = ip
  · simp [h, Fs.tab, setInode]
  · simp [h, Fs.tab, setInode]

/-- A change to one entry of the table. -/
theorem Inv.setInode (hi : s.Inv L) (htab : TableOk L (update s.tab ip (f (s.itable ip)).tab))
    (hsync : 0 < (f (s.itable ip)).ref → (f (s.itable ip)).valid = true →
      (f (s.itable ip)).d = s.dinode (f (s.itable ip)).inum ∧ (f (s.itable ip)).d.type ≠ .none) :
    (s.setInode ip f).Inv L where
  table := by
    rw [tab_setInode]
    exact htab
  sync {jp} := by
    rw [tab_setInode]
    by_cases h : jp = ip
    · have hit : (s.setInode ip f).itable ip = f (s.itable ip) := update_self ..
      rw [h, update_self, hit]
      exact hsync
    · have hit : (s.setInode ip f).itable jp = s.itable jp := update_of_ne h ..
      rw [update_of_ne h, hit]
      exact hi.sync
  marked := hi.marked
  good := hi.good

/-- Only the number of references and the lock change. -/
theorem Inv.setInode_same (hi : s.Inv L) (hinum : (f (s.itable ip)).inum = (s.itable ip).inum)
    (hvalid : (f (s.itable ip)).valid = (s.itable ip).valid)
    (hd : (f (s.itable ip)).d = (s.itable ip).d)
    (href : 0 < (f (s.itable ip)).ref → 0 < (s.itable ip).ref)
    (hlock : (f (s.itable ip)).locked = true → 0 < (f (s.itable ip)).ref ∧
      (f (s.itable ip)).valid = true) : (s.setInode ip f).Inv L := by
  refine hi.setInode (hi.table.update_same hinum href hlock) fun hr hv => ?_
  rw [hd, hinum]
  exact hi.sync (href hr) (hvalid.symm.trans hv)

/-! ## References -/

/-- The table after `iget` of `i` at `ip`. -/
def Got (s : Fs) (i : ℕ) (ip : Fin NINODE) (s' : Fs) : Prop :=
  (0 < (s.tab ip).ref ∧ (s.tab ip).inum = i ∧
    s'.tab = update s.tab ip { s.tab ip with ref := (s.tab ip).ref + 1 }) ∨
  ((s.tab ip).ref = 0 ∧ (∀ jp, 0 < (s.tab jp).ref → (s.tab jp).inum ≠ i) ∧
    s'.tab = update s.tab ip ⟨i, 1, false, false⟩)

theorem iget_spec (hi : s.Inv L) {i : ℕ} (hlt : i < L.ninodes)
    (hfull : (∀ jp, (s.tab jp).ref ≠ 0) → E .noInodes) :
    wp E (iget i) (fun ip s' => s'.Inv L ∧ s'.disk = s.disk ∧ s.Got i ip s') s := by
  refine iget_rule (fun ip href hinum => ?_) (fun hnot ip hp => ?_) hfull
  · refine ⟨hi.setInode_same rfl rfl rfl (fun _ => href) fun h => ?_, rfl,
      .inl ⟨href, hinum, tab_setInode⟩⟩
    exact ⟨Nat.succ_pos _, (hi.table.locked h).2⟩
  · have hunlocked : (s.itable ip).locked = false := by
      by_contra h
      have hl : (s.tab ip).locked = true := Bool.eq_true_of_not_eq_false h
      exact absurd ((hi.table.locked hl).1.trans_eq hp) (lt_irrefl _)
    refine ⟨hi.setInode (hi.table.update (fun _ => hlt) (fun _ jp _ => hnot jp) fun h => ?_)
      (fun _ h => ?_), rfl, .inr ⟨hp, hnot, ?_⟩⟩
    · simp [Inode.tab, hunlocked] at h
    · simp at h
    · rw [tab_setInode]
      simp [Inode.tab, hunlocked]

theorem idup_spec (hi : s.Inv L) (href : 0 < (s.tab ip).ref) :
    wp E (idup ip) (fun _ s' => s'.Inv L ∧ s'.disk = s.disk ∧
      s'.tab = update s.tab ip { s.tab ip with ref := (s.tab ip).ref + 1 }) s := by
  simp only [idup, wp_modify]
  refine ⟨hi.setInode_same rfl rfl rfl (fun _ => href) fun h => ?_, rfl, tab_setInode⟩
  exact ⟨Nat.succ_pos _, (hi.table.locked h).2⟩

/-- A reference is dropped ; the last one is not, with the lock held. -/
theorem iputDrop_spec (hi : s.Inv L) (href : 0 < (s.tab ip).ref)
    (hlock : (s.tab ip).locked = true → 1 < (s.tab ip).ref) :
    wp E (iputDrop ip) (fun _ s' => s'.Inv L ∧ s'.disk = s.disk ∧
      s'.tab = update s.tab ip { s.tab ip with ref := (s.tab ip).ref - 1 }) s := by
  simp only [iputDrop, wp_modify]
  refine ⟨hi.setInode_same rfl rfl rfl (fun _ => href) fun h => ?_, rfl, tab_setInode⟩
  exact ⟨Nat.sub_pos_of_lt (hlock h), (hi.table.locked h).2⟩

/-! ## Locks -/

/-- `ilock` of an inode that is not locked ; the copy is read if it was not there. -/
theorem ilock_spec (hi : s.Inv L) (href : 0 < (s.tab ip).ref)
    (hhang : (s.tab ip).locked = true → E .hang)
    (htype : s.nodes L (s.tab ip).inum = none → E .noType) :
    wp E (ilock L ip) (fun _ s' => s'.Inv L ∧ s'.disk = s.disk ∧
      (s.tab ip).locked = false ∧ (∃ n, s.nodes L (s.tab ip).inum = some n) ∧
      s'.tab = update s.tab ip { s.tab ip with valid := true, locked := true }) s := by
  have hlt := hi.table.inum href
  have hself : (s.setInode ip fun x => { x with locked := true }).itable ip =
      { s.itable ip with locked := true } := update_self ..
  simp only [ilock, lock, load, acquiresleep, wp_bind, wp_get, wp_ite]
  split
  · rename_i h
    exact absurd href (by simpa [Fs.tab, Inode.tab] using h)
  split
  · rename_i hlocked
    exact hhang hlocked
  · rename_i hunlocked
    have hun : (s.tab ip).locked = false := Bool.eq_false_of_not_eq_true hunlocked
    simp only [wp_modify, wp_bind, wp_get, wp_ite, hself]
    by_cases hv : (s.itable ip).valid = true
    · obtain ⟨hd, ht⟩ := hi.sync href hv
      rw [if_pos hv]
      refine ⟨hi.setInode_same rfl rfl rfl (fun _ => href) fun _ => ⟨href, hv⟩, rfl, hun, ?_, ?_⟩
      · exact ⟨_, (hi.nodes_self ⟨href, hv⟩).trans (Dinode.node_of ht)⟩
      · rw [tab_setInode]
        simp [Fs.tab, Inode.tab, hv]
    · rw [if_neg hv, if_neg (by simpa [Fs.tab, Inode.tab] using hlt)]
      simp only [wp_throw, wp_pure]
      split
      · rename_i hnone
        refine htype ?_
        rw [nodes, if_pos hlt, Dinode.node]
        exact if_pos hnone
      · rename_i hsome
        have hcomp : (s.setInode ip fun x => { x with locked := true }).setInode ip
            (fun x => { x with d := s.dinode x.inum, valid := true }) =
            s.setInode ip fun x =>
              { x with d := s.dinode x.inum, valid := true, locked := true } := by
          simp [Fs.setInode]
        have hinv : (s.setInode ip fun x =>
            { x with d := s.dinode x.inum, valid := true, locked := true }).Inv L :=
          hi.setInode (hi.table.update_same rfl (fun _ => href) fun _ => ⟨href, rfl⟩)
            fun _ _ => ⟨rfl, hsome⟩
        have htab : (s.setInode ip fun x =>
            { x with d := s.dinode x.inum, valid := true, locked := true }).tab = _ := tab_setInode
        rw [← hcomp] at hinv htab
        exact ⟨hinv, rfl, hun, ⟨_, (if_pos hlt).trans (Dinode.node_of hsome)⟩, htab⟩

theorem iunlock_spec (hi : s.Inv L) (hlock : (s.tab ip).locked = true) :
    wp E (iunlock ip) (fun _ s' => s'.Inv L ∧ s'.disk = s.disk ∧
      s'.tab = update s.tab ip { s.tab ip with locked := false }) s := by
  obtain ⟨href, -⟩ := hi.live hlock
  simp only [iunlock, releasesleep, wp_bind, wp_get, wp_ite]
  rw [if_pos ⟨hlock, href⟩]
  simp only [wp_modify]
  refine ⟨hi.setInode_same rfl rfl rfl (fun _ => href) fun h => ?_, rfl, tab_setInode⟩
  cases h

/-- `iput` has locked the inode to free it, or dropped the reference. -/
theorem iputTest_spec (hi : s.Inv L) (href : 0 < (s.tab ip).ref)
    (hlock : (s.tab ip).locked = true → 1 < (s.tab ip).ref) :
    wp E (iputTest ip) (fun r s' => s'.Inv L ∧ s'.disk = s.disk ∧
      ((r = true ∧ (s.tab ip).ref = 1 ∧ (s.tab ip).valid = true ∧ (s.tab ip).locked = false ∧
        (∃ n, s.nodes L (s.tab ip).inum = some n ∧ n.nlink = 0) ∧
        s'.tab = update s.tab ip { s.tab ip with locked := true }) ∨
      (r = false ∧ ¬ ((s.tab ip).ref = 1 ∧ (s.tab ip).valid = true ∧
          ∃ n, s.nodes L (s.tab ip).inum = some n ∧ n.nlink = 0) ∧
        s'.tab = update s.tab ip { s.tab ip with ref := (s.tab ip).ref - 1 }))) s := by
  have hnlink : (s.tab ip).valid = true → ∃ n, s.nodes L (s.tab ip).inum = some n ∧
      n.nlink = (s.itable ip).d.nlink := fun hv =>
    ⟨_, (hi.nodes_self ⟨href, hv⟩).trans (Dinode.node_of (hi.sync href hv).2), rfl⟩
  simp only [iputTest, wp_bind, wp_get, wp_ite]
  split
  · rename_i h
    obtain ⟨h1, hv, h0⟩ := h
    have hun : (s.tab ip).locked = false := by
      by_contra hl
      have := hlock (Bool.eq_true_of_not_eq_false hl)
      exact absurd (this.trans_eq h1) (lt_irrefl _)
    obtain ⟨n, hn, hn0⟩ := hnlink hv
    rw [if_neg (by simpa [Fs.tab, Inode.tab] using hun)]
    simp only [wp_modify, wp_pure]
    exact ⟨hi.setInode_same rfl rfl rfl (fun _ => href) fun _ => ⟨href, hv⟩, rfl,
      .inl ⟨trivial, h1, hv, hun, ⟨n, hn, hn0.trans h0⟩, tab_setInode⟩⟩
  · rename_i h
    refine (iputDrop_spec hi href hlock).mono fun _ s' => ?_
    rintro ⟨hi', hn, ht⟩
    refine ⟨hi', hn, .inr ⟨rfl, ?_, ht⟩⟩
    rintro ⟨h1, hv, n, hnode, hn0⟩
    obtain ⟨n', hnode', hn'⟩ := hnlink hv
    obtain rfl := Option.some.inj (hnode'.symm.trans hnode)
    exact h ⟨h1, hv, hn'.symm.trans hn0⟩

/-! ## Allocating and freeing inodes -/

theorem iallocLoop_spec (hi : s.Inv L) {type : FileType} (htype : type ≠ .none) :
    wp E (iallocLoop L type) (fun r s' => s'.Inv L ∧ s'.tab = s.tab ∧
      ((r = none ∧ s'.disk = s.disk) ∨ ∃ i, r = some i ∧ 0 < i ∧ i < L.ninodes ∧
        s.nodes L i = none ∧ s'.nodes L = update (s.nodes L) i (some ⟨type, 0, [], 0⟩) ∧
        s'.dinode = update s.dinode i (.fresh type) ∧ s'.data = s.data)) s := by
  simp only [iallocLoop, wp_bind, wp_get]
  split
  · rename_i i hfind
    obtain ⟨hfree, hpos, hlt, -⟩ := firstFrom_some hfind
    have hfree' : (s.dinode i).type = .none := by simpa using hfree
    have hlt' : i < L.ninodes := by omega
    simp only [log_write]
    have hslot : ∀ n, (Dinode.fresh type).slot s.data n = 0 := fun n => by
      by_cases hn : n ≤ NDIRECT
      · exact Dinode.slot_le hn
      · exact Dinode.slot_eq_zero (by omega) rfl
    refine ⟨⟨hi.table, fun {ip} href hval => ?_, ⟨?_, hi.marked.reserved⟩, fun {j} hj ht => ?_⟩,
      rfl, .inr ⟨i, rfl, hpos, hlt', ?_, ?_, rfl, rfl⟩⟩
    · obtain ⟨hd, ht⟩ := hi.sync href hval
      have hne : (s.tab ip).inum ≠ i := fun h => by
        rw [hd, h] at ht
        exact ht hfree'
      refine ⟨hd.trans ?_, ht⟩
      exact (update_of_ne hne _ _).symm
    · have hplaces : places L (update s.dinode i (Dinode.fresh type)) s.data =
          places L s.dinode s.data := by
        funext x
        obtain ⟨k, m⟩ := x
        by_cases hk : k = i
        · rw [places_eq_none (by rw [hk, update_self, hslot])]
          simp [places, hk, hfree']
        · simp only [places, update_of_ne hk]
      have howns := hi.marked.owns
      rw [← hplaces] at howns
      exact howns
    · by_cases hji : j = i
      · subst hji
        simp only [update_self]
        exact ⟨nofun, fun _ k h => by
          unfold DIRENT at h
          simp [Dinode.fresh] at h⟩
      · simp only [update_of_ne hji] at ht ⊢
        exact hi.good hj ht
    · rw [nodes, if_pos hlt', Dinode.node, if_pos hfree']
    · funext j
      simp only [nodes]
      by_cases hji : j = i
      · subst hji
        rw [if_pos hlt', update_self, update_self, Dinode.node_of (d := Dinode.fresh type) htype]
        have htail : (Dinode.fresh type).tail = 0 := ite_self 0
        have hents : (Dinode.fresh type).ents s.data = [] := by simp [Dinode.ents, Dinode.fresh]
        rw [htail, hents]
        rfl
      · rw [update_of_ne hji, update_of_ne hji, nodes]
  · exact ⟨hi, rfl, .inl ⟨rfl, rfl⟩⟩

/-- An inode without blocks loses its type. -/
theorem Works.free (hw : Works L s ip s') (hbare : s'.Bare ip) :
    Works L s ip (s'.setD ip fun d => { d with type := .none }) where
  itable := hw.itable.trans onlyD_setD
  dinode := hw.dinode
  marked := by
    refine ⟨?_, hw.marked.reserved⟩
    have hslot : ∀ n, (s'.itable ip).d.slot s'.data n = 0 := fun n => by
      by_cases hn : n ≤ NDIRECT
      · exact (Dinode.slot_le hn).trans (hbare n hn)
      · exact Dinode.slot_eq_zero (by omega) (hbare _ le_rfl)
    have hinum : ((s'.setD ip fun d => { d with type := .none }).itable ip).inum =
        (s'.itable ip).inum := by
      simp only [Fs.setD, Fs.setInode, update_self]
    have hplaces : places L ((s'.setD ip fun d => { d with type := .none }).ino ip) s'.data =
        places L (s'.ino ip) s'.data := by
      funext x
      obtain ⟨k, m⟩ := x
      by_cases hk : k = (s'.itable ip).inum
      · have hnew : ((s'.setD ip fun d => { d with type := .none }).ino ip k).type = .none := by
          rw [hk, Fs.ino, hinum, update_self, itable_setD]
        have hold : places L (s'.ino ip) s'.data (k, m) = none :=
          places_eq_none (by rw [hk, ino_self, hslot])
        rw [hold]
        simp [places, hnew]
      · have hsame : (s'.setD ip fun d => { d with type := .none }).ino ip k = s'.ino ip k := by
          rw [ino_of_ne hk, Fs.ino, hinum, update_of_ne hk]
          rfl
        simp only [places, hsame]
    have howns := hw.marked.owns
    rw [← hplaces] at howns
    exact howns
  others := hw.others

/-- The entry of an inode that was freed. -/
def unload (x : Inode) : Inode := { x with valid := false, locked := false }

theorem Inv.freed (hi : s.Inv L) (hl : s.Live ip) (hbare : s.Bare ip) (lg : List ℕ) :
    (((s.setD ip fun d => { d with type := .none }).wroteBack ip lg).setInode ip unload).Inv L ∧
      (((s.setD ip fun d => { d with type := .none }).wroteBack ip lg).setInode ip unload).tab =
        update s.tab ip { s.tab ip with valid := false, locked := false } ∧
      (((s.setD ip fun d => { d with type := .none }).wroteBack ip lg).setInode ip unload).nodes L =
        update (s.nodes L) (s.tab ip).inum none := by
  have hw := (hi.works hl).free hbare
  have hd : ((s.setD ip fun d => { d with type := .none }).itable ip).d =
      { (s.itable ip).d with type := .none } := itable_setD
  have htab :
      (((s.setD ip fun d => { d with type := .none }).wroteBack ip lg).setInode ip unload).tab =
      update s.tab ip { s.tab ip with valid := false, locked := false } := by
    rw [tab_setInode]
    funext jp
    by_cases h : jp = ip
    · simp [h, unload, Fs.tab, Inode.tab, wroteBack, Fs.setD, Fs.setInode]
    · rw [update_of_ne h, update_of_ne h]
      exact congrFun hw.itable.tab jp
  refine ⟨⟨?_, fun {jp} href hval => ?_, hw.marked, fun hlt ht => ?_⟩, htab,
    (hw.nodes hi (hi.table.inum hl.1) lg).trans ?_⟩
  · rw [htab]
    exact hi.table.update_same rfl id fun h => by cases h
  · rw [htab] at href hval ⊢
    by_cases h : jp = ip
    · simp [h] at hval
    · rw [update_of_ne h] at href hval ⊢
      have hit : (((s.setD ip fun d => { d with type := .none }).wroteBack ip lg).setInode ip
          unload).itable jp = (s.setD ip fun d => { d with type := .none }).itable jp :=
        update_of_ne h ..
      rw [hit]
      exact hw.sync_of_ne hi hl.1 lg h href hval
  · exact hw.good hi lg (fun h => absurd (by rw [hd]) h) hlt ht
  · rw [hd]
    rfl

/-- `iput` frees the inode it has locked. -/
theorem iputFree_spec (hi : s.Inv L) (hlock : (s.tab ip).locked = true) {n : Node}
    (hn : s.nodes L (s.tab ip).inum = some n) :
    wp E (iputFree L ip) (fun _ s' => s'.Inv L ∧
      s'.tab = update s.tab ip { s.tab ip with valid := false, locked := false } ∧
      s.SameBut L (s.tab ip).inum s' ∧
      s'.nodes L = update (s.nodes L) (s.tab ip).inum none) s := by
  have hl := hi.live hlock
  simp only [iputFree, wp_bind]
  refine (itrunc_spec hi hl hn).mono ?_
  rintro - s₁ ⟨hi₁, htab₁, hbare, hbut, hnodes₁⟩
  have hl₁ : s₁.Live ip := by
    unfold Live
    rw [htab₁]
    exact hl
  simp only [clearType, unvalid, iupdate, releasesleep, log_write, wp_bind, wp_modify, wp_get]
  obtain ⟨hinv, htab, hnodes⟩ := hi₁.freed hl₁ hbare
    (L.IBLOCK (s₁.itable ip).inum :: s₁.logged)
  rw [htab₁] at htab hnodes
  rw [hnodes₁, update_idem] at hnodes
  have hcomp : ∀ t : Fs, (t.setInode ip fun x => { x with valid := false }).setInode ip
      (fun x => { x with locked := false }) = t.setInode ip unload := fun t => by
    simp [Fs.setInode, unload]
  rw [hcomp]
  have hlogged : ((s₁.setD ip fun d => { d with type := .none }).itable ip).inum =
      (s₁.itable ip).inum := by
    simp only [Fs.setD, Fs.setInode, update_self]
  simp only [hlogged]
  simp only [wroteBack, hlogged] at hinv htab hnodes
  refine ⟨hinv, htab, hbut.trans ?_, hnodes⟩
  rw [← htab₁]
  exact sameBut_of_update rfl rfl

end Fs

end Xv6
