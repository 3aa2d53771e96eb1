import Xv6.InodeMoves

/-!
# References, locks and copies of inodes

An `iput` that frees an inode lets go of `itable.lock` in the middle, and another process may
allocate the inode again and get it before the `iput` is done. That does no harm : the inode is
free on disk only when the `iput` will not write it any more, and the process that gets it
cannot lock it before the copy in memory is marked as old.

`ItState.Inv` holds in all runs : the references counted in the table are those of the
processes, whoever has the lock of an inode has a reference to it, and a copy of an inode that
somebody refers to is what is on disk unless the owner of the lock has changed it or is freeing
the inode. An entry without references keeps its copy, since `iput` does not clear `valid` ; the
copy is what is on disk as long as every step spares it (`Settled`). The result is `inode_table`,
and `inode_table_old` says that a step that does not spare such a copy leaves it old.
-/

namespace Xv6

open Function Prog

namespace ItState

variable {N : ℕ} {L : FsLayout} {s s' : ItState N} {p q : Fin N} {ip jp : Fin NINODE}

/-! ## The invariant -/

/-- `p` is freeing the inode, and nothing has changed since it decided to. -/
structure Frees (s : ItState N) (p : Fin N) (ip : Fin NINODE) (c : Check) : Prop where
  owner : s.owner ip = some p
  valid : (s.fs.itable ip).valid = true
  unchanged : s.changed ip = false
  nlink : (s.fs.itable ip).d.nlink = 0
  saw : c.ref = 1 ∧ c.mine = 1 ∧ c.nlink = 0
  inum : c.inum = (s.fs.itable ip).inum
  epoch : c.epoch = s.epoch (s.fs.itable ip).inum

/-- What holds where `p` is. -/
def At (s : ItState N) (p : Fin N) : ItPc → Prop
  | .idle => True
  | .fetch _ => True
  | .load ip => s.owner ip = some p ∧ s.changed ip = false
  | .trunc ip c => s.Frees p ip c
  | .clear ip c => s.Frees p ip c
  | .unvalid ip => s.owner ip = some p ∧ s.changed ip = false
  | .release ip => s.owner ip = some p ∧ s.changed ip = false ∧ (s.fs.itable ip).valid = false
  | .drop ip => 0 < s.refs p ip ∧ s.owner ip ≠ some p

/-- The inode that a call is about. -/
def entry : ItPc → Option (Fin NINODE)
  | .idle | .fetch _ => none
  | .load ip | .trunc ip _ | .clear ip _ | .unvalid ip | .release ip | .drop ip => some ip

/-- The copy of the inode, and what is on disk. -/
structure Synced (s : ItState N) (ip : Fin NINODE) : Prop where
  live : (s.fs.dinode (s.fs.itable ip).inum).type ≠ .none
  copy : s.changed ip = false → (s.fs.itable ip).d = s.fs.dinode (s.fs.itable ip).inum

structure Inv (s : ItState N) : Prop where
  count : ∀ ip, (s.fs.itable ip).ref = ∑ p, s.refs p ip
  uniq : ∀ ip jp, 0 < (s.fs.itable ip).ref → 0 < (s.fs.itable jp).ref →
    (s.fs.itable ip).inum = (s.fs.itable jp).inum → ip = jp
  locked : ∀ ip, (s.fs.itable ip).locked = (s.owner ip).isSome
  held : ∀ ip p, s.owner ip = some p → 0 < s.refs p ip
  quiet : ∀ ip, s.owner ip = none → s.changed ip = false
  own : ∀ ip p, s.owner ip = some p → s.pc p ≠ .load ip → s.pc p ≠ .release ip →
    (s.fs.itable ip).valid = true
  at_pc : ∀ p, s.At p (s.pc p)
  sync : ∀ ip, 0 < (s.fs.itable ip).ref → (s.fs.itable ip).valid = true →
    (∀ p, s.pc p ≠ .unvalid ip) → s.Synced ip
  clears : ∀ i, s.clears i ≤ 1 ∧ (s.clears i = 1 → (s.fs.dinode i).type = .none)
  truncs : ∀ i, s.truncs i ≤ 1 ∧ (s.truncs i = 1 → (s.fs.dinode i).type = .none ∨
    ∃ p ip c, s.pc p = .clear ip c ∧ (s.fs.itable ip).inum = i)

theorem Inv.le_ref (hi : s.Inv) (p : Fin N) (ip : Fin NINODE) :
    s.refs p ip ≤ (s.fs.itable ip).ref := by
  rw [hi.count ip]
  exact Machine.le_sum (fun f : Fin NINODE → ℕ => f ip) s.refs p

/-- Whoever has the lock has a reference. -/
theorem Inv.ref_pos (hi : s.Inv) (h : s.owner ip = some p) : 0 < (s.fs.itable ip).ref :=
  (hi.held ip p h).trans_le (hi.le_ref p ip)

variable {pc pc₀ : ItPc} {c : Check}

theorem Inv.at_of (hi : s.Inv) (hpc : s.pc p = pc) : s.At p pc := hpc ▸ hi.at_pc p

/-- An inode that is being freed is still allocated. -/
theorem Inv.synced_of_frees (hi : s.Inv) (h : s.Frees p ip c) (hpc : s.pc p ≠ .unvalid ip) :
    s.Synced ip := by
  refine hi.sync ip (hi.ref_pos h.owner) h.valid fun q hq => ?_
  obtain rfl : q = p := Option.some.inj ((hi.at_of hq).1.symm.trans h.owner)
  exact hpc hq

/-- `q` relies on the inodes that it has locked, and on the reference that it is about to drop. -/
theorem At.keep (hat : s.At q pc)
    (hown : ∀ jp, s.owner jp = some q → s'.owner jp = some q ∧ s'.changed jp = s.changed jp ∧
      (s'.fs.itable jp).inum = (s.fs.itable jp).inum ∧
      (s'.fs.itable jp).valid = (s.fs.itable jp).valid ∧ (s'.fs.itable jp).d = (s.fs.itable jp).d)
    (hepoch : ∀ jp c, s.Frees q jp c → (∀ kp, pc ≠ .unvalid kp) →
      s'.epoch (s.fs.itable jp).inum = s.epoch (s.fs.itable jp).inum)
    (hdrop : ∀ jp, pc = .drop jp → 0 < s.refs q jp ∧ s.owner jp ≠ some q →
      0 < s'.refs q jp ∧ s'.owner jp ≠ some q) : s'.At q pc := by
  have hfrees : ∀ {jp c}, s.Frees q jp c → (∀ kp, pc ≠ .unvalid kp) → s'.Frees q jp c :=
    fun {jp c} hf hu => by
      obtain ⟨ho, hch, hinum, hv, hd⟩ := hown jp hf.owner
      refine ⟨ho, hv.trans hf.valid, hch.trans hf.unchanged, ?_, hf.saw,
        hf.inum.trans hinum.symm, ?_⟩
      · rw [hd]
        exact hf.nlink
      · rw [hf.epoch, hinum, hepoch jp c hf hu]
  cases pc with
  | idle => trivial
  | fetch i => trivial
  | load jp | unvalid jp =>
    obtain ⟨ho, hch, -⟩ := hown jp hat.1
    exact ⟨ho, hch.trans hat.2⟩
  | trunc jp c | clear jp c => exact hfrees hat nofun
  | release jp =>
    obtain ⟨ho, hch, -, hv, -⟩ := hown jp hat.1
    exact ⟨ho, hch.trans hat.2.1, hv.trans hat.2.2⟩
  | drop jp => exact hdrop jp rfl hat

theorem Synced.keep (hs : s.Synced jp) (hinum : (s'.fs.itable jp).inum = (s.fs.itable jp).inum)
    (hx : (s'.fs.itable jp).d = (s.fs.itable jp).d) (hch : s'.changed jp = s.changed jp)
    (hd : s'.fs.dinode (s.fs.itable jp).inum = s.fs.dinode (s.fs.itable jp).inum) :
    s'.Synced jp := by
  refine ⟨?_, ?_⟩
  · rw [hinum, hd]
    exact hs.live
  · rw [hch, hx, hinum, hd]
    exact hs.copy

theorem Synced.type_ne (hs : s.Synced jp) (hch : s.changed jp = false) :
    (s.fs.itable jp).d.type ≠ .none := by
  rw [hs.copy hch]
  exact hs.live

/-- The step leaves alone what another process has locked. -/
structure Local (s : ItState N) (p : Fin N) (ip : Fin NINODE) (x : Inode) (o : Option (Fin N))
    (b : Bool) : Prop where
  owner : ∀ q, q ≠ p → (o = some q ↔ s.owner ip = some q)
  changed : ∀ q, q ≠ p → s.owner ip = some q → b = s.changed ip
  inum : ∀ q, q ≠ p → s.owner ip = some q → x.inum = (s.fs.itable ip).inum
  valid : ∀ q, q ≠ p → s.owner ip = some q → x.valid = (s.fs.itable ip).valid
  copy : ∀ q, q ≠ p → s.owner ip = some q → x.d = (s.fs.itable ip).d

/-- What a step of `p` at `ip` has to show for the table. -/
structure Fits (s : ItState N) (p : Fin N) (ip : Fin NINODE) (x : Inode) (r : ℕ) (pc : ItPc)
    (o : Option (Fin N)) (b : Bool) : Prop where
  here : Local s p ip x o b
  count : x.ref + s.refs p ip = (s.fs.itable ip).ref + r
  uniq : 0 < x.ref → ∀ jp, jp ≠ ip → 0 < (s.fs.itable jp).ref → (s.fs.itable jp).inum ≠ x.inum
  locked : x.locked = o.isSome
  held : o = some p → 0 < r
  quiet : o = none → b = false
  own : o = some p → pc ≠ .load ip → pc ≠ .release ip → x.valid = true
  at_ip : ∀ jp, entry (s.pc p) = some jp → jp = ip

section Upd

variable {x : Inode} {r : ℕ} {pc pc₀ : ItPc} {o : Option (Fin N)} {b : Bool}

/-- A step of a process that has the lock, or takes it or lets it go. -/
theorem Local.of_lock (ho : s.owner ip = some p ∨ s.owner ip = none) (ho' : o = some p ∨ o = none) :
    Local s p ip x o b := by
  have hnot : ∀ q, q ≠ p → s.owner ip ≠ some q := fun q hq h => by
    rcases ho with ho | ho <;> rw [ho] at h
    · exact hq (Option.some.inj h).symm
    · cases h
  refine ⟨fun q hq => ⟨fun h => ?_, fun h => absurd h (hnot q hq)⟩,
    fun q hq h => absurd h (hnot q hq), fun q hq h => absurd h (hnot q hq),
    fun q hq h => absurd h (hnot q hq), fun q hq h => absurd h (hnot q hq)⟩
  rcases ho' with ho' | ho' <;> rw [ho'] at h
  · exact absurd (Option.some.inj h).symm hq
  · cases h

/-- A step that counts references. -/
theorem Local.of_ref (n : ℕ) :
    Local s p ip { s.fs.itable ip with ref := n } (s.owner ip) (s.changed ip) :=
  ⟨fun _ _ => Iff.rfl, fun _ _ _ => rfl, fun _ _ _ => rfl, fun _ _ _ => rfl, fun _ _ _ => rfl⟩

variable (h : Upd s s' p ip x r pc o b)

include h

theorem Upd.entry_self : s'.fs.itable ip = x := by
  rw [h.itable, update_self]

theorem Upd.entry_ne (hne : jp ≠ ip) : s'.fs.itable jp = s.fs.itable jp := by
  rw [h.itable, update_of_ne hne]

theorem Upd.refs_self : s'.refs p ip = r := by
  rw [h.refs, update_self, update_self]

theorem Upd.refs_ne (hne : jp ≠ ip) (q : Fin N) : s'.refs q jp = s.refs q jp := by
  rw [h.refs]
  by_cases hq : q = p
  · rw [hq, update_self, update_of_ne hne]
  · rw [update_of_ne hq]

theorem Upd.refs_other (hq : q ≠ p) : s'.refs q = s.refs q := by
  rw [h.refs, update_of_ne hq]

theorem Upd.pc_self : s'.pc p = pc := by
  rw [h.pc, update_self]

theorem Upd.pc_ne (hq : q ≠ p) : s'.pc q = s.pc q := by
  rw [h.pc, update_of_ne hq]

theorem Upd.owner_self : s'.owner ip = o := by
  rw [h.owner, update_self]

theorem Upd.owner_ne (hne : jp ≠ ip) : s'.owner jp = s.owner jp := by
  rw [h.owner, update_of_ne hne]

theorem Upd.changed_self : s'.changed ip = b := by
  rw [h.changed, update_self]

theorem Upd.changed_ne (hne : jp ≠ ip) : s'.changed jp = s.changed jp := by
  rw [h.changed, update_of_ne hne]

theorem Upd.count (hi : s.Inv) (hx : x.ref + s.refs p ip = (s.fs.itable ip).ref + r)
    (jp : Fin NINODE) : (s'.fs.itable jp).ref = ∑ q, s'.refs q jp := by
  by_cases hne : jp = ip
  · subst hne
    have hsum := Machine.sum_update_add (fun f : Fin NINODE → ℕ => f jp) s.refs p
      (update (s.refs p) jp r)
    rw [update_self] at hsum
    have := hi.count jp
    rw [h.entry_self, h.refs]
    omega
  · rw [h.entry_ne hne, hi.count jp]
    exact Finset.sum_congr rfl fun q _ => (h.refs_ne hne q).symm

theorem Upd.uniq (hi : s.Inv)
    (hx : 0 < x.ref → ∀ jp, jp ≠ ip → 0 < (s.fs.itable jp).ref → (s.fs.itable jp).inum ≠ x.inum)
    (jp kp : Fin NINODE) (hj : 0 < (s'.fs.itable jp).ref) (hk : 0 < (s'.fs.itable kp).ref)
    (heq : (s'.fs.itable jp).inum = (s'.fs.itable kp).inum) : jp = kp := by
  rw [h.itable] at hj hk heq
  by_cases hjp : jp = ip <;> by_cases hkp : kp = ip
  · rw [hjp, hkp]
  · rw [hjp, update_self] at hj heq
    rw [update_of_ne hkp] at hk heq
    exact absurd heq.symm (hx hj kp hkp hk)
  · rw [hkp, update_self] at hk heq
    rw [update_of_ne hjp] at hj heq
    exact absurd heq (hx hk jp hjp hj)
  · rw [update_of_ne hjp] at hj heq
    rw [update_of_ne hkp] at hk heq
    exact hi.uniq jp kp hj hk heq

theorem Upd.owner_iff (hl : Local s p ip x o b) (hq : q ≠ p) (jp : Fin NINODE) :
    s'.owner jp = some q ↔ s.owner jp = some q := by
  by_cases hne : jp = ip
  · rw [hne, h.owner_self]
    exact hl.owner q hq
  · rw [h.owner_ne hne]

theorem Upd.keeps (hl : Local s p ip x o b) (hq : q ≠ p) (jp : Fin NINODE)
    (ho : s.owner jp = some q) : s'.owner jp = some q ∧ s'.changed jp = s.changed jp ∧
      (s'.fs.itable jp).inum = (s.fs.itable jp).inum ∧
      (s'.fs.itable jp).valid = (s.fs.itable jp).valid ∧
      (s'.fs.itable jp).d = (s.fs.itable jp).d := by
  refine ⟨(h.owner_iff hl hq jp).mpr ho, ?_⟩
  by_cases hne : jp = ip
  · subst hne
    rw [h.changed_self, h.entry_self]
    exact ⟨hl.changed q hq ho, hl.inum q hq ho, hl.valid q hq ho, hl.copy q hq ho⟩
  · rw [h.changed_ne hne, h.entry_ne hne]
    exact ⟨rfl, rfl, rfl, rfl⟩

/-- A step keeps the invariant, if it does for the table and the counters. -/
theorem Inv.upd (hi : s.Inv) (hf : Fits s p ip x r pc o b)
    (hat : s'.At p pc) (hepoch : s'.epoch = s.epoch)
    (hdisk : s'.fs.dinode = s.fs.dinode ∨
      0 < (s.fs.itable ip).ref ∧ ∃ d, s'.fs.dinode = update s.fs.dinode (s.fs.itable ip).inum d)
    (hsync : 0 < x.ref → x.valid = true → pc ≠ .unvalid ip → (∀ q, q ≠ p → s.pc q ≠ .unvalid ip) →
      s'.Synced ip)
    (hclears : ∀ i, s'.clears i ≤ 1 ∧ (s'.clears i = 1 → (s'.fs.dinode i).type = .none))
    (htruncs : ∀ i, s'.truncs i ≤ 1 ∧ (s'.truncs i = 1 → (s'.fs.dinode i).type = .none ∨
      ∃ p ip c, s'.pc p = .clear ip c ∧ (s'.fs.itable ip).inum = i)) : s'.Inv := by
  have hl := hf.here
  refine ⟨h.count hi hf.count, h.uniq hi hf.uniq, fun jp => ?_, fun jp q ho => ?_, fun jp ho => ?_,
    fun jp q ho hload hrel => ?_, fun q => ?_, fun jp href hv hpc => ?_, hclears, htruncs⟩
  · by_cases hne : jp = ip
    · rw [hne, h.entry_self, h.owner_self, hf.locked]
    · rw [h.entry_ne hne, h.owner_ne hne]
      exact hi.locked jp
  · by_cases hq : q = p
    · subst hq
      by_cases hne : jp = ip
      · subst hne
        rw [h.refs_self]
        exact hf.held (h.owner_self.symm.trans ho)
      · rw [h.refs_ne hne]
        exact hi.held jp q ((h.owner_ne hne).symm.trans ho)
    · rw [h.refs_other hq]
      exact hi.held jp q ((h.owner_iff hl hq jp).mp ho)
  · by_cases hne : jp = ip
    · subst hne
      rw [h.changed_self]
      exact hf.quiet (h.owner_self.symm.trans ho)
    · rw [h.changed_ne hne]
      exact hi.quiet jp ((h.owner_ne hne).symm.trans ho)
  · by_cases hq : q = p
    · subst hq
      rw [h.pc_self] at hload hrel
      by_cases hne : jp = ip
      · subst hne
        rw [h.entry_self]
        exact hf.own (h.owner_self.symm.trans ho) hload hrel
      · rw [h.entry_ne hne]
        exact hi.own jp q ((h.owner_ne hne).symm.trans ho)
          (fun heq => hne (hf.at_ip jp (by rw [heq]; rfl)))
          fun heq => hne (hf.at_ip jp (by rw [heq]; rfl))
    · rw [h.pc_ne hq] at hload hrel
      have ho' := (h.owner_iff hl hq jp).mp ho
      rw [(h.keeps hl hq jp ho').2.2.2.1]
      exact hi.own jp q ho' hload hrel
  · by_cases hq : q = p
    · subst hq
      rw [h.pc_self]
      exact hat
    · rw [h.pc_ne hq]
      refine (hi.at_pc q).keep (h.keeps hl hq) (fun _ _ _ _ => by rw [hepoch]) fun jp _ hd => ?_
      rw [h.refs_other hq, ne_eq, h.owner_iff hl hq]
      exact hd
  · by_cases hne : jp = ip
    · subst hne
      rw [h.entry_self] at href hv
      refine hsync href hv (fun heq => hpc p (h.pc_self.trans heq)) fun q hq heq => ?_
      exact hpc q ((h.pc_ne hq).trans heq)
    · rw [h.entry_ne hne] at href hv
      have hold : s.Synced jp := by
        refine hi.sync jp href hv fun q heq => ?_
        by_cases hq : q = p
        · subst hq
          exact hne (hf.at_ip jp (by rw [heq]; rfl))
        · exact hpc q ((h.pc_ne hq).trans heq)
      refine hold.keep (by rw [h.entry_ne hne]) (by rw [h.entry_ne hne]) (h.changed_ne hne) ?_
      -- a write to disk is to the inode of `ip`
      rcases hdisk with hd | ⟨hpos, d, hd⟩
      · rw [hd]
      · rw [hd, update_of_ne fun heq => hne (hi.uniq jp ip href hpos heq)]

/-- A process that is about to clear a type is still there. -/
theorem Upd.clearing (hl : Local s p ip x o b) (hi : s.Inv) {i : ℕ}
    (hp : ∀ jp c, s.pc p = .clear jp c → (s.fs.itable jp).inum ≠ i)
    (hc : ∃ q jp c, s.pc q = .clear jp c ∧ (s.fs.itable jp).inum = i) :
    ∃ q jp c, s'.pc q = .clear jp c ∧ (s'.fs.itable jp).inum = i := by
  obtain ⟨q, jp, c, hpc, hinum⟩ := hc
  have hq : q ≠ p := by
    rintro rfl
    exact hp jp c hpc hinum
  obtain ⟨-, -, hsame, -⟩ := h.keeps hl hq jp (hi.at_of hpc).owner
  exact ⟨q, jp, c, (h.pc_ne hq).trans hpc, hsame.trans hinum⟩

theorem Upd.synced (hd : ItSame s s') (hinum : x.inum = (s.fs.itable ip).inum)
    (hx : x.d = (s.fs.itable ip).d) (hb : b = s.changed ip) (hs : s.Synced ip) : s'.Synced ip :=
  hs.keep (by rw [h.entry_self, hinum]) (by rw [h.entry_self, hx]) (h.changed_self.trans hb)
    (by rw [hd.dinode])

/-- A step that leaves the disk alone. -/
theorem Inv.upd_same (hi : s.Inv) (hpc : s.pc p = pc₀) (hf : Fits s p ip x r pc o b)
    (hd : ItSame s s') (hat : s'.At p pc) (hp : ∀ jp c, pc₀ ≠ .clear jp c)
    (hsync : 0 < x.ref → x.valid = true → (∀ q, q ≠ p → s.pc q ≠ .unvalid ip) → s'.Synced ip) :
    s'.Inv := by
  refine hi.upd h hf hat hd.epoch (.inl hd.dinode) (fun hr hv _ => hsync hr hv) (fun i => ?_)
    fun i => ?_
  · rw [hd.clears, hd.dinode]
    exact hi.clears i
  · rw [hd.truncs, hd.dinode]
    exact (hi.truncs i).imp_right fun ht h1 => (ht h1).imp_right
      (h.clearing hf.here hi fun jp c hc => absurd (hpc.symm.trans hc) (hp jp c))

/-- What `p` writes to disk is what it has in memory, or marks the inode as free. -/
theorem Inv.upd_writes {d : Dinode} {m n : ℕ} (hi : s.Inv) (hf : Fits s p ip x r pc o b)
    (hd : Writes s s' (s.fs.itable ip).inum d m n) (hat : s'.At p pc)
    (href : 0 < (s.fs.itable ip).ref) (hinum : x.inum = (s.fs.itable ip).inum)
    (hsync : pc ≠ .unvalid ip → x.d = d ∧ d.type ≠ .none)
    (hp : ∀ jp c, s.pc p = .clear jp c → jp = ip)
    (hclears : s.clears (s.fs.itable ip).inum + n ≤ 1 ∧
      (s.clears (s.fs.itable ip).inum + n = 1 → d.type = .none))
    (htruncs : s.truncs (s.fs.itable ip).inum + m ≤ 1 ∧
      (s.truncs (s.fs.itable ip).inum + m = 1 → d.type = .none ∨
        ∃ q jp c, s'.pc q = .clear jp c ∧ (s'.fs.itable jp).inum = (s.fs.itable ip).inum)) :
    s'.Inv := by
  refine hi.upd h hf hat hd.epoch (.inr ⟨href, _, hd.dinode⟩) (fun _ _ hu _ => ?_) (fun i => ?_)
    fun i => ?_
  · obtain ⟨hx, htype⟩ := hsync hu
    refine ⟨?_, fun _ => ?_⟩
    · rw [h.entry_self, hinum, hd.dinode, update_self]
      exact htype
    · rw [h.entry_self, hinum, hd.dinode, update_self, hx]
  · rw [hd.clears, hd.dinode]
    by_cases hne : i = (s.fs.itable ip).inum
    · rw [hne, update_self, update_self]
      exact hclears
    · rw [update_of_ne hne, update_of_ne hne]
      exact hi.clears i
  · rw [hd.truncs, hd.dinode]
    by_cases hne : i = (s.fs.itable ip).inum
    · rw [hne, update_self, update_self]
      exact htruncs
    · rw [update_of_ne hne, update_of_ne hne]
      exact (hi.truncs i).imp_right fun ht h1 => (ht h1).imp_right
        (h.clearing hf.here hi fun jp c hc => by rw [hp jp c hc]; exact Ne.symm hne)

end Upd

/-! ## The steps keep the invariant -/

theorem boot_inv (dinode : ℕ → Dinode) (bitmap : ℕ → Bool) (data : ℕ → Bytes) :
    (boot dinode bitmap data : ItState N).Inv :=
  ⟨fun _ => (Finset.sum_const_zero).symm, nofun, fun _ => rfl, nofun, fun _ _ => rfl, nofun,
    fun _ => trivial, nofun, fun _ => ⟨Nat.zero_le _, nofun⟩, fun _ => ⟨Nat.zero_le _, nofun⟩⟩

theorem at_entry (hpc : s.pc p = pc₀) (h : entry pc₀ = none ∨ entry pc₀ = some ip) (jp : Fin NINODE)
    (hj : entry (s.pc p) = some jp) : jp = ip := by
  rw [hpc] at hj
  rcases h with h | h <;> rw [h] at hj
  · cases hj
  · exact (Option.some.inj hj).symm

theorem setRefs_sum (s : ItState N) (p : Fin N) (ip jp : Fin NINODE) (r : ℕ) :
    ∑ q, (s.setRefs p ip r).refs q jp + s.refs p jp =
      ∑ q, s.refs q jp + update (s.refs p) ip r jp :=
  Machine.sum_update_add (fun f : Fin NINODE → ℕ => f jp) s.refs p _

/-- A reference that changes hands is counted as before. -/
theorem give_sum (href : 0 < s.refs p ip) (q : Fin N) (jp : Fin NINODE) :
    ∑ k, ((s.leave p ip).take q ip).refs k jp = ∑ k, s.refs k jp := by
  have h₁ := setRefs_sum s p ip jp (s.refs p ip - 1)
  have h₂ := setRefs_sum (s.leave p ip) q ip jp ((s.leave p ip).refs q ip + 1)
  change ∑ k, (s.leave p ip).refs k jp + _ = _ at h₁
  change ∑ k, ((s.leave p ip).take q ip).refs k jp + _ = _ at h₂
  by_cases hne : jp = ip
  · subst hne
    rw [update_self] at h₁ h₂
    omega
  · rw [update_of_ne hne] at h₁ h₂
    omega

/-- Nobody else has fewer references. -/
theorem give_le (q k : Fin N) (jp : Fin NINODE) (h : k ≠ p ∨ jp ≠ ip ∨ 1 < s.refs p ip)
    (hpos : 0 < s.refs k jp) : 0 < ((s.leave p ip).take q ip).refs k jp := by
  have hleave : 0 < (s.leave p ip).refs k jp := by
    by_cases hk : k = p
    · subst hk
      show 0 < update s.refs k (update (s.refs k) ip (s.refs k ip - 1)) k jp
      rw [update_self]
      by_cases hne : jp = ip
      · subst hne
        rw [update_self]
        have := (h.resolve_left (absurd rfl)).resolve_left (absurd rfl)
        omega
      · rwa [update_of_ne hne]
    · show 0 < update s.refs p (update (s.refs p) ip (s.refs p ip - 1)) k jp
      rwa [update_of_ne hk]
  by_cases hk : k = q
  · subst hk
    show 0 < update (s.leave p ip).refs k (update ((s.leave p ip).refs k) ip _) k jp
    rw [update_self]
    by_cases hne : jp = ip
    · subst hne
      rw [update_self]
      exact Nat.succ_pos _
    · rwa [update_of_ne hne]
  · show 0 < update (s.leave p ip).refs q (update ((s.leave p ip).refs q) ip _) k jp
    rwa [update_of_ne hk]

section Inv

variable (hi : s.Inv)

include hi

theorem Inv.owner_none (h : (s.fs.itable ip).locked = false) : s.owner ip = none := by
  rw [hi.locked ip] at h
  exact Option.isNone_iff_eq_none.mp (by simpa using h)

theorem Inv.owner_none_of_ref (h : (s.fs.itable ip).ref = 0) : s.owner ip = none := by
  cases ho : s.owner ip with
  | none => rfl
  | some p =>
    have := hi.ref_pos ho
    omega

/-- `p` is not in a call that is about an inode. -/
theorem Inv.own_of_entry (hpc : entry (s.pc p) = none) (ho : s.owner ip = some p) :
    (s.fs.itable ip).valid = true := by
  refine hi.own ip p ho (fun heq => ?_) fun heq => ?_ <;> rw [heq] at hpc <;> cases hpc

/-- An inode that a process has locked between its calls. -/
theorem Inv.synced_of_idle (hown : s.owner ip = some p) (hpc : s.pc p = .idle) : s.Synced ip := by
  refine hi.sync ip (hi.ref_pos hown) (hi.own_of_entry (by rw [hpc]; rfl) hown) fun q hq => ?_
  obtain rfl : q = p := Option.some.inj ((hi.at_of hq).1.symm.trans hown)
  exact nomatch hpc.symm.trans hq

theorem Inv.clears_zero (hs : s.Synced ip) : s.clears (s.fs.itable ip).inum = 0 := by
  by_contra hne
  have hc := hi.clears (s.fs.itable ip).inum
  exact hs.live (hc.2 (by omega))

/-- The copy of an inode that nobody is about to mark as old. -/
theorem Inv.synced_of_pc (hpc : s.pc p = pc₀) (hp : pc₀ ≠ .unvalid ip)
    (href : 0 < (s.fs.itable ip).ref) (hv : (s.fs.itable ip).valid = true)
    (hq : ∀ q, q ≠ p → s.pc q ≠ .unvalid ip) : s.Synced ip := by
  refine hi.sync ip href hv fun q => ?_
  by_cases hqp : q = p
  · rw [hqp, hpc]
    exact hp
  · exact hq q hqp

theorem Inv.upd_ref {n r : ℕ} (hpc : s.pc p = pc₀)
    (h : Upd s s' p ip { s.fs.itable ip with ref := n } r .idle (s.owner ip) (s.changed ip))
    (hd : ItSame s s') (href : 0 < (s.fs.itable ip).ref)
    (hn : n + s.refs p ip = (s.fs.itable ip).ref + r)
    (hr : s.owner ip = some p → 0 < r ∧ entry pc₀ = none)
    (hent : entry pc₀ = none ∨ pc₀ = .drop ip) : s'.Inv := by
  have hent' : entry pc₀ = none ∨ entry pc₀ = some ip := hent.imp_right fun h => by rw [h]; rfl
  refine hi.upd_same h hpc ⟨.of_ref _, hn, fun _ jp hne hj heq => hne (hi.uniq jp ip hj href heq),
    hi.locked ip, fun ho => (hr ho).1, hi.quiet ip,
    fun ho _ _ => hi.own_of_entry (hpc ▸ (hr ho).2) ho, at_entry hpc hent'⟩ hd trivial
    (fun jp c heq => ?_) fun _ hv hq =>
      h.synced hd rfl rfl rfl (hi.synced_of_pc hpc (fun heq => ?_) href hv hq)
  all_goals
    subst heq
    simp [entry] at hent

/-- A step of the owner of the lock, or of a process that takes a free one. -/
theorem Fits.of_lock {x : Inode} {o : Option (Fin N)} {b : Bool} (hpc : s.pc p = pc₀)
    (hent : entry pc₀ = none ∨ entry pc₀ = some ip) (ho : s.owner ip = some p ∨ s.owner ip = none)
    (hrefs : 0 < s.refs p ip) (ho' : o = some p ∨ o = none) (href : x.ref = (s.fs.itable ip).ref)
    (hinum : x.inum = (s.fs.itable ip).inum) (hlocked : x.locked = o.isSome)
    (hquiet : o = none → b = false)
    (hown : o = some p → pc ≠ .load ip → pc ≠ .release ip → x.valid = true) :
    Fits s p ip x (s.refs p ip) pc o b := by
  refine ⟨.of_lock ho ho', by rw [href], fun hpos jp hne hj heq => ?_, hlocked, fun _ => hrefs,
    hquiet, hown, at_entry hpc hent⟩
  exact hne (hi.uniq jp ip hj (href ▸ hpos) (heq.trans hinum))

/-- A step of the owner, who keeps the lock. -/
theorem Fits.of_owner {x : Inode} {b : Bool} (hpc : s.pc p = pc₀)
    (hent : entry pc₀ = none ∨ entry pc₀ = some ip) (ho : s.owner ip = some p)
    (href : x.ref = (s.fs.itable ip).ref) (hinum : x.inum = (s.fs.itable ip).inum)
    (hlocked : x.locked = (s.fs.itable ip).locked)
    (hown : pc ≠ .load ip → pc ≠ .release ip → x.valid = true) :
    Fits s p ip x (s.refs p ip) pc (s.owner ip) b :=
  .of_lock hi hpc hent (.inl ho) (hi.held ip p ho) (.inl ho) href hinum
    (hlocked.trans (hi.locked ip)) (by rw [ho]; nofun) fun _ => hown

/-- No contents were discarded since the inode was allocated. -/
theorem Inv.truncs_zero (hpc : s.pc p = .trunc ip c) : s.truncs (s.fs.itable ip).inum = 0 := by
  have hat : s.Frees p ip c := hi.at_of hpc
  have hs := hi.synced_of_frees hat (by rw [hpc]; nofun)
  by_contra hne
  have ht := hi.truncs (s.fs.itable ip).inum
  rcases ht.2 (by omega) with hnone | ⟨q, jp, c', hq, hinum⟩
  · exact hs.live hnone
  · have hat' : s.Frees q jp c' := hi.at_of hq
    obtain rfl := hi.uniq jp ip (hi.ref_pos hat'.owner) (hi.ref_pos hat.owner) hinum
    obtain rfl : q = p := Option.some.inj (hat'.owner.symm.trans hat.owner)
    exact absurd (hpc.symm.trans hq) nofun

theorem Inv.give (hpc : s.pc p = .idle) (href : 0 < s.refs p ip)
    (hown : s.owner ip = some p → 1 < s.refs p ip) (q : Fin N) :
    ((s.leave p ip).take q ip).Inv := by
  refine ⟨fun jp => (hi.count jp).trans (give_sum href q jp).symm, hi.uniq, hi.locked,
    fun jp k ho => ?_, hi.quiet, hi.own, fun k => ?_, fun jp hr hv hu => ?_, hi.clears, hi.truncs⟩
  · refine give_le q k jp ?_ (hi.held jp k ho)
    by_cases hk : k = p
    · subst hk
      by_cases hne : jp = ip
      · subst hne
        exact .inr (.inr (hown ho))
      · exact .inr (.inl hne)
    · exact .inl hk
  · refine (hi.at_pc k).keep (fun _ ho => ⟨ho, rfl, rfl, rfl, rfl⟩) (fun _ _ _ _ => rfl)
      fun jp hk hd => ⟨give_le q k jp (.inl fun heq => ?_) hd.1, hd.2⟩
    rw [heq, hpc] at hk
    cases hk
  · exact (hi.sync jp hr hv hu).keep rfl rfl rfl rfl

/-- `ialloc` takes an inode of which there is no copy in memory. -/
theorem Inv.ialloc {i : ℕ} {type : FileType} (hpc : s.pc p = .idle)
    (hfree : (s.fs.dinode i).type = .none) : ((s.allocated i type).goto p (.fetch i)).Inv := by
  have hne : ∀ jp, s.Synced jp → (s.fs.itable jp).inum ≠ i := fun jp hs heq =>
    hs.live (heq ▸ hfree)
  have hpc_ne : ∀ {q}, q ≠ p → update s.pc p (.fetch i) q = s.pc q := fun hq => update_of_ne hq _ _
  have hother : ∀ q, s.pc q ≠ .idle → q ≠ p := fun q hq heq => hq (heq ▸ hpc)
  refine ⟨hi.count, hi.uniq, hi.locked, hi.held, hi.quiet, fun jp q ho hl hr => ?_, fun q => ?_,
    fun jp hr hv hu => ?_, fun j => ?_, fun j => ?_⟩
  · by_cases hq : q = p
    · subst hq
      exact hi.own_of_entry (by rw [hpc]; rfl) ho
    · exact hi.own jp q ho (fun heq => hl ((hpc_ne hq).trans heq))
        fun heq => hr ((hpc_ne hq).trans heq)
  · show At _ q (update s.pc p (.fetch i) q)
    by_cases hq : q = p
    · rw [hq, update_self]
      trivial
    · rw [hpc_ne hq]
      exact (hi.at_pc q).keep (fun _ ho => ⟨ho, rfl, rfl, rfl, rfl⟩) (fun jp c hf hu =>
        update_of_ne (hne jp (hi.synced_of_frees hf (hu jp))) _ _) fun _ _ hd => hd
  · have hs : s.Synced jp := by
      refine hi.sync jp hr hv fun q heq => hu q ?_
      exact (hpc_ne (hother q (by rw [heq]; nofun))).trans heq
    exact hs.keep rfl rfl rfl (update_of_ne (hne jp hs) _ _)
  · show update s.clears i 0 j ≤ 1 ∧ (update s.clears i 0 j = 1 →
      (update s.fs.dinode i (.fresh type) j).type = .none)
    by_cases hj : j = i
    · rw [hj, update_self]
      exact ⟨Nat.zero_le _, nofun⟩
    · rw [update_of_ne hj, update_of_ne hj]
      exact hi.clears j
  · show update s.truncs i 0 j ≤ 1 ∧ (update s.truncs i 0 j = 1 →
      (update s.fs.dinode i (.fresh type) j).type = .none ∨ _)
    by_cases hj : j = i
    · rw [hj, update_self]
      exact ⟨Nat.zero_le _, nofun⟩
    · rw [update_of_ne hj, update_of_ne hj]
      refine (hi.truncs j).imp_right fun ht h1 => (ht h1).imp_right ?_
      rintro ⟨q, jp, c, hq, hinum⟩
      exact ⟨q, jp, c, (hpc_ne (hother q (by rw [hq]; nofun))).trans hq, hinum⟩

theorem Inv.recycle {i : ℕ} (hpc : s.pc p = .idle ∨ ∃ i, s.pc p = .fetch i)
    (href : (s.fs.itable ip).ref = 0)
    (hnot : ∀ jp, 0 < (s.fs.itable jp).ref → (s.fs.itable jp).inum ≠ i)
    (h : Upd s s' p ip { s.fs.itable ip with inum := i, ref := 1, valid := false }
      (s.refs p ip + 1) .idle (s.owner ip) (s.changed ip)) (hd : ItSame s s') : s'.Inv := by
  have ho := hi.owner_none_of_ref href
  have hzero := hi.le_ref p ip
  have hent : entry (s.pc p) = none := by
    rcases hpc with hpc | ⟨i, hpc⟩ <;> rw [hpc] <;> rfl
  refine hi.upd_same h rfl ⟨.of_lock (.inr ho) (.inr ho), ?_, fun _ jp _ => hnot jp, hi.locked ip,
    fun _ => Nat.succ_pos _, hi.quiet ip, ?_, at_entry rfl (.inl hent)⟩ hd trivial
    (fun jp c heq => ?_) nofun
  · show 1 + s.refs p ip = _
    omega
  · rw [ho]
    nofun
  · rw [heq] at hent
    cases hent

theorem Inv.load (hpc : s.pc p = .load ip)
    (htype : (s.fs.dinode (s.fs.itable ip).inum).type ≠ .none)
    (h : Upd s s' p ip { s.fs.itable ip with
      d := s.fs.dinode (s.fs.itable ip).inum, valid := true } (s.refs p ip) .idle (s.owner ip)
      (s.changed ip)) (hd : ItSame s s') : s'.Inv := by
  refine hi.upd_same h hpc (.of_owner hi hpc (.inr rfl) (hi.at_of hpc).1 rfl rfl rfl
    fun _ _ => rfl) hd trivial nofun fun _ _ _ => ⟨?_, fun _ => ?_⟩
  · rw [h.entry_self, hd.dinode]
    exact htype
  · rw [h.entry_self, hd.dinode]

theorem Inv.edit {d : Dinode} (hpc : s.pc p = .idle) (hown : s.owner ip = some p)
    (h : Upd s s' p ip { s.fs.itable ip with d := d } (s.refs p ip) .idle (s.owner ip) true)
    (hd : ItSame s s') : s'.Inv := by
  refine hi.upd_same h hpc (.of_owner hi hpc (.inl rfl) hown rfl rfl rfl
    fun _ _ => hi.own_of_entry (by rw [hpc]; rfl) hown) hd trivial nofun
    fun _ _ _ => ⟨?_, by rw [h.changed_self]; nofun⟩
  rw [h.entry_self, hd.dinode]
  exact (hi.synced_of_idle hown hpc).live

theorem Inv.iupdate (hpc : s.pc p = .idle) (hown : s.owner ip = some p)
    (htype : (s.fs.itable ip).d.type ≠ .none)
    (h : Upd s s' p ip (s.fs.itable ip) (s.refs p ip) .idle (s.owner ip) false)
    (hd : Writes s s' (s.fs.itable ip).inum (s.fs.itable ip).d 0 0) : s'.Inv := by
  have hs := hi.synced_of_idle hown hpc
  have hf : Fits s p ip (s.fs.itable ip) (s.refs p ip) .idle (s.owner ip) false :=
    .of_owner hi hpc (.inl rfl) hown rfl rfl rfl
      fun _ _ => hi.own_of_entry (by rw [hpc]; rfl) hown
  have hnot : ∀ jp c, s.pc p ≠ .clear jp c := by rw [hpc]; nofun
  refine hi.upd_writes h hf hd trivial (hi.ref_pos hown) rfl (fun _ => ⟨rfl, htype⟩)
    (fun jp c hc => absurd hc (hnot jp c)) ?_ ?_
  · rw [hi.clears_zero hs]
    exact ⟨Nat.zero_le _, nofun⟩
  · refine (hi.truncs _).imp_right fun ht h1 => .inr ((ht h1).elim (absurd · hs.live) ?_)
    exact h.clearing hf.here hi fun jp c hc => absurd hc (hnot jp c)

theorem Inv.check (hpc : s.pc p = .idle) (href : 0 < s.refs p ip) (hone : (s.fs.itable ip).ref = 1)
    (hv : (s.fs.itable ip).valid = true) (hlink : (s.fs.itable ip).d.nlink = 0)
    (hun : (s.fs.itable ip).locked = false)
    (h : Upd s s' p ip { s.fs.itable ip with locked := true } (s.refs p ip)
      (.trunc ip (s.check p ip)) (some p) (s.changed ip)) (hd : ItSame s s') : s'.Inv := by
  have ho := hi.owner_none hun
  have hle := hi.le_ref p ip
  refine hi.upd_same h hpc (.of_lock hi hpc (.inl rfl) (.inr ho) href (.inl rfl) rfl rfl rfl nofun
    fun _ _ _ => hv) hd ⟨h.owner_self, ?_, h.changed_self.trans (hi.quiet ip ho), ?_,
    ⟨hone, (by omega : s.refs p ip = 1), hlink⟩, ?_, ?_⟩ nofun
    fun hr hv hq => h.synced hd rfl rfl rfl (hi.synced_of_pc hpc nofun hr hv hq)
  · rw [h.entry_self]
    exact hv
  · rw [h.entry_self]
    exact hlink
  · rw [h.entry_self]
    rfl
  · rw [h.entry_self, hd.epoch]
    rfl

theorem Inv.trunc {d : Dinode} (hpc : s.pc p = .trunc ip c)
    (htype : d.type = (s.fs.itable ip).d.type) (hlink : d.nlink = (s.fs.itable ip).d.nlink)
    (h : Upd s s' p ip { s.fs.itable ip with d := d } (s.refs p ip) (.clear ip c) (s.owner ip)
      (s.changed ip)) (hd : Writes s s' (s.fs.itable ip).inum d 1 0) : s'.Inv := by
  have hat : s.Frees p ip c := hi.at_of hpc
  have hs := hi.synced_of_frees hat (by rw [hpc]; nofun)
  have hlive : d.type ≠ .none := htype.trans_ne (hs.type_ne hat.unchanged)
  refine hi.upd_writes h (.of_owner hi hpc (.inr rfl) hat.owner rfl rfl rfl fun _ _ => hat.valid)
    hd ⟨h.owner_self.trans hat.owner, ?_, h.changed_self.trans hat.unchanged, ?_, hat.saw, ?_, ?_⟩
    (hi.ref_pos hat.owner) rfl (fun _ => ⟨rfl, hlive⟩) (fun jp c hc => nomatch hpc.symm.trans hc)
    ?_ ?_
  · rw [h.entry_self]
    exact hat.valid
  · rw [h.entry_self]
    exact hlink.trans hat.nlink
  · rw [h.entry_self]
    exact hat.inum
  · rw [h.entry_self, hd.epoch]
    exact hat.epoch
  · rw [hi.clears_zero hs]
    exact ⟨Nat.zero_le _, nofun⟩
  · rw [hi.truncs_zero hpc]
    exact ⟨le_rfl, fun _ => .inr ⟨p, ip, c, h.pc_self, by rw [h.entry_self]⟩⟩

theorem Inv.clear (hpc : s.pc p = .clear ip c)
    (h : Upd s s' p ip { s.fs.itable ip with d := { (s.fs.itable ip).d with type := .none } }
      (s.refs p ip) (.unvalid ip) (s.owner ip) (s.changed ip))
    (hd : Writes s s' (s.fs.itable ip).inum { (s.fs.itable ip).d with type := .none } 0 1) :
    s'.Inv := by
  have hat : s.Frees p ip c := hi.at_of hpc
  have hs := hi.synced_of_frees hat (by rw [hpc]; nofun)
  refine hi.upd_writes h (.of_owner hi hpc (.inr rfl) hat.owner rfl rfl rfl fun _ _ => hat.valid)
    hd ⟨h.owner_self.trans hat.owner, h.changed_self.trans hat.unchanged⟩ (hi.ref_pos hat.owner)
    rfl (fun hu => absurd rfl hu) (fun jp c hc => ?_) ?_ ⟨(hi.truncs _).1, fun _ => .inl rfl⟩
  · cases hpc.symm.trans hc
    rfl
  · rw [hi.clears_zero hs]
    exact ⟨le_rfl, fun _ => rfl⟩

/-- Every step keeps the invariant. -/
theorem ItMove.inv (h : ItMove s p s') : s'.Inv := by
  cases h with
  | inc ip hpc href h hd =>
    have hpos := href.elim id fun hr => hr.trans_le (hi.le_ref p ip)
    have hent : entry (s.pc p) = none := by
      rcases hpc with hpc | ⟨i, hpc⟩ <;> rw [hpc] <;> rfl
    exact hi.upd_ref rfl h hd hpos (by omega) (fun _ => ⟨Nat.succ_pos _, hent⟩) (.inl hent)
  | recycle ip i hpc href hnot h hd => exact hi.recycle hpc href hnot h hd
  | dec ip hpc h hd =>
    have hle := hi.le_ref p ip
    rcases hpc with hpc | ⟨hpc, hpos, hown⟩
    · obtain ⟨hpos, hne⟩ := hi.at_of hpc
      exact hi.upd_ref hpc h hd (by omega) (by omega) (fun ho => absurd ho hne) (.inr rfl)
    · exact hi.upd_ref hpc h hd (by omega) (by omega)
        (fun ho => ⟨Nat.sub_pos_of_lt (hown ho), rfl⟩) (.inl rfl)
  | give ip q hpc href hown h => exact h ▸ hi.give hpc href hown q
  | lock ip hpc hun href h hd =>
    have ho := hi.owner_none hun
    exact hi.upd_same h hpc (.of_lock hi hpc (.inl rfl) (.inr ho) href (.inl rfl) rfl rfl rfl nofun
      fun _ hl => absurd rfl hl) hd ⟨h.owner_self, h.changed_self.trans (hi.quiet ip ho)⟩ nofun
      fun hr hv hq => h.synced hd rfl rfl rfl (hi.synced_of_pc hpc nofun hr hv hq)
  | loaded ip hpc hv h hd =>
    exact hi.upd_same h hpc (.of_owner hi hpc (.inr rfl) (hi.at_of hpc).1 rfl rfl rfl
      fun _ _ => hv) hd trivial nofun
      fun hr hv hq => h.synced hd rfl rfl rfl (hi.synced_of_pc hpc nofun hr hv hq)
  | load ip hpc htype h hd => exact hi.load hpc htype h hd
  | unlock ip hpc hown hch h hd =>
    exact hi.upd_same h hpc (.of_lock hi hpc (.inl rfl) (.inl hown) (hi.held ip p hown) (.inr rfl)
      rfl rfl rfl (fun _ => hch) nofun) hd trivial nofun
      fun _ _ _ => h.synced hd rfl rfl rfl (hi.synced_of_idle hown hpc)
  | edit ip d hpc hown h hd => exact hi.edit hpc hown h hd
  | iupdate ip hpc hown htype h hd => exact hi.iupdate hpc hown htype h hd
  | check ip hpc href hone hv hlink hun h hd => exact hi.check hpc href hone hv hlink hun h hd
  | trunc ip c d hpc htype hlink h hd => exact hi.trunc hpc htype hlink h hd
  | clear ip c hpc h hd => exact hi.clear hpc h hd
  | unvalid ip hpc h hd =>
    have hat := hi.at_of hpc
    exact hi.upd_same h hpc (.of_owner hi hpc (.inr rfl) hat.1 rfl rfl rfl
      fun _ hr => absurd rfl hr) hd
      ⟨h.owner_self.trans hat.1, h.changed_self.trans hat.2, by rw [h.entry_self]⟩ nofun nofun
  | release ip hpc h hd =>
    have hat := hi.at_of hpc
    have href := hi.held ip p hat.1
    exact hi.upd_same h hpc (.of_lock hi hpc (.inr rfl) (.inl hat.1) href (.inr rfl) rfl rfl rfl
      (fun _ => hat.2.1) nofun) hd ⟨by rwa [h.refs_self], by rw [h.owner_self]; nofun⟩ nofun
      fun _ hv => absurd (hat.2.2.symm.trans hv) nofun
  | ialloc i type hpc hfree htype h => exact h ▸ hi.ialloc hpc hfree

theorem Inv.add_le_ref (hne : p ≠ q) : s.refs p ip + s.refs q ip ≤ (s.fs.itable ip).ref := by
  rw [hi.count ip, ← Finset.sum_pair hne (f := fun k => s.refs k ip)]
  exact Finset.sum_le_sum_of_subset (Finset.subset_univ _)

/-- There is no lock on an inode with one reference, unless its owner has that. -/
theorem Inv.owner_none_of_one (href : 0 < s.refs p ip)
    (hown : s.owner ip = some p → 1 < s.refs p ip) (hone : (s.fs.itable ip).ref ≤ 1) :
    s.owner ip = none := by
  cases ho : s.owner ip with
  | none => rfl
  | some q =>
    have hq := hi.held ip q ho
    have hle := hi.le_ref p ip
    by_cases hne : p = q
    · have := hown (hne ▸ ho)
      omega
    · have : s.refs p ip + s.refs q ip ≤ _ := hi.add_le_ref hne
      omega

/-- Whoever may put an inode that it has the only reference to finds it unlocked. -/
theorem Inv.iputTest_ne (href : 0 < s.refs p ip) (hown : s.owner ip = some p → 1 < s.refs p ip) :
    Fs.iputTest ip s.fs ≠ .error .schedLocks := by
  refine fun he => wp.error (E := (· ≠ .schedLocks)) (Q := fun _ _ => True) ?_ he rfl
  simp only [Fs.iputTest, wp_bind, wp_get, wp_ite]
  split
  · rename_i hone
    rw [hi.locked ip, hi.owner_none_of_one href hown hone.1.le]
    trivial
  · trivial

theorem Inv.agrees (href : 0 < (s.fs.itable ip).ref) (hv : (s.fs.itable ip).valid = true)
    (ho : s.owner ip = none) : (s.fs.itable ip).d = s.fs.dinode (s.fs.itable ip).inum := by
  refine (hi.sync ip href hv fun p hp => ?_).copy (hi.quiet ip ho)
  exact absurd (ho.symm.trans (hi.at_of hp).1) nofun

end Inv

/-! ## Entries without references -/

/-- A copy that nobody refers to is what is on disk. -/
def Settled (s : ItState N) : Prop :=
  ∀ ip, s.Old ip → (s.fs.itable ip).d = s.fs.dinode (s.fs.itable ip).inum

/-- The entry of an inode that somebody refers to is the only one that changes. -/
theorem Upd.old {x : Inode} {r : ℕ} {o : Option (Fin N)} {b : Bool} (h : Upd s s' p ip x r pc o b)
    (hx : 0 < x.ref) (hold : s'.Old jp) : s.Old jp ∧ s'.fs.itable jp = s.fs.itable jp := by
  have hne : jp ≠ ip := by
    rintro rfl
    rw [Old, h.entry_self] at hold
    omega
  rw [Old, h.entry_ne hne] at hold
  exact ⟨hold, h.entry_ne hne⟩

/-- An entry loses its last reference with nobody in the way. -/
theorem Inv.dec_agrees (hi : s.Inv) (hpc : s.pc p = .drop ip ∨ s.pc p = .idle ∧
      0 < s.refs p ip ∧ (s.owner ip = some p → 1 < s.refs p ip))
    (hlast : (s.fs.itable ip).ref - 1 = 0) (hv : (s.fs.itable ip).valid = true) :
    (s.fs.itable ip).d = s.fs.dinode (s.fs.itable ip).inum := by
  obtain ⟨href, hown⟩ : 0 < s.refs p ip ∧ (s.owner ip = some p → 1 < s.refs p ip) := by
    rcases hpc with hpc | ⟨-, hpc⟩
    · exact (hi.at_of hpc).imp_right fun hne ho => absurd ho hne
    · exact hpc
  exact hi.agrees (href.trans_le (hi.le_ref p ip)) hv
    (hi.owner_none_of_one href hown (by omega))

/-- A copy that nobody refers to was there before the step, or is what is on disk. -/
theorem ItMove.old (h : ItMove s p s') (hi : s.Inv) (hold : s'.Old jp) :
    (s.Old jp ∧ s'.fs.itable jp = s.fs.itable jp) ∨
      (s'.fs.itable jp).d = s'.fs.dinode (s'.fs.itable jp).inum := by
  cases h with
  | inc ip hpc href h hd => exact .inl (h.old (Nat.succ_pos _) hold)
  | recycle ip i hpc href hnot h hd => exact .inl (h.old Nat.one_pos hold)
  | dec ip hpc h hd =>
    by_cases hne : jp = ip
    · subst hne
      rw [Old, h.entry_self] at hold
      rw [h.entry_self, hd.dinode]
      exact .inr (hi.dec_agrees hpc hold.1 hold.2)
    · rw [Old, h.entry_ne hne] at hold
      exact .inl ⟨hold, h.entry_ne hne⟩
  | give ip q hpc href hown h =>
    subst h
    exact .inl ⟨hold, rfl⟩
  | ialloc i type hpc hfree htype h =>
    subst h
    exact .inl ⟨hold, rfl⟩
  | lock ip hpc hun href h hd => exact .inl (h.old (href.trans_le (hi.le_ref p ip)) hold)
  | check ip hpc href hone hv hlink hun h hd =>
    exact .inl (h.old (href.trans_le (hi.le_ref p ip)) hold)
  | unlock ip hpc hown hch h hd => exact .inl (h.old (hi.ref_pos hown) hold)
  | edit ip d hpc hown h hd => exact .inl (h.old (hi.ref_pos hown) hold)
  | iupdate ip hpc hown htype h hd => exact .inl (h.old (hi.ref_pos hown) hold)
  | loaded ip hpc hv h hd => exact .inl (h.old (hi.ref_pos (hi.at_of hpc).1) hold)
  | load ip hpc htype h hd => exact .inl (h.old (hi.ref_pos (hi.at_of hpc).1) hold)
  | trunc ip c d hpc htype hlink h hd =>
    exact .inl (h.old (hi.ref_pos (Frees.owner (hi.at_of hpc))) hold)
  | clear ip c hpc h hd => exact .inl (h.old (hi.ref_pos (Frees.owner (hi.at_of hpc))) hold)
  | unvalid ip hpc h hd => exact .inl (h.old (hi.ref_pos (hi.at_of hpc).1) hold)
  | release ip hpc h hd => exact .inl (h.old (hi.ref_pos (hi.at_of hpc).1) hold)

/-- A step that writes an inode to disk does not touch an entry without references. -/
theorem ItMove.old_entry (h : ItMove s p s') (hi : s.Inv) (hold : s.Old jp)
    (hne : s'.fs.dinode ≠ s.fs.dinode) : s'.fs.itable jp = s.fs.itable jp := by
  have hnot : ∀ {ip}, 0 < (s.fs.itable ip).ref → jp ≠ ip := fun hpos heq => by
    rw [← heq, hold.1] at hpos
    exact lt_irrefl _ hpos
  cases h with
  | iupdate ip hpc hown htype h hd => exact h.entry_ne (hnot (hi.ref_pos hown))
  | trunc ip c d hpc htype hlink h hd =>
    exact h.entry_ne (hnot (hi.ref_pos (Frees.owner (hi.at_of hpc))))
  | clear ip c hpc h hd => exact h.entry_ne (hnot (hi.ref_pos (Frees.owner (hi.at_of hpc))))
  | give ip q hpc href hown h => rw [h]; rfl
  | ialloc i type hpc hfree htype h => rw [h]; rfl
  | _ =>
    rename_i hd
    exact absurd hd.dinode hne

theorem reach_settled {dinode : ℕ → Dinode} {bitmap : ℕ → Bool} {data : ℕ → Bytes}
    (h : Machine.Reach (step L) (fun s l => s.Careful l ∧ s.Spares L l) (boot dinode bitmap data)
      s) : s.Inv ∧ s.Settled := by
  refine h.invariant (I := fun s => s.Inv ∧ s.Settled) ⟨boot_inv dinode bitmap data, nofun⟩
    fun s l s' hi hok hs => ?_
  have hm := move_of_step hok.1 hs
  refine ⟨hm.inv hi.1, fun ip hold => ?_⟩
  obtain ⟨hold, heq⟩ | hd := hm.old hi.1 hold
  · rw [heq, hok.2 s' hs ip hold]
    exact hi.2 ip hold
  · exact hd

/-! ## The result -/

/-- The type of an inode on disk is cleared only by an `iput` that frees the inode. -/
theorem ItMove.clear_of_type (h : ItMove s p s') (hi : s.Inv) {i : ℕ}
    (htype : (s.fs.dinode i).type ≠ .none) (htype' : (s'.fs.dinode i).type = .none) :
    ∃ ip c, s.pc p = .clear ip c ∧ (s.fs.itable ip).inum = i := by
  have hsame : ItSame s s' → False := fun hd => htype (by rw [← hd.dinode]; exact htype')
  -- a write of an inode with a type
  have hwrite : ∀ {ip : Fin NINODE} {d : Dinode} {m n : ℕ},
      Writes s s' (s.fs.itable ip).inum d m n → d.type ≠ .none → False := fun {ip d m n} hd ht => by
    rw [hd.dinode] at htype'
    by_cases hne : i = (s.fs.itable ip).inum
    · rw [hne, update_self] at htype'
      exact ht htype'
    · rw [update_of_ne hne] at htype'
      exact htype htype'
  cases h with
  | iupdate ip hpc hown ht h hd => exact (hwrite hd ht).elim
  | trunc ip c d hpc ht hlink h hd =>
    have hat : s.Frees p ip c := hi.at_of hpc
    have hs := hi.synced_of_frees hat (by rw [hpc]; nofun)
    exact (hwrite hd (ht.trans_ne (hs.type_ne hat.unchanged))).elim
  | clear ip c hpc h hd =>
    refine ⟨ip, c, hpc, ?_⟩
    by_contra hne
    rw [hd.dinode, update_of_ne (Ne.symm hne)] at htype'
    exact htype htype'
  | ialloc j type hpc hfree ht h =>
    subst h
    change (update s.fs.dinode j (.fresh type) i).type = .none at htype'
    by_cases hj : i = j
    · rw [hj, update_self] at htype'
      exact absurd htype' ht
    · rw [update_of_ne hj] at htype'
      exact absurd htype' htype
  | give ip q hpc href hown h =>
    subst h
    exact absurd htype' htype
  | _ =>
    rename_i hd
    exact (hsame hd).elim

/-- A process in a call only goes on. -/
theorem go_of_pc {a : ItAct N} (h : s.step L (p, a) = some s') (hpc : s.pc p ≠ .idle) :
    a = .go := by
  cases a with
  | go => rfl
  | _ => simp [step] at h

/-- After the inode is cleared, `iput` does not touch the disk. -/
theorem next_after_clear (hpc : pc = .unvalid ip ∨ pc = .release ip ∨ pc = .drop ip)
    (h : s.next L p pc = some s') : s'.fs.dinode = s.fs.dinode ∧ s'.fs.bitmap = s.fs.bitmap ∧
      s'.fs.data = s.fs.data := by
  rcases hpc with rfl | rfl | rfl <;> cases h <;> exact ⟨rfl, rfl, rfl⟩

end ItState

open ItState

/-- The first step that does not spare such a copy leaves an entry that is valid and not locked,
and does not agree with the disk. -/
theorem inode_table_old {N : ℕ} {L : FsLayout} {dinode : ℕ → Dinode} {bitmap : ℕ → Bool}
    {data : ℕ → Bytes} {s s' : ItState N} {l : Fin N × ItAct N}
    (h : Machine.Reach (step L) (fun s l => s.Careful l ∧ s.Spares L l) (boot dinode bitmap data)
      s) (hc : s.Careful l) (hs : s.step L l = some s') (hnot : ¬ s.Spares L l) :
    ∃ ip, (s'.fs.itable ip).valid = true ∧ (s'.fs.itable ip).locked = false ∧
      (s'.fs.itable ip).d ≠ s'.fs.dinode (s'.fs.itable ip).inum := by
  obtain ⟨hi, hset⟩ := reach_settled h
  simp only [Spares, hs, Option.some.injEq, forall_eq', not_forall] at hnot
  obtain ⟨ip, hold, hne⟩ := hnot
  have heq := (ItState.move_of_step hc hs).old_entry hi hold fun heq => hne (by rw [heq])
  refine ⟨ip, ?_⟩
  rw [heq, hset ip hold, hi.locked ip, hi.owner_none_of_ref hold.1]
  exact ⟨hold.2, rfl, Ne.symm hne⟩

theorem six_size : 20 < 2 ^ 32 := by decide

/-- A disk with six inodes. -/
def sixInodes : FsLayout := ⟨⟨0, 1, Nat.one_pos⟩, 20, 6, 1, 2, six_size⟩

/-- Process 0 frees inode 1, and before it drops its reference process 1 allocates the inode
again, gets it and reads it. -/
def freeAndAllocate : List (Fin 2 × ItAct 2) :=
  [(0, .iget 1), (0, .ilock ⟨0, NINODE_pos⟩), (0, .go), (0, .iunlock ⟨0, NINODE_pos⟩),
    (0, .iput ⟨0, NINODE_pos⟩), (0, .go), (0, .go), (1, .ialloc 1 .dir), (1, .go), (0, .go),
    (0, .go), (1, .ilock ⟨0, NINODE_pos⟩), (1, .go), (1, .iunlock ⟨0, NINODE_pos⟩)]

/-- Inode 1 is read into entry 1, which is then left, and into entry 0, where it is changed. -/
def readTwice : List (Fin 1 × ItAct 1) :=
  [(0, .iget 2), (0, .iget 1), (0, .ilock ⟨1, by decide⟩), (0, .go), (0, .iunlock ⟨1, by decide⟩),
    (0, .iput ⟨1, by decide⟩), (0, .iput ⟨0, by decide⟩), (0, .iget 1),
    (0, .ilock ⟨0, by decide⟩), (0, .go),
    (0, .edit ⟨0, by decide⟩ ⟨.file, 0, 0, 2, 0, fun _ => 0⟩ (fun _ => false) fun _ _ => 0),
    (0, .iupdate ⟨0, by decide⟩), (0, .iunlock ⟨0, by decide⟩)]

end Xv6
