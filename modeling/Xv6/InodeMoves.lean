import Xv6.InodeSteps

/-!
# What a step does to the inode table

`ItMove` lists the steps of `ItState.step`. Most of them are about one entry of the table and one
process (`Upd`), and leave the disk alone (`ItSame`) or write one inode (`Writes`).
-/

namespace Xv6

open Function Prog

namespace Fs

variable {L : FsLayout} {fs fs' : Fs} {ip : Fin NINODE}

/-- `itrunc` changes the size and the blocks of the inode. -/
def Trims (fs : Fs) (ip : Fin NINODE) (fs' : Fs) : Prop :=
  fs'.dinode = fs.dinode ∧ ∃ d : Dinode, d.type = (fs.itable ip).d.type ∧
    d.nlink = (fs.itable ip).d.nlink ∧ fs'.itable = update fs.itable ip { fs.itable ip with d := d }

theorem Trims.refl : fs.Trims ip fs := ⟨rfl, _, rfl, rfl, (update_eq_self _ _).symm⟩

theorem Trims.bfree {b : ℕ} (h : fs.Trims ip fs') :
    wp (fun _ => True) (bfree L b) (fun _ t => fs.Trims ip t) fs' := by
  simp only [Fs.bfree, log_write, wp_bind, wp_get, wp_ite]
  split
  · exact h
  · trivial

/-- The type and the links stay. -/
theorem Trims.setD {f : Dinode → Dinode} (h : fs.Trims ip fs') (htype : ∀ d, (f d).type = d.type)
    (hlink : ∀ d, (f d).nlink = d.nlink) : fs.Trims ip (fs'.setD ip f) := by
  obtain ⟨hd, d, ht, hl, htab⟩ := h
  refine ⟨hd, f d, (htype d).trans ht, (hlink d).trans hl, ?_⟩
  simp [Fs.setD, setInode, htab]

theorem Trims.truncDirect (h : fs.Trims ip fs') :
    wp (fun _ => True) (truncDirect L ip) (fun _ t => fs.Trims ip t) fs' := by
  refine wp_forUp (fun _ => fs.Trims ip) NDIRECT 0 (fun k t _ _ ht => ?_) h
  simp only [wp_bind, wp_get, wp_ite]
  split
  · exact ht
  · exact ht.bfree.mono fun _ t' ht' => ht'.setD (fun _ => rfl) fun _ => rfl

theorem Trims.truncIndirect (h : fs.Trims ip fs') :
    wp (fun _ => True) (truncIndirect L ip) (fun _ t => fs.Trims ip t) fs' := by
  simp only [Fs.truncIndirect, wp_bind, wp_get, wp_ite]
  split
  · exact h
  · refine (wp_forUp (fun _ => fs.Trims ip) NINDIRECT 0 (fun k t _ _ ht => ?_) h).mono ?_
    · simp only [wp_bind, wp_get, wp_ite]
      split
      · exact ht
      · exact ht.bfree
    · exact fun _ t ht => ht.bfree.bind fun _ t' ht' =>
        ht'.setD (fun _ => rfl) fun _ => rfl

/-- `itrunc` keeps the type and the links of the inode. -/
theorem itrunc_trims : wp (fun _ => True) (itrunc L ip) (fun _ t => ∃ d : Dinode,
    d.type = (fs.itable ip).d.type ∧ d.nlink = (fs.itable ip).d.nlink ∧
    t.itable = update fs.itable ip { fs.itable ip with d := d } ∧
    t.dinode = update fs.dinode (fs.itable ip).inum d) fs := by
  refine Trims.refl.truncDirect.bind fun _ t ht => ?_
  refine ht.truncIndirect.bind fun _ t ht => ?_
  obtain ⟨hd, d, htype, hlink, htab⟩ := ht.setD (f := fun d => { d with size := 0 })
    (fun _ => rfl) fun _ => rfl
  refine ⟨d, htype, hlink, htab, ?_⟩
  show update (t.setD ip fun d => { d with size := 0 }).dinode
    ((t.setD ip fun d => { d with size := 0 }).itable ip).inum
    ((t.setD ip fun d => { d with size := 0 }).itable ip).d = _
  rw [hd, htab, update_self]

/-- The lock is free when it is taken. -/
theorem lock_rule : wp (fun _ => True) (lock ip) (fun _ t => (fs.itable ip).locked = false ∧
    t = fs.setInode ip fun x => { x with locked := true }) fs := by
  simp only [lock, acquiresleep, wp_bind, wp_get, wp_ite]
  split
  · trivial
  split
  · trivial
  · rename_i hl
    exact ⟨Bool.eq_false_of_not_eq_true hl, rfl⟩

/-- A loaded inode is left alone, another is read and has a type. -/
theorem load_rule : wp (fun _ => True) (load L ip) (fun _ t => ((fs.itable ip).valid = true ∧
    t = fs) ∨ ((fs.dinode (fs.itable ip).inum).type ≠ .none ∧
      t = fs.setInode ip fun x => { x with d := fs.dinode x.inum, valid := true })) fs := by
  simp only [load, wp_bind, wp_get, wp_ite, wp_modify]
  split
  · rename_i hv
    exact .inl ⟨hv, rfl⟩
  split
  · trivial
  split
  · trivial
  · rename_i htype
    exact .inr ⟨htype, rfl⟩

theorem iunlock_rule : wp (fun _ => True) (iunlock ip) (fun _ t =>
    t = fs.setInode ip fun x => { x with locked := false }) fs := by
  simp only [iunlock, wp_bind, wp_get, wp_ite]
  split
  · rfl
  · trivial

/-- The lock of an inode that is to be freed is free. -/
theorem iputTest_rule : wp (fun _ => True) (iputTest ip) (fun free t =>
    (free = true ∧ ((fs.itable ip).ref = 1 ∧ (fs.itable ip).valid = true ∧
      (fs.itable ip).d.nlink = 0) ∧ (fs.itable ip).locked = false ∧
      t = fs.setInode ip fun x => { x with locked := true }) ∨
    (free = false ∧ t = fs.setInode ip fun x => { x with ref := x.ref - 1 })) fs := by
  simp only [iputTest, wp_bind, wp_get, wp_ite]
  split
  · rename_i hfree
    split
    · trivial
    · rename_i hl
      exact .inl ⟨rfl, hfree, Bool.eq_false_of_not_eq_true hl, rfl⟩
  · exact .inr ⟨rfl, rfl⟩

end Fs

namespace ItState

variable {N : ℕ} {L : FsLayout} {s s' : ItState N} {p q : Fin N} {ip jp : Fin NINODE}

/-! ## What a step does -/

theorem refs_self (f : Fin N → Fin NINODE → ℕ) (p : Fin N) (ip : Fin NINODE) :
    f = update f p (update (f p) ip (f p ip)) := by
  simp

/-- Of the table and the processes, only entry `ip` and process `p` are changed. -/
structure Upd (s s' : ItState N) (p : Fin N) (ip : Fin NINODE) (x : Inode) (r : ℕ) (pc : ItPc)
    (o : Option (Fin N)) (b : Bool) : Prop where
  itable : s'.fs.itable = update s.fs.itable ip x := by rfl
  refs : s'.refs = update s.refs p (update (s.refs p) ip r) := by first | rfl | exact refs_self ..
  pc : s'.pc = update s.pc p pc := by rfl
  owner : s'.owner = update s.owner ip o := by first | rfl | exact (update_eq_self ..).symm
  changed : s'.changed = update s.changed ip b := by first | rfl | exact (update_eq_self ..).symm

/-- What is on disk stays, and so does its history. -/
structure ItSame (s s' : ItState N) : Prop where
  dinode : s'.fs.dinode = s.fs.dinode := by rfl
  epoch : s'.epoch = s.epoch := by rfl
  truncs : s'.truncs = s.truncs := by rfl
  clears : s'.clears = s.clears := by rfl

/-- Inode `i` is written to disk as `d`. -/
structure Writes (s s' : ItState N) (i : ℕ) (d : Dinode) (truncs clears : ℕ) : Prop where
  dinode : s'.fs.dinode = update s.fs.dinode i d
  epoch : s'.epoch = s.epoch
  truncs : s'.truncs = update s.truncs i (s.truncs i + truncs)
  clears : s'.clears = update s.clears i (s.clears i + clears)

/-- The steps of process `p`. -/
inductive ItMove (s : ItState N) (p : Fin N) (s' : ItState N) : Prop
  /-- `iget` of an inode in the table, and `idup` -/
  | inc (ip : Fin NINODE) (hpc : s.pc p = .idle ∨ ∃ i, s.pc p = .fetch i)
      (href : 0 < (s.fs.itable ip).ref ∨ 0 < s.refs p ip)
      (h : Upd s s' p ip { s.fs.itable ip with ref := (s.fs.itable ip).ref + 1 }
        (s.refs p ip + 1) .idle (s.owner ip) (s.changed ip)) (hd : ItSame s s')
  /-- `iget` with an empty entry -/
  | recycle (ip : Fin NINODE) (i : ℕ) (hpc : s.pc p = .idle ∨ ∃ i, s.pc p = .fetch i)
      (href : (s.fs.itable ip).ref = 0)
      (hnot : ∀ jp, 0 < (s.fs.itable jp).ref → (s.fs.itable jp).inum ≠ i)
      (h : Upd s s' p ip { s.fs.itable ip with inum := i, ref := 1, valid := false }
        (s.refs p ip + 1) .idle (s.owner ip) (s.changed ip)) (hd : ItSame s s')
  /-- the end of `iput` -/
  | dec (ip : Fin NINODE) (hpc : s.pc p = .drop ip ∨ s.pc p = .idle ∧ 0 < s.refs p ip ∧
        (s.owner ip = some p → 1 < s.refs p ip))
      (h : Upd s s' p ip { s.fs.itable ip with ref := (s.fs.itable ip).ref - 1 }
        (s.refs p ip - 1) .idle (s.owner ip) (s.changed ip)) (hd : ItSame s s')
  | give (ip : Fin NINODE) (q : Fin N) (hpc : s.pc p = .idle) (href : 0 < s.refs p ip)
      (hown : s.owner ip = some p → 1 < s.refs p ip) (h : s' = (s.leave p ip).take q ip)
  | lock (ip : Fin NINODE) (hpc : s.pc p = .idle) (hun : (s.fs.itable ip).locked = false)
      (href : 0 < s.refs p ip)
      (h : Upd s s' p ip { s.fs.itable ip with locked := true } (s.refs p ip) (.load ip) (some p)
        (s.changed ip)) (hd : ItSame s s')
  /-- `ilock` of an inode whose copy is there -/
  | loaded (ip : Fin NINODE) (hpc : s.pc p = .load ip) (hv : (s.fs.itable ip).valid = true)
      (h : Upd s s' p ip (s.fs.itable ip) (s.refs p ip) .idle (s.owner ip) (s.changed ip))
      (hd : ItSame s s')
  | load (ip : Fin NINODE) (hpc : s.pc p = .load ip)
      (htype : (s.fs.dinode (s.fs.itable ip).inum).type ≠ .none)
      (h : Upd s s' p ip { s.fs.itable ip with
        d := s.fs.dinode (s.fs.itable ip).inum, valid := true } (s.refs p ip) .idle (s.owner ip)
        (s.changed ip)) (hd : ItSame s s')
  | unlock (ip : Fin NINODE) (hpc : s.pc p = .idle) (hown : s.owner ip = some p)
      (hch : s.changed ip = false)
      (h : Upd s s' p ip { s.fs.itable ip with locked := false } (s.refs p ip) .idle none
        (s.changed ip)) (hd : ItSame s s')
  | edit (ip : Fin NINODE) (d : Dinode) (hpc : s.pc p = .idle) (hown : s.owner ip = some p)
      (h : Upd s s' p ip { s.fs.itable ip with d := d } (s.refs p ip) .idle (s.owner ip) true)
      (hd : ItSame s s')
  | iupdate (ip : Fin NINODE) (hpc : s.pc p = .idle) (hown : s.owner ip = some p)
      (htype : (s.fs.itable ip).d.type ≠ .none)
      (h : Upd s s' p ip (s.fs.itable ip) (s.refs p ip) .idle (s.owner ip) false)
      (hd : Writes s s' (s.fs.itable ip).inum (s.fs.itable ip).d 0 0)
  /-- `iput` decides to free the inode -/
  | check (ip : Fin NINODE) (hpc : s.pc p = .idle) (href : 0 < s.refs p ip)
      (hone : (s.fs.itable ip).ref = 1) (hv : (s.fs.itable ip).valid = true)
      (hlink : (s.fs.itable ip).d.nlink = 0) (hun : (s.fs.itable ip).locked = false)
      (h : Upd s s' p ip { s.fs.itable ip with locked := true } (s.refs p ip)
        (.trunc ip (s.check p ip)) (some p) (s.changed ip)) (hd : ItSame s s')
  | trunc (ip : Fin NINODE) (c : Check) (d : Dinode) (hpc : s.pc p = .trunc ip c)
      (htype : d.type = (s.fs.itable ip).d.type) (hlink : d.nlink = (s.fs.itable ip).d.nlink)
      (h : Upd s s' p ip { s.fs.itable ip with d := d } (s.refs p ip) (.clear ip c) (s.owner ip)
        (s.changed ip)) (hd : Writes s s' (s.fs.itable ip).inum d 1 0)
  | clear (ip : Fin NINODE) (c : Check) (hpc : s.pc p = .clear ip c)
      (h : Upd s s' p ip { s.fs.itable ip with d := { (s.fs.itable ip).d with type := .none } }
        (s.refs p ip) (.unvalid ip) (s.owner ip) (s.changed ip))
      (hd : Writes s s' (s.fs.itable ip).inum { (s.fs.itable ip).d with type := .none } 0 1)
  | unvalid (ip : Fin NINODE) (hpc : s.pc p = .unvalid ip)
      (h : Upd s s' p ip { s.fs.itable ip with valid := false } (s.refs p ip) (.release ip)
        (s.owner ip) (s.changed ip)) (hd : ItSame s s')
  | release (ip : Fin NINODE) (hpc : s.pc p = .release ip)
      (h : Upd s s' p ip { s.fs.itable ip with locked := false } (s.refs p ip) (.drop ip) none
        (s.changed ip)) (hd : ItSame s s')
  | ialloc (i : ℕ) (type : FileType) (hpc : s.pc p = .idle)
      (hfree : (s.fs.dinode i).type = .none) (htype : type ≠ .none)
      (h : s' = (s.allocated i type).goto p (.fetch i))

/-- What a function of `Fs` that returned has done. -/
theorem act_some {α : Type} {m : FsM α} {k : α → ItState N → ItState N} {Q : α → Fs → Prop}
    (h : s.act m k = some s') (hw : wp (fun _ => True) m Q s.fs) :
    ∃ a fs, Q a fs ∧ s' = k a { s with fs := fs } := by
  unfold act at h
  split at h
  · rename_i a fs hm
    exact ⟨a, fs, hw.ok hm, (Option.some.inj h).symm⟩
  · cases h

theorem goto_self {pc : ItPc} (h : s.pc p = pc) : s.goto p pc = s := by
  subst h
  simp [goto]

/-- `iget` is one move. -/
theorem move_of_iget {i : ℕ} (hpc : s.pc p = .idle ∨ ∃ i, s.pc p = .fetch i)
    (h : s.act (Fs.iget i) (fun ip s => (s.take p ip).goto p .idle) = some s') : ItMove s p s' := by
  have hw : wp (fun _ => True) (Fs.iget i) (fun ip fs =>
      (0 < (s.fs.itable ip).ref ∧ fs = s.fs.setInode ip fun x => { x with ref := x.ref + 1 }) ∨
      ((∀ q, 0 < (s.fs.itable q).ref → (s.fs.itable q).inum ≠ i) ∧ (s.fs.itable ip).ref = 0 ∧
        fs = s.fs.setInode ip fun x => { x with inum := i, ref := 1, valid := false })) s.fs :=
    Fs.iget_rule (fun ip href _ => .inl ⟨href, rfl⟩) (fun hnot ip href => .inr ⟨hnot, href, rfl⟩)
      fun _ => trivial
  obtain ⟨ip, fs, hfs, rfl⟩ := act_some h hw
  rcases hfs with ⟨href, rfl⟩ | ⟨hnot, href, rfl⟩
  · exact .inc ip hpc (.inl href) {} {}
  · exact .recycle ip i hpc href hnot {} {}

/-- A call that starts is one move. -/
theorem move_of_call {a : ItAct N} (hpc : s.pc p = .idle) (hc : s.Careful (p, a))
    (h : s.call L p a = some s') : ItMove s p s' := by
  have hidle : s.pc = update s.pc p .idle := by rw [← hpc, update_eq_self]
  cases a with
  | iget i =>
    refine move_of_iget (i := i) (.inl hpc) (h ▸ ?_)
    simp only [call, act]
    split
    · exact congrArg some (goto_self hpc)
    · rfl
  | idup ip =>
    simp only [call] at h
    obtain ⟨_, fs, rfl, rfl⟩ := act_some h (Q := fun _ fs => fs = s.fs.setInode ip fun x =>
      { x with ref := x.ref + 1 }) rfl
    exact .inc ip (.inl hpc) (.inr hc) { pc := hidle } {}
  | give q ip => exact .give ip q hpc hc.1 hc.2 (Option.some.inj h).symm
  | ilock ip =>
    simp only [call] at h
    obtain ⟨_, fs, ⟨hun, rfl⟩, rfl⟩ := act_some h Fs.lock_rule
    exact .lock ip hpc hun hc {} {}
  | iunlock ip =>
    simp only [call] at h
    split at h
    · rename_i hown
      obtain ⟨_, fs, rfl, rfl⟩ := act_some h Fs.iunlock_rule
      exact .unlock ip hpc hown hc { pc := hidle } {}
    · cases h
  | edit ip d bitmap data =>
    cases h
    exact .edit ip d hpc hc { pc := hidle } {}
  | iupdate ip =>
    simp only [call] at h
    obtain ⟨_, fs, ⟨htab, hd⟩, rfl⟩ := act_some h (Q := fun _ fs => fs.itable = s.fs.itable ∧
      fs.dinode = update s.fs.dinode (s.fs.itable ip).inum (s.fs.itable ip).d) ⟨rfl, rfl⟩
    exact .iupdate ip hpc hc.1 hc.2 { itable := by simp [setChanged, htab], pc := hidle }
      ⟨hd, rfl, by simp [setChanged], by simp [setChanged]⟩
  | iput ip =>
    simp only [call] at h
    obtain ⟨free, fs, hfs, rfl⟩ := act_some h Fs.iputTest_rule
    rcases hfs with ⟨rfl, ⟨hone, hv, hlink⟩, hun, rfl⟩ | ⟨rfl, rfl⟩
    · exact .check ip hpc hc.1 hone hv hlink hun {} {}
    · exact .dec ip (.inr ⟨hpc, hc⟩) { pc := hidle } {}
  | ialloc i type =>
    simp only [call] at h
    split at h
    · rename_i hfree
      exact .ialloc i type hpc hfree.2.2 hc (Option.some.inj h).symm
    · cases h
  | go => cases h

/-- So is each later part of it. -/
theorem move_of_next (h : s.next L p (s.pc p) = some s') : ItMove s p s' := by
  cases hpc : s.pc p with
  | idle =>
    rw [hpc] at h
    cases h
  | load ip =>
    rw [hpc, next] at h
    obtain ⟨_, fs, hfs, rfl⟩ := act_some h Fs.load_rule
    rcases hfs with ⟨hv, rfl⟩ | ⟨htype, rfl⟩
    · exact .loaded ip hpc hv { itable := by simp [goto] } {}
    · exact .load ip hpc htype {} {}
  | fetch i =>
    rw [hpc] at h
    exact move_of_iget (.inr ⟨i, hpc⟩) h
  | trunc ip c =>
    rw [hpc, next] at h
    obtain ⟨_, fs, ⟨d, htype, hlink, htab, hd⟩, rfl⟩ := act_some h Fs.itrunc_trims
    exact .trunc ip c d hpc htype hlink { itable := htab }
      ⟨hd, rfl, rfl, by simp [countTrunc, goto]⟩
  | clear ip c =>
    rw [hpc, next] at h
    obtain ⟨_, fs, ⟨htab, hd⟩, rfl⟩ := act_some h (Q := fun _ fs =>
      fs.itable = update s.fs.itable ip
        { s.fs.itable ip with d := { (s.fs.itable ip).d with type := .none } } ∧
      fs.dinode = update s.fs.dinode (s.fs.itable ip).inum
        { (s.fs.itable ip).d with type := .none }) (by
        simp [Fs.clearType, Fs.iupdate, Fs.log_write, Fs.setD, Fs.setInode])
    exact .clear ip c hpc { itable := htab }
      ⟨hd, rfl, by simp [countClear, goto], rfl⟩
  | unvalid ip =>
    rw [hpc, next] at h
    obtain ⟨_, fs, rfl, rfl⟩ := act_some h (Q := fun _ fs => fs = s.fs.setInode ip fun x =>
      { x with valid := false }) rfl
    exact .unvalid ip hpc {} {}
  | release ip =>
    rw [hpc, next] at h
    obtain ⟨_, fs, rfl, rfl⟩ := act_some h (Q := fun _ fs => fs = s.fs.setInode ip fun x =>
      { x with locked := false }) rfl
    exact .release ip hpc {} {}
  | drop ip =>
    rw [hpc, next] at h
    obtain ⟨_, fs, rfl, rfl⟩ := act_some h (Q := fun _ fs => fs = s.fs.setInode ip fun x =>
      { x with ref := x.ref - 1 }) rfl
    exact .dec ip (.inl hpc) {} {}

/-- Every step is a move. -/
theorem move_of_step {l : Fin N × ItAct N} (hc : s.Careful l) (h : s.step L l = some s') :
    ItMove s l.1 s' := by
  obtain ⟨p, a⟩ := l
  cases a with
  | go => exact move_of_next h
  | _ =>
    simp only [step] at h
    split at h
    · rename_i hpc
      exact move_of_call hpc hc h
    · cases h

end ItState

end Xv6
