import Xv6.LogDisk

/-!
# Crashes and recovery

The log makes operations atomic : when `recover_from_log` has completed, after a crash at
any step and any number of crashes during recovery, the home blocks on disk are the initial
ones with the writes of exactly the committed groups applied, and every operation is there
with all it logged or with nothing (`recovery_restores_committed`).

`LogView` is what the argument is about : the disk, the two headers, the pinned blocks and
what was logged. In every state the disk is `Recoverable` : the log has the contents as of
the last commit of the blocks that the header on disk names, and the other home blocks are
in place. Every write of `write_log`, `write_head` and `install_trans` keeps this for a
reason of its own, and the phases `Idle`, `Writing`, `Installing`, `Recovering`, `Clearing`
and `Booting` say what the reason needs. With an empty header, as at the end of recovery,
it says that all home blocks are in place. A system that does not crash needs the log only for
the blocks that are still to be installed (`Origin.crash`).

What the committing process knows of its buffers (`CommitPt.Inv`) survives the steps of the
processes that read meanwhile. No operation runs while it commits (`LogFs.Control`), so the
writes of an operation are all in one group (`LogFs.Atomic`).
-/

namespace Xv6

open Function

variable {N NB : ℕ}

/-! ## Groups of writes -/

@[simp] theorem groups_concat (h : List LogEvent) (e : LogEvent) :
    groups (h ++ [e]) = (groups h).next e := by
  simp [groups]

@[simp] theorem writes_concat (h : List LogEvent) (e : LogEvent) :
    writes (h ++ [e]) = writes h ++ e.write?.toList := by
  cases e <;> simp [writes, LogEvent.write?]

theorem applyWrites_concat (d : ℕ → Block) (ws : List LogWrite) (w : LogWrite) :
    applyWrites d (ws ++ [w]) = update (applyWrites d ws) w.blockno w.data := by
  simp [applyWrites]

/-! ## What recovery relies on -/

/-- The part of the state that commit and recovery are about. -/
structure LogView where
  disk : ℕ → Block
  /-- `log.lh.block[0..log.lh.n)` -/
  block : List ℕ
  pins : List ℕ
  todo : List ℕ
  hist : List LogEvent

def LogFs.logView (s : LogFs N NB) : LogView :=
  ⟨s.disk, s.log.block, s.pins, s.todo, s.hist⟩

/-- What the blocks were at the start, and whether the system may crash. -/
structure Origin where
  disk : ℕ → Block
  crash : Prop

namespace LogView

variable (sb : Superblock) (d₀ : Origin) (v : LogView)

/-- The contents of the blocks as of the last commit. -/
def base : ℕ → Block := applyWrites d₀.disk (groups v.hist).done

/-- The contents of the blocks as last logged. -/
def cur : ℕ → Block := applyWrites d₀.disk ((groups v.hist).done ++ (groups v.hist).current)

/-- What `bread` should return. -/
def view (b : ℕ) : Block := if sb.Home b then v.cur d₀ b else v.disk b

/-- The blocks named by the header on disk. -/
def header : List ℕ := (v.disk sb.logstart).header

/-- Block `b` is written to disk. -/
def write (b : ℕ) (d : Block) : LogView :=
  { v with disk := update v.disk b d, todo := v.todo.erase b }

theorem header_write {b : ℕ} (d : Block) (h : b ≠ sb.logstart) :
    (v.write b d).header sb = v.header sb := by
  simp only [header, write, update_of_ne h.symm]

/-- The disk and the header on it determine the blocks as of the last commit. -/
structure Recoverable : Prop where
  nodup : (v.header sb).Nodup
  home : ∀ b ∈ v.header sb, sb.Home b
  short : (v.header sb).length < sb.nlog
  /-- the log has the contents of the blocks the header names, as far as they are needed -/
  logged : ∀ {i b}, (v.header sb)[i]? = some b → d₀.crash ∨ b ∈ v.pins ∨ b ∈ v.todo →
    v.disk (sb.logstart + i + 1) = v.base d₀ b
  /-- the other blocks are in place -/
  installed : ∀ {b}, sb.Home b → b ∉ v.header sb → v.disk b = v.base d₀ b
  /-- nothing is logged between a commit and the end of its installation -/
  closed : v.header sb ≠ [] → (groups v.hist).current = []

/-- The header in memory. -/
structure BlockOk : Prop where
  nodup : v.block.Nodup
  home : ∀ b ∈ v.block, sb.Home b
  short : v.block.length < sb.nlog

/-! The phases between one commit and the next, and of recovery. -/

def Idle : Prop := v.header sb = [] ∧ v.pins = v.block ∧ v.todo = []

/-- `write_log` has copied `k` blocks. -/
def Writing (k : ℕ) : Prop :=
  v.header sb = [] ∧ v.pins = v.block ∧ v.todo = [] ∧ v.block ≠ [] ∧
    ∀ {i b}, i < k → v.block[i]? = some b → v.disk (sb.logstart + i + 1) = v.cur d₀ b

/-- `install_trans(0)` has installed and unpinned `k` blocks. -/
def Installing (k : ℕ) : Prop :=
  v.header sb = v.block ∧ v.pins = v.block.drop k ∧ v.todo = []

/-- `install_trans(1)` has installed `k` blocks. -/
def Recovering (k : ℕ) : Prop :=
  v.header sb = v.block ∧ v.pins = [] ∧ v.todo = v.block.drop k

/-- Everything is installed, and the header on disk is to be cleared. -/
def Clearing : Prop := v.block = [] ∧ v.pins = [] ∧ v.todo = []

/-- Before `read_head`. -/
def Booting : Prop := v.block = [] ∧ v.pins = [] ∧ v.todo = v.header sb

end LogView

/-! ## Points of commit and recovery -/

/-- `p` is at stage `st` with buffer `i`, which has block `b`. -/
def Cache.At {B : Type*} (c : Cache N NB B) (p : Fin N) (i : Fin NB) (b : ℕ) (st : Stage) : Prop :=
  c.refs p i = some st ∧ (c.buf i).blockno = some b

section Points

variable (sb : Superblock) (d₀ : Origin) (c : Cache N NB Block) (v : LogView) (p : Fin N)

def CopyPass.Progress (k : ℕ) : CopyPass → Prop
  | .write_log => v.Writing sb d₀ k
  | .install_trans false => v.Installing sb k
  | .install_trans true => v.Recovering sb k

def HeadPass.Before : HeadPass → Prop
  | .read => v.Booting sb
  | .commit => v.Writing sb d₀ v.block.length
  | .clear => v.Clearing

def HeadPass.After : HeadPass → Prop
  | .read => v.Recovering sb 0
  | .commit => v.Installing sb 0
  | .clear => v.Idle sb

/-- How many blocks the loop is through with. -/
def CopyPt.count (tail : ℕ) : CopyPt NB → ℕ
  | .unlockSrc _ _ | .dropSrc _ _ | .unlockDst _ | .dropDst _ => tail + 1
  | _ => tail

/-- The buffers of an iteration over log block `l` and home block `h`. -/
def CopyPt.Bufs (pass : CopyPass) (l h : ℕ) : CopyPt NB → Prop
  | .test | .getLog => True
  | .lockLog x => c.At p x l .waiting
  | .loadLog x => c.At p x l .locked
  | .getHome x => c.At p x l .ready
  | .lockHome x y => c.At p x l .ready ∧ c.At p y h .waiting
  | .loadHome x y => c.At p x l .ready ∧ c.At p y h .locked
  | .memmove x y => c.At p x l .ready ∧ c.At p y h .ready
  | .bwrite src dst => c.At p src (pass.src l h) .ready ∧ c.At p dst (pass.dst l h) .dirty ∧
      (c.buf dst).data = v.cur d₀ h
  | .bunpin src dst => c.At p src (pass.src l h) .ready ∧ c.At p dst (pass.dst l h) .ready ∧
      pass = .install_trans false ∧ v.disk h = v.cur d₀ h
  | .unlockSrc src dst => c.At p src (pass.src l h) .ready ∧ c.At p dst (pass.dst l h) .ready
  | .dropSrc src dst => c.At p src (pass.src l h) .releasing ∧ c.At p dst (pass.dst l h) .ready
  | .unlockDst dst => c.At p dst (pass.dst l h) .ready
  | .dropDst dst => c.At p dst (pass.dst l h) .releasing

def CopyPt.Inv (pass : CopyPass) (tail : ℕ) (pt : CopyPt NB) : Prop :=
  pass.Progress sb d₀ v (pt.count tail) ∧ (pt = .test ∨
    ∃ h, v.block[tail]? = some h ∧ pt.Bufs d₀ c v p pass (sb.logstart + tail + 1) h)

def HeadPt.Inv (pass : HeadPass) : HeadPt NB → Prop
  | .get => pass.Before sb d₀ v
  | .lock x => pass.Before sb d₀ v ∧ c.At p x sb.logstart .waiting
  | .load x => pass.Before sb d₀ v ∧ c.At p x sb.logstart .locked
  | .body x => pass.Before sb d₀ v ∧ c.At p x sb.logstart .ready
  | .bwrite x => pass.Before sb d₀ v ∧ c.At p x sb.logstart .dirty ∧ pass ≠ .read ∧
      (c.buf x).data.header = v.block
  | .unlock x => pass.After sb v ∧ c.At p x sb.logstart .ready
  | .drop x => pass.After sb v ∧ c.At p x sb.logstart .releasing

def CommitPt.Inv : CommitPt NB → Prop
  | .test => v.Idle sb
  | .copy pass tail pt => pt.Inv sb d₀ c v p pass tail
  | .head pass pt => pt.Inv sb d₀ c v p pass
  | .done => v.Idle sb

/-- What holds at every point. -/
structure Core : Prop where
  ok : c.Ok v.pins
  agrees : c.Agrees v.disk (v.view sb d₀) v.pins v.todo
  recoverable : v.Recoverable sb d₀
  block : v.BlockOk sb

end Points

/-! ## Steps that leave the log alone -/

section

variable {sb : Superblock} {d₀ : Origin} {c c' : Cache N NB Block} {v : LogView}
  {p q : Fin N} {i j x y : Fin NB} {b b' l h : ℕ} {st st' : Stage}

theorem Cache.At.keep (ha : c.At p i b st) (hk : c.Keeps c' p i) : c'.At p i b st :=
  ⟨(hk ha.1).1, (hk ha.1).2.1.trans ha.2⟩

theorem Cache.At.data_keep (ha : c.At p i b st) (hk : c.Keeps c' p i) (hst : st.holds = true) :
    (c'.buf i).data = (c.buf i).data :=
  (hk ha.1).2.2 hst

theorem Cache.At.ne (ha : c.At p x b st) (hb : c.At q y b' st') (hne : b ≠ b') : x ≠ y := by
  rintro rfl
  exact hne (Option.some.inj (ha.2.symm.trans hb.2))

theorem CopyPt.Bufs.keep {pass : CopyPass} {pt : CopyPt NB} (hb : pt.Bufs d₀ c v p pass l h)
    (hk : ∀ i, c.Keeps c' p i) : pt.Bufs d₀ c' v p pass l h := by
  cases pt
  case test => trivial
  case getLog => trivial
  case lockLog => exact Cache.At.keep hb (hk _)
  case loadLog => exact Cache.At.keep hb (hk _)
  case getHome => exact Cache.At.keep hb (hk _)
  case bwrite =>
    exact ⟨hb.1.keep (hk _), hb.2.1.keep (hk _), (hb.2.1.data_keep (hk _) rfl).trans hb.2.2⟩
  case bunpin => exact ⟨hb.1.keep (hk _), hb.2.1.keep (hk _), hb.2.2⟩
  case unlockDst => exact Cache.At.keep hb (hk _)
  case dropDst => exact Cache.At.keep hb (hk _)
  all_goals exact ⟨hb.1.keep (hk _), hb.2.keep (hk _)⟩

theorem HeadPt.Inv.keep {pass : HeadPass} {pt : HeadPt NB} (hb : pt.Inv sb d₀ c v p pass)
    (hk : ∀ i, c.Keeps c' p i) : pt.Inv sb d₀ c' v p pass := by
  cases pt
  case get => exact hb
  case bwrite =>
    refine ⟨hb.1, hb.2.1.keep (hk _), hb.2.2.1, ?_⟩
    rw [hb.2.1.data_keep (hk _) rfl]
    exact hb.2.2.2
  all_goals exact ⟨hb.1, hb.2.keep (hk _)⟩

/-- What a point knows survives the steps of the others. -/
theorem CommitPt.Inv.keep {pt : CommitPt NB} (hb : pt.Inv sb d₀ c v p)
    (hk : ∀ i, c.Keeps c' p i) : pt.Inv sb d₀ c' v p := by
  cases pt with
  | test => exact hb
  | copy pass tail pt =>
    exact ⟨hb.1, hb.2.imp id fun ⟨h, hh, hbufs⟩ => ⟨h, hh, hbufs.keep hk⟩⟩
  | head pass pt => exact HeadPt.Inv.keep hb hk
  | done => exact hb

theorem Core.move (hc : Core sb d₀ c v) (hm : CacheMove v.disk c p i c') : Core sb d₀ c' v :=
  ⟨hm.ok hc.ok, hm.agrees hc.ok hc.agrees, hc.recoverable, hc.block⟩

theorem Core.modify {d : Block} (hc : Core sb d₀ c v) (hm : c.modify p i d = some c') :
    Core sb d₀ c' v :=
  ⟨hc.ok.modify hm, hc.agrees.modify hm, hc.recoverable, hc.block⟩

theorem Cache.At.move {disk : ℕ → Block} {pins : List ℕ} (ha : c.At p i b st)
    (hm : CacheMove disk c p i c') (ho : c.Ok pins) (hr : c'.refs p i = some st') :
    c'.At p i b st' := by
  refine ⟨hr, ?_⟩
  rcases hm.blockno_self ho with hb | ⟨_, _, h0, _⟩
  · exact hb.trans ha.2
  · exact absurd (ha.1.symm.trans (ho.refs_none h0)) (by simp)

theorem Cache.At.ne_bget {pins : List ℕ} (ha : c.At p x b st) (ho : c.Ok pins)
    (hget : c.bget p b' = some (c', i)) : x ≠ i := by
  rintro rfl
  simpa [ho.bget_fresh hget] using ha.1

/-- A log block is not a home block, so its buffer is another one. -/
theorem Core.log_ne_home (hc : Core sb d₀ c v) {tail : ℕ} (hh : v.block[tail]? = some h) :
    ¬ sb.Home (sb.logstart + tail + 1) ∧ sb.Home h := by
  obtain ⟨hlt, rfl⟩ := List.getElem?_eq_some_iff.mp hh
  have hshort := hc.block.short
  refine ⟨?_, hc.block.home _ (List.getElem_mem hlt)⟩
  unfold Superblock.Home
  omega

theorem ne_of_home (hl : ¬ sb.Home l) (hh : sb.Home h) : l ≠ h := fun he => hl (he ▸ hh)

theorem Superblock.not_home_logstart (sb : Superblock) : ¬ sb.Home sb.logstart := by
  have := sb.pos
  unfold Superblock.Home
  omega

end

/-! ## Steps of the committing process -/

section Commit

variable (sb : Superblock) (d₀ : Origin)

/-- A step of the process `p` that commits or recovers, to the point `pt`. -/
structure Advances (s : LogFs N NB) (p : Fin N) (s' : LogFs N NB) (pt : CommitPt NB) : Prop where
  pc : s'.pc = update s.pc p (.commit pt)
  core : Core sb d₀ s'.cache s'.logView
  inv : pt.Inv sb d₀ s'.cache s'.logView p
  outstanding : s'.log.outstanding = s.log.outstanding
  committing : s'.log.committing = s.log.committing
  size : s'.log.size = s.log.size
  up : s'.up = s.up
  ops : s'.ops = s.ops
  hist : s'.hist = s.hist ∨ s'.hist = s.hist ++ [.commit]
  todo : s.todo = [] → s'.todo = []

variable {sb d₀} {s s' : LogFs N NB} {p : Fin N} {pass : CopyPass} {tail : ℕ} {i x y : Fin NB}
  {c' : Cache N NB Block} {pt : CommitPt NB} {l h : ℕ}

theorem Advances.of_cached (hc : Core sb d₀ c' s.logView) (hi : pt.Inv sb d₀ c' s.logView p) :
    Advances sb d₀ s p (s.cached p pt c') pt :=
  ⟨rfl, hc, hi, rfl, rfl, rfl, rfl, rfl, .inl rfl, id⟩

theorem Advances.of_goto (hc : Core sb d₀ s.cache s.logView)
    (hi : pt.Inv sb d₀ s.cache s.logView p) : Advances sb d₀ s p (s.goto p (.commit pt)) pt :=
  ⟨rfl, hc, hi, rfl, rfl, rfl, rfl, rfl, .inl rfl, id⟩

theorem LogFs.bwrite_eq {b : ℕ} (hw : s.bwrite p i = some s')
    (hb : (s.cache.buf i).blockno = some b) :
    s' = { s with
      disk := update s.disk b (s.cache.buf i).data
      cache := s.cache.settle p i
      todo := s.todo.erase b } := by
  unfold LogFs.bwrite at hw
  split at hw
  · simpa [hb] using hw.symm
  · cases hw

variable {c : Cache N NB Block} {v : LogView} {d : Block}

/-- `bwrite` of a block of the log area, or of a home block with its contents. -/
theorem Core.bwrite {v' : LogView} {d₁ : Origin} {b : ℕ} (hc : Core sb d₀ c v)
    (hr : c.refs p i = some .ready ∨ c.refs p i = some .dirty) (hb : (c.buf i).blockno = some b)
    (hhome : sb.Home b → (c.buf i).data = v'.cur d₁ b)
    (hdisk : v'.disk = update v.disk b (c.buf i).data)
    (hcur : ∀ b', b' ≠ b → v'.cur d₁ b' = v.cur d₀ b') (hpins : v'.pins = v.pins)
    (htodo : v'.todo = v.todo.erase b) (hblock : v'.block = v.block)
    (hrec : v'.Recoverable sb d₁) : Core sb d₁ (c.settle p i) v' := by
  have hview : ∀ b', b' ≠ b → v'.view sb d₁ b' = v.view sb d₀ b' := fun b' hne => by
    simp only [LogView.view, hcur b' hne, hdisk, update_of_ne hne]
  have hself : (c.buf i).data = v'.view sb d₁ b := by
    unfold LogView.view
    split
    · exact hhome ‹_›
    · rw [hdisk, update_self]
  refine ⟨hpins ▸ hc.ok.settle hr, ?_, hrec, ?_⟩
  · refine hc.agrees.settle hc.ok hb hself hview (fun b' hne => by rw [hdisk, update_of_ne hne])
      (fun _ _ => hpins ▸ id) (fun b' hne hmem => ?_) fun _ => ?_
    · rw [htodo]
      exact (List.mem_erase_of_ne hne).2 hmem
    · rw [hdisk, update_self, hself]
  · exact ⟨hblock ▸ hc.block.nodup, hblock ▸ hc.block.home, hblock ▸ hc.block.short⟩

/-- With an empty header all blocks are in place. -/
theorem LogView.Recoverable.of_empty (hempty : v.header sb = [])
    (hdisk : ∀ b, sb.Home b → v.disk b = v.base d₀ b) : v.Recoverable sb d₀ := by
  constructor <;> simp only [hempty]
  · exact List.nodup_nil
  · simp
  · exact sb.pos
  · simp
  · exact fun hb _ => hdisk _ hb
  · simp

/-- Writing a block of the log while the header on disk is empty. -/
theorem LogView.Recoverable.write_log (hr : v.Recoverable sb d₀) (hempty : v.header sb = [])
    (hl : ¬ sb.Home l) (hne : l ≠ sb.logstart) : (v.write l d).Recoverable sb d₀ := by
  refine .of_empty ((v.header_write sb d hne).trans hempty) fun b hb => ?_
  simp only [LogView.write, update_of_ne (ne_of_home hl hb).symm]
  exact hr.installed hb (by simp [hempty])

/-- Installing a block that the header names. -/
theorem LogView.Recoverable.install (hr : v.Recoverable sb d₀) (hmem : h ∈ v.header sb) :
    (v.write h d).Recoverable sb d₀ := by
  have hhome := hr.home h hmem
  have hheader : (v.write h d).header sb = v.header sb :=
    v.header_write sb d (ne_of_home sb.not_home_logstart hhome).symm
  constructor <;> simp only [hheader]
  · exact hr.nodup
  · exact hr.home
  · exact hr.short
  · intro i b hi hneed
    have hlog : ¬ sb.Home (sb.logstart + i + 1) := by
      have hlt : i < (v.header sb).length := (List.getElem?_eq_some_iff.mp hi).1
      have hshort := hr.short
      unfold Superblock.Home
      omega
    simp only [LogView.write, update_of_ne (ne_of_home hlog hhome)]
    exact hr.logged hi (hneed.imp_right (Or.imp_right List.mem_of_mem_erase))
  · intro b hb hnot
    have hne : b ≠ h := fun he => hnot (he ▸ hmem)
    simp only [LogView.write, update_of_ne hne]
    exact hr.installed hb hnot
  · exact hr.closed

theorem drop_eq_cons {L : List ℕ} {k b : ℕ} (hb : L[k]? = some b) :
    L.drop k = b :: L.drop (k + 1) := by
  obtain ⟨hk, rfl⟩ := List.getElem?_eq_some_iff.mp hb
  exact List.drop_eq_getElem_cons hk

theorem CopyPass.src_ne_dst (pass : CopyPass) (hlog : ¬ sb.Home l) (hhome : sb.Home h) :
    pass.src l h ≠ pass.dst l h := by
  cases pass with
  | write_log => exact (ne_of_home hlog hhome).symm
  | install_trans => exact ne_of_home hlog hhome

/-- The write of the header commits the group : the disk and the log have its blocks. -/
theorem LogView.Recoverable.commit (hc : Core sb d₀ c v) (hw : v.Writing sb d₀ v.block.length)
    (hd : d.header = v.block) :
    LogView.Recoverable sb d₀ { v.write sb.logstart d with hist := v.hist ++ [.commit] } := by
  obtain ⟨hempty, hpins, htodo, hne, hlogged⟩ := hw
  have hheader : LogView.header sb { v.write sb.logstart d with hist := v.hist ++ [.commit] } =
      v.block := by
    simp [LogView.header, LogView.write, hd]
  have hbase : LogView.base d₀ { v.write sb.logstart d with hist := v.hist ++ [.commit] } =
      v.cur d₀ := by
    simp [LogView.base, LogView.cur, Groups.next]
  constructor <;> simp only [hheader, hbase]
  · exact hc.block.nodup
  · exact hc.block.home
  · exact hc.block.short
  · intro i b hb _
    have hstart : sb.logstart + i + 1 ≠ sb.logstart := by omega
    simp only [LogView.write, update_of_ne hstart]
    exact hlogged (List.getElem?_eq_some_iff.mp hb).1 hb
  · intro b hb hnot
    have hstart := (ne_of_home sb.not_home_logstart hb).symm
    simp only [LogView.write, update_of_ne hstart]
    rw [hc.agrees.stored (hpins ▸ hnot) (by simp [htodo]), LogView.view, if_pos hb]
  · simp [Groups.next]

/-- The write of an empty header ends the installation : all blocks are in place. -/
theorem LogView.Recoverable.clear (hc : Core sb d₀ c v) (hw : v.Clearing)
    (hd : d.header = v.block) :
    (v.write sb.logstart d).Recoverable sb d₀ := by
  obtain ⟨hblock, hpins, htodo⟩ := hw
  have hr := hc.recoverable
  refine .of_empty (by simp [LogView.header, LogView.write, hd, hblock]) fun b hb => ?_
  have hstart := (ne_of_home sb.not_home_logstart hb).symm
  simp only [LogView.write, update_of_ne hstart]
  by_cases hempty : v.header sb = []
  · exact hr.installed hb (by simp [hempty])
  · have hclosed := hr.closed hempty
    rw [hc.agrees.stored (by simp [hpins]) (by simp [htodo]), LogView.view, if_pos hb,
      LogView.cur, hclosed, List.append_nil]
    rfl

variable (hc : Core sb d₀ s.cache s.logView)

include hc

/-- What the loops copy : the block as last logged. `write_log` reads it from the cache and
`install_trans` from the log. -/
theorem CopyPass.source (hp : pass.Progress sb d₀ s.logView tail) (hh : s.log.block[tail]? = some h)
    (hx : s.cache.At p x (sb.logstart + tail + 1) .ready) (hy : s.cache.At p y h .ready) :
    (s.cache.buf (pass.src x y)).data = s.logView.cur d₀ h := by
  obtain ⟨hlog, hhome⟩ := hc.log_ne_home hh
  have hmem : h ∈ s.logView.block := List.mem_of_getElem? hh
  have hdrop : h ∈ s.logView.block.drop tail := by
    rw [drop_eq_cons (L := s.logView.block) hh]
    exact List.mem_cons_self
  have hinstall : s.logView.header sb = s.logView.block → sb.logstart + tail + 1 ∉ s.logView.todo →
      (h ∈ s.logView.pins ∨ h ∈ s.logView.todo) →
      (s.cache.buf x).data = s.logView.cur d₀ h := by
    intro heq htodo hneed
    have hclosed := hc.recoverable.closed (by rw [heq]; exact List.ne_nil_of_mem hmem)
    have hdata := hc.agrees.clean hx.2 (hc.ok.valid (.inl hx.1)) (hc.ok.not_dirty hx.1) htodo
    rw [hdata, LogView.view, if_neg hlog,
      hc.recoverable.logged (by rw [heq]; exact hh) (.inr hneed),
      LogView.base, LogView.cur, hclosed, List.append_nil]
  match pass, hp with
  | .write_log, hp =>
    have hdata := hc.agrees.clean hy.2 (hc.ok.valid (.inl hy.1)) (hc.ok.not_dirty hy.1)
      (by rw [hp.2.2.1]; simp)
    rw [CopyPass.src, hdata, LogView.view, if_pos hhome]
  | .install_trans false, hp =>
    exact hinstall hp.1 (by rw [hp.2.2]; simp) (.inl (hp.2.1 ▸ hdrop))
  | .install_trans true, hp =>
    refine hinstall hp.1 (fun hmem' => hlog (hc.block.home _ ?_)) (.inr (hp.2.2 ▸ hdrop))
    rw [hp.2.2] at hmem'
    exact List.mem_of_mem_drop hmem'

/-- The test of the loop : on its end `write_log` is followed by `write_head`, and
`install_trans` by `log.lh.n = 0` and `write_head`. -/
theorem copy_test (hp : pass.Progress sb d₀ s.logView tail)
    (hs : s.copyStep sb p pass tail .test = some s') : ∃ pt, Advances sb d₀ s p s' pt := by
  simp only [LogFs.copyStep] at hs
  split at hs
  · rename_i hlt
    cases hs
    exact ⟨_, .of_goto hc ⟨hp, .inr ⟨_, List.getElem?_eq_getElem hlt, trivial⟩⟩⟩
  · rename_i hge
    have hlen : s.logView.block.length ≤ tail := not_lt.mp hge
    match pass, hp with
    | .write_log, hp =>
      cases hs
      exact ⟨_, .of_goto hc ⟨hp.1, hp.2.1, hp.2.2.1, hp.2.2.2.1, fun hi =>
        hp.2.2.2.2 (hi.trans_le hlen)⟩⟩
    | .install_trans r, hp =>
      have hnil : s.pins = [] ∧ s.todo = [] := by
        match r, hp with
        | false, hp => exact ⟨hp.2.1.trans (List.drop_of_length_le hlen), hp.2.2⟩
        | true, hp => exact ⟨hp.2.1, hp.2.2.trans (List.drop_of_length_le hlen)⟩
      cases hs
      refine ⟨_, rfl, ⟨hc.ok, hc.agrees, ?_, ?_⟩, ⟨rfl, hnil⟩, rfl, rfl, rfl, rfl, rfl, .inl rfl,
        id⟩
      · have hr := hc.recoverable
        exact ⟨hr.nodup, hr.home, hr.short, hr.logged, hr.installed, hr.closed⟩
      · exact ⟨List.nodup_nil, by simp [LogFs.logView, LogFs.goto], sb.pos⟩

theorem copy_memmove (hi : (CopyPt.memmove x y).Inv sb d₀ s.cache s.logView p pass tail)
    (hs : s.copyStep sb p pass tail (.memmove x y) = some s') :
    ∃ pt, Advances sb d₀ s p s' pt := by
  obtain ⟨hp, hi⟩ := hi
  obtain ⟨h, hh, hx, hy⟩ := hi.resolve_left (by simp)
  obtain ⟨hlog, hhome⟩ := hc.log_ne_home hh
  simp only [LogFs.copyStep] at hs
  obtain ⟨c', hm, rfl⟩ := Option.map_eq_some_iff.mp hs
  have hsrc : s.cache.At p (pass.src x y) (pass.src (sb.logstart + tail + 1) h) .ready := by
    cases pass <;> assumption
  have hdst : s.cache.At p (pass.dst x y) (pass.dst (sb.logstart + tail + 1) h) .ready := by
    cases pass <;> assumption
  have hne := hsrc.ne hdst (CopyPass.src_ne_dst pass hlog hhome)
  refine ⟨_, .of_cached (hc.modify hm) ⟨hp, .inr ⟨h, hh, ?_, ?_, ?_⟩⟩⟩
  · exact hsrc.keep (Cache.modify_keeps hc.ok hm (.inr hne))
  · obtain ⟨-, rfl⟩ := Cache.modify_eq_some hm
    exact ⟨by simp, by simpa using hdst.2⟩
  · obtain ⟨-, rfl⟩ := Cache.modify_eq_some hm
    simpa using CopyPass.source hc hp hh hx hy

theorem copy_bwrite (hi : (CopyPt.bwrite x y).Inv sb d₀ s.cache s.logView p pass tail)
    (hs : s.copyStep sb p pass tail (.bwrite x y) = some s') :
    ∃ pt, Advances sb d₀ s p s' pt := by
  obtain ⟨hp, hi⟩ := hi
  obtain ⟨h, hh, hsrc, hdst, hdata⟩ := hi.resolve_left (by simp)
  obtain ⟨hlog, hhome⟩ := hc.log_ne_home hh
  have hmem : h ∈ s.logView.block := List.mem_of_getElem? hh
  have hne := hsrc.ne hdst (CopyPass.src_ne_dst pass hlog hhome)
  have hstart : h ≠ sb.logstart := (ne_of_home sb.not_home_logstart hhome).symm
  have herase : ∀ {b}, s.todo = [] → s.todo.erase b = [] := fun h => by simp [h]
  simp only [LogFs.copyStep] at hs
  obtain ⟨s₁, hw, rfl⟩ := Option.map_eq_some_iff.mp hs
  rw [LogFs.bwrite_eq hw hdst.2]
  have hsrc' : (s.cache.settle p y).At p x (pass.src (sb.logstart + tail + 1) h) .ready :=
    hsrc.keep (Cache.settle_keeps (.inr hne))
  have hdst' : (s.cache.settle p y).At p y (pass.dst (sb.logstart + tail + 1) h) .ready :=
    ⟨by simp [Cache.settle], hdst.2⟩
  cases pass with
  | write_log =>
    refine ⟨.copy .write_log tail (.unlockSrc x y), rfl, ?_, ⟨?_, .inr ⟨h, hh, hsrc', hdst'⟩⟩,
      rfl, rfl, rfl, rfl, rfl, .inl rfl, herase⟩
    · refine hc.bwrite (.inr hdst.1) hdst.2 (fun hl => absurd hl hlog) rfl (fun _ _ => rfl) rfl rfl
        rfl ?_
      exact hc.recoverable.write_log hp.1 hlog (by simp only [CopyPass.dst]; omega)
    · refine ⟨?_, hp.2.1, ?_, hp.2.2.2.1, fun {i b} hlt hb => ?_⟩
      · exact (s.logView.header_write sb _ (by simp only [CopyPass.dst]; omega)).trans hp.1
      · exact herase hp.2.2.1
      · by_cases hit : i = tail
        · subst hit
          obtain rfl := Option.some.inj (hh.symm.trans hb)
          simp only [LogFs.logView, LogFs.goto, CopyPass.dst, update_self]
          exact hdata
        · have hblk : sb.logstart + i + 1 ≠ sb.logstart + tail + 1 := by omega
          simp only [LogFs.logView, LogFs.goto, CopyPass.dst, update_of_ne hblk]
          simp only [CopyPt.count] at hlt
          exact hp.2.2.2.2 (by simp only [CopyPt.count]; omega) hb
  | install_trans recovering =>
    have hnamed : s.logView.header sb = s.logView.block := by cases recovering <;> exact hp.1
    have hheader := (s.logView.header_write sb (s.cache.buf y).data hstart).trans hnamed
    have hcore : Core sb d₀ (s.cache.settle p y) (s.logView.write h (s.cache.buf y).data) :=
      hc.bwrite (.inr hdst.1) hdst.2 (fun _ => hdata) rfl (fun _ _ => rfl) rfl rfl rfl
        (hc.recoverable.install (hnamed ▸ hmem))
    cases recovering with
    | false =>
      refine ⟨.copy (.install_trans false) tail (.bunpin x y), rfl, hcore, ⟨⟨hheader, hp.2.1,
        herase hp.2.2⟩, .inr ⟨h, hh, hsrc', hdst', rfl, ?_⟩⟩, rfl, rfl, rfl, rfl, rfl, .inl rfl,
        herase⟩
      simp only [LogFs.logView, LogFs.goto, CopyPass.dst, update_self]
      exact hdata
    | true =>
      have htodo : s.todo = h :: s.log.block.drop (tail + 1) := hp.2.2.trans (drop_eq_cons hh)
      refine ⟨.copy (.install_trans true) tail (.unlockSrc x y), rfl, hcore, ⟨⟨hheader, hp.2.1, ?_⟩,
        .inr ⟨h, hh, hsrc', hdst'⟩⟩, rfl, rfl, rfl, rfl, rfl, .inl rfl, herase⟩
      simp [LogFs.logView, LogFs.goto, htodo, CopyPass.dst, CopyPt.count]

theorem copy_bunpin (hi : (CopyPt.bunpin x y).Inv sb d₀ s.cache s.logView p pass tail)
    (hs : s.copyStep sb p pass tail (.bunpin x y) = some s') :
    ∃ pt, Advances sb d₀ s p s' pt := by
  obtain ⟨hp, hi⟩ := hi
  obtain ⟨h, hh, hsrc, hdst, rfl, hdisk⟩ := hi.resolve_left (by simp)
  obtain ⟨hlog, hhome⟩ := hc.log_ne_home hh
  have hpins : s.pins = h :: s.log.block.drop (tail + 1) := hp.2.1.trans (drop_eq_cons hh)
  have hnot : h ∉ s.log.block.drop (tail + 1) := by
    have hnodup : (s.log.block.drop tail).Nodup := hc.block.nodup.sublist (List.drop_sublist _ _)
    exact (List.nodup_cons.mp ((drop_eq_cons hh) ▸ hnodup)).1
  have hb : (s.cache.buf y).blockno = some h := hdst.2
  simp only [LogFs.copyStep, hb, Option.map_some, hpins, List.erase_cons_head] at hs
  cases hs
  refine ⟨.copy (.install_trans false) tail (.unlockSrc x y), rfl, ⟨?_, ?_, ?_, ?_⟩,
    ⟨⟨hp.1, rfl, hp.2.2⟩, .inr ⟨h, hh, hsrc.keep Cache.repin_keeps, hdst.keep Cache.repin_keeps⟩⟩,
    rfl, rfl, rfl, rfl, rfl, .inl rfl, id⟩
  · have hok : s.cache.Ok (h :: s.log.block.drop (tail + 1)) := hpins ▸ hc.ok
    exact hok.bunpin hb hnot
  · refine hc.agrees.repin fun b hmem htodo => ?_
    by_cases hbh : b = h
    · rw [hbh]
      exact hdisk.trans (by simp [LogView.view, hhome])
    · refine hc.agrees.stored (fun hmem' => hmem ?_) htodo
      have hcons : b ∈ h :: s.log.block.drop (tail + 1) := hpins ▸ hmem'
      exact (List.mem_cons.mp hcons).resolve_left hbh
  · have hr := hc.recoverable
    refine ⟨hr.nodup, hr.home, hr.short, fun hi hneed => hr.logged hi ?_, hr.installed, hr.closed⟩
    refine hneed.imp_right (Or.imp_left fun hmem => ?_)
    show _ ∈ s.pins
    rw [hpins]
    exact List.mem_cons_of_mem h hmem
  · exact ⟨hc.block.nodup, hc.block.home, hc.block.short⟩

/-- A step of the loop with buffer `i` only. -/
theorem copy_cached {pt : CopyPt NB} (hp : pass.Progress sb d₀ s.logView (pt.count tail))
    (hh : s.log.block[tail]? = some h) (hm : CacheMove s.disk s.cache p i c')
    (hbufs : pt.Bufs d₀ c' s.logView p pass (sb.logstart + tail + 1) h) :
    ∃ pt', Advances sb d₀ s p (s.cached p (.copy pass tail pt) c') pt' :=
  ⟨_, .of_cached (hc.move hm) ⟨hp, .inr ⟨h, hh, hbufs⟩⟩⟩

/-- Each step of `write_log` and `install_trans` leads to what the next point needs. -/
theorem copyStep_advances {pt : CopyPt NB} (hi : pt.Inv sb d₀ s.cache s.logView p pass tail)
    (hs : s.copyStep sb p pass tail pt = some s') : ∃ pt', Advances sb d₀ s p s' pt' := by
  by_cases htest : pt = .test
  · subst htest
    exact copy_test hc hi.1 hs
  have hwhole := hi
  obtain ⟨hp, hi⟩ := hi
  obtain ⟨h, hh, hbufs⟩ := hi.resolve_left htest
  obtain ⟨hlog, hhome⟩ := hc.log_ne_home hh
  have hne := CopyPass.src_ne_dst pass hlog hhome
  cases pt with
  | test => exact absurd rfl htest
  | getLog =>
    obtain ⟨c', x, rfl, hm, hb, hr, hget⟩ := move_of_bget s.disk hs
    exact copy_cached hc hp hh hm ⟨hr, hb⟩
  | lockLog x =>
    obtain ⟨c', rfl, hm, hr⟩ := move_of_acquiresleep s.disk hs
    exact copy_cached hc hp hh hm (Cache.At.move hbufs hm hc.ok hr)
  | loadLog x =>
    obtain ⟨c', rfl, hm, hr⟩ := move_of_load hs
    exact copy_cached hc hp hh hm (Cache.At.move hbufs hm hc.ok hr)
  | getHome x =>
    have hblock : s.log.block[tail]? = some h := hh
    simp only [LogFs.copyStep, hblock, Option.bind_some] at hs
    obtain ⟨c', y, rfl, hm, hb, hr, hget⟩ := move_of_bget s.disk hs
    have hxy := Cache.At.ne_bget hbufs hc.ok hget
    exact copy_cached hc hp hh hm ⟨Cache.At.keep hbufs (hm.keeps hc.ok (.inr hxy)), hr, hb⟩
  | lockHome x y =>
    obtain ⟨c', rfl, hm, hr⟩ := move_of_acquiresleep s.disk hs
    have hxy := hbufs.1.ne hbufs.2 (ne_of_home hlog hhome)
    exact copy_cached hc hp hh hm
      ⟨hbufs.1.keep (hm.keeps hc.ok (.inr hxy)), hbufs.2.move hm hc.ok hr⟩
  | loadHome x y =>
    obtain ⟨c', rfl, hm, hr⟩ := move_of_load hs
    have hxy := hbufs.1.ne hbufs.2 (ne_of_home hlog hhome)
    exact copy_cached hc hp hh hm
      ⟨hbufs.1.keep (hm.keeps hc.ok (.inr hxy)), hbufs.2.move hm hc.ok hr⟩
  | memmove x y => exact copy_memmove hc hwhole hs
  | bwrite src dst => exact copy_bwrite hc hwhole hs
  | bunpin src dst => exact copy_bunpin hc hwhole hs
  | unlockSrc src dst =>
    obtain ⟨c', rfl, hm, hr⟩ := move_of_releasesleep s.disk hs
    have hsd := hbufs.1.ne hbufs.2 hne
    exact copy_cached hc hp hh hm
      ⟨hbufs.1.move hm hc.ok hr, hbufs.2.keep (hm.keeps hc.ok (.inr hsd.symm))⟩
  | dropSrc src dst =>
    obtain ⟨c', rfl, hm⟩ := move_of_drop s.disk hs
    have hsd := hbufs.1.ne hbufs.2 hne
    exact copy_cached hc hp hh hm (hbufs.2.keep (hm.keeps hc.ok (.inr hsd.symm)))
  | unlockDst dst =>
    obtain ⟨c', rfl, hm, hr⟩ := move_of_releasesleep s.disk hs
    exact copy_cached hc hp hh hm (Cache.At.move hbufs hm hc.ok hr)
  | dropDst dst =>
    obtain ⟨c', rfl, hm⟩ := move_of_drop s.disk hs
    exact ⟨_, .of_cached (hc.move hm) ⟨hp, .inl rfl⟩⟩

/-- `read_head` reads the header of the disk. -/
theorem head_read (hi : (HeadPt.body x).Inv sb d₀ s.cache s.logView p .read)
    (hs : s.headStep sb p .read (.body x) = some s') : ∃ pt, Advances sb d₀ s p s' pt := by
  obtain ⟨⟨-, hpins, htodo⟩, hx⟩ := hi
  have hr := hc.recoverable
  have hnot : sb.logstart ∉ s.logView.todo := fun hmem =>
    sb.not_home_logstart (hr.home _ (htodo ▸ hmem))
  have hdata : (s.cache.buf x).data = s.disk sb.logstart := by
    rw [hc.agrees.clean hx.2 (hc.ok.valid (.inl hx.1)) (hc.ok.not_dirty hx.1) hnot,
      LogView.view, if_neg sb.not_home_logstart]
    rfl
  simp only [LogFs.headStep, hdata] at hs
  cases hs
  refine ⟨.head .read (.unlock x), rfl, ⟨hc.ok, hc.agrees, ?_, ?_⟩, ⟨⟨rfl, hpins, htodo⟩, hx⟩,
    rfl, rfl, rfl, rfl, rfl, .inl rfl, id⟩
  · exact ⟨hr.nodup, hr.home, hr.short, hr.logged, hr.installed, hr.closed⟩
  · exact ⟨hr.nodup, hr.home, hr.short⟩

theorem head_bwrite {pass : HeadPass} (hi : (HeadPt.bwrite x).Inv sb d₀ s.cache s.logView p pass)
    (hs : s.headStep sb p pass (.bwrite x) = some s') : ∃ pt, Advances sb d₀ s p s' pt := by
  obtain ⟨hbefore, hx, hread, hd⟩ := hi
  simp only [LogFs.headStep] at hs
  obtain ⟨s₁, hw, rfl⟩ := Option.map_eq_some_iff.mp hs
  rw [LogFs.bwrite_eq hw hx.2]
  have hx' : (s.cache.settle p x).At p x sb.logstart .ready := ⟨by simp [Cache.settle], hx.2⟩
  have hheader : ∀ h, LogView.header sb { s.logView.write sb.logstart (s.cache.buf x).data with
      hist := h } = s.log.block := fun h => by
    simp only [LogView.header, LogView.write, update_self]
    exact hd
  have htodo : s.todo = [] → s.todo.erase sb.logstart = [] := fun h => by simp [h]
  have hhome : ∀ {d}, sb.Home sb.logstart → (s.cache.buf x).data = d :=
    fun h => absurd h sb.not_home_logstart
  cases pass with
  | commit =>
    have hn : 0 < s.log.n := List.length_pos_iff.mpr hbefore.2.2.2.1
    simp only [hn, if_true]
    refine ⟨.head .commit (.unlock x), rfl, ?_,
      ⟨⟨hheader _, hbefore.2.1, htodo hbefore.2.2.1⟩, hx'⟩, rfl, rfl, rfl, rfl, rfl, .inr rfl,
      htodo⟩
    refine hc.bwrite (.inr hx.1) hx.2 hhome rfl (fun _ _ => ?_) rfl rfl rfl (.commit hc hbefore hd)
    simp [LogView.cur, LogFs.logView, LogFs.goto, Groups.next]
  | clear =>
    have hn : s.log.n = 0 := List.length_eq_zero_iff.mpr hbefore.1
    simp only [hn, lt_irrefl, if_false]
    refine ⟨.head .clear (.unlock x), rfl, ?_, ⟨⟨(hheader _).trans hbefore.1, ?_,
      htodo hbefore.2.2⟩, hx'⟩, rfl, rfl, rfl, rfl, rfl, .inl rfl, htodo⟩
    · exact hc.bwrite (.inr hx.1) hx.2 hhome rfl (fun _ _ => rfl) rfl rfl rfl
        (.clear hc hbefore hd)
    · exact hbefore.2.1.trans hbefore.1.symm
  | read => exact absurd rfl hread

/-- Each step of `read_head` and `write_head` leads to what the next point needs. -/
theorem headStep_advances {pass : HeadPass} {pt : HeadPt NB}
    (hi : pt.Inv sb d₀ s.cache s.logView p pass) (hs : s.headStep sb p pass pt = some s') :
    ∃ pt', Advances sb d₀ s p s' pt' := by
  cases pt with
  | get =>
    obtain ⟨c', x, rfl, hm, hb, hr, hget⟩ := move_of_bget s.disk hs
    exact ⟨_, .of_cached (hc.move hm) ⟨hi, hr, hb⟩⟩
  | lock x =>
    obtain ⟨c', rfl, hm, hr⟩ := move_of_acquiresleep s.disk hs
    exact ⟨_, .of_cached (hc.move hm) ⟨hi.1, hi.2.move hm hc.ok hr⟩⟩
  | load x =>
    obtain ⟨c', rfl, hm, hr⟩ := move_of_load hs
    exact ⟨_, .of_cached (hc.move hm) ⟨hi.1, hi.2.move hm hc.ok hr⟩⟩
  | body x =>
    by_cases hread : pass = .read
    · subst hread
      exact head_read hc hi hs
    · have hmod : (s.cache.modify p x ((s.cache.buf x).data.setHeader s.log.block)).map
          (s.cached p (.head pass (.bwrite x))) = some s' := by
        cases pass <;> simp_all [LogFs.headStep]
      obtain ⟨c', hm, rfl⟩ := Option.map_eq_some_iff.mp hmod
      refine ⟨_, .of_cached (hc.modify hm) ?_⟩
      obtain ⟨-, rfl⟩ := Cache.modify_eq_some hm
      exact ⟨hi.1, ⟨by simp, by simpa using hi.2.2⟩, hread, by simp [LogFs.logView]⟩
  | bwrite x => exact head_bwrite hc hi hs
  | unlock x =>
    obtain ⟨c', rfl, hm, hr⟩ := move_of_releasesleep s.disk hs
    exact ⟨_, .of_cached (hc.move hm) ⟨hi.1, hi.2.move hm hc.ok hr⟩⟩
  | drop x =>
    obtain ⟨c', rfl, hm⟩ := move_of_drop s.disk hs
    refine ⟨_, .of_cached (hc.move hm) ?_⟩
    cases pass with
    | read => exact ⟨hi.1, .inl rfl⟩
    | commit => exact ⟨hi.1, .inl rfl⟩
    | clear => exact hi.1

end Commit

/-! ## Steps of the operations -/

section System

variable (sb : Superblock) (d₀ : Origin)

/-- Who is doing what : the count of operations is kept, a process that commits is the only
one and runs while there is no operation. -/
structure LogFs.Control (s : LogFs N NB) : Prop where
  size : s.log.size = sb.nlog
  count : s.log.outstanding = ∑ p, (s.pc p).inOp
  no_op : ∀ {p pt}, s.pc p = .commit pt → ∀ q o, s.pc q ≠ .op o
  committing : ∀ {p pt}, s.pc p = .commit pt → s.up = true → s.log.committing = true
  only : ∀ {p pt}, s.pc p = .commit pt → ∀ {q pt'}, s.pc q = .commit pt' → q = p

structure LogFs.Inv (s : LogFs N NB) : Prop where
  core : Core sb d₀ s.cache s.logView
  control : s.Control sb
  idle : (∀ p pt, s.pc p ≠ .commit pt) → s.logView.Idle sb
  point : ∀ {p pt}, s.pc p = .commit pt → pt.Inv sb d₀ s.cache s.logView p

variable {sb d₀} {s s' : LogFs N NB} {p q : Fin N} {i : Fin NB} {c' : Cache N NB Block}
  {pt : CommitPt NB} {b o : ℕ}

/-- A step that changes the cache, but nothing that the process that commits relies on. -/
theorem LogFs.Inv.of_cache (hi : s.Inv sb d₀) (hc : Core sb d₀ c' s.logView)
    (hk : ∀ {p pt}, s.pc p = .commit pt → ∀ i, s.cache.Keeps c' p i) :
    LogFs.Inv sb d₀ { s with cache := c' } where
  core := hc
  control := ⟨hi.control.size, hi.control.count, hi.control.no_op, hi.control.committing,
    hi.control.only⟩
  idle := hi.idle
  point hp := (hi.point hp).keep (hk hp)

theorem LogFs.Inv.of_move (hi : s.Inv sb d₀) (hq : (s.pc q).client = true)
    (hm : CacheMove s.disk s.cache q i c') : LogFs.Inv sb d₀ { s with cache := c' } := by
  refine hi.of_cache (hi.core.move hm) fun {p pt} hp j => hm.keeps hi.core.ok (.inl ?_)
  rintro rfl
  simp [hp, FsPc.client] at hq

theorem Core.log_write {c : Cache N NB Block} {v : LogView} (hc : Core sb d₀ c v)
    (hidle : v.Idle sb) (hr : c.refs p i = some .ready ∨ c.refs p i = some .dirty)
    (hb : (c.buf i).blockno = some b) (hhome : sb.Home b) (hfit : v.block.length < sb.nlog - 1)
    (v' : LogView) (hdisk : v'.disk = v.disk) (htodo : v'.todo = v.todo)
    (hblock : v'.block = if b ∈ v.block then v.block else v.block ++ [b])
    (hpins : v'.pins = if b ∈ v.block then v.pins else v.pins ++ [b])
    (hhist : v'.hist = v.hist ++ [.write ⟨o, b, (c.buf i).data⟩]) :
    Core sb d₀ (if b ∈ v.block then c.settle p i else (c.settle p i).bpin i) v' ∧ v'.Idle sb := by
  obtain ⟨hempty, hpin, htodo'⟩ := hidle
  have hcur : v'.cur d₀ = update (v.cur d₀) b (c.buf i).data := by
    simp only [LogView.cur, hhist, groups_concat, Groups.next, ← List.append_assoc,
      applyWrites_concat]
  have hheader : v'.header sb = [] := by
    rw [LogView.header, hdisk]
    exact hempty
  have hbpins : b ∈ v'.pins := by
    rw [hpins, hpin]
    split
    · assumption
    · simp
  have hview : ∀ b', b' ≠ b → v'.view sb d₀ b' = v.view sb d₀ b' := fun b' hne => by
    simp only [LogView.view, hcur, hdisk, update_of_ne hne]
  have hagrees : (c.settle p i).Agrees v'.disk (v'.view sb d₀) v'.pins v'.todo := by
    refine hc.agrees.settle hc.ok hb ?_ hview (fun b' _ => by rw [hdisk]) (fun b' _ hmem => ?_)
      (fun b' _ => htodo ▸ id) fun hnot => absurd hbpins hnot
    · simp [LogView.view, hhome, hcur]
    · rw [hpins]
      split
      · exact hmem
      · exact List.mem_append_left _ hmem
  refine ⟨⟨?_, ?_, ?_, ?_⟩, hheader, ?_, htodo.trans htodo'⟩
  · rw [hpins]
    split
    · exact hc.ok.settle hr
    · rename_i hnew
      have hv : ((c.settle p i).buf i).valid = true := hc.ok.valid hr
      exact (hc.ok.settle hr).bpin hb hv (hpin ▸ hnew)
  · split
    · exact hagrees
    · exact hagrees.repin fun _ => hagrees.stored
  · have hbase : v'.base d₀ = v.base d₀ := by
      simp [LogView.base, hhist, Groups.next]
    refine .of_empty hheader fun b hb => ?_
    rw [hdisk, hbase]
    exact hc.recoverable.installed hb (by simp [hempty])
  · have hbk := hc.block
    constructor <;> rw [hblock] <;> split
    · exact hbk.nodup
    · exact List.nodup_append.mpr ⟨hbk.nodup, by simp, by
        rintro a ha _ hb' rfl
        simp_all⟩
    · exact hbk.home
    · rintro a ha
      rcases List.mem_append.mp ha with ha | ha
      · exact hbk.home a ha
      · obtain rfl := List.mem_singleton.mp ha
        exact hhome
    · exact hbk.short
    · rw [List.length_append, List.length_singleton]
      omega
  · rw [hpins, hblock, hpin]

theorem LogFs.Control.of_none (hsize : s.log.size = sb.nlog)
    (hcount : s.log.outstanding = ∑ p, (s.pc p).inOp) (hnone : ∀ p pt, s.pc p ≠ .commit pt) :
    s.Control sb :=
  ⟨hsize, hcount, fun hp => absurd hp (hnone _ _), fun hp => absurd hp (hnone _ _),
    fun hp => absurd hp (hnone _ _)⟩

/-- After a step of `q`, only `q` may be committing if no other process was. -/
theorem update_commit {pc : Fin N → FsPc NB} {x : FsPc NB}
    (hothers : ∀ p pt, p ≠ q → pc p ≠ .commit pt) (h : update pc q x p = .commit pt) :
    p = q ∧ x = .commit pt := by
  by_cases hp : p = q
  · rw [hp, update_self] at h
    exact ⟨hp, h⟩
  · rw [update_of_ne hp] at h
    exact absurd h (hothers p pt hp)

/-- A step of the process that commits keeps it the only one. -/
theorem LogFs.Inv.of_advances (hi : s.Inv sb d₀) (hq : s.pc q = .commit pt) {pt' : CommitPt NB}
    (ha : Advances sb d₀ s q s' pt') : s'.Inv sb d₀ := by
  have hctl := hi.control
  have hsame : ∀ {p pt₁}, s'.pc p = .commit pt₁ → p = q ∧ pt₁ = pt' := by
    intro p pt₁ hp
    rw [ha.pc] at hp
    obtain ⟨rfl, hx⟩ := update_commit (fun _ _ hne hp => hne (hctl.only hq hp)) hp
    exact ⟨rfl, (FsPc.commit.inj hx).symm⟩
  refine ⟨ha.core, ⟨ha.size.trans hctl.size, ?_, ?_, ?_, ?_⟩, ?_, ?_⟩
  · have hsum := Machine.sum_update_add FsPc.inOp s.pc q (.commit pt')
    rw [ha.outstanding, hctl.count, ha.pc]
    simp only [hq, FsPc.inOp_commit] at hsum
    omega
  · intro p pt₁ hp q' o hq'
    rw [ha.pc] at hq'
    by_cases hqq : q' = q
    · simp [hqq] at hq'
    · rw [update_of_ne hqq] at hq'
      exact hctl.no_op hq q' o hq'
  · intro p pt₁ _ hup
    rw [ha.committing]
    exact hctl.committing hq (ha.up ▸ hup)
  · intro p pt₁ hp q' pt₂ hq'
    rw [(hsame hp).1, (hsame hq').1]
  · intro hnone
    exact absurd (by rw [ha.pc, update_self]) (hnone q pt')
  · intro p pt₁ hp
    obtain ⟨rfl, rfl⟩ := hsame hp
    exact ha.inv

/-- The process that commits or recovers leaves with the log at rest. -/
theorem LogFs.Inv.of_done (hi : s.Inv sb d₀) (hq : s.pc q = .commit .done)
    (hcache : s'.cache = s.cache) (hview : s'.logView = s.logView)
    (hpc : s'.pc = update s.pc q .user) (hout : s'.log.outstanding = s.log.outstanding)
    (hsize : s'.log.size = s.log.size) : s'.Inv sb d₀ := by
  have hnone : ∀ p pt, s'.pc p ≠ .commit pt := by
    intro p pt hp
    rw [hpc] at hp
    cases (update_commit (fun _ _ hne hp => hne (hi.control.only hq hp)) hp).2
  refine ⟨hcache ▸ hview ▸ hi.core, .of_none (hsize.trans hi.control.size) ?_ hnone,
    fun _ => hview ▸ hi.point hq, fun hp => absurd hp (hnone _ _)⟩
  have hsum := Machine.sum_update_add FsPc.inOp s.pc q .user
  rw [hout, hi.control.count, hpc]
  simp only [hq, FsPc.inOp_user, FsPc.inOp_commit] at hsum
  omega

/-- A step of the process that commits leads to the next point, or ends the commit. -/
theorem LogFs.Inv.commitStep_cases (hi : s.Inv sb d₀) (hq : s.pc q = .commit pt)
    (hs : s.commitStep sb q pt = some s') : (∃ pt', Advances sb d₀ s q s' pt') ∨
      pt = .done ∧ s'.cache = s.cache ∧ s'.logView = s.logView ∧ s'.pc = update s.pc q .user ∧
        s'.log.outstanding = s.log.outstanding ∧ s'.log.size = s.log.size ∧ s'.ops = s.ops := by
  have hpt := hi.point hq
  cases pt with
  | test =>
    simp only [LogFs.commitStep] at hs
    cases hs
    refine .inl ⟨_, .of_goto hi.core ?_⟩
    split
    · rename_i hn
      have hne : s.logView.block ≠ [] := List.length_pos_iff.mp hn
      exact ⟨⟨hpt.1, hpt.2.1, hpt.2.2, hne, by simp [CopyPt.count]⟩, .inl rfl⟩
    · exact hpt
  | copy pass tail pt => exact .inl (copyStep_advances hi.core hpt hs)
  | head pass pt => exact .inl (headStep_advances hi.core hpt hs)
  | done =>
    simp only [LogFs.commitStep] at hs
    split at hs <;> cases hs <;> exact .inr ⟨rfl, rfl, rfl, rfl, rfl, rfl, rfl⟩

theorem LogFs.Inv.commitStep (hi : s.Inv sb d₀) (hq : s.pc q = .commit pt)
    (hs : s.commitStep sb q pt = some s') : s'.Inv sb d₀ := by
  rcases hi.commitStep_cases hq hs with ⟨_, ha⟩ | ⟨rfl, hcache, hview, hpc, hout, hsize, -⟩
  · exact hi.of_advances hq ha
  · exact hi.of_done hq hcache hview hpc hout hsize

/-- After a crash the disk is what recovery relies on. -/
theorem LogFs.Inv.boot [NeZero N] {disk : ℕ → Block} {ops : ℕ} {hist : List LogEvent}
    (hr : LogView.Recoverable sb d₀ ⟨disk, [], [], (disk sb.logstart).header, hist⟩)
    (hcur : (groups hist).current = []) : (LogFs.boot sb disk ops hist : LogFs N NB).Inv sb d₀ := by
  have hpc : ∀ {p : Fin N} {pt}, (LogFs.boot sb disk ops hist : LogFs N NB).pc p = .commit pt →
      p = 0 ∧ pt = .head .read .get := by
    intro p pt hp
    simp only [LogFs.boot] at hp
    split at hp
    · exact ⟨‹_›, (FsPc.commit.inj hp).symm⟩
    · cases hp
  have hop : ∀ (p : Fin N) o, (LogFs.boot sb disk ops hist : LogFs N NB).pc p ≠ .op o := by
    intro p o
    simp only [LogFs.boot]
    split <;> simp
  refine ⟨⟨Cache.binit_ok, Cache.binit_agrees fun b hb => ?_, ?_, ?_⟩, ⟨rfl, ?_, ?_, ?_, ?_⟩,
    ?_, ?_⟩
  · by_cases hh : sb.Home b
    · rw [LogView.view, if_pos hh, LogView.cur]
      simp only [LogFs.boot, LogFs.logView, hcur, List.append_nil]
      exact hr.installed hh hb
    · rw [LogView.view, if_neg hh]
  · exact ⟨hr.nodup, hr.home, hr.short, hr.logged, hr.installed, hr.closed⟩
  · exact ⟨List.nodup_nil, by simp [LogFs.boot, LogFs.logView], sb.pos⟩
  · refine (Finset.sum_eq_zero fun p _ => ?_).symm
    simp only [LogFs.boot]
    split <;> rfl
  · exact fun _ q o => hop q o
  · exact fun _ hup => by simp [LogFs.boot] at hup
  · intro p pt hp q pt' hq
    exact (hpc hq).1.trans (hpc hp).1.symm
  · exact fun hnone => absurd (by simp [LogFs.boot]) (hnone 0 (.head .read .get))
  · intro p pt hp
    obtain ⟨-, rfl⟩ := hpc hp
    exact ⟨rfl, rfl, rfl⟩

theorem LogFs.Inv.move [NeZero N] (hi : s.Inv sb d₀) (hm : FsMove sb s s')
    (hcrash : s'.hist = s.hist ++ [.crash] → d₀.crash) : s'.Inv sb d₀ := by
  have hctl := hi.control
  cases hm with
  | cache hq hm => exact hi.of_move hq hm
  | modify hq hm =>
    exact hi.of_cache (hi.core.modify hm) fun hp => absurd hq (hctl.no_op hp _ _)
  | @log_write q o i b hq hb hhome hr hfit =>
    have hnone : ∀ p pt, s.pc p ≠ .commit pt := fun p pt hp => hctl.no_op hp q o hq
    obtain ⟨hcore, hidle⟩ := hi.core.log_write (hi.idle hnone) hr hb hhome (hctl.size ▸ hfit)
      ⟨s.disk, (s.log.record b).block, if b ∈ s.log.block then s.pins else s.pins ++ [b],
        s.todo, s.hist ++ [.write ⟨o, b, (s.cache.buf i).data⟩]⟩ rfl rfl rfl rfl rfl
    exact ⟨hcore, .of_none hctl.size hctl.count hnone, fun _ => hidle,
      fun hp => absurd hp (hnone _ _)⟩
  | @begin_op q hup hq ha =>
    have hnone : ∀ p pt, s.pc p ≠ .commit pt := fun p pt hp => by
      simp [hctl.committing hp hup] at ha
    have hnone' : ∀ p pt, update s.pc q (.op s.ops) p ≠ .commit pt := fun p pt hp => by
      cases (update_commit (fun p pt _ => hnone p pt) hp).2
    refine ⟨hi.core, .of_none hctl.size ?_ hnone', fun _ => hi.idle hnone,
      fun hp => absurd hp (hnone' _ _)⟩
    have hsum := Machine.sum_update_add FsPc.inOp s.pc q (.op s.ops)
    simp only [hq, FsPc.inOp_user, FsPc.inOp_op, ← hctl.count] at hsum
    exact hsum.symm
  | @end_op q o hq =>
    have hnone : ∀ p pt, s.pc p ≠ .commit pt := fun p pt hp => hctl.no_op hp q o hq
    have hnone' : ∀ p pt, update s.pc q .user p ≠ .commit pt := fun p pt hp => by
      cases (update_commit (fun p pt _ => hnone p pt) hp).2
    refine ⟨hi.core, .of_none hctl.size ?_ hnone', fun _ => hi.idle hnone,
      fun hp => absurd hp (hnone' _ _)⟩
    have hsum := Machine.sum_update_add FsPc.inOp s.pc q .user
    simp only [hq, FsPc.inOp_user, FsPc.inOp_op, ← hctl.count] at hsum
    simp only [LogFs.goto]
    omega
  | @last q o hq hone =>
    have hnone : ∀ p pt, s.pc p ≠ .commit pt := fun p pt hp => hctl.no_op hp q o hq
    have hsum := Machine.sum_update_add FsPc.inOp s.pc q (.commit .test)
    simp only [hq, FsPc.inOp_op, FsPc.inOp_commit, ← hctl.count] at hsum
    have hzero : ∑ u, (update s.pc q (.commit .test) u).inOp = 0 := by omega
    have hpc : ∀ {p pt}, update s.pc q (.commit .test) p = .commit pt → p = q ∧ pt = .test := by
      intro p pt hp
      obtain ⟨rfl, hx⟩ := update_commit (fun p pt _ => hnone p pt) hp
      exact ⟨rfl, (FsPc.commit.inj hx).symm⟩
    refine ⟨hi.core, ⟨hctl.size, ?_, ?_, fun _ _ => rfl, ?_⟩, ?_, ?_⟩
    · simp only [LogFs.goto]
      omega
    · intro p pt _ p' o' hp'
      have hle := Machine.le_sum FsPc.inOp (update s.pc q (.commit .test)) p'
      rw [hzero] at hle
      have hp'' : update s.pc q (.commit .test) p' = .op o' := hp'
      simp [hp''] at hle
    · intro p pt hp p' pt' hp'
      exact (hpc hp').1.trans (hpc hp).1.symm
    · exact fun hno => absurd (by simp [LogFs.goto]) (hno q .test)
    · intro p pt hp
      obtain ⟨-, rfl⟩ := hpc hp
      exact hi.idle hnone
  | commit hq hs => exact hi.commitStep hq hs
  | crash =>
    have hr := hi.core.recoverable
    refine .boot ⟨hr.nodup, hr.home, hr.short, ?_, ?_, fun _ => by simp [Groups.next]⟩
      (by simp [Groups.next])
    · intro i b hib _
      have hbase := hr.logged hib (.inl (hcrash rfl))
      simpa [LogView.base, Groups.next, LogFs.logView] using hbase
    · intro b hb hnot
      have hbase := hr.installed hb hnot
      simpa [LogView.base, Groups.next, LogFs.logView] using hbase

/-! ## Operations are atomic -/

/-- The writes of operation `o`. -/
def ofOp (o : ℕ) (ws : List LogWrite) : List LogWrite := ws.filter fun w => w.op = o

@[simp] theorem ofOp_nil (o : ℕ) : ofOp o [] = [] := rfl

@[simp] theorem ofOp_append (o : ℕ) (ws ws' : List LogWrite) :
    ofOp o (ws ++ ws') = ofOp o ws ++ ofOp o ws' := by
  simp [ofOp]

theorem ofOp_eq_nil {o n : ℕ} {ws : List LogWrite} (h : ∀ w ∈ ws, w.op < n) (ho : n ≤ o) :
    ofOp o ws = [] := by
  refine List.filter_eq_nil_iff.mpr fun w hw => ?_
  have hlt := h w hw
  simp only [decide_eq_true_eq]
  omega

/-- Which group the writes of operation `o` are in : one that committed, the current one,
or one that was lost. -/
def Whole (h : List LogEvent) (o : ℕ) : Prop :=
  (ofOp o (groups h).done = ofOp o (writes h) ∧ ofOp o (groups h).current = []) ∨
    (ofOp o (groups h).done = [] ∧
      (ofOp o (groups h).current = ofOp o (writes h) ∨ ofOp o (groups h).current = []))

/-- The writes of an operation that is under way are in the current group. -/
def Open (h : List LogEvent) (o : ℕ) : Prop :=
  ofOp o (groups h).done = [] ∧ ofOp o (groups h).current = ofOp o (writes h)

structure LogFs.Atomic (s : LogFs N NB) : Prop where
  fresh : ∀ w ∈ writes s.hist, w.op < s.ops
  under_way : ∀ {p o}, s.pc p = .op o → o < s.ops ∧ Open s.hist o
  whole : ∀ o, Whole s.hist o

variable {h : List LogEvent} {o : ℕ}

theorem Whole.write {w : LogWrite} (hopen : Open h w.op) (hw : Whole h o) :
    Whole (h ++ [.write w]) o := by
  by_cases ho : w.op = o
  · subst ho
    simp [Whole, Groups.next, LogEvent.write?, hopen.1, hopen.2]
  · simpa [Whole, Groups.next, LogEvent.write?, ofOp, ho] using hw

theorem Whole.commit {o : ℕ} (hw : Whole h o) : Whole (h ++ [.commit]) o := by
  rcases hw with ⟨hd, hc⟩ | ⟨hd, hc | hc⟩ <;>
    simp [Whole, Groups.next, LogEvent.write?, hd, hc]

theorem Whole.crash (hw : Whole h o) : Whole (h ++ [.crash]) o := by
  rcases hw with ⟨hd, -⟩ | ⟨hd, -⟩ <;> simp [Whole, Groups.next, LogEvent.write?, hd]

theorem Open.write {w : LogWrite} (ho : Open h o) : Open (h ++ [.write w]) o := by
  simpa [Open, Groups.next, LogEvent.write?, ho.2] using ho.1

theorem LogFs.commitStep_hist (hi : s.Inv sb d₀) (hq : s.pc q = .commit pt)
    (hs : s.commitStep sb q pt = some s') :
    s'.ops = s.ops ∧ (∀ p o, s'.pc p ≠ .op o) ∧
      (s'.hist = s.hist ∨ s'.hist = s.hist ++ [.commit]) := by
  have hnone : ∀ {x : FsPc NB}, (∀ o, x ≠ .op o) → ∀ p o, update s.pc q x p ≠ .op o := by
    intro x hx p o
    by_cases hp : p = q
    · subst hp
      simpa using hx o
    · simpa [hp] using hi.control.no_op hq p o
  rcases hi.commitStep_cases hq hs with ⟨_, ha⟩ | ⟨-, -, hview, hpc, -, -, hops⟩
  · exact ⟨ha.ops, by rw [ha.pc]; exact hnone (by simp), ha.hist⟩
  · exact ⟨hops, by rw [hpc]; exact hnone (by simp), .inl (congrArg LogView.hist hview)⟩

theorem Whole.open_of_fresh (hw : Whole h o) (hnil : ofOp o (writes h) = []) : Open h o := by
  rcases hw with ⟨hd, hc⟩ | ⟨hd, hc | hc⟩ <;> simp [Open, hd, hc, hnil]

/-- An operation that ends leaves the others under way. -/
theorem LogFs.Atomic.leave {x : FsPc NB} (ha : s.Atomic) (hx : ∀ o, x ≠ .op o)
    (hpc : s'.pc = update s.pc q x) (hops : s'.ops = s.ops) (hhist : s'.hist = s.hist) :
    s'.Atomic := by
  refine ⟨by rw [hops, hhist]; exact ha.fresh, fun {p o} hp => ?_, by rw [hhist]; exact ha.whole⟩
  rw [hops, hhist]
  rw [hpc] at hp
  by_cases hpq : p = q
  · rw [hpq, update_self] at hp
    exact absurd hp (hx o)
  · rw [update_of_ne hpq] at hp
    exact ha.under_way hp

theorem LogFs.Atomic.move [NeZero N] (hi : s.Inv sb d₀) (ha : s.Atomic) (hm : FsMove sb s s') :
    s'.Atomic := by
  cases hm with
  | cache hq hm => exact ⟨ha.fresh, ha.under_way, ha.whole⟩
  | modify hq hm => exact ⟨ha.fresh, ha.under_way, ha.whole⟩
  | @log_write q o i b hq hb hhome hr hfit =>
    refine ⟨fun w hw => ?_, fun hp => ⟨(ha.under_way hp).1, (ha.under_way hp).2.write⟩,
      fun o' => (ha.whole o').write (ha.under_way hq).2⟩
    simp only [writes_concat, LogEvent.write?, Option.toList_some, List.mem_append,
      List.mem_singleton] at hw
    rcases hw with hw | rfl
    · exact ha.fresh w hw
    · exact (ha.under_way hq).1
  | @begin_op q hup hq hc =>
    refine ⟨fun w hw => Nat.lt_succ_of_lt (ha.fresh w hw), fun {p o} hp => ?_, ha.whole⟩
    simp only [LogFs.goto] at hp ⊢
    by_cases hpq : p = q
    · rw [hpq, update_self] at hp
      cases hp
      exact ⟨Nat.lt_succ_self _, (ha.whole _).open_of_fresh (ofOp_eq_nil ha.fresh le_rfl)⟩
    · rw [update_of_ne hpq] at hp
      exact ⟨Nat.lt_succ_of_lt (ha.under_way hp).1, (ha.under_way hp).2⟩
  | end_op hq => exact ha.leave (x := .user) (by simp) rfl rfl rfl
  | last hq hone => exact ha.leave (x := .commit .test) (by simp) rfl rfl rfl
  | commit hq hs =>
    obtain ⟨hops, hpc, hhist⟩ := LogFs.commitStep_hist hi hq hs
    refine ⟨?_, fun hp => absurd hp (hpc _ _), fun o => ?_⟩
    · rw [hops]
      rcases hhist with hhist | hhist <;> simpa [hhist, LogEvent.write?] using ha.fresh
    · rcases hhist with hhist | hhist <;> rw [hhist]
      · exact ha.whole o
      · exact (ha.whole o).commit
  | crash =>
    refine ⟨?_, fun {p o} hp => ?_, fun o => (ha.whole o).crash⟩
    · simpa [LogFs.boot, LogEvent.write?] using ha.fresh
    · simp only [LogFs.boot] at hp
      split at hp <;> cases hp

end System

/-! ## Every run -/

section Run

variable [NeZero N] {sb : Superblock} {d₀ : ℕ → Block} {s : LogFs N NB}

theorem LogFs.Inv.start {crash : Prop} (hd : (d₀ sb.logstart).header = []) :
    (LogFs.start sb d₀ : LogFs N NB).Inv sb ⟨d₀, crash⟩ :=
  .boot (.of_empty hd fun _ _ => rfl) rfl

theorem LogFs.Atomic.start : (LogFs.start sb d₀ : LogFs N NB).Atomic := by
  refine ⟨by simp [LogFs.start, LogFs.boot, writes], fun {p o} hp => ?_, fun o => .inl ⟨rfl, rfl⟩⟩
  simp only [LogFs.start, LogFs.boot] at hp
  split at hp <;> cases hp

theorem LogFs.inv_reach (hd : (d₀ sb.logstart).header = [])
    (h : Machine.Reach (LogFs.step sb) (fun _ _ => True) (LogFs.start sb d₀) s) :
    s.Inv sb ⟨d₀, True⟩ ∧ s.Atomic :=
  h.invariant (I := fun s => s.Inv sb ⟨d₀, True⟩ ∧ s.Atomic) ⟨.start hd, .start⟩
    fun _ _ _ hi _ hs => ⟨hi.1.move (fsMove_of_step hs) fun _ => trivial,
      hi.2.move hi.1 (fsMove_of_step hs)⟩

/-- Crash atomicity. Whenever `recover_from_log` has completed, after any number of crashes,
the home blocks are the initial ones with the writes of the committed groups applied, and
each operation is there with all it logged or with nothing. The same holds when a commit
has completed. -/
theorem recovery_restores_committed (hd : (d₀ sb.logstart).header = [])
    (h : Machine.Reach (LogFs.step sb) (fun _ _ => True) (LogFs.start sb d₀) s) {p : Fin N}
    (hp : s.pc p = .commit .done) :
    (∀ b, sb.Home b → s.disk b = applyWrites d₀ (groups s.hist).done b) ∧
      ∀ o, ofOp o (groups s.hist).done = ofOp o (writes s.hist) ∨
        ofOp o (groups s.hist).done = [] := by
  obtain ⟨hi, ha⟩ := LogFs.inv_reach hd h
  have hidle : s.logView.Idle sb := hi.point hp
  refine ⟨fun b hb => hi.core.recoverable.installed hb (by simp [hidle.1]), fun o => ?_⟩
  rcases ha.whole o with hw | hw
  · exact .inl hw.1
  · exact .inr hw.1

/-- Block `9` is logged by an operation whose commit is cut off right after the write of the
header. -/
def crashRun : List (FsLabel 1 4) :=
  List.replicate 15 (.commit 0) ++
    [.begin_op 0, .bget 0 9, .acquiresleep 0 1, .load 0 1, .modify 0 1 fun k => k + 7,
      .log_write 0 1, .releasesleep 0 1, .drop 0 1, .end_op 0] ++
    List.replicate 20 (.commit 0) ++ [.crash] ++ List.replicate 27 (.commit 0)

theorem recovery_restores_block : ∃ s : LogFs 1 4,
    s.pc 0 = .commit .done ∧ s.up = false ∧ s.disk 9 1 = 8 ∧
      (∀ b, Superblock.Home ⟨2, 4, by decide⟩ b →
        s.disk b = applyWrites (fun _ _ => 0) (groups s.hist).done b) ∧
      ∀ o, ofOp o (groups s.hist).done = ofOp o (writes s.hist) ∨
        ofOp o (groups s.hist).done = [] := by
  obtain ⟨s, hr, hs⟩ := Machine.exists_reach_of_exec (LogFs.step ⟨2, 4, by decide⟩)
    (fun _ _ => True) (fun s => s.pc 0 = .commit .done ∧ s.up = false ∧ s.disk 9 1 = 8)
    (s := LogFs.start ⟨2, 4, by decide⟩ fun _ _ => 0) (l := crashRun) (by decide +kernel)
  simp only [decide_eq_true_eq] at hs
  exact ⟨s, hs.1, hs.2.1, hs.2.2, recovery_restores_committed rfl hr hs.1⟩

end Run

end Xv6
