import Xv6.LogRecover

/-!
# The cache and the log as an array of blocks

Without a crash, the disk behind the buffer cache and the log looks like an array of blocks :
`bread` returns what was last written to the block. A write is a `log_write` or, by a client
that bypasses the log, a `bwrite`; `mem` keeps the data of the last one.

A `bwrite` of a block that `write_log` has copied and `install_trans` has not can be lost :
`install_trans` copies the block from the log over it (`bwrite_lost`). In the runs without such
a `bwrite` (`Outside`) nothing is lost, in any pattern of evictions and commits
(`bread_last_write`).

The proof takes over what `LogRecover` knows of a state. Its contents of the blocks come from
the logged writes, which a `bwrite` is not ; so after a `bwrite` the history is begun anew,
from the contents as of the last commit and with the writes of the current group. The steps
do not look at the history (`FsMove.rehist`). After the `bwrite` of a block that is installed the
log has other data for it, which only a crash would need.
-/

namespace Xv6

open Function

variable {N NB : ℕ} {pt : CommitPt NB}

structure FlatFs (N NB : ℕ) where
  fs : LogFs N NB
  /-- the data of the last write to each block -/
  mem : ℕ → Block

inductive FlatLabel (N NB : ℕ)
  | fs (a : FsLabel N NB)
  /-- a client changes a buffer, in an operation or not -/
  | modify (p : Fin N) (i : Fin NB) (d : Block)
  /-- a client writes a buffer to disk -/
  | bwrite (p : Fin N) (i : Fin NB)

/-- The blocks of the group that `write_log` has copied and `install_trans` has not. -/
def CommitPt.pending (block : List ℕ) : CommitPt NB → List ℕ
  | .copy .write_log tail pt => block.take (pt.count tail)
  | .head .commit _ => block
  | .copy (.install_trans _) tail pt => block.drop (pt.count tail)
  | _ => []

def FsPc.pending (block : List ℕ) : FsPc NB → List ℕ
  | .commit pt => pt.pending block
  | _ => []

namespace FlatFs

variable (sb : Superblock) [NeZero N]

/-- What `log_write` makes of the last writes. -/
def memStep (s : FlatFs N NB) : FsLabel N NB → ℕ → Block
  | .log_write _ i =>
    match (s.fs.cache.buf i).blockno with
    | some b => update s.mem b (s.fs.cache.buf i).data
    | none => s.mem
  | _ => s.mem

def step (s : FlatFs N NB) : FlatLabel N NB → Option (FlatFs N NB)
  | .fs .crash => none
  | .fs a => (s.fs.step sb a).map fun fs => ⟨fs, s.memStep a⟩
  | .modify p i d =>
    if s.fs.up ∧ (s.fs.pc p).client then
      (s.fs.cache.modify p i d).map fun c => { s with fs := { s.fs with cache := c } }
    else none
  | .bwrite p i =>
    if s.fs.up ∧ (s.fs.pc p).client then
      match (s.fs.cache.buf i).blockno with
      | some b =>
        if sb.Home b ∧ (s.fs.cache.refs p i = some .ready ∨ s.fs.cache.refs p i = some .dirty) then
          (s.fs.bwrite p i).map fun fs => ⟨fs, update s.mem b (s.fs.cache.buf i).data⟩
        else none
      | none => none
    else none

def start (disk : ℕ → Block) : FlatFs N NB := ⟨LogFs.start sb disk, disk⟩

/-- A client does not `bwrite` a block between the copies of it by `write_log` and by
`install_trans`. -/
def Outside (s : FlatFs N NB) : FlatLabel N NB → Prop
  | .bwrite _ i => ∀ b ∈ (s.fs.cache.buf i).blockno, ∀ p, b ∉ (s.fs.pc p).pending s.fs.log.block
  | _ => True

instance (s : FlatFs N NB) : (a : FlatLabel N NB) → Decidable (s.Outside a)
  | .bwrite _ _ => inferInstanceAs (Decidable (∀ _ ∈ _, _))
  | .fs _ | .modify _ _ _ => .isTrue trivial

end FlatFs

/-! ## The steps do not look at the history -/

/-- The same state with another history. -/
def LogFs.rehist (s : LogFs N NB) (h : List LogEvent) : LogFs N NB := { s with hist := h }

section Rehist

variable {sb : Superblock} {s s' : LogFs N NB} {p q : Fin N} {pass : CopyPass} {tail : ℕ}
  {h : List LogEvent}

theorem LogFs.bwrite_rehist (i : Fin NB) :
    (s.rehist h).bwrite p i = (s.bwrite p i).map (·.rehist h) := by
  unfold LogFs.bwrite
  split <;> simp_all [LogFs.rehist, Function.comp_def]

theorem LogFs.copyStep_rehist (pt : CopyPt NB) : (s.rehist h).copyStep sb p pass tail pt =
    (s.copyStep sb p pass tail pt).map (·.rehist h) := by
  cases pt with
  | test =>
    simp only [LogFs.copyStep, LogFs.rehist, LogFs.goto]
    by_cases hlt : tail < s.log.n
    · simp [hlt]
    · cases pass <;> simp [hlt]
  | getHome x =>
    simp only [LogFs.copyStep]
    cases hb : s.log.block[tail]? with
    | none => simp [LogFs.rehist, hb]
    | some b =>
      simp only [LogFs.rehist, hb, Option.bind_some, Option.map_map]
      rfl
  | bwrite src dst =>
    simp only [LogFs.copyStep, LogFs.bwrite_rehist, Option.map_map]
    rfl
  | _ =>
    simp only [LogFs.copyStep, Option.map_map]
    rfl

/-- Of the steps of `read_head` and `write_head` only the write to disk adds to the history. -/
theorem LogFs.headStep_rehist {hp : HeadPass} {pt : HeadPt NB}
    (hs : s.headStep sb p hp pt = some s') : ∃ e : List LogEvent, (e = [] ∨ e = [.commit]) ∧
      ∀ h, (s.rehist h).headStep sb p hp pt = some (s'.rehist (h ++ e)) := by
  have hsame : (∀ h, (s.rehist h).headStep sb p hp pt = (s.headStep sb p hp pt).map (·.rehist h)) →
      ∃ e : List LogEvent, (e = [] ∨ e = [.commit]) ∧
        ∀ h, (s.rehist h).headStep sb p hp pt = some (s'.rehist (h ++ e)) := fun heq =>
    ⟨[], .inl rfl, fun h => by rw [heq h, hs, List.append_nil]; rfl⟩
  cases pt with
  | body x =>
    refine hsame fun h => ?_
    cases hp with
    | read => rfl
    | commit | clear =>
      simp only [LogFs.headStep, Option.map_map]
      rfl
  | bwrite x =>
    obtain ⟨s₁, hw, rfl⟩ := Option.map_eq_some_iff.mp hs
    have hw' : ∀ h, (s.rehist h).bwrite p x = some (s₁.rehist h) := fun h => by
      rw [LogFs.bwrite_rehist, hw]
      rfl
    by_cases hn : 0 < s.log.n
    · refine ⟨[.commit], .inr rfl, fun h => ?_⟩
      have hn' : 0 < (s.rehist h).log.n := hn
      simp only [LogFs.headStep, hw', Option.map_some, if_pos hn']
      rfl
    · refine ⟨[], .inl rfl, fun h => ?_⟩
      have hn' : ¬ 0 < (s.rehist h).log.n := hn
      simp only [LogFs.headStep, hw', Option.map_some, if_neg hn', List.append_nil]
      rfl
  | _ =>
    refine hsame fun h => ?_
    simp only [LogFs.headStep, Option.map_map]
    rfl

theorem LogFs.commitStep_rehist (hs : s.commitStep sb p pt = some s') :
    ∃ e : List LogEvent, (e = [] ∨ e = [.commit]) ∧
      ∀ h, (s.rehist h).commitStep sb p pt = some (s'.rehist (h ++ e)) := by
  cases pt with
  | test =>
    cases hs
    exact ⟨[], .inl rfl, fun h => by rw [List.append_nil]; rfl⟩
  | copy pass tail pt =>
    simp only [LogFs.commitStep] at hs
    refine ⟨[], .inl rfl, fun h => ?_⟩
    rw [List.append_nil, LogFs.commitStep, LogFs.copyStep_rehist, hs]
    rfl
  | head pass pt => exact LogFs.headStep_rehist hs
  | done =>
    refine ⟨[], .inl rfl, fun h => ?_⟩
    simp only [LogFs.commitStep] at hs ⊢
    cases hup : s.up <;> simp only [hup, if_true, Bool.false_eq_true, if_false] at hs <;>
      cases hs <;> simp [LogFs.rehist, LogFs.goto, hup]

/-- What a step adds to the history, which it does not look at. -/
theorem FsMove.rehist [NeZero N] (hm : FsMove sb s s') :
    s' = LogFs.boot sb s.disk s.ops (s.hist ++ [.crash]) ∨
    ∃ e : List LogEvent, s'.hist = s.hist ++ e ∧ ((∃ w, e = [.write w]) ∨ e = [] ∨ e = [.commit]) ∧
      ∀ h, FsMove sb (s.rehist h) (s'.rehist (h ++ e)) := by
  cases hm with
  | crash => exact .inl rfl
  | cache hq hm =>
    refine .inr ⟨[], by simp, .inr (.inl rfl), fun h => ?_⟩
    rw [List.append_nil]
    exact .cache (s := s.rehist h) hq hm
  | modify hq hm =>
    refine .inr ⟨[], by simp, .inr (.inl rfl), fun h => ?_⟩
    rw [List.append_nil]
    exact .modify (s := s.rehist h) hq hm
  | log_write hq hb hhome hr hfit =>
    exact .inr ⟨_, rfl, .inl ⟨_, rfl⟩, fun h => .log_write (s := s.rehist h) hq hb hhome hr hfit⟩
  | begin_op hup hq ha =>
    refine .inr ⟨[], by simp [LogFs.goto], .inr (.inl rfl), fun h => ?_⟩
    rw [List.append_nil]
    exact .begin_op (s := s.rehist h) hup hq ha
  | end_op hq =>
    refine .inr ⟨[], by simp [LogFs.goto], .inr (.inl rfl), fun h => ?_⟩
    rw [List.append_nil]
    exact .end_op (s := s.rehist h) hq
  | last hq hone =>
    refine .inr ⟨[], by simp [LogFs.goto], .inr (.inl rfl), fun h => ?_⟩
    rw [List.append_nil]
    exact .last (s := s.rehist h) hq hone
  | @commit q pt s' hq hs =>
    obtain ⟨e, he, heq⟩ := LogFs.commitStep_rehist hs
    refine .inr ⟨e, ?_, .inr he, fun h => .commit (s := s.rehist h) hq (heq h)⟩
    have hself : s.commitStep sb q pt = some (s'.rehist (s.hist ++ e)) := heq s.hist
    have hs' : s' = s'.rehist (s.hist ++ e) := Option.some.inj (hs.symm.trans hself)
    exact congrArg LogFs.hist hs'

/-- The blocks that recovery has to install stay none. -/
theorem FsMove.todo [NeZero N] {d₀ : Origin} (hi : s.Inv sb d₀) (hm : FsMove sb s s')
    (ht : s.todo = []) (hc : s'.hist ≠ s.hist ++ [.crash]) : s'.todo = [] := by
  cases hm with
  | crash => exact absurd rfl hc
  | commit hq hs =>
    rcases hi.commitStep_cases hq hs with ⟨_, ha⟩ | ⟨-, -, hview, -⟩
    · exact ha.todo ht
    · exact (congrArg LogView.todo hview).trans ht
  | _ => exact ht

end Rehist

/-! ## Beginning the history anew -/

section Rebase

variable {sb : Superblock} {d₀ : Origin} {h : List LogEvent} {w : LogWrite} {b : ℕ}
  {c : Cache N NB Block} {v : LogView}

theorem applyWrites_congr {d d' : ℕ → Block} (ws : List LogWrite) (hd : d b = d' b) :
    applyWrites d ws b = applyWrites d' ws b := by
  induction ws generalizing d d' with
  | nil => exact hd
  | cons w ws ih =>
    refine ih ?_
    by_cases hb : b = w.blockno
    · subst hb; simp
    · simp [hb, hd]

theorem applyWrites_append (d : ℕ → Block) (ws ws' : List LogWrite) :
    applyWrites d (ws ++ ws') = applyWrites (applyWrites d ws) ws' := by
  simp [applyWrites]

theorem groups_writes (ws : List LogWrite) : groups (ws.map .write) = ⟨[], ws⟩ := by
  induction ws using List.reverseRecOn with
  | nil => rfl
  | append_singleton ws w ih => simp [ih, Groups.next]

/-- The writes of the current group and then `w`, or nothing if there are none. -/
def rebase (h : List LogEvent) (w : LogWrite) : List LogEvent :=
  if (groups h).current = [] then [] else ((groups h).current ++ [w]).map .write

theorem groups_rebase (h : List LogEvent) (w : LogWrite) : (groups (rebase h w)).done = [] ∧
    ((groups h).current = [] → (groups (rebase h w)).current = []) := by
  unfold rebase
  split
  · exact ⟨rfl, fun _ => rfl⟩
  · rw [groups_writes]
    exact ⟨rfl, fun hc => absurd hc ‹_›⟩

/-- The contents after a write of `w` that bypasses the log. -/
theorem applyWrites_rebase (d : ℕ → Block) (h : List LogEvent) (w : LogWrite) :
    applyWrites (update (applyWrites d (groups h).done) w.blockno w.data)
        (groups (rebase h w)).current =
      update (applyWrites d ((groups h).done ++ (groups h).current)) w.blockno w.data := by
  unfold rebase
  split
  · rename_i hc
    rw [hc, List.append_nil]
    rfl
  · rw [groups_writes, applyWrites_concat, applyWrites_append]
    funext b
    by_cases hb : b = w.blockno
    · subst hb; simp
    · rw [update_of_ne hb, update_of_ne hb]
      exact applyWrites_congr _ (update_of_ne hb ..)

/-- What a point knows, after a write to a block that is not pending and that the committing
process has no lock on. -/
theorem CommitPt.Inv.congr {d₁ : Origin} {p : Fin N} {disk : ℕ → Block} {hist : List LogEvent}
    (hi : pt.Inv sb d₀ c v p) (hshort : v.block.length < sb.nlog) (hhome : sb.Home b)
    (hpend : b ∉ pt.pending v.block) (hlock : ∀ {x h st}, c.At p x h st → st.holds = true → h ≠ b)
    (hcur : ∀ b', b' ≠ b →
      LogView.cur d₁ { v with disk := disk, hist := hist } b' = v.cur d₀ b')
    (hdisk : ∀ b', b' ≠ b → disk b' = v.disk b') :
    pt.Inv sb d₁ c { v with disk := disk, hist := hist } p := by
  have hheader : LogView.header sb { v with disk := disk, hist := hist } = v.header sb :=
    congrArg Block.header (hdisk _ (ne_of_home sb.not_home_logstart hhome))
  have hwriting : ∀ {k}, b ∉ v.block.take k → v.Writing sb d₀ k →
      LogView.Writing sb d₁ { v with disk := disk, hist := hist } k := by
    rintro k hb ⟨h1, h2, h3, h4, h5⟩
    refine ⟨hheader.trans h1, h2, h3, h4, fun {i b'} hik hib => ?_⟩
    have hlt : i < v.block.length := (List.getElem?_eq_some_iff.mp hib).1
    have hslot : ¬ sb.Home (sb.logstart + i + 1) := by
      unfold Superblock.Home
      omega
    have hne : b' ≠ b := by
      rintro rfl
      exact hb (List.mem_of_getElem? ((List.getElem?_take_of_lt hik).trans hib))
    rw [hcur b' hne]
    exact (hdisk _ (ne_of_home hslot hhome)).trans (h5 hik hib)
  have hafter : ∀ {pass : HeadPass}, pass.After sb v →
      pass.After sb { v with disk := disk, hist := hist } := by
    intro pass hp
    cases pass <;> exact ⟨hheader.trans hp.1, hp.2⟩
  cases pt with
  | test | done => exact ⟨hheader.trans hi.1, hi.2⟩
  | copy pass tail pt =>
    have hprog : pass.Progress sb d₁ { v with disk := disk, hist := hist } (pt.count tail) := by
      match pass, hi.1, hpend with
      | .write_log, hp, hpend => exact hwriting hpend hp
      | .install_trans false, hp, _ => exact ⟨hheader.trans hp.1, hp.2⟩
      | .install_trans true, hp, _ => exact ⟨hheader.trans hp.1, hp.2⟩
    refine ⟨hprog, hi.2.imp id fun ⟨h, hh, hbufs⟩ => ⟨h, hh, ?_⟩⟩
    cases pt with
    | bwrite src dst =>
      -- both buffers are locked, and one of them has the home block
      have hne : h ≠ b := by
        cases pass with
        | write_log => exact hlock hbufs.1 rfl
        | install_trans => exact hlock hbufs.2.1 rfl
      exact ⟨hbufs.1, hbufs.2.1, hbufs.2.2.trans (hcur h hne).symm⟩
    | bunpin src dst =>
      obtain ⟨hsrc, hdst, rfl, hd⟩ := hbufs
      have hne : h ≠ b := hlock hdst rfl
      refine ⟨hsrc, hdst, rfl, ?_⟩
      rw [hcur h hne]
      exact (hdisk h hne).trans hd
    | _ => exact hbufs
  | head pass pt =>
    have hbefore : pass.Before sb d₀ v →
        pass.Before sb d₁ { v with disk := disk, hist := hist } := by
      intro hp
      cases pass with
      | read => exact ⟨hp.1, hp.2.1, hp.2.2.trans hheader.symm⟩
      | commit => exact hwriting (by rwa [List.take_length]) hp
      | clear => exact hp
    cases pt with
    | get => exact hbefore hi
    | unlock x | drop x => exact ⟨hafter hi.1, hi.2⟩
    | bwrite x | lock x | load x | body x => exact ⟨hbefore hi.1, hi.2⟩

theorem HeadPt.Inv.phase {p : Fin N} {pass : HeadPass} {pt : HeadPt NB}
    (hi : pt.Inv sb d₀ c v p pass) : pass.Before sb d₀ v ∨ pass.After sb v := by
  cases pt with
  | get => exact .inl hi
  | lock x | load x | body x | bwrite x => exact .inl hi.1
  | unlock x | drop x => exact .inr hi.1

/-- With a header on disk the pinned blocks are pending. -/
theorem CommitPt.Inv.pins {p : Fin N} (hi : pt.Inv sb d₀ c v p) (hheader : v.header sb ≠ [])
    (hb : b ∈ v.pins) : b ∈ pt.pending v.block := by
  have hnil : v.pins ≠ [] := List.ne_nil_of_mem hb
  cases pt with
  | test | done => exact absurd hi.1 hheader
  | copy pass tail pt =>
    match pass, hi.1 with
    | .write_log, hp => exact absurd hp.1 hheader
    | .install_trans false, hp =>
      rw [hp.2.1] at hb
      exact hb
    | .install_trans true, hp => exact absurd hp.2.1 hnil
  | head pass pt =>
    have hphase := HeadPt.Inv.phase hi
    cases pass with
    | read => exact absurd (hphase.elim (·.2.1) (·.2.1)) hnil
    | commit =>
      rcases hphase with hp | hp
      · exact absurd hp.1 hheader
      · rw [hp.2.1] at hb
        exact hb
    | clear =>
      rcases hphase with hp | hp
      · exact absurd hp.2.1 hnil
      · exact absurd hp.1 hheader

/-- A client writes a block to disk that is not pending. The contents as of the last commit
then are those with this write. -/
theorem LogFs.Inv.client_bwrite {d : ℕ → Block} {s : LogFs N NB} {q : Fin N} {i : Fin NB}
    (hi : s.Inv sb ⟨d, False⟩) (hq : (s.pc q).client = true) (ht : s.todo = [])
    (hr : s.cache.refs q i = some .ready ∨ s.cache.refs q i = some .dirty)
    (hb : (s.cache.buf i).blockno = some b) (hhome : sb.Home b)
    (hout : ∀ p, b ∉ (s.pc p).pending s.log.block) :
    LogFs.Inv sb ⟨update (s.logView.base ⟨d, False⟩) b (s.cache.buf i).data, False⟩ { s with
      disk := update s.disk b (s.cache.buf i).data
      cache := s.cache.settle q i
      hist := rebase s.hist ⟨0, b, (s.cache.buf i).data⟩ } := by
  generalize hx : (s.cache.buf i).data = x
  generalize hd₀ : (⟨d, False⟩ : Origin) = d₀ at hi
  generalize hd₁ : (⟨update (s.logView.base d₀) b x, False⟩ : Origin) = d₁
  obtain ⟨hdone, hcurrent⟩ := groups_rebase s.hist ⟨0, b, x⟩
  have hcore := hi.core
  have hne : b ≠ sb.logstart := (ne_of_home sb.not_home_logstart hhome).symm
  let v' : LogView := ⟨update s.disk b x, s.log.block, s.pins, s.todo, rebase s.hist ⟨0, b, x⟩⟩
  have hbase : v'.base d₁ = update (s.logView.base d₀) b x := by
    rw [LogView.base, show groups v'.hist = groups (rebase s.hist ⟨0, b, x⟩) from rfl, hdone, ← hd₁]
    rfl
  have hcur : v'.cur d₁ = update (s.logView.cur d₀) b x := by
    rw [LogView.cur, show groups v'.hist = groups (rebase s.hist ⟨0, b, x⟩) from rfl, hdone,
      List.nil_append, ← hd₁]
    exact applyWrites_rebase d₀.disk s.hist ⟨0, b, x⟩
  have hheader : v'.header sb = s.logView.header sb := by
    simp only [LogView.header, v', update_of_ne hne.symm]
    rfl
  have hnot : s.logView.header sb ≠ [] → b ∉ s.pins := by
    intro hne hmem
    by_cases hnone : ∀ p pt, s.pc p ≠ .commit pt
    · exact hne (hi.idle hnone).1
    · simp only [not_forall, not_not] at hnone
      obtain ⟨p, pt, hp⟩ := hnone
      have hpend := (hi.point hp).pins hne hmem
      exact hout p (by rw [hp]; exact hpend)
  have hrec : v'.Recoverable sb d₁ := by
    have hr' := hcore.recoverable
    constructor <;> simp only [hheader]
    · exact hr'.nodup
    · exact hr'.home
    · exact hr'.short
    · intro k b' hk hneed
      have hlt := (List.getElem?_eq_some_iff.mp hk).1
      have hslot : ¬ sb.Home (sb.logstart + k + 1) := by
        have := hr'.short
        unfold Superblock.Home
        omega
      have hpin : b' ∈ s.pins := by
        rcases hneed with hcrash | hpin | htodo
        · rw [← hd₁] at hcrash
          exact hcrash.elim
        · exact hpin
        · have htodo' : b' ∈ s.todo := htodo
          rw [ht] at htodo'
          exact absurd htodo' List.not_mem_nil
      have hb' : b' ≠ b := fun he =>
        hnot (List.ne_nil_of_mem (List.mem_of_getElem? hk)) (he ▸ hpin)
      rw [hbase, update_of_ne hb', show v'.disk = update s.disk b x from rfl,
        update_of_ne (ne_of_home hslot hhome)]
      exact hr'.logged hk (.inr (.inl hpin))
    · intro b' hh hnot'
      rw [hbase, show v'.disk = update s.disk b x from rfl]
      by_cases hb' : b' = b
      · rw [hb', update_self, update_self]
      · rw [update_of_ne hb', update_of_ne hb']
        exact hr'.installed hh hnot'
    · exact fun hh => hcurrent (hr'.closed hh)
  refine ⟨hcore.bwrite hr hb (fun _ => ?_) (by rw [hx]; rfl) (fun b' hne => ?_) rfl ?_ rfl hrec,
    ⟨hi.control.size, hi.control.count, hi.control.no_op, hi.control.committing, hi.control.only⟩,
    fun hnone => ?_, fun {p pt} hp => ?_⟩
  · exact hx.trans ((congrFun hcur b).trans (update_self ..)).symm
  · exact (congrFun hcur b').trans (update_of_ne hne ..)
  · show s.todo = s.todo.erase b
    simp [ht]
  · obtain ⟨h1, h2, h3⟩ := hi.idle hnone
    exact ⟨hheader.trans h1, h2, h3⟩
  · have hp' : s.pc p = .commit pt := hp
    have hpq : p ≠ q := by
      rintro rfl
      simp [hp', FsPc.client] at hq
    have hkeeps : ∀ j, s.cache.Keeps (s.cache.settle q i) p j := fun j =>
      Cache.settle_keeps (.inl hpq)
    refine CommitPt.Inv.keep ((hi.point hp).congr (b := b) hcore.block.short hhome ?_
      (fun hat hst he => ?_) (fun b' hb' => ?_) fun b' hb' => ?_) hkeeps
    · have hpend := hout p
      rw [hp'] at hpend
      exact hpend
    · -- one process has the lock of the buffer
      subst he
      obtain rfl := hcore.ok.uniq hat.2 hb
      have hholder := hcore.ok.holder.mpr ⟨_, hat.1, hst⟩
      have hholder' : (s.cache.buf _).holder = some q :=
        hcore.ok.holder.mpr (hr.elim (fun h => ⟨_, h, rfl⟩) fun h => ⟨_, h, rfl⟩)
      exact hpq (Option.some.inj (hholder.symm.trans hholder'))
    · exact (congrFun hcur b').trans (update_of_ne hb' ..)
    · exact update_of_ne hb' ..

end Rebase

/-! ## Every run -/

section Run

variable [NeZero N] {sb : Superblock} {d₀ : ℕ → Block} {s s' : FlatFs N NB}

/-- What `LogRecover` knows of the state, for some history that leads to the last writes. -/
def FlatFs.Inv (sb : Superblock) (s : FlatFs N NB) : Prop :=
  s.fs.todo = [] ∧ ∃ d₀ h, (s.fs.rehist h).Inv sb ⟨d₀, False⟩ ∧
    ∀ b, sb.Home b → applyWrites d₀ ((groups h).done ++ (groups h).current) b = s.mem b

theorem LogFs.step_hist {s s' : LogFs N NB} {a : FsLabel N NB} (hs : s.step sb a = some s')
    (hc : a ≠ .crash) : (∃ p i o b, a = .log_write p i ∧ (s.cache.buf i).blockno = some b ∧
      s'.hist = s.hist ++ [.write ⟨o, b, (s.cache.buf i).data⟩]) ∨
    (∀ p i, a ≠ .log_write p i) ∧ (s'.hist = s.hist ∨ s'.hist = s.hist ++ [.commit]) := by
  cases a with
  | crash => exact absurd rfl hc
  | log_write p i =>
    simp only [LogFs.step] at hs
    split at hs
    · rename_i o b hq hb
      split at hs
      · split at hs <;> cases hs
        exact .inl ⟨p, i, o, b, rfl, hb, rfl⟩
      · cases hs
    · cases hs
  | commit p =>
    simp only [LogFs.step] at hs
    split at hs
    · rename_i pt hq
      refine .inr ⟨by simp, ?_⟩
      obtain ⟨e, he, heq⟩ := LogFs.commitStep_rehist hs
      have hs' : s' = s'.rehist (s.hist ++ e) := Option.some.inj (hs.symm.trans (heq s.hist))
      have hhist : s'.hist = s.hist ++ e := congrArg LogFs.hist hs'
      rcases he with rfl | rfl
      · exact .inl (by simpa using hhist)
      · exact .inr hhist
    · cases hs
  | modify p i d =>
    simp only [LogFs.step] at hs
    split at hs
    · obtain ⟨c, -, rfl⟩ := Option.map_eq_some_iff.mp hs
      exact .inr ⟨by simp, .inl rfl⟩
    · cases hs
  | begin_op p =>
    simp only [LogFs.step] at hs
    split at hs <;> cases hs
    exact .inr ⟨by simp, .inl rfl⟩
  | end_op p =>
    simp only [LogFs.step] at hs
    split at hs
    · split at hs <;> cases hs <;> exact .inr ⟨by simp, .inl rfl⟩
    · cases hs
  | bget p b | acquiresleep p i | load p i | releasesleep p i | drop p i =>
    simp only [LogFs.step] at hs
    split at hs
    · obtain ⟨c, -, rfl⟩ := Option.map_eq_some_iff.mp hs
      exact .inr ⟨by simp, .inl rfl⟩
    · cases hs

theorem FlatFs.Inv.fs {a : FsLabel N NB} {fs' : LogFs N NB} (hi : s.Inv sb) (hc : a ≠ .crash)
    (hs : s.fs.step sb a = some fs') : FlatFs.Inv sb ⟨fs', s.memStep a⟩ := by
  obtain ⟨ht, d₀, h, hinv, hmem⟩ := hi
  have hhist := LogFs.step_hist hs hc
  have hm := fsMove_of_step hs
  rcases hm.rehist with hboot | ⟨e, he, hkind, hre⟩
  · -- a crash would show in the history
    have hcrash : fs'.hist = s.fs.hist ++ [.crash] := congrArg LogFs.hist hboot
    rcases hhist with ⟨p, i, o, b, -, -, hw⟩ | ⟨-, hsame | hsame⟩ <;> simp_all
  have hno : h ++ e ≠ h ++ [.crash] := fun hcrash => by
    obtain rfl := List.append_cancel_left hcrash
    simp at hkind
  have ht' := (hre h).todo hinv ht hno
  refine ⟨ht', d₀, h ++ e, hinv.move (hre h) fun hcrash => absurd hcrash hno,
    fun b hb => ?_⟩
  rcases hhist with ⟨p, i, o, b', rfl, hb', hw⟩ | ⟨hnot, hsame⟩
  · obtain rfl : e = [.write ⟨o, b', (s.fs.cache.buf i).data⟩] :=
      List.append_cancel_left (he.symm.trans hw)
    simp only [groups_concat, Groups.next, FlatFs.memStep, hb']
    rw [← List.append_assoc, applyWrites_concat]
    by_cases hbb : b = b'
    · subst hbb; simp
    · rw [update_of_ne hbb, update_of_ne hbb]
      exact hmem b hb
  · have hmem' : s.memStep a = s.mem := by
      cases a <;> first | rfl | exact absurd rfl (hnot _ _)
    rw [hmem']
    rcases hsame with hsame | hsame
    · obtain rfl : e = [] := by simpa [hsame] using he
      simpa using hmem b hb
    · obtain rfl : e = [.commit] := List.append_cancel_left (he.symm.trans hsame)
      simpa [Groups.next] using hmem b hb

theorem FlatFs.Inv.step {a : FlatLabel N NB} (hi : s.Inv sb) (ha : s.Outside a)
    (hs : s.step sb a = some s') : s'.Inv sb := by
  cases a with
  | fs a =>
    cases a with
    | crash => cases hs
    | _ =>
      obtain ⟨fs', hfs, rfl⟩ := Option.map_eq_some_iff.mp hs
      exact hi.fs (by simp) hfs
  | modify p i d =>
    obtain ⟨hg, hs⟩ := Option.ite_none_right_eq_some.mp hs
    obtain ⟨c, hm, rfl⟩ := Option.map_eq_some_iff.mp hs
    obtain ⟨ht, d₀, h, hinv, hmem⟩ := hi
    refine ⟨ht, d₀, h, ?_, hmem⟩
    refine hinv.of_cache (hinv.core.modify hm) fun {q pt} hq j => ?_
    refine Cache.modify_keeps hinv.core.ok hm (.inl ?_)
    rintro rfl
    have hq' : s.fs.pc q = .commit pt := hq
    simp [hq', FsPc.client] at hg
  | bwrite p i =>
    obtain ⟨hg, hs⟩ := Option.ite_none_right_eq_some.mp hs
    split at hs
    · rename_i b hb
      obtain ⟨hr, hs⟩ := Option.ite_none_right_eq_some.mp hs
      obtain ⟨fs', hw, rfl⟩ := Option.map_eq_some_iff.mp hs
      obtain ⟨ht, d₀, h, hinv, hmem⟩ := hi
      obtain rfl := LogFs.bwrite_eq hw hb
      have hinv' := hinv.client_bwrite hg.2 ht hr.2 hb hr.1 (ha b hb)
      have herase : s.fs.todo.erase b = s.fs.todo := by simp [ht]
      rw [herase]
      refine ⟨ht, _, rebase h ⟨0, b, (s.fs.cache.buf i).data⟩, hinv', fun b' hb' => ?_⟩
      rw [(groups_rebase h _).1, List.nil_append]
      refine (congrFun (applyWrites_rebase d₀ h ⟨0, b, (s.fs.cache.buf i).data⟩) b').trans ?_
      dsimp only
      by_cases hbb : b' = b
      · rw [hbb, update_self, update_self]
      · rw [update_of_ne hbb, update_of_ne hbb]
        exact hmem b' hb'
    · cases hs

/-- In every run of any number of clients in which no `bwrite` of a block comes between the copies
of it by `write_log` and by `install_trans`, a buffer that `bread` returned and that was not
changed since holds the data of the last write to its block, or the initial contents. -/
theorem bread_last_write (hd : (d₀ sb.logstart).header = [])
    (h : Machine.Reach (FlatFs.step sb) FlatFs.Outside (FlatFs.start sb d₀) s) {p : Fin N}
    {i : Fin NB} {b : ℕ} (hr : s.fs.cache.refs p i = some .ready)
    (hb : (s.fs.cache.buf i).blockno = some b) (hhome : sb.Home b) :
    (s.fs.cache.buf i).data = s.mem b := by
  have hi : s.Inv sb := h.invariant (I := FlatFs.Inv sb)
    ⟨hd, d₀, [], .start hd, fun _ _ => rfl⟩ fun _ _ _ hi ha hs => hi.step ha hs
  obtain ⟨ht, d₁, hist, hinv, hmem⟩ := hi
  have hcore := hinv.core
  have hdata := hcore.agrees.clean hb (hcore.ok.valid (.inl hr)) (hcore.ok.not_dirty hr)
    (by rw [show (s.fs.rehist hist).logView.todo = s.fs.todo from rfl, ht]; exact List.not_mem_nil)
  rw [LogView.view, if_pos hhome] at hdata
  exact hdata.trans (hmem b hhome)

end Run

/-! ## Runs with a direct write -/

/-- A disk with a log of three blocks. -/
def smallLog : Superblock := ⟨2, 4, by decide⟩

/-- After recovery, process `0` logs block `9` and commits, up to the write of the header. -/
def logNine : List (FlatLabel 2 4) :=
  List.replicate 15 (.fs (.commit 0)) ++
    [.fs (.begin_op 0), .fs (.bget 0 9), .fs (.acquiresleep 0 1), .fs (.load 0 1),
      .modify 0 1 fun k => k + 7, .fs (.log_write 0 1), .fs (.releasesleep 0 1),
      .fs (.drop 0 1), .fs (.end_op 0)] ++
    List.replicate 20 (.fs (.commit 0))

/-- Process `1` writes block `9` past the log. -/
def writeNine : List (FlatLabel 2 4) :=
  [.fs (.bget 1 9), .fs (.acquiresleep 1 1), .fs (.load 1 1), .modify 1 1 fun _ => 5,
    .bwrite 1 1, .fs (.releasesleep 1 1), .fs (.drop 1 1)]

def readNine : List (FlatLabel 2 4) :=
  [.fs (.bget 1 9), .fs (.acquiresleep 1 1), .fs (.load 1 1)]

/-- A write past the log comes between the write of the header and `install_trans`, and after
the commit `bread` returns what was logged before it. -/
theorem bwrite_lost : ∃ s : FlatFs 2 4,
    Machine.Reach (FlatFs.step smallLog) (fun _ _ => True) (FlatFs.start smallLog fun _ _ => 0) s ∧
      s.fs.cache.refs 1 1 = some .ready ∧ (s.fs.cache.buf 1).blockno = some 9 ∧
      (s.fs.cache.buf 1).data ≠ s.mem 9 := by
  obtain ⟨s, hr, hs⟩ := Machine.exists_reach_of_exec (FlatFs.step smallLog) (fun _ _ => True)
    (fun s => s.fs.cache.refs 1 1 = some .ready ∧ (s.fs.cache.buf 1).blockno = some 9 ∧
      (s.fs.cache.buf 1).data 1 ≠ s.mem 9 1) (s := FlatFs.start smallLog fun _ _ => 0)
    (l := logNine ++ writeNine ++ List.replicate 25 (.fs (.commit 0)) ++ readNine)
    (by decide +kernel)
  simp only [decide_eq_true_eq] at hs
  exact ⟨s, hr, hs.1, hs.2.1, fun he => hs.2.2 (congrFun he 1)⟩

/-- Between `install_trans` and the end of the commit the same write is kept. -/
theorem bread_last_write_nine : ∃ s : FlatFs 2 4,
    Machine.Reach (FlatFs.step smallLog) FlatFs.Outside
      (FlatFs.start smallLog fun _ _ => 0) s ∧
      s.fs.cache.refs 1 1 = some .ready ∧ s.mem 9 1 = 5 ∧
      (s.fs.cache.buf 1).data = s.mem 9 := by
  obtain ⟨s, hr, hs⟩ := Machine.exists_reach_of_exec (FlatFs.step smallLog)
    FlatFs.Outside (fun s => s.fs.cache.refs 1 1 = some .ready ∧
      (s.fs.cache.buf 1).blockno = some 9 ∧ s.mem 9 1 = 5)
    (s := FlatFs.start smallLog fun _ _ => 0)
    (l := logNine ++ List.replicate 16 (.fs (.commit 0)) ++ writeNine ++
      List.replicate 9 (.fs (.commit 0)) ++ readNine)
    (by decide +kernel)
  simp only [decide_eq_true_eq] at hs
  exact ⟨s, hr, hs.1, hs.2.2, bread_last_write rfl hr hs.1 hs.2.1 (by decide)⟩

end Xv6
