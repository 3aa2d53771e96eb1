import Xv6.LogAdmit

/-!
# Commits and waiting operations

The runs of `LogAdmit` once more. Every process that is in an operation is counted in
`outstanding`, and a commit begins when the last one has ended (`LogBook`). So while
`committing` is set nobody is in an operation, nobody is let in and nothing is recorded, and
`end_op` never finds `committing` set. If operations write at most `MAXOPBLOCKS - 1` distinct
blocks each, the log has room for all of them (`log_write_fits_of_small`).

A process rests on `&log` only while it would not be admitted (`logWake`). Two events let
others in : the end of an operation that is not the last, and the end of a commit, and both
are followed by a wakeup before `log.lock` is released. A commit also empties the log, without
the lock ; but then `committing` is set. The rules of `Monitor` know nothing of a state at such
a point, so they are applied to `gatedCode`, which commits only with `committing` set and takes
the same steps.
-/

namespace Xv6

open Monitor Function

/-! ## Who is counted -/

section Book

variable {N : ℕ} {s s' : LogState} {ks : Fin N → LogKind} {t : Fin N}

theorem LogState.not_committing_of_admits (h : s.admits = true) : s.committing = false := by
  simp only [LogState.admits, Bool.and_eq_true, Bool.not_eq_true'] at h
  exact h.1

/-- The operations under way are counted, and there are none during a commit. -/
structure LogBook (s : LogState) (ks : Fin N → LogKind) : Prop where
  count : s.outstanding = ∑ t, (ks t).count
  quiet : s.committing = true → s.outstanding = 0
  commits : ∀ t, (ks t).commits → s.committing = true
  single : ∀ t u, (ks t).commits → (ks u).commits → t = u

variable (h : LogBook s ks)

include h

theorem LogBook.counted {w : OpLog} (ht : ks t = .active w) : 1 ≤ s.outstanding := by
  have hcnt := Machine.le_sum LogKind.count ks t
  rwa [ht, ← h.count, LogKind.count_active] at hcnt

theorem LogBook.not_committing {w : OpLog} (ht : ks t = .active w) : s.committing = false := by
  by_contra hc
  have hcnt := h.counted ht
  have := h.quiet (by simpa using hc)
  omega

/-- Nobody commits while `committing` is not set. -/
theorem LogBook.none_commits (hc : s.committing = false) (u : Fin N) :
    ¬ (ks u).commits := fun hu => by simp [h.commits u hu] at hc

theorem LogBook.of_update {k : LogKind}
    (hcount : s'.outstanding + (ks t).count = s.outstanding + k.count)
    (hquiet : s'.committing = true → s'.outstanding = 0)
    (hself : k.commits → s'.committing = true ∧ ∀ u, u ≠ t → ¬ (ks u).commits)
    (hothers : ∀ u, u ≠ t → (ks u).commits → s'.committing = true) :
    LogBook s' (update ks t k) where
  count := by
    have := Machine.sum_update_add LogKind.count ks t k
    have := h.count
    omega
  quiet := hquiet
  commits := (forall_update_iff ks (p := fun _ k => k.commits → s'.committing = true)).2
    ⟨fun hk => (hself hk).1, hothers⟩
  single u v hu hv := by
    by_cases hut : u = t <;> by_cases hvt : v = t
    · rw [hut, hvt]
    · rw [hut, update_self] at hu
      rw [update_of_ne hvt] at hv
      exact absurd hv ((hself hu).2 v hvt)
    · rw [hvt, update_self] at hv
      rw [update_of_ne hut] at hu
      exact absurd hu ((hself hv).2 u hut)
    · rw [update_of_ne hut] at hu
      rw [update_of_ne hvt] at hv
      exact h.single u v hu hv

theorem LogBook.same {k : LogKind} (hk : k = ks t) : LogBook s (update ks t k) := by
  rw [hk, update_eq_self]
  exact h

theorem LogBook.act {p k : LogPc} (hp : p.kind = ks t) (ha : LogAct s p s' k) :
    LogBook s' (update ks t k.kind) ∧ ∀ w, k ≠ .panic .committing w := by
  cases ha with
  | call hkind _ hk =>
    refine ⟨h.same (hkind.trans hp), ?_⟩
    rintro w rfl
    exact hk trivial
  | wait | tooBig | outside => exact ⟨h.same hp, nofun⟩
  | enter ha =>
    have hc := LogState.not_committing_of_admits ha
    refine ⟨h.of_update ?_ (by simp [hc]) nofun fun u _ hu => absurd hu (h.none_commits hc u),
      nofun⟩
    rw [← hp]
    rfl
  | record =>
    refine ⟨h.of_update ?_ h.quiet nofun fun u _ => h.commits u, nofun⟩
    rw [← hp]
    rfl
  | late hc => simp [h.not_committing hp.symm] at hc
  | last h0 =>
    have hnone := h.none_commits (h.not_committing hp.symm)
    have hcnt := h.counted hp.symm
    refine ⟨h.of_update ?_ (fun _ => h0) (fun _ => ⟨rfl, fun u _ => hnone u⟩)
      (fun u _ hu => absurd hu (hnone u)), nofun⟩
    simp only [← hp, LogPc.kind, LogKind.count_active, LogKind.count_committing]
    omega
  | leave hc =>
    have hcnt := h.counted hp.symm
    refine ⟨h.of_update ?_ (by simp [hc]) nofun
      (fun u _ hu => absurd hu (h.none_commits hc u)), nofun⟩
    simp only [← hp, LogPc.kind, LogKind.count_active, LogKind.count_out]
    omega
  | commit =>
    have hkt : ks t = .committing := hp.symm
    have hc := h.commits t (by simp [hkt])
    refine ⟨h.of_update (by rw [hkt]; rfl) h.quiet (fun _ => ⟨hc, fun u hu hu' => ?_⟩)
      (fun _ _ _ => hc), nofun⟩
    exact hu (h.single u t hu' (by simp [hkt]))
  | clear =>
    have hkt : ks t = .cleared := hp.symm
    refine ⟨h.of_update (by rw [hkt]; rfl) nofun nofun (fun u hu hu' => ?_), nofun⟩
    exact absurd (h.single u t hu' (by simp [hkt])) hu

end Book

section Runs

variable {N : ℕ} {s s' : State N Unit LogState LogPc}
  {ok : State N Unit LogState LogPc → Label N LogCall → Prop}

theorem logBook_start (N : ℕ) : LogBook (logStart N).shared fun _ : Fin N => .out := by
  constructor <;> simp [logStart, State.start]

theorem logBook_of_reach (h : Machine.Reach (step logCode) ok (logStart N) s) :
    (LogBook s.shared (fun t => (s.points t).kind) ∧ ∀ t w, s.points t ≠ .panic .committing w) ∧
      s.shared.Exact := by
  have h' : Machine.Reach (step logCode) (Meets fun _ _ _ => True) (logStart N) s :=
    h.mono fun s a _ => by cases a <;> trivial
  obtain ⟨⟨hbook, hexact⟩, hpts⟩ := kinds_invariant
    (J := fun sh ks => LogBook sh ks ∧ sh.Exact) (C := fun p => ∀ w, p ≠ .panic .committing w)
    ⟨logBook_start N, exact_start N⟩ nofun (fun _ hk => hk _)
    (fun hJ hp _ ha => ⟨⟨(hJ.1.act hp ha).1, ha.exact hJ.2⟩, (hJ.1.act hp ha).2⟩) h'
  exact ⟨⟨hbook, hpts⟩, hexact⟩

end Runs

/-! ## Small operations fit -/

section Small

variable {N : ℕ} {s s' : LogState} {ks : Fin N → LogKind} {t : Fin N}

/-- An operation's own blocks are few and in the log. -/
def OpLog.Small (w : OpLog) (block : List ℕ) : Prop :=
  w.fresh ≤ w.blocks.length ∧ w.blocks.length ≤ MAXOPBLOCKS - 1 ∧ w.blocks ⊆ block

/-- The operations under way fit in the log, which is empty when none is. -/
structure LogRoom (s : LogState) (ks : Fin N → LogKind) : Prop where
  size : s.size = LOGSIZE
  /-- what is in the log and what the operations under way may add -/
  space : s.n + ∑ t, (ks t).room ≤ LOGSIZE - 2
  cleared : ∀ t, ks t = .cleared → s.block = []
  empty : s.outstanding = 0 → s.committing = false → s.block = []
  small : ∀ t w, ks t = .active w → w.Small s.block

namespace LogRoom

variable (h : LogRoom s ks) {k : LogKind}

include h

/-- One process changes its kind to `k`, and the log changes with it. -/
theorem of_update (hsize : s'.size = s.size)
    (hspace : s'.n + ∑ u, (update ks t k u).room ≤ LOGSIZE - 2)
    (hcleared : k = .cleared → s'.block = [])
    (hblock : ∀ u w, u ≠ t → ks u = .active w → s.block ⊆ s'.block)
    (hkeep : s'.block = s.block ∨ ∀ u, u ≠ t → ks u ≠ .cleared)
    (hempty : s'.outstanding = 0 → s'.committing = false → s'.block = [])
    (hsmall : ∀ w, k = .active w → w.Small s'.block) : LogRoom s' (update ks t k) where
  size := hsize.trans h.size
  space := hspace
  cleared := by
    refine (forall_update_iff ks (p := fun _ k => k = .cleared → s'.block = [])).2
      ⟨hcleared, fun u hu hc => ?_⟩
    rcases hkeep with hb | hb
    · rw [hb]
      exact h.cleared u hc
    · exact absurd hc (hb u hu)
  empty := hempty
  small := by
    refine (forall_update_iff ks (p := fun _ k => ∀ w, k = .active w → w.Small s'.block)).2
      ⟨hsmall, fun u hu w hw => ?_⟩
    obtain ⟨hf, hl, hsub⟩ := h.small u w hw
    exact ⟨hf, hl, List.Subset.trans hsub (hblock u w hu hw)⟩

/-- A process that takes no more of the log than it had left. -/
theorem space_of (hle : s'.n + k.room ≤ s.n + (ks t).room) :
    s'.n + ∑ u, (update ks t k u).room ≤ LOGSIZE - 2 := by
  have := Machine.sum_update_add LogKind.room ks t k
  have := h.space
  omega

/-- A process that leaves an operation or a commit, the log's blocks staying as they are. -/
theorem leave (hsize : s'.size = s.size) (hb : s'.block = s.block) (hroom : k.room = 0)
    (hk : k ≠ .cleared) (hk' : ∀ w, k ≠ .active w)
    (hempty : s'.outstanding = 0 → s'.committing = false → s'.block = []) :
    LogRoom s' (update ks t k) :=
  h.of_update hsize (h.space_of (by simp [LogState.n, hb, hroom])) (fun hc => absurd hc hk)
    (fun _ _ _ _ => hb ▸ List.Subset.refl _) (.inl hb) hempty fun w hw => absurd hw (hk' w)

theorem n_lt : s.n < LOGSIZE - 1 := by
  have := h.space
  simp only [LOGSIZE, MAXOPBLOCKS] at this ⊢
  omega

variable (hb : LogBook s ks)

include hb

/-- The last admission leaves room : alone in an empty log, or beside others in what
`begin_op` has found to be free. -/
theorem enter (ht : ks t = .out) (ha : s.admits = true) :
    LogRoom { s with outstanding := s.outstanding + 1 } (update ks t (.active ⟨[], 0⟩)) := by
  obtain ⟨hc, hfit⟩ : s.committing = false ∧
      s.n + (s.outstanding + 1) * MAXOPBLOCKS ≤ LOGSIZE := by
    simpa [LogState.admits] using ha
  have hroom := Machine.sum_update_add LogKind.room ks t (.active ⟨[], 0⟩)
  have hle : ∑ u, (ks u).room ≤ (MAXOPBLOCKS - 1) * s.outstanding := by
    rw [hb.count, Finset.mul_sum]
    exact Finset.sum_le_sum fun u _ => (ks u).room_le
  have hempty : s.outstanding = 0 → s.n = 0 := fun h0 => by
    rw [LogState.n, h.empty h0 hc, List.length_nil]
  simp only [ht, LogKind.room_out, LogKind.room_active, MAXOPBLOCKS, LOGSIZE]
    at hroom hle hfit
  refine h.of_update rfl ?_ nofun (fun _ _ _ _ => List.Subset.refl _) (.inl rfl) (by simp) ?_
  · change s.n + _ ≤ _
    simp only [LOGSIZE, MAXOPBLOCKS]
    omega
  · rintro w ⟨⟩
    simp [OpLog.Small]

/-- A block that is new to the log takes one of the places its operation has left. -/
theorem write {w : OpLog} {b : ℕ} (ht : ks t = .active w)
    (hfit : (w.blocks.insert b).length ≤ MAXOPBLOCKS - 1) :
    LogRoom (s.record b) (update ks t (.active
      ⟨w.blocks.insert b, if b ∈ s.block then w.fresh else w.fresh + 1⟩)) := by
  obtain ⟨hf, hl, hsub⟩ := h.small t w ht
  have hcnt := hb.counted ht
  have hnone := hb.none_commits (hb.not_committing ht)
  have hsub' : s.block ⊆ (s.record b).block := by
    unfold LogState.record
    dsimp only
    split
    · exact List.Subset.refl _
    · exact List.subset_append_left _ _
  have hmem : b ∈ (s.record b).block := by
    unfold LogState.record
    dsimp only
    split <;> simp_all
  have hfresh : (if b ∈ s.block then w.fresh else w.fresh + 1) ≤ (w.blocks.insert b).length := by
    split
    · exact hf.trans List.length_le_length_insert
    · rename_i hb
      rw [List.length_insert_of_not_mem fun hw => hb (hsub hw)]
      omega
  have hn : (s.record b).n + (MAXOPBLOCKS - 1 - if b ∈ s.block then w.fresh else w.fresh + 1) =
      s.n + (MAXOPBLOCKS - 1 - w.fresh) := by
    unfold LogState.n LogState.record
    dsimp only
    split at hfresh
    · simp_all
    · simp_all
      omega
  refine h.of_update rfl (h.space_of (by rw [ht]; exact hn.le)) nofun
    (fun _ _ _ _ => hsub') (.inr fun u _ hu => hnone u (by simp [hu])) (fun h0 => ?_) ?_
  · simp only [LogState.record] at h0
    omega
  · rintro w' ⟨⟩
    refine ⟨hfresh, hfit, fun c hc => ?_⟩
    rcases List.mem_insert_iff.mp hc with rfl | hc
    · exact hmem
    · exact hsub' (hsub hc)

/-- `commit` empties the log, with no operation under way. -/
theorem commit (ht : ks t = .committing) :
    LogRoom { s with block := [], written := [] } (update ks t .cleared) := by
  have hc := hb.commits t (by simp [ht])
  refine h.of_update rfl (h.space_of (by simp [LogState.n])) (fun _ => rfl)
    (fun u w _ hw => ?_) (.inr fun u hu hu' => ?_) (fun _ _ => rfl) nofun
  · simp [hb.not_committing hw] at hc
  · exact hu (hb.single u t (by simp [hu']) (by simp [ht]))

theorem act {p k : LogPc} {i : LogCall} (hp : p.kind = ks t) (hfit : OpFits (MAXOPBLOCKS - 1) p s i)
    (ha : LogAct s p s' k) : LogRoom s' (update ks t k.kind) ∧ ∀ m w, k ≠ .panic m w := by
  cases ha with
  | call hkind _ hk =>
    rw [hkind, hp, update_eq_self]
    refine ⟨h, ?_⟩
    rintro m w rfl
    exact hk trivial
  | wait =>
    refine ⟨?_, nofun⟩
    change LogRoom s (update ks t (LogPc.begin_op .test).kind)
    rw [hp, update_eq_self]
    exact h
  | enter ha => exact ⟨h.enter hb hp.symm ha, nofun⟩
  | tooBig hfull =>
    have := h.n_lt
    have := h.size
    omega
  | outside h0 =>
    have := hb.counted hp.symm
    omega
  | record => exact ⟨h.write hb hp.symm hfit, nofun⟩
  | late hc => simp [hb.not_committing hp.symm] at hc
  | last => exact ⟨h.leave rfl rfl rfl nofun nofun nofun, nofun⟩
  | leave _ h0 => exact ⟨h.leave rfl rfl rfl nofun nofun fun h0' => absurd h0' h0, nofun⟩
  | commit => exact ⟨h.commit hb hp.symm, nofun⟩
  | clear => exact ⟨h.leave rfl rfl rfl nofun nofun fun _ _ => h.cleared t hp.symm, nofun⟩

end LogRoom

/-- In every run of any number of processes whose operations pass at most `MAXOPBLOCKS - 1`
distinct blocks each to `log_write`, none of the log's panics is reached. -/
theorem log_write_fits_of_small {st : State N Unit LogState LogPc}
    (h : Machine.Reach (step logCode) (Meets (OpFits (MAXOPBLOCKS - 1))) (logStart N) st)
    (t : Fin N) (m : LogPanic) (w : Option OpLog) : (st.thread t).pc ≠ .panic m w := by
  have hstart : LogRoom (logStart N).shared fun _ : Fin N => .out := by
    constructor <;> simp [logStart, State.start, nlog, LogState.n]
  refine (kinds_invariant (J := fun sh ks => LogBook sh ks ∧ LogRoom sh ks)
    (C := fun p => ∀ m w, p ≠ .panic m w) ⟨logBook_start N, hstart⟩ (by simp) (fun _ hk => hk)
    (fun hJ hp hfit ha => ?_) h).2 t m w
  obtain ⟨hroom, hk⟩ := hJ.2.act hJ.1 hp hfit ha
  exact ⟨⟨(hJ.1.act hp ha).1, hroom⟩, hk⟩

/-- Two operations of nine blocks each. -/
theorem log_write_fits_of_small_nine : ∃ st : State 2 Unit LogState LogPc,
    Machine.Reach (step logCode) (Meets (OpFits (MAXOPBLOCKS - 1))) (logStart 2) st ∧
      st.shared.n = 18 ∧ ∀ t m w, (st.thread t).pc ≠ .panic m w := by
  obtain ⟨st, hr, hn⟩ := Machine.exists_reach_of_exec (step logCode) (Meets (OpFits 9))
    (fun s : State 2 Unit LogState LogPc => s.shared.n = 18) (s := logStart 2)
    (l := logOp 0 (List.range 9) ++ logOp 1 (List.range' 9 9)) (by decide +kernel)
  exact ⟨st, hr, by simpa using hn, log_write_fits_of_small hr⟩

end Small

/-! ## Sleepers on the log -/

/-- The programs, with a commit only while `committing` is set. -/
def gatedCode : LogPc → Instr Unit LogState LogPc LogCall
  | .end_op .commit => .act fun _ s =>
      if s.committing then some ({ s with block := [], written := [] }, .end_op .relock) else none
  | p => logCode p

def sleepOutline : Outline LogPc LogState LogCall where
  crit := LogPc.Locked
  inv _ := True
  asrt p s := p = .begin_op .sleep → s.admits = false
  admits _ _ := True

/-- A process rests while it would not be admitted. -/
def logWake : Wake Unit LogState LogPc where
  idle _ s := s.admits = false
  owes p _ := p = .end_op .wakeup

theorem gatedCode_of_ne {p : LogPc} (h : p ≠ .end_op .commit) : gatedCode p = logCode p := by
  unfold gatedCode
  split
  · exact absurd rfl h
  · rfl

variable {p k : LogPc} {f : LogCall → LogState → Option (LogState × LogPc)} {i : LogCall}
  {s s' : LogState}

theorem LogState.not_admits_record (h : s.admits = false) (b : ℕ) :
    (s.record b).admits = false := by
  have hn : s.n ≤ (s.record b).n := by
    unfold LogState.n LogState.record
    dsimp only
    split
    · exact le_rfl
    · simp
  simp only [LogState.admits, Bool.and_eq_false_iff, Bool.not_eq_false',
    decide_eq_false_iff_not] at h ⊢
  exact h.imp id fun hlt hle => hlt ((Nat.add_le_add_right hn _).trans hle)

/-- What the actions with the lock held do to admission. -/
theorem sleep_act (hc : gatedCode p = .act f) (hp : p.Locked) (hf : f i s = some (s', k)) :
    k.Locked ∧ (k = .begin_op .sleep → s'.admits = false) ∧
      (s.admits = false ∨ p = .end_op .wakeup → s'.admits = false ∨ k = .end_op .wakeup) := by
  rw [gatedCode_of_ne (by rintro rfl; exact hp)] at hc
  cases logAct_of_code hc hf with
  | call _ hp' => exact absurd hp hp'
  | wait ha => exact ⟨nofun, fun _ => ha, fun _ => .inl ha⟩
  | enter ha => exact ⟨nofun, nofun, fun h => by simp [ha] at h⟩
  | tooBig | outside => exact ⟨trivial, nofun, fun h => .inl (h.resolve_right nofun)⟩
  | record =>
    exact ⟨nofun, nofun, fun h => .inl (LogState.not_admits_record (h.resolve_right nofun) _)⟩
  | late hcm => exact ⟨trivial, nofun, fun _ => .inl (by simp [LogState.admits, hcm])⟩
  | last => exact ⟨trivial, nofun, fun _ => .inl (by simp [LogState.admits])⟩
  | leave | clear => exact ⟨trivial, nofun, fun _ => .inr rfl⟩
  | commit => exact hp.elim

/-- What the actions without the lock do : nothing to the log, except a commit. -/
theorem sleep_actFree (hc : gatedCode p = .act f) (hp : ¬ p.Locked) (hf : f i s = some (s', k)) :
    ¬ k.Locked ∧ (s' = s ∨ (s.committing = true ∧ s'.committing = true)) := by
  unfold gatedCode at hc
  split at hc
  · cases hc
    dsimp only at hf
    split at hf <;> cases hf
    exact ⟨id, .inr ⟨‹_›, ‹_›⟩⟩
  · rename_i hne
    cases logAct_of_code hc hf with
    | call _ _ hk => exact ⟨hk, .inl rfl⟩
    | commit => exact absurd rfl hne
    | wait | enter | tooBig | outside | record => exact absurd nofun hp
    | late | last | leave | clear => exact absurd trivial hp

/-- Where the programs take the lock, give it up, sleep and wake others. -/
theorem gatedCode_flow (p : LogPc) :
    (∀ k, gatedCode p = .acquire k → ¬ p.Locked ∧ k.Locked ∧ k ≠ .begin_op .sleep) ∧
    (∀ k, gatedCode p = .release k → p.Locked ∧ ¬ k.Locked ∧ p ≠ .end_op .wakeup) ∧
    (∀ c k, gatedCode p = .sleep c k → p = .begin_op .sleep ∧ k = .begin_op .test) ∧
    (∀ c k, gatedCode p = .wakeup c k → p = .end_op .wakeup ∧ k = .end_op .release) ∧
    ∀ k, gatedCode p ≠ .killed k := by
  unfold gatedCode logCode LogPc.Locked
  split <;> (try split) <;> simp_all

theorem sleepOutline_sound : sleepOutline.Sound gatedCode where
  acquire {p k} h := by
    obtain ⟨hp, hk, hne⟩ := (gatedCode_flow p).1 k h
    exact ⟨hp, hk, fun _ _ he => absurd he hne⟩
  release {p k} h := by
    obtain ⟨hp, hk, -⟩ := (gatedCode_flow p).2.1 k h
    exact ⟨hp, hk, fun _ _ => trivial⟩
  sleep {p c k} h := by
    obtain ⟨rfl, rfl⟩ := (gatedCode_flow p).2.2.1 c k h
    exact ⟨by simp [sleepOutline, LogPc.Locked], by simp [sleepOutline, LogPc.Locked],
      fun _ _ => trivial, fun _ _ => nofun⟩
  wakeup {p c k} h := by
    obtain ⟨rfl, rfl⟩ := (gatedCode_flow p).2.2.2.1 c k h
    exact ⟨trivial, trivial, fun _ _ => nofun⟩
  killed {p k} h := absurd h ((gatedCode_flow p).2.2.2.2 k)
  act hc hp _ _ hf := by
    obtain ⟨hk, hs, -⟩ := sleep_act hc hp hf
    exact ⟨hk, hs⟩
  actFree hc hp _ hf := by
    obtain ⟨hk, rfl | ⟨-, hcm⟩⟩ := sleep_actFree hc hp hf
    · exact ⟨hk, id, fun _ _ => id⟩
    · exact ⟨hk, id, fun _ _ _ _ => by simp [LogState.admits, hcm]⟩

theorem logWake_sound : logWake.Sound sleepOutline gatedCode where
  sleep {p c k s} h hs := hs ((gatedCode_flow p).2.2.1 c k h).1
  wakeup _ hne := absurd rfl hne
  killed {p k c} h := absurd h ((gatedCode_flow p).2.2.2.2 k)
  act hc hp _ _ hf := (sleep_act hc hp hf).2.2
  actFree hc hp _ hf hidle := by
    obtain ⟨-, rfl | ⟨-, hcm⟩⟩ := sleep_actFree hc hp hf
    · exact hidle
    · simp [logWake, LogState.admits, hcm]

section Runs

variable {N : ℕ} {s : State N Unit LogState LogPc}
  {ok : State N Unit LogState LogPc → Label N LogCall → Prop}

/-- Every run takes the steps of `gatedCode`. -/
theorem reach_gated (h : Machine.Reach (step logCode) ok (logStart N) s) :
    Machine.Reach (step gatedCode) ok (logStart N) s := by
  refine h.congr (fun s hs => (logBook_of_reach hs).1) fun s a s' hb hs => ?_
  cases a with
  | kill t => exact hs
  | run t i =>
    by_cases hp : (s.thread t).pc = .end_op .commit
    · have hcm : s.shared.committing = true :=
        hb.1.commits t (by simp [State.points, hp, LogPc.kind])
      simp only [step, runStep, hp] at hs ⊢
      simpa [gatedCode, logCode, hcm] using hs
    · have hcode := gatedCode_of_ne hp
      simp only [step, runStep, hcode] at hs ⊢
      exact hs

/-- While the lock is free, a process rests on `&log` only if it would not be admitted. -/
theorem log_no_lost_wakeup (h : Machine.Reach (step logCode) ok (logStart N) s)
    (hl : s.lock = none) {t : Fin N} (ht : s.Resting t ()) : s.shared.admits = false := by
  refine logWake_sound.no_lost_wakeup sleepOutline_sound (fun s a _ => by cases a <;> trivial)
    (fun s a _ _ => ?_) (.start id trivial) .start (reach_gated h) hl ht
  refine Wake.clean_of_code (fun p k _ hk => ((gatedCode_flow p).2.1 k hk).2.2)
    (fun p c k _ hs ho => ?_) s a
  cases ((gatedCode_flow p).2.2.1 c k hs).1.symm.trans ho

/-- Nobody is let in and nothing is recorded during a commit. -/
theorem LogAct.during_commit {s s' : LogState} {p k : LogPc} (h : LogAct s p s' k)
    (hc : s.committing = true) (hp : ∀ w, p.kind ≠ .active w) :
    s'.outstanding = s.outstanding ∧ (s'.block = s.block ∨ s'.block = []) := by
  cases h with
  | call | wait | clear => exact ⟨rfl, .inl rfl⟩
  | enter ha => simp [LogState.admits, hc] at ha
  | tooBig | outside | record | late | last | leave => exact absurd rfl (hp _)
  | commit => exact ⟨rfl, .inr rfl⟩

/-- In every run of any number of processes : while `committing` is set no operation is under
way, and no step admits one or adds a block to the log ; the log holds no block twice ;
`end_op` does not find `committing` set ; and while the lock is free nobody rests on `&log` who
would be admitted. -/
theorem log_admission (h : Machine.Reach (step logCode) (fun _ _ => True) (logStart N) s) :
    (s.shared.committing = true → s.shared.outstanding = 0 ∧
      (∀ t w, (s.thread t).pc.kind ≠ .active w) ∧
      ∀ a s', step logCode s a = some s' → s'.shared.outstanding = 0 ∧
        (s'.shared.block = s.shared.block ∨ s'.shared.block = [])) ∧
    s.shared.block.Nodup ∧
    (∀ t w, (s.thread t).pc ≠ .panic .committing w) ∧
    (s.lock = none → s.shared.committing = false →
      s.shared.n + (s.shared.outstanding + 1) * MAXOPBLOCKS ≤ LOGSIZE → ∀ t, ¬ s.Resting t ()) := by
  obtain ⟨⟨hbook, hpanic⟩, hexact⟩ := logBook_of_reach h
  refine ⟨fun hc => ?_, hexact.nodup, hpanic, fun hl hc hn t ht => ?_⟩
  · have hout := hbook.quiet hc
    have hidle : ∀ t w, (s.thread t).pc.kind ≠ .active w := fun t w ht => by
      have := hbook.counted (t := t) ht
      omega
    refine ⟨hout, hidle, fun a s' hs => ?_⟩
    rcases (move_of_step hs).points with ⟨hsh, -⟩ | ⟨t, k, i, -, -, ⟨hsh, -⟩ | ⟨f, hf, hs'⟩⟩
    · rw [hsh]
      exact ⟨hout, .inl rfl⟩
    · rw [hsh]
      exact ⟨hout, .inl rfl⟩
    · obtain ⟨ho, hb⟩ := (logAct_of_code hf hs').during_commit hc (hidle t)
      exact ⟨ho.trans hout, hb⟩
  · have hno := log_no_lost_wakeup h hl ht
    simp [LogState.admits, hc, hn] at hno

end Runs

/-- Three processes begin an operation, a fourth has to wait, and the first ends. -/
def fourthWaits : List (Label 4 LogCall) :=
  List.replicate 4 (.run 0 .begin_op) ++ List.replicate 4 (.run 1 .begin_op) ++
    List.replicate 4 (.run 2 .begin_op) ++ List.replicate 5 (.run 3 .begin_op) ++
    List.replicate 10 (.run 0 .end_op)

theorem log_admission_fourth : ∃ s,
    Machine.Reach (step logCode) (fun _ _ => True) (logStart 4) s ∧ s.lock = none ∧
      s.shared.outstanding = 2 ∧ (s.thread 3).mode = .roused ∧ ∀ t, ¬ s.Resting t () :=
  have hr := Machine.reach_of_exec (fun _ _ => True) (l := fourthWaits) rfl
  ⟨_, hr, rfl, rfl, rfl, (log_admission hr).2.2.2 rfl rfl (by decide)⟩

end Xv6
