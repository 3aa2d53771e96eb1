import Xv6.ProcControl

/-!
# The process tree and the reaping of its processes

Three invariants of the process table, each on top of the control invariant.

The tree (`Procs.Tree`) : the parent of a process is alive and, if it is exiting, has not
come to this child yet ; so a process that has been started has a parent until it is
reaped, and `exit` leaves no orphan behind.

The waiting (`Procs.Waits`) : what the holder of `wait_lock` knows at each point of `wait`
and `exit`. An exit wakes the parent before it makes itself `ZOMBIE`, and this is enough
because the parent cannot go to sleep without `wait_lock`. The one zombie a sleeping
process can have was just given to init, and `reparent` is about to wake init.

The record (`Procs.Exits`, `Procs.Reaps`) : the history has at most one exit and at most
one reaping of each allocation, and the reaping returns the status of the exit.

`wait_reaps_once` collects them for every reachable state.
-/

set_option linter.unusedSectionVars false

namespace Xv6

variable {N : ℕ} [NeZero N] {s s' : Procs N} {t u k q : Fin N}

/-! ## The process tree -/

/-- The process is in `exit` and has given up slot `k`, should it have been its child. -/
def ProcPc.passed (k : Fin N) : ProcPc N → Prop
  | .exit (.reparent j) _ => k < j
  | .exit (.rewake j _) _ => k ≤ j
  | .exit (.wakeParent _) _ | .exit .die _ | .exit .gone _ | .dead => True
  | _ => False

/-- The process tree is well formed. -/
structure Procs.Tree (s : Procs N) : Prop where
  /-- a parent is alive, and if it is exiting it has not come to this child yet -/
  parent : ∀ k q, (s.proc k).parent = some q → (s.proc q).Live ∧ ¬ (s.pc q).passed k
  /-- every process but init that has been started has a parent -/
  linked : ∀ k, (s.proc k).state ≠ .unused → (s.proc k).state ≠ .used → k ≠ 0 →
    (s.proc k).parent ≠ none
  /-- `fork` links a child before it starts it -/
  starting : ∀ t np pid, s.pc t = .fork (.start np pid) → (s.proc np).parent = some t

variable {pc : ProcPc N} {hist hist' : List (ProcEvent N)}

theorem ProcPc.not_passed_of_idle (h : pc.idle) : ¬ pc.passed k := by
  unfold ProcPc.idle at h
  split at h <;> simp_all [passed]

theorem Procs.Control.not_passed_init (h : s.Control) : ¬ (s.pc 0).passed k := by
  obtain ⟨hl, hx⟩ := h.init
  have hat := h.pcAt 0
  unfold ProcPc.passed
  split <;> simp_all [ProcPc.exiting]
  rcases hl with hl | hl | hl <;> simp [hl, ProcState.At, ProcPc.out] at hat

section Tree

variable (h : s.Control) (hT : s.Tree) (hm : ProcMove s t s')

include h hm

/-- An exiting process only passes a child by giving it away. -/
theorem ProcMove.passed_self (hn : ¬ (s.pc t).passed k) (hk : (s'.proc k).parent = some t) :
    ¬ (s'.pc t).passed k := by
  cases hm with
  | goto hr hi hi' | fault hr hp hi' => simpa using ProcPc.not_passed_of_idle hi'
  | alloc => simp [Procs.allocAt, ProcPc.passed]
  | dispatch | yield => exact hn
  | @reparent j i st hr hp hj hc =>
    have ht : 0 ≠ t := by
      rintro rfl
      have := h.init.2
      simp [hp, ProcPc.exiting] at this
    have hkj : k ≠ j := by
      rintro rfl
      simp [ht] at hk
    simp only [hp, ProcPc.passed, Procs.goto_pc, Function.update_self] at hn ⊢
    omega
  | @reparentSkip j i st hr hp hj hc =>
    have hkj : k ≠ j := by
      rintro rfl
      exact hc hk
    simp only [hp, ProcPc.passed, Procs.goto_pc, Function.update_self] at hn ⊢
    omega
  | reparentEnd hr hp hi =>
    simp only [hp, ProcPc.passed] at hn
    omega
  | rewake hr hp | rewakeEnd hr hp =>
    simp only [hp, ProcPc.passed, Procs.goto_pc, Function.update_self] at hn ⊢
    omega
  | wakeParent hr hp | wakeParentEnd hr hp | die hr hp | gone hp =>
    simp [hp, ProcPc.passed] at hn
  | _ => simp [ProcPc.passed]

theorem ProcMove.live_self (hn : ¬ (s.pc t).passed k) : (s'.proc t).Live := by
  obtain ⟨p, pc, hp', -, hs⟩ := hm.self h
  rw [hp']
  cases hs with
  | steady _ hs => exact .inr (.inr hs)
  | die hr hp | gone hp => simp [hp, ProcPc.passed] at hn
  | doze => exact .inl rfl
  | yield => exact .inr (.inl rfl)
  | resume | dispatch => exact .inr (.inr rfl)

include hT

theorem ProcMove.tree_parent (hk : (s'.proc k).parent = some q) :
    (s'.proc q).Live ∧ ¬ (s'.pc q).passed k := by
  rcases hm.parent_cases h k with hp | hp | ⟨pid, hp, hp'⟩ | ⟨st, -, hp, hp'⟩
  · obtain ⟨hl, hn⟩ := hT.parent k q (hp ▸ hk)
    by_cases hq : q = t
    · subst hq
      exact ⟨hm.live_self h hn, hm.passed_self h hn hk⟩
    · obtain ⟨hl', hpc⟩ := hm.live_other h hq hl
      exact ⟨hl', by rwa [hpc]⟩
  · simp [hp] at hk
  · obtain rfl : t = q := by simpa [hp'] using hk
    have hn : ¬ (s.pc t).passed k := by simp [hp, ProcPc.passed]
    exact ⟨hm.live_self h hn, hm.passed_self h hn hk⟩
  · obtain rfl : 0 = q := by simpa [hp'] using hk
    exact ⟨(hm.control h).init.1, (hm.control h).not_passed_init⟩

theorem ProcMove.tree_linked (hu : (s'.proc k).state ≠ .unused) (he : (s'.proc k).state ≠ .used)
    (h0 : k ≠ 0) : (s'.proc k).parent ≠ none := by
  by_cases hk : k = t
  · subst hk
    have hl : (s.proc k).parent ≠ none := by
      refine hT.linked k ?_ ?_ h0
      all_goals
        intro hs
        have hat := h.pcAt k
        rcases hm.mover h with hl | ⟨st, hg⟩
        · simp [Proc.Live, hs] at hl
        · simp [hs, hg, ProcState.At] at hat
    obtain ⟨p, pc, hp', -, hs⟩ := hm.self h
    rw [hp']
    cases hs with
    | steady _ _ hp => rwa [hp]
    | _ => exact hl
  · have hlink := hT.linked k
    obtain ⟨p, pc, hp', -, ht⟩ := hm.touch hk
    rw [hp'] at hu he ⊢
    cases ht with
    | alloc => simp [Proc.alloc] at he
    | buildFail | reap => simp [Proc.free] at hu
    | setParent | reparent => simp
    | start hp => simp [hT.starting _ _ _ hp]
    | woken hw =>
      rw [hw.parent]
      rcases hw.state with hs | ⟨hs, -⟩
      · exact hlink (hs ▸ hu) (hs ▸ he) h0
      · exact hlink (by simp [hs]) (by simp [hs]) h0
    | _ => exact hlink hu he h0

theorem ProcMove.tree_starting {np : Fin N} {pid : CInt} (hu : s'.pc u = .fork (.start np pid)) :
    (s'.proc np).parent = some u := by
  by_cases hut : u = t
  · subst hut
    cases hm with
    | goto hr hi hi' | fault hr hp hi' =>
      have hc := (ProcPc.idle_facts hi').2.2.1
      simp only [Procs.goto_pc, Function.update_self] at hu
      simp [hu, ProcPc.child] at hc
    | setParent hr hp =>
      obtain ⟨rfl, -⟩ := by simpa using hu
      simp
    | dispatch | yield =>
      have hpc : s.pc u = .fork (.start np pid) := hu
      simpa [h.child_ne (by rw [hpc]; rfl)] using hT.starting _ _ _ hpc
    | _ => simp [Procs.allocAt] at hu
  · have hpc : s.pc u = .fork (.start np pid) := by
      rcases hm.pc_other h hut with hpc | ⟨-, hpc⟩
      · rw [← hpc, hu]
      · simp [hpc] at hu
    have hc : (s.pc u).child = some np := by rw [hpc]; rfl
    have hused := h.child _ _ hc
    have hinj : (s.pc t).child ≠ some np := fun hc' => hut (h.child_inj _ _ _ hc hc')
    have hpar := hT.starting _ _ _ hpc
    obtain ⟨p, pc, hp', -, ht⟩ := hm.touch (hm.child_ne h hc)
    rw [hp']
    cases ht with
    | buildFail hp | setParent hp => simp [hp, ProcPc.child] at hinj
    | reparent hp hc' => simp [hpar, hut] at hc'
    | woken hw => rwa [hw.parent]
    | reap hp hc hl hz => simp [hused] at hz
    | _ => exact hpar

theorem ProcMove.tree : s'.Tree where
  parent _ _ := hm.tree_parent h hT
  linked _ := hm.tree_linked h hT
  starting _ _ _ := hm.tree_starting h hT

end Tree

theorem tree_start : (Procs.start : Procs N).Tree where
  parent k q hk := by
    by_cases h0 : k = 0 <;> simp [Procs.start, h0, Proc.zero] at hk
  linked k hu _ h0 := by simp [Procs.start, h0, Proc.zero] at hu
  starting t np pid hp := by simp [Procs.start] at hp

/-! ## Waiting -/

/-- The process sleeps in `wait`, or is past the point from which a `wakeup` finds it : it
holds its `p->lock` until it sleeps. -/
def Procs.Resting (s : Procs N) (t : Fin N) : Prop :=
  s.pc t = .wait .doze ∨ (s.pc t = .wait .asleep ∧ (s.proc t).state = .sleeping)

/-- What holds when process `t`, which has `wait_lock`, is at the given point. -/
def Procs.Fact (s : Procs N) (t : Fin N) : ProcPc N → Prop
  | .wait (.scan i havekids) =>
    ∀ k, k.val < i → (s.proc k).parent = some t →
      havekids = true ∧ (s.proc k).state ≠ .zombie
  | .wait .killed | .wait .sleep =>
    ∀ k, (s.proc k).parent = some t → (s.proc k).state ≠ .zombie
  | .wait (.fail .nokids) => ∀ k, (s.proc k).parent ≠ some t
  | .wait (.fail .killed) => (s.proc t).killed = true
  | .exit (.wakeParent j) _ => ∀ q, (s.proc t).parent = some q → s.Resting q → j ≤ q
  | .exit .die _ => ∀ q, (s.proc t).parent = some q → ¬ s.Resting q
  | _ => True

/-- The facts on which `wait` and `exit` rely. -/
structure Procs.Waits (s : Procs N) : Prop where
  /-- a process asleep in `wait` sleeps on its own slot -/
  chan : ∀ t, s.pc t = .wait .asleep → (s.proc t).state = .sleeping →
    (s.proc t).chan = some t
  fact : ∀ t, s.Fact t (s.pc t)
  /-- an exited child of a resting process has just been given to init, which
  `reparent` is about to wake -/
  rested : ∀ t k, s.Resting t → (s.proc k).parent = some t → (s.proc k).state = .zombie →
    t = 0 ∧ ∃ u i st, s.pc u = .exit (.rewake i 0) st

theorem Procs.Fact.of_not_holdsWait (h : pc.holdsWait = false) : s.Fact t pc := by
  unfold Procs.Fact
  split <;> simp_all [ProcPc.holdsWait]

/-- The facts are about the absence of children, of exited children and of resting
processes. -/
theorem Procs.Fact.mono (h : s.Fact t pc)
    (hpar : ∀ k q, (s'.proc k).parent = some q → (s.proc k).parent = some q)
    (hz : ∀ k, (s'.proc k).state = .zombie → (s.proc k).state = .zombie)
    (hr : ∀ q, s'.Resting q → s.Resting q)
    (hx : (s.proc t).killed = true → (s'.proc t).killed = true) : s'.Fact t pc := by
  unfold Procs.Fact at h ⊢
  split
  · intro k hk hp
    obtain ⟨hh, hnz⟩ := h k hk (hpar _ _ hp)
    exact ⟨hh, fun hz' => hnz (hz _ hz')⟩
  · exact fun k hp hz' => h k (hpar _ _ hp) (hz _ hz')
  · exact fun k hp hz' => h k (hpar _ _ hp) (hz _ hz')
  · exact fun k hp => h k (hpar _ _ hp)
  · exact hx h
  · exact fun q hp hq => h q (hpar _ _ hp) (hr _ hq)
  · exact fun q hp hq => h q (hpar _ _ hp) (hr _ hq)
  · trivial

/-- A step puts no other process to sleep. -/
theorem ProcMove.sleeping_other (hm : ProcMove s t s') (hk : k ≠ t)
    (hs : (s'.proc k).state = .sleeping) :
    (s.proc k).state = .sleeping ∧ (s'.proc k).chan = (s.proc k).chan := by
  obtain ⟨p, pc, hp', -, ht⟩ := hm.touch hk
  rw [hp'] at hs ⊢
  cases ht with
  | alloc | buildFail | start | reap => cases hs
  | woken hw =>
    rcases hw.state with hs' | ⟨-, hs'⟩
    · exact ⟨hs' ▸ hs, hw.chan⟩
    · simp [hs'] at hs
  | _ => exact ⟨hs, rfl⟩

/-- The holder of `wait_lock` is `RUNNING`. -/
theorem Procs.Control.running (h : s.Control) (hw : (s.pc t).holdsWait = true) :
    (s.proc t).state = .running := by
  have hat := h.pcAt t
  cases hs : (s.proc t).state <;> rw [hs] at hat
  case runnable => simp [hat.1] at hw
  case zombie => rcases hat with hp | ⟨st, hp⟩ <;> simp [hp, ProcPc.holdsWait] at hw
  case unused => rcases hat with hp | hp <;> simp [hp, ProcPc.holdsWait] at hw
  all_goals
    rw [show s.pc t = _ from hat] at hw
    cases hw

section Waits

variable (h : s.Control) (hW : s.Waits) (hm : ProcMove s t s')

include h hm

/-- Who is `ZOMBIE` after a step. -/
theorem ProcMove.zombie (hz : (s'.proc k).state = .zombie) :
    (s.proc k).state = .zombie ∨ (k = t ∧ ∃ st, s.pc t = .exit .die st) := by
  by_cases hk : k = t
  · subst hk
    obtain ⟨p, pc, hp', -, hs⟩ := hm.self h
    rw [hp'] at hz
    cases hs with
    | steady _ hs => simp [hs] at hz
    | die hr hp => exact .inr ⟨rfl, _, hp⟩
    | gone hp => exact .inl hz
    | doze | resume | dispatch | yield => cases hz
  · obtain ⟨p, pc, hp', -, ht⟩ := hm.touch hk
    rw [hp'] at hz
    left
    cases ht with
    | alloc | buildFail | start | reap => cases hz
    | woken hw =>
      rcases hw.state with hs | ⟨-, hs⟩
      · rwa [← hs]
      · simp [hs] at hz
    | _ => exact hz

/-- A process comes to rest only in `sleep`, giving up `wait_lock`. -/
theorem ProcMove.resting (hq : s'.Resting q) : s.Resting q ∨ (q = t ∧ s.pc t = .wait .sleep) := by
  by_cases hqt : q = t
  · subst hqt
    cases hm with
    | goto hr hi hi' | fault hr hp hi' =>
      have := ProcPc.idle_facts hi'
      rcases hq with hq | ⟨hq, -⟩ <;>
        simp only [Procs.goto_pc, Function.update_self] at hq <;>
        simp [hq, ProcPc.holdsProc, ProcPc.out] at this
    | sleep hr hp => exact .inr ⟨rfl, hp⟩
    | doze hr hp => exact .inl (.inl hp)
    | dispatch hr hp | yield hr hp =>
      rcases hq with hq | ⟨-, hq⟩
      · exact .inl (.inl hq)
      · simp at hq
    | _ => rcases hq with hq | ⟨hq, -⟩ <;> simp [Procs.allocAt] at hq
  · left
    rcases hm.pc_other h hqt with hpc | ⟨-, hpc⟩
    · rw [Procs.Resting, hpc] at hq
      exact hq.imp_right fun hq => ⟨hq.1, (hm.sleeping_other hqt hq.2).1⟩
    · simp [Procs.Resting, hpc] at hq

/-- A process that does not hold `wait_lock` makes no children, zombies or sleepers in
`wait`. -/
theorem ProcMove.calm (hw : (s.pc t).holdsWait = false) :
    (∀ k q, (s'.proc k).parent = some q → (s.proc k).parent = some q) ∧
      (∀ k, (s'.proc k).state = .zombie → (s.proc k).state = .zombie) ∧
      ∀ q, s'.Resting q → s.Resting q := by
  refine ⟨fun k q hk => ?_, fun k hz => ?_, fun q hq => ?_⟩
  · rcases hm.parent_cases h k with hp | hp | ⟨pid, hp, -⟩ | ⟨st, hp, -⟩
    · rwa [← hp]
    · simp [hp] at hk
    · simp [hp, ProcPc.holdsWait] at hw
    · simp [hp, ProcPc.holdsWait] at hw
  · refine (hm.zombie h hz).resolve_right ?_
    rintro ⟨-, st, hp⟩
    simp [hp, ProcPc.holdsWait] at hw
  · refine (hm.resting h hq).resolve_right ?_
    rintro ⟨-, hp⟩
    simp [hp, ProcPc.holdsWait] at hw

theorem ProcMove.killed_other (hu : u ≠ t) (hl : (s.proc u).Live) (hx : (s.proc u).killed = true) :
    (s'.proc u).killed = true := by
  have hbuild : (s.pc t).child ≠ some u := fun hc => by
    simp [Proc.Live, h.child _ _ hc] at hl
  obtain ⟨p, pc, hp', -, ht⟩ := hm.touch hu
  rw [hp']
  cases ht with
  | buildFail hp => simp [hp, ProcPc.child] at hbuild
  | reap hp hc hl' hz => simp [Proc.Live, hz] at hl
  | woken hw => exact hw.killed hx
  | _ => exact hx

/-- `reparent` goes on to wake init when it has given it a child. -/
theorem ProcMove.pc_of_reparent {st : CInt} (hp : s.pc t = .exit (.reparent k) st)
    (hk : (s.proc k).parent = some t) : s'.pc t = .exit (.rewake k 0) st := by
  have hr : s.Running t := h.running (by rw [hp]; rfl)
  cases hm with
  | reparent _ hp' hj =>
    obtain ⟨rfl, rfl⟩ := by simpa [hp] using hp'
    simp
  | @reparentSkip j i st _ hp' hj hc =>
    obtain ⟨rfl, rfl⟩ := by simpa [hp] using hp'
    obtain rfl := Fin.ext hj
    exact absurd hk hc
  | reparentEnd _ hp' hN =>
    obtain ⟨rfl, rfl⟩ := by simpa [hp] using hp'
    omega
  | goto _ hi => simp [hp, ProcPc.idle] at hi
  | gone hp' => simp [hp] at hp'
  | resume hr' | dispatch hr' => simp [hr] at hr'
  | yield _ hw => simp [hp, ProcPc.holdsWait] at hw
  | _ _ hp' => simp [hp] at hp'

include hW

theorem ProcMove.waits_chan (hp : s'.pc u = .wait .asleep) (hs : (s'.proc u).state = .sleeping) :
    (s'.proc u).chan = some u := by
  by_cases hu : u = t
  · subst hu
    obtain ⟨p, pc, hp', hpc', ho⟩ := hm.self h
    rw [hp'] at hs ⊢
    rw [hpc'] at hp
    cases ho with
    | steady _ hs' => simp [hs'] at hs
    | doze => rfl
    | _ => simp_all
  · obtain ⟨hs', hc⟩ := hm.sleeping_other hu hs
    rcases hm.pc_other h hu with hpc | ⟨-, hpc⟩
    · rw [hc, hW.chan u (by rw [← hpc, hp]) hs']
    · simp [hpc] at hp

/-- The facts of a process are kept by the steps of the others : they need `wait_lock` to
break them. -/
theorem ProcMove.fact_other (hu : u ≠ t) : s'.Fact u (s'.pc u) := by
  by_cases hw : (s'.pc u).holdsWait = true
  · have hpc : s'.pc u = s.pc u := by
      rcases hm.pc_other h hu with hpc | ⟨-, hpc⟩
      · exact hpc
      · simp [hpc, ProcPc.holdsWait] at hw
    rw [hpc] at hw ⊢
    have hwt : (s.pc t).holdsWait = false := by
      by_contra hwt
      have hw₁ := (h.waitLock u).1 hw
      have hw₂ := (h.waitLock t).1 (by simpa using hwt)
      exact hu (by simpa [hw₁] using hw₂)
    obtain ⟨hpar, hz, hr⟩ := hm.calm h hwt
    refine (hW.fact u).mono hpar hz hr (hm.killed_other h hu ?_)
    exact .inr (.inr (h.running hw))
  · exact .of_not_holdsWait (by simpa using hw)

/-- `wakeup` finds a resting process. -/
theorem ProcMove.not_resting_of_wake (hq : q ≠ t) (hl : (s.proc q).lock = false)
    (hp : s'.proc q = (s.proc q).wake (some q)) : ¬ s'.Resting q := by
  have hdoze : s.pc q ≠ .wait .doze := fun hd => by
    have := h.own q (by rw [hd]; rfl)
    simp [hl] at this
  rintro (hr | ⟨hr, hs⟩)
  · rcases hm.pc_other h hq with hpc | ⟨-, hpc⟩
    · exact hdoze (by rw [← hpc, hr])
    · simp [hpc] at hr
  · rcases hm.pc_other h hq with hpc | ⟨-, hpc⟩
    · obtain ⟨hs', -⟩ := hm.sleeping_other hq hs
      have hc := hW.chan q (by rw [← hpc, hr]) hs'
      simp [hp, Proc.wake, hs', hc] at hs
    · simp [hpc] at hr

theorem ProcMove.fact_self : s'.Fact t (s'.pc t) := by
  have hf := hW.fact t
  have hm' := hm
  cases hm with
  | goto hr hi hi' | fault hr hp hi' =>
    exact .of_not_holdsWait (by simpa using (ProcPc.idle_facts hi').1)
  | dispatch hr hp =>
    have hat := h.pcAt t
    rw [hr] at hat
    exact .of_not_holdsWait hat.1
  | yield hr hw hl => exact .of_not_holdsWait hw
  | waitAcquire hr hp hw =>
    simp [Procs.Fact]
  | @scanChild j k hk hr hp hj hz =>
    simp only [hp, Procs.Fact, Procs.goto_pc, Function.update_self, Procs.goto_proc] at hf ⊢
    intro i hi hpar
    by_cases hij : i = j
    · exact ⟨trivial, hij ▸ hz⟩
    · exact ⟨trivial, (hf i (by omega) hpar).2⟩
  | @scanSkip j k hk hr hp hj hc =>
    simp only [hp, Procs.Fact, Procs.goto_pc, Function.update_self, Procs.goto_proc] at hf ⊢
    intro i hi hpar
    by_cases hij : i = j
    · exact absurd (hij ▸ hpar) hc
    · exact hf i (by omega) hpar
  | scanEnd hr hp hk =>
    simp only [hp, Procs.Fact, Procs.goto_pc, Function.update_self, Procs.goto_proc] at hf ⊢
    exact fun i hpar => (hf i (by omega) hpar).2
  | nokids hr hp hk =>
    simp only [hp, Procs.Fact, Procs.goto_pc, Function.update_self, Procs.goto_proc] at hf ⊢
    intro i hpar
    simpa using hf i (by omega) hpar
  | waitKilled hr hp hx => simpa [Procs.Fact] using hx
  | waitSleep hr hp =>
    simpa only [hp, Procs.Fact, Procs.goto_pc, Function.update_self, Procs.goto_proc] using hf
  | reparentEnd hr hp hk => simp [Procs.Fact]
  | @wakeParent j i st p hr hp hk hl hq =>
    simp only [hp, Procs.Fact] at hf
    simp only [Procs.Fact, Procs.goto_pc, Function.update_self]
    intro q hpar hres
    have hpar' : (s.proc t).parent = some q := by
      by_cases hj : j = t
      · subst hj
        simpa [hq] using hpar
      · simpa [Ne.symm hj] using hpar
    have hqt : q ≠ t := by
      rintro rfl
      exact h.parent_ne _ hpar'
    have hi := hf q hpar' ((hm'.resting h hres).resolve_right (by simp [hp]))
    by_cases hqj : q = j
    · subst hqj
      refine absurd hres (hm'.not_resting_of_wake h hW hqt (hl hqt) ?_)
      simp [hq, hqt, hpar']
    · omega
  | wakeParentEnd hr hp hk =>
    simp only [hp, Procs.Fact] at hf
    simp only [Procs.Fact, Procs.goto_pc, Function.update_self, Procs.goto_proc]
    intro q hpar hres
    have := hf q hpar ((hm'.resting h hres).resolve_right (by simp [hp]))
    omega
  | _ => simp [Procs.Fact, Procs.allocAt]

/-- At slot 0, `wakeup(initproc)` finds init. -/
theorem ProcMove.not_resting_init {i : ℕ} {st : CInt} (hp : s.pc t = .exit (.rewake i 0) st) :
    ¬ s'.Resting 0 := by
  have hr : s.Running t := h.running (by rw [hp]; rfl)
  have h0 : 0 ≠ t := by
    rintro rfl
    have := h.init.2
    simp [hp, ProcPc.exiting] at this
  have hm' := hm
  cases hm with
  | @rewake j k i st q _ hp' hj hl hq =>
    obtain ⟨⟨rfl, rfl⟩, rfl⟩ := by simpa [hp] using hp'
    obtain rfl : j = 0 := Fin.ext (by simpa using hj)
    refine hm'.not_resting_of_wake h hW h0 (hl h0) ?_
    simp [hq, h0]
  | @rewakeEnd k i st _ hp' hN =>
    obtain ⟨⟨rfl, rfl⟩, rfl⟩ := by simpa [hp] using hp'
    exact absurd hN (by simpa using NeZero.ne N)
  | goto _ hi => simp [hp, ProcPc.idle] at hi
  | gone hp' => simp [hp] at hp'
  | resume hr' | dispatch hr' => simp [hr] at hr'
  | yield _ hw => simp [hp, ProcPc.holdsWait] at hw
  | _ _ hp' => simp [hp] at hp'

theorem ProcMove.waits_rested (hu : s'.Resting u) (hk : (s'.proc k).parent = some u)
    (hz : (s'.proc k).state = .zombie) : u = 0 ∧ ∃ v i st, s'.pc v = .exit (.rewake i 0) st := by
  by_cases hw : (s.pc t).holdsWait = true
  · -- only the holder of `wait_lock` can be about to wake init
    have hold : ∀ {u k}, s.Resting u → (s.proc k).parent = some u →
        (s.proc k).state = .zombie → u = 0 ∧ ∃ i st, s.pc t = .exit (.rewake i 0) st := by
      intro u k hu hk hz
      obtain ⟨h0, v, i, st, hv⟩ := hW.rested u k hu hk hz
      have hv' := (h.waitLock v).1 (by rw [hv]; rfl)
      obtain rfl : t = v := by simpa [(h.waitLock t).1 hw] using hv'
      exact ⟨h0, i, st, hv⟩
    have hf := hW.fact t
    rcases hm.parent_cases h k with hp | hp | ⟨pid, hp, hp'⟩ | ⟨st, hp, hp', hp''⟩
    · rw [hp] at hk
      rcases hm.resting h hu with hu' | ⟨rfl, hs⟩
      · rcases hm.zombie h hz with hz' | ⟨rfl, st, hd⟩
        · obtain ⟨rfl, i, st, ht⟩ := hold hu' hk hz'
          exact absurd hu (hm.not_resting_init h hW ht)
        · rw [hd] at hf
          exact absurd hu' (hf u hk)
      · rcases hm.zombie h hz with hz' | ⟨-, st, hd⟩
        · rw [hs] at hf
          exact absurd hz' (hf k hk)
        · simp [hs] at hd
    · simp [hp] at hk
    · obtain rfl : t = u := by simpa [hp'] using hk
      rcases hm.resting h hu with hu' | ⟨-, hs⟩
      · simp [Procs.Resting, hp] at hu'
      · simp [hs] at hp
    · obtain rfl : 0 = u := by simpa [hp''] using hk
      exact ⟨rfl, t, k, st, hm.pc_of_reparent h hp hp'⟩
  · obtain ⟨hpar, hz', hr⟩ := hm.calm h (by simpa using hw)
    obtain ⟨h0, v, i, st, hv⟩ := hW.rested u k (hr _ hu) (hpar _ _ hk) (hz' _ hz)
    refine ⟨h0, v, i, st, ?_⟩
    have hvt : v ≠ t := by
      rintro rfl
      simp [hv, ProcPc.holdsWait] at hw
    rcases hm.pc_other h hvt with hpc | ⟨hpc, -⟩
    · rw [hpc, hv]
    · simp [hv] at hpc

theorem ProcMove.waits : s'.Waits where
  chan _ := hm.waits_chan h hW
  fact u := by
    by_cases hu : u = t
    · subst hu
      exact hm.fact_self h hW
    · exact hm.fact_other h hW hu
  rested _ _ := hm.waits_rested h hW

end Waits

theorem waits_start : (Procs.start : Procs N).Waits where
  chan t hp := by simp [Procs.start] at hp
  fact t := trivial
  rested t k hr := by simp [Procs.Resting, Procs.start] at hr

/-! ## Exactly-once reaping -/

/-- The allocations that have exited. -/
def exited (hist : List (ProcEvent N)) : List ℕ :=
  hist.filterMap fun
    | .exit p _ => some p
    | _ => none

/-- The allocations that a `wait` has returned. -/
def reaped (hist : List (ProcEvent N)) : List ℕ :=
  hist.filterMap fun
    | .reap _ _ p _ => some p
    | _ => none

theorem mem_exited {p : ℕ} : p ∈ exited hist ↔ ∃ st, .exit p st ∈ hist := by
  simp only [exited, List.mem_filterMap]
  constructor
  · rintro ⟨e, he, hp⟩
    split at hp
    · cases hp
      exact ⟨_, he⟩
    · cases hp
  · rintro ⟨st, he⟩
    exact ⟨_, he, rfl⟩

theorem mem_reaped {p : ℕ} : p ∈ reaped hist ↔ ∃ t q st, .reap t q p st ∈ hist := by
  simp only [reaped, List.mem_filterMap]
  constructor
  · rintro ⟨e, he, hp⟩
    split at hp
    · cases hp
      exact ⟨_, _, _, he⟩
    · cases hp
  · rintro ⟨t, q, st, he⟩
    exact ⟨_, he, rfl⟩

/-- Allocations are numbered, and each exits at most once. -/
structure Procs.Exits (s : Procs N) : Prop where
  born : ∀ k, (s.proc k).state ≠ .unused → (s.proc k).uid < s.born
  uid_inj : ∀ k j, (s.proc k).state ≠ .unused → (s.proc j).state ≠ .unused →
    (s.proc k).uid = (s.proc j).uid → k = j
  exit_born : ∀ p ∈ exited s.hist, p < s.born
  nodup : (exited s.hist).Nodup
  /-- an exited process that has not been reaped keeps its status -/
  zombie : ∀ k, (s.proc k).state = .zombie →
    .exit (s.proc k).uid (s.proc k).xstate ∈ s.hist
  alive : ∀ k, (s.proc k).state ≠ .unused → (s.proc k).state ≠ .zombie →
    (s.proc k).uid ∉ exited s.hist

/-- Each allocation is reaped at most once, by its parent at that moment and with the
status of its exit. -/
structure Procs.Reaps (s : Procs N) : Prop where
  reap : ∀ t q p st, .reap t q p st ∈ s.hist → q = some t ∧ .exit p st ∈ s.hist
  nodup : (reaped s.hist).Nodup
  unreaped : ∀ k, (s.proc k).state ≠ .unused → (s.proc k).uid ∉ reaped s.hist

/-- The slot holds the same allocation as before, exited or not, or is free now. -/
def Proc.Keeps (p p' : Proc N) : Prop :=
  p'.state = .unused ∨
    (p.state ≠ .unused ∧ p'.uid = p.uid ∧ (p.state = .zombie ↔ p'.state = .zombie) ∧
      (p.state = .zombie → p'.xstate = p.xstate))

theorem Proc.Keeps.of_eq {p p' : Proc N} (hs : p'.state = p.state) (hu : p'.uid = p.uid)
    (hx : p'.xstate = p.xstate) : p.Keeps p' := by
  by_cases h : p.state = .unused
  · exact .inl (hs.trans h)
  · exact .inr ⟨h, hu, by rw [hs], fun _ => hx⟩

theorem Proc.Keeps.of_alive {p p' : Proc N} (hs : p.state ≠ .unused) (hz : p.state ≠ .zombie)
    (hz' : p'.state ≠ .zombie) (hu : p'.uid = p.uid) : p.Keeps p' :=
  .inr ⟨hs, hu, by simp [hz, hz'], fun h => absurd h hz⟩

theorem Proc.Keeps.of_woken {p p' : Proc N} (h : p.Woken p') : p.Keeps p' := by
  rcases h.state with hs | ⟨hs, hs'⟩
  · exact .of_eq hs h.uid h.xstate
  · exact .of_alive (by simp [hs]) (by simp [hs]) (by simp [hs']) h.uid

/-- The history has grown by nothing, or by an event other than an exit or a reaping. -/
def Quiet (hist hist' : List (ProcEvent N)) : Prop :=
  hist' = hist ∨ ∃ e, hist' = e :: hist ∧ exited [e] = [] ∧ reaped [e] = []

/-- What a step does to the life of processes. -/
inductive Episode (s : Procs N) (t : Fin N) (s' : Procs N) : Prop
  | alloc {j} (hu : (s.proc j).state = .unused) (hh : s'.hist = s.hist)
      (hb : s'.born = s.born + 1)
      (hp : s'.proc = Function.update s.proc j ((s.proc j).alloc s.nextpid s.born))
  | exit {p} (hr : s.Running t) (hz : p.state = .zombie)
      (hu : p.uid = (s.proc t).uid)
      (hh : s'.hist = .exit (s.proc t).uid p.xstate :: s.hist) (hb : s'.born = s.born)
      (hp : s'.proc = Function.update s.proc t p)
  | reap {j} (hc : (s.proc j).parent = some t) (hz : (s.proc j).state = .zombie)
      (hu : (s'.proc j).state = .unused)
      (hh : s'.hist = .reap t (some t) (s.proc j).uid (s.proc j).xstate :: s.hist)
      (hb : s'.born = s.born) (hk : ∀ k, (s.proc k).Keeps (s'.proc k))
  | quiet (hh : Quiet s.hist s'.hist) (hb : s'.born = s.born)
      (hk : ∀ k, (s.proc k).Keeps (s'.proc k))

theorem keeps_update {j : Fin N} {q : Proc N} (hq : (s.proc j).Keeps q) (k : Fin N) :
    (s.proc k).Keeps (Function.update s.proc j q k) := by
  by_cases hk : k = j
  · subst hk
    simpa using hq
  · simpa [hk] using Proc.Keeps.of_eq rfl rfl rfl

theorem ProcMove.episode (h : s.Control) (hm : ProcMove s t s') : Episode s t s' := by
  cases hm with
  | alloc hr hp hl hu => exact .alloc hu rfl rfl rfl
  | @die st hr hp hl =>
    exact .exit (p := { s.proc t with lock := true, xstate := st, state := .zombie })
      hr rfl rfl rfl rfl rfl
  | reap hr hp hc hl hz =>
    exact .reap hc hz (by simp [Proc.free]) (by simp [hc]) rfl (keeps_update (.inl rfl))
  | trace | build =>
    exact .quiet (.inr ⟨_, rfl, rfl, rfl⟩) rfl (keeps_update (.of_eq rfl rfl rfl))
  | kill =>
    exact .quiet (.inr ⟨_, rfl, rfl, rfl⟩) rfl (keeps_update (.of_woken (Proc.woken_kill _)))
  | fault | setParent | reparent | gone | sleep =>
    exact .quiet (.inl rfl) rfl (keeps_update (.of_eq rfl rfl rfl))
  | buildFail => exact .quiet (.inl rfl) rfl (keeps_update (.inl rfl))
  | start hr hp =>
    have hused := h.child t _ (by rw [hp]; rfl)
    exact .quiet (.inl rfl) rfl
      (keeps_update (.of_alive (by simp [hused]) (by simp [hused]) (by simp) rfl))
  | @rewake j _ _ _ _ hr hp hk hl hq | @wakeParent j _ _ _ hr hp hk hl hq =>
    refine .quiet (.inl rfl) rfl (keeps_update ?_)
    rw [hq]
    split
    · exact .of_eq rfl rfl rfl
    · exact .of_woken (Proc.woken_wake _ _)
  | doze hr | resume hr | dispatch hr | yield hr =>
    exact .quiet (.inl rfl) rfl
      (keeps_update (.of_alive (by simp [hr]) (by simp [hr]) (by simp) rfl))
  | _ => exact .quiet (.inl rfl) rfl fun k => .of_eq rfl rfl rfl

theorem exited_cons (e : ProcEvent N) (hist : List (ProcEvent N)) :
    exited (e :: hist) = exited [e] ++ exited hist := by
  simp [exited, ← List.filterMap_append]

theorem reaped_cons (e : ProcEvent N) (hist : List (ProcEvent N)) :
    reaped (e :: hist) = reaped [e] ++ reaped hist := by
  simp [reaped, ← List.filterMap_append]

theorem Quiet.exited (h : Quiet hist hist') : Xv6.exited hist' = Xv6.exited hist := by
  rcases h with rfl | ⟨e, rfl, he, -⟩
  · rfl
  · rw [exited_cons, he, List.nil_append]

theorem Quiet.reaped (h : Quiet hist hist') : Xv6.reaped hist' = Xv6.reaped hist := by
  rcases h with rfl | ⟨e, rfl, -, he⟩
  · rfl
  · rw [reaped_cons, he, List.nil_append]

theorem Quiet.subset (h : Quiet hist hist') : hist ⊆ hist' := by
  rcases h with rfl | ⟨e, rfl, -, -⟩
  · exact List.Subset.refl _
  · exact List.subset_cons_self _ _

theorem Quiet.mem_of_reap (h : Quiet hist hist') {t : Fin N} {q : Option (Fin N)} {p : ℕ}
    {st : CInt} (he : ProcEvent.reap t q p st ∈ hist') : ProcEvent.reap t q p st ∈ hist := by
  rcases h with rfl | ⟨e, rfl, -, hr⟩
  · exact he
  · rcases List.mem_cons.mp he with rfl | he
    · cases hr
    · exact he

/-- The exits survive a step that keeps the slots and adds no exit. -/
theorem Procs.Exits.of_keeps (hE : s.Exits) (hx : exited s'.hist = exited s.hist)
    (hh : s.hist ⊆ s'.hist) (hb : s'.born = s.born)
    (hk : ∀ k, (s.proc k).Keeps (s'.proc k)) : s'.Exits where
  born k hu := by
    obtain ⟨hu', hid, -⟩ := (hk k).resolve_left hu
    rw [hid, hb]
    exact hE.born k hu'
  uid_inj k j hu hj he := by
    obtain ⟨hu', hid, -⟩ := (hk k).resolve_left hu
    obtain ⟨hj', hjd, -⟩ := (hk j).resolve_left hj
    exact hE.uid_inj k j hu' hj' (by rw [← hid, ← hjd, he])
  exit_born p hp := by
    rw [hb]
    exact hE.exit_born p (hx ▸ hp)
  nodup := hx ▸ hE.nodup
  zombie k hz := by
    obtain ⟨-, hid, hz', hxs⟩ := (hk k).resolve_left (by simp [hz])
    rw [hid, hxs (hz'.2 hz)]
    exact hh (hE.zombie k (hz'.2 hz))
  alive k hu hz := by
    obtain ⟨hu', hid, hz', -⟩ := (hk k).resolve_left hu
    rw [hid, hx]
    exact hE.alive k hu' fun h => hz (hz'.1 h)

theorem Episode.exits (hE : s.Exits) (he : Episode s t s') : s'.Exits := by
  cases he with
  | quiet hh hb hk => exact hE.of_keeps hh.exited hh.subset hb hk
  | reap hc hz hu hh hb hk =>
    exact hE.of_keeps (by rw [hh, exited_cons]; rfl) (hh ▸ List.subset_cons_self _ _) hb hk
  | @alloc j hu hh hb hp =>
    have hcase : ∀ k, ((s'.proc k).uid = s.born ∧ (s'.proc k).state = .used ∧ k = j) ∨
        s'.proc k = s.proc k := by
      intro k
      by_cases hk : k = j
      · subst hk
        exact .inl (by simp [hp, Proc.alloc])
      · exact .inr (by simp [hp, hk])
    constructor
    · intro k hk
      rw [hb]
      rcases hcase k with ⟨hid, -⟩ | hsame
      · omega
      · rw [hsame] at hk ⊢
        exact Nat.lt_succ_of_lt (hE.born k hk)
    · intro k i hk hi he
      rcases hcase k with ⟨hid, -, rfl⟩ | hsame <;> rcases hcase i with ⟨hid', -, rfl⟩ | hsame'
      · rfl
      · rw [hsame'] at hi he
        have := hE.born i hi
        omega
      · rw [hsame] at hk he
        have := hE.born k hk
        omega
      · rw [hsame] at hk he
        rw [hsame'] at hi he
        exact hE.uid_inj k i hk hi he
    · intro p hp'
      rw [hb]
      exact Nat.lt_succ_of_lt (hE.exit_born p (hh ▸ hp'))
    · exact hh ▸ hE.nodup
    · intro k hz
      rcases hcase k with ⟨-, hs, -⟩ | hsame
      · simp [hs] at hz
      · rw [hsame] at hz ⊢
        exact hh ▸ hE.zombie k hz
    · intro k hk hz
      rw [hh]
      rcases hcase k with ⟨hid, -⟩ | hsame
      · intro hmem
        have := hE.exit_born _ hmem
        omega
      · rw [hsame] at hk hz ⊢
        exact hE.alive k hk hz
  | @exit p hr hz hu hh hb hp =>
    have hcase : ∀ k, ((s'.proc k).uid = (s.proc k).uid) ∧
        ((s'.proc k).state ≠ .unused → (s.proc k).state ≠ .unused) ∧
        (k ≠ t → s'.proc k = s.proc k) := by
      intro k
      by_cases hk : k = t
      · subst hk
        simp [hp, hu, hr]
      · simp [hp, hk]
    have halive : (s.proc t).uid ∉ exited s.hist :=
      hE.alive t (by simp [hr]) (by simp [hr])
    have hex : exited s'.hist = (s.proc t).uid :: exited s.hist := by
      rw [hh, exited_cons]
      rfl
    constructor
    · intro k hk
      rw [hb, (hcase k).1]
      exact hE.born k ((hcase k).2.1 hk)
    · intro k i hk hi he
      rw [(hcase k).1, (hcase i).1] at he
      exact hE.uid_inj k i ((hcase k).2.1 hk) ((hcase i).2.1 hi) he
    · intro i hi
      rw [hb]
      rcases List.mem_cons.mp (hex ▸ hi) with rfl | hi
      · exact hE.born t (by simp [hr])
      · exact hE.exit_born i hi
    · rw [hex]
      exact List.nodup_cons.mpr ⟨halive, hE.nodup⟩
    · intro k hzk
      rw [hh]
      by_cases hk : k = t
      · subst hk
        simp [hp, hu]
      · rw [(hcase k).2.2 hk] at hzk ⊢
        exact List.mem_cons_of_mem _ (hE.zombie k hzk)
    · intro k hk hzk
      by_cases hkt : k = t
      · subst hkt
        simp [hp, hz] at hzk
      · rw [(hcase k).2.2 hkt] at hk hzk ⊢
        rw [hex, List.mem_cons, not_or]
        refine ⟨fun he => hkt ?_, hE.alive k hk hzk⟩
        exact hE.uid_inj k t hk (by simp [hr]) he

theorem Episode.reaps (hE : s.Exits) (hR : s.Reaps) (he : Episode s t s') : s'.Reaps := by
  have hold : ∀ p ∈ reaped s.hist, p < s.born := by
    intro p hp
    obtain ⟨t, q, st, he⟩ := mem_reaped.mp hp
    exact hE.exit_born p (mem_exited.mpr ⟨st, (hR.reap _ _ _ _ he).2⟩)
  cases he with
  | quiet hh hb hk =>
    refine ⟨fun t q p st he => ?_, hh.reaped ▸ hR.nodup, fun k hu => ?_⟩
    · exact (hR.reap t q p st (hh.mem_of_reap he)).imp_right fun h => hh.subset h
    · obtain ⟨hu', hid, -⟩ := (hk k).resolve_left hu
      rw [hid, hh.reaped]
      exact hR.unreaped k hu'
  | @reap j hc hz hu hh hb hk =>
    have hre : reaped s'.hist = (s.proc j).uid :: reaped s.hist := by
      rw [hh, reaped_cons]
      rfl
    refine ⟨fun t q p st he => ?_, ?_, fun k hku => ?_⟩
    · rw [hh] at he ⊢
      rcases List.mem_cons.mp he with he | he
      · cases he
        exact ⟨rfl, List.mem_cons_of_mem _ (hE.zombie j hz)⟩
      · exact (hR.reap t q p st he).imp_right (List.mem_cons_of_mem _)
    · rw [hre]
      exact List.nodup_cons.mpr ⟨hR.unreaped j (by simp [hz]), hR.nodup⟩
    · obtain ⟨hku', hid, -⟩ := (hk k).resolve_left hku
      rw [hid, hre, List.mem_cons, not_or]
      refine ⟨fun he => ?_, hR.unreaped k hku'⟩
      obtain rfl := hE.uid_inj k j hku' (by simp [hz]) he
      exact hku hu
  | @alloc j hu hh hb hp =>
    refine ⟨hh ▸ hR.reap, hh ▸ hR.nodup, fun k hk => ?_⟩
    rw [hh]
    by_cases hkj : k = j
    · subst hkj
      intro hmem
      have hlt := hold _ hmem
      simp [hp, Proc.alloc] at hlt
    · simp only [hp, Function.update_of_ne hkj] at hk ⊢
      exact hR.unreaped k hk
  | @exit p hr hz hu hh hb hp =>
    have hre : reaped s'.hist = reaped s.hist := by
      rw [hh, reaped_cons]
      rfl
    refine ⟨fun t q p st he => ?_, hre ▸ hR.nodup, fun k hk => ?_⟩
    · rw [hh] at he ⊢
      rcases List.mem_cons.mp he with he | he
      · cases he
      · exact (hR.reap t q p st he).imp_right (List.mem_cons_of_mem _)
    · rw [hre]
      by_cases hkt : k = t
      · subst hkt
        simpa [hp, hu] using hR.unreaped k (by simp [hr])
      · simp only [hp, Function.update_of_ne hkt] at hk ⊢
        exact hR.unreaped k hk

/-! ## Every run -/

/-- All the invariants of the table. -/
structure Procs.Sane (s : Procs N) : Prop where
  control : s.Control
  tree : s.Tree
  waits : s.Waits
  exits : s.Exits
  reaps : s.Reaps

theorem exits_start : (Procs.start : Procs N).Exits where
  born k hk := by
    by_cases h0 : k = 0
    · simp [Procs.start, h0, Proc.zero]
    · simp [Procs.start, h0, Proc.zero] at hk
  uid_inj k j hk hj _ := by
    have h0 : ∀ k : Fin N, (Procs.start.proc k).state ≠ .unused → k = 0 := by
      intro k hk
      by_contra h0
      simp [Procs.start, h0, Proc.zero] at hk
    rw [h0 k hk, h0 j hj]
  exit_born p hp := by cases hp
  nodup := List.nodup_nil
  zombie k hk := by
    by_cases h0 : k = 0 <;> simp [Procs.start, h0, Proc.zero] at hk
  alive k _ _ hk := by cases hk

theorem reaps_start : (Procs.start : Procs N).Reaps where
  reap t q p st h := by cases h
  nodup := List.nodup_nil
  unreaped k _ hk := by cases hk

theorem ProcMove.sane (h : s.Sane) (hm : ProcMove s t s') : s'.Sane where
  control := hm.control h.control
  tree := hm.tree h.control h.tree
  waits := hm.waits h.control h.waits
  exits := (hm.episode h.control).exits h.exits
  reaps := (hm.episode h.control).reaps h.exits h.reaps

theorem sane_reach {ok : Procs N → ProcLabel N → Prop}
    (h : Machine.Reach Procs.step ok Procs.start s) : s.Sane :=
  h.invariant ⟨control_start, tree_start, waits_start, exits_start, reaps_start⟩
    fun _ _ _ hs _ hstep => (move_of_step hstep).sane hs

/-- Init forks and waits ; its child exits with status 7 while init sleeps. -/
def forkExitWait : List (ProcLabel 2) :=
  let run (t : Fin 2) (k : ℕ) (c : ProcCall) : List (ProcLabel 2) :=
    List.replicate k (.run t { call := c, mem := true, copyout := true })
  [.dispatch 0] ++ run 0 8 .fork ++ run 0 8 .wait ++ [.dispatch 1] ++ run 1 10 (.exit 7) ++
    [.dispatch 0] ++ run 0 3 .wait

end Xv6
