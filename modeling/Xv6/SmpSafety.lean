import Xv6.SmpRules

/-!
# A process runs on one processor

`p->lock` is held from before a process changes its state until its processor is back on the
stack of the scheduler, and from before the scheduler makes it `RUNNING` until it is on its own
stack. What a thread holds (`Hold`) gives the lock that its processor holds, and each lock is
held by one processor. A processor that has chosen a process keeps it until it has left its stack
(`HartSafe`), and no other chooses it. A process that could be chosen has stored all
registers (`Contexts`).

An action that the rules of `p->lock` allow keeps this up, and does what they say (`Safe.act`).
-/

namespace Xv6

open Function Ctl

variable {N M : ℕ} {κ : Type}

/-! ## What a processor holds -/

namespace SchedPt

/-- The lock that the scheduler holds. -/
def lock : SchedPt N κ → Option (Fin N)
  | .check p | .chosen p | .switch p _ | .back p | .unlock p => some p
  | .scan _ | .intr _ _ => none

/-- The process that the scheduler has made `RUNNING`, or has just left. -/
def claim : SchedPt N κ → Option (Fin N)
  | .chosen p | .switch p _ | .back p => some p
  | _ => none

/-- `c->proc` -/
def proc : SchedPt N κ → Option (Fin N)
  | .switch p _ | .back p => some p
  | _ => none

theorem lock_of_claim {pt : SchedPt N κ} {p : Fin N} (h : pt.claim = some p) :
    pt.lock = some p ∧ ∀ m j, pt ≠ .intr m j := by
  cases pt with
  | chosen | switch | back => exact ⟨h, nofun⟩
  | scan | check | unlock | intr => cases h

theorem claim_of_proc {pt : SchedPt N κ} {p : Fin N} (h : pt.proc = some p) :
    pt.claim = some p := by
  cases pt with
  | switch | back => exact h
  | scan | check | chosen | unlock | intr => cases h

end SchedPt

/-- Code that runs on a processor : that of a process, or of an interrupt on the processor. -/
abbrev Who (N M : ℕ) := Fin N ⊕ Fin M

/-- `myproc()` -/
def Who.proc : Who N M → Option (Fin N)
  | .inl p => some p
  | .inr _ => none

namespace Hart

variable (τ : Who N M → Hold N) (c : Fin M) (h : Hart N κ)

/-- The code that runs on processor `c`, if it is not the scheduler's. -/
def cur : Option (Who N M) :=
  match h.stack, h.pt with
  | some p, _ => some (.inl p)
  | none, .intr _ _ => some (.inr c)
  | none, _ => none

/-- The `p->lock` that processor `c` holds. -/
def held : Option (Fin N) :=
  match h.cur c with
  | some x => (τ x).lock
  | none => h.pt.lock

/-- The process that the processor is on, or has chosen. -/
def claim : Option (Fin N) :=
  match h.stack with
  | some p => some p
  | none => h.pt.claim

variable {τ c h} {p : Fin N}

theorem cur_stack (hs : h.stack = some p) : h.cur c = some (.inl p) := by
  simp [cur, hs]

theorem cur_inl (hc : h.cur c = some (.inl p)) : h.stack = some p := by
  unfold cur at hc
  split at hc
  · rename_i hs
    cases hc
    exact hs
  · cases hc
  · cases hc

theorem cur_inr {d : Fin M} (hc : h.cur c = some (.inr d)) :
    d = c ∧ h.stack = none ∧ ∃ m j, h.pt = .intr m j := by
  unfold cur at hc
  split at hc
  · cases hc
  · rename_i hs hp
    cases hc
    exact ⟨rfl, hs, _, _, hp⟩
  · cases hc

theorem cur_intr {m : KProg N κ Unit} {j : ℕ} (hs : h.stack = none) (hp : h.pt = .intr m j) :
    h.cur c = some (.inr c) := by
  simp [cur, hs, hp]

theorem cur_none (hs : h.stack = none) (hp : ∀ m j, h.pt ≠ .intr m j) : h.cur c = none := by
  unfold cur
  split
  · rename_i hs'
    simp [hs] at hs'
  · rename_i hp'
    exact absurd hp' (hp _ _)
  · rfl

theorem held_cur {x : Who N M} (hc : h.cur c = some x) : h.held τ c = (τ x).lock := by
  simp [held, hc]

theorem held_none (hc : h.cur c = none) : h.held τ c = h.pt.lock := by
  simp [held, hc]

end Hart

/-! ## The invariant -/

/-- The thread of `q` can be resumed : its context is complete, and it goes on by the rules with
its lock held. -/
def Ready (s : Smp N M κ) (q : Fin N) (b : Option (Fin N × Bool)) : Prop :=
  (s.slot q).ctx = NREG ∧
    Holds (rules κ (some q)) (s.slot q).code Kernel.Between ⟨some q, some .running, b⟩

/-- What holds of one processor : the locks it has are those its code holds, and what its code knows
is right ; and it keeps a process that it has chosen. -/
structure HartSafe (s : Smp N M κ) (τ : Who N M → Hold N) (c : Fin M) : Prop where
  proc : (s.cpu c).proc = match (s.cpu c).stack with
    | some p => some p
    | none => (s.cpu c).pt.proc
  pt : ∀ {p}, (s.cpu c).stack = some p → (s.cpu c).pt = .back p
  alive : ∀ {p}, (s.cpu c).stack = some p →
    (s.slot p).state ≠ .unused ∧ (s.slot p).state ≠ .used
  chosen : ∀ {q}, (s.cpu c).stack = none → (s.cpu c).pt.claim = some q →
    (s.cpu c).pt ≠ .back q → (s.slot q).state = .running
  back : ∀ {q}, (s.cpu c).stack = none → (s.cpu c).pt = .back q →
    (s.slot q).state ≠ .running ∧ (s.slot q).state ≠ .unused ∧ (s.slot q).state ≠ .used
  lock : ∀ {q}, (s.slot q).lock = some c ↔ (s.cpu c).held τ c = some q
  known : ∀ {x q st}, (s.cpu c).cur c = some x → (τ x).lock = some q →
    (τ x).known = some st → (s.slot q).state = st
  own : ∀ {p}, (s.cpu c).stack = some p → (τ (.inl p)).lock = some p →
    (τ (.inl p)).known = some (s.slot p).state
  run : ∀ {p}, (s.cpu c).stack = some p → (τ (.inl p)).lock ≠ some p →
    (s.slot p).state = .running

/-- A process that is on no stack can be resumed, if it is not being built. -/
structure Contexts (s : Smp N M κ) (β : Who N M → Option (Fin N × Bool)) : Prop where
  ready : ∀ {q}, (∀ c, (s.cpu c).stack ≠ some q) →
    (s.slot q).state = .runnable ∨ (s.slot q).state = .sleeping ∨ (s.slot q).state = .running →
    Ready s q (β (.inl q))
  build : ∀ {x q b}, β x = some (q, b) → (s.slot q).state = .used ∧ (b = true → Ready s q none)
  inj : ∀ {x y q}, (β x).map Prod.fst = some q → (β y).map Prod.fst = some q → x = y
  dead : ∀ {q}, (s.slot q).state = .unused ∨ (s.slot q).state = .used ∨
    (s.slot q).state = .zombie → β (.inl q) = none

/-- A process is claimed by one processor, if it runs. -/
structure Safe (s : Smp N M κ) (τ : Who N M → Hold N) : Prop where
  hart : ∀ c, HartSafe s τ c
  uniq : ∀ {c c' q}, (s.cpu c).claim = some q → (s.cpu c').claim = some q → c = c'
  claimed : ∀ {q}, (s.slot q).state = .running → ∃ c, (s.cpu c).claim = some q
  contexts : Contexts s fun x => (τ x).build

/-- A state is changed with the lock held, by the process itself from `RUNNING` or by a processor
that does not claim it. -/
def Changes (s s' : Smp N M κ) (c : Fin M) : Prop :=
  ∀ q, (s'.slot q).state = (s.slot q).state ∨
    (s.slot q).lock = some c ∧ ((s.slot q).state = .running ↔ (s.cpu c).claim = some q)

/-- What runs on the processors other than `c` is as before. -/
structure Others (s s' : Smp N M κ) (τ τ' : Who N M → Hold N) (c : Fin M) : Prop where
  cpu : ∀ c', c' ≠ c → s'.cpu c' = s.cpu c'
  hold : ∀ c' x, c' ≠ c → (s.cpu c').cur c' = some x → τ' x = τ x
  code : ∀ c' q, c' ≠ c → (s.cpu c').stack = some q → (s'.slot q).code = (s.slot q).code

/-- A step of processor `c`. -/
structure OnHart (s s' : Smp N M κ) (τ τ' : Who N M → Hold N) (c : Fin M) : Prop
    extends Others s s' τ τ' c where
  lock : ∀ q c', c' ≠ c → ((s'.slot q).lock = some c' ↔ (s.slot q).lock = some c')
  state : Changes s s' c

section Facts

variable {s s' s'' : Smp N M κ} {τ τ' τ'' : Who N M → Hold N} {c c' : Fin M} {x y : Who N M}
  {p q : Fin N}

theorem Hart.claim_stack {h : Hart N κ} (hs : h.stack = some p) : h.claim = some p := by
  simp [Hart.claim, hs]

theorem Hart.claim_none {h : Hart N κ} (hs : h.stack = none) : h.claim = h.pt.claim := by
  simp [Hart.claim, hs]

/-- Code runs on one processor. -/
theorem Safe.cur_inj (h : Safe s τ) (hc : (s.cpu c).cur c = some x)
    (hc' : (s.cpu c').cur c' = some x) : c = c' := by
  cases x with
  | inl p => exact h.uniq (Hart.claim_stack (Hart.cur_inl hc)) (Hart.claim_stack (Hart.cur_inl hc'))
  | inr d => exact (Hart.cur_inr hc).1.symm.trans (Hart.cur_inr hc').1

/-- The code of a process claims it. -/
theorem Hart.claim_cur {h : Hart N κ} (hc : h.cur c = some x) : h.claim = x.proc := by
  cases x with
  | inl p => exact Hart.claim_stack (Hart.cur_inl hc)
  | inr d =>
    obtain ⟨-, hs, m, j, hp⟩ := Hart.cur_inr hc
    rw [Hart.claim_none hs, hp]
    rfl

/-- The lock that `c` holds, by what its code holds. -/
theorem Safe.lock_cur (h : Safe s τ) (hc : (s.cpu c).cur c = some x) {q : Fin N} :
    (s.slot q).lock = some c ↔ (τ x).lock = some q := by
  rw [(h.hart _).lock, Hart.held_cur hc]

/-- The scheduler holds the lock of the process it is at. -/
theorem Safe.lock_sched (h : Safe s τ) (hs : (s.cpu c).stack = none)
    (hl : (s.cpu c).pt.lock = some p) : (s.slot p).lock = some c := by
  refine (h.hart _).lock.mpr ((Hart.held_none (Hart.cur_none hs fun m j hp => ?_)).trans hl)
  rw [hp] at hl
  cases hl

/-- A processor that claims a process has its lock, if the process does not run. -/
theorem Safe.lock_claim (h : Safe s τ) (hp : (s.cpu c).claim = some p)
    (hst : (s.cpu c).stack = none ∨ (s.slot p).state ≠ .running) : (s.slot p).lock = some c := by
  cases hs : (s.cpu c).stack with
  | none =>
    rw [Hart.claim_none hs] at hp
    exact h.lock_sched hs (SchedPt.lock_of_claim hp).1
  | some q =>
    obtain rfl := Option.some.inj ((Hart.claim_stack hs).symm.trans hp)
    refine (h.lock_cur (Hart.cur_stack hs)).mpr ?_
    by_contra hne
    exact hst.elim (by simp [hs]) fun hst => hst ((h.hart _).run hs hne)

/-- So no other processor claims a process whose lock `c` has, unless it runs. -/
theorem Safe.claim_other (h : Safe s τ) (hl : (s.slot p).lock = some c)
    (hst : (s.slot p).state = .running → (s.cpu c).claim = some p) (hc : c' ≠ c) :
    (s.cpu c').claim ≠ some p := by
  intro hp
  by_cases hr : (s.slot p).state = .running
  · exact hc (h.uniq hp (hst hr))
  · exact hc (Option.some.inj ((h.lock_claim hp (.inr hr)).symm.trans hl))

/-- A process that another one changes is on no stack. -/
theorem Safe.not_on_stack (h : Safe s τ) (hc : (s.cpu c).cur c = some x)
    (hx : (τ x).lock = some p) (hw : x.proc ≠ some p) (hr : (s.slot p).state ≠ .running)
    (c' : Fin M) : (s.cpu c').stack ≠ some p := by
  intro hs
  by_cases hcc : c' = c
  · subst hcc
    exact hw ((Hart.claim_cur hc).symm.trans (Hart.claim_stack hs))
  · exact h.claim_other ((h.lock_cur hc).mpr hx) (fun h => absurd h hr) hcc (Hart.claim_stack hs)

/-! ## What a step of one processor does to the others -/

theorem HartSafe.congr (h : HartSafe s τ c) (hcpu : s'.cpu c = s.cpu c)
    (hτ : ∀ x, (s.cpu c).cur c = some x → τ' x = τ x)
    (hlock : ∀ q, (s'.slot q).lock = some c ↔ (s.slot q).lock = some c)
    (hstate : ∀ q, (s.slot q).lock = some c ∨ (s.cpu c).claim = some q →
      (s'.slot q).state = (s.slot q).state) : HartSafe s' τ' c := by
  have hheld : (s.cpu c).held τ' c = (s.cpu c).held τ c := by
    cases hcur : (s.cpu c).cur c with
    | none => rw [Hart.held_none hcur, Hart.held_none hcur]
    | some y => rw [Hart.held_cur hcur, Hart.held_cur hcur, hτ y hcur]
  have hstack : ∀ {q}, (s.cpu c).stack = some q →
      τ' (.inl q) = τ (.inl q) ∧ (s'.slot q).state = (s.slot q).state := fun hs =>
    ⟨hτ _ (Hart.cur_stack hs), hstate _ (.inr (Hart.claim_stack hs))⟩
  refine ⟨?_, ?_, fun {q} hs => ?_, fun {q} hs hp hb => ?_, fun {q} hs hp => ?_, fun {q} => ?_,
    fun {x q st} hx hl hk => ?_, fun {q} hs hl => ?_, fun {q} hs hl => ?_⟩
  all_goals rw [hcpu] at *
  · exact h.proc
  · exact h.pt
  · rw [(hstack hs).2]
    exact h.alive hs
  · rw [hstate q (.inr ((Hart.claim_none hs).trans hp))]
    exact h.chosen hs hp hb
  · rw [hstate q (.inr ((Hart.claim_none hs).trans (by rw [hp]; rfl)))]
    exact h.back hs hp
  · rw [hlock, hheld]
    exact h.lock
  · rw [hτ x hx] at hl hk
    rw [hstate q (.inl (h.lock.mpr ((Hart.held_cur hx).trans hl)))]
    exact h.known hx hl hk
  · rw [(hstack hs).1] at hl ⊢
    rw [(hstack hs).2]
    exact h.own hs hl
  · rw [(hstack hs).1] at hl
    rw [(hstack hs).2]
    exact h.run hs hl

/-- A step keeps the invariant, if it does for its own processor : which claims no more than it did
or than it has the lock of, and all processes that run. -/
theorem Safe.step (h : Safe s τ) (hl : OnHart s s' τ τ' c) (hself : HartSafe s' τ' c)
    (hnew : ∀ q, (s'.cpu c).claim = some q → (s.cpu c).claim = some q ∨
      (s.slot q).lock = some c ∧ (s.slot q).state ≠ .running)
    (hrun : ∀ q, (s'.slot q).state = .running → (s.cpu c).claim = some q ∨
      (s'.slot q).state ≠ (s.slot q).state → (s'.cpu c).claim = some q)
    (hctx : Contexts s' fun x => (τ' x).build) : Safe s' τ' := by
  have hharts : ∀ c', HartSafe s' τ' c' := fun c' => by
    by_cases hc : c' = c
    · rwa [hc]
    refine (h.hart c').congr (hl.cpu c' hc) (fun x => hl.hold c' x hc) (fun q => hl.lock q c' hc)
      fun q hq => (hl.state q).resolve_right fun hs => ?_
    rcases hq with hq | hq
    · exact hc (Option.some.inj (hq.symm.trans hs.1))
    · exact h.claim_other hs.1 hs.2.mp hc hq
  have huniq : ∀ {c' q}, (s'.cpu c).claim = some q → (s'.cpu c').claim = some q → c' = c := by
    intro c' q hq hq'
    by_contra hc
    rw [hl.cpu c' hc] at hq'
    rcases hnew q hq with hold | ⟨hlock, hst⟩
    · exact hc (h.uniq hq' hold)
    · exact h.claim_other hlock (fun hr => absurd hr hst) hc hq'
  refine ⟨hharts, fun {c₁ c₂ q} h1 h2 => ?_, fun {q} hq => ?_, hctx⟩
  · by_cases hc1 : c₁ = c
    · exact hc1.trans (huniq (hc1 ▸ h1) h2).symm
    by_cases hc2 : c₂ = c
    · exact (huniq (hc2 ▸ h2) h1).trans hc2.symm
    rw [hl.cpu _ hc1] at h1
    rw [hl.cpu _ hc2] at h2
    exact h.uniq h1 h2
  · by_cases hsame : (s'.slot q).state = (s.slot q).state
    · obtain ⟨c', hc'⟩ := h.claimed (hsame.symm.trans hq)
      by_cases hc : c' = c
      · exact ⟨c, hrun q hq (.inl (hc ▸ hc'))⟩
      · exact ⟨c', by rw [hl.cpu c' hc, hc']⟩
    · exact ⟨c, hrun q hq (.inr hsame)⟩

theorem Others.trans (h : Others s s' τ τ' c) (h' : Others s' s'' τ' τ'' c) :
    Others s s'' τ τ'' c where
  cpu c' hc := (h'.cpu c' hc).trans (h.cpu c' hc)
  hold c' x hc hx := (h'.hold c' x hc (by rwa [h.cpu c' hc])).trans (h.hold c' x hc hx)
  code c' q hc hq := (h'.code c' q hc (by rwa [h.cpu c' hc])).trans (h.code c' q hc hq)

/-- A process on no stack was on none. -/
theorem Others.off (hl : Others s s' τ τ' c) (hs : (s.cpu c).stack ≠ some q)
    (h : ∀ c', (s'.cpu c').stack ≠ some q) (c' : Fin M) : (s.cpu c').stack ≠ some q := by
  by_cases hc : c' = c
  · rwa [hc]
  · rw [← hl.cpu c' hc]
    exact h c'

/-- The code on `c` is on no other processor. -/
theorem Safe.update_other (h : Safe s τ) (hc : (s.cpu c).cur c = some x) (o : Hold N)
    (c' : Fin M) (y : Who N M) (hne : c' ≠ c) (hy : (s.cpu c').cur c' = some y) :
    update τ x o y = τ y := by
  refine update_of_ne ?_ ..
  rintro rfl
  exact hne (h.cur_inj hy hc)

/-! ## Contexts -/

theorem Ready.congr {b : Option (Fin N × Bool)} (h : Ready s q b)
    (hctx : (s'.slot q).ctx = (s.slot q).ctx) (hcode : (s'.slot q).code = (s.slot q).code) :
    Ready s' q b := by
  rw [Ready, hctx, hcode]
  exact h

variable {β : Who N M → Option (Fin N × Bool)}

theorem Contexts.congr (h : Contexts s β) (hc : ∀ c, (s'.cpu c).stack = (s.cpu c).stack)
    (hslot : ∀ q, (s'.slot q).state = (s.slot q).state ∧ (s'.slot q).ctx = (s.slot q).ctx ∧
      (s'.slot q).code = (s.slot q).code) : Contexts s' β where
  ready {q} hs hq := by
    simp only [hc, (hslot q).1] at hs hq
    exact (h.ready hs hq).congr (hslot q).2.1 (hslot q).2.2
  build {x q b} hb := by
    obtain ⟨h1, h2⟩ := h.build hb
    exact ⟨(hslot q).1.trans h1, fun hb => (h2 hb).congr (hslot q).2.1 (hslot q).2.2⟩
  inj := h.inj
  dead {q} hq := by
    rw [(hslot q).1] at hq
    exact h.dead hq

/-- A change to the slot of `p`, which no one builds but `x`. -/
theorem Contexts.change {β' : Who N M → Option (Fin N × Bool)} (h : Contexts s β)
    (hslot : ∀ q, q ≠ p → s'.slot q = s.slot q)
    (hoff : ∀ q, q ≠ p → (∀ c, (s'.cpu c).stack ≠ some q) → ∀ c, (s.cpu c).stack ≠ some q)
    (hβ : ∀ {y q b}, β' y = some (q, b) → q ≠ p ∧ β y = some (q, b) ∨
      q = p ∧ y = x ∧ (s'.slot p).state = .used ∧ (b = true → Ready s' p none))
    (hx : ∀ q, q ≠ p → β' (.inl q) = β (.inl q) ∨
      (s.slot q).state = .running ∧ ∃ c, (s'.cpu c).stack = some q)
    (hready : (∀ c, (s'.cpu c).stack ≠ some p) → (s'.slot p).state = .runnable ∨
      (s'.slot p).state = .sleeping ∨ (s'.slot p).state = .running → Ready s' p (β' (.inl p)))
    (hdead : (s'.slot p).state = .unused ∨ (s'.slot p).state = .used ∨
      (s'.slot p).state = .zombie → β' (.inl p) = none) : Contexts s' β' := by
  have hold : ∀ {q b}, q ≠ p → Ready s q b → Ready s' q b := fun hq hr =>
    hr.congr (by rw [hslot _ hq]) (by rw [hslot _ hq])
  refine ⟨fun {q} hs hq => ?_, fun {y q b} hb => ?_, fun {y z q} hy hz => ?_, fun {q} hq => ?_⟩
  · by_cases hqp : q = p
    · subst hqp
      exact hready hs hq
    · rw [hslot q hqp] at hq
      rw [(hx q hqp).resolve_right fun ⟨_, c, hc⟩ => hs c hc]
      exact hold hqp (h.ready (hoff q hqp hs) hq)
  · rcases hβ hb with ⟨hqp, hb⟩ | ⟨rfl, -, hnew⟩
    · obtain ⟨h1, h2⟩ := h.build hb
      rw [hslot q hqp]
      exact ⟨h1, fun hb => hold hqp (h2 hb)⟩
    · exact hnew
  · obtain ⟨⟨q, b⟩, hb, rfl⟩ := Option.map_eq_some_iff.mp hy
    obtain ⟨⟨q', b'⟩, hb', rfl⟩ := Option.map_eq_some_iff.mp hz
    rcases hβ hb with ⟨hqp, hb⟩ | ⟨hqp, hyx, -⟩ <;> rcases hβ hb' with ⟨hqp', hb'⟩ | ⟨hqp', hzx, -⟩
    · exact h.inj (congrArg _ hb) (congrArg _ hb')
    · exact absurd hqp' hqp
    · exact absurd hqp hqp'
    · exact hyx.trans hzx.symm
  · by_cases hqp : q = p
    · subst hqp
      exact hdead hq
    · rw [hslot q hqp] at hq
      rw [(hx q hqp).resolve_right fun ⟨hr, _⟩ => by simp [hr] at hq]
      exact h.dead hq

/-- A change to the slot of a process that is not being built. -/
theorem Contexts.change_same (h : Contexts s β) (hp : (s.slot p).state ≠ .used)
    (hslot : ∀ q, q ≠ p → s'.slot q = s.slot q)
    (hoff : ∀ q, q ≠ p → (∀ c, (s'.cpu c).stack ≠ some q) → ∀ c, (s.cpu c).stack ≠ some q)
    (hready : (∀ c, (s'.cpu c).stack ≠ some p) → (s'.slot p).state = .runnable ∨
      (s'.slot p).state = .sleeping ∨ (s'.slot p).state = .running → Ready s' p (β (.inl p)))
    (hdead : (s'.slot p).state = .unused ∨ (s'.slot p).state = .used ∨
      (s'.slot p).state = .zombie → β (.inl p) = none) : Contexts s' β := by
  refine h.change (x := .inl p) hslot hoff (fun {y q b} hb => .inl ⟨?_, hb⟩) (fun _ _ => .inl rfl)
    hready hdead
  rintro rfl
  exact hp (h.build hb).1

end Facts

/-! ## Actions -/

namespace Smp

variable {s : Smp N M κ} {p q : Fin N} {c : Fin M} {f : Slot N M κ → Slot N M κ}
  {g : Hart N κ → Hart N κ}

@[simp] theorem setSlot_cpu : (s.setSlot p f).cpu = s.cpu := rfl
@[simp] theorem setCpu_slot : (s.setCpu c g).slot = s.slot := rfl
@[simp] theorem setSlot_self : (s.setSlot p f).slot p = f (s.slot p) := update_self ..
@[simp] theorem setCpu_self : (s.setCpu c g).cpu c = g (s.cpu c) := update_self ..

theorem setSlot_of_ne (h : q ≠ p) : (s.setSlot p f).slot q = s.slot q := update_of_ne h ..

theorem setCpu_of_ne {c' : Fin M} (h : c' ≠ c) : (s.setCpu c g).cpu c' = s.cpu c' :=
  update_of_ne h ..

/-- A field that `f` keeps. -/
theorem setSlot_field {α : Type*} (F : Slot N M κ → α) (hf : F (f (s.slot p)) = F (s.slot p))
    (q : Fin N) : F ((s.setSlot p f).slot q) = F (s.slot q) := Machine.update_field F hf q

/-- A lock is taken or left. -/
theorem setSlot_lock {l : Option (Fin M)} (q : Fin N) :
    ((s.setSlot p fun x => { x with lock := l }).slot q).state = (s.slot q).state ∧
      ((s.setSlot p fun x => { x with lock := l }).slot q).ctx = (s.slot q).ctx ∧
      ((s.setSlot p fun x => { x with lock := l }).slot q).code = (s.slot q).code :=
  ⟨setSlot_field Slot.state rfl q, setSlot_field Slot.ctx rfl q, setSlot_field Slot.code rfl q⟩

end Smp

section Actions

variable {s s' : Smp N M κ} {τ : Who N M → Hold N} {c : Fin M} {x : Who N M} {p : Fin N}
  {o : Hold N}

/-- The locks, when `c` takes or leaves none. -/
theorem Safe.lock_iff (h : Safe s τ) (c : Fin M) (q : Fin N) (c' : Fin M) :
    (s.slot q).lock = some c' ↔
      if c' = c then (s.cpu c).held τ c = some q else (s.slot q).lock = some c' := by
  split
  · rename_i hc
    rw [hc]
    exact (h.hart _).lock
  · rfl

/-- The locks, when `c` has taken or left that of `p`. -/
theorem Safe.lock_set (h : Safe s τ) {o o' : Option (Fin N)} {l : Option (Fin M)}
    (hh : (s.cpu c).held τ c = o) (hl : ∀ c', c' ≠ c → (s.slot p).lock ≠ some c')
    (ho : o = none ∧ o' = some p ∧ l = some c ∨ o = some p ∧ o' = none ∧ l = none)
    (q : Fin N) (c' : Fin M) :
    ((s.setSlot p fun y => { y with lock := l }).slot q).lock = some c' ↔
      if c' = c then o' = some q else (s.slot q).lock = some c' := by
  by_cases hq : q = p
  · subst hq
    rw [Smp.setSlot_self]
    split
    · rename_i hc
      rcases ho with ⟨-, rfl, rfl⟩ | ⟨-, rfl, rfl⟩ <;> simp [hc]
    · rename_i hc
      rcases ho with ⟨-, -, rfl⟩ | ⟨-, -, rfl⟩ <;> simp [hl c' hc, Ne.symm hc]
  · rw [Smp.setSlot_of_ne hq, h.lock_iff c, hh]
    rcases ho with ⟨rfl, rfl, -⟩ | ⟨rfl, rfl, -⟩ <;> simp [Ne.symm hq]

/-- The code of `x`, on `c`, has gone on with `o`. -/
structure CodeStep (s s' : Smp N M κ) (τ : Who N M → Hold N) (c : Fin M) (x : Who N M)
    (o : Hold N) : Prop where
  cpu : s'.cpu = s.cpu
  frame : OnHart s s' τ (update τ x o) c
  safe : Safe s' (update τ x o)

theorem Who.proc_eq_some (h : x.proc = some p) : x = .inl p := by
  cases x with
  | inl q => exact congrArg Sum.inl (Option.some.inj h)
  | inr d => cases h

/-- The code of a process that runs, after an action. -/
def KeepsCode (s s' : Smp N M κ) : Prop :=
  s'.cpu = s.cpu ∧ ∀ q c, (s.cpu c).stack = some q → (s'.slot q).code = (s.slot q).code

theorem build_update (hb : o.build = (τ x).build) :
    (fun y => (update τ x o y).build) = fun y => (τ y).build :=
  funext (Machine.update_field Hold.build hb)

section Code

variable (h : Safe s τ) (hc : (s.cpu c).cur c = some x)

include h hc

/-- The code of `x` changes what it holds, and the state of the process whose lock it holds. -/
theorem Safe.by_code (hkeep : KeepsCode s s')
    (hlock : ∀ q c', (s'.slot q).lock = some c' ↔
      if c' = c then o.lock = some q else (s.slot q).lock = some c')
    (hstate : ∀ q, (s'.slot q).state = (s.slot q).state ∨ (τ x).lock = some q ∧
      (s'.slot q).state ≠ .running ∧ ((s.slot q).state = .running ↔ x.proc = some q) ∧
      (x.proc = some q → (s'.slot q).state ≠ .unused ∧ (s'.slot q).state ≠ .used))
    (hknown : ∀ q st, o.lock = some q → o.known = some st → (s'.slot q).state = st)
    (hown : ∀ q, x = .inl q → (o.lock = some q → o.known = some (s'.slot q).state) ∧
      (o.lock ≠ some q → (s'.slot q).state = .running))
    (hctx : Contexts s' fun y => (update τ x o y).build) : CodeStep s s' τ c x o := by
  obtain ⟨hcpu, hcode⟩ := hkeep
  have hclaim : (s.cpu c).claim = x.proc := Hart.claim_cur hc
  have hx : ∀ {q}, (s.cpu c).stack = some q → x = .inl q := fun hs =>
    Option.some.inj (hc.symm.trans (Hart.cur_stack hs))
  have hno : ∀ {q}, (s.cpu c).stack = none → (s.cpu c).pt.claim ≠ some q := fun hs hp => by
    obtain rfl := Who.proc_eq_some (hclaim.symm.trans ((Hart.claim_none hs).trans hp))
    exact nomatch hs.symm.trans (Hart.cur_inl hc)
  have hl : OnHart s s' τ (update τ x o) c := {
    cpu := fun c' _ => congrFun hcpu c'
    hold := h.update_other hc o
    code := fun c' q _ => hcode q c'
    lock := fun q c' hne => by rw [hlock, if_neg hne]
    state := fun q => (hstate q).imp_right fun hq =>
      ⟨(h.lock_cur hc).mpr hq.1, hclaim ▸ hq.2.2.1⟩ }
  refine ⟨hcpu, hl, h.step hl ⟨?_, ?_, fun {q} hs => ?_, fun {q} hs hp => ?_, fun {q} hs hp => ?_,
    fun {q} => ?_, fun {y q st} hy hlq hk => ?_, fun {q} hs hlq => ?_, fun {q} hs hlq => ?_⟩
    (fun q hq => .inl ?_) (fun q hq hor => ?_) hctx⟩
  all_goals rw [hcpu] at *
  · exact (h.hart c).proc
  · exact (h.hart _).pt
  · rcases hstate q with hsame | ⟨-, -, -, halive⟩
    · rw [hsame]
      exact (h.hart _).alive hs
    · exact halive (by rw [hx hs]; rfl)
  · exact absurd hp (hno hs)
  · exact absurd (by rw [hp]; rfl) (hno (q := q) hs)
  · rw [hlock, if_pos rfl, Hart.held_cur hc, update_self]
  · obtain rfl := Option.some.inj (hc.symm.trans hy)
    rw [update_self] at hlq hk
    exact hknown q st hlq hk
  · obtain rfl := hx hs
    rw [update_self] at hlq ⊢
    exact (hown q rfl).1 hlq
  · obtain rfl := hx hs
    rw [update_self] at hlq
    exact (hown q rfl).2 hlq
  · exact hq
  · exact hor.resolve_right fun hne => ((hstate q).resolve_left hne).2.1 hq

/-- An action that changes no state. -/
theorem Safe.keep (hcpu : s'.cpu = s.cpu)
    (hslot : ∀ q, (s'.slot q).state = (s.slot q).state ∧ (s'.slot q).ctx = (s.slot q).ctx ∧
      (s'.slot q).code = (s.slot q).code)
    (hlock : ∀ q c', (s'.slot q).lock = some c' ↔
      if c' = c then o.lock = some q else (s.slot q).lock = some c') (hb : o.build = (τ x).build)
    (hknown : ∀ q st, o.lock = some q → o.known = some st → (s.slot q).state = st)
    (hown : ∀ q, x = .inl q → (o.lock = some q → o.known = some (s.slot q).state) ∧
      (o.lock ≠ some q → (s.slot q).state = .running)) : CodeStep s s' τ c x o := by
  refine h.by_code hc ⟨hcpu, fun q _ _ => (hslot q).2.2⟩ hlock (fun q => .inl (hslot q).1)
    (fun q => ?_) (fun q => ?_) ?_
  · rw [(hslot q).1]
    exact hknown q
  · rw [(hslot q).1]
    exact hown q
  · rw [build_update hb]
    exact h.contexts.congr (fun _ => by rw [hcpu]) hslot

/-- The state of a process that holds no lock of its own. -/
theorem Safe.running (hx : x = .inl p)
    (hl : (τ x).lock ≠ some p) : (s.slot p).state = .running := by
  subst hx
  exact (h.hart _).run (Hart.cur_inl hc) hl

theorem Safe.acquire (hx : (τ x).lock = none) (hl : (s.slot p).lock = none) :
    CodeStep s (s.setSlot p fun y => { y with lock := some c }) τ c x
      ((τ x).acquired x.proc p) := by
  have hrun : ∀ {q}, x = .inl q → (s.slot q).state = .running := fun hq =>
    h.running hc hq (by simp [hx])
  refine h.keep hc rfl Smp.setSlot_lock
    (h.lock_set ((Hart.held_cur hc).trans hx) (by simp [hl]) (.inl ⟨rfl, rfl, rfl⟩)) rfl
    (fun q st hq hk => ?_) fun q hq => ⟨fun hlq => ?_, fun _ => hrun hq⟩
  · obtain rfl := Option.some.inj hq
    simp only [Hold.acquired] at hk
    split at hk
    · rename_i hw
      cases hk
      exact hrun (Who.proc_eq_some hw)
    · split at hk
      · rename_i hb
        cases hk
        obtain ⟨⟨r, b⟩, hrb, rfl⟩ := Option.map_eq_some_iff.mp hb
        exact (h.contexts.build hrb).1
      · cases hk
  · obtain rfl := Option.some.inj hlq
    rw [hrun hq]
    simp [Hold.acquired, hq, Who.proc]

theorem Safe.release (hx : (τ x).lock = some p)
    (hk : x.proc = some p → (τ x).known = some .running) :
    CodeStep s (s.setSlot p fun y => { y with lock := none }) τ c x (.out (τ x).build) := by
  have hl := (h.lock_cur hc).mpr hx
  refine h.keep hc rfl Smp.setSlot_lock
    (h.lock_set ((Hart.held_cur hc).trans hx) (fun c' hne => by simp [hl, Ne.symm hne])
      (.inr ⟨rfl, rfl, rfl⟩)) rfl nofun fun q hq => ⟨nofun, fun _ => ?_⟩
  by_cases hqp : q = p
  · subst hqp
    exact (h.hart _).known hc hx (hk (by rw [hq]; rfl))
  · exact h.running hc hq (by simp [hx, Ne.symm hqp])

/-- The state of a process is read with its lock held. -/
theorem Safe.read (hx : (τ x).lock = some p) :
    CodeStep s s τ c x { τ x with known := some (s.slot p).state } := by
  refine h.keep hc rfl (fun _ => ⟨rfl, rfl, rfl⟩) (fun q c' => ?_) rfl (fun q st hq hk => ?_)
    fun q hq => ⟨fun hlq => ?_, fun hne => h.running hc hq hne⟩
  · exact Hart.held_cur (τ := τ) hc ▸ h.lock_iff c q c'
  · obtain rfl := Option.some.inj (hx.symm.trans hq)
    exact Option.some.inj hk
  · obtain rfl := Option.some.inj (hx.symm.trans hlq)
    rfl

end Code

/-- `p->state = st` -/
def Smp.withState (s : Smp N M κ) (p : Fin N) (st : ProcState) : Smp N M κ :=
  s.setSlot p fun y => { y with state := st }

section SetState

variable {st : ProcState}

theorem withState_self : ((s.withState p st).slot p).state = st := by simp [Smp.withState]

theorem withState_of_ne {q : Fin N} (h : q ≠ p) : (s.withState p st).slot q = s.slot q :=
  Smp.setSlot_of_ne h

theorem Ready.withState {q : Fin N} {b : Option (Fin N × Bool)} (h : Ready s q b) :
    Ready (s.withState p st) q b :=
  h.congr (Smp.setSlot_field Slot.ctx rfl q) (Smp.setSlot_field Slot.code rfl q)

variable (h : Safe s τ) (hc : (s.cpu c).cur c = some x) (hx : (τ x).lock = some p)

include h hc hx

theorem Safe.setState (hl : o.lock = some p) (hk : o.known = some st) (hst : st ≠ .running)
    (hp : (s.slot p).state = .running ↔ x.proc = some p)
    (halive : x.proc = some p → st ≠ .unused ∧ st ≠ .used)
    (hctx : Contexts (s.withState p st) fun y => (update τ x o y).build) :
    CodeStep s (s.withState p st) τ c x o := by
  refine h.by_code hc ⟨rfl, fun q _ _ => Smp.setSlot_field Slot.code rfl q⟩ (fun q c' => ?_)
    (fun q => ?_) (fun q st' hq hk' => ?_) (fun q hq => ⟨fun hlq => ?_, fun hlq => ?_⟩) hctx
  · have hiff := h.lock_iff c q c'
    rw [Hart.held_cur hc, hx, ← hl] at hiff
    rw [← hiff, Smp.withState, Smp.setSlot_field Slot.lock rfl]
  · by_cases hq : q = p
    · subst hq
      rw [withState_self]
      exact .inr ⟨hx, hst, hp, halive⟩
    · exact .inl (by rw [withState_of_ne hq])
  · obtain rfl := Option.some.inj (hl.symm.trans hq)
    exact withState_self.trans (Option.some.inj (hk.symm.trans hk'))
  · obtain rfl := Option.some.inj (hl.symm.trans hlq)
    rw [hk, withState_self]
  · have hqp : q ≠ p := by
      rintro rfl
      exact hlq hl
    rw [withState_of_ne hqp]
    exact h.running hc hq (hx.trans_ne fun heq => hqp (Option.some.inj heq).symm)

omit h hc hx in
/-- A process changes its own state. -/
theorem Safe.setOwn (h : Safe s τ) (hc : (s.cpu c).cur c = some (.inl p))
    (hx : (τ (.inl p)).lock = some p) (hl : Leaves (τ (.inl p)) st) :
    CodeStep s (s.withState p st) τ c (.inl p) { τ (.inl p) with known := some st } := by
  obtain ⟨hk, hst⟩ := hl
  have hrun : (s.slot p).state = .running := (h.hart _).known hc hx hk
  have hne : st ≠ .running ∧ st ≠ .unused ∧ st ≠ .used := by
    rcases hst with rfl | rfl | ⟨rfl, -⟩ <;> decide
  refine h.setState hc hx hx rfl hne.1 ⟨fun _ => rfl, fun _ => hrun⟩ (fun _ => hne.2) ?_
  rw [build_update (o := { τ (.inl p) with known := some st }) rfl]
  refine h.contexts.change_same (by simp [hrun]) (fun q hq => withState_of_ne hq)
    (fun _ _ hq => hq) (fun hoff => absurd (Hart.cur_inl hc) (hoff c)) fun hd => ?_
  rw [withState_self] at hd
  rcases hst with rfl | rfl | ⟨rfl, hb⟩
  · simp at hd
  · simp at hd
  · exact hb

/-- The process that another one changes does not run, and is built by no third one. -/
theorem Safe.before (hm : Moves (τ x) p st) :
    (s.slot p).state ≠ .running ∧ ∀ y, (τ y).Builds p → y = x := by
  have hk : ∀ st', (τ x).known = some st' → (s.slot p).state = st' := fun st' =>
    (h.hart _).known hc hx
  have hused : ∀ y, (τ y).Builds p → (s.slot p).state = .used := fun y hb => by
    obtain ⟨⟨r, b⟩, hrb, rfl⟩ := Option.map_eq_some_iff.mp hb
    exact (h.contexts.build hrb).1
  cases hm with
  | alloc hu => exact ⟨by simp [hk _ hu], fun y hb => nomatch (hk _ hu).symm.trans (hused y hb)⟩
  | wake hs => exact ⟨by simp [hk _ hs], fun y hb => nomatch (hk _ hs).symm.trans (hused y hb)⟩
  | reap hz => exact ⟨by simp [hk _ hz], fun y hb => nomatch (hk _ hz).symm.trans (hused y hb)⟩
  | start hb =>
    have hbx : (τ x).Builds p := by rw [Hold.Builds, hb]; rfl
    exact ⟨by simp [hused x hbx], fun y hy => h.contexts.inj hy hbx⟩
  | drop hb => exact ⟨by simp [hused x hb], fun y hy => h.contexts.inj hy hb⟩

/-- The process of `x` runs, if `x` holds the lock of another one. -/
theorem Safe.running_other {q : Fin N} (hq : q ≠ p) :
    Sum.inl q ≠ x ∨ (s.slot q).state = .running ∧ ∃ c', (s.cpu c').stack = some q := by
  by_cases hqx : Sum.inl q = x
  · subst hqx
    exact .inr ⟨h.running hc rfl (hx.trans_ne fun heq => hq (Option.some.inj heq).symm),
      c, Hart.cur_inl hc⟩
  · exact .inl hqx

theorem Safe.contexts_setOther (hw : x.proc ≠ some p) (hm : Moves (τ x) p st) :
    Contexts (s.withState p st)
      fun y => (update τ x ((τ x).changed x.proc p st) y).build := by
  obtain ⟨hnr, honly⟩ := h.before hc hx hm
  have hoff : ∀ c', (s.cpu c').stack ≠ some p := h.not_on_stack hc hx hw hnr
  have hpx : Sum.inl p ≠ x := fun hp => hw (hp ▸ rfl)
  have hk : ∀ st', (τ x).known = some st' → (s.slot p).state = st' := fun st' =>
    (h.hart _).known hc hx
  refine h.contexts.change (x := x) (fun q hq => withState_of_ne hq) (fun _ _ hq => hq)
    (fun {y q b} hy => ?_) (fun q hq => ?_) (fun _ hp => ?_) fun hd => ?_
  · by_cases hyx : y = x
    · subst hyx
      simp only [update_self, Hold.changed, if_neg hw] at hy
      split at hy
      · cases hy
        exact .inr ⟨rfl, rfl, withState_self.trans ‹_›, by rintro ⟨⟩⟩
      split at hy
      · cases hy
      · rename_i hnb
        refine .inl ⟨?_, hy⟩
        rintro rfl
        exact hnb (by rw [Hold.Builds, hy]; rfl)
    · simp only [update_of_ne hyx] at hy
      refine .inl ⟨?_, hy⟩
      rintro rfl
      exact hyx (honly y (by rw [Hold.Builds, hy]; rfl))
  · exact (h.running_other hc hx hq).imp_left fun hqx => by simp only [update_of_ne hqx]
  · simp only [update_of_ne hpx]
    rw [withState_self] at hp
    cases hm with
    | start hb =>
      obtain ⟨hu, hready⟩ := h.contexts.build hb
      have hnone : (τ (.inl p)).build = none := h.contexts.dead (.inr (.inl hu))
      rw [hnone]
      exact (hready rfl).withState
    | wake hs' => exact (h.contexts.ready hoff (.inr (.inl (hk _ hs')))).withState
    | alloc | drop | reap => simp at hp
  · simp only [update_of_ne hpx]
    rw [withState_self] at hd
    refine h.contexts.dead ?_
    cases hm with
    | alloc hu => exact .inl (hk _ hu)
    | start hb => exact .inr (.inl (h.contexts.build hb).1)
    | drop hb =>
      obtain ⟨⟨r, b⟩, hrb, rfl⟩ := Option.map_eq_some_iff.mp hb
      exact .inr (.inl (h.contexts.build hrb).1)
    | wake => simp at hd
    | reap hz => exact .inr (.inr (hk _ hz))

/-- Another process changes the state of `p`. -/
theorem Safe.setOther (hw : x.proc ≠ some p) (hm : Moves (τ x) p st) :
    CodeStep s (s.withState p st) τ c x ((τ x).changed x.proc p st) := by
  have hst : st ≠ .running := by cases hm <;> decide
  exact h.setState hc hx hx rfl hst
    ⟨fun hr => absurd hr (h.before hc hx hm).1, fun hp => absurd hp hw⟩ (fun hp => absurd hp hw)
    (h.contexts_setOther hc hx hw hm)

end SetState

variable (h : Safe s τ) (hc : (s.cpu c).cur c = some x)

include h hc

/-- `allocproc` sets up the context of the slot it builds. -/
theorem Safe.setContext (hx : (τ x).lock = some p) (hw : x.proc ≠ some p) (hb : (τ x).Builds p) :
    CodeStep s (s.setSlot p fun y => { y with ctx := NREG, code := Kernel.forkret }) τ c x
      { τ x with build := some (p, true) } := by
  have hst : ∀ q, ((s.setSlot p fun y => { y with ctx := NREG, code := Kernel.forkret }).slot
      q).state = (s.slot q).state := Smp.setSlot_field Slot.state rfl
  obtain ⟨⟨r, f⟩, hrb, rfl⟩ := Option.map_eq_some_iff.mp hb
  have hused := (h.contexts.build hrb).1
  have hpx : Sum.inl r ≠ x := fun hp => hw (hp ▸ rfl)
  refine h.by_code hc ⟨rfl, fun q c' hs => ?_⟩ (fun q c' => ?_) (fun q => .inl (hst q))
    (fun q st hq hk => (hst q).trans ((h.hart _).known hc hq hk))
    (fun q hq => ⟨fun hlq => ?_, fun hne => (hst q).trans (h.running hc hq hne)⟩) ?_
  · -- the slot is being built, and so on no stack
    have hq : q ≠ r := by
      rintro rfl
      exact ((h.hart _).alive hs).2 hused
    rw [Smp.setSlot_of_ne hq]
  · rw [Smp.setSlot_field Slot.lock rfl]
    exact Hart.held_cur (τ := τ) hc ▸ h.lock_iff c q c'
  · subst hq
    rw [hst]
    exact (h.hart _).own (Hart.cur_inl hc) hlq
  · refine h.contexts.change (x := x) (fun q hq => Smp.setSlot_of_ne hq) (fun _ _ hq => hq)
      (fun {y q b} hy => ?_) (fun q hq => ?_) (fun _ hp => ?_) fun hd => ?_
    · by_cases hyx : y = x
      · subst hyx
        simp only [update_self] at hy
        cases hy
        refine .inr ⟨rfl, rfl, (hst _).trans hused, fun _ => ?_⟩
        rw [Ready, Smp.setSlot_self]
        exact ⟨rfl, Kernel.forkret_holds⟩
      · simp only [update_of_ne hyx] at hy
        refine .inl ⟨?_, hy⟩
        rintro rfl
        exact hyx (h.contexts.inj (congrArg _ hy) (congrArg _ hrb))
    · exact (h.running_other hc hx hq).imp_left fun hqx => by simp only [update_of_ne hqx]
    · simp [hused] at hp
    · simp only [update_of_ne hpx]
      exact h.contexts.dead (.inr (.inl hused))

theorem Safe.myproc : (s.cpu c).proc = x.proc := by
  rw [(h.hart _).proc]
  cases x with
  | inl p =>
    rw [Hart.cur_inl hc]
    rfl
  | inr d =>
    obtain ⟨rfl, hs, m, j, hp⟩ := Hart.cur_inr hc
    rw [hs, hp]
    rfl

/-- A change to fields that have nothing to do with running processes. -/
theorem Safe.same (hcpu : s'.cpu = s.cpu)
    (hslot : ∀ q, (s'.slot q).lock = (s.slot q).lock ∧ (s'.slot q).state = (s.slot q).state ∧
      (s'.slot q).ctx = (s.slot q).ctx ∧ (s'.slot q).code = (s.slot q).code) :
    CodeStep s s' τ c x (τ x) := by
  refine h.keep hc hcpu (fun q => (hslot q).2) (fun q c' => ?_) rfl
    (fun q st => (h.hart _).known hc) fun q hq => ⟨fun hlq => ?_, h.running hc hq⟩
  · rw [(hslot q).1]
    exact Hart.held_cur (τ := τ) hc ▸ h.lock_iff c q c'
  · subst hq
    exact (h.hart _).own (Hart.cur_inl hc) hlq

/-- An action keeps the invariant, by its rule. -/
theorem Safe.act [DecidableEq κ] [Fintype κ] {i : SmpInput N κ} {a : KAct N κ} {r : a.Ans}
    (hn : a.Needs x.proc (τ x)) (ha : s.act c i a = some (r, s')) :
    ∃ o, a.Does x.proc (τ x) r o ∧ CodeStep s s' τ c x o := by
  have hsame : ∀ {s'' : Smp N M κ}, s''.cpu = s.cpu → s''.slot = s.slot →
      CodeStep s s'' τ c x (τ x) := fun hcpu hslot =>
    h.same hc hcpu fun q => by rw [hslot]; exact ⟨rfl, rfl, rfl, rfl⟩
  cases a with
  | acquire p =>
    simp only [Smp.act] at ha
    split at ha <;> cases ha
    exact ⟨_, rfl, h.acquire hc hn ‹_›⟩
  | release p =>
    simp only [Smp.act] at ha
    split at ha <;> cases ha
    exact ⟨_, rfl, h.release hc hn.1 hn.2⟩
  | lock k | unlock k =>
    simp only [Smp.act] at ha
    split at ha <;> cases ha
    exact ⟨_, rfl, hsame rfl rfl⟩
  | myproc =>
    cases ha
    exact ⟨_, ⟨h.myproc hc, rfl⟩, hsame rfl rfl⟩
  | holding p =>
    cases ha
    exact ⟨_, ⟨decide_eq_true ((h.lock_cur hc).mpr hn), rfl⟩, hsame rfl rfl⟩
  | noff | input | get | nextpid =>
    cases ha
    exact ⟨_, rfl, hsame rfl rfl⟩
  | state p =>
    cases ha
    exact ⟨_, ⟨fun st hk => (h.hart _).known hc hn hk, rfl⟩, h.read hc hn⟩
  | setState p st =>
    cases ha
    obtain ⟨hl, hm⟩ := hn
    refine ⟨_, rfl, ?_⟩
    split at hm
    · rename_i hw
      obtain rfl := Who.proc_eq_some hw
      have hch : (τ (.inl p)).changed (Who.proc (M := M) (.inl p)) p st =
          { τ (.inl p) with known := some st } := Kernel.changed_own
      rw [hch]
      exact h.setOwn hc hl hm
    · exact h.setOther hc hl ‹_› hm
  | put p f =>
    cases ha
    exact ⟨_, rfl, h.same hc rfl fun q => ⟨Smp.setSlot_field Slot.lock rfl q,
      Smp.setSlot_field Slot.state rfl q, Smp.setSlot_field Slot.ctx rfl q,
      Smp.setSlot_field Slot.code rfl q⟩⟩
  | context p =>
    cases ha
    obtain ⟨hl, hw, hb⟩ := hn
    exact ⟨_, rfl, h.setContext hc hl hw hb⟩
  | swtch => cases ha
  | panic => cases ha

end Actions

end Xv6
