import Xv6.SmpSafety

/-!
# The processors

A step is taken by one processor, `c`. What the others hold and run is as before, so the invariant
follows from what the step does to `c` (`Safe.step`). The steps are those of `scheduler` up to the
switch, the switch to the stack of a process, its actions, the switch back, and interrupts ; all
keep `Good`, for any number of processors and processes, and `one_cpu` is read off it.
-/

namespace Xv6

open Function Ctl

variable {N M : ℕ} {κ : Type}

/-- The code of `x` keeps the rules. -/
def Runs (s : Smp N M κ) (τ : Who N M → Hold N) (x : Who N M) : Prop :=
  ((τ x).lock = none → (τ x).known = none) ∧ match x with
    | .inl p => Holds (rules κ (some p)) (s.slot p).code Kernel.Between (τ x)
    | .inr c => ∀ m j, (s.cpu c).pt = .intr m j →
      Holds (rules κ none) m (fun _ o => o = .out none) (τ x)

/-- The invariant of all runs. -/
structure Good (s : Smp N M κ) (τ : Who N M → Hold N) : Prop where
  safe : Safe s τ
  runs : ∀ {c x}, (s.cpu c).cur c = some x → Runs s τ x

/-- The invariant after a step of processor `c`. -/
def Steps (s s' : Smp N M κ) (c : Fin M) : Prop := (∃ τ, Good s' τ) ∧ Changes s s' c

section Hart

variable {s s' : Smp N M κ} {τ τ' : Who N M → Hold N} {c : Fin M} {p : Fin N}

/-- The code on the other processors goes on by the rules. -/
theorem Good.hart (h : Good s τ) (hsafe : Safe s' τ') (hl : Others s s' τ τ' c)
    (hself : ∀ x, (s'.cpu c).cur c = some x → Runs s' τ' x) : Good s' τ' := by
  refine ⟨hsafe, fun {c' x} hx => ?_⟩
  by_cases hc : c' = c
  · subst hc
    exact hself x hx
  · rw [hl.cpu c' hc] at hx
    obtain ⟨hidle, hruns⟩ := h.runs hx
    unfold Runs
    rw [hl.hold c' x hc hx]
    refine ⟨hidle, ?_⟩
    cases x with
    | inl q =>
      simp only [hl.code c' q hc (Hart.cur_inl hx)]
      exact hruns
    | inr d =>
      obtain ⟨rfl, -, -⟩ := Hart.cur_inr hx
      simp only [hl.cpu d hc]
      exact hruns

/-- A step that changes no more than the processor. -/
theorem OnHart.setCpu (g : Hart N κ → Hart N κ) : OnHart s (s.setCpu c g) τ τ c where
  cpu _ hc := Smp.setCpu_of_ne hc
  hold _ _ _ _ := rfl
  code _ _ _ _ := rfl
  lock _ _ _ := Iff.rfl
  state _ := .inl rfl

/-- A processor on its own stack, and not in an interrupt. -/
theorem HartSafe.sched (pt : SchedPt N κ) (hc : s.cpu c = ⟨pt.proc, none, pt⟩)
    (hi : ∀ m j, pt ≠ .intr m j) (hlock : ∀ q, (s.slot q).lock = some c ↔ pt.lock = some q)
    (hchosen : ∀ q, pt.claim = some q → pt ≠ .back q → (s.slot q).state = .running)
    (hback : ∀ q, pt = .back q → (s.slot q).state ≠ .running ∧ (s.slot q).state ≠ .unused ∧
      (s.slot q).state ≠ .used) : HartSafe s τ c := by
  have hcur : (s.cpu c).cur c = none := Hart.cur_none (by rw [hc]) (by rwa [hc])
  have hheld : (s.cpu c).held τ c = pt.lock := by rw [Hart.held_none hcur, hc]
  refine ⟨?_, ?_, ?_, ?_, ?_, by rw [hheld]; exact hlock _, ?_, ?_, ?_⟩
  · rw [hc]
  · simp [hc]
  · simp [hc]
  · rw [hc]
    exact fun _ => hchosen _
  · rw [hc]
    exact fun _ => hback _
  · simp [hcur]
  · simp [hc]
  · simp [hc]

/-- The scheduler's processor, by where it is. -/
theorem Safe.cpu_sched (h : Safe s τ) (hs : (s.cpu c).stack = none) :
    s.cpu c = ⟨(s.cpu c).pt.proc, none, (s.cpu c).pt⟩ := by
  have hproc := (h.hart c).proc
  simp only [hs] at hproc
  rw [← hproc, ← hs]

theorem Hart.held_sched (pt : SchedPt N κ) (hc : s.cpu c = ⟨pt.proc, none, pt⟩)
    (hi : ∀ m j, pt ≠ .intr m j) : (s.cpu c).held τ c = pt.lock := by
  rw [Hart.held_none (Hart.cur_none (by rw [hc]) (by rwa [hc])), hc]

end Hart

/-! ## On the stack of a process -/

section Thread

variable {s s' : Smp N M κ} {τ : Who N M → Hold N} {c : Fin M} {p : Fin N}

/-- A change to the thread that is on the stack. -/
theorem Safe.setThread (h : Safe s τ) (hs : (s.cpu c).stack = some p)
    {f : Slot N M κ → Slot N M κ} (hl : (f (s.slot p)).lock = (s.slot p).lock)
    (hst : (f (s.slot p)).state = (s.slot p).state) :
    OnHart s (s.setSlot p f) τ τ c ∧ Safe (s.setSlot p f) τ := by
  have hlock : ∀ q c', ((s.setSlot p f).slot q).lock = some c' ↔ (s.slot q).lock = some c' :=
    fun q c' => by rw [Smp.setSlot_field Slot.lock hl]
  have hstate := Smp.setSlot_field Slot.state hst
  have hloc : OnHart s (s.setSlot p f) τ τ c := {
    cpu := fun _ _ => rfl
    hold := fun _ _ _ _ => rfl
    code := fun c' q hc hq => by
      refine congrArg Slot.code (Smp.setSlot_of_ne ?_)
      rintro rfl
      exact hc (h.uniq (Hart.claim_stack hq) (Hart.claim_stack hs))
    lock := fun q c' _ => hlock q c'
    state := fun q => .inl (hstate q) }
  refine ⟨hloc, h.step hloc ((h.hart c).congr rfl (fun _ _ => rfl) (hlock · c) fun q _ => hstate q)
    (fun q hq => .inl hq) (fun q _ hq => hq.resolve_right (not_not.mpr (hstate q))) ?_⟩
  refine h.contexts.change_same ((h.hart _).alive hs).2 (fun q hq => Smp.setSlot_of_ne hq)
    (fun _ _ hq => hq) (fun hoff => absurd hs (hoff c)) fun hd => ?_
  rw [hstate] at hd
  exact h.contexts.dead hd

/-- The process of a processor that is on its stack. -/
theorem Safe.proc_stack (h : Safe s τ) (hs : (s.cpu c).stack = some p) :
    (s.cpu c).proc = some p := h.myproc (Hart.cur_stack hs)

/-- The last part of `swtch` to the scheduler. -/
theorem Safe.leave (h : Safe s τ) (hs : (s.cpu c).stack = some p) (hctx : (s.slot p).ctx = NREG)
    {st : ProcState} (hl : (τ (.inl p)).lock = some p) (hk : (τ (.inl p)).known = some st)
    (hst : st ≠ .running)
    (hm : st ≠ .zombie → Holds (rules κ (some p)) (s.slot p).code Kernel.Between
      { τ (.inl p) with known := some .running }) :
    Safe (s.setCpu c fun h => { h with stack := none }) τ := by
  have hcur := Hart.cur_stack (c := c) hs
  have hloc : OnHart s _ τ τ c := .setCpu fun h => { h with stack := none }
  have hcpu : (s.setCpu c fun h => { h with stack := none }).cpu c = ⟨some p, none, .back p⟩ := by
    rw [Smp.setCpu_self, (h.hart _).pt hs, h.proc_stack hs]
  have hclaim := Hart.claim_stack hs
  have hst' : (s.slot p).state = st := (h.hart _).known hcur hl hk
  refine h.step hloc (.sched (.back p) hcpu nofun (fun q => ?_) (fun q hq hne => ?_)
    fun q hq => ?_)
    (fun q hq => .inl ?_) (fun q _ hq => ?_) ?_
  · exact (h.lock_cur hcur).trans (by rw [hl]; rfl)
  · exact absurd (congrArg SchedPt.back (Option.some.inj hq)) hne
  · cases hq
    exact ⟨hst'.trans_ne hst, (h.hart _).alive hs⟩
  · rw [hcpu] at hq
    exact hclaim.trans hq
  · rw [hcpu]
    exact hclaim.symm.trans (hq.resolve_right (not_not.mpr rfl))
  · refine h.contexts.change_same ((h.hart _).alive hs).2 (fun _ _ => rfl)
      (fun q hq => hloc.off (by simp [hs, Ne.symm hq])) (fun _ hq => ⟨hctx, ?_⟩) h.contexts.dead
    have hz : st ≠ .zombie := by
      rintro rfl
      simp [hst'] at hq
    have ho : (⟨some p, some .running, (τ (.inl p)).build⟩ : Hold N) =
        { τ (.inl p) with known := some .running } := by rw [← hl]
    exact ho ▸ hm hz

/-- Code that holds no lock knows no state. -/
theorem KAct.Does.idle {t : Option (Fin N)} {a : KAct N κ} {o o' : Hold N} {r : a.Ans}
    (hd : a.Does t o r o') (hn : a.Needs t o) (ho : o.lock = none → o.known = none) :
    o'.lock = none → o'.known = none := by
  cases a with
  | acquire =>
    obtain rfl := hd
    exact nofun
  | release =>
    obtain rfl := hd
    exact fun _ => rfl
  | state =>
    obtain ⟨-, rfl⟩ := hd
    exact fun h => nomatch hn.symm.trans h
  | setState =>
    obtain rfl := hd
    exact fun h => nomatch hn.1.symm.trans h
  | swtch =>
    obtain ⟨-, rfl⟩ := hd
    obtain ⟨p, -, hl, -⟩ := hn
    exact fun h => nomatch hl.symm.trans h
  | holding | myproc =>
    obtain ⟨-, rfl⟩ := hd
    exact ho
  | panic => exact r.elim
  | context | lock | unlock | noff | get | put | nextpid | input =>
    obtain rfl := hd
    exact ho

variable [DecidableEq κ] [Fintype κ] [NeZero N] {i : SmpInput N κ}

theorem Smp.thread_act {a : KAct N κ} {k : a.Ans → KProg N κ KNext} (ha : a ≠ .swtch)
    (hcode : (s.slot p).code = .act a k) : s.thread c p i =
      (s.act c i a).map fun r => r.2.setSlot p fun x => { x with code := k r.1 } := by
  cases a with
  | swtch => exact absurd rfl ha
  | _ => simp only [Smp.thread, hcode]

theorem Good.thread (h : Good s τ) (hs : (s.cpu c).stack = some p)
    (ht : s.thread c p i = some s') : Steps s s' c := by
  have hcur := Hart.cur_stack (c := c) hs
  obtain ⟨hidle, hruns⟩ := h.runs hcur
  have hset : ∀ {f : Slot N M κ → Slot N M κ}, (f (s.slot p)).lock = (s.slot p).lock →
      (f (s.slot p)).state = (s.slot p).state →
      Holds (rules κ (some p)) (f (s.slot p)).code Kernel.Between (τ (.inl p)) →
      Steps s (s.setSlot p f) c := fun {f} hl hst hm => by
    obtain ⟨hloc, hsafe⟩ := h.safe.setThread hs hl hst
    refine ⟨⟨τ, h.hart hsafe hloc.toOthers fun x hx => ?_⟩, hloc.state⟩
    obtain rfl : .inl p = x := Option.some.inj (hcur.symm.trans hx)
    refine ⟨hidle, ?_⟩
    simp only [Smp.setSlot_self]
    exact hm
  cases hcode : (s.slot p).code with
  | ret n =>
    simp only [Smp.thread, hcode, Option.some.injEq] at ht
    subst ht
    have hout : τ (.inl p) = .out none := by
      simp only [hcode] at hruns
      exact hruns
    exact hset rfl rfl (by rw [hout]; exact Kernel.go_holds n i.call)
  | act a k =>
    simp only [hcode] at hruns
    obtain ⟨hn, hk⟩ := id hruns
    by_cases ha : a = .swtch
    · subst ha
      obtain ⟨q, hq, hl, st, hst, hrun⟩ := hn
      cases hq
      simp only [Smp.thread, hcode, h.safe.proc_stack hs] at ht
      split at ht
      · cases ht
        exact hset rfl rfl (by rw [hcode]; exact hruns)
      · rename_i hctx
        cases ht
        obtain ⟨hloc, hsafe⟩ := h.safe.setThread (f := fun x => { x with code := k () }) hs rfl rfl
        refine ⟨⟨τ, h.hart (hsafe.leave hs ?_ hl hst hrun fun hz => ?_)
          (hloc.toOthers.trans (OnHart.setCpu _).toOthers) fun x hx => ?_⟩, hloc.state⟩
        · rw [Smp.setSlot_self]
          exact not_not.mp hctx
        · rw [Smp.setSlot_self]
          refine hk () () () _ ⟨?_, rfl⟩
          rw [hst]
          exact fun heq => hz (Option.some.inj heq)
        · rw [Smp.setCpu_self] at hx
          simp [Hart.cur, (h.safe.hart _).pt hs] at hx
    · rw [Smp.thread_act ha hcode] at ht
      obtain ⟨⟨r, s₁⟩, hact, rfl⟩ := Option.map_eq_some_iff.mp ht
      obtain ⟨o, hd, hcpu, hloc, hsafe⟩ := h.safe.act hcur hn hact
      obtain ⟨hloc', hsafe'⟩ := hsafe.setThread (f := fun x => { x with code := k r }) (hcpu ▸ hs)
        rfl rfl
      refine ⟨⟨_, h.hart hsafe' (hloc.toOthers.trans hloc'.toOthers) fun x hx => ?_⟩, fun q => ?_⟩
      · rw [Smp.setSlot_cpu, hcpu] at hx
        obtain rfl : .inl p = x := Option.some.inj (hcur.symm.trans hx)
        unfold Runs
        simp only [update_self, Smp.setSlot_self]
        exact ⟨hd.idle hn hidle, hk () r () o hd⟩
      · rw [Smp.setSlot_field Slot.state rfl]
        exact hloc.state q

end Thread

/-! ## In the scheduler -/

section Scheduler

variable {s s' : Smp N M κ} {τ : Who N M → Hold N} {c : Fin M} {p : Fin N}

/-- The scheduler makes a process `RUNNING`. -/
theorem Good.choose (h : Good s τ) (hc : s.cpu c = ⟨none, none, .check p⟩)
    (hst : (s.slot p).state = .runnable) :
    Steps s ((s.withState p .running).setCpu c fun h => { h with pt := .chosen p }) c := by
  set s' := (s.withState p .running).setCpu c fun h => { h with pt := .chosen p }
  have hcpu : s'.cpu c = ⟨none, none, .chosen p⟩ := by
    rw [Smp.setCpu_self, Smp.withState, Smp.setSlot_cpu, hc]
  have hslot : ∀ {q}, q ≠ p → s'.slot q = s.slot q := withState_of_ne
  have hlock : ∀ q, (s'.slot q).lock = (s.slot q).lock :=
    Smp.setSlot_field (f := fun y => { y with state := .running }) Slot.lock rfl
  have hrun : (s'.slot p).state = .running := withState_self
  have hheld : ∀ {q}, (s.slot q).lock = some c ↔ some p = some q := by
    intro q
    rw [(h.safe.hart _).lock, Hart.held_sched (.check p) hc (by simp)]
    rfl
  have hloc : OnHart s s' τ τ c := {
    cpu := fun _ hne => Smp.setCpu_of_ne hne
    hold := fun _ _ _ _ => rfl
    code := fun _ q _ _ =>
      Smp.setSlot_field (f := fun y => { y with state := .running }) Slot.code rfl q
    lock := fun q c' _ => by rw [hlock]
    state := fun q => by
      by_cases hq : q = p
      · subst hq
        refine .inr ⟨hheld.mpr rfl, ?_⟩
        rw [hst, hc]
        exact ⟨by simp, by rintro ⟨⟩⟩
      · exact .inl (by rw [hslot hq]) }
  refine ⟨⟨τ, h.hart (h.safe.step hloc (.sched (.chosen p) hcpu (by simp) (fun q => ?_)
    (fun q hq _ => ?_) (by simp)) (fun q hq => ?_) (fun q hq hor => ?_) ?_) hloc.toOthers
    fun x hx => ?_⟩, hloc.state⟩
  · rw [hlock]
    exact hheld
  · cases hq
    exact hrun
  · rw [hcpu] at hq
    cases hq
    exact .inr ⟨hheld.mpr rfl, by simp [hst]⟩
  · rw [hcpu]
    rw [hc] at hor
    by_contra hne
    refine hor.elim (by rintro ⟨⟩) fun hch =>
      hch (by rw [hslot fun heq => hne (congrArg some heq.symm)])
  · refine h.safe.contexts.change_same (by simp [hst]) (fun q => hslot)
      (fun q _ => hloc.off (by simp [hc])) (fun hoff _ => ?_) fun hd => ?_
    · exact (h.safe.contexts.ready (hloc.off (by simp [hc]) hoff) (.inl hst)).withState
    · simp [hrun] at hd
  · simp [Hart.cur, hcpu] at hx

/-- The last part of `swtch` to the process. -/
theorem Good.enter (h : Good s τ) {k : ℕ} (hc : s.cpu c = ⟨some p, none, .switch p k⟩) :
    Steps s ((s.setSlot p fun x => { x with ctx := 0 }).setCpu c fun h =>
      { h with stack := some p, pt := .back p }) c := by
  set s' := (s.setSlot p fun x => { x with ctx := 0 }).setCpu c fun h =>
    { h with stack := some p, pt := .back p }
  have hcpu : s'.cpu c = ⟨some p, some p, .back p⟩ := by
    rw [Smp.setCpu_self, Smp.setSlot_cpu, hc]
  have hfield : ∀ {α : Type} (F : Slot N M κ → α), (∀ y, F { y with ctx := 0 } = F y) →
      ∀ q, F (s'.slot q) = F (s.slot q) := fun F hF =>
    Smp.setSlot_field (f := fun x => { x with ctx := 0 }) F (hF _)
  have hstate := hfield Slot.state fun _ => rfl
  have hclaim : (s.cpu c).claim = some p := by rw [hc]; rfl
  have hclaim' : (s'.cpu c).claim = some p := by rw [hcpu]; rfl
  have hrun : (s.slot p).state = .running :=
    (h.safe.hart _).chosen (by rw [hc]) (by rw [hc]; rfl) (by simp [hc])
  have hloc : OnHart s s' τ (update τ (.inl p) ⟨some p, some .running, (τ (.inl p)).build⟩) c := {
    cpu := fun _ hne => Smp.setCpu_of_ne hne
    hold := fun c' x hne hx => by
      refine update_of_ne ?_ ..
      rintro rfl
      exact hne (h.safe.uniq (Hart.claim_stack (Hart.cur_inl hx)) hclaim)
    code := fun _ q _ _ => hfield Slot.code (fun _ => rfl) q
    lock := fun q c' _ => by rw [hfield Slot.lock fun _ => rfl]
    state := fun q => .inl (hstate q) }
  have hcur : ∀ {x}, (s'.cpu c).cur c = some x → .inl p = x := by simp [Hart.cur, hcpu]
  refine ⟨⟨_, h.hart (h.safe.step hloc ⟨?_, ?_, ?_, ?_, ?_, fun {q} => ?_,
    fun {x q st} hx hq hk => ?_, fun {q} hq => ?_, fun {q} hq => ?_⟩ (fun q hq => .inl ?_)
    (fun q _ hq => ?_) ?_) hloc.toOthers fun x hx => ?_⟩, hloc.state⟩
  · rw [hcpu]
  · simp [hcpu]
  · simp [hcpu, hstate, hrun]
  · simp [hcpu]
  · simp [hcpu]
  · rw [Hart.held_cur (Hart.cur_stack (by rw [hcpu])), update_self, hfield Slot.lock fun _ => rfl,
      (h.safe.hart _).lock, Hart.held_sched (.switch p k) hc (by simp)]
    rfl
  · obtain rfl := hcur hx
    rw [update_self] at hq hk
    cases hq
    rw [hstate, hrun]
    exact Option.some.inj hk
  · obtain rfl : p = q := by simpa [hcpu] using hq
    rw [update_self, hstate, hrun]
    exact fun _ => rfl
  · obtain rfl : p = q := by simpa [hcpu] using hq
    exact fun _ => (hstate p).trans hrun
  · exact hclaim.trans (hclaim'.symm.trans hq)
  · exact hclaim'.trans (hclaim.symm.trans (hq.resolve_right (not_not.mpr (hstate q))))
  · rw [build_update (o := ⟨some p, some .running, (τ (.inl p)).build⟩) rfl]
    refine h.safe.contexts.change_same (p := p) (by simp [hrun])
      (fun q hq => Smp.setSlot_of_ne (f := fun x => { x with ctx := 0 }) hq)
      (fun q _ => hloc.off (by simp [hc])) (fun hoff => absurd (by rw [hcpu]) (hoff c)) fun hd => ?_
    simp [hstate, hrun] at hd
  · obtain rfl := hcur hx
    unfold Runs
    rw [update_self]
    refine ⟨by simp, ?_⟩
    simp only [hfield Slot.code fun _ => rfl]
    refine (h.safe.contexts.ready (fun c' hs' => ?_) (.inr (.inr hrun))).2
    obtain rfl := h.safe.uniq (Hart.claim_stack hs') hclaim
    simp [hc] at hs'

/-- The processor goes on in an interrupt, with `o`. -/
theorem Safe.intr (h : Safe s τ) (hs : (s.cpu c).stack = none) (hclaim : (s.cpu c).pt.claim = none)
    {o : Hold N} (hlock : ∀ q, (s.slot q).lock = some c ↔ o.lock = some q)
    (hknown : ∀ q st, o.lock = some q → o.known = some st → (s.slot q).state = st)
    (hb : o.build = none ∨ o.build = (τ (.inr c)).build) (m : KProg N κ Unit) (j : ℕ) :
    OnHart s (s.setCpu c fun h => { h with pt := .intr m j }) τ (update τ (.inr c) o) c ∧
      Safe (s.setCpu c fun h => { h with pt := .intr m j }) (update τ (.inr c) o) := by
  set s' := s.setCpu c fun h => { h with pt := .intr m j }
  have hcpu : s'.cpu c = ⟨none, none, .intr m j⟩ := by
    have hproc := (h.hart c).proc
    rw [hs] at hproc
    have hnone : (s.cpu c).pt.proc = none := by
      cases hq : (s.cpu c).pt.proc with
      | none => rfl
      | some q => exact absurd (SchedPt.claim_of_proc hq) (by simp [hclaim])
    rw [Smp.setCpu_self, hs, hproc, hnone]
  have hcur : (s'.cpu c).cur c = some (.inr c) := by rw [hcpu]; rfl
  have hbuild : ∀ {y b}, (update τ (.inr c) o y).build = some b → (τ y).build = some b :=
    fun {y b} hy => by
      by_cases hyc : y = .inr c
      · rw [hyc, update_self] at hy
        rw [hyc]
        rcases hb with hb | hb
        · simp [hb] at hy
        · rw [← hb, hy]
      · rwa [update_of_ne hyc] at hy
  have hloc : OnHart s s' τ (update τ (.inr c) o) c := {
    OnHart.setCpu (τ := τ) _ with
    hold := fun c' x hne hx => by
      refine update_of_ne ?_ ..
      rintro rfl
      exact hne (Hart.cur_inr hx).1.symm }
  refine ⟨hloc, h.step hloc ⟨?_, ?_, ?_, ?_, ?_, fun {q} => ?_, fun {x q st} hx => ?_, ?_, ?_⟩
    (fun q hq => ?_) (fun q _ hq => ?_) ⟨fun {q} hq => ?_, fun hy => h.contexts.build (hbuild hy),
      fun {x y q} hx hy => ?_, fun {q} => ?_⟩⟩
  · rw [hcpu]
    rfl
  · simp [hcpu]
  · simp [hcpu]
  · simp [hcpu, SchedPt.claim]
  · simp [hcpu]
  · rw [Hart.held_cur hcur, update_self]
    exact hlock q
  · obtain rfl := Option.some.inj (hcur.symm.trans hx)
    rw [update_self]
    exact hknown q st
  · simp [hcpu]
  · simp [hcpu]
  · rw [hcpu] at hq
    cases hq
  · rcases hq with hq | hq
    · rw [Hart.claim_none hs, hclaim] at hq
      cases hq
    · exact absurd rfl hq
  · rw [update_of_ne (by simp)]
    exact h.contexts.ready (hloc.off (by simp [hs]) hq)
  · obtain ⟨b, hxb, rfl⟩ := Option.map_eq_some_iff.mp hx
    obtain ⟨b', hyb, hbb⟩ := Option.map_eq_some_iff.mp hy
    exact h.contexts.inj (congrArg _ (hbuild hxb)) ((congrArg _ (hbuild hyb)).trans
      (congrArg some hbb))
  · rw [update_of_ne (by simp)]
    exact h.contexts.dead

/-- The scheduler goes on elsewhere, and changes no more of a slot than its lock. -/
theorem Good.goto (h : Good s τ) {pt : SchedPt N κ} (hc : s.cpu c = ⟨pt.proc, none, pt⟩)
    (pt' : SchedPt N κ) (s₁ : Smp N M κ) (hcpu : s₁.cpu = s.cpu)
    (hslot : ∀ q, (s₁.slot q).state = (s.slot q).state ∧ (s₁.slot q).ctx = (s.slot q).ctx ∧
      (s₁.slot q).code = (s.slot q).code)
    {g : Hart N κ → Hart N κ} (hg : g ⟨pt.proc, none, pt⟩ = ⟨pt'.proc, none, pt'⟩)
    (hi : ∀ m j, pt' ≠ .intr m j)
    (hlock : ∀ q c', (s₁.slot q).lock = some c' ↔
      if c' = c then pt'.lock = some q else (s.slot q).lock = some c')
    (hclaim : ∀ q, pt'.claim = some q → pt.claim = some q ∧ pt ≠ .back q ∧ pt' ≠ .back q)
    (hlost : ∀ q, pt.claim = some q → pt'.claim = some q ∨ (s.slot q).state ≠ .running) :
    Steps s (s₁.setCpu c g) c := by
  have hcpu' : (s₁.setCpu c g).cpu c = ⟨pt'.proc, none, pt'⟩ := by
    rw [Smp.setCpu_self, hcpu, hc, hg]
  have hloc : OnHart s (s₁.setCpu c g) τ τ c := {
    cpu := fun c' hne => by rw [Smp.setCpu_of_ne hne, hcpu]
    hold := fun _ _ _ _ => rfl
    code := fun _ q _ _ => (hslot q).2.2
    lock := fun q c' hne => (hlock q c').trans (by rw [if_neg hne])
    state := fun q => .inl (hslot q).1 }
  have hold : (s.cpu c).claim = pt.claim := by rw [hc]; rfl
  have hnew : ((s₁.setCpu c g).cpu c).claim = pt'.claim := by rw [hcpu']; rfl
  refine ⟨⟨τ, h.hart (h.safe.step hloc (.sched pt' hcpu' hi (fun q => ?_) (fun q hq _ => ?_)
    fun q hq => ?_) (fun q hq => .inl ?_) (fun q hq hor => ?_) ?_) hloc.toOthers
    fun x hx => ?_⟩, hloc.state⟩
  · exact (hlock q c).trans (by rw [if_pos rfl])
  · refine (hslot q).1.trans ((h.safe.hart _).chosen (c := c) ?_ ?_ ?_)
    · rw [hc]
    · rw [hc]
      exact (hclaim q hq).1
    · rw [hc]
      exact (hclaim q hq).2.1
  · exact absurd hq (hclaim q (by rw [hq]; rfl)).2.2
  · rw [hold]
    exact (hclaim q (hnew.symm.trans hq)).1
  · rw [hnew]
    have hq' := hor.resolve_right (not_not.mpr (hslot q).1)
    exact (hlost q (hold.symm.trans hq')).resolve_right (not_not.mpr ((hslot q).1.symm.trans hq))
  · refine h.safe.contexts.congr (fun c' => ?_) hslot
    by_cases hcc : c' = c
    · rw [hcc, hcpu', hc]
    · rw [hloc.cpu c' hcc]
  · rw [hcpu', Hart.cur_none rfl hi] at hx
    cases hx

variable [DecidableEq κ] [Fintype κ] [NeZero N] {i : SmpInput N κ}

omit [NeZero N] in
theorem Good.scheduler (h : Good s τ) (hs : (s.cpu c).stack = none)
    (ht : s.scheduler c i = some s') : Steps s s' c := by
  have hc := h.safe.cpu_sched hs
  have hsame : ∀ q : Fin N, (s.slot q).state = (s.slot q).state ∧ (s.slot q).ctx = (s.slot q).ctx ∧
      (s.slot q).code = (s.slot q).code := fun _ => ⟨rfl, rfl, rfl⟩
  have hlocks := h.safe.lock_iff c
  generalize hp : (s.cpu c).pt = pt at hc
  have hheld : (∀ m j, pt ≠ .intr m j) → (s.cpu c).held τ c = pt.lock := Hart.held_sched pt hc
  cases pt with
  | scan j =>
    rw [hheld nofun] at hlocks
    simp only [Smp.scheduler, hp] at ht
    split at ht
    · split at ht
      · rename_i hj hfree
        cases ht
        exact h.goto hc (.check ⟨j, hj⟩) (s.setSlot ⟨j, hj⟩ fun x => { x with lock := some c }) rfl
          Smp.setSlot_lock rfl nofun
          (h.safe.lock_set (hheld nofun) (by simp [hfree]) (.inl ⟨rfl, rfl, rfl⟩)) nofun nofun
      · cases ht
    · cases ht
      exact h.goto hc (.scan 0) s rfl hsame rfl nofun hlocks nofun nofun
  | check p =>
    rw [hheld nofun] at hlocks
    simp only [Smp.scheduler, hp] at ht
    split at ht
    · cases ht
      exact h.choose hc ‹_›
    · cases ht
      exact h.goto hc (.unlock p) s rfl hsame rfl nofun hlocks nofun nofun
  | chosen p =>
    rw [hheld nofun] at hlocks
    simp only [Smp.scheduler, hp] at ht
    cases ht
    exact h.goto hc (.switch p 0) s rfl hsame rfl nofun hlocks (fun q hq => ⟨hq, nofun, nofun⟩)
      fun q hq => .inl hq
  | switch p k =>
    rw [hheld nofun] at hlocks
    simp only [Smp.scheduler, hp] at ht
    split at ht
    · cases ht
      exact h.goto hc (.switch p (k + 1)) s rfl hsame rfl nofun hlocks
        (fun q hq => ⟨hq, nofun, nofun⟩) fun q hq => .inl hq
    · cases ht
      exact h.enter hc
  | back p =>
    rw [hheld nofun] at hlocks
    simp only [Smp.scheduler, hp] at ht
    cases ht
    refine h.goto hc (.unlock p) s rfl hsame rfl nofun hlocks nofun fun q hq => .inr ?_
    cases hq
    exact ((h.safe.hart _).back hs hp).1
  | unlock p =>
    simp only [Smp.scheduler, hp] at ht
    split at ht
    · rename_i hl
      cases ht
      exact h.goto hc (.scan (p + 1)) (s.setSlot p fun x => { x with lock := none }) rfl
        Smp.setSlot_lock rfl nofun
        (h.safe.lock_set (hheld nofun) (fun c' hne => by simp [hl, Ne.symm hne])
          (.inr ⟨rfl, rfl, rfl⟩)) nofun nofun
    · cases ht
  | intr m j =>
    have hcur := Hart.cur_intr (c := c) hs hp
    obtain ⟨hidle, hruns⟩ := h.runs hcur
    cases m with
    | ret _ =>
      simp only [Smp.scheduler, hp] at ht
      cases ht
      have hout : τ (.inr c) = .out none := hruns _ _ hp
      rw [Hart.held_cur hcur, hout] at hlocks
      exact h.goto hc (.scan j) s rfl hsame rfl nofun hlocks nofun nofun
    | act a k =>
      obtain ⟨hn, hk⟩ := hruns _ _ hp
      simp only [Smp.scheduler, hp] at ht
      obtain ⟨⟨r, s₁⟩, hact, rfl⟩ := Option.map_eq_some_iff.mp ht
      obtain ⟨o, hd, hcpu, hloc, hsafe⟩ := h.safe.act hcur hn hact
      have hcur₁ : (s₁.cpu c).cur c = some (.inr c) := by rw [hcpu, hcur]
      obtain ⟨hloc', hintr⟩ := hsafe.intr (c := c) (o := o) (by rw [hcpu, hs])
        (by rw [hcpu, hp]; rfl) (fun q => by rw [hsafe.lock_cur hcur₁, update_self])
        (fun q st hl hk =>
          (hsafe.hart c).known hcur₁ (by rwa [update_self]) (by rwa [update_self]))
        (.inr (by rw [update_self])) (k r) j
      rw [update_idem] at hintr hloc'
      refine ⟨⟨_, h.hart hintr (hloc.toOthers.trans hloc'.toOthers) fun x hx => ?_⟩, hloc.state⟩
      obtain rfl : .inr c = x := by simpa [Hart.cur, hcpu, hs] using hx
      unfold Runs
      simp only [update_self, Smp.setCpu_self]
      refine ⟨hd.idle hn hidle, fun m' j' hm => ?_⟩
      cases hm
      exact hk () r () o hd

end Scheduler

/-! ## Runs -/

section Run

variable [DecidableEq κ] [Fintype κ] [NeZero N] {s s' : Smp N M κ} {τ : Who N M → Hold N}
  {c : Fin M} {p : Fin N} {l : SmpLabel N M κ}

omit [NeZero N] in
theorem Smp.lock_of_noff (h : s.noff c = 0) (q : Fin N) : (s.slot q).lock ≠ some c := by
  have h0 := (Nat.add_eq_zero_iff.mp h).1
  rw [Finset.card_eq_zero] at h0
  exact Finset.filter_eq_empty_iff.mp h0 (Finset.mem_univ q)

omit [NeZero N] in
/-- An interrupt, which comes when no lock is held. -/
theorem Good.interrupt (h : Good s τ) {m : KProg N κ Unit}
    (hproc : ∀ p b, (s.cpu c).proc = some p →
      Holds (rules κ (some p)) m (fun _ o => o = .out b) (.out b))
    (hnone : (s.cpu c).proc = none → Holds (rules κ none) m (fun _ o => o = .out none) (.out none))
    (ht : s.interrupt c m = some s') : Steps s s' c := by
  obtain ⟨hoff, ht⟩ := Option.ite_none_right_eq_some.mp ht
  have hfree := Smp.lock_of_noff hoff
  split at ht
  · rename_i p hs
    cases ht
    have hcur := Hart.cur_stack (c := c) hs
    obtain ⟨hidle, hruns⟩ := h.runs hcur
    have hl : (τ (.inl p)).lock = none := by
      by_contra hne
      obtain ⟨q, hq⟩ := Option.ne_none_iff_exists'.mp hne
      exact hfree q ((h.safe.lock_cur hcur).mpr hq)
    have hout : τ (.inl p) = .out (τ (.inl p)).build := Hold.ext hl (hidle hl) rfl
    obtain ⟨hloc, hsafe⟩ := h.safe.setThread hs
      (f := fun x => { x with code := do m; x.code }) rfl rfl
    refine ⟨⟨τ, h.hart hsafe hloc.toOthers fun x hx => ?_⟩, hloc.state⟩
    obtain rfl : .inl p = x := Option.some.inj (hcur.symm.trans hx)
    refine ⟨hidle, ?_⟩
    simp only [Smp.setSlot_self, holds_bind]
    rw [hout]
    refine (hproc p _ (h.safe.proc_stack hs)).mono ?_
    rintro - o rfl
    rwa [← hout]
  · rename_i hs
    split at ht
    · rename_i j hp
      cases ht
      have hpn : (s.cpu c).proc = none := by rw [(h.safe.hart _).proc, hs, hp]; rfl
      obtain ⟨hloc, hintr⟩ := h.safe.intr (o := .out none) hs (by rw [hp]; rfl)
        (fun q => ⟨fun hq => absurd hq (hfree q), by rintro ⟨⟩⟩) (by simp) (.inl rfl) m j
      refine ⟨⟨_, h.hart hintr hloc.toOthers fun x hx => ?_⟩, hloc.state⟩
      obtain rfl : .inr c = x := by simpa [Hart.cur, hs] using hx
      unfold Runs
      simp only [update_self, Smp.setCpu_self]
      refine ⟨fun _ => rfl, fun m' j' hm => ?_⟩
      cases hm
      exact hnone hpn
    · cases ht

theorem Good.step (h : Good s τ) (ht : s.step l = some s') : ∃ c, Steps s s' c := by
  cases l with
  | go c i =>
    simp only [Smp.step] at ht
    split at ht
    · exact ⟨c, h.thread ‹_› ht⟩
    · exact ⟨c, h.scheduler ‹_› ht⟩
  | timer c =>
    simp only [Smp.step] at ht
    split at ht
    · cases ht
    · exact ⟨c, h.interrupt (fun p b _ => Kernel.yield_holds) (fun hn => absurd hn ‹_›) ht⟩
  | device c x =>
    exact ⟨c, h.interrupt (fun p b _ => Kernel.wakeup_holds) (fun _ => Kernel.wakeup_holds) ht⟩

omit [DecidableEq κ] [Fintype κ] in
theorem good_start : Good (Smp.start N M κ) fun _ => .out none where
  safe := by
    have hlock : ∀ q, ((Smp.start N M κ).slot q).lock = none := fun q => by
      simp only [Smp.start]
      split <;> rfl
    have hrun : ∀ q, ((Smp.start N M κ).slot q).state ≠ .running := fun q => by
      simp only [Smp.start]
      split <;> simp
    refine ⟨fun c => ⟨rfl, nofun, nofun, nofun, nofun, fun {q} => ?_, nofun, nofun, nofun⟩, nofun,
      fun {q} hq => absurd hq (hrun q), fun {q} _ hq => ?_, nofun, nofun, fun _ => rfl⟩
    · rw [hlock]
      exact ⟨nofun, nofun⟩
    · simp only [Ready, Smp.start] at hq ⊢
      split at hq
      · rename_i h0
        rw [if_pos h0]
        exact ⟨rfl, Kernel.forkret_holds⟩
      · simp at hq
  runs := nofun

theorem good_reach (h : Machine.Reach Smp.step (fun _ _ => True) (Smp.start N M κ) s) :
    ∃ τ, Good s τ :=
  h.invariant (I := fun s => ∃ τ, Good s τ) ⟨_, good_start⟩ fun _ _ _ ⟨_, h⟩ _ hs =>
    (h.step hs).choose_spec.1

omit [DecidableEq κ] [Fintype κ] [NeZero N] in
theorem Safe.claim_of_proc (h : Safe s τ) (hc : (s.cpu c).proc = some p) :
    (s.cpu c).claim = some p := by
  have hproc := (h.hart c).proc
  cases hs : (s.cpu c).stack with
  | none =>
    rw [hs, hc] at hproc
    exact (Hart.claim_none hs).trans (SchedPt.claim_of_proc hproc.symm)
  | some q =>
    rw [hs, hc] at hproc
    exact (Hart.claim_stack hs).trans hproc.symm

/-- When a zombie is freed it is on no processor. -/
theorem Good.left (h : Good s τ) (ht : s.step l = some s') (hz : (s.slot p).state = .zombie)
    (hz' : (s'.slot p).state ≠ .zombie) (c : Fin M) : (s.cpu c).proc ≠ some p := by
  intro hc
  have hclaim := h.safe.claim_of_proc hc
  obtain ⟨c', -, hch⟩ := h.step ht
  obtain ⟨hlock, hiff⟩ := (hch p).resolve_left fun hsame => hz' (hsame.trans hz)
  -- the processor at `p` has its lock, and does not change the state of a zombie
  have hc' := h.safe.lock_claim hclaim (.inr (by simp [hz]))
  obtain rfl := Option.some.inj (hc'.symm.trans hlock)
  exact nomatch hz.symm.trans (hiff.mpr hclaim)

/-- In any run on any number of processors : two of them never have the same process ; a process
whose lock is free is `RUNNING` if and only if exactly one processor has it ; if it is `RUNNABLE`
or `SLEEPING` then its context is complete, and no processor is on its stack ; and a zombie that
is freed has left its processor. -/
theorem one_cpu (h : Machine.Reach Smp.step (fun _ _ => True) (Smp.start N M κ) s) :
    (∀ c c' p, (s.cpu c).proc = some p → (s.cpu c').proc = some p → c = c') ∧
    (∀ p, (s.slot p).lock = none →
      ((s.slot p).state = .running ↔ ∃! c, (s.cpu c).proc = some p)) ∧
    (∀ p, (s.slot p).lock = none → (s.slot p).state = .runnable ∨ (s.slot p).state = .sleeping →
      (s.slot p).ctx = NREG ∧ ∀ c, (s.cpu c).stack ≠ some p) ∧
    ∀ l s' p, s.step l = some s' → (s.slot p).state = .zombie → (s'.slot p).state ≠ .zombie →
      ∀ c, (s.cpu c).proc ≠ some p ∧ (s.cpu c).stack ≠ some p := by
  obtain ⟨τ, hg⟩ := good_reach h
  have hs := hg.safe
  have huniq : ∀ c c' p, (s.cpu c).proc = some p → (s.cpu c').proc = some p → c = c' := by
    intro c c' p hc hc'
    exact hs.uniq (hs.claim_of_proc hc) (hs.claim_of_proc hc')
  refine ⟨huniq, fun p hl => ⟨fun hr => ?_, ?_⟩, fun p hl hst => ?_, fun l s' p ht hz hz' c => ?_⟩
  · obtain ⟨c, hc⟩ := hs.claimed hr
    have hproc : (s.cpu c).proc = some p := by
      cases hstack : (s.cpu c).stack with
      | none =>
        -- the scheduler would hold the lock
        rw [Hart.claim_none hstack] at hc
        simp [hs.lock_sched hstack (SchedPt.lock_of_claim hc).1] at hl
      | some q =>
        rw [hs.proc_stack hstack]
        exact (Hart.claim_stack hstack).symm.trans hc
    exact ⟨c, hproc, fun c' hc' => huniq c' c p hc' hproc⟩
  · rintro ⟨c, hc, -⟩
    by_contra hne
    simp [hs.lock_claim (hs.claim_of_proc hc) (.inr hne)] at hl
  · have hne : (s.slot p).state ≠ .running := by
      rcases hst with hst | hst <;> simp [hst]
    have hstack : ∀ c, (s.cpu c).stack ≠ some p := fun c hc => by
      simp [hs.lock_claim (Hart.claim_stack hc) (.inr hne)] at hl
    exact ⟨(hs.contexts.ready hstack (hst.imp id .inl)).1, hstack⟩
  · have hleft := hg.left ht hz hz' c
    exact ⟨hleft, fun hc => hleft (hs.proc_stack hc)⟩

/-- The first process, after its first switch. -/
theorem one_cpu_first : ∃ s : Smp 2 2 Unit,
    Machine.Reach Smp.step (fun _ _ => True) (Smp.start 2 2 Unit) s ∧
      (s.slot 0).lock = none ∧ (s.slot 0).state = .running ∧ ∃! c, (s.cpu c).proc = some 0 := by
  obtain ⟨s, hr, hs⟩ := Machine.exists_reach_of_exec Smp.step (fun _ _ => True)
    (fun s : Smp 2 2 Unit => decide ((s.slot 0).lock = none ∧ (s.slot 0).state = .running))
    (l := List.replicate 20 (.go 1 ⟨.yield, true⟩)) (s := Smp.start 2 2 Unit) (by decide +kernel)
  obtain ⟨hl, hst⟩ := of_decide_eq_true hs
  exact ⟨s, hr, hl, hst, ((one_cpu hr).2.1 0 hl).mp hst⟩

/-- In every run, the processes whose state a step changes have their locks held by one
processor, which is the one that has the process if and only if it is `RUNNING`. -/
theorem state_locked (h : Machine.Reach Smp.step (fun _ _ => True) (Smp.start N M κ) s)
    {l : SmpLabel N M κ} (ht : s.step l = some s') :
    ∃ c, ∀ p, (s'.slot p).state ≠ (s.slot p).state → (s.slot p).lock = some c ∧
      ∀ c', (s.cpu c').proc = some p → (c' = c ↔ (s.slot p).state = .running) := by
  obtain ⟨τ, hg⟩ := good_reach h
  obtain ⟨c, -, hch⟩ := hg.step ht
  refine ⟨c, fun p hne => ?_⟩
  obtain ⟨hlock, hiff⟩ := (hch p).resolve_left hne
  refine ⟨hlock, fun c' hc' => ?_⟩
  have hclaim := hg.safe.claim_of_proc hc'
  rw [hiff]
  refine ⟨?_, hg.safe.uniq hclaim⟩
  rintro rfl
  exact hclaim

/-- The scheduler makes the first process `RUNNING`. -/
theorem state_locked_first : ∃ s s' : Smp 2 2 Unit,
    Machine.Reach Smp.step (fun _ _ => True) (Smp.start 2 2 Unit) s ∧
      s.step (.go 1 ⟨.yield, true⟩) = some s' ∧ (s'.slot 0).state ≠ (s.slot 0).state ∧
      ∃ c, (s.slot 0).lock = some c := by
  have hr : Machine.Reach Smp.step (fun _ _ => True) (Smp.start 2 2 Unit) _ :=
    Machine.reach_of_exec _ (l := [.go 1 ⟨.yield, true⟩]) rfl
  obtain ⟨c, hc⟩ := state_locked hr (l := .go 1 ⟨.yield, true⟩) rfl
  exact ⟨_, _, hr, rfl, by decide, c, (hc 0 (by decide)).1⟩

end Run

end Xv6
