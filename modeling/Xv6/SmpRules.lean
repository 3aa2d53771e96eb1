import Xv6.Smp

/-!
# The rules of `p->lock`

Who may change `p->state` ? The process itself, from `RUNNING` and with its lock held, and then
it must leave its stack before the lock is free again. Others change it with the lock held, from
`SLEEPING` to `RUNNABLE` and from `ZOMBIE` to `UNUSED` ; and one who allocated the slot builds it
up to `RUNNABLE`, also between two times of holding the lock.

`rules` states this as a `Discipline` for the code of a process, or for that of an interrupt on
a processor without a process. A `Hold` is what the code may rely on. The functions of `proc.c`
keep the rules.
-/

namespace Xv6

open Function Ctl

variable {N : ℕ} {κ : Type}

/-- What a thread may rely on : the `p->lock` it holds, the state of that process if it has
looked, and the slot it builds, with whether the context is set up. -/
@[ext] structure Hold (N : ℕ) where
  lock : Option (Fin N)
  known : Option ProcState
  build : Option (Fin N × Bool)

namespace Hold

/-- No `p->lock` is held. -/
def out (b : Option (Fin N × Bool)) : Hold N := ⟨none, none, b⟩

variable (t : Option (Fin N)) (o : Hold N) (p : Fin N)

def Builds : Prop := o.build.map Prod.fst = some p

instance : Decidable (o.Builds p) := inferInstanceAs (Decidable (_ = _))

/-- With the lock of `p` taken, by `t`. -/
def acquired : Hold N := { o with
  lock := some p
  known := if t = some p then some .running else if o.Builds p then some .used else none }

/-- With the state of `p` set, by `t`. -/
def changed (st : ProcState) : Hold N := { o with
  known := some st
  build := if t = some p then o.build else if st = .used then some (p, false)
    else if o.Builds p then none else o.build }

end Hold

/-- The changes to the state of another process. -/
inductive Moves (o : Hold N) (p : Fin N) : ProcState → Prop
  | alloc (hk : o.known = some .unused) (hb : o.build = none) : Moves o p .used
  | start (hb : o.build = some (p, true)) : Moves o p .runnable
  | drop (hb : o.Builds p) : Moves o p .unused
  | wake (hk : o.known = some .sleeping) : Moves o p .runnable
  | reap (hk : o.known = some .zombie) : Moves o p .unused

/-- The changes of a process to its own state. -/
def Leaves (o : Hold N) (st : ProcState) : Prop :=
  o.known = some .running ∧ (st = .runnable ∨ st = .sleeping ∨ st = .zombie ∧ o.build = none)

/-- What `t` has to hold for an action. -/
def KAct.Needs (t : Option (Fin N)) : KAct N κ → Hold N → Prop
  | .acquire _, o => o.lock = none
  | .release p, o => o.lock = some p ∧ (t = some p → o.known = some .running)
  | .holding p, o => o.lock = some p
  | .state p, o => o.lock = some p
  | .setState p st, o => o.lock = some p ∧ if t = some p then Leaves o st else Moves o p st
  | .context p, o => o.lock = some p ∧ t ≠ some p ∧ o.Builds p
  | .swtch, o => ∃ p, t = some p ∧ o.lock = some p ∧ ∃ st, o.known = some st ∧ st ≠ .running
  | _, _ => True

/-- What an action answers, and what `t` holds afterwards. -/
def KAct.Does (t : Option (Fin N)) : (a : KAct N κ) → Hold N → a.Ans → Hold N → Prop
  | .acquire p, o, _, o' => o' = o.acquired t p
  | .release _, o, _, o' => o' = .out o.build
  | .holding _, o, r, o' => r = true ∧ o' = o
  | .state _, o, r, o' => (∀ st, o.known = some st → r = st) ∧ o' = { o with known := some r }
  | .setState p st, o, _, o' => o' = o.changed t p st
  | .context p, o, _, o' => o' = { o with build := some (p, true) }
  | .myproc, o, r, o' => r = t ∧ o' = o
  -- the scheduler has made the process run
  | .swtch, o, _, o' => o.known ≠ some .zombie ∧ o' = { o with known := some .running }
  | _, o, _, o' => o' = o

def rules (κ : Type) (t : Option (Fin N)) : Discipline (KAct N κ) KAct.Ans Unit (Hold N) where
  needs := KAct.Needs t
  does a _ o r _ o' := a.Does t o r o'

/-! ## The rules for each action -/

section Actions

variable {t : Option (Fin N)} {o : Hold N} {p : Fin N}

variable {Q : Unit → Hold N → Prop}

@[simp] theorem holds_acquire :
    Holds (rules κ t) (Kernel.acquire p) Q o ↔ o.lock = none ∧ Q () (o.acquired t p) :=
  and_congr_right fun _ => ⟨fun h => h () () () _ rfl, fun h _ _ _ _ hd => hd ▸ h⟩

@[simp] theorem holds_release : Holds (rules κ t) (Kernel.release p) Q o ↔
      (o.lock = some p ∧ (t = some p → o.known = some .running)) ∧ Q () (.out o.build) :=
  and_congr_right fun _ => ⟨fun h => h () () () _ rfl, fun h _ _ _ _ hd => hd ▸ h⟩

@[simp] theorem holds_lock {k : Spin κ} : Holds (rules κ t) (Kernel.lock k) Q o ↔ Q () o :=
  ⟨fun h => h.2 () () () _ rfl, fun h => ⟨trivial, fun _ _ _ _ hd => hd ▸ h⟩⟩

@[simp] theorem holds_unlock {k : Spin κ} : Holds (rules κ t) (Kernel.unlock k) Q o ↔ Q () o :=
  ⟨fun h => h.2 () () () _ rfl, fun h => ⟨trivial, fun _ _ _ _ hd => hd ▸ h⟩⟩

@[simp] theorem holds_state {Q : ProcState → Hold N → Prop} :
    Holds (rules κ t) (Kernel.state p) Q o ↔ o.lock = some p ∧
      ∀ st, (∀ st', o.known = some st' → st = st') → Q st { o with known := some st } :=
  and_congr_right fun _ => ⟨fun h st hst => h () st () _ ⟨hst, rfl⟩,
    fun h _ r _ _ hd => hd.2 ▸ h r hd.1⟩

@[simp] theorem holds_setState {st : ProcState} : Holds (rules κ t) (Kernel.setState p st) Q o ↔
      (o.lock = some p ∧ if t = some p then Leaves o st else Moves o p st) ∧
        Q () (o.changed t p st) :=
  and_congr_right fun _ => ⟨fun h => h () () () _ rfl, fun h _ _ _ _ hd => hd ▸ h⟩

@[simp] theorem holds_get {Q : Pcb N → Hold N → Prop} :
    Holds (rules κ t) (Kernel.get p) Q o ↔ ∀ y, Q y o :=
  ⟨fun h y => h.2 () y () _ rfl, fun h => ⟨trivial, fun _ r _ _ hd => hd ▸ h r⟩⟩

@[simp] theorem holds_put {f : Pcb N → Pcb N} : Holds (rules κ t) (Kernel.put p f) Q o ↔ Q () o :=
  ⟨fun h => h.2 () () () _ rfl, fun h => ⟨trivial, fun _ _ _ _ hd => hd ▸ h⟩⟩

@[simp] theorem holds_input {Q : Bool → Hold N → Prop} :
    Holds (rules κ t) Kernel.input Q o ↔ ∀ r, Q r o :=
  ⟨fun h r => h.2 () r () _ rfl, fun h => ⟨trivial, fun _ r _ _ hd => hd ▸ h r⟩⟩

@[simp] theorem holds_nextpid {Q : CInt → Hold N → Prop} :
    Holds (rules κ t) Kernel.nextpid Q o ↔ ∀ r, Q r o :=
  ⟨fun h r => h.2 () r () _ rfl, fun h => ⟨trivial, fun _ r _ _ hd => hd ▸ h r⟩⟩

@[simp] theorem holds_noff {Q : ℕ → Hold N → Prop} :
    Holds (rules κ t) Kernel.noff Q o ↔ ∀ r, Q r o :=
  ⟨fun h r => h.2 () r () _ rfl, fun h => ⟨trivial, fun _ r _ _ hd => hd ▸ h r⟩⟩

@[simp] theorem holds_holding {Q : Bool → Hold N → Prop} :
    Holds (rules κ t) (Kernel.holding p) Q o ↔ o.lock = some p ∧ Q true o :=
  and_congr_right fun _ => ⟨fun h => h () true () _ ⟨rfl, rfl⟩,
    fun h _ _ _ _ hd => by obtain ⟨rfl, rfl⟩ := hd; exact h⟩

@[simp] theorem holds_setContext : Holds (rules κ t) (Kernel.setContext p) Q o ↔
      (o.lock = some p ∧ t ≠ some p ∧ o.Builds p) ∧ Q () { o with build := some (p, true) } :=
  and_congr_right fun _ => ⟨fun h => h () () () _ rfl, fun h _ _ _ _ hd => hd ▸ h⟩

@[simp] theorem holds_panic {α : Type} {Q : α → Hold N → Prop} :
    Holds (rules κ t) Kernel.panic Q o :=
  ⟨trivial, fun _ r => r.elim⟩

@[simp] theorem holds_cproc {Q : Option (Fin N) → Hold N → Prop} :
    Holds (rules κ t) Kernel.cproc Q o ↔ Q t o :=
  ⟨fun h => h.2 () t () _ ⟨rfl, rfl⟩, fun h => ⟨trivial, fun _ _ _ _ hd => by
    obtain ⟨rfl, rfl⟩ := hd
    exact h⟩⟩

@[simp] theorem holds_myproc {Q : Fin N → Hold N → Prop} :
    Holds (rules κ (some p)) Kernel.myproc Q o ↔ Q p o := by
  simp [Kernel.myproc]

/-- The loop over the table, if each round keeps what is held. -/
theorem holds_forProc {β : Type} {body : Fin N → KProg N κ (Option β)} {R : β → Hold N → Prop}
    (h : ∀ p, Holds (rules κ t) (body p) (fun r o' => match r with
      | none => o' = o
      | some b => R b o') o) (l : List (Fin N)) :
    Holds (rules κ t) (Kernel.forProc body l) (fun r o' => match r with
      | none => o' = o
      | some b => R b o') o := by
  induction l with
  | nil => rfl
  | cons p l ih =>
    simp only [Kernel.forProc, holds_bind]
    refine (h p).mono ?_
    rintro (_ | b) o' ho
    · obtain rfl : o' = o := ho
      exact ih
    · exact ho

end Actions

/-! ## The functions -/

namespace Kernel

variable {p : Fin N} {b : Option (Fin N × Bool)} {t : Option (Fin N)}

@[simp] theorem acquired_own : (Hold.out b).acquired (some p) p = ⟨some p, some .running, b⟩ := by
  simp [Hold.acquired, Hold.out]

variable {o : Hold N} {st : ProcState} {q : Fin N}

@[simp] theorem changed_own : o.changed (some p) p st = { o with known := some st } := by
  simp [Hold.changed]

@[simp] theorem out_lock : (Hold.out b).lock = none := rfl
@[simp] theorem out_build : (Hold.out b).build = b := rfl

/-- `sched` returns when the process runs again. -/
theorem sched_holds (hst : st ≠ .running) {Q : Unit → Hold N → Prop}
    (hQ : st ≠ .zombie → Q () ⟨some p, some .running, b⟩) :
    Holds (rules κ (some p)) Kernel.sched Q ⟨some p, some st, b⟩ := by
  simp only [Kernel.sched, holds_bind, holds_myproc, holds_holding, if_true, holds_noff,
    true_and]
  intro r
  split
  · exact holds_panic
  · simp only [holds_bind, holds_state, true_and]
    intro st' hst'
    obtain rfl := hst' st rfl
    rw [if_neg hst]
    refine ⟨⟨p, rfl, rfl, st', rfl, hst⟩, ?_⟩
    rintro - - - o' ⟨hz, rfl⟩
    exact hQ fun h => hz (congrArg some h)

theorem yield_holds : Holds (rules κ (some p)) Kernel.yield (fun _ o => o = .out b) (.out b) := by
  simp only [Kernel.yield, holds_bind, holds_myproc, holds_acquire, acquired_own, holds_setState,
    if_true, changed_own, out_lock, true_and]
  refine ⟨⟨rfl, .inl rfl⟩, sched_holds (by decide) fun _ => ?_⟩
  simp

theorem sleep_holds {x : Chan N} {lk : Spin κ} :
    Holds (rules κ (some p)) (Kernel.sleep x lk) (fun _ o => o = .out b) (.out b) := by
  simp only [Kernel.sleep, holds_bind, holds_myproc, holds_acquire, acquired_own, holds_unlock,
    holds_put, holds_setState, if_true, changed_own, out_lock, true_and]
  refine ⟨⟨rfl, .inr (.inl rfl)⟩, sched_holds (by decide) fun _ => ?_⟩
  simp

/-- What the holder of a lock has read of the state. -/
theorem known_acquired (h : ∀ st', ((Hold.out b).acquired t q).known = some st' → st = st') :
    (t = some q → st = .running) ∧ (t ≠ some q → (Hold.out b).Builds q → st = .used) := by
  refine ⟨fun ht => h _ ?_, fun ht hb => h _ ?_⟩
  · simp [Hold.acquired, ht]
  · simp [Hold.acquired, ht, hb]

@[simp] theorem acquired_lock : (o.acquired t q).lock = some q := rfl
@[simp] theorem acquired_build : (o.acquired t q).build = o.build := rfl

/-- Waking a process, by another one. -/
theorem wake_holds (ht : t ≠ some q) (hb : ¬ (Hold.out b).Builds q) :
    Holds (rules κ t) (Kernel.setState q .runnable)
      (fun _ o' => o' = ⟨some q, some .runnable, b⟩) ⟨some q, some .sleeping, b⟩ := by
  have hb' : ¬ Hold.Builds ⟨some q, some .sleeping, b⟩ q := hb
  simp only [holds_setState, if_neg ht, true_and]
  exact ⟨.wake rfl, by simp [Hold.changed, ht, hb']⟩

theorem wakeup_holds {x : Option (Chan N)} :
    Holds (rules κ t) (Kernel.wakeup x) (fun _ o => o = .out b) (.out b) := by
  simp only [Kernel.wakeup, holds_bind]
  refine (holds_forProc (R := fun _ o => o = .out b) (fun q => ?_) _).mono ?_
  · simp only [holds_bind, holds_cproc, holds_ite, holds_pure]
    split
    · trivial
    rename_i hq
    simp only [holds_bind, holds_acquire, holds_state, out_lock, acquired_lock, true_and]
    intro st hst
    have hrel : ∀ k, Holds (rules κ t) (Kernel.release q) (fun _ o' => o' = .out b)
        ⟨some q, k, b⟩ := fun k => by simp [hq]
    split
    · rename_i hs
      subst hs
      have hb : ¬ (Hold.out b).Builds q := fun hb => by cases (known_acquired hst).2 hq hb
      simp only [holds_bind, holds_get, holds_ite]
      intro y
      split
      · refine (wake_holds hq hb).mono ?_
        rintro _ o' rfl
        exact (hrel _).mono fun _ _ ho => ho
      · exact (hrel _).mono fun _ _ ho => ho
    · exact (hrel _).mono fun _ _ ho => ho
  · rintro (_ | u) o ho <;> exact ho

theorem kill_holds {pid : CInt} :
    Holds (rules κ t) (Kernel.kill pid) (fun _ o => o = .out b) (.out b) := by
  simp only [Kernel.kill, holds_bind]
  refine (holds_forProc (R := fun _ o => o = .out b) (fun q => ?_) _).mono ?_
  · simp only [holds_bind, holds_acquire, holds_get, holds_ite, out_lock, true_and]
    intro y
    split
    · simp only [holds_bind, holds_put, holds_state, holds_ite, acquired_lock, true_and]
      intro st hst
      split
      · rename_i hs
        subst hs
        have ht : t ≠ some q := fun ht => by cases (known_acquired hst).1 ht
        have hb : ¬ (Hold.out b).Builds q := fun hb => by cases (known_acquired hst).2 ht hb
        exact (wake_holds ht hb).mono fun _ o' ho => by simp [ho, ht]
      · simp
        exact (known_acquired hst).1
    · simp +contextual [Hold.acquired]
  · rintro (_ | u) o ho <;> exact ho

theorem killed_holds :
    Holds (rules κ (some p)) (Kernel.killed p) (fun _ o => o = .out b) (.out b) := by
  simp [Kernel.killed]

/-- A slot is freed by the one who built it, -/
theorem freeproc_holds_drop {c : Bool} (ht : t ≠ some q) :
    Holds (rules κ t) (Kernel.freeproc q) (fun _ o => o = ⟨some q, some .unused, none⟩)
      ⟨some q, some .used, some (q, c)⟩ := by
  have hb : Hold.Builds ⟨some q, some .used, some (q, c)⟩ q := rfl
  simp only [Kernel.freeproc, holds_bind, holds_put, holds_setState, if_neg ht, true_and]
  exact ⟨.drop hb, by simp [Hold.changed, ht, hb]⟩

/-- or after the process has exited. -/
theorem freeproc_holds_reap (ht : t ≠ some q) :
    Holds (rules κ t) (Kernel.freeproc q) (fun _ o => o = ⟨some q, some .unused, none⟩)
      ⟨some q, some .zombie, none⟩ := by
  simp only [Kernel.freeproc, holds_bind, holds_put, holds_setState, if_neg ht, true_and]
  exact ⟨.reap rfl, by simp [Hold.changed, ht]⟩

/-- `allocproc` returns with the lock held of the slot it found, and the context set up. -/
theorem allocproc_holds : Holds (rules κ t) Kernel.allocproc (fun r o => match r with
      | none => o = .out none
      | some q => t ≠ some q ∧ o = ⟨some q, some .used, some (q, true)⟩) (.out none) := by
  simp only [Kernel.allocproc, holds_bind]
  refine (holds_forProc (R := fun q o => t ≠ some q ∧ o = ⟨some q, some .unused, none⟩)
    (fun q => ?_) _).mono ?_
  · simp only [holds_bind, holds_acquire, holds_state, holds_ite, out_lock, acquired_lock, true_and]
    intro st hst
    split
    · rename_i hs
      subst hs
      have ht : t ≠ some q := fun ht => by cases (known_acquired hst).1 ht
      exact ⟨ht, rfl⟩
    · simp
      exact (known_acquired hst).1
  · rintro (_ | q) o ho
    · exact ho
    obtain ⟨ht, rfl⟩ := ho
    have hfree : Holds (rules κ t) (do Kernel.freeproc q; Kernel.release q; pure none)
        (fun r o => match r with
          | none => o = .out none
          | some q' => t ≠ some q' ∧ o = ⟨some q', some .used, some (q', true)⟩)
        ⟨some q, some .used, some (q, false)⟩ := by
      simp only [holds_bind]
      refine (freeproc_holds_drop ht).mono ?_
      rintro - o rfl
      simp [ht]
    have hchanged : Hold.changed t ⟨some q, some .unused, none⟩ q .used =
        ⟨some q, some .used, some (q, false)⟩ := by simp [Hold.changed, ht]
    simp only [holds_bind, holds_lock, holds_nextpid, holds_unlock, holds_put, holds_setState,
      if_neg ht, hchanged, holds_input, holds_ite, true_and]
    refine fun _ => ⟨.alloc rfl rfl, fun ok => ?_⟩
    split
    · exact hfree
    · intro ok'
      split
      · exact hfree
      · simp [Hold.Builds, ht]

theorem fork_holds :
    Holds (rules κ (some p)) Kernel.fork (fun _ o => o = .out none) (.out none) := by
  simp only [Kernel.fork, holds_bind, holds_myproc]
  refine allocproc_holds.mono ?_
  rintro (_ | q) o ho
  · exact ho
  obtain ⟨ht, rfl⟩ := ho
  simp only [holds_bind, holds_input, holds_ite]
  intro ok
  split
  · refine (freeproc_holds_drop ht).mono ?_
    rintro - o rfl
    simp [ht]
  · have hacq : (Hold.out (some (q, true))).acquired (some p) q =
        ⟨some q, some .used, some (q, true)⟩ := by
      simp [Hold.acquired, Hold.Builds, Hold.out, ht]
    have hrun : Hold.changed (some p) ⟨some q, some .used, some (q, true)⟩ q .runnable =
        ⟨some q, some .runnable, none⟩ := by
      simp [Hold.changed, Hold.Builds, ht]
    simp only [holds_bind, holds_release, holds_lock, holds_put, holds_unlock, holds_acquire, hacq,
      holds_setState, if_neg ht, hrun, out_lock, true_and]
    exact ⟨fun h => absurd h ht, .start rfl, fun h => absurd h ht, trivial⟩

/-- Between calls a thread holds no `p->lock` and builds no slot. -/
def Between (_ : KNext) (o : Hold N) : Prop := o = .out none

theorem forkret_holds :
    Holds (rules κ (some p)) Kernel.forkret Between ⟨some p, some .running, none⟩ := by
  simp [Kernel.forkret, Between]

theorem waitScan_holds : ∀ (l : List (Fin N)) (havekids : Bool),
    Holds (rules κ (some p)) (Kernel.waitScan p l havekids) (fun _ o => o = .out none) (.out none)
  | [], _ => rfl
  | q :: l, havekids => by
    simp only [Kernel.waitScan, holds_bind, holds_get, holds_ite]
    intro y
    split
    · simp only [holds_bind, holds_acquire, holds_state, holds_ite, out_lock, acquired_lock,
        true_and]
      intro st hst
      split
      · rename_i hs
        subst hs
        have ht : some p ≠ some q := fun ht => by cases (known_acquired hst).1 ht
        simp only [holds_bind, holds_input, holds_ite]
        intro ok
        split
        · refine (freeproc_holds_reap ht).mono ?_
          rintro - o rfl
          simp [ht]
        · simp [ht]
      · simp only [holds_release, true_and]
        exact ⟨fun h => congrArg some ((known_acquired hst).1 h), waitScan_holds l true⟩
    · exact waitScan_holds l havekids

theorem waitLoop_holds :
    Holds (rules κ (some p)) Kernel.waitLoop Between (.out none) := by
  simp only [Kernel.waitLoop, holds_bind, holds_myproc]
  refine (waitScan_holds _ _).mono ?_
  rintro (_ | havekids) o rfl
  · rfl
  simp only [holds_ite, holds_bind, holds_unlock]
  split
  · rfl
  · refine killed_holds.mono ?_
    rintro k o rfl
    simp only [holds_ite, holds_bind, holds_unlock]
    split
    · rfl
    · refine sleep_holds.mono ?_
      rintro - o rfl
      rfl

variable [NeZero N]

theorem reparent_holds :
    Holds (rules κ t) (Kernel.reparent q) (fun _ o => o = .out b) (.out b) := by
  simp only [Kernel.reparent, holds_bind]
  refine (holds_forProc (R := fun _ o => o = .out b) (fun q => ?_) _).mono ?_
  · simp only [holds_bind, holds_get, holds_ite]
    intro y
    split
    · simp only [holds_bind, holds_put]
      refine wakeup_holds.mono ?_
      rintro - o rfl
      rfl
    · rfl
  · rintro (_ | u) o ho <;> exact ho

/-- `exit` does not return. -/
theorem exit_holds {status : CInt} :
    Holds (rules κ (some p)) (Kernel.exit status) Between (.out none) := by
  simp only [Kernel.exit, holds_bind, holds_myproc, holds_ite]
  split
  · exact holds_panic
  simp only [holds_bind, holds_lock]
  refine reparent_holds.mono ?_
  rintro - o rfl
  simp only [holds_bind, holds_get]
  refine fun y => wakeup_holds.mono ?_
  rintro - o rfl
  simp only [holds_bind, holds_acquire, acquired_own, holds_put, holds_setState, if_true,
    changed_own, holds_unlock, out_lock, true_and]
  exact ⟨⟨rfl, .inr (.inr ⟨rfl, rfl⟩)⟩, sched_holds (by decide) fun h => absurd rfl h⟩

theorem body_holds (call : KCall N κ) :
    Holds (rules κ (some p)) call.body Between (.out none) := by
  cases call with
  | yield => exact holds_bind.mpr (yield_holds.mono fun _ _ ho => ho)
  | sleep x lk => exact holds_bind.mpr (sleep_holds.mono fun _ _ ho => ho)
  | wakeup x => exact holds_bind.mpr (wakeup_holds.mono fun _ _ ho => ho)
  | kill pid => exact holds_bind.mpr (kill_holds.mono fun _ _ ho => ho)
  | fork => exact holds_bind.mpr (fork_holds.mono fun _ _ ho => ho)
  | exit status => exact exit_holds
  | wait | lock | unlock => simp [KCall.body, Between]

/-- However a thread goes on, it keeps the rules. -/
theorem go_holds (n : KNext) (call : KCall N κ) :
    Holds (rules κ (some p)) (n.go call) Between (.out none) := by
  cases n with
  | code => exact body_holds call
  | waitLoop => exact waitLoop_holds

end Kernel

end Xv6
