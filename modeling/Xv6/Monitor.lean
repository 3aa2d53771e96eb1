import Mathlib.Data.Fin.Basic
import Mathlib.Logic.Function.Basic
import Xv6.Machine

/-!
# Threads over one spin lock, with sleep and wakeup

`N` threads run one program each over a shared state `S` that a spin lock protects. A
program is a map `code` from program points to instructions; a point carries the
thread's local variables. `sleep` gives up the lock and goes to sleep on a channel, in
two steps : the lock is released while the thread still holds its own process lock
(`dozing`), and only then is it `asleep`. `wakeup` visits the threads one by one, and has
to wait at one that is dozing, since it needs that thread's process lock. A `kill` can
come between any two steps and rouses a sleeper.

An `Outline` gives a program an invariant `inv` of the shared state for the moments
when the lock is free, and an assertion `asrt p` for each point reached with the lock
held. If the outline is `Sound`, instruction by instruction, it holds in every state
of every run (`Outline.Sound.ok`), and the lock excludes (`Ok.lock_iff`).

A `Wake` adds, for each channel, the condition `idle c` under which a thread may rest on
`c`, and the points that still owe a wakeup on `c`. In a run that never gives up the lock
at a point owing a wakeup to a sleeper (`Wake.Clean`), no thread is asleep on `c` while the
lock is free and `idle c` fails (`Wake.Sound.no_lost_wakeup`).
-/

namespace Monitor

open Function

/-- What a thread does at a program point, and where it continues. -/
inductive Instr (C S P I : Type*) where
  | acquire (k : P)
  | release (k : P)
  | sleep (c : C) (k : P)
  | wakeup (c : C) (k : P)
  | killed (k : Bool → P)
  | act (f : I → S → Option (S × P))

/-- A test of the shared state. -/
abbrev Instr.branch {C S P I : Type*} (k : S → P) : Instr C S P I :=
  .act fun _ s => some (s, k s)

/-- What a thread is doing at its program point. -/
inductive Mode (C : Type*) where
  | running
  | waking (c : C) (j : ℕ)
  | dozing (c : C)
  | asleep (c : C)
  | roused
  deriving DecidableEq

structure Thread (C P : Type*) where
  pc : P
  mode : Mode C
  killed : Bool

structure State (N : ℕ) (C S P : Type*) where
  shared : S
  lock : Option (Fin N)
  thread : Fin N → Thread C P

inductive Label (N : ℕ) (I : Type*) where
  | run (t : Fin N) (i : I)
  | kill (t : Fin N)

variable {N : ℕ} {C S P I : Type*}

namespace State

/-- Thread `t` continues at `k`. -/
def goto (s : State N C S P) (t : Fin N) (k : P) : State N C S P :=
  { s with thread := update s.thread t { s.thread t with pc := k, mode := .running } }

def setMode (s : State N C S P) (t : Fin N) (m : Mode C) : State N C S P :=
  { s with thread := update s.thread t { s.thread t with mode := m } }

section Fields

variable (s : State N C S P) (t : Fin N) (k : P) (m : Mode C)

@[simp] theorem goto_shared : (s.goto t k).shared = s.shared := rfl

@[simp] theorem goto_lock : (s.goto t k).lock = s.lock := rfl

@[simp] theorem goto_thread_self :
    (s.goto t k).thread t = { s.thread t with pc := k, mode := .running } :=
  update_self ..

@[simp] theorem goto_thread_of_ne {t u : Fin N} (h : u ≠ t) : (s.goto t k).thread u = s.thread u :=
  update_of_ne h ..

@[simp] theorem setMode_shared : (s.setMode t m).shared = s.shared := rfl

@[simp] theorem setMode_lock : (s.setMode t m).lock = s.lock := rfl

@[simp] theorem setMode_thread_self : (s.setMode t m).thread t = { s.thread t with mode := m } :=
  update_self ..

@[simp] theorem setMode_thread_of_ne {t u : Fin N} (h : u ≠ t) :
    (s.setMode t m).thread u = s.thread u :=
  update_of_ne h ..

end Fields

/-- Thread `t` rests on `c` : it is asleep, or has let go of the lock to fall asleep. -/
def Resting (s : State N C S P) (t : Fin N) (c : C) : Prop :=
  (s.thread t).mode = .dozing c ∨ (s.thread t).mode = .asleep c

instance [DecidableEq C] (s : State N C S P) (t : Fin N) (c : C) : Decidable (s.Resting t c) :=
  inferInstanceAs (Decidable (_ ∨ _))

end State

/-- One step of thread `t`, with the input `i`. -/
def runStep [DecidableEq C] (code : P → Instr C S P I) (s : State N C S P) (t : Fin N) (i : I) :
    Option (State N C S P) :=
  match (s.thread t).mode with
  | .running =>
    match code (s.thread t).pc with
    | .acquire k => if s.lock = none then some { s.goto t k with lock := some t } else none
    | .release k => if s.lock = some t then some { s.goto t k with lock := none } else none
    | .sleep c _ =>
      if s.lock = some t then some { s.setMode t (.dozing c) with lock := none } else none
    | .wakeup c _ => some (s.setMode t (.waking c 0))
    | .killed k => some (s.goto t (k (s.thread t).killed))
    | .act f => (f i s.shared).map fun r => { s.goto t r.2 with shared := r.1 }
  | .waking c j =>
    if h : j < N then
      if (⟨j, h⟩ : Fin N) = t then some (s.setMode t (.waking c (j + 1)))
      else
        match (s.thread ⟨j, h⟩).mode with
        | .dozing _ => none
        | .asleep c' =>
          some ((if c' = c then s.setMode ⟨j, h⟩ .roused else s).setMode t (.waking c (j + 1)))
        | _ => some (s.setMode t (.waking c (j + 1)))
    else
      match code (s.thread t).pc with
      | .wakeup _ k => some (s.goto t k)
      | _ => none
  | .dozing c => some (s.setMode t (.asleep c))
  | .asleep _ => none
  | .roused =>
    match code (s.thread t).pc with
    | .sleep _ k => if s.lock = none then some { s.goto t k with lock := some t } else none
    | _ => none

/-- `kill` needs the victim's process lock, so it waits for a dozing victim. -/
def killStep (s : State N C S P) (t : Fin N) : Option (State N C S P) :=
  match (s.thread t).mode with
  | .dozing _ => none
  | .asleep _ =>
    some { s with thread := update s.thread t { s.thread t with killed := true, mode := .roused } }
  | _ => some { s with thread := update s.thread t { s.thread t with killed := true } }

def step [DecidableEq C] (code : P → Instr C S P I) (s : State N C S P) :
    Label N I → Option (State N C S P)
  | .run t i => runStep code s t i
  | .kill t => killStep s t

/-- Every thread at its point of `p`, none of them killed, and the lock free. -/
def State.startAt (C : Type*) (sh : S) (p : Fin N → P) : State N C S P where
  shared := sh
  lock := none
  thread t := { pc := p t, mode := .running, killed := false }

/-- Every thread at `p`, none of them killed, and the lock free. -/
def State.start (N : ℕ) (C : Type*) (sh : S) (p : P) : State N C S P where
  shared := sh
  lock := none
  thread _ := { pc := p, mode := .running, killed := false }

/-! ## What a step can do -/

/-- The moves of the machine, each with what enables it. -/
inductive Move (code : P → Instr C S P I) (s : State N C S P) : Label N I → State N C S P → Prop
  | acquire {t i k} (hm : (s.thread t).mode = .running) (hc : code (s.thread t).pc = .acquire k)
      (hl : s.lock = none) : Move code s (.run t i) { s.goto t k with lock := some t }
  | release {t i k} (hm : (s.thread t).mode = .running) (hc : code (s.thread t).pc = .release k)
      (hl : s.lock = some t) : Move code s (.run t i) { s.goto t k with lock := none }
  | sleep {t i c k} (hm : (s.thread t).mode = .running) (hc : code (s.thread t).pc = .sleep c k)
      (hl : s.lock = some t) : Move code s (.run t i) { s.setMode t (.dozing c) with lock := none }
  | wakeup {t i c k} (hm : (s.thread t).mode = .running)
      (hc : code (s.thread t).pc = .wakeup c k) : Move code s (.run t i) (s.setMode t (.waking c 0))
  | killed {t i k} (hm : (s.thread t).mode = .running) (hc : code (s.thread t).pc = .killed k) :
      Move code s (.run t i) (s.goto t (k (s.thread t).killed))
  | act {t i f sh k} (hm : (s.thread t).mode = .running) (hc : code (s.thread t).pc = .act f)
      (hf : f i s.shared = some (sh, k)) : Move code s (.run t i) { s.goto t k with shared := sh }
  | pass {t i c j} (hm : (s.thread t).mode = .waking c j) (hj : j < N)
      (hn : (⟨j, hj⟩ : Fin N) = t ∨ ∀ c', ¬ (s.Resting ⟨j, hj⟩ c' ∧ c' = c)) :
      Move code s (.run t i) (s.setMode t (.waking c (j + 1)))
  | rouse {t i c j} (hm : (s.thread t).mode = .waking c j) (hj : j < N) (hn : (⟨j, hj⟩ : Fin N) ≠ t)
      (ha : (s.thread ⟨j, hj⟩).mode = .asleep c) :
      Move code s (.run t i) ((s.setMode ⟨j, hj⟩ .roused).setMode t (.waking c (j + 1)))
  | woken {t i c j c' k} (hm : (s.thread t).mode = .waking c j) (hj : N ≤ j)
      (hc : code (s.thread t).pc = .wakeup c' k) : Move code s (.run t i) (s.goto t k)
  | doze {t i c} (hm : (s.thread t).mode = .dozing c) :
      Move code s (.run t i) (s.setMode t (.asleep c))
  | resume {t i c k} (hm : (s.thread t).mode = .roused) (hc : code (s.thread t).pc = .sleep c k)
      (hl : s.lock = none) : Move code s (.run t i) { s.goto t k with lock := some t }
  | killSleeper {t c} (hm : (s.thread t).mode = .asleep c) : Move code s (.kill t)
      { s with thread := update s.thread t { s.thread t with killed := true, mode := .roused } }
  | killOther {t} (hm : ∀ c, ¬ s.Resting t c) : Move code s (.kill t)
      { s with thread := update s.thread t { s.thread t with killed := true } }

theorem move_of_step [DecidableEq C] {code : P → Instr C S P I} {s s' : State N C S P}
    {a : Label N I} (h : step code s a = some s') : Move code s a s' := by
  cases a with
  | kill t =>
    simp only [step, killStep] at h
    split at h
    · cases h
    · rename_i c hm
      cases h
      exact .killSleeper hm
    · rename_i h1 h2
      cases h
      exact .killOther fun c hr => hr.elim (h1 c) (h2 c)
  | run t i =>
    simp only [step, runStep] at h
    split at h
    · rename_i hm
      split at h
      · rename_i k hc
        split at h <;> cases h
        exact .acquire hm hc ‹_›
      · rename_i k hc
        split at h <;> cases h
        exact .release hm hc ‹_›
      · rename_i c k hc
        split at h <;> cases h
        exact .sleep hm hc ‹_›
      · rename_i c k hc
        cases h
        exact .wakeup hm hc
      · rename_i k hc
        cases h
        exact .killed hm hc
      · rename_i f hc
        obtain ⟨⟨sh, k⟩, hf, rfl⟩ := Option.map_eq_some_iff.mp h
        exact .act hm hc hf
    · rename_i c j hm
      split at h
      · rename_i hj
        split at h
        · rename_i hjt
          cases h
          exact .pass hm hj (.inl hjt)
        · rename_i hjt
          split at h
          · cases h
          · rename_i c' ha
            split at h
            · rename_i hcc
              subst hcc
              cases h
              exact .rouse hm hj hjt ha
            · rename_i hcc
              cases h
              refine .pass hm hj (.inr ?_)
              rintro c'' ⟨hr | hr, rfl⟩ <;> rw [ha] at hr <;> cases hr
              exact hcc rfl
          · rename_i h1 h2
            cases h
            exact .pass hm hj (.inr fun c'' hr => hr.1.elim (h1 _) (h2 _))
      · rename_i hj
        split at h
        · rename_i c' k hc
          cases h
          exact .woken hm (Nat.le_of_not_lt hj) hc
        · cases h
    · rename_i c hm
      cases h
      exact .doze hm
    · cases h
    · rename_i hm
      split at h
      · rename_i c k hc
        split at h <;> cases h
        exact .resume hm hc ‹_›
      · cases h

/-! ## Invariants of the points -/

/-- Where an instruction that leaves the shared state alone continues. -/
inductive Instr.Next : Instr C S P I → P → Prop
  | acquire {k} : Next (.acquire k) k
  | release {k} : Next (.release k) k
  | sleep {c k} : Next (.sleep c k) k
  | wakeup {c k} : Next (.wakeup c k) k
  | killed {k} (b : Bool) : Next (.killed k) (k b)

/-- The points of the threads. -/
def State.points (s : State N C S P) (t : Fin N) : P := (s.thread t).pc

/-- Every step of a thread meets a condition on its point, the shared state and the
input. -/
def Meets (adm : P → S → I → Prop) (s : State N C S P) : Label N I → Prop
  | .run t i => adm (s.thread t).pc s.shared i
  | .kill _ => True

instance (adm : P → S → I → Prop) [∀ p sh i, Decidable (adm p sh i)] (s : State N C S P) :
    ∀ a, Decidable (Meets adm s a)
  | .run _ _ => inferInstanceAs (Decidable (adm _ _ _))
  | .kill _ => inferInstanceAs (Decidable True)

/-- A move leaves the points and the shared state alone, or takes one thread to its next
point, or is an action. -/
theorem Move.points {code : P → Instr C S P I} {s s' : State N C S P} {a : Label N I}
    (h : Move code s a s') :
    (s'.shared = s.shared ∧ s'.points = s.points) ∨
    ∃ t k i, a = .run t i ∧ s'.points = update s.points t k ∧
      ((s'.shared = s.shared ∧ (code (s.points t)).Next k) ∨
        ∃ f, code (s.points t) = .act f ∧ f i s.shared = some (s'.shared, k)) := by
  have hthread : ∀ (s : State N C S P) (t : Fin N) (th : Thread C P),
      ({ s with thread := update s.thread t th } : State N C S P).points =
        update s.points t th.pc :=
    fun s t th => funext (apply_update (fun _ => Thread.pc) s.thread t th)
  have hmode : ∀ (s : State N C S P) (t : Fin N) (m : Mode C),
      (s.setMode t m).points = s.points :=
    fun s t m => (hthread s t _).trans (update_eq_self t s.points)
  cases h with
  | @acquire t i k hm hc | @release t i k hm hc | @resume t i c k hm hc
  | @woken t i c j c' k hm hj hc =>
    refine .inr ⟨t, k, i, rfl, hthread s t _, .inl ⟨rfl, ?_⟩⟩
    rw [State.points, hc]
    constructor
  | @killed t i k hm hc =>
    refine .inr ⟨t, _, i, rfl, hthread s t _, .inl ⟨rfl, ?_⟩⟩
    rw [State.points, hc]
    constructor
  | @act t i f sh k hm hc hf => exact .inr ⟨t, k, i, rfl, hthread s t _, .inr ⟨f, hc, hf⟩⟩
  | sleep | wakeup | pass | doze => exact .inl ⟨rfl, hmode _ _ _⟩
  | rouse => exact .inl ⟨rfl, by rw [hmode, hmode]⟩
  | @killSleeper t | @killOther t =>
    exact .inl ⟨rfl, (hthread s t _).trans (update_eq_self t s.points)⟩

/-- An invariant of the shared state and the points of all threads. -/
theorem points_invariant [DecidableEq C] {code : P → Instr C S P I} {adm : P → S → I → Prop}
    {J : S → (Fin N → P) → Prop} {s₀ s : State N C S P} (h₀ : J s₀.shared s₀.points)
    (hnext : ∀ sh pts t k, J sh pts → (code (pts t)).Next k → J sh (update pts t k))
    (hact : ∀ sh pts t i f sh' k, J sh pts → adm (pts t) sh i → code (pts t) = .act f →
      f i sh = some (sh', k) → J sh' (update pts t k))
    (h : Machine.Reach (step code) (Meets adm) s₀ s) : J s.shared s.points := by
  refine h.invariant (I := fun s => J s.shared s.points) h₀ fun s a s' hJ hok hs => ?_
  rcases (move_of_step hs).points with ⟨hsh, hp⟩ | ⟨t, k, i, rfl, hp, ⟨hsh, hn⟩ | ⟨f, hc, hf⟩⟩
  · rw [hsh, hp]
    exact hJ
  · rw [hsh, hp]
    exact hnext _ _ _ _ hJ hn
  · rw [hp]
    exact hact _ _ _ _ _ _ _ hJ hok hc hf

/-! ## Annotated programs -/

namespace State

variable (s : State N C S P) (t u : Fin N)

/-- Thread `t` is on a processor, not in `sleep`. -/
def Awake : Prop :=
  (s.thread t).mode = .running ∨ ∃ c j, (s.thread t).mode = .waking c j

variable {s t u}

theorem awake_iff_of_mode {s' : State N C S P}
    (h : (s'.thread u).mode = (s.thread u).mode) : s'.Awake u ↔ s.Awake u := by
  simp only [Awake, h]

theorem not_awake_of_resting {c : C} (h : s.Resting t c) : ¬ s.Awake t := by
  rintro (h' | ⟨c', j, h'⟩) <;> rcases h with h | h <;> rw [h] at h' <;> cases h'

end State

/-- An invariant for the moments when the lock is free, and an assertion for each point
reached with the lock held (`crit`). `admits` are the inputs a run is restricted to. -/
structure Outline (P S I : Type*) where
  crit : P → Prop
  inv : S → Prop
  asrt : P → S → Prop
  admits : P → I → Prop

namespace Outline

variable (A : Outline P S I) (code : P → Instr C S P I)

/-- Each instruction takes the assertion at its point to the one where it continues. An
action outside the lock may change the shared state if no assertion notices. -/
structure Sound : Prop where
  acquire {p k} : code p = .acquire k → ¬ A.crit p ∧ A.crit k ∧ ∀ s, A.inv s → A.asrt k s
  release {p k} : code p = .release k → A.crit p ∧ ¬ A.crit k ∧ ∀ s, A.asrt p s → A.inv s
  sleep {p c k} : code p = .sleep c k → A.crit p ∧ A.crit k ∧
    (∀ s, A.asrt p s → A.inv s) ∧ ∀ s, A.inv s → A.asrt k s
  wakeup {p c k} : code p = .wakeup c k → A.crit p ∧ A.crit k ∧ ∀ s, A.asrt p s → A.asrt k s
  killed {p k} : code p = .killed k →
    ∀ b, (A.crit (k b) ↔ A.crit p) ∧ (A.crit p → ∀ s, A.asrt p s → A.asrt (k b) s)
  act {p f i s s' k} : code p = .act f → A.crit p → A.admits p i → A.asrt p s →
    f i s = some (s', k) → A.crit k ∧ A.asrt k s'
  actFree {p f i s s' k} : code p = .act f → ¬ A.crit p → A.admits p i →
    f i s = some (s', k) → ¬ A.crit k ∧ (A.inv s → A.inv s') ∧
      ∀ q, A.crit q → A.asrt q s → A.asrt q s'

/-- What an outline promises of a state. -/
structure Ok (s : State N C S P) : Prop where
  lock_iff : ∀ t, s.lock = some t ↔ A.crit (s.thread t).pc ∧ s.Awake t
  waking : ∀ t c j, (s.thread t).mode = .waking c j → ∃ k, code (s.thread t).pc = .wakeup c k
  resting : ∀ t c, s.Resting t c → ∃ k, code (s.thread t).pc = .sleep c k
  roused : ∀ t, (s.thread t).mode = .roused → ∃ c k, code (s.thread t).pc = .sleep c k
  free : s.lock = none → A.inv s.shared
  held : ∀ t, s.lock = some t → A.asrt (s.thread t).pc s.shared

/-- The runs whose inputs the outline admits. -/
def Admitted (s : State N C S P) : Label N I → Prop
  | .run t i => A.admits (s.thread t).pc i
  | .kill _ => True

variable {A code}

variable {sh : S} {s' : State N C S P} {t : Fin N} {c : C} {k : P}

theorem Ok.startAt {p : Fin N → P} (hp : ∀ t, ¬ A.crit (p t)) (hinv : A.inv sh) :
    A.Ok code (State.startAt C sh p) where
  lock_iff t := by simp [State.startAt, hp]
  waking t c j h := by simp [State.startAt] at h
  resting t c h := by simp [State.startAt, State.Resting] at h
  roused t h := by simp [State.startAt] at h
  free _ := hinv
  held t h := by simp [State.startAt] at h

theorem Ok.start {p : P} (hp : ¬ A.crit p) (hinv : A.inv sh) : A.Ok code (State.start N C sh p) :=
  Ok.startAt (fun _ => hp) hinv

section Ok

variable {s : State N C S P} (h : A.Ok code s)

include h

/-- Thread `t` moves and keeps or drops the lock, or takes it when it is free : the other
threads stay where they are. -/
theorem Ok.of_update (t : Fin N)
    (hother : ∀ u, u ≠ t → (s'.thread u).pc = (s.thread u).pc ∧
      (s'.thread u).mode = (s.thread u).mode)
    (hlock : ∀ u, u ≠ t → (s'.lock = some u ↔ s.lock = some u))
    (hself : s'.lock = some t ↔ A.crit (s'.thread t).pc ∧ s'.Awake t)
    (hwak : ∀ c j, (s'.thread t).mode = .waking c j → ∃ k, code (s'.thread t).pc = .wakeup c k)
    (hrest : ∀ c, s'.Resting t c → ∃ k, code (s'.thread t).pc = .sleep c k)
    (hrsd : (s'.thread t).mode = .roused → ∃ c k, code (s'.thread t).pc = .sleep c k)
    (hfree : s'.lock = none → A.inv s'.shared)
    (hheld : s'.lock = some t → A.asrt (s'.thread t).pc s'.shared)
    (hheldo : ∀ u, u ≠ t → s.lock = some u → A.asrt (s.thread u).pc s'.shared) : A.Ok code s' where
  lock_iff u := by
    by_cases hu : u = t
    · subst hu; exact hself
    · rw [hlock u hu, h.lock_iff, (hother u hu).1, State.awake_iff_of_mode (hother u hu).2]
  waking u c j hm := by
    by_cases hu : u = t
    · subst hu; exact hwak c j hm
    · rw [(hother u hu).1]
      exact h.waking u c j ((hother u hu).2 ▸ hm)
  resting u c hm := by
    by_cases hu : u = t
    · subst hu; exact hrest c hm
    · rw [(hother u hu).1]
      refine h.resting u c ?_
      simpa only [State.Resting, (hother u hu).2] using hm
  roused u hm := by
    by_cases hu : u = t
    · subst hu; exact hrsd hm
    · rw [(hother u hu).1]
      exact h.roused u ((hother u hu).2 ▸ hm)
  free := hfree
  held u hu := by
    by_cases hut : u = t
    · subst hut; exact hheld hu
    · rw [(hother u hut).1]
      exact hheldo u hut ((hlock u hut).1 hu)

/-- A thread is in `sleep` or `wakeup` only at such an instruction. -/
theorem Ok.awake_of_code (hc : ∀ c k, code (s.thread t).pc ≠ .sleep c k) : s.Awake t := by
  cases hm : (s.thread t).mode with
  | running => exact .inl hm
  | waking c j => exact .inr ⟨c, j, hm⟩
  | dozing c => exact absurd (h.resting t c (.inl hm)).choose_spec (hc c _)
  | asleep c => exact absurd (h.resting t c (.inr hm)).choose_spec (hc c _)
  | roused =>
    obtain ⟨c, k, hk⟩ := h.roused t hm
    exact absurd hk (hc c k)

/-- At a critical point a thread that runs has the lock. -/
theorem Ok.holds (hm : (s.thread t).mode = .running)
    (hcr : A.crit (s.thread t).pc) : s.lock = some t :=
  (h.lock_iff t).2 ⟨hcr, .inl hm⟩

/-- Outside the critical points a thread does not have the lock. -/
theorem Ok.lock_ne (hcr : ¬ A.crit (s.thread t).pc) : s.lock ≠ some t :=
  fun hl => hcr ((h.lock_iff t).1 hl).1

/-- A thread that rests does not have the lock. -/
theorem Ok.lock_ne_of_resting (hr : s.Resting t c) : s.lock ≠ some t :=
  fun hl => State.not_awake_of_resting hr ((h.lock_iff t).1 hl).2

/-- A thread that wakes a channel has the lock. -/
theorem Sound.holds_of_waking (hA : A.Sound code) {j : ℕ} (hm : (s.thread t).mode = .waking c j) :
    s.lock = some t ∧ ∃ k, code (s.thread t).pc = .wakeup c k := by
  obtain ⟨k, hc⟩ := h.waking t c j hm
  exact ⟨(h.lock_iff t).2 ⟨(hA.wakeup hc).1, .inr ⟨c, j, hm⟩⟩, k, hc⟩

/-- A thread with the lock that changes its mode only, and stays awake. -/
theorem Ok.setMode_waking {j : ℕ} (hl : s.lock = some t)
    (hc : code (s.thread t).pc = .wakeup c k) : A.Ok code (s.setMode t (.waking c j)) :=
  h.of_update t (fun u hu => by simp [hu]) (fun u hu => Iff.rfl)
    (by simp [hl, State.Awake, ((h.lock_iff t).1 hl).1])
    (fun c' j' hm => by
      obtain ⟨rfl, -⟩ : c = c' ∧ j = j' := by simpa using hm
      exact ⟨k, by simpa using hc⟩)
    (fun c' hr => by simp [State.Resting] at hr) (fun hm => by simp at hm)
    (fun hn => by simp [hl] at hn)
    (fun _ => by simpa using h.held t hl)
    (fun u hu hlu => h.held u hlu)

/-- A sleeper is roused, by a wakeup or by a kill. -/
theorem Ok.rouse (hr : s.Resting t c) (hother : ∀ u, u ≠ t → s'.thread u = s.thread u)
    (hpc : (s'.thread t).pc = (s.thread t).pc) (hm : (s'.thread t).mode = .roused)
    (hsh : s'.shared = s.shared) (hl : s'.lock = s.lock) : A.Ok code s' := by
  have hnl := h.lock_ne_of_resting hr
  refine h.of_update t (fun u hu => by rw [hother u hu]; exact ⟨rfl, rfl⟩) (fun u hu => by rw [hl])
    ⟨fun h' => absurd (hl ▸ h') hnl, fun h' => ?_⟩ (fun c' j' hm' => by rw [hm] at hm'; cases hm')
    (fun c' hr' => by simp [State.Resting, hm] at hr')
    (fun _ => hpc ▸ ⟨c, h.resting t c hr⟩) (fun hn => hsh ▸ h.free (hl ▸ hn))
    (fun h' => absurd (hl ▸ h') hnl) (fun u _ hlu => hsh ▸ h.held u hlu)
  simp [State.Awake, hm] at h'

theorem Ok.of_goto (hth : s'.thread = (s.goto t k).thread)
    (hlock : ∀ u, u ≠ t → (s'.lock = some u ↔ s.lock = some u))
    (hself : s'.lock = some t ↔ A.crit k) (hfree : s'.lock = none → A.inv s'.shared)
    (hheld : s'.lock = some t → A.asrt k s'.shared)
    (hheldo : ∀ u, u ≠ t → s.lock = some u → A.asrt (s.thread u).pc s'.shared) : A.Ok code s' := by
  have hself' : s'.thread t = { s.thread t with pc := k, mode := .running } := by simp [hth]
  refine h.of_update t (fun u hu => by simp [hth, hu]) hlock ?_ (by simp [hself'])
    (by simp [State.Resting, hself']) (by simp [hself']) hfree
    (by simpa [hself'] using hheld) hheldo
  simp [State.Awake, hself', hself]

/-- The lock is free and thread `t` takes it. -/
theorem Ok.take (hl : s.lock = none) (hk : A.crit k)
    (himp : ∀ sh, A.inv sh → A.asrt k sh) : A.Ok code { s.goto t k with lock := some t } :=
  h.of_goto rfl (fun u hu => by simp [hl, Ne.symm hu]) (by simp [hk]) nofun
    (fun _ => himp _ (h.free hl)) fun u _ hlu => by
      rw [hl] at hlu
      cases hlu

/-- The thread with the lock goes on and keeps it. -/
theorem Ok.keep (hl : s.lock = some t) (hk : A.crit k)
    (hheld : A.asrt k sh) : A.Ok code { s.goto t k with shared := sh } :=
  h.of_goto rfl (fun _ _ => Iff.rfl) (by simp [hl, hk]) (fun hn => by simp [hl] at hn)
    (fun _ => hheld) fun _ hu hlu => absurd (Option.some.inj (hlu.symm.trans hl)) hu

/-- A thread without the lock goes on, and no assertion notices. -/
theorem Ok.pass (hl : s.lock ≠ some t) (hk : ¬ A.crit k) (hinv : A.inv s.shared → A.inv sh)
    (hheld : ∀ q, A.crit q → A.asrt q s.shared → A.asrt q sh) :
    A.Ok code { s.goto t k with shared := sh } :=
  h.of_goto rfl (fun _ _ => Iff.rfl) (by simp [hl, hk]) (fun hn => hinv (h.free hn))
    (fun hn => absurd hn hl) fun u _ hlu => hheld _ ((h.lock_iff u).1 hlu).1 (h.held u hlu)

/-- A thread comes to rest at its `sleep`; if it has the lock, it lets go of it. -/
theorem Ok.rest {l : Option (Fin N)} {m : Mode C} (hm : m = .dozing c ∨ m = .asleep c)
    (hc : code (s.thread t).pc = .sleep c k) (hl : l ≠ some t)
    (hlock : ∀ u, u ≠ t → (l = some u ↔ s.lock = some u)) (hfree : l = none → A.inv s.shared) :
    A.Ok code { s.setMode t m with lock := l } := by
  refine h.of_update t (fun u hu => by simp [hu]) hlock ?_ ?_ (fun c' hr => ?_) ?_ hfree
    (fun h' => absurd h' hl) fun u _ => h.held u
  · rcases hm with rfl | rfl <;> simp [State.Awake, hl]
  · rcases hm with rfl | rfl <;> simp
  · obtain rfl : c = c' := by rcases hm with rfl | rfl <;> simpa [State.Resting] using hr
    exact ⟨k, by simpa using hc⟩
  · rcases hm with rfl | rfl <;> simp

theorem Ok.killOther (hm : ∀ c, ¬ s.Resting t c) : A.Ok code
    { s with thread := update s.thread t { s.thread t with killed := true } } := by
  refine h.of_update t (fun u hu => by simp [hu]) (fun u hu => Iff.rfl) ?_
    (fun c j hw => ?_) (fun c hr => ?_) (fun hr => ?_) h.free
    (fun hl => by simpa using h.held t hl) fun u _ => h.held u
  · rw [State.awake_iff_of_mode (s := s) (by simp)]
    simpa using h.lock_iff t
  · simpa using h.waking t c j (by simpa using hw)
  · exact absurd (by simpa [State.Resting] using hr) (hm c)
  · simpa using h.roused t (by simpa using hr)

/-- The outline survives every move. -/
theorem Sound.move (hA : A.Sound code) {a : Label N I} (ha : A.Admitted s a)
    (hm : Move code s a s') : A.Ok code s' := by
  cases hm with
  | acquire _ hc hl => exact h.take hl (hA.acquire hc).2.1 (hA.acquire hc).2.2
  | resume _ hc hl => exact h.take hl (hA.sleep hc).2.1 (hA.sleep hc).2.2.2
  | @release t i k hm hc hl =>
    obtain ⟨-, hk, himp⟩ := hA.release hc
    exact h.of_goto rfl (fun u hu => by simp [hl, Ne.symm hu]) (by simp [hk])
      (fun _ => himp _ (h.held t hl)) nofun fun u hu hlu =>
        absurd (Option.some.inj (hlu.symm.trans hl)) hu
  | @sleep t i c k hm hc hl =>
    exact h.rest (.inl rfl) hc nofun (fun u hu => by simp [hl, Ne.symm hu])
      fun _ => (hA.sleep hc).2.2.1 _ (h.held t hl)
  | @doze t i c hm =>
    obtain ⟨k, hc⟩ := h.resting t c (.inl hm)
    exact h.rest (.inr rfl) hc (h.lock_ne_of_resting (.inl hm)) (fun _ _ => Iff.rfl) h.free
  | wakeup hm hc => exact h.setMode_waking (h.holds hm (hA.wakeup hc).1) hc
  | @killed t i k hm hc =>
    obtain ⟨hcrit, himp⟩ := hA.killed hc (s.thread t).killed
    by_cases hcr : A.crit (s.thread t).pc
    · have hl := h.holds hm hcr
      exact h.keep hl (hcrit.2 hcr) (himp hcr _ (h.held t hl))
    · exact h.pass (h.lock_ne hcr) (mt hcrit.1 hcr) id fun _ _ => id
  | @act t i f sh k hm hc hf =>
    by_cases hcr : A.crit (s.thread t).pc
    · have hl := h.holds hm hcr
      obtain ⟨hk, hasrt⟩ := hA.act hc hcr ha (h.held t hl) hf
      exact h.keep hl hk hasrt
    · obtain ⟨hk, hinv, hasrt⟩ := hA.actFree hc hcr ha hf
      exact h.pass (h.lock_ne hcr) hk hinv hasrt
  | pass hm hj hn =>
    obtain ⟨hl, k, hc⟩ := hA.holds_of_waking h hm
    exact h.setMode_waking hl hc
  | @rouse t i c j hm hj hn hs =>
    obtain ⟨hl, k, hc⟩ := hA.holds_of_waking h hm
    have h' : A.Ok code (s.setMode ⟨j, hj⟩ .roused) :=
      h.rouse (.inr hs) (fun u hu => by simp [hu]) (by simp) (by simp) rfl rfl
    exact h'.setMode_waking hl (by simpa [Ne.symm hn] using hc)
  | @woken t i c j c' k hm hj hc =>
    obtain ⟨-, hk, himp⟩ := hA.wakeup hc
    have hl := (hA.holds_of_waking h hm).1
    exact h.keep hl hk (himp _ (h.held t hl))
  | killSleeper hm => exact h.rouse (.inr hm) (fun u hu => by simp [hu]) (by simp) (by simp) rfl rfl
  | killOther hm => exact h.killOther hm

end Ok

/-- A sound outline holds in every state of every admitted run. -/
theorem Sound.ok [DecidableEq C] (hA : A.Sound code) {ok : State N C S P → Label N I → Prop}
    (hok : ∀ s a, ok s a → A.Admitted s a) {s₀ s : State N C S P} (h₀ : A.Ok code s₀)
    (h : Machine.Reach (step code) ok s₀ s) : A.Ok code s :=
  h.invariant h₀ fun _ _ _ hi ha hs => hA.move hi (hok _ _ ha) (move_of_step hs)

end Outline

/-! ## No lost wakeup -/

/-- When a thread may rest on a channel, and which points still owe it a wakeup. -/
structure Wake (C S P : Type*) where
  idle : C → S → Prop
  owes : P → C → Prop

namespace Wake

variable (W : Wake C S P) (A : Outline P S I) (code : P → Instr C S P I)

/-- A thread falls asleep only where it may rest; an action that ends the rest of a channel
leads to a point that owes the channel a wakeup, and only `wakeup` pays. -/
structure Sound : Prop where
  sleep {p c k s} : code p = .sleep c k → A.asrt p s → W.idle c s
  wakeup {p c k c'} : code p = .wakeup c k → c' ≠ c → W.owes p c' → W.owes k c'
  killed {p k c} : code p = .killed k → A.crit p → W.owes p c → ∀ b, W.owes (k b) c
  act {p f i s s' k c} : code p = .act f → A.crit p → A.admits p i → A.asrt p s →
    f i s = some (s', k) → W.idle c s ∨ W.owes p c → W.idle c s' ∨ W.owes k c
  actFree {p f i s s' k c} : code p = .act f → ¬ A.crit p → A.admits p i →
    f i s = some (s', k) → W.idle c s → W.idle c s'

/-- The thread still has to visit `t`, or to begin the wakeup of `c`. -/
def Pending (th : Thread C P) (t : Fin N) (c : C) : Prop :=
  match th.mode with
  | .running => W.owes th.pc c
  | .waking c' j => (c' = c ∧ j ≤ t) ∨ (c' ≠ c ∧ W.owes th.pc c)
  | _ => False

/-- A thread rests on a channel that allows it, or the holder of the lock is still to
wake it. -/
def Rested (s : State N C S P) : Prop :=
  ∀ t c, s.Resting t c → W.idle c s.shared ∨ ∃ h, s.lock = some h ∧ W.Pending (s.thread h) t c

/-- Nobody rests on a channel to which a thread that gives up the lock owes a wakeup. -/
def Clean (s : State N C S P) : Label N I → Prop
  | .run t _ => (s.thread t).mode = .running →
      (∃ k, code (s.thread t).pc = .release k ∨ ∃ c, code (s.thread t).pc = .sleep c k) →
      ∀ c, W.owes (s.thread t).pc c → ∀ u, ¬ s.Resting u c
  | .kill _ => True

variable {W A code}

theorem Rested.startAt {sh : S} {p : Fin N → P} : W.Rested (State.startAt C sh p) := by
  intro t c h
  simp [State.startAt, State.Resting] at h

theorem Rested.start {sh : S} {p : P} : W.Rested (State.start N C sh p) :=
  Rested.startAt

variable {s' : State N C S P} {t : Fin N}

theorem resting_congr {s : State N C S P} {c : C} (h : s'.thread t = s.thread t) :
    s'.Resting t c ↔ s.Resting t c := by
  simp only [State.Resting, h]

section Rested

variable {s : State N C S P} (h : W.Rested s)

include h

/-- The holder of the lock steps to a point that owes what it owed. -/
theorem Rested.of_holder (hl : s.lock = some t) (hl' : s'.lock = some t)
    (hother : ∀ u, u ≠ t → s'.thread u = s.thread u) (hawake : ∀ c, ¬ s'.Resting t c)
    (hp : ∀ u c, s.Resting u c → W.idle c s.shared ∨ W.Pending (s.thread t) u c →
      W.idle c s'.shared ∨ W.Pending (s'.thread t) u c) : W.Rested s' := by
  intro u c hr
  have hut : u ≠ t := by
    rintro rfl
    exact hawake c hr
  have hr' := (resting_congr (hother u hut)).1 hr
  have h0 : W.idle c s.shared ∨ W.Pending (s.thread t) u c := by
    rcases h u c hr' with hi | ⟨x, hx, hpend⟩
    · exact .inl hi
    · obtain rfl : t = x := Option.some.inj (hl.symm.trans hx)
      exact .inr hpend
  rcases hp u c hr' h0 with hi | hpend
  · exact .inl hi
  · exact .inr ⟨t, hl', hpend⟩

/-- The lock is given up at a point that owes nothing to a sleeper. -/
theorem Rested.idle_of_release (hl : s.lock = some t) (hm : (s.thread t).mode = .running)
    (hcl : ∀ c, W.owes (s.thread t).pc c → ∀ u, ¬ s.Resting u c) {u : Fin N} {c : C}
    (hr : s.Resting u c) : W.idle c s.shared := by
  rcases h u c hr with hi | ⟨x, hx, hpend⟩
  · exact hi
  · obtain rfl : t = x := Option.some.inj (hl.symm.trans hx)
    simp only [Pending, hm] at hpend
    exact absurd hr (hcl c hpend u)

/-- A thread outside the lock steps, or the lock is taken. -/
theorem Rested.of_idle (t : Fin N) (hl : s.lock ≠ some t)
    (hl' : ∀ u, s.lock = some u → s'.lock = some u) (hother : ∀ u, u ≠ t → s'.thread u = s.thread u)
    (hrest : ∀ c, s'.Resting t c → s.Resting t c)
    (hidle : ∀ c, W.idle c s.shared → W.idle c s'.shared) : W.Rested s' := by
  intro u c hr
  have hr' : s.Resting u c := by
    by_cases hu : u = t
    · subst hu; exact hrest c hr
    · exact (resting_congr (hother u hu)).1 hr
  rcases h u c hr' with hi | ⟨x, hx, hpend⟩
  · exact .inl (hidle c hi)
  · have hxt : x ≠ t := by
      rintro rfl
      exact hl hx
    exact .inr ⟨x, hl' x hx, (hother x hxt).symm ▸ hpend⟩

/-- A thread that does not hold the lock goes on. -/
theorem Rested.goto_free {k : P} (hth : s'.thread = (s.goto t k).thread) (hl : s.lock ≠ some t)
    (hl' : ∀ u, s.lock = some u → s'.lock = some u)
    (hidle : ∀ c, W.idle c s.shared → W.idle c s'.shared) : W.Rested s' :=
  h.of_idle t hl hl' (fun u hu => by simp [hth, hu])
    (fun c hr => by simp [State.Resting, hth] at hr) hidle

/-- The holder of the lock goes on to a point that owes what is still to be woken. -/
theorem Rested.goto_held {k : P} {sh : S} (hl : s.lock = some t)
    (hp : ∀ (u : Fin N) c, W.idle c s.shared ∨ W.Pending (s.thread t) u c →
      W.idle c sh ∨ W.owes k c) : W.Rested { s.goto t k with shared := sh } :=
  h.of_holder hl (by simpa using hl) (fun u hu => by simp [hu])
    (fun c hr => by simp [State.Resting] at hr) fun u c _ hp' => by
      simpa [Pending] using hp u c hp'

/-- `wakeup` goes on from a thread that does not rest on its channel. -/
theorem Rested.visit {c : C} {j : ℕ} (hm : (s.thread t).mode = .waking c j) (hl : s.lock = some t)
    (hn : ∀ u : Fin N, (u : ℕ) = j → ¬ s.Resting u c) :
    W.Rested (s.setMode t (.waking c (j + 1))) := by
  refine h.of_holder hl (by simpa using hl) (fun u hu => by simp [hu])
    (fun c' hr => by simp [State.Resting] at hr) fun u c' hr hp => hp.imp id fun hp => ?_
  simp only [Pending, hm] at hp
  simp only [Pending, State.setMode_thread_self]
  refine hp.imp (fun ⟨hcc, hju⟩ => ⟨hcc, Nat.lt_of_le_of_ne hju fun hju' => ?_⟩) id
  exact hn u hju'.symm (hcc ▸ hr)

theorem Rested.killOther (t : Fin N) : W.Rested
    { s with thread := update s.thread t { s.thread t with killed := true } } := by
  intro u c hr
  have hr' : s.Resting u c := by
    by_cases hu : u = t
    · subst hu; simpa [State.Resting] using hr
    · simpa [State.Resting, hu] using hr
  refine (h u c hr').imp id ?_
  rintro ⟨x, hx, hp⟩
  refine ⟨x, hx, ?_⟩
  by_cases hxt : x = t
  · subst hxt; simpa [Pending] using hp
  · simpa [hxt] using hp

end Rested

/-- A program that gives up the lock only where it owes nothing has clean runs. -/
theorem clean_of_code (hrel : ∀ p k c, code p = .release k → ¬ W.owes p c)
    (hslp : ∀ p d k c, code p = .sleep d k → ¬ W.owes p c) (s : State N C S P) (a : Label N I) :
    W.Clean code s a := by
  cases a with
  | kill t => trivial
  | run t i =>
    rintro - ⟨k, hk | ⟨d, hd⟩⟩ c ho
    · exact absurd ho (hrel _ k c hk)
    · exact absurd ho (hslp _ d k c hd)

/-- Along a clean run every sleeper rests or has its wakeup pending. -/
theorem Sound.move (hA : A.Sound code) (hW : W.Sound A code) {s : State N C S P} {a : Label N I}
    (hok : A.Ok code s) (h : W.Rested s) (ha : A.Admitted s a) (hcl : W.Clean code s a)
    (hm : Move code s a s') : W.Rested s' := by
  cases hm with
  | acquire _ _ hl | resume _ _ hl =>
    exact h.goto_free rfl (by simp [hl]) (by simp [hl]) fun _ => id
  | @release t i k hm hc hl =>
    intro u c hr
    refine .inl (h.idle_of_release hl hm (hcl hm ⟨k, .inl hc⟩) (u := u) ?_)
    by_cases hu : u = t
    · subst hu; simp [State.Resting] at hr
    · exact (resting_congr (by simp [hu])).1 hr
  | @sleep t i c k hm hc hl =>
    intro u c' hr
    refine .inl ?_
    by_cases hu : u = t
    · subst hu
      obtain rfl : c = c' := by simpa [State.Resting] using hr
      exact hW.sleep hc (hok.held u hl)
    · refine h.idle_of_release hl hm (hcl hm ⟨k, .inr ⟨c, hc⟩⟩) (u := u) ?_
      exact (resting_congr (by simp [hu])).1 hr
  | @wakeup t i c k hm hc =>
    have hl := hok.holds hm (hA.wakeup hc).1
    refine h.of_holder hl (by simpa using hl) (fun u hu => by simp [hu])
      (fun c' hr => by simp [State.Resting] at hr) fun u c' hr hp => hp.imp id fun hp => ?_
    simp only [Pending, hm] at hp
    by_cases hcc : c = c'
    · simp [Pending, hcc]
    · simp [Pending, hcc, hp]
  | @killed t i k hm hc =>
    by_cases hcr : A.crit (s.thread t).pc
    · refine h.goto_held (hok.holds hm hcr) fun u c hp => hp.imp id fun hp => ?_
      simp only [Pending, hm] at hp
      exact hW.killed hc hcr hp _
    · exact h.goto_free rfl (hok.lock_ne hcr) (fun _ => id) fun _ => id
  | @act t i f sh k hm hc hf =>
    by_cases hcr : A.crit (s.thread t).pc
    · have hl := hok.holds hm hcr
      refine h.goto_held hl fun u c hp => ?_
      simp only [Pending, hm] at hp
      exact hW.act hc hcr ha (hok.held t hl) hf hp
    · exact h.goto_free rfl (hok.lock_ne hcr) (fun _ => id) fun _ => hW.actFree hc hcr ha hf
  | @pass t i c j hm hj hn =>
    refine h.visit hm (hA.holds_of_waking hok hm).1 fun u hu hr => ?_
    obtain rfl : u = ⟨j, hj⟩ := Fin.ext hu
    rcases hn with rfl | hn
    · exact State.not_awake_of_resting hr (.inr ⟨c, j, hm⟩)
    · exact hn c ⟨hr, rfl⟩
  | @rouse t i c j hm hj hn hs =>
    have hl := (hA.holds_of_waking hok hm).1
    have h' : W.Rested (s.setMode ⟨j, hj⟩ .roused) :=
      h.of_idle ⟨j, hj⟩ (hok.lock_ne_of_resting (.inr hs)) (fun _ => id)
        (fun u hu => by simp [hu]) (fun c hr => by simp [State.Resting] at hr) fun _ => id
    refine h'.visit (by simpa [Ne.symm hn] using hm) hl fun u hu hr => ?_
    obtain rfl : u = ⟨j, hj⟩ := Fin.ext hu
    simp [State.Resting] at hr
  | @woken t i c j c' k hm hj hc =>
    obtain ⟨hl, k', hc'⟩ := hA.holds_of_waking hok hm
    obtain ⟨rfl, rfl⟩ : c' = c ∧ k = k' := by simpa using hc.symm.trans hc'
    refine h.goto_held hl fun u c hp => hp.imp id fun hp => ?_
    simp only [Pending, hm] at hp
    rcases hp with ⟨-, hju⟩ | ⟨hcc, hp⟩
    · exact absurd u.isLt (by omega)
    · exact hW.wakeup hc (Ne.symm hcc) hp
  | @doze t i c hm =>
    refine h.of_idle t (hok.lock_ne_of_resting (.inl hm)) (fun _ => id) (fun u hu => by simp [hu])
      (fun c' hr => ?_) fun _ => id
    obtain rfl : c = c' := by simpa [State.Resting] using hr
    exact .inl hm
  | @killSleeper t c hm =>
    exact h.of_idle t (hok.lock_ne_of_resting (.inr hm)) (fun _ => id) (fun u hu => by simp [hu])
      (fun c' hr => by simp [State.Resting] at hr) fun _ => id
  | @killOther t hm => exact h.killOther t

/-- While the lock is free, a sleeper's channel is idle. -/
theorem Sound.no_lost_wakeup [DecidableEq C] (hA : A.Sound code) (hW : W.Sound A code)
    {ok : State N C S P → Label N I → Prop} (hadm : ∀ s a, ok s a → A.Admitted s a)
    (hcl : ∀ s a, A.Ok code s → ok s a → W.Clean code s a) {s₀ s : State N C S P}
    (h₀ : A.Ok code s₀) (hr₀ : W.Rested s₀) (h : Machine.Reach (step code) ok s₀ s)
    (hl : s.lock = none) {c : C} (ht : s.Resting t c) : W.idle c s.shared := by
  have hr : W.Rested s := by
    refine h.invariant_of (J := A.Ok code) (fun s hs => hA.ok hadm h₀ hs)
      hr₀ fun s a s' hj hi ha hs => ?_
    exact hW.move hA hj hi (hadm s a ha) (hcl s a hj ha) (move_of_step hs)
  rcases hr t c ht with hi | ⟨x, hx, -⟩
  · exact hi
  · rw [hl] at hx
    cases hx

end Wake

end Monitor
