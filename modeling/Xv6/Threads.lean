import Mathlib.Logic.Function.Basic
import Xv6.Machine
import Xv6.Prog

/-!
# Threads that run programs of atomic actions

`Ctl α ρ β` is a program whose steps are actions of `α` on a state that threads share ; an
action `a` answers with a value of `ρ a`, and the program goes on with it. A thread runs one
program after another, started by calls, and the threads interleave at the actions
(`Threads.step`).

Threads are verified one at a time. A `Discipline` says what a thread has to own before an
action, and how the action changes the state and what the thread owns. `Ctl.Holds` checks a
program against it as if nothing else ran. What all threads own has to fit the state
(`fits`) ; if every action keeps that up, whatever the other threads own, then it holds in all
runs and every thread is where its program may be (`Threads.Sound.reach`). A program that runs
by itself is a program over the state (`Ctl.exec`).
-/

open Function

/-- A program of actions : it returns, or takes an action and goes on with the answer. -/
inductive Ctl (α : Type) (ρ : α → Type) (β : Type) : Type
  | ret (b : β)
  | act (a : α) (k : ρ a → Ctl α ρ β)

/-- What a thread needs for an action, and what it does to the state and to the owner. -/
structure Discipline (α : Type) (ρ : α → Type) (σ R : Type) where
  needs : α → R → Prop
  does : (a : α) → σ → R → ρ a → σ → R → Prop

namespace Ctl

variable {α : Type} {ρ : α → Type} {β γ σ R : Type}

protected def bind : Ctl α ρ β → (β → Ctl α ρ γ) → Ctl α ρ γ
  | .ret b, f => f b
  | .act a k, f => .act a fun r => (k r).bind f

instance : Monad (Ctl α ρ) where
  pure := .ret
  bind := Ctl.bind

/-- The program of one action. -/
def call (a : α) : Ctl α ρ (ρ a) := .act a .ret

variable (D : Discipline α ρ σ R)

/-- A thread that owns `o` can run the program, and ends with `Q`. -/
def Holds : Ctl α ρ β → (β → R → Prop) → R → Prop
  | .ret b, Q, o => Q b o
  | .act a k, Q, o => D.needs a o ∧ ∀ s r s' o', D.does a s o r s' o' → (k r).Holds Q o'

variable {D} {m : Ctl α ρ β}

@[simp] theorem holds_pure {b : β} {Q : β → R → Prop} {o : R} :
    Holds D (pure b) Q o ↔ Q b o := Iff.rfl

theorem Holds.mono {Q Q' : β → R → Prop} (hQ : ∀ b o, Q b o → Q' b o) :
    ∀ {o : R}, Holds D m Q o → Holds D m Q' o := by
  induction m with
  | ret b => exact hQ b _
  | act a k ih => exact fun ⟨hn, hk⟩ => ⟨hn, fun s r s' o' hd => ih r (hk s r s' o' hd)⟩

@[simp] theorem holds_bind {f : β → Ctl α ρ γ} {Q : γ → R → Prop} :
    ∀ {o : R}, Holds D (m >>= f) Q o ↔ Holds D m (fun b => Holds D (f b) Q) o := by
  induction m with
  | ret b => exact Iff.rfl
  | act a k ih =>
    refine and_congr_right fun _ => forall_congr' fun s => forall_congr' fun r =>
      forall_congr' fun s' => forall_congr' fun o' => imp_congr_right fun _ => ?_
    exact ih r

theorem holds_call_bind {a : α} {f : ρ a → Ctl α ρ γ} {Q : γ → R → Prop} {o : R} :
    Holds D (call a >>= f) Q o ↔
      D.needs a o ∧ ∀ s r s' o', D.does a s o r s' o' → Holds D (f r) Q o' :=
  holds_bind

@[simp] theorem holds_ite {c : Prop} [Decidable c] {m m' : Ctl α ρ β} {Q : β → R → Prop} {o : R} :
    Holds D (if c then m else m') Q o ↔ if c then Holds D m Q o else Holds D m' Q o := by
  split <;> rfl

/-! ### A program by itself -/

section Exec

variable {ε : Type} (run : (a : α) → Prog σ ε (ρ a))

/-- The program, with nothing else running. -/
def exec : Ctl α ρ β → Prog σ ε β
  | .ret b => pure b
  | .act a k => do
    let r ← run a
    (k r).exec

variable {run} {E : ε → Prop} {s : σ}

@[simp] theorem wp_exec_pure {b : β} {Q : β → σ → Prop} :
    Prog.wp E (exec run (pure b)) Q s ↔ Q b s := Iff.rfl

@[simp] theorem wp_exec_call {a : α} {Q : ρ a → σ → Prop} :
    Prog.wp E (exec run (call a)) Q s ↔ Prog.wp E (run a) Q s := Prog.wp_bind

theorem wp_exec_bind {f : β → Ctl α ρ γ} {Q : γ → σ → Prop} :
    ∀ {s : σ}, Prog.wp E (exec run (m >>= f)) Q s ↔
      Prog.wp E (exec run m) (fun b => Prog.wp E (exec run (f b)) Q) s := by
  induction m with
  | ret b => exact Iff.rfl
  | act a k ih =>
    intro s
    have hbind : exec run (Ctl.act a k >>= f) = (do let r ← run a; exec run (k r >>= f)) := rfl
    rw [hbind, exec, Prog.wp_bind, Prog.wp_bind]
    exact ⟨fun h => h.mono fun r _ => (ih r).mp, fun h => h.mono fun r _ => (ih r).mpr⟩

theorem wp_exec_map {g : β → γ} {Q : γ → σ → Prop} {s : σ} :
    Prog.wp E (exec run (g <$> m)) Q s ↔ Prog.wp E (exec run m) (fun b => Q (g b)) s :=
  wp_exec_bind

end Exec

end Ctl

/-! ## The machine -/

/-- What the threads share, and of each thread what it keeps between calls and the program it
is in. -/
structure Threads (ι σ α : Type) (ρ : α → Type) (lc : Type) where
  shared : σ
  loc : ι → lc
  ctl : ι → Option (Ctl α ρ lc)

inductive ThreadLabel (ι κ : Type)
  | start (p : ι) (c : κ)
  | go (p : ι)

namespace Threads

variable {ι σ α ε κ R lc : Type} {ρ : α → Type} [DecidableEq ι]
variable (run : (a : α) → Prog σ ε (ρ a)) (prog : κ → lc → Ctl α ρ lc)

/-- An idle thread starts a call, or a thread takes the next step of its program. An action
that stops with an error has no step. -/
def step (s : Threads ι σ α ρ lc) : ThreadLabel ι κ → Option (Threads ι σ α ρ lc)
  | .start p c =>
    match s.ctl p with
    | none => some { s with ctl := update s.ctl p (some (prog c (s.loc p))) }
    | some _ => none
  | .go p =>
    match s.ctl p with
    | none => none
    | some (.ret l) => some { s with loc := update s.loc p l, ctl := update s.ctl p none }
    | some (.act a k) =>
      match run a s.shared with
      | .ok (r, s') => some { s with shared := s', ctl := update s.ctl p (some (k r)) }
      | .error _ => none

/-- A condition on actions as one on steps. -/
def Admits (ok : σ → α → Prop) (s : Threads ι σ α ρ lc) : ThreadLabel ι κ → Prop
  | .start _ _ => True
  | .go p =>
    match s.ctl p with
    | some (.act a _) => ok s.shared a
    | _ => True

instance {ok : σ → α → Prop} [∀ s a, Decidable (ok s a)] (s : Threads ι σ α ρ lc) :
    DecidablePred (Admits (κ := κ) ok s)
  | .start _ _ => .isTrue trivial
  | .go p =>
    match hc : s.ctl p with
    | some (.act a _) => decidable_of_iff (ok s.shared a) (by simp [Admits, hc])
    | some (.ret _) => .isTrue (by simp [Admits, hc])
    | none => .isTrue (by simp [Admits, hc])

omit [DecidableEq ι] in
theorem admits_true (s : Threads ι σ α ρ lc) (l : ThreadLabel ι κ) :
    Admits (fun _ _ => True) s l := by
  cases l with
  | start p c => trivial
  | go p =>
    simp only [Admits]
    split <;> trivial

variable (D : Discipline α ρ σ R) (idle : lc → R → Prop)

/-- A thread owns what its place in its program asks for. -/
def Owned (l : lc) (c : Option (Ctl α ρ lc)) (o : R) : Prop :=
  match c with
  | none => idle l o
  | some m => Ctl.Holds D m idle o

/-- The discipline is kept : by each action, for a fit between the owners and the state, and
by the programs. -/
structure Sound (fits : (ι → R) → σ → Prop) (ok : σ → α → Prop) (E : ε → Prop) : Prop where
  act : ∀ own s p a, fits own s → D.needs a (own p) → ok s a →
    Prog.wp E (run a) (fun r s' => ∃ o', D.does a s (own p) r s' o' ∧ fits (update own p o') s') s
  holds : ∀ c l o, idle l o → Ctl.Holds D (prog c l) idle o

variable {run prog D idle} {fits : (ι → R) → σ → Prop} {ok : σ → α → Prop} {E : ε → Prop}
variable {s₀ s : Threads ι σ α ρ lc}

theorem Owned.update {p : ι} {own : ι → R} {o : R} {l : lc} {c : Option (Ctl α ρ lc)}
    (h : ∀ q, Owned D idle (s.loc q) (s.ctl q) (own q)) (hp : Owned D idle l c o) (q : ι) :
    Owned D idle (update s.loc p l q) (update s.ctl p c q) (update own p o q) := by
  by_cases hq : q = p
  · subst hq
    simpa using hp
  · simpa [hq] using h q

/-- In all runs the owners fit the state, and every thread owns what its program asks for. -/
theorem Sound.reach (hs : Sound run prog D idle fits ok E)
    (h : Machine.Reach (step run prog) (Admits ok) s₀ s)
    (h₀ : ∃ own, fits own s₀.shared ∧ ∀ p, Owned D idle (s₀.loc p) (s₀.ctl p) (own p)) :
    ∃ own, fits own s.shared ∧ ∀ p, Owned D idle (s.loc p) (s.ctl p) (own p) := by
  refine h.invariant (I := fun s => ∃ own, fits own s.shared ∧
    ∀ p, Owned D idle (s.loc p) (s.ctl p) (own p)) h₀ ?_
  rintro s l s' ⟨own, hfit, hown⟩ hok hstep
  cases l with
  | start p c =>
    simp only [step] at hstep
    split at hstep
    · rename_i hc
      cases hstep
      refine ⟨own, hfit, fun q => ?_⟩
      have hp := hown p
      rw [hc] at hp
      have hp' : Owned D idle (s.loc p) (some (prog c (s.loc p))) (own p) := hs.holds c _ _ hp
      simpa using Owned.update (p := p) hown hp' q
    · cases hstep
  | go p =>
    have hp := hown p
    simp only [step] at hstep
    simp only [Admits] at hok
    split at hstep
    · cases hstep
    · rename_i l hc
      cases hstep
      rw [hc] at hp
      refine ⟨own, hfit, fun q => ?_⟩
      have hp' : Owned D idle l none (own p) := hp
      simpa using Owned.update (p := p) hown hp' q
    · rename_i a k hc
      rw [hc] at hp hok
      split at hstep
      · rename_i r t hrun
        cases hstep
        obtain ⟨o', hdoes, hfit'⟩ := (hs.act own s.shared p a hfit hp.1 hok).ok hrun
        refine ⟨update own p o', hfit', fun q => ?_⟩
        have hp' : Owned D idle (s.loc p) (some (k r)) o' := hp.2 _ _ _ _ hdoes
        simpa using Owned.update (p := p) hown hp' q
      · cases hstep

/-- In no run does an action stop with an error that is not admitted. -/
theorem Sound.reach_error (hs : Sound run prog D idle fits ok E)
    (h : Machine.Reach (step run prog) (Admits ok) s₀ s)
    (h₀ : ∃ own, fits own s₀.shared ∧ ∀ p, Owned D idle (s₀.loc p) (s₀.ctl p) (own p))
    {p : ι} {a : α} {k : ρ a → Ctl α ρ lc} (hc : s.ctl p = some (.act a k)) (hok : ok s.shared a)
    {e : ε} (he : run a s.shared = .error e) : E e := by
  obtain ⟨own, hfit, hown⟩ := hs.reach h h₀
  have hp := hown p
  rw [hc] at hp
  exact (hs.act own s.shared p a hfit hp.1 hok).error he

end Threads
