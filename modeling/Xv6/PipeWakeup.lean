import Xv6.PipeStream

/-!
# Sleepers on a pipe

A process may rest on `&pi->nread` while the pipe is empty and open for writing, and on
`&pi->nwrite` while it is full and open for reading (`pipeWake`). Every exit of `piperead`
and `pipeclose` wakes whom it has to, and so do the exits of `pipewrite` except one : when it
finds `killed(pr)` set after it moved bytes, it returns without waking the readers. In the
runs where that exit finds no reader at rest (`PipeQuiet`) no wakeup is lost
(`pipe_no_lost_wakeup`); where it finds one, that reader rests on a pipe with bytes in it
(`pipe_early_return_strands`).
-/

namespace Xv6

open Monitor

/-- When a process may rest on a channel of the pipe, and who still has to wake it. -/
def pipeWake : Wake PipeChan Pipe PipePc where
  idle
    | .nread, pi => pi.Empty ∧ pi.writeopen
    | .nwrite, pi => pi.Full ∧ pi.readopen
  owes
    | .write _ _ i i₀, c => c = .nread ∧ i₀ < i
    | .read p _ _, c => c = .nwrite ∧ (p = .copy ∨ p = .done)
    | .close p w, c => c = (if w then .nread else .nwrite) ∧ p = .wake
    | _, _ => False

section Action

variable {p k : PipePc} {f : PipeInput → Pipe → Option (Pipe × PipePc)} {inp : PipeInput}
  {pi pi' : Pipe}

/-- Whoever ends the rest of a channel then owes it a wakeup. -/
theorem pipeWake_act (hc : pipeCode p = .act f) (hp : p.Locked) (hr : p.Fact False pi)
    (hf : f inp pi = some (pi', k)) {c : PipeChan}
    (h : pipeWake.idle c pi ∨ pipeWake.owes p c) : pipeWake.idle c pi' ∨ pipeWake.owes k c := by
  cases p with
  | user => exact hp.elim
  | ret v => exact hp.elim
  | write p n i i₀ =>
    obtain ⟨hle, -, hfact⟩ := hr
    cases p <;> simp only [pipeCode, pipewrite, Instr.act.injEq, reduceCtorEq] at hc <;> subst hc
    case loop => cases hf; exact h
    case readopen => cases hf; exact h
    case full => cases hf; exact h
    case copy =>
      dsimp only at hf
      cases hcopy : inp.copyin with
      | none =>
        rw [hcopy] at hf
        cases hf
        exact h
      | some ch =>
        rw [hcopy] at hf
        cases hf
        cases c with
        | nread => exact .inr ⟨rfl, by omega⟩
        | nwrite =>
          rcases h with h | h
          · exact absurd h.1 hfact
          · exact absurd h.1 (by decide)
  | read p n i =>
    cases p <;> simp only [pipeCode, piperead, Instr.act.injEq, reduceCtorEq] at hc <;> subst hc
    case empty =>
      cases hf
      exact h.imp id fun h => by simp [pipeWake] at h
    case copy =>
      dsimp only at hf
      split at hf
      · rename_i hne
        cases hf
        cases c with
        | nread =>
          rcases h with h | h
          · exact absurd h.1 hne.2
          · exact absurd h.1 (by decide)
        | nwrite => exact .inr (by split <;> simp [pipeWake])
      · cases hf
        exact h.imp id fun h => ⟨h.1, .inr rfl⟩
  | close p w =>
    cases p <;> simp only [pipeCode, pipeclose, Instr.act.injEq, reduceCtorEq] at hc <;> subst hc
    case shut =>
      cases hf
      cases w <;> cases c <;> simp_all [pipeWake, Pipe.shut, Pipe.Empty, Pipe.Full]
    case test =>
      cases hf
      exact h.imp id fun h => by simp [pipeWake] at h

end Action

theorem pipeWake_sound : pipeWake.Sound (pipeOutline False) pipeCode where
  sleep h hs := by
    obtain ⟨n, i, i₀, rfl, rfl, rfl⟩ | ⟨n, i, rfl, rfl, rfl⟩ := pipeCode_sleep h
    · exact hs.2.2.2.2
    · exact hs.2
  wakeup h hne ho := by
    obtain ⟨n, i, i₀, rfl, rfl, rfl⟩ | ⟨n, i, i₀, rfl, rfl, rfl⟩ | ⟨n, i, rfl, rfl, rfl⟩ |
      ⟨w, rfl, rfl, rfl⟩ := pipeCode_wakeup h <;> exact absurd ho.1 hne
  killed h _ ho b := by
    obtain ⟨n, i, i₀, rfl, rfl⟩ | ⟨n, i, rfl, rfl⟩ := pipeCode_killed h
    · exact ho
    · simp [pipeWake] at ho
  act hc hp _ hs hf h := pipeWake_act hc hp hs.2 hf h
  actFree hc hp _ hf := by
    obtain ⟨-, rfl⟩ := pipeCode_actFree hc hp hf
    exact id

/-- The early return of `pipewrite`, after it moved bytes since it last took the lock. -/
def PipePc.GivesUp : PipePc → Prop
  | .write p _ i i₀ => p = .fail ∧ i₀ < i
  | _ => False

instance : (p : PipePc) → Decidable p.GivesUp
  | .write p _ i i₀ => inferInstanceAs (Decidable (p = .fail ∧ i₀ < i))
  | .user | .read _ _ _ | .close _ _ | .ret _ => .isFalse id

/-- A `pipewrite` that gives up after it moved bytes finds no process at rest on
`&pi->nread`. -/
def PipeQuiet {N : ℕ} (s : State N PipeChan Pipe PipePc) : Label N PipeInput → Prop
  | .run t _ => (s.thread t).pc.GivesUp → ∀ u, ¬ s.Resting u .nread
  | .kill _ => True

instance {N : ℕ} (s : State N PipeChan Pipe PipePc) :
    (a : Label N PipeInput) → Decidable (PipeQuiet s a)
  | .run t _ => inferInstanceAs (Decidable ((s.thread t).pc.GivesUp → _))
  | .kill _ => .isTrue trivial

section Runs

variable {N : ℕ} {data : ℕ → UInt8} {s : State N PipeChan Pipe PipePc}
  {ok : State N PipeChan Pipe PipePc → Label N PipeInput → Prop}

theorem restOutline_ok (h : Machine.Reach (step pipeCode) ok (pipeStart N data) s) :
    (pipeOutline False).Ok pipeCode s :=
  pipeOutline_sound.ok (fun _ _ _ => pipeOutline_admits False.elim) pipeOutline_start h

/-- Of the points where a process gives up the lock, only the early return of `pipewrite`
can owe a wakeup. -/
theorem clean_of_quiet {a : Label N PipeInput} (hok : (pipeOutline False).Ok pipeCode s)
    (h : PipeQuiet s a) : pipeWake.Clean pipeCode s a := by
  cases a with
  | kill t => trivial
  | run t inp =>
    rintro hm ⟨k, hrel | ⟨c', hrel⟩⟩ c ho u
    · obtain ⟨hp, -⟩ := pipeCode_release hrel
      have hfact := (hok.held t ((hok.lock_iff t).2 ⟨hp, .inl hm⟩)).2
      simp only [PipeQuiet] at h
      rcases hpc : (s.thread t).pc with _ | ⟨p, n, i, i₀⟩ | ⟨p, n, i⟩ | ⟨p, w⟩ | v <;>
        rw [hpc] at hrel ho hfact <;> try cases hrel
      · cases p <;> cases hrel
        · exact absurd ho.2 (hfact.2.2 ▸ lt_irrefl _)
        · rw [ho.1]
          exact h (hpc ▸ ⟨rfl, ho.2⟩) u
      · cases p <;> cases hrel <;> simp [pipeWake] at ho
      · cases p <;> cases hrel <;> simp [pipeWake] at ho
    · obtain ⟨n, i, i₀, hpc, -, -⟩ | ⟨n, i, hpc, -, -⟩ := pipeCode_sleep hrel
      · have hp : (s.thread t).pc.Locked := by simp [hpc, PipePc.Locked]
        have hfact := (hok.held t ((hok.lock_iff t).2 ⟨hp, .inl hm⟩)).2
        rw [hpc] at ho hfact
        exact absurd ho.2 (hfact.2.2.1 ▸ lt_irrefl _)
      · rw [hpc] at ho
        simp [pipeWake] at ho

/-- In every run of any number of readers and writers in which the early return of
`pipewrite` strands nobody, a process is asleep on `&pi->nread` while the lock is free only
if the pipe is empty and open for writing, and on `&pi->nwrite` only if it is full and open
for reading. -/
theorem pipe_no_lost_wakeup (h : Machine.Reach (step pipeCode) PipeQuiet (pipeStart N data) s)
    (hl : s.lock = none) (t : Fin N) :
    ((s.thread t).mode = .asleep .nread →
      s.shared.nread = s.shared.nwrite ∧ s.shared.writeopen = true) ∧
    ((s.thread t).mode = .asleep .nwrite →
      s.shared.nwrite = s.shared.nread + BitVec.ofNat 32 PIPESIZE ∧ s.shared.readopen = true) := by
  have hidle {c : PipeChan} (ht : (s.thread t).mode = .asleep c) : pipeWake.idle c s.shared :=
    pipeWake_sound.no_lost_wakeup pipeOutline_sound
      (fun _ _ _ => pipeOutline_admits False.elim) (fun s a => clean_of_quiet)
      pipeOutline_start .start h hl (.inr ht)
  exact ⟨hidle, hidle⟩

/-- The early return that `PipeQuiet` excludes leaves a process at rest on `&pi->nread` with
bytes in the pipe and the lock free. -/
theorem pipe_early_return_strands (h : Machine.Reach (step pipeCode) ok (pipeStart N data) s)
    {t u : Fin N} {n : ℤ} {i i₀ : ℕ} (hpc : (s.thread t).pc = .write .fail n i i₀) (hi : i₀ < i)
    (hu : s.Resting u .nread) (inp : PipeInput) : ∃ s', step pipeCode s (.run t inp) = some s' ∧
      s'.lock = none ∧ s'.Resting u .nread ∧ s'.shared.nread ≠ s'.shared.nwrite := by
  have hok := restOutline_ok h
  have hcode : pipeCode (s.thread t).pc = .release (.ret (-1)) := by rw [hpc]; rfl
  have hawake : s.Awake t := hok.awake_of_code fun c k => by rw [hcode]; nofun
  have hl : s.lock = some t :=
    (hok.lock_iff t).2 ⟨by rw [hpc]; nofun, hawake⟩
  have hm : (s.thread t).mode = .running := by
    rcases hawake with hm | ⟨c, j, hm⟩
    · exact hm
    · obtain ⟨k, hk⟩ := hok.waking t c j hm
      rw [hcode] at hk
      cases hk
  have hut : u ≠ t := by
    rintro rfl
    exact State.not_awake_of_resting hu hawake
  have hne := (hok.held t hl).2
  rw [hpc] at hne
  refine ⟨{ s.goto t (.ret (-1)) with lock := none }, ?_, rfl, ?_, hne.2.1 hi⟩
  · simp [step, runStep, hm, hcode, hl]
  · simpa [State.Resting, hut] using hu

end Runs

/-- A step of process `t`, should it be at a call or at a copy. -/
def pipeRun (t : Fin 2) (c : PipeCall) : Label 2 PipeInput :=
  .run t { call := c, copyin := some 7, copyout := true }

/-- Process `0` falls asleep in `piperead`, then process `1` moves one byte of two and is
killed before it looks at its flag again. -/
def killBetweenBytes : List (Label 2 PipeInput) :=
  List.replicate 6 (pipeRun 0 (.piperead 1)) ++ List.replicate 7 (pipeRun 1 (.pipewrite 2)) ++
    [.kill 1] ++ List.replicate 4 (pipeRun 1 (.pipewrite 2))

theorem pipe_kill_between_bytes : ∃ s,
    Machine.Reach (step pipeCode) (fun _ _ => True) (pipeStart 2 fun _ => 0) s ∧
      s.lock = none ∧ (s.thread 0).mode = .asleep .nread ∧ s.shared.nread ≠ s.shared.nwrite :=
  ⟨_, Machine.reach_of_exec _ (l := killBetweenBytes) rfl, rfl, rfl, by decide⟩

theorem pipe_early_return_strands_reader : ∃ s s',
    Machine.Reach (step pipeCode) (fun _ _ => True) (pipeStart 2 fun _ => 0) s ∧
      step pipeCode s (pipeRun 1 (.pipewrite 2)) = some s' ∧
      s'.lock = none ∧ s'.Resting 0 .nread ∧ s'.shared.nread ≠ s'.shared.nwrite := by
  have hr : Machine.Reach (step pipeCode) _ (pipeStart 2 fun _ => 0) _ :=
    Machine.reach_of_exec (fun _ _ => True) (l := killBetweenBytes.dropLast) rfl
  obtain ⟨s', hs'⟩ := pipe_early_return_strands hr (t := 1) (u := 0) rfl
    (by decide) (.inr rfl) _
  exact ⟨_, s', hr, hs'⟩

/-- The reader of the same run, before the writer comes. -/
theorem pipe_no_lost_wakeup_reader : ∃ s,
    Machine.Reach (step pipeCode) PipeQuiet (pipeStart 2 fun _ => 0) s ∧ s.lock = none ∧
      (s.thread 0).mode = .asleep .nread ∧ s.shared.nread = s.shared.nwrite :=
  have hr := Machine.reach_of_exec PipeQuiet (l := killBetweenBytes.take 6) rfl
  ⟨_, hr, rfl, rfl, ((pipe_no_lost_wakeup hr rfl 0).1 rfl).1⟩

end Xv6
