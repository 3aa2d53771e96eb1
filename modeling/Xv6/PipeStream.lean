import Xv6.Pipe

/-!
# A pipe is a byte stream

The invariant of a pipe (`Pipe.Stream`) and what a process knows at each point where it holds
`pi->lock` (`PipePc.Fact`) are one outline for `Monitor`, with a parameter : whether the runs
are those in which every user page is mapped. In these runs what the readers got so far is
what the writers put in, without the bytes still in the ring. The indices `nread` and `nwrite`
count modulo `2 ^ 32`, which `PIPESIZE` divides, so the ring does not notice their wrap.
-/

namespace Xv6

open Monitor

theorem PIPESIZE_dvd : PIPESIZE ∣ 2 ^ 32 := ⟨2 ^ 23, by decide⟩

theorem PIPESIZE_lt : PIPESIZE < 2 ^ 32 := by decide

namespace Pipe

/-- The ring holds at most `PIPESIZE` bytes; in the runs in which no copy fails they are the
accepted bytes that were not delivered. -/
def Stream (mapped : Prop) (pi : Pipe) : Prop :=
  ∃ q, Ring.Holds PIPESIZE pi.data pi.nread pi.nwrite q ∧
    (mapped → pi.accepted = pi.delivered ++ q)

variable {mapped : Prop} {pi : Pipe}

theorem stream_alloc (data : ℕ → UInt8) : (alloc data).Stream mapped :=
  ⟨[], .nil _ _, fun _ => rfl⟩

theorem Stream.put (h : pi.Stream mapped) (hf : ¬ pi.Full) (ch : UInt8) :
    (pi.put ch).Stream mapped ∧ ¬ (pi.put ch).Empty := by
  obtain ⟨q, hq, ha⟩ := h
  have hlen : q.length < PIPESIZE :=
    lt_of_le_of_ne hq.le fun he => hf ((hq.eq_add_iff_full PIPESIZE_lt).2 he)
  have hpush := hq.push PIPESIZE_dvd hlen ch
  refine ⟨⟨q ++ [ch], hpush, fun hm => ?_⟩, fun he => ?_⟩
  · simp [Pipe.put, ha hm]
  · simpa using (hpush.eq_iff_nil PIPESIZE_lt).1 he

theorem Stream.get (h : pi.Stream mapped) (he : ¬ pi.Empty) {b : Bool} (hb : mapped → b) :
    (pi.get b).Stream mapped := by
  obtain ⟨q, hq, ha⟩ := h
  cases q with
  | nil => exact absurd ((hq.eq_iff_nil PIPESIZE_lt).2 rfl) he
  | cons x q =>
    refine ⟨q, hq.pop, fun hm => ?_⟩
    simp [Pipe.get, ha hm, hb hm, hq.head]

theorem Stream.shut (h : pi.Stream mapped) (w : Bool) : (pi.shut w).Stream mapped := by
  cases w <;> exact h

/-- No byte is lost : those not delivered are the ones the counters count. -/
theorem Stream.count (h : pi.Stream True) : pi.delivered <+: pi.accepted ∧
    pi.accepted.length = pi.delivered.length + (pi.nwrite - pi.nread).toNat ∧
    (pi.nwrite - pi.nread).toNat ≤ PIPESIZE := by
  obtain ⟨q, hq, ha⟩ := h
  rw [hq.length_eq PIPESIZE_lt, ha trivial]
  exact ⟨List.prefix_append _ _, List.length_append, hq.le⟩

theorem Stream.eq_of_empty (h : pi.Stream True) (he : pi.Empty) :
    pi.delivered = pi.accepted := by
  obtain ⟨q, hq, ha⟩ := h
  rw [ha trivial, (hq.eq_iff_nil PIPESIZE_lt).1 he, List.append_nil]

end Pipe

/-- Every user page is mapped. -/
def PipeInput.Mapped (inp : PipeInput) : Prop :=
  inp.copyin.isSome ∧ inp.copyout

instance (inp : PipeInput) : Decidable inp.Mapped := inferInstanceAs (Decidable (_ ∧ _))

/-- The runs in which no copy from or to a user page fails. -/
def PipeMapped {N : ℕ} (_ : State N PipeChan Pipe PipePc) : Label N PipeInput → Prop
  | .run _ inp => inp.Mapped
  | .kill _ => True

instance {N : ℕ} (s : State N PipeChan Pipe PipePc) :
    (a : Label N PipeInput) → Decidable (PipeMapped s a)
  | .run _ inp => inferInstanceAs (Decidable inp.Mapped)
  | .kill _ => .isTrue trivial

/-- What a process knows while it holds the lock. A writer knows why it is about to sleep, and
that the bytes it moved since it took the lock are in the pipe. Until its first byte a reader
knows that the pipe is not both empty and open for writing; once it stops without a byte and
no copy failed, the pipe is empty and closed. -/
def PipePc.Fact (mapped : Prop) : PipePc → Pipe → Prop
  | .write p _ i i₀, pi => i₀ ≤ i ∧ (i₀ < i → ¬ pi.Empty) ∧
      match p with
      | .killed | .full => pi.readopen
      | .wake => pi.Full ∧ pi.readopen
      | .sleep => i₀ = i ∧ pi.Full ∧ pi.readopen
      | .copy => ¬ pi.Full
      | .release => i₀ = i
      | _ => True
  | .read .killed _ _, pi | .read .sleep _ _, pi => pi.Empty ∧ pi.writeopen
  | .read .copy _ i, pi => i = 0 → pi.Empty → ¬ pi.writeopen
  | .read .done n i, pi | .read .release n i, pi =>
      mapped → i = 0 → 0 < n → pi.Empty ∧ ¬ pi.writeopen
  | _, _ => True

def pipeOutline (mapped : Prop) : Outline PipePc Pipe PipeInput where
  crit p := p.Locked
  inv pi := pi.Stream mapped
  asrt p pi := pi.Stream mapped ∧ p.Fact mapped pi
  admits _ inp := mapped → inp.Mapped

variable {mapped : Prop}

theorem pipeOutline_act {p : PipePc} {f : PipeInput → Pipe → Option (Pipe × PipePc)}
    {inp : PipeInput} {pi pi' : Pipe} {k : PipePc} (hc : pipeCode p = .act f) (hp : p.Locked)
    (hi : mapped → inp.Mapped) (hs : pi.Stream mapped) (hr : p.Fact mapped pi)
    (hf : f inp pi = some (pi', k)) : k.Locked ∧ pi'.Stream mapped ∧ k.Fact mapped pi' := by
  cases p with
  | user => exact hp.elim
  | ret v => exact hp.elim
  | write p n i i₀ =>
    obtain ⟨hle, hne, hfact⟩ := hr
    cases p <;> simp only [pipeCode, pipewrite, Instr.act.injEq, reduceCtorEq] at hc <;> subst hc
    case loop =>
      cases hf
      by_cases hin : (i : ℤ) < n <;> simpa [PipePc.Locked, PipePc.Fact, hin, hs, hle] using hne
    case readopen =>
      cases hf
      cases ho : pi.readopen <;> simpa [PipePc.Locked, PipePc.Fact, ho, hs, hle] using hne
    case full =>
      cases hf
      by_cases hfl : pi.Full <;>
        simpa [PipePc.Locked, PipePc.Fact, hfl, hs, hle, show pi.readopen from hfact] using hne
    case copy =>
      dsimp only at hf
      cases hcopy : inp.copyin with
      | none =>
        rw [hcopy] at hf
        cases hf
        exact ⟨by simp [PipePc.Locked], hs, hle, hne, trivial⟩
      | some ch =>
        rw [hcopy] at hf
        cases hf
        obtain ⟨hs', hne'⟩ := hs.put hfact ch
        exact ⟨by simp [PipePc.Locked], hs', by omega, fun _ => hne', trivial⟩
  | read p n i =>
    cases p <;> simp only [pipeCode, piperead, Instr.act.injEq, reduceCtorEq] at hc <;> subst hc
    case empty =>
      cases hf
      refine ⟨?_, hs, ?_⟩ <;> split <;> simp_all [PipePc.Locked, PipePc.Fact]
    case copy =>
      dsimp only at hf
      split at hf
      · rename_i hne
        cases hf
        refine ⟨?_, hs.get hne.2 fun hm => (hi hm).2, ?_⟩ <;> split
        · simp [PipePc.Locked]
        · simp [PipePc.Locked]
        · simp [PipePc.Fact]
        · rename_i hout
          exact fun hm => absurd (hi hm).2 hout
      · rename_i hne
        cases hf
        refine ⟨by simp [PipePc.Locked], hs, fun _ hi0 hn => ?_⟩
        subst hi0
        have he : pi.Empty := by
          by_contra he
          exact hne ⟨by simpa using hn, he⟩
        exact ⟨he, hr rfl he⟩
  | close p w =>
    cases p <;> simp only [pipeCode, pipeclose, Instr.act.injEq, reduceCtorEq] at hc <;> subst hc
    case shut =>
      cases hf
      exact ⟨by simp [PipePc.Locked], hs.shut w, trivial⟩
    case test =>
      cases hf
      refine ⟨?_, hs, trivial⟩
      split <;> simp [PipePc.Locked]

theorem pipeOutline_sound : (pipeOutline mapped).Sound pipeCode where
  acquire h := by
    obtain ⟨hp, ⟨n, rfl⟩ | ⟨n, rfl⟩ | ⟨w, rfl⟩⟩ := pipeCode_acquire h
    · exact ⟨hp, nofun, fun _ hs => ⟨hs, le_rfl, fun h => absurd h (lt_irrefl 0), trivial⟩⟩
    all_goals exact ⟨hp, nofun, fun _ hs => ⟨hs, trivial⟩⟩
  release h := by
    obtain ⟨hp, v, rfl⟩ := pipeCode_release h
    exact ⟨hp, id, fun _ hs => hs.1⟩
  sleep h := by
    obtain ⟨n, i, i₀, rfl, rfl, rfl⟩ | ⟨n, i, rfl, rfl, rfl⟩ := pipeCode_sleep h
    · exact ⟨nofun, nofun, fun _ hs => hs.1,
        fun _ hs => ⟨hs, le_rfl, fun h => absurd h (lt_irrefl i), trivial⟩⟩
    · exact ⟨nofun, nofun, fun _ hs => hs.1, fun _ hs => ⟨hs, trivial⟩⟩
  wakeup h := by
    obtain ⟨n, i, i₀, rfl, rfl, rfl⟩ | ⟨n, i, i₀, rfl, rfl, rfl⟩ | ⟨n, i, rfl, rfl, rfl⟩ |
      ⟨w, rfl, rfl, rfl⟩ := pipeCode_wakeup h
    · exact ⟨nofun, nofun,
        fun _ h => ⟨h.1, le_rfl, fun h => absurd h (lt_irrefl i), rfl, h.2.2.2⟩⟩
    · exact ⟨nofun, nofun, fun _ h => ⟨h.1, le_rfl, fun h => absurd h (lt_irrefl i), rfl⟩⟩
    · exact ⟨nofun, nofun, fun _ h => h⟩
    · exact ⟨nofun, nofun, fun _ h => ⟨h.1, trivial⟩⟩
  killed h b := by
    obtain ⟨n, i, i₀, rfl, rfl⟩ | ⟨n, i, rfl, rfl⟩ := pipeCode_killed h
    · refine ⟨by cases b <;> simp [pipeOutline, PipePc.Locked], fun _ _ h => ?_⟩
      cases b
      · exact h
      · exact ⟨h.1, h.2.1, h.2.2.1, trivial⟩
    · refine ⟨by cases b <;> simp [pipeOutline, PipePc.Locked], fun _ _ h => ?_⟩
      cases b
      · exact h
      · exact ⟨h.1, trivial⟩
  act hc hp hi hs hf := pipeOutline_act hc hp hi hs.1 hs.2 hf
  actFree hc hp _ hf := by
    obtain ⟨hk, rfl⟩ := pipeCode_actFree hc hp hf
    exact ⟨hk, id, fun _ _ => id⟩

section Runs

variable {N : ℕ} {data : ℕ → UInt8} {s : State N PipeChan Pipe PipePc}

theorem pipeOutline_admits {a : Label N PipeInput} (h : mapped → PipeMapped s a) :
    (pipeOutline mapped).Admitted s a := by
  cases a with
  | run t inp => exact h
  | kill t => trivial

theorem pipeOutline_start : (pipeOutline mapped).Ok pipeCode (pipeStart N data) :=
  .start id (Pipe.stream_alloc data)

theorem pipeOutline_ok (h : Machine.Reach (step pipeCode) PipeMapped (pipeStart N data) s) :
    (pipeOutline True).Ok pipeCode s :=
  pipeOutline_sound.ok (fun _ _ ha => pipeOutline_admits fun _ => ha) pipeOutline_start h

/-- The stream is intact whether or not somebody holds the lock. -/
theorem stream_of_reach (h : Machine.Reach (step pipeCode) PipeMapped (pipeStart N data) s) :
    s.shared.Stream True := by
  have hok := pipeOutline_ok h
  cases hl : s.lock with
  | none => exact hok.free hl
  | some t => exact (hok.held t hl).1

/-- In every run of any number of processes with all user pages mapped, the delivered bytes
are a prefix of the accepted ones, exactly the `nwrite - nread` unread bytes are missing
from it and these are at most `PIPESIZE`; a `piperead` of `n > 0` bytes that is about to
return `0` finds the write end closed and every accepted byte delivered. -/
theorem pipe_stream (h : Machine.Reach (step pipeCode) PipeMapped (pipeStart N data) s) :
    s.shared.delivered <+: s.shared.accepted ∧
    s.shared.accepted.length =
      s.shared.delivered.length + (s.shared.nwrite - s.shared.nread).toNat ∧
    (s.shared.nwrite - s.shared.nread).toNat ≤ PIPESIZE ∧
    ∀ t n, 0 < n → (s.thread t).pc = .read .release n 0 →
      s.shared.writeopen = false ∧ s.shared.delivered = s.shared.accepted := by
  have hs := stream_of_reach h
  refine ⟨hs.count.1, hs.count.2.1, hs.count.2.2, fun t n hn hpc => ?_⟩
  have hok := pipeOutline_ok h
  have hl : s.lock = some t := by
    refine (hok.lock_iff t).2 ⟨by rw [hpc]; nofun, ?_⟩
    exact hok.awake_of_code fun c k => by simp [hpc, pipeCode, piperead]
  have hfact := (hok.held t hl).2
  rw [hpc] at hfact
  obtain ⟨he, hw⟩ := hfact trivial rfl hn
  exact ⟨by simpa using hw, hs.eq_of_empty he⟩

end Runs

/-- One process writes a byte and closes the write end, the other reads twice. -/
def writeCloseRead : List (Label 2 PipeInput) :=
  let run (t : Fin 2) (k : ℕ) (c : PipeCall) : List (Label 2 PipeInput) :=
    List.replicate k (.run t { call := c, copyin := some 7, copyout := true })
  run 0 14 (.pipewrite 1) ++ run 0 10 (.pipeclose true) ++ run 1 11 (.piperead 2) ++
    run 1 8 (.piperead 2)

theorem pipe_stream_at_end : ∃ s,
    Machine.Reach (step pipeCode) PipeMapped (pipeStart 2 fun _ => 0) s ∧
      (s.thread 1).pc = .read .release 2 0 ∧ s.shared.delivered = [7] ∧
      s.shared.delivered = s.shared.accepted :=
  have hr := Machine.reach_of_exec PipeMapped (l := writeCloseRead) rfl
  ⟨_, hr, rfl, rfl, ((pipe_stream hr).2.2.2 1 2 (by decide) rfl).2⟩

end Xv6
