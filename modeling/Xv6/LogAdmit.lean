import Mathlib.Data.List.Nodup
import Xv6.Monitor

/-!
# Admission to the log

`begin_op`, `log_write` and `end_op` of `log.c` as programs over `log.lock`. `begin_op`
admits an operation while `MAXOPBLOCKS` blocks for it and for every operation under way fit
in the log, and otherwise sleeps on `&log`. `log_write` panics on a log that is full, and
otherwise records the block number unless it is there already. The `end_op` of the last
operation commits, which empties the log.

The log counts as full with `log.size - 1` blocks. `mkfs` gives it `LOGSIZE` blocks, one of
them the header, and `begin_op` hands out all `LOGSIZE` ; so three operations of
`MAXOPBLOCKS` distinct blocks each are admitted together and the last `log_write` of the
last one panics (`log_write_panics`). A `log_write` does not panic as long as the operations
of its group have written fewer than `LOGSIZE - 1` distinct blocks (`log_write_fits`).

Two ghosts record what was asked for : `written`, the distinct blocks passed to `log_write`
since the last commit, and with each operation the distinct blocks it wrote and how many of
them were new to the log.
-/

namespace Xv6

open Monitor Function

/-- `param.h` -/
def MAXOPBLOCKS : ℕ := 10

/-- `param.h` -/
def LOGSIZE : ℕ := MAXOPBLOCKS * 3

/-- `nlog` of `mkfs.c`, the blocks of the on-disk log. -/
def nlog : ℕ := LOGSIZE

/-- `struct log`, without what only commits use. `block` is `lh.block[0..lh.n)`. -/
structure LogState where
  size : ℕ
  outstanding : ℕ
  committing : Bool
  block : List ℕ
  /-- the distinct blocks passed to `log_write` since the last commit -/
  written : List ℕ
  deriving DecidableEq, Repr

/-- What an operation has done so far. -/
structure OpLog where
  /-- the distinct blocks it passed to `log_write` -/
  blocks : List ℕ
  /-- how many of them it added to the log -/
  fresh : ℕ
  deriving DecidableEq, Repr

inductive LogPanic
  /-- "too big a transaction" -/
  | tooBig
  /-- "log_write outside of trans" -/
  | outside
  /-- "log.committing" -/
  | committing
  deriving DecidableEq, Repr

inductive BeginPt
  | acquire
  | test
  | sleep
  | release
  deriving DecidableEq, Repr

inductive LogWritePt
  | acquire
  | record
  | release
  deriving DecidableEq, Repr

inductive EndPt
  | acquire (w : OpLog)
  | update (w : OpLog)
  /-- others are under way -/
  | wakeup
  | release
  /-- `do_commit` is 1 -/
  | unlock
  | commit
  | relock
  | clear
  deriving DecidableEq, Repr

inductive LogPc
  | user
  | begin_op (p : BeginPt)
  /-- in an operation, outside the log's functions -/
  | op (w : OpLog)
  | log_write (p : LogWritePt) (b : ℕ) (w : OpLog)
  | end_op (p : EndPt)
  | panic (m : LogPanic) (w : Option OpLog)
  deriving DecidableEq, Repr

inductive LogCall
  | begin_op
  | log_write (b : ℕ)
  | end_op
  deriving DecidableEq, Repr

namespace LogState

/-- `log.lh.n` -/
def n (s : LogState) : ℕ := s.block.length

/-- `begin_op`'s tests. -/
def admits (s : LogState) : Bool :=
  !s.committing && decide (s.n + (s.outstanding + 1) * MAXOPBLOCKS ≤ LOGSIZE)

/-- `log_write` after its checks : `log.lh.block` with absorption. -/
def record (s : LogState) (b : ℕ) : LogState :=
  { s with
    block := if b ∈ s.block then s.block else s.block ++ [b]
    written := s.written.insert b }

/-- `log_write(b)`, with `log.lock` held, by an operation that has done `w`. -/
def log_write (s : LogState) (b : ℕ) (w : OpLog) : LogState × LogPc :=
  if LOGSIZE ≤ s.n ∨ s.size - 1 ≤ s.n then (s, .panic .tooBig (some w))
  else if s.outstanding < 1 then (s, .panic .outside (some w))
  else (s.record b, .log_write .release b
    { blocks := w.blocks.insert b, fresh := if b ∈ s.block then w.fresh else w.fresh + 1 })

/-- `end_op`, with `log.lock` held. -/
def end_op (s : LogState) : LogState × LogPc :=
  let s := { s with outstanding := s.outstanding - 1 }
  if s.committing then (s, .panic .committing none)
  else if s.outstanding = 0 then ({ s with committing := true }, .end_op .unlock)
  else (s, .end_op .wakeup)

end LogState

/-- The programs. `commit` is one step here : of the state of the log it only changes
`lh.n`, and it does so without `log.lock`. -/
def logCode : LogPc → Instr Unit LogState LogPc LogCall
  | .user => .act fun i s => if i = .begin_op then some (s, .begin_op .acquire) else none
  | .begin_op .acquire => .acquire (.begin_op .test)
  | .begin_op .test => .act fun _ s =>
      if s.admits then some ({ s with outstanding := s.outstanding + 1 }, .begin_op .release)
      else some (s, .begin_op .sleep)
  | .begin_op .sleep => .sleep () (.begin_op .test)
  | .begin_op .release => .release (.op ⟨[], 0⟩)
  | .op w => .act fun i s =>
      match i with
      | .begin_op => none
      | .log_write b => some (s, .log_write .acquire b w)
      | .end_op => some (s, .end_op (.acquire w))
  | .log_write .acquire b w => .acquire (.log_write .record b w)
  | .log_write .record b w => .act fun _ s => some (s.log_write b w)
  | .log_write .release _ w => .release (.op w)
  | .end_op (.acquire w) => .acquire (.end_op (.update w))
  | .end_op (.update _) => .act fun _ s => some s.end_op
  | .end_op .wakeup => .wakeup () (.end_op .release)
  | .end_op .release => .release .user
  | .end_op .unlock => .release (.end_op .commit)
  | .end_op .commit => .act fun _ s => some ({ s with block := [], written := [] }, .end_op .relock)
  | .end_op .relock => .acquire (.end_op .clear)
  | .end_op .clear => .act fun _ s => some ({ s with committing := false }, .end_op .wakeup)
  | .panic _ _ => .act fun _ _ => none

/-- After `initlog` on a disk made by `mkfs` : the log is empty. -/
def logStart (N : ℕ) : State N Unit LogState LogPc :=
  .start N Unit ⟨nlog, 0, false, [], []⟩ .user

/-! ## What the programs do to the log -/

/-- What a process is doing to the log. -/
inductive LogKind
  | out
  /-- in an operation, counted in `outstanding` -/
  | active (w : OpLog)
  /-- committing, with the log's blocks still in it -/
  | committing
  /-- committing, with the log emptied -/
  | cleared

def LogPc.kind : LogPc → LogKind
  | .user | .begin_op .acquire | .begin_op .test | .begin_op .sleep => .out
  | .begin_op .release => .active ⟨[], 0⟩
  | .op w | .log_write _ _ w | .end_op (.acquire w) | .end_op (.update w) => .active w
  | .end_op .wakeup | .end_op .release => .out
  | .end_op .unlock | .end_op .commit => .committing
  | .end_op .relock | .end_op .clear => .cleared
  | .panic _ (some w) => .active w
  | .panic _ none => .out

theorem kind_of_next {p k : LogPc} (h : (logCode p).Next k) :
    k.kind = p.kind ∧ ∀ m w, k ≠ .panic m w := by
  generalize hc : logCode p = c at h
  cases h <;> (unfold logCode at hc; split at hc <;> cases hc <;> exact ⟨rfl, nofun⟩)

/-- The points reached with `log.lock` held. -/
def LogPc.Locked : LogPc → Prop
  | .begin_op p => p ≠ .acquire
  | .log_write p _ _ => p ≠ .acquire
  | .end_op (.acquire _) | .end_op .commit | .end_op .relock => False
  | .end_op _ | .panic _ _ => True
  | .user | .op _ => False

/-- What the actions of the programs do, from the shared state `s`. -/
inductive LogAct (s : LogState) : LogPc → LogState → LogPc → Prop
  | call {p k} (hkind : k.kind = p.kind) (hp : ¬ p.Locked) (hk : ¬ k.Locked) : LogAct s p s k
  | wait (ha : s.admits = false) : LogAct s (.begin_op .test) s (.begin_op .sleep)
  | enter (ha : s.admits = true) : LogAct s (.begin_op .test)
      { s with outstanding := s.outstanding + 1 } (.begin_op .release)
  | tooBig {b w} (h : LOGSIZE ≤ s.n ∨ s.size - 1 ≤ s.n) :
      LogAct s (.log_write .record b w) s (.panic .tooBig (some w))
  | outside {b w} (h : s.outstanding < 1) :
      LogAct s (.log_write .record b w) s (.panic .outside (some w))
  | record {b w} : LogAct s (.log_write .record b w) (s.record b) (.log_write .release b
      ⟨w.blocks.insert b, if b ∈ s.block then w.fresh else w.fresh + 1⟩)
  | late {w} (hc : s.committing = true) : LogAct s (.end_op (.update w))
      { s with outstanding := s.outstanding - 1 } (.panic .committing none)
  | last {w} (h0 : s.outstanding - 1 = 0) : LogAct s (.end_op (.update w))
      { s with outstanding := s.outstanding - 1, committing := true } (.end_op .unlock)
  | leave {w} (hc : s.committing = false) (h0 : s.outstanding - 1 ≠ 0) :
      LogAct s (.end_op (.update w)) { s with outstanding := s.outstanding - 1 } (.end_op .wakeup)
  | commit : LogAct s (.end_op .commit) { s with block := [], written := [] } (.end_op .relock)
  | clear : LogAct s (.end_op .clear) { s with committing := false } (.end_op .wakeup)

theorem logAct_of_code {p k : LogPc} {f : LogCall → LogState → Option (LogState × LogPc)}
    {i : LogCall} {s s' : LogState} (hc : logCode p = .act f) (hf : f i s = some (s', k)) :
    LogAct s p s' k := by
  unfold logCode at hc
  split at hc <;> cases hc <;> dsimp only [LogState.log_write, LogState.end_op] at hf
  · split at hf <;> cases hf
    exact .call rfl id (· rfl)
  · split at hf <;> cases hf
    · exact .enter ‹_›
    · exact .wait (Bool.eq_false_of_not_eq_true ‹_›)
  · split at hf <;> cases hf
    · exact .call rfl id (· rfl)
    · exact .call rfl id id
  · split at hf
    · cases hf
      exact .tooBig ‹_›
    · split at hf <;> cases hf
      · exact .outside ‹_›
      · exact .record
  · split at hf
    · cases hf
      exact .late ‹_›
    · split at hf <;> cases hf
      · exact .last ‹_›
      · exact .leave (Bool.eq_false_of_not_eq_true ‹_›) ‹_›
  · cases hf
    exact .commit
  · cases hf
    exact .clear
  · cases hf

/-- The distinct blocks the operation has passed to `log_write` when it comes to record
one. -/
def LogPc.asked : LogPc → List ℕ
  | .log_write .record b w => w.blocks.insert b
  | _ => []

/-- An operation passes at most `m` distinct blocks to `log_write`. -/
def OpFits (m : ℕ) (p : LogPc) (_ : LogState) (_ : LogCall) : Prop := p.asked.length ≤ m

instance (m : ℕ) (p : LogPc) (s : LogState) (i : LogCall) : Decidable (OpFits m p s i) :=
  inferInstanceAs (Decidable (_ ≤ _))

/-! ## The log holds what was written -/

/-- The log has the blocks written since the last commit, each once. -/
structure LogState.Exact (s : LogState) : Prop where
  size : s.size = LOGSIZE
  nodup : s.block.Nodup
  nodup_written : s.written.Nodup
  mem : ∀ b, b ∈ s.block ↔ b ∈ s.written

theorem LogState.Exact.length {s : LogState} (h : s.Exact) : s.n = s.written.length :=
  (List.perm_of_nodup_nodup_toFinset_eq h.nodup h.nodup_written
    (by ext b; simp [h.mem])).length_eq

theorem LogState.Exact.record {s : LogState} (h : s.Exact) (b : ℕ) : (s.record b).Exact := by
  refine ⟨h.size, ?_, h.nodup_written.insert, fun c => ?_⟩
  · unfold LogState.record
    split
    · exact h.nodup
    · rename_i hb
      refine List.nodup_append.mpr ⟨h.nodup, List.nodup_singleton b, fun a ha c hc he => ?_⟩
      obtain rfl : c = b := by simpa using hc
      exact hb (he ▸ ha)
  · unfold LogState.record
    dsimp only
    rw [List.mem_insert_iff, ← h.mem c]
    split <;> simp_all [or_comm]

theorem LogAct.exact {s s' : LogState} {p k : LogPc} (h : LogAct s p s' k) (hs : s.Exact) :
    s'.Exact := by
  cases h with
  | call | wait | tooBig | outside => exact hs
  | enter | late | last | leave | clear => exact ⟨hs.size, hs.nodup, hs.nodup_written, hs.mem⟩
  | commit => exact ⟨hs.size, List.nodup_nil, List.nodup_nil, by simp⟩
  | record => exact hs.record _

theorem exact_start (N : ℕ) : (logStart N).shared.Exact :=
  ⟨rfl, List.nodup_nil, List.nodup_nil, by simp [logStart, State.start]⟩

/-- The process is about to look at the log in `log_write`. -/
def LogPc.recording : LogPc → Bool
  | .log_write .record _ _ => true
  | _ => false

/-- A `log_write` finds fewer than `LOGSIZE - 1` distinct blocks written by the operations
of its group, those since the last commit. -/
def GroupFits (p : LogPc) (s : LogState) (_ : LogCall) : Prop :=
  p.recording = true → s.written.length < LOGSIZE - 1

instance (p : LogPc) (s : LogState) (i : LogCall) : Decidable (GroupFits p s i) :=
  inferInstanceAs (Decidable (_ → _))

theorem LogAct.not_groupFits {s s' : LogState} {p : LogPc} {i : LogCall} {w : Option OpLog}
    (h : LogAct s p s' (.panic .tooBig w)) (hs : s.Exact) : ¬ GroupFits p s i := by
  intro hfit
  cases h with
  | call _ _ hk => exact hk trivial
  | tooBig h =>
    have hn : s.n < LOGSIZE - 1 := hs.length ▸ hfit rfl
    have := hs.size
    omega

/-- The `log_write` that `GroupFits` excludes panics, even if its block is in the log. -/
theorem LogState.Exact.panics {s : LogState} (hs : s.Exact)
    (h : LOGSIZE - 1 ≤ s.written.length) (b : ℕ) (w : OpLog) :
    s.log_write b w = (s, .panic .tooBig (some w)) := by
  rw [LogState.log_write, if_pos]
  rw [hs.length, hs.size]
  exact .inr h

section Runs

variable {N : ℕ} {s : State N Unit LogState LogPc}

/-- What every action keeps of the log and the kinds of the processes holds in every run, and so
does what holds of every point that is reached. -/
theorem kinds_invariant {P : LogPc → LogState → LogCall → Prop}
    {J : LogState → (Fin N → LogKind) → Prop} {C : LogPc → Prop}
    (h₀ : J (logStart N).shared fun _ => .out) (huser : C .user)
    (hcall : ∀ k, (∀ m w, k ≠ .panic m w) → C k)
    (hact : ∀ {sh ks t p i sh' k}, J sh ks → p.kind = ks t → P p sh i → LogAct sh p sh' k →
      J sh' (update ks t k.kind) ∧ C k)
    (h : Machine.Reach (step logCode) (Meets P) (logStart N) s) :
    J s.shared (fun t => (s.points t).kind) ∧ ∀ t, C (s.points t) := by
  have hupd : ∀ (pts : Fin N → LogPc) (t : Fin N) (k : LogPc),
      (fun u => (update pts t k u).kind) = update (fun u => (pts u).kind) t k.kind :=
    fun pts t k => funext (apply_update (fun _ p => LogPc.kind p) pts t k)
  have hall : ∀ (pts : Fin N → LogPc) (t : Fin N) (k : LogPc), (∀ t, C (pts t)) → C k →
      ∀ u, C (update pts t k u) := fun pts t k hpts hk =>
    (forall_update_iff pts (p := fun _ p => C p)).2 ⟨hk, fun u _ => hpts u⟩
  have hstart : J (logStart N).shared (fun t => ((logStart N).points t).kind) ∧
      ∀ t, C ((logStart N).points t) := ⟨h₀, fun _ => huser⟩
  refine points_invariant (J := fun sh pts => J sh (fun t => (pts t).kind) ∧ ∀ t, C (pts t))
    hstart ?_ ?_ h
  · rintro sh pts t k ⟨hJ, hpts⟩ hn
    obtain ⟨hk, hne⟩ := kind_of_next hn
    refine ⟨?_, hall pts t k hpts (hcall k hne)⟩
    rw [hupd, hk, update_eq_self]
    exact hJ
  · rintro sh pts t i f sh' k ⟨hJ, hpts⟩ hP hc hf
    obtain ⟨hJ', hk⟩ := hact hJ rfl hP (logAct_of_code hc hf)
    refine ⟨?_, hall pts t k hpts hk⟩
    rw [hupd]
    exact hJ'

/-- In every run of any number of processes in which each `log_write` finds fewer than
`LOGSIZE - 1` distinct blocks written by the operations of its group, no `log_write` comes
to "too big a transaction". -/
theorem log_write_fits (h : Machine.Reach (step logCode) (Meets GroupFits) (logStart N) s)
    (t : Fin N) (w : Option OpLog) : (s.thread t).pc ≠ .panic .tooBig w := by
  refine (kinds_invariant (J := fun sh _ => sh.Exact) (C := fun p => ∀ w, p ≠ .panic .tooBig w)
    (exact_start N) nofun (fun _ hk => hk _) (fun hex _ hfit ha => ⟨ha.exact hex, ?_⟩) h).2 t w
  rintro w rfl
  exact ha.not_groupFits hex hfit

end Runs

/-- Process `t` begins an operation and passes the blocks `bs` to `log_write`. -/
def logOp {N : ℕ} (t : Fin N) (bs : List ℕ) : List (Label N LogCall) :=
  List.replicate 4 (.run t .begin_op) ++
    bs.flatMap fun b => List.replicate 4 (.run t (.log_write b))

/-- Two operations of ten blocks each share the log. -/
theorem log_write_fits_twenty : ∃ s : State 2 Unit LogState LogPc,
    Machine.Reach (step logCode) (Meets GroupFits) (logStart 2) s ∧ s.shared.n = 20 ∧
      ∀ w, (s.thread 1).pc ≠ .panic .tooBig w := by
  obtain ⟨s, hr, hn⟩ := Machine.exists_reach_of_exec (step logCode) (Meets GroupFits)
    (fun s : State 2 Unit LogState LogPc => s.shared.n = 20) (s := logStart 2)
    (l := logOp 0 (List.range 10) ++ logOp 1 (List.range' 10 10)) (by decide +kernel)
  exact ⟨s, hr, by simpa using hn, log_write_fits hr 1⟩

/-- Three operations are admitted together and pass ten distinct blocks each to
`log_write`. The last one of the thirty panics. -/
theorem log_write_panics : ∃ s : State 3 Unit LogState LogPc,
    Machine.Reach (step logCode) (Meets (OpFits MAXOPBLOCKS)) (logStart 3) s ∧
      ∃ w, (s.thread 2).pc = .panic .tooBig w := by
  obtain ⟨s, hr, hp⟩ := Machine.exists_reach_of_exec (step logCode)
    (Meets (OpFits MAXOPBLOCKS))
    (fun s : State 3 Unit LogState LogPc => (s.thread 2).pc matches .panic .tooBig _)
    (s := logStart 3) (l := logOp 0 [] ++ logOp 1 [] ++ logOp 2 [] ++
      ((logOp 0 (List.range 10)).drop 4 ++ (logOp 1 (List.range' 10 10)).drop 4 ++
        (logOp 2 (List.range' 20 10)).drop 4).dropLast) (by decide +kernel)
  refine ⟨s, hr, ?_⟩
  split at hp
  · exact ⟨_, ‹_›⟩
  · cases hp

/-! ## Who is in an operation -/

namespace LogKind

/-- Whether the process is counted in `outstanding`. -/
def count : LogKind → ℕ
  | .active _ => 1
  | _ => 0

/-- How many more blocks an operation of at most `MAXOPBLOCKS - 1` blocks can add. -/
def room : LogKind → ℕ
  | .active w => MAXOPBLOCKS - 1 - w.fresh
  | _ => 0

/-- The process is in `commit`. -/
def commits : LogKind → Prop
  | .committing | .cleared => True
  | _ => False

@[simp] theorem count_out : out.count = 0 := rfl
@[simp] theorem count_active (w : OpLog) : (active w).count = 1 := rfl
@[simp] theorem count_committing : committing.count = 0 := rfl
@[simp] theorem count_cleared : cleared.count = 0 := rfl
@[simp] theorem room_out : out.room = 0 := rfl
@[simp] theorem room_active (w : OpLog) : (active w).room = MAXOPBLOCKS - 1 - w.fresh := rfl
@[simp] theorem room_committing : committing.room = 0 := rfl
@[simp] theorem room_cleared : cleared.room = 0 := rfl
@[simp] theorem commits_out : ¬ out.commits := id
@[simp] theorem commits_committing : committing.commits := trivial
@[simp] theorem commits_cleared : cleared.commits := trivial

theorem room_le (k : LogKind) : k.room ≤ (MAXOPBLOCKS - 1) * k.count := by
  cases k <;> simp

end LogKind

end Xv6
