import Xv6.Machine
import Xv6.Ring

/-!
# The console's line discipline

`consoleintr` and `consoleread` run under `cons.lock`, which `consoleread` gives up only to sleep.
So a run is a sequence of calls of `consoleintr` and of the stretches of `consoleread` between its
sleeps, by any processes (`ConsoleAct`). A process may be woken at any time; whether it has been
killed is an input of each stretch.

The reference is an editor with the line that is being typed and the bytes that are ready to be
read (`Editor`). The ring between `cons.r` and `cons.w` holds what is ready, and between `cons.w`
and `cons.e` the line (`Refines`), so the console and the editor do the same at every step
(`Refines.intr`, `Refines.read`). `console_discipline` puts this together with what the editor
does: every byte that was committed, except `^D`, is given to a reader once and in order.
-/

namespace Xv6

open Function

/-! ## The model -/

def INPUT_BUF_SIZE : ℕ := 128

/-- `C(x)` -/
def ctrl (x : Char) : UInt8 := x.toUInt8 - '@'.toUInt8

/-- `cons`, and what was sent to the uart. -/
structure Console where
  buf : ℕ → UInt8
  r : BitVec 32
  w : BitVec 32
  e : BitVec 32
  uart : List UInt8

namespace Console

def consputc (s : Console) (c : UInt8) : Console := { s with uart := s.uart ++ [c] }

/-- `cons.e--; consputc(BACKSPACE);` -/
def erase (s : Console) : Console :=
  { s with e := s.e - 1#32, uart := s.uart ++ ['\x08'.toUInt8, ' '.toUInt8, '\x08'.toUInt8] }

/-- The loop of `^U`, which takes at most `cons.e - cons.w` rounds. -/
def killLine : ℕ → Console → Console
  | 0, s => s
  | n + 1, s =>
    if s.e ≠ s.w ∧ s.buf (Ring.slot INPUT_BUF_SIZE (s.e - 1#32)) ≠ '\n'.toUInt8 then
      killLine n s.erase
    else s

/-- What `procdump` prints is left out. -/
def consoleintr (c : UInt8) (s : Console) : Console :=
  if c = ctrl 'P' then s
  else if c = ctrl 'U' then killLine (s.e - s.w).toNat s
  else if c = ctrl 'H' ∨ c = '\x7f'.toUInt8 then
    if s.e ≠ s.w then s.erase else s
  else if c ≠ 0 ∧ (s.e - s.r).toNat < INPUT_BUF_SIZE then
    let c := if c = '\r'.toUInt8 then '\n'.toUInt8 else c
    let s := s.consputc c
    let s := { s with buf := update s.buf (Ring.slot INPUT_BUF_SIZE s.e) c, e := s.e + 1#32 }
    if c = '\n'.toUInt8 ∨ c = ctrl 'D' ∨ (s.e - s.r).toNat = INPUT_BUF_SIZE then
      { s with w := s.e }
    else s
  else s

end Console

/-- Why `consoleread` has ended. -/
inductive ReadEnd
  | full | newline | eof | killed
deriving DecidableEq

namespace Console

/-- The loop of `consoleread`, with `n` bytes to go, until it ends or has to sleep: the bytes it
copies out, and why it ends. -/
def readLoop (target : ℕ) (killed : Bool) : ℕ → Console → Console × List UInt8 × Option ReadEnd
  | 0, s => (s, [], some .full)
  | n + 1, s =>
    if s.r = s.w then (s, [], if killed then some .killed else none)
    else
      let c := s.buf (Ring.slot INPUT_BUF_SIZE s.r)
      let s := { s with r := s.r + 1#32 }
      if c = ctrl 'D' then
        (if n + 1 < target then { s with r := s.r - 1#32 } else s, [], some .eof)
      else if c = '\n'.toUInt8 then (s, [c], some .newline)
      else
        let x := readLoop target killed n s
        (x.1, c :: x.2.1, x.2.2)

end Console

/-! ## Runs -/

/-- A call of `consoleread`, and the bytes it has copied out. -/
structure ReadCall where
  target : ℕ
  got : List UInt8

/-- A call of `consoleread` that has ended. -/
structure ReadDone (ι : Type) where
  who : ι
  target : ℕ
  got : List UInt8
  how : ReadEnd

/-- What the call returned. -/
def ReadDone.value {ι : Type} (x : ReadDone ι) : ℤ :=
  if x.how = .killed then -1 else x.got.length

inductive ConsoleAct (ι : Type)
  /-- A character arrives. -/
  | consoleintr (c : UInt8)
  /-- A process calls `consoleread` for `n` bytes. -/
  | consoleread (p : ι) (n : ℤ) (killed : Bool)
  /-- A process goes on after a sleep. -/
  | resume (p : ι) (killed : Bool)

/-- The device, the calls under way, all the bytes that were copied out, and the calls that have
ended. -/
structure ConsoleState (ι σ : Type) where
  dev : σ
  call : ι → Option ReadCall
  given : List UInt8
  reads : List (ReadDone ι)

namespace ConsoleState

variable {ι σ : Type} [DecidableEq ι]

def start (dev : σ) : ConsoleState ι σ := ⟨dev, fun _ => none, [], []⟩

variable (intr : UInt8 → σ → σ)
  (read : ℕ → Bool → ℕ → σ → σ × List UInt8 × Option ReadEnd)

/-- A stretch of a call. -/
def stretch (s : ConsoleState ι σ) (p : ι) (c : ReadCall) (killed : Bool) : ConsoleState ι σ :=
  let x := read c.target killed (c.target - c.got.length) s.dev
  let got := c.got ++ x.2.1
  match x.2.2 with
  | none => ⟨x.1, update s.call p (some ⟨c.target, got⟩), s.given ++ x.2.1, s.reads⟩
  | some how =>
    ⟨x.1, update s.call p none, s.given ++ x.2.1, s.reads ++ [⟨p, c.target, got, how⟩]⟩

/-- A negative `n` is no bytes. -/
def step (s : ConsoleState ι σ) : ConsoleAct ι → Option (ConsoleState ι σ)
  | .consoleintr c => some { s with dev := intr c s.dev }
  | .consoleread p n killed =>
    match s.call p with
    | none => some (s.stretch read p ⟨n.toNat, []⟩ killed)
    | some _ => none
  | .resume p killed => (s.call p).map fun c => s.stretch read p c killed

end ConsoleState

/-! ## The editor -/

/-- The line that is typed, the bytes that can be read, and all bytes that ever could. -/
structure Editor where
  line : List UInt8
  ready : List UInt8
  committed : List UInt8

namespace Editor

def empty : Editor := ⟨[], [], []⟩

/-- The line can be read. -/
def commit (d : Editor) : Editor := ⟨[], d.ready ++ d.line, d.committed ++ d.line⟩

def type (c : UInt8) (d : Editor) : Editor :=
  if c = ctrl 'P' then d
  else if c = ctrl 'U' then { d with line := [] }
  else if c = ctrl 'H' ∨ c = '\x7f'.toUInt8 then { d with line := d.line.dropLast }
  else if c = 0 ∨ (d.ready ++ d.line).length = INPUT_BUF_SIZE then d
  else
    let c := if c = '\r'.toUInt8 then '\n'.toUInt8 else c
    let d := { d with line := d.line ++ [c] }
    if c = '\n'.toUInt8 ∨ c = ctrl 'D' ∨ (d.ready ++ d.line).length = INPUT_BUF_SIZE then d.commit
    else d

/-- A read takes bytes up to a newline. `^D` is taken by a read that has no bytes. -/
def take (target : ℕ) (killed : Bool) :
    ℕ → List UInt8 → List UInt8 × List UInt8 × Option ReadEnd
  | 0, q => (q, [], some .full)
  | _ + 1, [] => ([], [], if killed then some .killed else none)
  | n + 1, c :: q =>
    if c = ctrl 'D' then (if n + 1 < target then c :: q else q, [], some .eof)
    else if c = '\n'.toUInt8 then (q, [c], some .newline)
    else
      let x := take target killed n q
      (x.1, c :: x.2.1, x.2.2)

def read (target : ℕ) (killed : Bool) (n : ℕ) (d : Editor) :
    Editor × List UInt8 × Option ReadEnd :=
  let x := take target killed n d.ready
  ({ d with ready := x.1 }, x.2)

end Editor

/-! ## Refinement -/

/-- The console holds what the editor has. -/
structure Refines (s : Console) (d : Editor) : Prop where
  ring : Ring.Holds INPUT_BUF_SIZE s.buf s.r s.e (d.ready ++ d.line)
  mark : s.w = s.r + BitVec.ofNat 32 d.ready.length
  /-- a newline ends the line -/
  open_ : '\n'.toUInt8 ∉ d.line
  /-- a full ring can be read -/
  full : (d.ready ++ d.line).length = INPUT_BUF_SIZE → d.line = []

namespace Refines

variable {s : Console} {d : Editor} {c : UInt8}

theorem size_lt : INPUT_BUF_SIZE < 2 ^ 32 := by decide

theorem dvd : INPUT_BUF_SIZE ∣ 2 ^ 32 := by decide

theorem ready (h : Refines s d) : Ring.Holds INPUT_BUF_SIZE s.buf s.r s.w d.ready := by
  rw [h.mark]
  exact h.ring.left

theorem line (h : Refines s d) : Ring.Holds INPUT_BUF_SIZE s.buf s.w s.e d.line := by
  rw [h.mark]
  exact h.ring.right

theorem empty (buf : ℕ → UInt8) (i : BitVec 32) (uart : List UInt8) :
    Refines ⟨buf, i, i, i, uart⟩ .empty where
  ring := .nil buf i
  mark := by simp [Editor.empty]
  open_ := by simp [Editor.empty]
  full _ := rfl

/-! ### Characters -/

theorem erase {l : List UInt8} (h : Refines s d) (hl : d.line = l ++ [c]) :
    Refines s.erase { d with line := l } := by
  have hring := h.ring
  rw [hl, ← List.append_assoc] at hring
  refine ⟨hring.unpush, h.mark, fun hmem => h.open_ ?_, fun hlen => ?_⟩
  · rw [hl]
    exact List.mem_append_left _ hmem
  · have := hring.le
    rw [List.length_append, List.length_singleton] at this
    simp only at hlen
    omega

/-- `^U` erases the line. The induction is on its length. -/
theorem killLine : ∀ {n : ℕ} {s : Console} {d : Editor}, d.line.length = n → Refines s d →
    Refines (s.killLine n) { d with line := [] }
  | 0, s, d, hn, h => by
    rw [← List.eq_nil_of_length_eq_zero hn]
    exact h
  | n + 1, s, d, hn, h => by
    obtain hnil | ⟨l, c, hl⟩ := List.eq_nil_or_concat d.line
    · rw [hnil] at hn
      cases hn
    rw [List.concat_eq_append] at hl
    have hne : s.e ≠ s.w := fun he => by
      have := (h.line.eq_iff_nil size_lt).mp he.symm
      rw [this] at hn
      cases hn
    have hlast : s.buf (Ring.slot INPUT_BUF_SIZE (s.e - 1#32)) = c := by
      have := h.line
      rw [hl] at this
      exact this.last
    have hc : c ≠ '\n'.toUInt8 := by
      rintro rfl
      exact h.open_ (by rw [hl]; simp)
    rw [Console.killLine, if_pos ⟨hne, by rwa [hlast]⟩]
    refine killLine (d := { d with line := l }) ?_ (h.erase hl)
    rw [hl, List.length_append, List.length_singleton] at hn
    exact Nat.succ_injective hn

/-- The console and the editor take a character alike. -/
theorem intr (h : Refines s d) (c : UInt8) : Refines (s.consoleintr c) (d.type c) := by
  have hlen := h.ring.length_eq size_lt
  unfold Console.consoleintr Editor.type
  split
  · exact h
  split
  · rw [h.line.length_eq size_lt]
    exact killLine rfl h
  split
  · obtain hnil | ⟨l, c, hl⟩ := List.eq_nil_or_concat d.line
    · have he := (h.line.eq_iff_nil size_lt).mpr hnil
      rw [if_neg (not_not.mpr he.symm), hnil]
      have hd : { d with line := [].dropLast } = d := by
        rw [List.dropLast_nil, ← hnil]
      rwa [hd]
    · rw [List.concat_eq_append] at hl
      have he : s.e ≠ s.w := fun he => by
        rw [(h.line.eq_iff_nil size_lt).mp he.symm] at hl
        simp at hl
      rw [if_pos he, hl, List.dropLast_concat]
      exact h.erase hl
  by_cases hc : c = 0 ∨ (d.ready ++ d.line).length = INPUT_BUF_SIZE
  · rw [if_pos hc, if_neg]
    · exact h
    · rintro ⟨h0, hlt⟩
      have hfull := hc.resolve_left h0
      omega
  · have hle := h.ring.le
    rw [if_neg hc, if_pos ⟨fun h0 => hc (.inl h0), by rw [hlen]; omega⟩]
    generalize (if c = '\r'.toUInt8 then '\n'.toUInt8 else c) = c'
    have hpush := h.ring.push dvd (by omega) c'
    rw [List.append_assoc] at hpush
    have hlen' := hpush.length_eq size_lt
    simp only [Console.consputc, hlen']
    by_cases hend : c' = '\n'.toUInt8 ∨ c' = ctrl 'D' ∨
        (d.ready ++ (d.line ++ [c'])).length = INPUT_BUF_SIZE
    · rw [if_pos hend, if_pos hend]
      refine ⟨?_, hpush.count, by simp [Editor.commit], fun _ => rfl⟩
      simp only [Editor.commit, List.append_nil]
      exact hpush
    · rw [if_neg hend, if_neg hend]
      rw [not_or, not_or] at hend
      refine ⟨hpush, h.mark, fun hmem => ?_, fun hfull => absurd hfull hend.2.2⟩
      rcases List.mem_append.mp hmem with hmem | hmem
      · exact h.open_ hmem
      · exact hend.1 (List.mem_singleton.mp hmem).symm

/-! ### Reads -/

/-- The console and the editor give a reader the same bytes. The induction is on the number of
bytes to go. -/
theorem readLoop {target : ℕ} {killed : Bool} : ∀ {n : ℕ} {s : Console} {d : Editor},
    Refines s d →
    Refines (s.readLoop target killed n).1 (d.read target killed n).1 ∧
      (s.readLoop target killed n).2 = (d.read target killed n).2
  | 0, s, d, h => ⟨h, rfl⟩
  | n + 1, s, d, h => by
    have hempty := h.ready.eq_iff_nil size_lt
    cases hq : d.ready with
    | nil =>
      rw [Console.readLoop, if_pos (hempty.mpr hq), Editor.read, hq]
      refine ⟨?_, rfl⟩
      rw [Editor.take, ← hq]
      exact h
    | cons c q =>
      have hne : s.r ≠ s.w := fun hrw => by
        rw [hempty.mp hrw] at hq
        cases hq
      have hring := h.ring
      rw [hq, List.cons_append] at hring
      -- the first byte is taken
      have hpop : Refines { s with r := s.r + 1#32 } { d with ready := q } := by
        refine ⟨hring.pop, ?_, h.open_, fun hfull => ?_⟩
        · rw [h.mark, hq, List.length_cons, Ring.Holds.add_one_add]
        · have hle := hring.le
          rw [List.length_cons] at hle
          simp only at hfull
          omega
      rw [Console.readLoop, if_neg hne, Editor.read, hq, Editor.take]
      simp only [hring.head]
      by_cases hd : c = ctrl 'D'
      · rw [if_pos hd, if_pos hd]
        refine ⟨?_, rfl⟩
        by_cases hn : n + 1 < target
        · simp only [if_pos hn, BitVec.add_sub_cancel, ← hq]
          exact h
        · simp only [if_neg hn]
          exact hpop
      rw [if_neg hd, if_neg hd]
      by_cases hnl : c = '\n'.toUInt8
      · rw [if_pos hnl, if_pos hnl]
        exact ⟨hpop, rfl⟩
      rw [if_neg hnl, if_neg hnl]
      obtain ⟨hs, hout⟩ := readLoop (n := n) hpop
      refine ⟨hs, ?_⟩
      simp only [hout]
      rfl

end Refines

/-- Machines over the two devices, in related states. -/
structure RefinesAll {ι : Type} (s : ConsoleState ι Console) (d : ConsoleState ι Editor) :
    Prop where
  dev : Refines s.dev d.dev
  call : s.call = d.call
  given : s.given = d.given
  reads : s.reads = d.reads

section Machines

variable {ι : Type} [DecidableEq ι] {s : ConsoleState ι Console} {d : ConsoleState ι Editor}

/-- The actions of the console, and those of the editor. -/
def consoleStep : ConsoleState ι Console → ConsoleAct ι → Option (ConsoleState ι Console) :=
  ConsoleState.step Console.consoleintr Console.readLoop

def editorStep : ConsoleState ι Editor → ConsoleAct ι → Option (ConsoleState ι Editor) :=
  ConsoleState.step Editor.type Editor.read

theorem RefinesAll.stretch (h : RefinesAll s d) (p : ι) (c : ReadCall) (killed : Bool) :
    RefinesAll (s.stretch Console.readLoop p c killed) (d.stretch Editor.read p c killed) := by
  have hloop : Refines (s.dev.readLoop c.target killed (c.target - c.got.length)).1
      (d.dev.read c.target killed (c.target - c.got.length)).1 ∧ _ := h.dev.readLoop
  obtain ⟨hdev, hout⟩ := hloop
  unfold ConsoleState.stretch
  simp only [hout]
  split
  · exact ⟨hdev, by rw [h.call], by rw [h.given], h.reads⟩
  · exact ⟨hdev, by rw [h.call], by rw [h.given], by rw [h.reads]⟩

theorem RefinesAll.step (a : ConsoleAct ι) (h : RefinesAll s d) :
    Option.Rel RefinesAll (consoleStep s a) (editorStep d a) := by
  cases a with
  | consoleintr c => exact .some ⟨h.dev.intr c, h.call, h.given, h.reads⟩
  | consoleread p n killed =>
    simp only [consoleStep, editorStep, ConsoleState.step, h.call]
    cases d.call p with
    | none => exact .some (h.stretch p ⟨n.toNat, []⟩ killed)
    | some c => exact .none
  | resume p killed =>
    simp only [consoleStep, editorStep, ConsoleState.step, h.call]
    cases d.call p with
    | none => exact .none
    | some c => exact .some (h.stretch p c killed)

end Machines

/-! ## What the editor does -/

/-- What a read for `n` bytes has got when it ends, or when it has to wait. -/
def Ended (n : ℕ) (l : List UInt8) : Option ReadEnd → Prop
  | some .full => '\n'.toUInt8 ∉ l ∧ l.length = n
  | some .newline => (∃ u, l = u ++ ['\n'.toUInt8] ∧ '\n'.toUInt8 ∉ u) ∧ l.length ≤ n
  | _ => '\n'.toUInt8 ∉ l ∧ l.length < n

theorem Ended.append {n m : ℕ} {l l' : List UInt8} {how : Option ReadEnd}
    (h : '\n'.toUInt8 ∉ l) (h' : Ended m l' how) (hm : l.length + m = n) :
    Ended n (l ++ l') how := by
  have hlen : (l ++ l').length = l.length + l'.length := List.length_append
  have hnl : '\n'.toUInt8 ∉ l' → '\n'.toUInt8 ∉ l ++ l' := fun hl' hmem =>
    (List.mem_append.mp hmem).elim h hl'
  match how, h' with
  | some .full, h' => exact ⟨hnl h'.1, by have := h'.2; omega⟩
  | some .newline, h' =>
    obtain ⟨⟨u, rfl, hu⟩, hle⟩ := h'
    refine ⟨⟨l ++ u, (List.append_assoc ..).symm, fun hmem => ?_⟩, by omega⟩
    exact (List.mem_append.mp hmem).elim h hu
  | some .eof, h' => exact ⟨hnl h'.1, by have := h'.2; omega⟩
  | some .killed, h' => exact ⟨hnl h'.1, by have := h'.2; omega⟩
  | none, h' => exact ⟨hnl h'.1, by have := h'.2; omega⟩

namespace Editor

variable {target : ℕ} {killed : Bool}

/-- What a read for `n` bytes does to the queue `q`: it takes the bytes `l` that it gets, or a `^D`
and no bytes. -/
structure Takes (target n : ℕ) (q : List UInt8) (x : List UInt8 × List UInt8 × Option ReadEnd) :
    Prop where
  ended : Ended n x.2.1 x.2.2
  unmarked : ctrl 'D' ∉ x.2.1
  taken : (x.2.1 ++ x.1 = q ∧ ¬ (x.2.2 = some .eof ∧ x.2.1 = [] ∧ n = target)) ∨
    (q = ctrl 'D' :: x.1 ∧ x.2.2 = some .eof ∧ x.2.1 = [] ∧ n = target)

theorem Takes.cons {n : ℕ} {q : List UInt8} {c : UInt8}
    {x : List UInt8 × List UInt8 × Option ReadEnd} (h : Takes target n q x) (hn : n < target)
    (hd : c ≠ ctrl 'D') (hnl : c ≠ '\n'.toUInt8) :
    Takes target (n + 1) (c :: q) (x.1, c :: x.2.1, x.2.2) := by
  refine ⟨h.ended.append (l := [c]) (by simpa using Ne.symm hnl) (Nat.add_comm 1 n), ?_, ?_⟩
  · rw [List.mem_cons, not_or]
    exact ⟨Ne.symm hd, h.unmarked⟩
  · rcases h.taken with ⟨hq, -⟩ | ⟨-, -, -, heq⟩
    · exact .inl ⟨congrArg (List.cons c) hq, fun hc => by simp at hc⟩
    · omega

/-- The induction is on the bytes to go. -/
theorem take_takes : ∀ {n : ℕ} {q : List UInt8}, n ≤ target →
    Takes target n q (take target killed n q)
  | 0, q, _ => ⟨⟨by simp [take], rfl⟩, by simp [take], .inl ⟨rfl, fun h => by simp [take] at h⟩⟩
  | n + 1, [], _ => by
    rw [take]
    cases killed <;> exact ⟨⟨by simp, by simp⟩, by simp, .inl ⟨rfl, by simp⟩⟩
  | n + 1, c :: q, hn => by
    rw [take]
    split
    · rename_i hd
      refine ⟨⟨by simp, by simp⟩, by simp, ?_⟩
      by_cases hlt : n + 1 < target
      · exact .inl ⟨by simp [hlt], fun h => by simp at h; omega⟩
      · exact .inr ⟨by simp [hlt, hd], rfl, rfl, by omega⟩
    split
    · rename_i hd hnl
      refine ⟨⟨⟨[], by rw [hnl]; rfl, by simp⟩, by simp⟩, by simpa using Ne.symm hd, ?_⟩
      exact .inl ⟨rfl, by simp⟩
    · rename_i hd hnl
      exact (take_takes (Nat.le_of_succ_le hn)).cons (by omega) hd hnl

/-- What is committed can be read. -/
theorem type_commits (d : Editor) (c : UInt8) :
    ∃ l, (d.type c).committed = d.committed ++ l ∧ (d.type c).ready = d.ready ++ l := by
  have hnone : ∃ l, d.committed = d.committed ++ l ∧ d.ready = d.ready ++ l :=
    ⟨[], (List.append_nil _).symm, (List.append_nil _).symm⟩
  unfold type
  split_ifs
  · exact hnone
  · exact hnone
  · exact hnone
  · exact hnone
  all_goals
    dsimp only
    split_ifs
    · exact ⟨_, rfl, rfl⟩
    · exact hnone

end Editor

/-- The bytes that are given to readers. -/
def unmarked (l : List UInt8) : List UInt8 := l.filter (· ≠ ctrl 'D')

theorem unmarked_append {l l' : List UInt8} : unmarked (l ++ l') = unmarked l ++ unmarked l' :=
  List.filter_append ..

theorem unmarked_eq {l : List UInt8} (h : ctrl 'D' ∉ l) : unmarked l = l := by
  refine List.filter_eq_self.mpr fun c hc => decide_eq_true ?_
  rintro rfl
  exact h hc

namespace ConsoleState

variable {ι : Type} [DecidableEq ι] {d d' : ConsoleState ι Editor}

/-- A read of no bytes, at a `^D`. -/
def eof (x : ReadDone ι) : Bool := x.how = .eof ∧ x.value = 0

omit [DecidableEq ι] in
theorem eof_iff {x : ReadDone ι} : eof x = true ↔ x.how = .eof ∧ x.got = [] := by
  rw [eof, decide_eq_true_eq]
  refine and_congr_right fun hhow => ?_
  rw [ReadDone.value, hhow, if_neg (by decide), Int.natCast_eq_zero, List.length_eq_zero_iff]

/-- What has been given is what has been committed and cannot be read any more, and each `^D` has
ended a read of no bytes. -/
structure Sound (d : ConsoleState ι Editor) : Prop where
  stream : d.given ++ unmarked d.dev.ready = unmarked d.dev.committed
  eofs : d.dev.committed.count (ctrl 'D') = d.dev.ready.count (ctrl 'D') + d.reads.countP eof
  calls : ∀ {p c}, d.call p = some c → Ended c.target c.got none ∧ ctrl 'D' ∉ c.got
  reads : ∀ x ∈ d.reads, Ended x.target x.got (some x.how) ∧ ctrl 'D' ∉ x.got

omit [DecidableEq ι] in
theorem Sound.start : Sound (start .empty : ConsoleState ι Editor) :=
  ⟨rfl, rfl, fun h => (by cases h), fun _ h => (by cases h)⟩

theorem Sound.stretch (h : Sound d) {p : ι} {c : ReadCall} {killed : Bool}
    (hnl : '\n'.toUInt8 ∉ c.got) (hd : ctrl 'D' ∉ c.got) (hle : c.got.length ≤ c.target) :
    Sound (d.stretch Editor.read p c killed) := by
  have ht : Editor.Takes c.target (c.target - c.got.length) d.dev.ready
      (Editor.take c.target killed (c.target - c.got.length) d.dev.ready) :=
    Editor.take_takes (Nat.sub_le ..)
  unfold ConsoleState.stretch
  simp only [Editor.read]
  generalize Editor.take c.target killed (c.target - c.got.length) d.dev.ready = x at ht ⊢
  obtain ⟨q, l, how⟩ := x
  have hended : Ended c.target (c.got ++ l) how := ht.ended.append hnl (by omega)
  have hplain : ctrl 'D' ∉ c.got ++ l := fun hmem =>
    (List.mem_append.mp hmem).elim hd ht.unmarked
  -- the stream, whatever is taken
  have hstream : d.given ++ l ++ unmarked q = unmarked d.dev.committed := by
    rw [← h.stream]
    rcases ht.taken with ⟨hq, -⟩ | ⟨hq, -, hl, -⟩
    · rw [← hq, unmarked_append, unmarked_eq ht.unmarked, List.append_assoc]
    · obtain rfl : l = [] := hl
      rw [hq, List.append_nil]
      rfl
  have hcount : d.dev.ready.count (ctrl 'D') = q.count (ctrl 'D') +
      if how = some .eof ∧ c.got ++ l = [] then 1 else 0 := by
    rcases ht.taken with ⟨hq, hnot⟩ | ⟨hq, hhow, hl, hn⟩
    · rw [← hq, List.count_append, List.count_eq_zero.mpr ht.unmarked, if_neg, Nat.zero_add]
      · rfl
      rintro ⟨hhow, hnil⟩
      obtain ⟨hgot, hl⟩ := List.append_eq_nil_iff.mp hnil
      refine hnot ⟨hhow, hl, ?_⟩
      rw [hgot, List.length_nil, Nat.sub_zero]
    · have hgot : c.got = [] := List.eq_nil_of_length_eq_zero (by omega)
      rw [hq, List.count_cons_self, if_pos ⟨hhow, by rw [hgot]; exact hl⟩]
  have hcalls : ∀ {o : Option ReadCall},
      (∀ c', o = some c' → Ended c'.target c'.got none ∧ ctrl 'D' ∉ c'.got) →
      ∀ {p' c'}, update d.call p o p' = some c' →
        Ended c'.target c'.got none ∧ ctrl 'D' ∉ c'.got := by
    intro o ho p' c' hc'
    by_cases hp : p' = p
    · rw [hp, update_self] at hc'
      exact ho c' hc'
    · rw [update_of_ne hp] at hc'
      exact h.calls hc'
  cases how with
  | none =>
    rw [if_neg (by simp), Nat.add_zero] at hcount
    refine ⟨hstream, hcount ▸ h.eofs, hcalls fun c' hc' => ?_, h.reads⟩
    cases hc'
    exact ⟨hended, hplain⟩
  | some how =>
    refine ⟨hstream, ?_, hcalls fun c' hc' => ?_, fun x hx => ?_⟩
    · simp only
      rw [h.eofs, hcount, List.countP_append, List.countP_singleton]
      simp only [eof_iff, Option.some.injEq]
      omega
    · cases hc'
    · rcases List.mem_append.mp hx with hx | hx
      · exact h.reads x hx
      · rw [List.mem_singleton.mp hx]
        exact ⟨hended, hplain⟩

theorem Sound.step (h : Sound d) {a : ConsoleAct ι} (hs : editorStep d a = some d') : Sound d' := by
  cases a with
  | consoleintr c =>
    cases hs
    obtain ⟨l, hc, hr⟩ := d.dev.type_commits c
    refine ⟨?_, ?_, h.calls, h.reads⟩
    · simp only [hc, hr, unmarked_append, ← h.stream, List.append_assoc]
    · simp only [hc, hr, List.count_append, h.eofs]
      omega
  | consoleread p n killed =>
    simp only [editorStep, ConsoleState.step] at hs
    split at hs
    · cases hs
      exact h.stretch (by simp) (by simp) (Nat.zero_le _)
    · cases hs
  | resume p killed =>
    simp only [editorStep, ConsoleState.step, Option.map_eq_some_iff] at hs
    obtain ⟨c, hc, rfl⟩ := hs
    obtain ⟨hended, hd⟩ := h.calls hc
    exact h.stretch hended.1 hd hended.2.le

theorem Sound.run (h : Sound d) : ∀ {l : List (ConsoleAct ι)}, l.foldlM editorStep d = some d' →
    Sound d' := by
  intro l
  induction l generalizing d with
  | nil =>
    intro hrun
    cases hrun
    exact h
  | cons a l ih =>
    intro hrun
    rw [List.foldlM_cons] at hrun
    obtain ⟨d₁, h₁, hrun⟩ := Option.bind_eq_some_iff.mp hrun
    exact ih (h.step h₁) hrun

end ConsoleState

/-! ## Results -/

open ConsoleState in
/-- In every run, the indices stay in order and a full ring can be read; the console gives readers
the bytes that the editor gives them, which are those that were committed, in order and once. -/
theorem console_discipline {ι : Type} [DecidableEq ι] {buf : ℕ → UInt8} {i : BitVec 32}
    {l : List (ConsoleAct ι)} {s : ConsoleState ι Console}
    (h : l.foldlM consoleStep (start ⟨buf, i, i, i, []⟩) = some s) :
    ((s.dev.w - s.dev.r).toNat ≤ (s.dev.e - s.dev.r).toNat ∧
      (s.dev.e - s.dev.r).toNat ≤ INPUT_BUF_SIZE ∧
      ((s.dev.e - s.dev.r).toNat = INPUT_BUF_SIZE → s.dev.w = s.dev.e)) ∧
    ∃ d : ConsoleState ι Editor, l.foldlM editorStep (start .empty) = some d ∧
      s.call = d.call ∧ s.given = d.given ∧ s.reads = d.reads ∧
      d.given ++ unmarked d.dev.ready = unmarked d.dev.committed ∧
      d.dev.committed.count (ctrl 'D') = d.dev.ready.count (ctrl 'D') + d.reads.countP eof ∧
      ∀ x ∈ d.reads, Ended x.target x.got (some x.how) ∧ ctrl 'D' ∉ x.got := by
  have hrel : Option.Rel RefinesAll (l.foldlM consoleStep (start ⟨buf, i, i, i, []⟩))
      (l.foldlM editorStep (start .empty)) :=
    Machine.rel_foldlM RefinesAll.step ⟨.empty buf i [], rfl, rfl, rfl⟩
  rw [h] at hrel
  cases hd : l.foldlM editorStep (start .empty : ConsoleState ι Editor) with
  | none =>
    rw [hd] at hrel
    cases hrel
  | some d =>
    rw [hd] at hrel
    obtain ⟨hrel⟩ := hrel
    have hsound := Sound.start.run hd
    have hw := hrel.dev.ready.length_eq Refines.size_lt
    have he := hrel.dev.ring.length_eq Refines.size_lt
    have hlen : (d.dev.ready ++ d.dev.line).length = d.dev.ready.length + d.dev.line.length :=
      List.length_append
    refine ⟨⟨by omega, he.trans_le hrel.dev.ring.le, fun hfull => ?_⟩, d, rfl, hrel.call,
      hrel.given, hrel.reads, hsound.stream, hsound.eofs, hsound.reads⟩
    exact (hrel.dev.line.eq_iff_nil Refines.size_lt).mpr (hrel.dev.full (he.symm.trans hfull))

/-- A process reads while `a`, a backspace, `b` and a carriage return are typed; the indices
wrap. -/
def typeLine : List (ConsoleAct (Fin 2)) :=
  [.consoleread 0 10 false, .consoleintr 97, .consoleintr 8, .consoleintr 98, .consoleintr 13,
    .resume 0 false]

open ConsoleState in
theorem console_discipline_line : ∃ s : ConsoleState (Fin 2) Console,
    typeLine.foldlM consoleStep (start ⟨fun _ => 0, -1, -1, -1, []⟩) = some s ∧
    s.given = [98, 10] ∧ ∃ d : ConsoleState (Fin 2) Editor,
      typeLine.foldlM editorStep (start .empty) = some d ∧ s.reads = d.reads ∧
      d.given ++ unmarked d.dev.ready = unmarked d.dev.committed := by
  have hrun : ∃ s : ConsoleState (Fin 2) Console,
      typeLine.foldlM consoleStep (start ⟨fun _ => 0, -1, -1, -1, []⟩) = some s ∧
      s.given = [98, 10] := ⟨_, rfl, by decide⟩
  obtain ⟨s, hs, hgiven⟩ := hrun
  obtain ⟨-, d, hd, -, -, hreads, hstream, -⟩ := console_discipline hs
  exact ⟨s, hs, hgiven, d, hd, hreads, hstream⟩

end Xv6
