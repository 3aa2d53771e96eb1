import Mathlib.Data.List.GetD
import Xv6.FileWrite

/-!
# Writing through a shared descriptor

Processes that share a `struct file`, after `fork` or `dup`, call `filewrite` on it. A call cuts
its bytes into chunks. For each chunk it locks the inode, reads `f->off`, lets `writei` write the
chunk there, adds what was written to `f->off` and unlocks the inode ; the processes interleave
between these actions. `chunks` keeps what has been written, in that order.

Only the holder of the lock uses `f->off` (`WriteOwn`), so every chunk is written where the last
one ended (`shared_writes`).
-/

namespace Xv6

open Function Prog

/-! ## The code -/

/-- A call of `filewrite` with a buffer that is mapped. -/
structure WriteCall where
  src : Mem
  n : ℕ
  mapped : ∀ k, k < n → src.mapped k = true

/-- What process `who` has written at `off`. -/
structure Chunk (ι : Type) where
  who : ι
  off : ℕ
  bytes : List UInt8

/-- The file system and the `struct file`. -/
structure SharedFile (ι : Type) where
  fs : Fs
  off : ℕ
  chunks : List (Chunk ι)

inductive WriteAct (ι : Type)
  | ilock
  /-- read `f->off` -/
  | getOff
  | writei (p : ι) (src : Mem) (off n : ℕ)
  /-- `f->off += r` -/
  | addOff (r : ℕ)
  | iunlock

@[reducible] def WriteAct.Res {ι : Type} : WriteAct ι → Type
  | .getOff => ℕ
  | .writei .. => Option ℕ
  | _ => Unit

section Code

variable {ι : Type} (L : FsLayout) (ip : Fin NINODE)

/-- A function of `fs.c`. -/
def SharedFile.inode {α : Type} (m : FsM α) : Prog (SharedFile ι) FsPanic α :=
  zoom SharedFile.fs (fun t s => { s with fs := t }) id m

def WriteAct.run : (a : WriteAct ι) → Prog (SharedFile ι) FsPanic a.Res
  | .ilock => SharedFile.inode (Fs.ilock L ip)
  | .getOff => SharedFile.off <$> get
  | .writei p src off n => do
    let r ← SharedFile.inode (Fs.writei L ip src off n)
    modify fun s => { s with
      chunks := s.chunks ++ [⟨p, off, (List.range (r.getD 0)).map src.byte⟩] }
    pure r
  | .addOff r => modify fun s => { s with off := s.off + r }
  | .iunlock => SharedFile.inode (Fs.iunlock ip)

abbrev WriteM (ι : Type) := Ctl (WriteAct ι) WriteAct.Res

abbrev WriteM.act (a : WriteAct ι) : WriteM ι a.Res := Ctl.call a

/-- `if(r > 0) f->off += r` -/
def advance (r : Option ℕ) : WriteM ι Unit :=
  if 0 < r.getD 0 then WriteM.act (.addOff (r.getD 0)) else pure ()

/-- The bytes `addr + i` and on. -/
def Mem.from (u : Mem) (i : ℕ) : Mem := ⟨fun k => u.byte (i + k), fun k => u.mapped (i + k)⟩

/-- `((MAXOPBLOCKS-1-1-2) / 2) * BSIZE` -/
def maxWrite : ℕ := (10 - 1 - 1 - 2) / 2 * BSIZE

/-- The loop of `filewrite`, with `fuel` rounds left. Returns `i`. -/
def filewriteLoop (me : ι) (w : WriteCall) : (fuel i : ℕ) → WriteM ι ℕ
  | 0, i => pure i
  | fuel + 1, i =>
    if i < w.n then do
      let n1 := min (w.n - i) maxWrite
      WriteM.act .ilock
      let off ← WriteM.act .getOff
      let r ← WriteM.act (.writei me (w.src.from i) off n1)
      advance r
      WriteM.act .iunlock
      if r = some n1 then filewriteLoop me w fuel (i + n1) else pure i
    else pure i

def filewrite (me : ι) (w : WriteCall) : WriteM ι ℤ :=
  (fun i => if i = w.n then (w.n : ℤ) else -1) <$> filewriteLoop me w w.n 0

/-- A process, and the calls it has made with what they returned. -/
structure WriteLocal (ι : Type) where
  me : ι
  calls : List (WriteCall × ℤ)

def WriteCall.prog (w : WriteCall) (l : WriteLocal ι) : WriteM ι (WriteLocal ι) :=
  (fun r => { l with calls := l.calls ++ [(w, r)] }) <$> filewrite l.me w

/-- The processes and the file they write. -/
abbrev WriteState (ι : Type) :=
  Threads ι (SharedFile ι) (WriteAct ι) WriteAct.Res (WriteLocal ι)

def WriteState.step [DecidableEq ι] :
    WriteState ι → ThreadLabel ι WriteCall → Option (WriteState ι) :=
  Threads.step (WriteAct.run L ip) WriteCall.prog

/-- No process is in a call. -/
def WriteState.start (fs : Fs) (o : ℕ) : WriteState ι where
  shared := ⟨fs, o, []⟩
  loc p := ⟨p, []⟩
  ctl _ := none

/-- There is space for a write : the file may be that long, and there is a free block for each
one that is missing. -/
def HasRoom (s : SharedFile ι) : WriteAct ι → Prop
  | .writei _ _ off n => off + n ≤ MAXFILE * BSIZE ∧ s.fs.Room L ip (Fs.touched off n)
  | _ => True

end Code

/-! ## What the calls write -/

/-- The `j`-th chunk of a call. -/
def WriteCall.piece (w : WriteCall) (j : ℕ) : List UInt8 :=
  (List.range (min (w.n - j * maxWrite) maxWrite)).map
    (w.src.from (j * maxWrite)).byte

/-- The chunks of a call : all of the length of a full chunk but the last. -/
def WriteCall.chunks (w : WriteCall) : List (List UInt8) :=
  (List.range ((w.n + maxWrite - 1) / maxWrite)).map w.piece

variable {ι : Type} {w : WriteCall}

/-- Each chunk starts where the one before it ends, and the first at `o`. -/
def Consecutive : ℕ → List (Chunk ι) → Prop
  | _, [] => True
  | o, c :: l => c.off = o ∧ Consecutive (o + c.bytes.length) l

/-- The bytes of the chunks. -/
def written (l : List (Chunk ι)) : List UInt8 := l.flatMap Chunk.bytes

theorem written_append (l : List (Chunk ι)) (c : Chunk ι) :
    written (l ++ [c]) = written l ++ c.bytes := by
  simp [written]

theorem Consecutive.append {l : List (Chunk ι)} {c : Chunk ι} :
    ∀ {o : ℕ}, Consecutive o l → c.off = o + (written l).length → Consecutive o (l ++ [c]) := by
  induction l with
  | nil => exact fun _ hc => ⟨by simpa [written] using hc, trivial⟩
  | cons d l ih =>
    intro o h hc
    refine ⟨h.1, ih h.2 ?_⟩
    rw [hc, written, written, List.flatMap_cons, List.length_append]
    omega

/-! ## The discipline -/

/-- Where a process is in the round of a chunk. -/
inductive Phase
  | free
  | locked
  /-- it has read `f->off` -/
  | ready (off : ℕ)
  /-- it has written a chunk of `r` bytes, and `f->off` is behind -/
  | wrote (r : ℕ)

/-- `f->off` for a process that holds the lock, if the chunks end at `e`. -/
def Phase.Agrees (off e : ℕ) : Phase → Prop
  | .free => False
  | .locked => off = e
  | .ready x => x = off ∧ off = e
  | .wrote r => off + r = e

/-- What a process knows : the chunks it has written, and what it does with the lock. -/
structure WriteOwn (ι : Type) where
  who : ι
  done : List (List UInt8)
  phase : Phase

def writeRules (ι : Type) :
    Discipline (WriteAct ι) WriteAct.Res (SharedFile ι) (WriteOwn ι) where
  needs
    | .ilock, o => o.phase = .free
    | .getOff, o => o.phase = .locked
    | .writei p src off n, o =>
      o.phase = .ready off ∧ o.who = p ∧ ∀ k, k < n → src.mapped k = true
    | .addOff r, o => o.phase = .wrote r
    | .iunlock, o => o.phase = .locked
  does
    | .ilock, _, o, _, _, o' => o' = { o with phase := .locked }
    | .getOff, _, o, r, _, o' => o' = { o with phase := .ready r }
    | .writei _ src _ n, _, o, r, _, o' => r = some n ∧
      o' = { o with phase := .wrote n, done := o.done ++ [(List.range n).map src.byte] }
    | .addOff _, _, o, _, _, o' => o' = { o with phase := .locked }
    | .iunlock, _, o, _, _, o' => o' = { o with phase := .free }

/-- A process between two calls : its chunks are those of its calls, and each has returned its
`n`. -/
def WriteIdle (l : WriteLocal ι) (o : WriteOwn ι) : Prop :=
  o.phase = .free ∧ o.who = l.me ∧ o.done = l.calls.flatMap (fun c => c.1.chunks) ∧
    ∀ c ∈ l.calls, c.2 = c.1.n

theorem WriteCall.chunks_drop {j : ℕ} (h : j * maxWrite < w.n) :
    w.chunks.drop j = w.piece j :: w.chunks.drop (j + 1) := by
  have hj : j < w.chunks.length := by
    rw [chunks, List.length_map, List.length_range]
    refine (Nat.le_div_iff_mul_le (by decide)).mpr ?_
    rw [Nat.succ_mul]
    omega
  rw [List.drop_eq_getElem_cons hj]
  simp [chunks]

theorem WriteCall.chunks_drop_nil {j : ℕ} (h : w.n ≤ j * maxWrite) : w.chunks.drop j = [] := by
  refine List.drop_eq_nil_iff.mpr ?_
  rw [chunks, List.length_map, List.length_range]
  have hpos : 0 < maxWrite := by decide
  exact Nat.lt_succ_iff.mp ((Nat.div_lt_iff_lt_mul hpos).mpr (by rw [Nat.succ_mul]; omega))

/-- The loop writes the chunks from the `j`-th on. -/
theorem filewriteLoop_holds {me : ι} {fuel : ℕ} :
    ∀ {j : ℕ} {o : WriteOwn ι}, w.n ≤ min (j * maxWrite) w.n + fuel → o.phase = .free →
      o.who = me →
      Ctl.Holds (writeRules ι) (filewriteLoop me w fuel (min (j * maxWrite) w.n))
        (fun i o' => i = w.n ∧ o' = { o with done := o.done ++ w.chunks.drop j }) o := by
  induction fuel with
  | zero =>
    intro j o hfuel _ _
    refine ⟨by omega, ?_⟩
    rw [WriteCall.chunks_drop_nil (by omega), List.append_nil]
  | succ fuel ih =>
    intro j o hfuel hfree hwho
    rw [filewriteLoop]
    split
    · rename_i hlt
      have hi : min (j * maxWrite) w.n = j * maxWrite := by omega
      have hpos : 0 < maxWrite := by decide
      have hnext : j * maxWrite + min (w.n - j * maxWrite) maxWrite =
          min ((j + 1) * maxWrite) w.n := by
        rw [Nat.succ_mul]
        omega
      rw [hi] at hlt ⊢
      refine Ctl.holds_call_bind.mpr ⟨hfree, ?_⟩
      rintro - - - o₁ rfl
      refine Ctl.holds_call_bind.mpr ⟨rfl, ?_⟩
      rintro - off - o₂ rfl
      refine Ctl.holds_call_bind.mpr ⟨⟨rfl, hwho, fun k hk => w.mapped _ (by omega)⟩, ?_⟩
      rintro - r - o₃ ⟨rfl, rfl⟩
      rw [advance, if_pos (by rw [Option.getD_some]; omega)]
      refine Ctl.holds_call_bind.mpr ⟨rfl, ?_⟩
      rintro - - - o₄ rfl
      refine Ctl.holds_call_bind.mpr ⟨rfl, ?_⟩
      rintro - - - o₅ rfl
      rw [if_pos rfl, hnext]
      refine Ctl.Holds.mono (fun i o' h => ⟨h.1, ?_⟩) (ih (j := j + 1) (by omega) rfl hwho)
      rw [h.2, WriteCall.chunks_drop hlt]
      simp [WriteCall.piece, hfree]
    · refine ⟨by omega, ?_⟩
      rw [WriteCall.chunks_drop_nil (by omega), List.append_nil]

theorem writeProg_holds {l : WriteLocal ι} {o : WriteOwn ι} (h : WriteIdle l o) :
    Ctl.Holds (writeRules ι) (w.prog l) WriteIdle o := by
  obtain ⟨hfree, hwho, hdone, hret⟩ := h
  refine Ctl.holds_bind.mpr (Ctl.holds_bind.mpr ?_)
  have hn : w.n ≤ min (0 * maxWrite) w.n + w.n := by omega
  have hloop := filewriteLoop_holds hn hfree hwho
  rw [Nat.zero_mul, Nat.zero_min] at hloop
  refine Ctl.Holds.mono ?_ hloop
  rintro i o' ⟨rfl, rfl⟩
  refine ⟨hfree, hwho, ?_, fun c hc => ?_⟩
  · simp [hdone]
  · rcases List.mem_append.mp hc with hc | hc
    · exact hret c hc
    · rw [List.mem_singleton.mp hc]
      simp

/-! ## The invariant -/

section Runs

variable [DecidableEq ι] {L : FsLayout} {ip : Fin NINODE} {fs fs' : Fs} {o : ℕ}

/-- The inode of an open file without holes, which is in memory. -/
structure Opened (L : FsLayout) (ip : Fin NINODE) (fs : Fs) : Prop where
  focus : fs.Focus L ip
  holeless : fs.Holeless ip
  valid : (fs.itable ip).valid = true
  ref : 1 ≤ (fs.itable ip).ref

/-- The file is the old one, but for the bytes of `l` at `o`. -/
structure Result (L : FsLayout) (ip : Fin NINODE) (fs : Fs) (o : ℕ) (l : List UInt8)
    (fs' : Fs) : Prop extends Opened L ip fs' where
  size : (fs'.itable ip).d.size = max (fs.itable ip).d.size (o + l.length)
  bytes : ∀ k, k < (fs'.itable ip).d.size → fs'.byte ip k =
    if o ≤ k ∧ k < o + l.length then l.getD (k - o) 0 else fs.byte ip k

/-- A chunk is written at the end of the others. -/
theorem Result.write {l : List UInt8} {fs'' : Fs} {src : Mem} {n : ℕ}
    (h : Result L ip fs o l fs')
    (hw : Fs.Written L fs' ip src (o + l.length) n 0 fs'') (hd : fs'.OnlyD ip fs'') :
    Result L ip fs o (l ++ (List.range n).map src.byte) fs'' := by
  have hoff : o + l.length ≤ (fs'.itable ip).d.size := by
    rw [h.size]
    exact Nat.le_max_right _ _
  obtain ⟨d, hd⟩ := hd
  have hlen : (l ++ (List.range n).map src.byte).length = l.length + n := by simp
  refine ⟨⟨hw.focus, hw.holeless h.holeless hoff, ?_, ?_⟩, ?_, fun k hk => ?_⟩
  · rw [hd, update_self]
    exact h.valid
  · rw [hd, update_self]
    exact h.ref
  · rw [hw.size, h.size, hlen]
    omega
  · rw [hw.byte h.holeless hoff hk, hlen]
    rw [hw.size] at hk
    by_cases hnew : o + l.length ≤ k ∧ k < o + l.length + n
    · rw [if_pos hnew, if_pos (by omega), List.getD_append_right _ _ _ _ (by omega),
        List.getD_eq_getElem _ _ (by simp; omega), List.getElem_map, List.getElem_range]
      congr 1
      omega
    · rw [if_neg hnew, h.bytes k (by omega)]
      by_cases hold : o ≤ k ∧ k < o + l.length
      · rw [if_pos hold, if_pos (by omega), List.getD_append _ _ _ _ (by omega)]
      · rw [if_neg hold, if_neg (by omega)]

variable {own : ι → WriteOwn ι} {s : SharedFile ι} {p : ι} {h : Option ι}

/-- `h` holds the lock, if any process does. -/
structure Holder (ip : Fin NINODE) (o : ℕ) (own : ι → WriteOwn ι) (s : SharedFile ι)
    (h : Option ι) : Prop where
  others : ∀ p, h ≠ some p → (own p).phase = .free
  locked : (s.fs.itable ip).locked = h.isSome
  rest : h = none → s.off = o + (written s.chunks).length
  phase : ∀ p, h = some p → (own p).phase.Agrees s.off (o + (written s.chunks).length)

/-- The processes have written the chunks, one after another. -/
structure WriteFits (L : FsLayout) (ip : Fin NINODE) (fs : Fs) (o : ℕ) (own : ι → WriteOwn ι)
    (s : SharedFile ι) : Prop where
  who : ∀ p, (own p).who = p
  lock : ∃ h, Holder ip o own s h
  done : ∀ p, (s.chunks.filter fun c => c.who = p).map Chunk.bytes = (own p).done
  consecutive : Consecutive o s.chunks
  result : Result L ip fs o (written s.chunks) s.fs

/-- A process that is not free holds the lock. -/
theorem Holder.eq {x : Phase} (hh : Holder ip o own s h) (hn : (own p).phase = x)
    (hx : x ≠ .free) : h = some p ∧ (s.fs.itable ip).locked = true ∧
      x.Agrees s.off (o + (written s.chunks).length) := by
  have hp : h = some p := by
    by_contra hne
    exact hx (hn ▸ hh.others p hne)
  exact ⟨hp, by rw [hh.locked, hp]; rfl, hn ▸ hh.phase p hp⟩

/-- The holder goes on to the phase `x`. -/
theorem Holder.go {s' : SharedFile ι} {x : Phase} {d : List (List UInt8)}
    (hh : Holder ip o own s h) (hp : h = some p ∨ h = none)
    (hlock : (s'.fs.itable ip).locked = true)
    (hagree : x.Agrees s'.off (o + (written s'.chunks).length)) :
    Holder ip o (update own p { own p with phase := x, done := d }) s' (some p) where
  others q hq := by
    have hqp : q ≠ p := fun he => hq (by rw [he])
    rw [update_of_ne hqp]
    refine hh.others q fun he => ?_
    rcases hp with hp | hp
    · exact hq (hp ▸ he)
    · simp [hp] at he
  locked := hlock
  rest := nofun
  phase q hq := by
    obtain rfl : p = q := by simpa using hq
    rw [update_self]
    exact hagree

theorem Result.setLocked {l : List UInt8} (hr : Result L ip fs o l fs') (b : Bool) :
    Result L ip fs o l (fs'.setInode ip fun x => { x with locked := b }) := by
  have hip : (fs'.setInode ip fun x => { x with locked := b }).itable ip =
      { fs'.itable ip with locked := b } := update_self ..
  have hslot : ∀ n, (fs'.setInode ip fun x => { x with locked := b }).slot ip n = fs'.slot ip n :=
    fun n => by rw [Fs.slot, hip]; rfl
  refine ⟨⟨⟨?_, ?_, ?_⟩, fun bn hbn => ?_, ?_, ?_⟩, ?_, fun k hk => ?_⟩
  · rw [hip]
    exact hr.focus.inum
  · rw [hip]
    exact hr.focus.type
  · rw [Fs.ino, hip]
    exact hr.focus.marked
  · rw [hip] at hbn
    rw [hslot]
    exact hr.holeless bn hbn
  · rw [hip]
    exact hr.valid
  · rw [hip]
    exact hr.ref
  · rw [hip]
    exact hr.size
  · rw [hip] at hk
    rw [Fs.byte, hip]
    exact hr.bytes k hk

/-- A process goes on without writing. -/
theorem WriteFits.go {s' : SharedFile ι} {x : Phase} (hf : WriteFits L ip fs o own s)
    (hc : s'.chunks = s.chunks) (hr : Result L ip fs o (written s.chunks) s'.fs)
    (hl : ∃ h, Holder ip o (update own p { own p with phase := x }) s' h) :
    WriteFits L ip fs o (update own p { own p with phase := x }) s' := by
  have hsame : ∀ q, (update own p { own p with phase := x } q).who = (own q).who ∧
      (update own p { own p with phase := x } q).done = (own q).done := fun q => by
    by_cases hq : q = p
    · rw [hq, update_self]
      exact ⟨rfl, rfl⟩
    · rw [update_of_ne hq]
      exact ⟨rfl, rfl⟩
  refine ⟨fun q => (hsame q).1.trans (hf.who q), hl, fun q => ?_, ?_, ?_⟩
  · rw [hc, (hsame q).2]
    exact hf.done q
  · rw [hc]
    exact hf.consecutive
  · rw [hc]
    exact hr

theorem WriteFits.write {fs' : Fs} {q : ι} {l : List UInt8} {x : Phase}
    (hf : WriteFits L ip fs o own s) (hq : (own p).who = q)
    (hr : Result L ip fs o (written s.chunks ++ l) fs')
    (hl : ∃ h, Holder ip o (update own p { own p with phase := x, done := (own p).done ++ [l] })
      { s with fs := fs', chunks := s.chunks ++ [⟨q, o + (written s.chunks).length, l⟩] } h) :
    WriteFits L ip fs o (update own p { own p with phase := x, done := (own p).done ++ [l] })
      { s with fs := fs', chunks := s.chunks ++ [⟨q, o + (written s.chunks).length, l⟩] } := by
  obtain rfl : p = q := (hf.who p).symm.trans hq
  refine ⟨fun q => ?_, hl, fun q => ?_, hf.consecutive.append rfl, ?_⟩
  · by_cases hqp : q = p
    · rw [hqp, update_self]
      exact hf.who p
    · rw [update_of_ne hqp]
      exact hf.who q
  · rw [List.filter_append, List.map_append, hf.done q]
    by_cases hqp : q = p
    · simp [hqp]
    · simp [hqp, Ne.symm hqp]
  · rw [written_append]
    exact hr

/-- Every action keeps the invariant. Only `ilock` waits, for a lock that is held. -/
theorem act_sound {E : FsPanic → Prop} {a : WriteAct ι} (hf : WriteFits L ip fs o own s)
    (hn : (writeRules ι).needs a (own p)) (hok : HasRoom L ip s a)
    (hE : a = .ilock → (s.fs.itable ip).locked = true → E .hang) :
    wp E (a.run L ip) (fun r s' => ∃ o', (writeRules ι).does a s (own p) r s' o' ∧
      WriteFits L ip fs o (update own p o') s') s := by
  obtain ⟨h, hh⟩ := hf.lock
  cases a with
  | ilock =>
    have href : ¬ (s.fs.itable ip).ref < 1 := Nat.not_lt.mpr hf.result.ref
    refine wp_zoom.mpr ?_
    simp only [Fs.ilock, Fs.lock, Fs.load, Fs.acquiresleep, wp_bind, wp_get, wp_ite, if_neg href]
    split
    · rename_i hl
      exact hE rfl hl
    · rename_i hl
      have hnone : h = none := by
        rw [hh.locked] at hl
        simpa using hl
      have hvalid : ((s.fs.setInode ip fun x => { x with locked := true }).itable ip).valid =
          true := by simpa [Fs.setInode] using hf.result.valid
      refine wp_modify.mpr (wp_bind.mpr (wp_get.mpr ?_))
      rw [if_pos hvalid]
      refine ⟨_, rfl, hf.go rfl (hf.result.setLocked true) ⟨some p, hh.go (.inr hnone) ?_ ?_⟩⟩
      · simp [Fs.setInode]
      · exact hh.rest hnone
  | getOff =>
    obtain ⟨hp, hl, hag⟩ := hh.eq hn (by rintro ⟨⟩)
    exact wp_map.mpr (wp_get.mpr ⟨_, rfl, hf.go rfl hf.result
      ⟨some p, hh.go (.inl hp) hl ⟨rfl, hag⟩⟩⟩)
  | writei q src off n =>
    obtain ⟨hphase, hwho, hmapped⟩ := hn
    obtain ⟨hp, hl, hag⟩ := hh.eq hphase (by rintro ⟨⟩)
    obtain rfl : off = o + (written s.chunks).length := hag.1.trans hag.2
    have hoff : o + (written s.chunks).length ≤ (s.fs.itable ip).d.size := by
      rw [hf.result.size]
      exact Nat.le_max_right _ _
    refine wp_bind.mpr (wp_zoom.mpr ?_)
    refine (Fs.writei_written hf.result.focus hoff hok.1 hmapped hok.2).mono ?_
    rintro r fs' ⟨rfl, hw, hd⟩
    refine wp_bind.mpr (wp_modify.mpr ⟨_, ⟨rfl, rfl⟩, hf.write hwho (hf.result.write hw hd) ?_⟩)
    refine ⟨some p, hh.go (.inl hp) ?_ ?_⟩
    · obtain ⟨d, hd⟩ := hd
      rw [hd, update_self, hl]
    · rw [written_append]
      have hend := hag.2
      simp only [Phase.Agrees, List.length_append, List.length_map, List.length_range]
      omega
  | addOff r =>
    obtain ⟨hp, hl, hag⟩ := hh.eq hn (by rintro ⟨⟩)
    exact wp_modify.mpr ⟨_, rfl, hf.go rfl hf.result ⟨some p, hh.go (.inl hp) hl hag⟩⟩
  | iunlock =>
    obtain ⟨hp, hl, hag⟩ := hh.eq hn (by rintro ⟨⟩)
    refine wp_zoom.mpr ?_
    simp only [Fs.iunlock, Fs.releasesleep, wp_bind, wp_get, if_pos (And.intro hl hf.result.ref)]
    refine wp_modify.mpr ⟨_, rfl, hf.go rfl (hf.result.setLocked false) ⟨none, ?_⟩⟩
    refine ⟨fun q _ => ?_, ?_, fun _ => hag, by rintro - ⟨⟩⟩
    · by_cases hq : q = p
      · rw [hq, update_self]
      · rw [update_of_ne hq]
        refine hh.others q fun he => hq ?_
        rw [hp] at he
        exact (Option.some.inj he).symm
    · simp [Fs.setInode]

theorem writes_sound : Threads.Sound (ι := ι) (WriteAct.run L ip) WriteCall.prog (writeRules ι)
    WriteIdle (WriteFits L ip fs o) (HasRoom L ip) (· = .hang) where
  act _ _ _ _ hf hn hok := act_sound hf hn hok fun _ _ => rfl
  holds _ _ _ h := writeProg_holds h

theorem Opened.result (hfs : Opened L ip fs) (ho : o ≤ (fs.itable ip).d.size) :
    Result L ip fs o [] fs where
  toOpened := hfs
  size := (Nat.max_eq_left ho).symm
  bytes k _ := (if_neg fun h => by simp at h; omega).symm

theorem WriteFits.start (hfs : Opened L ip fs) (hl : (fs.itable ip).locked = false)
    (ho : o ≤ (fs.itable ip).d.size) :
    WriteFits L ip fs o (fun p : ι => ⟨p, [], .free⟩) ⟨fs, o, []⟩ where
  who _ := rfl
  lock := ⟨none, fun _ _ => rfl, hl, fun _ => rfl, nofun⟩
  done _ := rfl
  consecutive := trivial
  result := hfs.result ho

/-- Some process in a call can go on, unless it finds no space. -/
theorem WriteFits.progress {s : WriteState ι} (hf : WriteFits L ip fs o own s.shared)
    (hown : ∀ p, Threads.Owned (writeRules ι) WriteIdle (s.loc p) (s.ctl p) (own p))
    (hp : s.ctl p ≠ none) : ∃ q, s.ctl q ≠ none ∧
      (Threads.Admits (κ := WriteCall) (HasRoom L ip) s (.go q) → s.step L ip (.go q) ≠ none) := by
  obtain ⟨h, hh⟩ := hf.lock
  -- the holder of the lock can go on, and without one every process can
  obtain ⟨q, hq, hfree⟩ : ∃ q, s.ctl q ≠ none ∧ ((own q).phase = .free →
      (s.shared.fs.itable ip).locked = false) := by
    cases h with
    | none => exact ⟨p, hp, fun _ => hh.locked⟩
    | some q =>
      have hag := hh.phase q rfl
      have hne : (own q).phase ≠ .free := fun he => by rwa [he] at hag
      refine ⟨q, fun hc => hne ?_, fun he => absurd he hne⟩
      have hidle := hown q
      rw [hc] at hidle
      exact hidle.1
  refine ⟨q, hq, fun hok => ?_⟩
  have hq' := hown q
  cases hc : s.ctl q with
  | none => exact absurd hc hq
  | some m =>
    rw [hc] at hq'
    cases m with
    | ret l => simp [WriteState.step, Threads.step, hc]
    | act a k =>
      simp only [Threads.Admits, hc] at hok
      have hact : wp (fun _ => False) (a.run L ip) _ s.shared :=
        act_sound hf hq'.1 hok fun ha hl => by
          subst ha
          rw [hfree hq'.1] at hl
          cases hl
      obtain ⟨r, t, hrun, -⟩ := hact.returns
      simp [WriteState.step, Threads.step, hc, hrun]

/-- **Writes through a shared descriptor are not lost.** For any number of processes that call
`filewrite` on one open file, in every interleaving and with enough space : the chunks are
written one after another from the first offset on, and the file has their bytes there and is
otherwise as before ; the offset is their end whenever the inode is not locked ; between calls
the chunks of a process are those of its calls, in order, and each call has returned its `n`.
While there are calls some process can go on. -/
theorem shared_writes {s : WriteState ι} (hfs : Opened L ip fs)
    (hl : (fs.itable ip).locked = false) (ho : o ≤ (fs.itable ip).d.size)
    (h : Machine.Reach (WriteState.step L ip) (Threads.Admits (HasRoom L ip)) (.start fs o) s) :
    Consecutive o s.shared.chunks ∧
    ((s.shared.fs.itable ip).d.size =
      max (fs.itable ip).d.size (o + (written s.shared.chunks).length)) ∧
    (∀ k, k < (s.shared.fs.itable ip).d.size → s.shared.fs.byte ip k =
      if o ≤ k ∧ k < o + (written s.shared.chunks).length then
        (written s.shared.chunks).getD (k - o) 0
      else fs.byte ip k) ∧
    ((s.shared.fs.itable ip).locked = false →
      s.shared.off = o + (written s.shared.chunks).length) ∧
    (∀ p, s.ctl p = none →
      (s.shared.chunks.filter fun c => c.who = p).map Chunk.bytes =
        (s.loc p).calls.flatMap (fun c => c.1.chunks) ∧
      ∀ c ∈ (s.loc p).calls, c.2 = c.1.n) ∧
    ∀ p, s.ctl p ≠ none → ∃ q, s.ctl q ≠ none ∧
      (Threads.Admits (κ := WriteCall) (HasRoom L ip) s (.go q) → s.step L ip (.go q) ≠ none) := by
  obtain ⟨own, hf, hown⟩ := writes_sound.reach h
    ⟨_, .start hfs hl ho, fun p => ⟨rfl, rfl, rfl, nofun⟩⟩
  refine ⟨hf.consecutive, hf.result.size, hf.result.bytes, fun hl => ?_, fun p hc => ?_,
    fun p hp => hf.progress hown hp⟩
  · obtain ⟨h, hh⟩ := hf.lock
    rw [hh.locked] at hl
    exact hh.rest (by simpa using hl)
  · have hidle := hown p
    rw [hc] at hidle
    rw [hf.done p]
    exact hidle.2.2

/-- `loneFile`, not locked. -/
def openFile : Fs := loneFile.setInode smallEntry fun x => { x with locked := false }

theorem openFile_opened : Opened smallLayout smallEntry openFile := by
  have hlone : Opened smallLayout smallEntry loneFile :=
    ⟨loneFile_focus, loneFile_holeless, rfl, by decide⟩
  exact ((hlone.result (Nat.zero_le _)).setLocked false).toOpened

/-- A call that writes one byte. -/
def oneByte (x : UInt8) : WriteCall := ⟨⟨fun _ => x, fun _ => true⟩, 1, fun _ _ => rfl⟩

instance {s : SharedFile ι} : DecidablePred (HasRoom L ip s)
  | .writei _ _ off n =>
    inferInstanceAs (Decidable (off + n ≤ MAXFILE * BSIZE ∧ _ ≤ _))
  | .ilock => .isTrue trivial
  | .getOff => .isTrue trivial
  | .addOff _ => .isTrue trivial
  | .iunlock => .isTrue trivial

/-- Two processes write a byte each at the end of the file, and their steps interleave. -/
theorem shared_writes_two : ∃ s : WriteState (Fin 2),
    (s.ctl 0 = none ∧ s.ctl 1 = none ∧ s.shared.chunks.length = 2) ∧
    s.shared.off = 1023 + (written s.shared.chunks).length ∧
    (s.shared.chunks.filter fun c => c.who = 0).map Chunk.bytes =
      (s.loc 0).calls.flatMap (fun c => c.1.chunks) := by
  obtain ⟨s, hr, hs⟩ := Machine.exists_reach_of_exec
    (WriteState.step (ι := Fin 2) smallLayout smallEntry)
    (Threads.Admits (HasRoom smallLayout smallEntry))
    (fun s => (s.ctl 0).isNone && (s.ctl 1).isNone && s.shared.chunks.length == 2 &&
      !(s.shared.fs.itable smallEntry).locked)
    (l := [.start 0 (oneByte 7), .start 1 (oneByte 8), .go 1, .go 1, .go 1, .go 1, .go 1, .go 0,
      .go 0, .go 1, .go 0, .go 0, .go 0, .go 0])
    (s := .start openFile 1023) (by decide +kernel)
  simp only [Bool.and_eq_true, Option.isNone_iff_eq_none, beq_iff_eq, Bool.not_eq_true'] at hs
  obtain ⟨-, -, -, hoff, hcalls, -⟩ := shared_writes openFile_opened rfl (by decide) hr
  exact ⟨s, ⟨hs.1.1.1, hs.1.1.2, hs.1.2⟩, hoff hs.2, (hcalls 0 hs.1.1.1).1⟩

end Runs

end Xv6
