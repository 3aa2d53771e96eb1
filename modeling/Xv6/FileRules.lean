import Mathlib.Tactic.Abel
import Mathlib.Algebra.Order.Ring.Int
import Mathlib.Algebra.BigOperators.Pi
import Xv6.FileTable

/-!
# References to open files

A reference is a token : one for every unit of `ref` of a file, one for each open end of a
pipe, one for every reference to an inode (`Ftable.supply`). A descriptor holds a token of its
file, and a file in use one of its pipe end or inode. In a system call a process may hold
tokens besides, and it may owe them : `sys_dup` fills the slot before `filedup`, and `exit`
clears it after `fileclose`. The supply is what the descriptors, the files and the processes
hold (`Fits` in `FileRefs`).

`fileRules` says what a process has to hold for an action, and what it holds afterwards. Each
system call keeps to the rules, and holds nothing at its end (`prog_holds`).
-/

namespace Xv6

open Function

variable {N NF NO : ℕ}

/-! ## Tokens -/

/-- What a process can have references to. -/
inductive Tok (NF : ℕ)
  | file (f : Fin NF)
  | pipe (pi : ℕ) (writable : Bool)
  | inode (ip : ℕ)
  deriving DecidableEq

/-- One token, or none. -/
def tok (o : Option (Tok NF)) : Tok NF → ℤ := fun t => if o = some t then 1 else 0

@[simp] theorem tok_none : tok (none : Option (Tok NF)) = 0 := by
  funext t
  simp [tok]

@[simp] theorem tok_self {t : Tok NF} : tok (some t) t = 1 := by simp [tok]

theorem tok_of_ne {o : Option (Tok NF)} {t : Tok NF} (h : o ≠ some t) : tok o t = 0 := by
  simp [tok, h]

theorem tok_nonneg (o : Option (Tok NF)) (t : Tok NF) : 0 ≤ tok o t := by
  unfold tok
  split <;> omega

/-- What an entry of the file table refers to. -/
def File.token (x : File) : Option (Tok NF) :=
  match x.type with
  | .none => none
  | .pipe => some (.pipe x.pipe x.writable)
  | .inode => some (.inode x.ip)
  | .device => some (.inode x.ip)

/-- A file that is not in use refers to nothing. -/
theorem File.token_of_none {x : File} (h : x.type = .none) :
    (x.token : Option (Tok NF)) = none := by
  simp [token, h]

/-- A file does not refer to a file. -/
theorem File.token_ne_file (x : File) (f : Fin NF) : x.token ≠ some (.file f) := by
  unfold File.token
  split <;> simp

/-- What a descriptor table refers to. -/
def descs (t : Ofile NF NO) : Tok NF → ℤ := ∑ fd, tok ((t fd).map .file)

theorem descs_apply (t : Ofile NF NO) (x : Tok NF) : descs t x = ∑ fd, tok ((t fd).map .file) x :=
  Finset.sum_apply ..

theorem descs_nonneg (t : Ofile NF NO) (x : Tok NF) : 0 ≤ descs t x := by
  rw [descs_apply]
  exact Finset.sum_nonneg fun fd _ => tok_nonneg _ _

variable {f : Fin NF} {fd : Fin NO} {t : Ofile NF NO}

theorem descs_pos (h : t fd = some f) : 0 < descs t (.file f) := by
  rw [descs_apply]
  refine Finset.sum_pos' (fun fd _ => tok_nonneg _ _) ⟨fd, Finset.mem_univ fd, ?_⟩
  simp [h]

/-- A descriptor changes. -/
theorem descs_update (t : Ofile NF NO) (fd : Fin NO) (v : Option (Fin NF)) :
    descs (update t fd v) = descs t + tok (v.map .file) - tok ((t fd).map .file) := by
  have hcomp : (fun fd' => tok ((update t fd v fd').map Tok.file)) =
      update (fun fd' => tok ((t fd').map Tok.file)) fd (tok (v.map .file)) := by
    funext fd'
    by_cases h : fd' = fd
    · subst h
      simp
    · simp [h]
  rw [descs, hcomp, Machine.sum_update_sub, descs]
  abel

theorem descs_of_ne_file {x : Tok NF} (h : ∀ f, x ≠ .file f) : descs t x = 0 := by
  rw [descs_apply]
  refine Finset.sum_eq_zero fun fd _ => tok_of_ne fun he => ?_
  obtain ⟨f, -, hf⟩ := Option.map_eq_some_iff.mp he
  exact h f hf.symm

/-- Is the end open ? -/
def PipeEnds.isOpen (e : PipeEnds) (writable : Bool) : Bool :=
  if writable then e.writeopen else e.readopen

namespace Ftable

/-- The tokens there are. -/
def supply (s : Ftable N NF NO) : Tok NF → ℤ
  | .file f => (s.file f).ref
  | .pipe pi w => ((s.page pi).any (·.isOpen w)).toNat
  | .inode ip => s.iref ip

/-- The tokens that the file table holds. -/
def filed (s : Ftable N NF NO) : Tok NF → ℤ := ∑ f, tok (s.file f).token

theorem filed_apply (s : Ftable N NF NO) (t : Tok NF) :
    s.filed t = ∑ f, tok (s.file f).token t :=
  Finset.sum_apply ..

theorem filed_nonneg (s : Ftable N NF NO) (t : Tok NF) : 0 ≤ s.filed t := by
  rw [filed_apply]
  exact Finset.sum_nonneg fun f _ => tok_nonneg _ _

theorem filed_file (s : Ftable N NF NO) (f : Fin NF) : s.filed (.file f) = 0 := by
  rw [filed_apply]
  exact Finset.sum_eq_zero fun g _ => tok_of_ne (File.token_ne_file _ _)

theorem filed_setFile (s : Ftable N NF NO) (f : Fin NF) (x : File) :
    (s.setFile f x).filed = s.filed + tok x.token - tok (s.file f).token := by
  have hcomp : (fun g => tok ((update s.file f x g).token : Option (Tok NF))) =
      update (fun g => tok (s.file g).token) f (tok x.token) := by
    funext g
    by_cases h : g = f
    · subst h
      simp
    · simp [h]
  rw [filed, setFile, hcomp, Machine.sum_update_sub, filed]
  abel

theorem supply_setFile (s : Ftable N NF NO) (f : Fin NF) (x : File) :
    (s.setFile f x).supply =
      s.supply + ((x.ref : ℤ) - (s.file f).ref) • tok (some (.file f)) := by
  funext t
  cases t with
  | file g =>
    by_cases h : f = g
    · subst h
      simp [supply, setFile]
    · simp [supply, setFile, tok, h, Ne.symm h]
  | pipe pi w => simp [supply, setFile, tok]
  | inode ip => simp [supply, setFile, tok]

theorem supply_setIref (s : Ftable N NF NO) (ip n : ℕ) :
    (s.setIref ip n).supply = s.supply + ((n : ℤ) - s.iref ip) • tok (some (.inode ip)) := by
  funext t
  cases t with
  | file g => simp [supply, setIref, tok]
  | pipe pi w => simp [supply, setIref, tok]
  | inode ip' =>
    by_cases h : ip = ip'
    · subst h
      simp [supply, setIref]
    · simp [supply, setIref, tok, h, Ne.symm h]

/-- The ends of a pipe open or close. -/
theorem supply_setPage (s : Ftable N NF NO) (pi : ℕ) (e : Option PipeEnds) :
    (s.setPage pi e).supply = s.supply +
      (((e.any (·.isOpen false)).toNat : ℤ) - ((s.page pi).any (·.isOpen false)).toNat) •
        tok (some (.pipe pi false)) +
      (((e.any (·.isOpen true)).toNat : ℤ) - ((s.page pi).any (·.isOpen true)).toNat) •
        tok (some (.pipe pi true)) := by
  funext t
  cases t with
  | file g => simp [supply, setPage, tok]
  | inode ip => simp [supply, setPage, tok]
  | pipe pi' w =>
    by_cases h : pi = pi'
    · subst h
      cases w <;> simp [supply, setPage, tok]
    · simp [supply, setPage, tok, h, Ne.symm h]

end Ftable

/-! ## What a process knows and holds in a system call -/

/-- `row` is the process's own descriptor table, `raw` the files it allocated and did not fill
in, and `child` the process that it creates, with its descriptor table. -/
structure Held (N NF NO : ℕ) where
  self : Fin N
  row : Option (Ofile NF NO)
  hand : Tok NF → ℤ
  raw : Fin NF → Bool
  child : Option (Fin N × Ofile NF NO)

namespace Held

variable (o : Held N NF NO)

/-- The tokens of the process, in descriptors or not. -/
def mine : Tok NF → ℤ := o.row.elim 0 descs + o.hand

@[simp] def gain (t : Tok NF) : Held N NF NO := { o with hand := o.hand + tok (some t) }

@[simp] def lose (t : Tok NF) : Held N NF NO := { o with hand := o.hand - tok (some t) }

/-- The process gives up a reference to `f`. -/
@[simp] def drop (f : Fin NF) : Held N NF NO :=
  { o with hand := o.hand - tok (some (.file f)), raw := update o.raw f false }

/-- The file `f` takes a token of the process. -/
@[simp] def fill (f : Fin NF) (t : Tok NF) : Held N NF NO :=
  { o with hand := o.hand - tok (some t), raw := update o.raw f false }

/-- The slot `fd` takes the token of the file `v`, and gives back the one it had. -/
@[simp] def put (t : Ofile NF NO) (fd : Fin NO) (v : Option (Fin NF)) : Held N NF NO :=
  { o with
    row := some (update t fd v)
    hand := o.hand + tok ((t fd).map .file) - tok (v.map .file) }

/-- What a process must have for the action. -/
def Needs : FileAct N NF NO → Prop
  | .scheduled p => o.self = p
  | .getfd p _ => o.self = p ∧ o.row.isSome
  | .setfd p _ _ => o.self = p ∧ o.row.isSome
  | .fdalloc p _ => o.self = p ∧ o.row.isSome
  | .filealloc => True
  | .filedup f => 0 < o.mine (.file f) ∧ o.raw f = false ∧ o.row.isSome
  | .unref f => 0 < o.mine (.file f) ∧ o.row.isSome
  | .setPipe f pi w => o.raw f = true ∧ 0 < o.hand (.pipe pi w)
  | .setInode f ip _ _ _ => o.raw f = true ∧ 0 < o.hand (.inode ip)
  | .kalloc _ => True
  | .pipeclose pi w => 0 < o.hand (.pipe pi w)
  | .iget _ => True
  | .iput ip => 0 < o.hand (.inode ip)
  | .allocproc => o.child = none
  | .freeproc q => o.child = some (q, fun _ => none)
  | .copyfd q i f => o.row.isSome ∧ 0 < o.mine (.file f) ∧ o.raw f = false ∧
      ∃ t, o.child = some (q, t) ∧ t i = none
  | .runnable q => ∃ t, o.child = some (q, t)
  | .zombie p => o.self = p ∧ o.row = some fun _ => none
  | .reap _ => True
  | .panic e => e = .initExiting

/-- What a process has after the action. -/
def Does : (a : FileAct N NF NO) → a.Res → Held N NF NO → Prop
  | .scheduled _, r, o' => if r then ∃ t, o' = { o with row := some t } else o' = o
  | .getfd _ fd, r, o' => ∃ t, o.row = some t ∧ r = t fd ∧ o' = o
  | .setfd _ fd v, _, o' => ∃ t, o.row = some t ∧ o' = o.put t fd v
  | .fdalloc _ f, r, o' => r = none ∧ o' = o ∨
      ∃ t fd, o.row = some t ∧ t fd = none ∧ r = some fd ∧ o' = o.put t fd (some f)
  | .filealloc, r, o' => r = none ∧ o' = o ∨
      ∃ f, r = some f ∧ o.raw f = false ∧
        o' = { o.gain (.file f) with raw := update o.raw f true }
  | .filedup f, _, o' => o' = o.gain (.file f)
  | .unref f, r, o' => r = none ∧ o' = o.drop f ∨
      ∃ ff, r = some ff ∧ (∀ t, ff.token = some t → 0 ≤ o.hand t) ∧
        o' = { o.drop f with hand := (o.drop f).hand + tok ff.token }
  | .setPipe f pi w, _, o' => o' = o.fill f (.pipe pi w)
  | .setInode f ip _ _ _, _, o' => o' = o.fill f (.inode ip)
  | .kalloc _, r, o' => r = none ∧ o' = o ∨
      ∃ pi, r = some pi ∧ o' = (o.gain (.pipe pi false)).gain (.pipe pi true)
  | .pipeclose pi w, _, o' => o' = o.lose (.pipe pi w)
  | .iget ip, _, o' => o' = o.gain (.inode ip)
  | .iput ip, _, o' => o' = o.lose (.inode ip)
  | .allocproc, r, o' => r = none ∧ o' = o ∨
      ∃ q, r = some q ∧ o' = { o with child := some (q, fun _ => none) }
  | .freeproc _, _, o' => o' = { o with child := none }
  | .copyfd q i f, _, o' => ∃ t, o.child = some (q, t) ∧
      o' = { o.lose (.file f) with child := some (q, update t i (some f)) }
  | .runnable _, _, o' => o' = { o with child := none }
  | .zombie _, _, o' => o' = { o with row := none }
  | .reap _, _, o' => o' = o
  | .panic _, _, _ => False

end Held

/-- The actions, with what they need and give. -/
def fileRules : Discipline (FileAct N NF NO) FileAct.Res (Ftable N NF NO) (Held N NF NO) where
  needs a o := o.Needs a
  does a _ o r _ o' := o.Does a r o'

/-- Between system calls a process holds nothing besides its descriptors. -/
structure Held.Idle (p : Fin N) (o : Held N NF NO) : Prop where
  self : o.self = p
  hand : o.hand = 0
  raw : o.raw = fun _ => false
  child : o.child = none

/-! ## The system calls keep to the rules -/

/-- A token moves from the hand to the table. -/
theorem Held.mine_put {o : Held N NF NO} (h : o.row = some t) (fd : Fin NO) (v : Option (Fin NF)) :
    (o.put t fd v).mine = o.mine := by
  simp only [mine, put, h, Option.elim, descs_update]
  abel

/-- What a process holds besides its descriptors is its own. -/
theorem Held.mine_pos {o : Held N NF NO} (h : 0 < o.hand (.file f)) : 0 < o.mine (.file f) := by
  have hrow : 0 ≤ o.row.elim (0 : Tok NF → ℤ) descs (.file f) := by
    cases o.row with
    | none => exact le_rfl
    | some t => exact descs_nonneg t _
  exact add_pos_of_nonneg_of_pos hrow h

theorem Held.drop_put {o : Held N NF NO} (h : t fd = some f) (hraw : o.raw f = false) :
    (o.drop f).put t fd none = { o with row := some (update t fd none) } := by
  simp [h, ← hraw]

/-- A process with the descriptor table `t`, at the start of a system call. -/
@[simp] def Held.entered (p : Fin N) (t : Ofile NF NO) : Held N NF NO :=
  ⟨p, some t, 0, fun _ => false, none⟩

theorem Held.entered_idle (p : Fin N) (t : Ofile NF NO) : (Held.entered p t).Idle p :=
  ⟨rfl, rfl, rfl, rfl⟩

/-- The descriptors of a call are tokens of the process. -/
theorem Held.entered_mine {p : Fin N} (h : t fd = some f) :
    0 < (Held.entered p t).mine (.file f) := by
  simpa [mine] using descs_pos h

section Holds

variable {o : Held N NF NO} {p : Fin N} {t : Ofile NF NO}

variable {Q : Unit → Held N NF NO → Prop}

/-- The rule for an action and what follows it. -/
theorem holds_act {β : Type} {a : FileAct N NF NO} {k : a.Res → Ctl (FileAct N NF NO) FileAct.Res β}
    {Q : β → Held N NF NO → Prop} (hn : o.Needs a)
    (h : ∀ r o', o.Does a r o' → Ctl.Holds fileRules (k r) Q o') :
    Ctl.Holds fileRules (.call a >>= k) Q o :=
  Ctl.holds_call_bind.mpr ⟨hn, fun _ r _ o' hd => h r o' hd⟩

/-- `fileclose` gives up what the file referred to. -/
theorem closeLast_holds {ff : File} (h : ∀ x, ff.token = some x → 0 ≤ o.hand x) (hQ : Q () o) :
    Ctl.Holds fileRules (FileSys.closeLast ff) Q { o with hand := o.hand + tok ff.token } := by
  have hlast : ∀ x, ff.token = some x → 0 < o.hand x + tok ff.token x ∧
      Q () (Held.lose { o with hand := o.hand + tok ff.token } x) := by
    intro x hx
    have := h x hx
    simp only [hx, tok_self, Held.lose, add_sub_cancel_right]
    exact ⟨by omega, hQ⟩
  unfold FileSys.closeLast
  split <;> rename_i htype
  · obtain ⟨hpos, hQ⟩ := hlast (.pipe ff.pipe ff.writable) (by simp [File.token, htype])
    exact ⟨hpos, fun _ _ _ _ ho => ho ▸ hQ⟩
  · obtain ⟨hpos, hQ⟩ := hlast (.inode ff.ip) (by simp [File.token, htype])
    exact ⟨hpos, fun _ _ _ _ ho => ho ▸ hQ⟩
  · obtain ⟨hpos, hQ⟩ := hlast (.inode ff.ip) (by simp [File.token, htype])
    exact ⟨hpos, fun _ _ _ _ ho => ho ▸ hQ⟩
  · simpa [File.token_of_none htype] using hQ

/-- The file that is closed is given up. -/
theorem fileclose_holds {f : Fin NF} (hrow : o.row.isSome) (h : 0 < o.mine (.file f))
    (hQ : Q () (o.drop f)) : Ctl.Holds fileRules (FileSys.fileclose f) Q o := by
  refine holds_act ⟨h, hrow⟩ ?_
  rintro r o' (⟨rfl, rfl⟩ | ⟨ff, rfl, hpos, rfl⟩)
  · exact hQ
  · refine closeLast_holds (fun x hx => ?_) hQ
    have hne : some (Tok.file f) ≠ some x := fun he => File.token_ne_file ff f (hx.trans he.symm)
    simpa [tok_of_ne hne] using hpos x hx

theorem argfd_holds {fd : ℕ} {Q : Option (Fin NO × Fin NF) → Held N NF NO → Prop}
    (hnone : Q none (.entered p t))
    (hsome : ∀ fd f, t fd = some f → Q (some (fd, f)) (.entered p t)) :
    Ctl.Holds fileRules (FileSys.argfd p fd) Q (.entered p t) := by
  unfold FileSys.argfd
  split
  · rename_i hfd
    refine holds_act ⟨rfl, rfl⟩ ?_
    rintro r _ ⟨_, ⟨⟩, rfl, rfl⟩
    cases hf : t ⟨fd, hfd⟩ with
    | none => simpa [hf] using hnone
    | some f => simpa [hf] using hsome _ f hf
  · exact hnone

theorem sysDup_holds (fd : ℕ) :
    Ctl.Holds fileRules (FileSys.sysDup p fd) (fun _ => Held.Idle p) (.entered p t) := by
  refine Ctl.holds_bind.mpr (argfd_holds (Held.entered_idle p t) fun fd f hf => ?_)
  refine holds_act ⟨rfl, rfl⟩ ?_
  rintro r o' (⟨rfl, rfl⟩ | ⟨t', fd', ht', hfd', rfl, rfl⟩)
  · exact Held.entered_idle p t
  · -- the slot is filled, and its token still owed
    refine ⟨⟨?_, rfl, rfl⟩, ?_⟩
    · rw [Held.mine_put ht']
      exact Held.entered_mine hf
    · rintro _ _ _ o' rfl
      exact ⟨rfl, by simp [hfd'], rfl, rfl⟩

theorem sysClose_holds (fd : ℕ) :
    Ctl.Holds fileRules (FileSys.sysClose p fd) (fun _ => Held.Idle p) (.entered p t) := by
  refine Ctl.holds_bind.mpr (argfd_holds (Held.entered_idle p t) fun fd f hf => ?_)
  refine holds_act ⟨rfl, rfl⟩ ?_
  rintro _ o' ⟨t', ht', rfl⟩
  obtain rfl : t = t' := by simpa using ht'
  refine fileclose_holds rfl ?_ ?_
  · rw [Held.mine_put ht']
    exact Held.entered_mine hf
  · exact ⟨rfl, by simp [hf],
      by simp, rfl⟩

theorem sysOpen_holds (look : FileSys.Lookup) :
    Ctl.Holds fileRules (FileSys.sysOpen p look) (fun _ => Held.Idle p) (.entered p t) := by
  cases look with
  | missing => exact Held.entered_idle p t
  | refused ip =>
    refine holds_act trivial ?_
    rintro _ _ rfl
    refine ⟨by simp [fileRules, Held.Needs], ?_⟩
    rintro _ _ _ _ rfl
    exact ⟨rfl, by simp, rfl, rfl⟩
  | found ip device readable writable =>
    refine holds_act trivial ?_
    rintro _ _ rfl
    refine holds_act trivial ?_
    rintro r _ (⟨rfl, rfl⟩ | ⟨f, rfl, -, rfl⟩)
    · refine ⟨by simp [fileRules, Held.Needs], ?_⟩
      rintro _ _ _ _ rfl
      exact ⟨rfl, by simp, rfl, rfl⟩
    refine holds_act ⟨rfl, rfl⟩ ?_
    rintro r _ (⟨rfl, rfl⟩ | ⟨t', fd, ht', hfd, rfl, rfl⟩)
    · refine Ctl.holds_bind.mpr (fileclose_holds rfl ?_ ?_)
      · exact Held.mine_pos (by simp [tok])
      · refine ⟨by simp [fileRules, Held.Needs], ?_⟩
        rintro _ _ _ _ rfl
        exact ⟨rfl, by simp,
          by simp, rfl⟩
    · refine ⟨⟨by simp, ?_⟩, ?_⟩
      · simp [hfd]
      · rintro _ _ _ _ rfl
        exact ⟨rfl, by simp [hfd],
          by simp, rfl⟩

/-- The files of a new pipe, whose references the process has. -/
theorem pipealloc_holds {free : Option ℕ} {Q : Option (Fin NF × Fin NF) → Held N NF NO → Prop}
    (hnone : Q none (.entered p t))
    (hsome : ∀ rf wf, Q (some (rf, wf))
      { Held.entered p t with hand := tok (some (.file rf)) + tok (some (.file wf)) }) :
    Ctl.Holds fileRules (FileSys.pipealloc free) Q (.entered p t) := by
  refine holds_act trivial ?_
  rintro r _ (⟨rfl, rfl⟩ | ⟨f0, rfl, -, rfl⟩)
  · exact hnone
  refine holds_act trivial ?_
  rintro r _ (⟨rfl, rfl⟩ | ⟨f1, rfl, hraw, rfl⟩)
  · refine Ctl.holds_bind.mpr (fileclose_holds rfl ?_ ?_)
    · exact Held.mine_pos (by simp)
    · simpa using hnone
  have hne : f1 ≠ f0 := by
    rintro rfl
    simp at hraw
  refine holds_act trivial ?_
  rintro r _ (⟨rfl, rfl⟩ | ⟨pi, rfl, rfl⟩)
  · refine Ctl.holds_bind.mpr (fileclose_holds rfl ?_ ?_)
    · exact Held.mine_pos (by simp [add_pos_of_pos_of_nonneg, tok_nonneg])
    refine Ctl.holds_bind.mpr (fileclose_holds rfl ?_ ?_)
    · exact Held.mine_pos (by simp)
    · simpa [update_comm hne] using hnone
  · refine Ctl.holds_call_bind.mpr ⟨⟨by simp [hne.symm], ?_⟩, ?_⟩
    · simp [tok]
    rintro _ _ _ _ rfl
    refine Ctl.holds_call_bind.mpr ⟨⟨by simp [hne], ?_⟩, ?_⟩
    · simp [tok]
    rintro _ _ _ _ rfl
    have hback : ∀ a b c : Tok NF → ℤ, a + b + c - b - c = a := fun a b c => by abel
    simpa [update_comm hne, hback] using hsome f0 f1

theorem closeBoth_holds {rf wf : Fin NF} (hrow : o.row.isSome) (hself : o.self = p)
    (hraw : o.raw = fun _ => false) (hchild : o.child = none)
    (hhand : o.hand = tok (some (.file rf)) + tok (some (.file wf))) :
    Ctl.Holds fileRules (FileSys.closeBoth rf wf) (fun _ => Held.Idle p) o := by
  refine Ctl.holds_bind.mpr (fileclose_holds hrow ?_ (fileclose_holds hrow ?_ ?_))
  · exact Held.mine_pos (by simp [hhand, add_pos_of_pos_of_nonneg, tok_nonneg])
  · exact Held.mine_pos (by simp [hhand])
  · exact ⟨hself, by simp [hhand], by simp [hraw], hchild⟩

/-- Each failure of `sys_pipe` gives back both files. -/
theorem sysPipe_holds (free : Option ℕ) (copied : Bool) :
    Ctl.Holds fileRules (FileSys.sysPipe p free copied) (fun _ => Held.Idle p) (.entered p t) := by
  refine Ctl.holds_bind.mpr (pipealloc_holds (Held.entered_idle p t) fun rf wf => ?_)
  refine holds_act ⟨rfl, rfl⟩ ?_
  rintro r _ (⟨rfl, rfl⟩ | ⟨_, fd0, ⟨⟩, hfd0, rfl, rfl⟩)
  · exact closeBoth_holds rfl rfl rfl rfl rfl
  refine holds_act ⟨rfl, rfl⟩ ?_
  rintro r _ (⟨rfl, rfl⟩ | ⟨_, fd1, ⟨⟩, hfd1, rfl, rfl⟩)
  · refine holds_act ⟨rfl, rfl⟩ ?_
    rintro _ _ ⟨_, ⟨⟩, rfl⟩
    exact closeBoth_holds rfl rfl rfl rfl (by simp [hfd0, add_comm])
  have hne : fd1 ≠ fd0 := by
    rintro rfl
    simp at hfd1
  rw [update_of_ne hne] at hfd1
  cases copied with
  | true => exact ⟨rfl, by simp [hfd0, hfd1, hne], rfl, rfl⟩
  | false =>
    refine holds_act ⟨rfl, rfl⟩ ?_
    rintro _ _ ⟨_, ⟨⟩, rfl⟩
    refine holds_act ⟨rfl, rfl⟩ ?_
    rintro _ _ ⟨_, ⟨⟩, rfl⟩
    exact closeBoth_holds rfl rfl rfl rfl (by simp [hfd0, hfd1, hne, hne.symm])

/-- The descriptors `l` are still to be copied, and those of the child are free. -/
theorem forkLoop_holds {q : Fin N}
    (hQ : ∀ t', Q () { Held.entered p t with child := some (q, t') }) :
    ∀ (l : List (Fin NO)) (t' : Ofile NF NO), l.Nodup → (∀ i ∈ l, t' i = none) →
      Ctl.Holds fileRules (FileSys.forkLoop p q l) Q { Held.entered p t with child := some (q, t') }
  | [], t', _, _ => hQ t'
  | i :: l, t', hl, hfree => by
    obtain ⟨hi, hl⟩ := List.nodup_cons.mp hl
    refine holds_act ⟨rfl, rfl⟩ ?_
    rintro r _ ⟨_, ⟨⟩, rfl, rfl⟩
    cases hf : t i with
    | none => exact forkLoop_holds hQ l t' hl fun j hj => hfree j (List.mem_cons_of_mem i hj)
    | some f =>
      refine holds_act ⟨Held.entered_mine (p := p) hf, rfl, rfl⟩ ?_
      rintro _ _ rfl
      refine Ctl.holds_call_bind.mpr
        ⟨⟨rfl, ?_, rfl, t', rfl, hfree i List.mem_cons_self⟩, ?_⟩
      · exact Held.mine_pos (by simp)
      rintro _ _ _ _ ⟨t₁, ht₁, rfl⟩
      obtain rfl : t' = t₁ := by simpa using ht₁
      have hrest := forkLoop_holds hQ l (update t' i (some f)) hl fun j hj => by
        have hji : j ≠ i := fun he => hi (he ▸ hj)
        rw [update_of_ne hji]
        exact hfree j (List.mem_cons_of_mem i hj)
      simpa using hrest

/-- The child gets tokens of its own. -/
theorem fork_holds (memory : Bool) :
    Ctl.Holds fileRules (FileSys.fork p memory) (fun _ => Held.Idle p) (.entered p t) := by
  refine holds_act rfl ?_
  rintro r _ (⟨rfl, rfl⟩ | ⟨q, rfl, rfl⟩)
  · exact Held.entered_idle p t
  cases memory with
  | true =>
    refine Ctl.holds_bind.mpr (forkLoop_holds (fun t' => ?_) _ _ (List.nodup_finRange NO)
      fun _ _ => rfl)
    refine ⟨⟨t', rfl⟩, ?_⟩
    rintro _ _ _ _ rfl
    exact ⟨rfl, rfl, rfl, rfl⟩
  | false =>
    refine ⟨rfl, ?_⟩
    rintro _ _ _ _ rfl
    exact ⟨rfl, rfl, rfl, rfl⟩

/-- All slots but those of `l` are free. -/
theorem exitLoop_holds (hQ : Q () (.entered p fun _ => none)) :
    ∀ (l : List (Fin NO)) (t : Ofile NF NO), (∀ fd, fd ∉ l → t fd = none) →
      Ctl.Holds fileRules (FileSys.exitLoop p l) Q (.entered p t)
  | [], t, hfree => by
    obtain rfl : t = fun _ => none := funext fun fd => hfree fd List.not_mem_nil
    exact hQ
  | fd :: l, t, hfree => by
    refine holds_act ⟨rfl, rfl⟩ ?_
    rintro r _ ⟨_, ⟨⟩, rfl, rfl⟩
    cases hf : t fd with
    | none =>
      refine exitLoop_holds hQ l t fun fd' hfd' => ?_
      by_cases he : fd' = fd
      · rwa [he]
      · exact hfree fd' (by simp [he, hfd'])
    | some f =>
      refine Ctl.holds_bind.mpr (fileclose_holds rfl (Held.entered_mine hf) ?_)
      refine holds_act ⟨rfl, rfl⟩ ?_
      rintro _ _ ⟨_, ⟨⟩, rfl⟩
      rw [Held.drop_put hf rfl]
      refine exitLoop_holds hQ l (update t fd none) fun fd' hfd' => ?_
      by_cases he : fd' = fd
      · simp [he]
      · rw [update_of_ne he]
        exact hfree fd' (by simp [he, hfd'])

/-- A process that exits gives up all its files. -/
theorem exit_holds (initproc : Fin N) :
    Ctl.Holds fileRules (FileSys.exit initproc p) (fun _ => Held.Idle p) (.entered p t) := by
  unfold FileSys.exit
  split
  · exact ⟨rfl, fun _ _ _ _ h => h.elim⟩
  · refine Ctl.holds_bind.mpr (exitLoop_holds ?_ _ _ fun fd h => absurd (List.mem_finRange fd) h)
    refine ⟨⟨rfl, rfl⟩, ?_⟩
    rintro _ _ _ _ rfl
    exact ⟨rfl, rfl, rfl, rfl⟩

/-- A call leaves no token in the hand. -/
theorem body_holds (initproc : Fin N) (c : FileCall N) :
    Ctl.Holds fileRules (c.body initproc p) (fun _ => Held.Idle p) (.entered p t) := by
  cases c with
  | «open» look => exact sysOpen_holds look
  | dup fd => exact sysDup_holds fd
  | close fd => exact sysClose_holds fd
  | pipe free copied => exact sysPipe_holds free copied
  | fork memory => exact fork_holds memory
  | exit => exact exit_holds initproc
  | wait q =>
    refine ⟨trivial, ?_⟩
    rintro _ _ _ _ rfl
    exact Held.entered_idle p t

theorem prog_holds (initproc : Fin N) (c : FileCall N) (h : o.Idle p) :
    Ctl.Holds fileRules (c.prog initproc p) Held.Idle o := by
  refine holds_act h.self ?_
  rintro r o' hd
  cases r with
  | true =>
    obtain ⟨t, rfl⟩ : ∃ t, o' = { o with row := some t } := by simpa [fileRules, Held.Does] using hd
    have heq : { o with row := some t } = Held.entered p t := by
      simp [h.self, h.hand, h.raw, h.child]
    rw [heq]
    exact Ctl.holds_bind.mpr (body_holds initproc c)
  | false =>
    obtain rfl : o' = o := by simpa [fileRules, Held.Does] using hd
    exact h

end Holds

end Xv6
