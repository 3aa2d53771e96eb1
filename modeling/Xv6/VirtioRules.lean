import Xv6.Virtio

/-!
# The rules of the driver

What a thread may rely on in a call of the driver : `vdisk_lock`, the lock of its buffer, and
how far it is with its descriptors (`Stage`). Descriptors that it has allocated are its own until
it frees them ; from `publish` on the device may read them, and the thread must leave them alone
until it has seen `b->disk` cleared. `rules` says what each action needs and what it does to
this, and the programs of the driver keep the rules (`prog_holds`).
-/

namespace Xv6.Virtio

open Function Ctl

variable {B : Type}

/-- How far a thread is with a request. -/
inductive Stage (B : Type)
  /-- descriptors that were allocated -/
  | alloc (l : List ℕ)
  /-- the chain is written -/
  | built (c : Chain B)
  /-- and its head is in the ring -/
  | ringed (c : Chain B)
  /-- and published, as request `n` -/
  | wait (c : Chain B) (n : ℕ)
  /-- `b->disk` was found cleared -/
  | over (c : Chain B) (n : ℕ)
  /-- what is left to free of the chain -/
  | free (l : List ℕ) (n : ℕ)
  /-- an interrupt, at this entry of the used ring -/
  | used (id : ℕ)
  /-- and with its buffer -/
  | seen (id : ℕ) (b : B)

/-- The descriptors that are a thread's own. -/
def Stage.descs : Stage B → List ℕ
  | .alloc l | .free l _ => l
  | .built c | .ringed c | .wait c _ | .over c _ => c.descs
  | .used _ | .seen _ _ => []

structure Own (B : Type) where
  /-- `vdisk_lock` -/
  lock : Bool
  /-- `b->lock` -/
  buf : Option B
  stage : Stage B
  /-- the last request that `virtio_disk_rw` returned for -/
  done : Option ℕ

/-- What a thread has to own for an action. -/
def Act.Needs : Act B → Own B → Prop
  | .acquire, o => o.lock = false
  | .release, o => o.lock = true ∧
    (o.stage = .alloc [] ∨ (∃ c n, o.stage = .wait c n) ∨ ∃ n, o.stage = .free [] n)
  | .lockBuf _, o => o.buf = none ∧ o.stage = .alloc []
  | .unlockBuf b, o => o.buf = some b ∧ ∃ n, o.stage = .free [] n
  | .allocDesc, o => o.lock = true ∧ ∃ l, o.stage = .alloc l
  | .freeDesc i, o => o.lock = true ∧
    ((∃ l, o.stage = .alloc (i :: l)) ∨ ∃ l n, o.stage = .free (i :: l) n)
  | .link i, o => ∃ l n, o.stage = .free (i :: l) n
  | .format c, o => o.lock = true ∧ o.buf = some c.b ∧ o.stage = .alloc c.descs
  | .ring i, o => ∃ c, o.stage = .built c ∧ i = c.idx0
  | .publish c, o => o.stage = .ringed c
  | .busyBuf b, o => o.lock = true ∧ ∃ c n, o.stage = .wait c n ∧ b = c.b
  | .clear i, o => ∃ c n, o.stage = .over c n ∧ i = c.idx0
  | .used, o => o.lock = true ∧ o.stage = .alloc []
  | .status i, o => o.stage = .used i
  | .infoB i, o => o.stage = .used i
  | .finish b, o => ∃ id, o.stage = .seen id b
  | .take, _ => True
  | .complete _, _ => True
  | .panic _, _ => False

/-- What an action answers, and what the thread owns afterwards. -/
def Act.Does : (a : Act B) → Own B → a.Res → Own B → Prop
  | .acquire, o, _, o' => o' = { o with lock := true }
  | .release, o, _, o' => o' = { o with lock := false }
  | .lockBuf b, o, _, o' => o' = { o with buf := some b }
  | .unlockBuf _, o, _, o' => ∀ n, o.stage = .free [] n →
    o' = { o with buf := none, stage := .alloc [], done := some n }
  | .allocDesc, o, r, o' => ∀ l, o.stage = .alloc l → match r with
    | none => o' = o
    | some i => o' = { o with stage := .alloc (l ++ [i]) }
  | .freeDesc i, o, _, o' => (∀ l, o.stage = .alloc (i :: l) → o' = { o with stage := .alloc l }) ∧
    ∀ l n, o.stage = .free (i :: l) n → o' = { o with stage := .free l n }
  -- a link is marked as such, and leads to the next descriptor
  | .link i, o, r, o' => o' = o ∧ ∀ l n, o.stage = .free (i :: l) n →
    (r.1 &&& VRING_DESC_F_NEXT ≠ 0 ↔ l ≠ []) ∧ ∀ j ∈ l.head?, r.2 = j
  | .format c, o, _, o' => o' = { o with stage := .built c }
  | .ring _, o, _, o' => ∀ c, o.stage = .built c → o' = { o with stage := .ringed c }
  | .publish c, o, n, o' => o' = { o with stage := .wait c n }
  | .busyBuf _, o, r, o' => ∀ c n, o.stage = .wait c n →
    o' = if r then o else { o with stage := .over c n }
  | .clear _, o, _, o' => ∀ c n, o.stage = .over c n → o' = { o with stage := .free c.descs n }
  | .used, o, r, o' => match r with
    | none => o' = o
    | some id => o' = { o with stage := .used id }
  | .status _, o, r, o' => r = 0 ∧ o' = o
  | .infoB i, o, r, o' => ∃ b, r = some b ∧ o' = { o with stage := .seen i b }
  | .finish _, o, _, o' => o' = { o with stage := .alloc [] }
  | .take, o, _, o' => o' = o
  | .complete _, o, _, o' => o' = o
  | .panic _, _, _, _ => False

def rules (B : Type) : Discipline (Act B) Act.Res (Disk B) (Own B) where
  needs := Act.Needs
  does a _ o r _ o' := a.Does o r o'

/-- What a thread owns between rounds. -/
def Idle : Loc B → Own B → Prop
  | .idle done, o => o.lock = false ∧ o.buf = none ∧ o.stage = .alloc [] ∧
    ∀ n, done = some n → o.done = some n
  | .alloc b _ _, o => o.lock = false ∧ o.buf = some b ∧ o.stage = .alloc []
  | .wait c n, o => o.lock = false ∧ o.buf = some c.b ∧ o.stage = .wait c n
  | .free i c n, o => o.lock = true ∧ o.buf = some c.b ∧ ∃ l, o.stage = .free (i :: l) n
  | .intr, o => o.lock = true ∧ o.buf = none ∧ o.stage = .alloc []

namespace Code

variable {o : Own B} {c : Chain B} {n : ℕ}

theorem holds_act {α : Type} {a : Act B} {f : a.Res → Code B α} {Q : α → Own B → Prop}
    (hn : a.Needs o) (h : ∀ r o', a.Does o r o' → Holds (rules B) (f r) Q o') :
    Holds (rules B) (act a >>= f) Q o :=
  holds_call_bind.mpr ⟨hn, fun _ r _ o' hd => h r o' hd⟩

theorem waitRound_holds (hl : o.lock = true) (hb : o.buf = some c.b) (hs : o.stage = .wait c n) :
    Holds (rules B) (waitRound c n) Idle o := by
  refine holds_act ⟨hl, c, n, hs, rfl⟩ ?_
  rintro r o₁ hd
  obtain rfl := hd c n hs
  cases r with
  | true =>
    refine holds_act ⟨hl, .inr (.inl ⟨c, n, hs⟩)⟩ ?_
    rintro _ o₂ rfl
    exact ⟨rfl, hb, hs⟩
  | false =>
    refine holds_act ⟨c, n, rfl, rfl⟩ ?_
    rintro _ o₂ hd'
    obtain rfl := hd' c n rfl
    exact ⟨hl, hb, _, rfl⟩

/-- `alloc3_desc` has three descriptors, or none. -/
theorem alloc3Desc_holds (hl : o.lock = true) (hs : o.stage = .alloc []) :
    Holds (rules B) alloc3Desc (fun r o' => match r with
      | none => o' = o
      | some (i, j, k) => o' = { o with stage := .alloc [i, j, k] }) o := by
  refine holds_act ⟨hl, _, hs⟩ ?_
  rintro (_ | i) o₁ hd <;> obtain rfl := hd _ hs
  · rfl
  refine holds_act ⟨hl, _, rfl⟩ ?_
  rintro (_ | j) o₂ hd <;> obtain rfl := hd _ rfl
  · refine holds_act ⟨hl, .inl ⟨[], rfl⟩⟩ ?_
    rintro _ o₃ ⟨hd, -⟩
    obtain rfl := hd _ rfl
    cases o
    cases hs
    rfl
  refine holds_act ⟨hl, _, rfl⟩ ?_
  rintro (_ | k) o₃ hd <;> obtain rfl := hd _ rfl
  · refine holds_act ⟨hl, .inl ⟨[j], rfl⟩⟩ ?_
    rintro _ o₄ ⟨hd, -⟩
    obtain rfl := hd _ rfl
    refine holds_act ⟨hl, .inl ⟨[], rfl⟩⟩ ?_
    rintro _ o₅ ⟨hd, -⟩
    obtain rfl := hd _ rfl
    cases o
    cases hs
    rfl
  · rfl

theorem allocRound_holds {b : B} {blockno : BitVec 32} {write : Bool} (hl : o.lock = true)
    (hb : o.buf = some b) (hs : o.stage = .alloc []) :
    Holds (rules B) (allocRound b blockno write) Idle o := by
  refine holds_bind.mpr ((alloc3Desc_holds hl hs).mono ?_)
  rintro (_ | ⟨i, j, k⟩) o₁ rfl
  · refine holds_act ⟨hl, .inl hs⟩ ?_
    rintro _ o₂ rfl
    exact ⟨rfl, hb, hs⟩
  · refine holds_act ⟨hl, hb, rfl⟩ ?_
    rintro _ o₂ rfl
    refine holds_act (a := .ring i) ⟨_, rfl, rfl⟩ ?_
    rintro _ o₃ hd
    obtain rfl := hd _ rfl
    refine holds_act rfl ?_
    rintro n o₄ rfl
    exact waitRound_holds hl hb rfl

theorem freeRound_holds {i : ℕ} {l : List ℕ} (hl : o.lock = true) (hb : o.buf = some c.b)
    (hs : o.stage = .free (i :: l) n) : Holds (rules B) (freeRound i c n) Idle o := by
  refine holds_act ⟨l, n, hs⟩ ?_
  rintro ⟨flag, nxt⟩ o₁ ⟨rfl, hd⟩
  obtain ⟨hflag, hnxt⟩ := hd l n hs
  refine holds_act ⟨hl, .inr ⟨l, n, hs⟩⟩ ?_
  rintro _ o₂ ⟨-, hd⟩
  obtain rfl := hd l n hs
  cases l with
  | nil =>
    rw [if_neg (by simpa using hflag)]
    refine holds_act ⟨hl, .inr (.inr ⟨n, rfl⟩)⟩ ?_
    rintro _ o₃ rfl
    refine holds_act ⟨hb, n, rfl⟩ ?_
    rintro _ o₄ hd'
    obtain rfl := hd' n rfl
    exact ⟨rfl, rfl, rfl, fun _ h => h⟩
  | cons j l =>
    rw [if_pos (hflag.mpr (by simp))]
    obtain rfl := hnxt j rfl
    exact ⟨hl, hb, l, rfl⟩

theorem intrRound_holds (hl : o.lock = true) (hb : o.buf = none) (hs : o.stage = .alloc []) :
    Holds (rules B) intrRound Idle o := by
  refine holds_act ⟨hl, hs⟩ ?_
  rintro (_ | id) o₁ rfl
  · refine holds_act ⟨hl, .inl hs⟩ ?_
    rintro _ o₂ rfl
    exact ⟨rfl, hb, hs, nofun⟩
  · refine holds_act rfl ?_
    rintro _ o₂ ⟨rfl, rfl⟩
    refine holds_act rfl ?_
    rintro _ o₃ ⟨b, rfl, rfl⟩
    refine holds_act ⟨id, rfl⟩ ?_
    rintro _ o₄ rfl
    exact ⟨hl, hb, rfl⟩

/-- However a thread goes on, it keeps the rules. -/
theorem prog_holds (call : Call B) (l : Loc B) (h : Idle l o) :
    Holds (rules B) (prog call l) Idle o := by
  cases l with
  | idle done =>
    obtain ⟨hl, hb, hs, hdone⟩ := h
    cases call with
    | rw b blockno write =>
      refine holds_act ⟨hb, hs⟩ ?_
      rintro _ o₁ rfl
      refine holds_act hl ?_
      rintro _ o₂ rfl
      exact allocRound_holds rfl rfl hs
    | intr =>
      refine holds_act hl ?_
      rintro _ o₁ rfl
      exact ⟨rfl, hb, hs⟩
    | take | complete =>
      refine holds_act trivial ?_
      rintro _ o₁ rfl
      exact ⟨hl, hb, hs, hdone⟩
  | alloc b blockno write =>
    obtain ⟨hl, hb, hs⟩ := h
    refine holds_act hl ?_
    rintro _ o₁ rfl
    exact allocRound_holds rfl hb hs
  | wait c n =>
    obtain ⟨hl, hb, hs⟩ := h
    refine holds_act hl ?_
    rintro _ o₁ rfl
    exact waitRound_holds rfl hb hs
  | free i c n =>
    obtain ⟨hl, hb, l, hs⟩ := h
    exact freeRound_holds hl hb hs
  | intr =>
    obtain ⟨hl, hb, hs⟩ := h
    exact intrRound_holds hl hb hs

end Code

end Xv6.Virtio
