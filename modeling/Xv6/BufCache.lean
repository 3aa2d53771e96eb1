import Xv6.Machine

/-!
# The buffer cache

A model of `bio.c` : the buffers with their reference counts and sleep locks, the list of
buffers in the order of their last use, and the steps of `bread` and `brelse`. `bget` runs
under `bcache.lock`, so finding or recycling a buffer is one step ; `acquiresleep`, the
read of an invalid buffer, `releasesleep` and the drop of the reference follow as steps of
their own. Where a process is between them is its `Stage` with the buffer.

`Cache.Ok` is the representation invariant. A buffer's reference count is the number of
processes at some stage with it, plus one if its block is pinned, so a buffer that somebody
holds, waits for or has pinned is not recycled. `Cache.Agrees` says what the data is : a
valid buffer that no process has changed holds the contents `view` of its block, and a
block that is not pinned has them on disk. `CacheMove` lists the steps, and both invariants
survive each of them ; `CacheMove.keeps` says what a step leaves alone.
-/

namespace Xv6

open Function

/-- Where a process is with a buffer. -/
inductive Stage
  /-- counted by `bget`, before `acquiresleep` -/
  | waiting
  /-- the lock is held, the data may have to be read -/
  | locked
  /-- returned by `bread` -/
  | ready
  /-- returned by `bread`, and changed since -/
  | dirty
  /-- unlocked by `brelse`, which has not dropped the reference yet -/
  | releasing
  deriving DecidableEq, Repr

/-- The stages at which the process holds the buffer's lock. -/
def Stage.holds : Stage → Bool
  | .locked | .ready | .dirty => true
  | _ => false

/-- `struct buf`, with the holder of its sleep lock. A buffer that was never used has no
block. -/
structure Buf (N : ℕ) (B : Type*) where
  blockno : Option ℕ
  valid : Bool
  refcnt : ℕ
  data : B
  holder : Option (Fin N)

/-- `bcache`, and where each process is with each buffer. `lru` is the list of buffers, the
most recently used first. -/
structure Cache (N NB : ℕ) (B : Type*) where
  buf : Fin NB → Buf N B
  lru : List (Fin NB)
  refs : Fin N → Fin NB → Option Stage

namespace Cache

variable {N NB : ℕ} {B : Type*}

/-- `binit` puts each buffer in front of the ones before it. -/
def binit [Inhabited B] : Cache N NB B where
  buf _ := ⟨none, false, 0, default, none⟩
  lru := (List.finRange NB).reverse
  refs _ _ := none

def set (c : Cache N NB B) (i : Fin NB) (x : Buf N B) : Cache N NB B :=
  { c with buf := update c.buf i x }

def ref (c : Cache N NB B) (p : Fin N) (i : Fin NB) (st : Option Stage) : Cache N NB B :=
  { c with refs := update c.refs p (update (c.refs p) i st) }

section Fields

variable (c : Cache N NB B) (p q : Fin N) (i j : Fin NB) (x : Buf N B) (st : Option Stage)

@[simp] theorem set_buf : (c.set i x).buf = update c.buf i x := rfl
@[simp] theorem set_lru : (c.set i x).lru = c.lru := rfl
@[simp] theorem set_refs : (c.set i x).refs = c.refs := rfl
@[simp] theorem ref_buf : (c.ref p i st).buf = c.buf := rfl
@[simp] theorem ref_refs_self : (c.ref p i st).refs p i = st := by simp [ref]

theorem ref_refs_of_ne {p q : Fin N} {i j : Fin NB} (h : q ≠ p ∨ j ≠ i) :
    (c.ref p i st).refs q j = c.refs q j := by
  by_cases hq : q = p
  · subst hq
    have hj : j ≠ i := h.resolve_left (by simp)
    simp [ref, hj]
  · simp [ref, hq]

end Fields

/-- The buffer that has block `b`, if one has. -/
def lookup (c : Cache N NB B) (b : ℕ) : Option (Fin NB) :=
  c.lru.find? fun i => (c.buf i).blockno = some b

/-- The least recently used buffer that nobody references. -/
def victim (c : Cache N NB B) : Option (Fin NB) :=
  c.lru.reverse.find? fun i => (c.buf i).refcnt = 0

/-- `bget(b)` by process `p`, up to `acquiresleep`. A process does not ask for a block it
has already : `acquiresleep` would wait for itself. -/
def bget (c : Cache N NB B) (p : Fin N) (b : ℕ) : Option (Cache N NB B × Fin NB) :=
  match c.lookup b with
  | some i =>
    if c.refs p i = none then
      some ((c.set i { c.buf i with refcnt := (c.buf i).refcnt + 1 }).ref p i (some .waiting), i)
    else none
  | none =>
    match c.victim with
    | some i =>
      some ((c.set i { c.buf i with blockno := some b, valid := false, refcnt := 1 }).ref p i
        (some .waiting), i)
    | none => none

/-- `acquiresleep(&b->lock)` -/
def acquiresleep (c : Cache N NB B) (p : Fin N) (i : Fin NB) : Option (Cache N NB B) :=
  if c.refs p i = some .waiting ∧ (c.buf i).holder = none then
    some ((c.set i { c.buf i with holder := some p }).ref p i (some .locked))
  else none

/-- The rest of `bread` : an invalid buffer is read from the disk. -/
def load (c : Cache N NB B) (disk : ℕ → B) (p : Fin N) (i : Fin NB) : Option (Cache N NB B) :=
  if c.refs p i = some .locked then
    if (c.buf i).valid then some (c.ref p i (some .ready))
    else (c.buf i).blockno.map fun b =>
      (c.set i { c.buf i with data := disk b, valid := true }).ref p i (some .ready)
  else none

/-- The holder of a buffer changes its data. -/
def modify (c : Cache N NB B) (p : Fin N) (i : Fin NB) (d : B) : Option (Cache N NB B) :=
  if c.refs p i = some .ready ∨ c.refs p i = some .dirty then
    some ((c.set i { c.buf i with data := d }).ref p i (some .dirty))
  else none

/-- The change to a buffer has been logged or written to disk. -/
def settle (c : Cache N NB B) (p : Fin N) (i : Fin NB) : Cache N NB B :=
  c.ref p i (some .ready)

/-- `brelse`, up to `bcache.lock`. A buffer that was changed is not released before the
change is logged or written. -/
def releasesleep (c : Cache N NB B) (p : Fin N) (i : Fin NB) : Option (Cache N NB B) :=
  if c.refs p i = some .ready then
    some ((c.set i { c.buf i with holder := none }).ref p i (some .releasing))
  else none

/-- The rest of `brelse` : a buffer that nobody references any more comes to the front. -/
def drop (c : Cache N NB B) (p : Fin N) (i : Fin NB) : Option (Cache N NB B) :=
  if c.refs p i = some .releasing then
    let c' := (c.set i { c.buf i with refcnt := (c.buf i).refcnt - 1 }).ref p i none
    some (if (c.buf i).refcnt - 1 = 0 then { c' with lru := i :: c.lru.erase i } else c')
  else none

/-- `bpin` -/
def bpin (c : Cache N NB B) (i : Fin NB) : Cache N NB B :=
  c.set i { c.buf i with refcnt := (c.buf i).refcnt + 1 }

/-- `bunpin` -/
def bunpin (c : Cache N NB B) (i : Fin NB) : Cache N NB B :=
  c.set i { c.buf i with refcnt := (c.buf i).refcnt - 1 }

end Cache

/-- The steps of `bread` and `brelse`, by process `p` with buffer `i`. -/
inductive CacheMove {N NB : ℕ} {B : Type*} (disk : ℕ → B) (c : Cache N NB B) (p : Fin N)
    (i : Fin NB) : Cache N NB B → Prop
  | hit {b} (hb : (c.buf i).blockno = some b) (hr : c.refs p i = none) :
      CacheMove disk c p i ((c.set i
        { c.buf i with refcnt := (c.buf i).refcnt + 1 }).ref p i (some .waiting))
  | recycle {b} (hn : c.lookup b = none) (h0 : (c.buf i).refcnt = 0) :
      CacheMove disk c p i ((c.set i
        { c.buf i with blockno := some b, valid := false, refcnt := 1 }).ref p i
          (some .waiting))
  | acquire (hr : c.refs p i = some .waiting) (hh : (c.buf i).holder = none) :
      CacheMove disk c p i ((c.set i { c.buf i with holder := some p }).ref p i (some .locked))
  | load (hr : c.refs p i = some .locked) (hv : (c.buf i).valid = true) :
      CacheMove disk c p i (c.ref p i (some .ready))
  | read {b} (hr : c.refs p i = some .locked) (hv : (c.buf i).valid = false)
      (hb : (c.buf i).blockno = some b) :
      CacheMove disk c p i ((c.set i { c.buf i with data := disk b, valid := true }).ref p i
        (some .ready))
  | release (hr : c.refs p i = some .ready) :
      CacheMove disk c p i ((c.set i { c.buf i with holder := none }).ref p i
        (some .releasing))
  | drop {l} (hr : c.refs p i = some .releasing) (hl : ∀ j, j ∈ c.lru → j ∈ l) :
      CacheMove disk c p i
        { (c.set i { c.buf i with refcnt := (c.buf i).refcnt - 1 }).ref p i none with lru := l }

section

variable {N NB : ℕ} {B : Type*} {disk : ℕ → B} {c c' : Cache N NB B} {p q : Fin N}
  {i j : Fin NB} {b : ℕ}

section Moves

variable {α : Type*} {x : α} {f : Cache N NB B → α}

theorem move_of_bget {f : Cache N NB B × Fin NB → α} (disk : ℕ → B)
    (h : (c.bget p b).map f = some x) : ∃ c' i, x = f (c', i) ∧ CacheMove disk c p i c' ∧
      (c'.buf i).blockno = some b ∧ c'.refs p i = some .waiting ∧ c.bget p b = some (c', i) := by
  obtain ⟨⟨c', i⟩, hget, rfl⟩ := Option.map_eq_some_iff.mp h
  refine ⟨c', i, rfl, ?_⟩
  have h := hget
  unfold Cache.bget at h
  split at h
  · rename_i k hk
    have hb : (c.buf k).blockno = some b := by simpa using List.find?_some hk
    split at h
    · rename_i hr
      cases h
      exact ⟨.hit hb hr, by simp [hb], by simp, hget⟩
    · cases h
  · rename_i hn
    split at h
    · rename_i k hk
      have h0 : (c.buf k).refcnt = 0 := by simpa using List.find?_some hk
      cases h
      exact ⟨.recycle hn h0, by simp, by simp, hget⟩
    · cases h

theorem move_of_acquiresleep (disk : ℕ → B) (h : (c.acquiresleep p i).map f = some x) :
    ∃ c', x = f c' ∧ CacheMove disk c p i c' ∧ c'.refs p i = some .locked := by
  obtain ⟨c', hc, rfl⟩ := Option.map_eq_some_iff.mp h
  refine ⟨c', rfl, ?_⟩
  unfold Cache.acquiresleep at hc
  split at hc <;> cases hc
  rename_i hw
  exact ⟨.acquire hw.1 hw.2, by simp⟩

theorem move_of_load (h : (c.load disk p i).map f = some x) :
    ∃ c', x = f c' ∧ CacheMove disk c p i c' ∧ c'.refs p i = some .ready := by
  obtain ⟨c', hc, rfl⟩ := Option.map_eq_some_iff.mp h
  refine ⟨c', rfl, ?_⟩
  unfold Cache.load at hc
  split at hc
  case isFalse => cases hc
  rename_i hr
  split at hc
  · rename_i hv
    cases hc
    exact ⟨.load hr hv, by simp⟩
  · rename_i hv
    obtain ⟨b, hb, rfl⟩ := Option.map_eq_some_iff.mp hc
    exact ⟨.read hr (by simpa using hv) hb, by simp⟩

theorem move_of_releasesleep (disk : ℕ → B) (h : (c.releasesleep p i).map f = some x) :
    ∃ c', x = f c' ∧ CacheMove disk c p i c' ∧ c'.refs p i = some .releasing := by
  obtain ⟨c', hc, rfl⟩ := Option.map_eq_some_iff.mp h
  refine ⟨c', rfl, ?_⟩
  unfold Cache.releasesleep at hc
  split at hc <;> cases hc
  exact ⟨.release ‹_›, by simp⟩

theorem move_of_drop (disk : ℕ → B) (h : (c.drop p i).map f = some x) :
    ∃ c', x = f c' ∧ CacheMove disk c p i c' := by
  obtain ⟨c', hc, rfl⟩ := Option.map_eq_some_iff.mp h
  refine ⟨c', rfl, ?_⟩
  unfold Cache.drop at hc
  split at hc
  case isFalse => cases hc
  rename_i hr
  cases hc
  split
  · refine .drop hr fun j hj => ?_
    by_cases hji : j = i
    · simp [hji]
    · exact List.mem_cons_of_mem _ ((List.mem_erase_of_ne hji).2 hj)
  · exact .drop (l := c.lru) hr fun j hj => hj

end Moves

/-! ## The representation invariant -/

namespace Cache

/-- How many processes are at some stage with buffer `i`. -/
def users (c : Cache N NB B) (i : Fin NB) : ℕ :=
  ∑ p, if c.refs p i = none then 0 else 1

/-- One if the block of buffer `i` is pinned. -/
def pinned (c : Cache N NB B) (pins : List ℕ) (i : Fin NB) : ℕ :=
  if ∃ b ∈ pins, (c.buf i).blockno = some b then 1 else 0

/-- The representation invariant, with the pinned blocks `pins`. -/
structure Ok (c : Cache N NB B) (pins : List ℕ) : Prop where
  /-- the list has every buffer -/
  mem : ∀ i, i ∈ c.lru
  /-- a block is in one buffer only -/
  uniq : ∀ {i j b}, (c.buf i).blockno = some b → (c.buf j).blockno = some b → i = j
  /-- a reference count is what the processes and the pins account for -/
  count : ∀ i, (c.buf i).refcnt = c.users i + c.pinned pins i
  /-- the holder of the lock is at a stage that says so, and the other way round -/
  holder : ∀ {p i}, (c.buf i).holder = some p ↔ ∃ st, c.refs p i = some st ∧ st.holds = true
  /-- what `bread` returned has been read -/
  valid : ∀ {p i}, c.refs p i = some .ready ∨ c.refs p i = some .dirty → (c.buf i).valid = true
  /-- a pinned block has a valid buffer -/
  cached : ∀ b ∈ pins, ∃ i, (c.buf i).blockno = some b ∧ (c.buf i).valid = true

/-- What the buffers and the disk have of each block. The blocks of `stale` are left out. -/
structure Agrees (c : Cache N NB B) (disk view : ℕ → B) (pins stale : List ℕ) : Prop where
  /-- a valid buffer that was not changed holds the contents of its block -/
  clean : ∀ {i b}, (c.buf i).blockno = some b → (c.buf i).valid = true →
    (∀ p, c.refs p i ≠ some .dirty) → b ∉ stale → (c.buf i).data = view b
  /-- a block that is not pinned has its contents on disk -/
  stored : ∀ {b}, b ∉ pins → b ∉ stale → disk b = view b

/-- What `q` relies on with buffer `j` while `c` becomes `c'` : its stage, the block, and
the data if it holds the lock. -/
def Keeps (c c' : Cache N NB B) (q : Fin N) (j : Fin NB) : Prop :=
  ∀ {st}, c.refs q j = some st → c'.refs q j = some st ∧
    (c'.buf j).blockno = (c.buf j).blockno ∧ (st.holds = true → (c'.buf j).data = (c.buf j).data)

theorem users_ref (c : Cache N NB B) (p : Fin N) (i : Fin NB) (st : Option Stage) :
    (c.ref p i st).users i + (if c.refs p i = none then 0 else 1) =
      c.users i + (if st = none then 0 else 1) := by
  have hrefs : (fun q => (c.ref p i st).refs q i) = update (fun q => c.refs q i) p st := by
    funext q
    by_cases hq : q = p
    · subst hq
      simp
    · rw [update_of_ne hq, ref_refs_of_ne c st (.inl hq)]
  have hsum := Machine.sum_update_add (fun o : Option Stage => if o = none then 0 else 1)
    (fun q => c.refs q i) p st
  simpa only [users, ← hrefs] using hsum

theorem users_ref_of_ne (c : Cache N NB B) (p : Fin N) {i j : Fin NB} (st : Option Stage)
    (h : j ≠ i) : (c.ref p i st).users j = c.users j := by
  unfold users
  exact Finset.sum_congr rfl fun q _ => by rw [ref_refs_of_ne c st (.inr h)]

theorem users_pos (h : c.refs p i ≠ none) : 0 < c.users i := by
  have hle := Machine.le_sum (fun o : Option Stage => if o = none then 0 else 1)
    (fun q => c.refs q i) p
  simp only [h, if_false] at hle
  exact hle

section Ok

variable {pins : List ℕ} (ho : c.Ok pins)

include ho

theorem Ok.refs_none (h0 : (c.buf i).refcnt = 0) :
    c.refs q i = none := by
  by_contra hne
  have hpos := c.users_pos hne
  have hcount := ho.count i
  omega

/-- `bget` returns a buffer that its caller is at no stage with. -/
theorem Ok.bget_fresh (h : c.bget p b = some (c', i)) :
    c.refs p i = none := by
  unfold bget at h
  split at h
  · split at h
    · cases h
      assumption
    · cases h
  · split at h
    · rename_i k hk
      have h0 : (c.buf k).refcnt = 0 := by simpa using List.find?_some hk
      cases h
      exact ho.refs_none h0
    · cases h

theorem Ok.lookup_none (hn : c.lookup b = none) (j : Fin NB) :
    (c.buf j).blockno ≠ some b := by
  intro hj
  have hall := List.find?_eq_none.mp hn j (ho.mem j)
  simp [hj] at hall

theorem Ok.holder_unique
    (hp : ∃ st, c.refs p i = some st ∧ st.holds = true)
    (hq : ∃ st, c.refs q i = some st ∧ st.holds = true) : p = q :=
  Option.some.inj ((ho.holder.mpr hp).symm.trans (ho.holder.mpr hq))

end Ok

theorem pinned_congr {pins : List ℕ} (h : (c'.buf i).blockno = (c.buf i).blockno) :
    c'.pinned pins i = c.pinned pins i := by
  simp only [pinned, h]

theorem pinned_of_mem {pins : List ℕ} (hb : (c.buf i).blockno = some b) (h : b ∈ pins) :
    c.pinned pins i = 1 :=
  if_pos ⟨b, h, hb⟩

theorem pinned_of_not_mem {pins : List ℕ} (hb : (c.buf i).blockno = some b) (h : b ∉ pins) :
    c.pinned pins i = 0 :=
  if_neg fun ⟨_, hm, hb'⟩ => h (Option.some.inj (hb.symm.trans hb') ▸ hm)

end Cache

/-! ## What a step changes -/

namespace CacheMove

variable {pins : List ℕ} (hm : CacheMove disk c p i c')

include hm

theorem buf_of_ne (h : j ≠ i) : c'.buf j = c.buf j := by
  cases hm <;> simp [h, Cache.set, Cache.ref]

theorem refs_of_ne (h : q ≠ p ∨ j ≠ i) :
    c'.refs q j = c.refs q j := by
  cases hm <;> exact Cache.ref_refs_of_ne _ _ h

theorem users_of_ne (h : j ≠ i) : c'.users j = c.users j :=
  Finset.sum_congr rfl fun q _ => by rw [hm.refs_of_ne (.inr h)]

/-- The mover's stage changes by one use of the buffer at most. -/
theorem users_self :
    c'.users i + (if c.refs p i = none then 0 else 1) =
      c.users i + (if c'.refs p i = none then 0 else 1) := by
  have hu := c.users_ref p i (c'.refs p i)
  rw [← hu]
  congr 1
  refine Finset.sum_congr rfl fun q _ => ?_
  by_cases hq : q = p
  · subst hq
    simp
  · rw [hm.refs_of_ne (.inl hq), Cache.ref_refs_of_ne _ _ (.inl hq)]

variable (ho : c.Ok pins)

include ho

/-- A step of `p` with buffer `i` keeps the block of every buffer that somebody else, or
`p` with another buffer, is at some stage with ; and the data of one that is held. -/
theorem keeps (hne : q ≠ p ∨ j ≠ i) :
    c.Keeps c' q j := by
  intro st hr
  refine ⟨(hm.refs_of_ne hne).trans hr, ?_⟩
  by_cases hj : j = i
  · subst hj
    have hq : q ≠ p := hne.resolve_right (by simp)
    cases hm
    case recycle hn h0 => simp [ho.refs_none h0] at hr
    case read hp _ _ =>
      refine ⟨by simp, fun hst => absurd (ho.holder_unique ⟨st, hr, hst⟩ ⟨_, hp, rfl⟩) hq⟩
    all_goals simp [Cache.set, Cache.ref]
  · simp [hm.buf_of_ne hj]

theorem mem (j : Fin NB) : j ∈ c'.lru := by
  cases hm
  case drop hl => exact hl j (ho.mem j)
  all_goals exact ho.mem j

/-- The block of the buffer stays, unless the buffer is recycled for a block that was in
none. -/
theorem blockno_self :
    (c'.buf i).blockno = (c.buf i).blockno ∨
      ∃ b, (c'.buf i).blockno = some b ∧ (c.buf i).refcnt = 0 ∧
        ∀ j, (c.buf j).blockno ≠ some b := by
  cases hm
  case recycle b hn h0 => exact .inr ⟨b, by simp, h0, ho.lookup_none hn⟩
  all_goals exact .inl (by simp)

theorem uniq {j k : Fin NB}
    (hj : (c'.buf j).blockno = some b) (hk : (c'.buf k).blockno = some b) : j = k := by
  by_cases hji : j = i <;> by_cases hki : k = i
  · rw [hji, hki]
  · subst hji
    rw [hm.buf_of_ne hki] at hk
    rcases hm.blockno_self ho with h | ⟨b', hb', _, hnone⟩
    · exact ho.uniq (h.symm.trans hj) hk
    · cases hb'.symm.trans hj
      exact absurd hk (hnone k)
  · subst hki
    rw [hm.buf_of_ne hji] at hj
    rcases hm.blockno_self ho with h | ⟨b', hb', _, hnone⟩
    · exact ho.uniq hj (h.symm.trans hk)
    · cases hb'.symm.trans hk
      exact absurd hj (hnone j)
  · rw [hm.buf_of_ne hji] at hj
    rw [hm.buf_of_ne hki] at hk
    exact ho.uniq hj hk

/-- The reference count follows the mover's stage. -/
theorem refcnt_self :
    (c'.buf i).refcnt + (if c.refs p i = none then 0 else 1) =
      (c.buf i).refcnt + (if c'.refs p i = none then 0 else 1) := by
  cases hm with
  | hit hb hr => simp [hr]
  | recycle hn h0 => simp [ho.refs_none h0, h0]
  | acquire hr hh => simp [hr]
  | load hr hv => simp [hr]
  | read hr hv hb => simp [hr]
  | release hr => simp [hr]
  | drop hr hl =>
    have hpos : 0 < c.users i := c.users_pos (p := p) (by simp [hr])
    have hcount := ho.count i
    simp [hr, Cache.ref]
    omega

/-- A pinned block keeps its buffer. -/
theorem pinned_self :
    c'.pinned pins i = c.pinned pins i := by
  rcases hm.blockno_self ho with h | ⟨b, hb, h0, hnone⟩
  · exact Cache.pinned_congr h
  · have hpin : b ∉ pins := fun hmem => by
      obtain ⟨k, hk, -⟩ := ho.cached b hmem
      exact hnone k hk
    have hcount := ho.count i
    have hnew : c'.pinned pins i = 0 := Cache.pinned_of_not_mem hb hpin
    omega

theorem count (j : Fin NB) :
    (c'.buf j).refcnt = c'.users j + c'.pinned pins j := by
  have hcount := ho.count j
  by_cases hj : j = i
  · subst hj
    have husers := hm.users_self
    have hrefcnt := hm.refcnt_self ho
    have hpinned := hm.pinned_self ho
    omega
  · have hpinned : c'.pinned pins j = c.pinned pins j :=
      Cache.pinned_congr (by rw [hm.buf_of_ne hj])
    rw [hm.buf_of_ne hj, hm.users_of_ne hj, hpinned, hcount]

/-- The lock of the buffer is the mover's, before or after the step, or is left alone. -/
theorem holder {q : Fin N} {j : Fin NB} :
    (c'.buf j).holder = some q ↔ ∃ st, c'.refs q j = some st ∧ st.holds = true := by
  by_cases hne : q ≠ p ∨ j ≠ i
  · rw [hm.refs_of_ne hne, ← ho.holder]
    by_cases hj : j = i
    · subst hj
      have hq : q ≠ p := hne.resolve_right (by simp)
      cases hm
      case acquire hr hh => simp [hh, hq.symm]
      case release hr =>
        have hp : (c.buf j).holder = some p := ho.holder.mpr ⟨_, hr, rfl⟩
        simp [hp, hq.symm]
      all_goals simp
    · rw [hm.buf_of_ne hj]
  · obtain ⟨rfl, rfl⟩ : q = p ∧ j = i := by simpa using hne
    have hold := ho.holder (p := q) (i := j)
    cases hm with
    | hit hb hr => simpa [hr, Stage.holds] using hold
    | recycle hn h0 => simpa [ho.refs_none h0, Stage.holds] using hold
    | acquire hr hh => simp [Stage.holds]
    | load hr hv => simpa [hr, Stage.holds] using hold
    | read hr hv hb => simpa [hr, Stage.holds] using hold
    | release hr => simp [Stage.holds]
    | drop hr hl => simpa [hr, Stage.holds, Cache.ref] using hold

/-- A buffer stays valid, unless it is recycled, and a buffer that is ready is valid. -/
theorem valid {q : Fin N} {j : Fin NB}
    (h : c'.refs q j = some .ready ∨ c'.refs q j = some .dirty) : (c'.buf j).valid = true := by
  by_cases hne : q ≠ p ∨ j ≠ i
  · rw [hm.refs_of_ne hne] at h
    have hv := ho.valid h
    by_cases hj : j = i
    · subst hj
      cases hm
      case recycle hn h0 => simp [ho.refs_none h0] at h
      all_goals simp [hv]
    · rwa [hm.buf_of_ne hj]
  · obtain ⟨rfl, rfl⟩ : q = p ∧ j = i := by simpa using hne
    cases hm with
    | load hr hv => simpa using hv
    | read hr hv hb => simp
    | drop hr hl => simp [Cache.ref] at h
    | _ => simp at h

theorem cached (hb : b ∈ pins) :
    ∃ j, (c'.buf j).blockno = some b ∧ (c'.buf j).valid = true := by
  obtain ⟨j, hj, hv⟩ := ho.cached b hb
  refine ⟨j, ?_⟩
  by_cases hji : j = i
  · subst hji
    cases hm
    case recycle hn h0 =>
      have hcount := ho.count j
      rw [Cache.pinned_of_mem hj hb] at hcount
      omega
    all_goals simp_all
  · rw [hm.buf_of_ne hji]
    exact ⟨hj, hv⟩

/-- The steps of `bread` and `brelse` keep the representation invariant. -/
theorem ok : c'.Ok pins where
  mem := hm.mem ho
  uniq := hm.uniq ho
  count := hm.count ho
  holder := hm.holder ho
  valid := hm.valid ho
  cached _ := hm.cached ho

/-- The steps of `bread` and `brelse` keep what the buffers hold : `bread` of a block that is
not pinned reads its contents from the disk. -/
theorem agrees {view : ℕ → B} {stale : List ℕ}
    (ha : c.Agrees disk view pins stale) : c'.Agrees disk view pins stale where
  stored := ha.stored
  clean := by
    intro j b hb hv hd hs
    have hdirty : ∀ q, q ≠ p ∨ j ≠ i → c.refs q j ≠ some .dirty := fun q hq =>
      hm.refs_of_ne hq ▸ hd q
    by_cases hj : j = i
    · subst hj
      have hclean : c.refs p j ≠ some .dirty → (c.buf j).blockno = some b →
          (c.buf j).valid = true → (c.buf j).data = view b := fun hp hb hv =>
        ha.clean hb hv (fun q => by
          by_cases hq : q = p
          · exact hq ▸ hp
          · exact hdirty q (.inl hq)) hs
      cases hm with
      | hit hb' hr => simpa using hclean (by simp [hr]) (by simpa using hb) (by simpa using hv)
      | recycle hn h0 => simp at hv
      | acquire hr hh => simpa using hclean (by simp [hr]) (by simpa using hb) (by simpa using hv)
      | load hr hv' => simpa using hclean (by simp [hr]) (by simpa using hb) hv'
      | @read b' hr hv' hb' =>
        have hbb : b' = b := Option.some.inj (hb'.symm.trans (by simpa using hb))
        have hpin : b ∉ pins := fun hmem => by
          obtain ⟨k, hk, hkv⟩ := ho.cached b hmem
          simp [ho.uniq hk (hbb ▸ hb'), hv'] at hkv
        simpa [hbb] using ha.stored hpin hs
      | release hr => simpa using hclean (by simp [hr]) (by simpa using hb) (by simpa using hv)
      | drop hr hl => simpa using hclean (by simp [hr]) (by simpa using hb) (by simpa using hv)
    · rw [hm.buf_of_ne hj] at hb hv ⊢
      exact ha.clean hb hv (fun q => hdirty q (.inr hj)) hs

end CacheMove

/-! ## Changes, pins and writes -/

namespace Cache

variable {d : B} {pins pins' stale stale' : List ℕ} {view view' disk' : ℕ → B}

/-- The holder of a buffer that `bread` returned is at no other stage with it. -/
theorem Ok.not_dirty (ho : c.Ok pins) (hr : c.refs p i = some .ready) (q : Fin N) :
    c.refs q i ≠ some .dirty := by
  intro hq
  obtain rfl := ho.holder_unique ⟨_, hr, rfl⟩ ⟨_, hq, rfl⟩
  simp [hr] at hq

/-- Any stage at which a buffer is held and valid may become any other such stage. -/
theorem Ok.restage (ho : c.Ok pins) {st : Stage}
    (hr : c.refs p i = some .ready ∨ c.refs p i = some .dirty) (hst : st.holds = true) :
    (c.ref p i (some st)).Ok pins := by
  have hne : c.refs p i ≠ none := by rcases hr with hr | hr <;> simp [hr]
  have hheld : ∃ st, c.refs p i = some st ∧ st.holds = true := by
    rcases hr with hr | hr <;> exact ⟨_, hr, rfl⟩
  refine ⟨ho.mem, ho.uniq, fun j => ?_, fun {q j} => ?_, fun {q j} h => ?_, ho.cached⟩
  · have husers : (c.ref p i (some st)).users j = c.users j := by
      by_cases hj : j = i
      · subst hj
        have hu := c.users_ref p j (some st)
        simp only [hne, if_false, reduceCtorEq] at hu
        exact Nat.add_right_cancel hu
      · exact users_ref_of_ne _ p (some st) hj
    rw [husers]
    exact ho.count j
  · by_cases hqj : q ≠ p ∨ j ≠ i
    · rw [ref_refs_of_ne _ _ hqj]
      exact ho.holder
    · obtain ⟨rfl, rfl⟩ : q = p ∧ j = i := by simpa using hqj
      simp [hst, ho.holder.mpr hheld]
  · by_cases hqj : q ≠ p ∨ j ≠ i
    · rw [ref_refs_of_ne _ _ hqj] at h
      exact ho.valid h
    · obtain ⟨rfl, rfl⟩ : q = p ∧ j = i := by simpa using hqj
      exact ho.valid hr

/-- Buffer `i` becomes `x`, with the same block, and valid and held as before. -/
theorem Ok.set {x : Buf N B} (ho : c.Ok pins) (hblock : x.blockno = (c.buf i).blockno)
    (hvalid : x.valid = (c.buf i).valid) (hholder : x.holder = (c.buf i).holder)
    (hself : x.refcnt = c.users i + c.pinned pins' i)
    (hother : ∀ j, j ≠ i → c.pinned pins' j = c.pinned pins j)
    (hcached : ∀ b ∈ pins', ∃ j, (c.buf j).blockno = some b ∧ (c.buf j).valid = true) :
    (c.set i x).Ok pins' := by
  have hb : ∀ j, ((c.set i x).buf j).blockno = (c.buf j).blockno :=
    Machine.update_field Buf.blockno hblock
  have hv : ∀ j, ((c.set i x).buf j).valid = (c.buf j).valid :=
    Machine.update_field Buf.valid hvalid
  have hh : ∀ j, ((c.set i x).buf j).holder = (c.buf j).holder :=
    Machine.update_field Buf.holder hholder
  refine ⟨ho.mem, fun {j k b} hj hk => ?_, fun j => ?_, fun {q j} => ?_, fun {q j} h => ?_,
    fun b hmem => ?_⟩
  · rw [hb] at hj hk
    exact ho.uniq hj hk
  · have husers : (c.set i x).users j = c.users j := rfl
    rw [husers, pinned_congr (hb j)]
    by_cases hj : j = i
    · rw [hj, set_buf, update_self, hself]
    · rw [set_buf, update_of_ne hj, hother j hj, ho.count]
  · rw [hh]
    exact ho.holder
  · rw [hv]
    exact ho.valid h
  · obtain ⟨j, hj⟩ := hcached b hmem
    exact ⟨j, by rwa [hb, hv]⟩

theorem Ok.settle (ho : c.Ok pins)
    (hr : c.refs p i = some .ready ∨ c.refs p i = some .dirty) : (c.settle p i).Ok pins :=
  ho.restage hr rfl

theorem modify_eq_some (h : c.modify p i d = some c') :
    (c.refs p i = some .ready ∨ c.refs p i = some .dirty) ∧
      c' = (c.set i { c.buf i with data := d }).ref p i (some .dirty) := by
  unfold modify at h
  split at h <;> cases h
  exact ⟨‹_›, rfl⟩

theorem Ok.modify (ho : c.Ok pins) (h : c.modify p i d = some c') : c'.Ok pins := by
  obtain ⟨hr, rfl⟩ := modify_eq_some h
  have hset : (c.set i { c.buf i with data := d }).Ok pins :=
    ho.set rfl rfl rfl (ho.count i) (fun _ _ => rfl) ho.cached
  have hheld : Stage.holds .dirty = true := rfl
  exact hset.restage hr hheld

theorem Agrees.modify (ha : c.Agrees disk view pins stale) (h : c.modify p i d = some c') :
    c'.Agrees disk view pins stale := by
  obtain ⟨-, rfl⟩ := modify_eq_some h
  refine ⟨fun {j b} hb hv hd hs => ?_, ha.stored⟩
  by_cases hj : j = i
  · subst hj
    exact absurd (ref_refs_self _ p j (some .dirty)) (hd p)
  · simp only [ref_buf, set_buf, update_of_ne hj] at hb hv ⊢
    refine ha.clean hb hv (fun q => ?_) hs
    have hq := hd q
    rwa [ref_refs_of_ne _ _ (.inr hj)] at hq

theorem modify_keeps (ho : c.Ok pins) (h : c.modify p i d = some c') (hne : q ≠ p ∨ j ≠ i) :
    c.Keeps c' q j := by
  obtain ⟨hp, rfl⟩ := modify_eq_some h
  intro st hr
  refine ⟨(ref_refs_of_ne _ _ hne).trans hr, ?_⟩
  by_cases hj : j = i
  · subst hj
    have hq : q ≠ p := hne.resolve_right (by simp)
    refine ⟨by simp, fun hst => ?_⟩
    refine absurd (ho.holder_unique ⟨st, hr, hst⟩ ?_) hq
    rcases hp with hp | hp <;> exact ⟨_, hp, rfl⟩
  · simp [hj]

theorem settle_keeps (hne : q ≠ p ∨ j ≠ i) : c.Keeps (c.settle p i) q j :=
  fun hr => ⟨(ref_refs_of_ne _ _ hne).trans hr, rfl, fun _ => rfl⟩

/-- The contents of block `b` become the data of its buffer `i`. The other blocks stay, on
disk and elsewhere. -/
theorem Agrees.settle (ha : c.Agrees disk view pins stale) (ho : c.Ok pins)
    (hb : (c.buf i).blockno = some b) (hdata : (c.buf i).data = view' b)
    (hview : ∀ b', b' ≠ b → view' b' = view b') (hdisk : ∀ b', b' ≠ b → disk' b' = disk b')
    (hpins : ∀ b', b' ≠ b → b' ∈ pins → b' ∈ pins')
    (hstale : ∀ b', b' ≠ b → b' ∈ stale → b' ∈ stale') (hstored : b ∉ pins' → disk' b = view' b) :
    (c.settle p i).Agrees disk' view' pins' stale' where
  clean := by
    intro j b' hj hv hd hs
    by_cases hji : j = i
    · subst hji
      obtain rfl := Option.some.inj (hb.symm.trans hj)
      exact hdata
    · have hne : b' ≠ b := fun h => hji (ho.uniq (h ▸ hj) hb)
      refine (ha.clean hj hv (fun q => ?_) fun h => hs (hstale b' hne h)).trans (hview b' hne).symm
      have hq := hd q
      rwa [Cache.settle, ref_refs_of_ne _ _ (.inr hji)] at hq
  stored := by
    intro b' hp hs
    by_cases hne : b' = b
    · subst hne
      exact hstored hp
    · rw [hview b' hne, hdisk b' hne]
      exact ha.stored (fun h => hp (hpins b' hne h)) fun h => hs (hstale b' hne h)

/-- The pin of block `b` is added or taken away, with its reference. -/
theorem Ok.repin {k : ℕ} (ho : c.Ok pins) (hb : (c.buf i).blockno = some b)
    (hiff : ∀ b', b' ≠ b → (b' ∈ pins' ↔ b' ∈ pins))
    (hk : k = c.users i + if b ∈ pins' then 1 else 0) (hv : b ∈ pins' → (c.buf i).valid = true) :
    (c.set i { c.buf i with refcnt := k }).Ok pins' := by
  refine ho.set rfl rfl rfl ?_ (fun j hj => ?_) fun b' hb' => ?_
  · by_cases hmem : b ∈ pins'
    · simpa [hmem, pinned_of_mem hb hmem] using hk
    · simpa [hmem, pinned_of_not_mem hb hmem] using hk
  · have hex : (∃ b' ∈ pins', (c.buf j).blockno = some b') ↔
        ∃ b' ∈ pins, (c.buf j).blockno = some b' := by
      have hne : ∀ b', (c.buf j).blockno = some b' → b' ≠ b := fun b' hb' h =>
        hj (ho.uniq (h ▸ hb') hb)
      exact exists_congr fun b' => and_congr_left fun hb' => hiff b' (hne b' hb')
    simp only [pinned, hex]
  · by_cases hne : b' = b
    · subst hne
      exact ⟨i, hb, hv hb'⟩
    · exact ho.cached b' ((hiff b' hne).1 hb')

theorem Ok.bpin (ho : c.Ok pins) (hb : (c.buf i).blockno = some b)
    (hv : (c.buf i).valid = true) (hnew : b ∉ pins) : (c.bpin i).Ok (pins ++ [b]) := by
  refine ho.repin hb (fun b' hne => by simp [hne]) ?_ fun _ => hv
  rw [ho.count i, pinned_of_not_mem hb hnew]
  simp

theorem Ok.bunpin (ho : c.Ok (b :: pins)) (hb : (c.buf i).blockno = some b) (hrest : b ∉ pins) :
    (c.bunpin i).Ok pins := by
  refine ho.repin hb (fun b' hne => by simp [hne]) ?_ fun h => absurd h hrest
  rw [ho.count i, pinned_of_mem hb (by simp)]
  simp [hrest]

theorem Agrees.repin {k : ℕ} (ha : c.Agrees disk view pins stale)
    (hstored : ∀ b, b ∉ pins' → b ∉ stale → disk b = view b) :
    (c.set i { c.buf i with refcnt := k }).Agrees disk view pins' stale where
  stored := hstored _
  clean := by
    intro j b hb hv hd hs
    by_cases hj : j = i
    · subst hj
      simp only [set_buf, update_self] at hb hv ⊢
      exact ha.clean hb hv hd hs
    · simp only [set_buf, update_of_ne hj] at hb hv ⊢
      exact ha.clean hb hv hd hs

theorem repin_keeps {k : ℕ} : c.Keeps (c.set i { c.buf i with refcnt := k }) q j := by
  intro st hr
  refine ⟨hr, ?_⟩
  by_cases hj : j = i
  · subst hj
    simp
  · simp [hj]

theorem binit_ok [Inhabited B] : (binit : Cache N NB B).Ok [] where
  mem := by simp [binit]
  uniq := by simp [binit]
  count := by simp [binit, users, pinned]
  holder := by simp [binit]
  valid := by simp [binit]
  cached := by simp

theorem binit_agrees [Inhabited B] (h : ∀ b, b ∉ stale → disk b = view b) :
    (binit : Cache N NB B).Agrees disk view [] stale where
  clean := by simp [binit]
  stored _ := h _

end Cache

end

end Xv6
