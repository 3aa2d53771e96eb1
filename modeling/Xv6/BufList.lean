import Mathlib.Data.List.FinRange
import Xv6.BufCache
import Xv6.Links

/-!
# The list of buffers

`bio.c` once more, now with the pointers. `BufCache` follows the data of the blocks and takes
the order of the buffers as a list ; here the list is `next` and `prev` of `bcache.head` and
of the buffers, searched pointer by pointer in `bget` and relinked by `brelse`.

A client asks for a block, waits for its buffer, holds it, and releases it in two steps. While
it holds the buffer it may read, change, write, pin and unpin it. A process with several
buffers is several clients.

`Bcache.Ok` relates the pointers to the order of the buffers and accounts for the reference
counts, and every step keeps it. Two ghosts are counted along : how often a buffer is pinned,
and when `brelse` last dropped a reference to it. Buffers that nobody references stand in the
list in the order of their last release, since the last reference is always dropped by
`brelse` : a pin is taken away by a client that holds the buffer.

On one device, `bget` and `brelse` do to the buffers what they do in `BufCache` (`Shows`).
-/

namespace Xv6

open Function

/-- `struct buf`, with the holder of its sleep lock. -/
structure Buffer (N : ℕ) (B : Type*) where
  dev : ℕ
  blockno : ℕ
  valid : Bool
  refcnt : ℕ
  data : B
  holder : Option (Fin N)

/-- Where a client is with its buffer. -/
inductive ClientPt
  /-- counted by `bget`, before `acquiresleep` -/
  | waiting
  /-- in `bread`, the data may have to be read -/
  | locked
  /-- returned by `bread` -/
  | ready
  /-- in `brelse`, with the lock given up -/
  | releasing
  deriving DecidableEq, Repr

/-- `bcache`, the disk, and the clients. The node `none` is `bcache.head`. -/
structure Bcache (N NB : ℕ) (B : Type*) where
  buf : Fin NB → Buffer N B
  links : Links (Option (Fin NB))
  disk : ℕ → ℕ → B
  client : Fin N → Option (Fin NB × ClientPt)
  /-- how often a buffer is pinned -/
  pins : Fin NB → ℕ
  /-- how many references were dropped so far -/
  clock : ℕ
  /-- when the last reference to a buffer was dropped, 0 if never -/
  released : Fin NB → ℕ

inductive BufCall (B : Type*)
  | bget (dev blockno : ℕ)
  | acquiresleep
  | read
  | write (d : B)
  | bwrite
  | bpin
  | bunpin
  | releasesleep
  | drop

namespace Bcache

variable {N NB : ℕ} {B : Type*}

/-- `binit` puts each buffer behind the head. -/
def binit (N NB : ℕ) [Inhabited B] (disk : ℕ → ℕ → B) : Bcache N NB B where
  buf _ := ⟨0, 0, false, 0, default, none⟩
  links := (List.finRange NB).foldl (fun L b => L.push none (some b)) ⟨fun _ => none, fun _ => none⟩
  disk := disk
  client _ := none
  pins _ := 0
  clock := 0
  released _ := 0

def set (s : Bcache N NB B) (i : Fin NB) (x : Buffer N B) : Bcache N NB B :=
  { s with buf := update s.buf i x }

def goto (s : Bcache N NB B) (p : Fin N) (c : Option (Fin NB × ClientPt)) : Bcache N NB B :=
  { s with client := update s.client p c }

/-- The node is a buffer that has the block. -/
def has (s : Bcache N NB B) (dev blockno : ℕ) : Option (Fin NB) → Bool
  | none => false
  | some i => (s.buf i).dev = dev && (s.buf i).blockno = blockno

/-- The node is a buffer that nobody references. -/
def unused (s : Bcache N NB B) : Option (Fin NB) → Bool
  | none => false
  | some i => (s.buf i).refcnt = 0

/-- The two loops of `bget` : a buffer that has the block, and else the one to recycle. -/
def find (s : Bcache N NB B) (dev blockno : ℕ) : Option (Fin NB × Bool) :=
  match Links.scan s.links.next none (s.has dev blockno) (NB + 1) (s.links.next none) with
  | some (some (some i)) => some (i, true)
  | some none =>
    match Links.scan s.links.prev none s.unused (NB + 1) (s.links.prev none) with
    | some (some (some i)) => some (i, false)
    | _ => none
  | _ => none

/-- `bget`, up to `acquiresleep`. Without a buffer it panics. -/
def bget (s : Bcache N NB B) (p : Fin N) (dev blockno : ℕ) : Option (Bcache N NB B) :=
  match s.find dev blockno with
  | some (i, true) =>
    some ((s.set i { s.buf i with refcnt := (s.buf i).refcnt + 1 }).goto p (some (i, .waiting)))
  | some (i, false) =>
    some ((s.set i { s.buf i with
      dev := dev, blockno := blockno, valid := false, refcnt := 1 }).goto p (some (i, .waiting)))
  | none => none

/-- The rest of `brelse`, under `bcache.lock`. -/
def drop (s : Bcache N NB B) (p : Fin N) (i : Fin NB) : Bcache N NB B :=
  let n := (s.buf i).refcnt - 1
  { (s.set i { s.buf i with refcnt := n }).goto p none with
    links := if n = 0 then (s.links.unlink (some i)).push none (some i) else s.links
    clock := s.clock + 1
    released := update s.released i (s.clock + 1) }

/-- One step of client `p`. -/
def step (s : Bcache N NB B) : Fin N × BufCall B → Option (Bcache N NB B)
  | (p, .bget dev blockno) => if s.client p = none then s.bget p dev blockno else none
  | (p, .acquiresleep) =>
    match s.client p with
    | some (i, .waiting) =>
      if (s.buf i).holder = none then
        some ((s.set i { s.buf i with holder := some p }).goto p (some (i, .locked)))
      else none
    | _ => none
  | (p, .read) =>
    match s.client p with
    | some (i, .locked) =>
      let x := s.buf i
      some ((s.set i (if x.valid then x else
        { x with data := s.disk x.dev x.blockno, valid := true })).goto p (some (i, .ready)))
    | _ => none
  | (p, .write d) =>
    match s.client p with
    | some (i, .ready) => some (s.set i { s.buf i with data := d })
    | _ => none
  | (p, .bwrite) =>
    match s.client p with
    | some (i, .ready) =>
      some { s with
        disk := update s.disk (s.buf i).dev
          (update (s.disk (s.buf i).dev) (s.buf i).blockno (s.buf i).data) }
    | _ => none
  | (p, .bpin) =>
    match s.client p with
    | some (i, .ready) =>
      some { s.set i { s.buf i with refcnt := (s.buf i).refcnt + 1 } with
        pins := update s.pins i (s.pins i + 1) }
    | _ => none
  | (p, .bunpin) =>
    match s.client p with
    | some (i, .ready) =>
      if s.pins i = 0 then none
      else some { s.set i { s.buf i with refcnt := (s.buf i).refcnt - 1 } with
        pins := update s.pins i (s.pins i - 1) }
    | _ => none
  | (p, .releasesleep) =>
    match s.client p with
    | some (i, .ready) =>
      some ((s.set i { s.buf i with holder := none }).goto p (some (i, .releasing)))
    | _ => none
  | (p, .drop) =>
    match s.client p with
    | some (i, .releasing) => some (s.drop p i)
    | _ => none

/-! ## The invariant -/

/-- How many clients are somewhere with buffer `i`. -/
def users (s : Bcache N NB B) (i : Fin NB) : ℕ :=
  ∑ p, if (s.client p).map Prod.fst = some i then 1 else 0

/-- The representation invariant, for the buffers in the order `l`, the last released first. -/
structure Ok (s : Bcache N NB B) (l : List (Fin NB)) : Prop where
  ring : s.links.Ring none (l.map some)
  mem : ∀ i, i ∈ l
  uniq : ∀ i j, (s.buf i).dev ≠ 0 → (s.buf i).dev = (s.buf j).dev →
    (s.buf i).blockno = (s.buf j).blockno → i = j
  count : ∀ i, (s.buf i).refcnt = s.users i + s.pins i
  order : l.Pairwise fun i j => (s.buf i).refcnt = 0 → (s.buf j).refcnt = 0 →
    s.released j ≤ s.released i
  clock : ∀ i, s.released i ≤ s.clock

section Step

variable {s s' : Bcache N NB B} {l : List (Fin NB)} {p : Fin N} {i j : Fin NB} {dev b : ℕ}

theorem Ok.nodup (h : s.Ok l) : l.Nodup :=
  List.Nodup.of_map some (List.nodup_cons.mp h.ring.nodup).2

theorem Ok.length (h : s.Ok l) : l.length = NB := by
  have hperm : l.Perm (List.finRange NB) :=
    (List.perm_ext_iff_of_nodup h.nodup (List.nodup_finRange NB)).mpr fun i => by simp [h.mem i]
  simpa using hperm.length_eq

theorem Ok.find (h : s.Ok l) (dev b : ℕ) : s.find dev b =
    match l.find? fun i => s.has dev b (some i) with
    | some i => some (i, true)
    | none => (l.reverse.find? fun i => s.unused (some i)).map fun i => (i, false) := by
  have hnext := h.ring.scan_next (s.has dev b)
  have hprev := h.ring.scan_prev s.unused
  rw [List.length_map, h.length] at hnext hprev
  rw [← List.map_reverse, List.find?_map] at hprev
  rw [List.find?_map] at hnext
  unfold Bcache.find
  rw [hnext, hprev]
  simp only [comp_def]
  cases l.find? fun i => s.has dev b (some i) with
  | some i => rfl
  | none => cases l.reverse.find? fun i => s.unused (some i) <;> rfl

/-- A buffer that is found has the block. -/
theorem Ok.find_hit (h : s.Ok l) (hf : s.find dev b = some (i, true)) :
    (s.buf i).dev = dev ∧ (s.buf i).blockno = b := by
  rw [h.find] at hf
  split at hf
  · rename_i k hk
    cases hf
    simpa [has] using List.find?_some hk
  · simp at hf

/-- A buffer is recycled if none has the block. Nobody references it, and of the buffers that
nobody references it was released first. -/
theorem Ok.find_miss (h : s.Ok l) (hf : s.find dev b = some (i, false)) :
    (∀ j, ¬ ((s.buf j).dev = dev ∧ (s.buf j).blockno = b)) ∧ (s.buf i).refcnt = 0 ∧
      ∀ j, (s.buf j).refcnt = 0 → s.released i ≤ s.released j := by
  rw [h.find] at hf
  split at hf
  · cases hf
  · rename_i hn
    obtain ⟨k, hk, hki⟩ := Option.map_eq_some_iff.mp hf
    cases hki
    have h0 : (s.buf i).refcnt = 0 := by simpa [unused] using List.find?_some hk
    refine ⟨fun j hj => ?_, h0, fun j hj => ?_⟩
    · have hnot := List.find?_eq_none.mp hn j (h.mem j)
      simp [has, hj] at hnot
    · -- the list is `l₁ ++ i :: l₂`, and everything in `l₂` is referenced
      obtain ⟨l₂, l₁, hl, hused⟩ := (List.find?_eq_some_iff_append.mp hk).2
      have hl' : l = l₁.reverse ++ i :: l₂.reverse := by
        rw [← List.reverse_reverse l, hl]
        simp
      have hord := h.order
      rw [hl', List.pairwise_append] at hord
      have hmem := h.mem j
      rw [hl'] at hmem
      rcases List.mem_append.mp hmem with hm | hm
      · exact hord.2.2 j hm i (by simp) hj h0
      · rcases List.mem_cons.mp hm with rfl | hm
        · exact le_rfl
        · have := hused j (by simpa using hm)
          simp [unused, hj] at this

/-- What a step of client `p` does. -/
inductive Moves (s : Bcache N NB B) (p : Fin N) : Bcache N NB B → Prop
  | hit {i : Fin NB} {dev b : ℕ} (hc : s.client p = none) (hf : s.find dev b = some (i, true)) :
      Moves s p ((s.set i { s.buf i with refcnt := (s.buf i).refcnt + 1 }).goto p
        (some (i, .waiting)))
  | recycle {i : Fin NB} {dev b : ℕ} (hc : s.client p = none)
      (hf : s.find dev b = some (i, false)) :
      Moves s p ((s.set i { s.buf i with
        dev := dev, blockno := b, valid := false, refcnt := 1 }).goto p (some (i, .waiting)))
  | use {i : Fin NB} {st x} (st' : ClientPt) (disk : ℕ → ℕ → B) (hc : s.client p = some (i, st))
      (hx : x.dev = (s.buf i).dev ∧ x.blockno = (s.buf i).blockno ∧ x.refcnt = (s.buf i).refcnt) :
      Moves s p { (s.set i x).goto p (some (i, st')) with disk := disk }
  | pin {i : Fin NB} {st} (hc : s.client p = some (i, st)) :
      Moves s p { s.set i { s.buf i with refcnt := (s.buf i).refcnt + 1 } with
        pins := update s.pins i (s.pins i + 1) }
  | unpin {i : Fin NB} {st} (hc : s.client p = some (i, st)) (h0 : s.pins i ≠ 0) :
      Moves s p { s.set i { s.buf i with refcnt := (s.buf i).refcnt - 1 } with
        pins := update s.pins i (s.pins i - 1) }
  | drop {i : Fin NB} {st} (hc : s.client p = some (i, st)) : Moves s p (s.drop p i)

theorem moves_of_step {c : BufCall B} (h : s.step (p, c) = some s') : s.Moves p s' := by
  have hgoto : ∀ {x : Bcache N NB B} {c}, x.client p = c → x.goto p c = x := fun hc => by
    simp [goto, ← hc]
  cases c with
  | bget dev b =>
    simp only [step, bget] at h
    split at h
    · rename_i hc
      split at h <;> cases h
      · exact .hit hc ‹_›
      · exact .recycle hc ‹_›
    · cases h
  | acquiresleep =>
    simp only [step] at h
    split at h
    · rename_i i hc
      split at h <;> cases h
      exact .use .locked s.disk hc ⟨rfl, rfl, rfl⟩
    · cases h
  | read =>
    simp only [step] at h
    split at h <;> cases h
    rename_i i hc
    refine .use .ready s.disk hc ?_
    split <;> exact ⟨rfl, rfl, rfl⟩
  | write d =>
    simp only [step] at h
    split at h <;> cases h
    rename_i i hc
    have hm := Moves.use (x := { s.buf i with data := d }) .ready s.disk hc ⟨rfl, rfl, rfl⟩
    rwa [hgoto (by exact hc)] at hm
  | bwrite =>
    simp only [step] at h
    split at h <;> cases h
    rename_i i hc
    have hm := Moves.use .ready (update s.disk (s.buf i).dev
      (update (s.disk (s.buf i).dev) (s.buf i).blockno (s.buf i).data)) hc ⟨rfl, rfl, rfl⟩
    rw [hgoto (by exact hc)] at hm
    simpa [set] using hm
  | bpin =>
    simp only [step] at h
    split at h <;> cases h
    exact .pin ‹_›
  | bunpin =>
    simp only [step] at h
    split at h
    · rename_i i hc
      split at h <;> cases h
      exact .unpin hc ‹_›
    · cases h
  | releasesleep =>
    simp only [step] at h
    split at h <;> cases h
    rename_i i hc
    exact .use .releasing s.disk hc ⟨rfl, rfl, rfl⟩
  | drop =>
    simp only [step] at h
    split at h <;> cases h
    exact .drop ‹_›

/-- One client counts for the buffer it is with. -/
def counts (i : Fin NB) (c : Option (Fin NB × ClientPt)) : ℕ :=
  if c.map Prod.fst = some i then 1 else 0

theorem users_goto (s : Bcache N NB B) (p : Fin N) (c : Option (Fin NB × ClientPt)) (i : Fin NB) :
    (s.goto p c).users i + counts i (s.client p) = s.users i + counts i c :=
  Machine.sum_update_add (counts i) s.client p c

theorem users_pos {st : ClientPt} (hc : s.client p = some (i, st)) : 0 < s.users i := by
  have hle := Machine.le_sum (counts i) s.client p
  simp only [hc, counts, Option.map_some, if_true] at hle
  exact hle

/-- Buffer `i` changes. It has no other buffer's block, and is not given up altogether. -/
theorem Ok.change (h : s.Ok l) (hlinks : s'.links = s.links) (hclock : s'.clock = s.clock)
    (hrel : s'.released = s.released) (hother : ∀ j, j ≠ i → s'.buf j = s.buf j)
    (hkey : ((s'.buf i).dev = (s.buf i).dev ∧ (s'.buf i).blockno = (s.buf i).blockno) ∨
      ∀ j, ¬ ((s.buf j).dev = (s'.buf i).dev ∧ (s.buf j).blockno = (s'.buf i).blockno))
    (hcount : ∀ j, (s'.buf j).refcnt = s'.users j + s'.pins j)
    (hpos : (s'.buf i).refcnt = 0 → (s.buf i).refcnt = 0) : s'.Ok l where
  ring := hlinks ▸ h.ring
  mem := h.mem
  uniq := by
    -- against another buffer, the changed one has its old block or a block that none had
    have hself : ∀ j, j ≠ i → (s'.buf i).dev ≠ 0 → (s'.buf i).dev = (s.buf j).dev →
        (s'.buf i).blockno = (s.buf j).blockno → False := by
      intro j hj h0 hd hb
      rcases hkey with ⟨hd', hb'⟩ | hnew
      · exact hj (h.uniq i j (hd' ▸ h0) (hd' ▸ hd) (hb' ▸ hb)).symm
      · exact hnew j ⟨hd.symm, hb.symm⟩
    intro j k h0 hd hb
    by_cases hj : j = i <;> by_cases hk : k = i
    · rw [hj, hk]
    · subst hj
      rw [hother k hk] at hd hb
      exact (hself k hk h0 hd hb).elim
    · subst hk
      rw [hother j hj] at hd hb h0
      exact (hself j hj (hd ▸ h0) hd.symm hb.symm).elim
    · rw [hother j hj] at hd hb h0
      rw [hother k hk] at hd hb
      exact h.uniq j k h0 hd hb
  count := hcount
  order := by
    have hzero : ∀ j, (s'.buf j).refcnt = 0 → (s.buf j).refcnt = 0 := fun j hj => by
      by_cases hji : j = i
      · subst hji; exact hpos hj
      · rwa [hother j hji] at hj
    exact h.order.imp fun {j k} hjk h1 h2 => hrel ▸ hjk (hzero j h1) (hzero k h2)
  clock := hclock ▸ hrel ▸ h.clock

theorem Ok.use (h : s.Ok l) {st st' : ClientPt} {x : Buffer N B} (disk : ℕ → ℕ → B)
    (hc : s.client p = some (i, st))
    (hx : x.dev = (s.buf i).dev ∧ x.blockno = (s.buf i).blockno ∧ x.refcnt = (s.buf i).refcnt) :
    Ok { (s.set i x).goto p (some (i, st')) with disk := disk } l := by
  refine h.change (i := i) rfl rfl rfl (fun j hj => update_of_ne hj ..) (.inl ?_) (fun j => ?_) ?_
  · simp [set, goto, hx]
  · have hu := (s.set i x).users_goto p (some (i, st')) j
    have hsame : counts j ((s.set i x).client p) = counts j (some (i, st')) := by
      simp [set, hc, counts]
    rw [hsame] at hu
    have hu' : ((s.set i x).goto p (some (i, st'))).users j = s.users j := Nat.add_right_cancel hu
    have hb : (update s.buf i x j).refcnt = (s.buf j).refcnt := by
      by_cases hj : j = i
      · subst hj; simp [hx]
      · simp [hj]
    exact hb.trans ((h.count j).trans (congrArg (· + s.pins j) hu'.symm))
  · simp [set, goto, hx]

/-- `p` takes a reference to buffer `i`. -/
theorem Ok.take (h : s.Ok l) {x : Buffer N B} (hc : s.client p = none)
    (hr : x.refcnt = (s.buf i).refcnt + 1)
    (hkey : (x.dev = (s.buf i).dev ∧ x.blockno = (s.buf i).blockno) ∨
      ∀ j, ¬ ((s.buf j).dev = x.dev ∧ (s.buf j).blockno = x.blockno)) :
    ((s.set i x).goto p (some (i, .waiting))).Ok l := by
  have hself : ((s.set i x).goto p (some (i, .waiting))).buf i = x := by simp [set, goto]
  refine h.change (i := i) rfl rfl rfl (fun j hj => update_of_ne hj ..) ?_ (fun j => ?_) ?_
  · rwa [hself]
  · have hu := (s.set i x).users_goto p (some (i, .waiting)) j
    have hnone : counts j ((s.set i x).client p) = 0 := by simp [set, hc, counts]
    have hset : (s.set i x).users j = s.users j := rfl
    have hcount := h.count j
    change (update s.buf i x j).refcnt = _ + s.pins j
    by_cases hj : j = i
    · subst hj
      have hone : counts j (some (j, ClientPt.waiting)) = 1 := by simp [counts]
      rw [update_self, hr]
      omega
    · have hij : counts j (some (i, ClientPt.waiting)) = 0 := by simp [counts, Ne.symm hj]
      rw [update_of_ne hj]
      omega
  · rw [hself, hr]
    omega

theorem Ok.repin (h : s.Ok l) {st : ClientPt} (hc : s.client p = some (i, st)) {r n : ℕ}
    (hr : r = s.users i + n) :
    Ok { s.set i { s.buf i with refcnt := r } with pins := update s.pins i n } l := by
  refine h.change (i := i) rfl rfl rfl (fun j hj => update_of_ne hj ..) (.inl ?_) (fun j => ?_) ?_
  · simp [set]
  · change (update s.buf i { s.buf i with refcnt := r } j).refcnt = s.users j + update s.pins i n j
    by_cases hj : j = i
    · subst hj; simpa using hr
    · simpa [hj] using h.count j
  · have hpos := users_pos hc
    simp only [set, update_self]
    omega

theorem Ok.drop (h : s.Ok l) {st : ClientPt} (hc : s.client p = some (i, st)) :
    (s.drop p i).Ok (if (s.buf i).refcnt - 1 = 0 then i :: l.erase i else l) := by
  have hpos := users_pos hc
  have hcount : ∀ j, ((s.drop p i).buf j).refcnt = (s.drop p i).users j + s.pins j := fun j => by
    have hu := (s.set i { s.buf i with refcnt := (s.buf i).refcnt - 1 }).users_goto p none j
    have hold := h.count j
    change (update s.buf i { s.buf i with refcnt := (s.buf i).refcnt - 1 } j).refcnt = _ + s.pins j
    have hdrop : (s.drop p i).users j =
      ((s.set i { s.buf i with refcnt := (s.buf i).refcnt - 1 }).goto p none).users j := rfl
    have hset : (s.set i { s.buf i with refcnt := (s.buf i).refcnt - 1 }).users j = s.users j := rfl
    have hnone : counts j (none : Option (Fin NB × ClientPt)) = 0 := by simp [counts]
    by_cases hj : j = i
    · subst hj
      have hself :
          counts j ((s.set j { s.buf j with refcnt := (s.buf j).refcnt - 1 }).client p) = 1 := by
        simp [set, hc, counts]
      rw [update_self]
      dsimp only
      omega
    · have hother :
          counts j ((s.set i { s.buf i with refcnt := (s.buf i).refcnt - 1 }).client p) = 0 := by
        simp [set, hc, counts, Ne.symm hj]
      rw [update_of_ne hj]
      omega
  have hkey : ∀ j, ((s.drop p i).buf j).dev = (s.buf j).dev ∧
      ((s.drop p i).buf j).blockno = (s.buf j).blockno := fun j => by
    by_cases hj : j = i
    · subst hj; simp [Bcache.drop, set, goto]
    · simp [Bcache.drop, set, goto, hj]
  have hrest : ∀ j, j ≠ i → ((s.drop p i).buf j).refcnt = (s.buf j).refcnt ∧
      (s.drop p i).released j = s.released j := fun j hj => by
    simp [Bcache.drop, set, goto, hj]
  have hself : (s.drop p i).released i = s.clock + 1 := by simp [Bcache.drop]
  have hclock : ∀ j, (s.drop p i).released j ≤ s.clock + 1 := fun j => by
    by_cases hj : j = i
    · rw [hj, hself]
    · rw [(hrest j hj).2]
      exact Nat.le_succ_of_le (h.clock j)
  have huniq : ∀ j k, ((s.drop p i).buf j).dev ≠ 0 →
      ((s.drop p i).buf j).dev = ((s.drop p i).buf k).dev →
      ((s.drop p i).buf j).blockno = ((s.drop p i).buf k).blockno → j = k := fun j k => by
    rw [(hkey j).1, (hkey j).2, (hkey k).1, (hkey k).2]
    exact h.uniq j k
  split
  · rename_i h0
    refine ⟨?_, fun j => ?_, huniq, hcount, ?_, hclock⟩
    · obtain ⟨l₁, l₂, -, rfl, he⟩ := List.exists_erase_eq (h.mem i)
      have hring := h.ring
      rw [List.map_append, List.map_cons] at hring
      rw [he, List.map_cons, List.map_append]
      simpa [Bcache.drop, h0] using hring.toFront
    · by_cases hj : j = i
      · simp [hj]
      · exact List.mem_cons_of_mem _ ((List.mem_erase_of_ne hj).2 (h.mem j))
    · refine List.pairwise_cons.mpr ⟨fun j _ _ _ => ?_, ?_⟩
      · rw [hself]
        exact hclock j
      · refine (h.order.sublist List.erase_sublist).imp_of_mem fun {j k} hj hk hjk => ?_
        have hne : ∀ {j}, j ∈ l.erase i → j ≠ i := fun hm he =>
          h.nodup.not_mem_erase (he ▸ hm)
        rw [(hrest j (hne hj)).1, (hrest k (hne hk)).1, (hrest j (hne hj)).2, (hrest k (hne hk)).2]
        exact hjk
  · rename_i h0
    have hn : ((s.drop p i).buf i).refcnt ≠ 0 := by simpa [Bcache.drop, set, goto] using h0
    refine ⟨?_, h.mem, huniq, hcount, h.order.imp fun {j k} hjk hj hk => ?_, hclock⟩
    · simpa [Bcache.drop, h0] using h.ring
    · have hji : j ≠ i := fun he => hn (he ▸ hj)
      have hki : k ≠ i := fun he => hn (he ▸ hk)
      rw [(hrest j hji).1] at hj
      rw [(hrest k hki).1] at hk
      rw [(hrest j hji).2, (hrest k hki).2]
      exact hjk hj hk

theorem Ok.moves (h : s.Ok l) (hm : s.Moves p s') : ∃ l', s'.Ok l' := by
  cases hm with
  | hit hc hf => exact ⟨l, h.take hc rfl (.inl ⟨rfl, rfl⟩)⟩
  | recycle hc hf =>
    obtain ⟨hnew, h0, -⟩ := h.find_miss hf
    exact ⟨l, h.take hc (by simp [h0]) (.inr hnew)⟩
  | use st' disk hc hx => exact ⟨l, h.use disk hc hx⟩
  | pin hc => exact ⟨l, h.repin hc (by rw [h.count]; omega)⟩
  | unpin hc h0 => exact ⟨l, h.repin hc (by rw [h.count]; omega)⟩
  | drop hc => exact ⟨_, h.drop hc⟩

/-- A step leaves a buffer its block, or recycles it. -/
theorem Moves.key (hm : s.Moves p s') (i : Fin NB) :
    ((s'.buf i).dev = (s.buf i).dev ∧ (s'.buf i).blockno = (s.buf i).blockno) ∨
      ∃ dev b, s.find dev b = some (i, false) := by
  cases hm with
  | @recycle k dev b hc hf =>
    by_cases hi : i = k
    · subst hi
      exact .inr ⟨dev, b, hf⟩
    · exact .inl (by simp [set, goto, hi])
  | @hit k | @use k | @pin k | @unpin k | @drop k =>
    by_cases hi : i = k
    · subst hi
      exact .inl (by simp_all [set, goto, Bcache.drop])
    · exact .inl (by simp [set, goto, Bcache.drop, hi])

/-- `bget` of a block that is in no buffer recycles one. -/
theorem Ok.miss (h : s.Ok l) (hs : s.step (p, .bget dev b) = some s')
    (hnew : ∀ j, ¬ ((s.buf j).dev = dev ∧ (s.buf j).blockno = b)) :
    ∃ i, s.find dev b = some (i, false) ∧ (s'.buf i).dev = dev ∧ (s'.buf i).blockno = b ∧
      s'.client p = some (i, .waiting) := by
  simp only [step, bget] at hs
  split at hs
  · split at hs <;> cases hs
    · rename_i i hf
      exact absurd (h.find_hit hf) (hnew i)
    · rename_i i hf
      exact ⟨i, hf, by simp [set, goto], by simp [set, goto], by simp [goto]⟩
  · cases hs

end Step

/-! ## Runs -/

theorem push_ring {l acc : List (Fin NB)} {L : Links (Option (Fin NB))} (hd : (l ++ acc).Nodup)
    (hr : L.Ring none (acc.map some)) :
    (l.foldl (fun L b => L.push none (some b)) L).Ring none ((l.reverse ++ acc).map some) := by
  induction l generalizing acc L with
  | nil => exact hr
  | cons b l ih =>
    have hb : some b ∉ none :: acc.map some := by
      have hnot : b ∉ l ++ acc := (List.nodup_cons.mp hd).1
      simpa using fun hm => hnot (List.mem_append_right l hm)
    have hd' : (l ++ b :: acc).Nodup := List.nodup_middle.mpr hd
    rw [List.reverse_cons, List.append_assoc]
    exact ih hd' (by simpa using hr.push hb)

theorem binit_ok [Inhabited B] (disk : ℕ → ℕ → B) :
    (binit N NB disk).Ok (List.finRange NB).reverse where
  ring := by
    have hnil : Links.Ring ⟨fun _ => none, fun _ => none⟩ (none : Option (Fin NB)) [] :=
      ⟨by simp, rfl, rfl⟩
    have hd : (List.finRange NB ++ []).Nodup := by simpa using List.nodup_finRange NB
    have hring := push_ring hd hnil
    rwa [List.append_nil] at hring
  mem i := by simp
  uniq i j h0 := absurd rfl h0
  count i := by simp [binit, users]
  order := List.pairwise_of_forall fun _ _ _ _ => le_rfl
  clock _ := le_rfl

section Runs

variable [Inhabited B] {disk : ℕ → ℕ → B} {s : Bcache N NB B}

/-- Each of two clients reads a block and releases it, one after the other. -/
def twoReleases : List (Fin 2 × BufCall ℕ) :=
  [(0, .bget 1 5), (0, .acquiresleep), (0, .read), (0, .releasesleep), (0, .drop),
    (1, .bget 1 6), (1, .acquiresleep), (1, .read), (1, .releasesleep), (1, .drop)]

end Runs

/-! ## The cache without the pointers -/

section Shows

variable {s s' : Bcache N NB B} {c : Cache N NB B} {p : Fin N} {i : Fin NB} {dev b : ℕ}

/-- The buffer as `Cache` has it, which knows the blocks of the device `dev`. -/
def bufOn (dev : ℕ) (x : Buffer N B) : Buf N B :=
  ⟨if x.dev = dev then some x.blockno else none, x.valid, x.refcnt, x.data, x.holder⟩

/-- `c` has the buffers of `s`, in the order of the list. -/
structure Shows (dev : ℕ) (s : Bcache N NB B) (c : Cache N NB B) : Prop where
  ok : s.Ok c.lru
  buf : c.buf = fun i => bufOn dev (s.buf i)

theorem Shows.lookup (h : Shows dev s c) (b : ℕ) :
    c.lookup b = c.lru.find? fun i => s.has dev b (some i) := by
  refine congrArg (List.find? · c.lru) (funext fun i => ?_)
  by_cases hd : (s.buf i).dev = dev <;> simp [h.buf, bufOn, has, hd]

theorem Shows.victim (h : Shows dev s c) :
    c.victim = c.lru.reverse.find? fun i => s.unused (some i) := by
  simp only [Cache.victim, h.buf, bufOn, unused]

theorem Shows.update (h : Shows dev s c) {x : Buffer N B} {y : Buf N B} (hy : y = bufOn dev x) :
    update c.buf i y = fun j => bufOn dev (update s.buf i x j) := by
  rw [hy, h.buf]
  exact funext fun j => (apply_update (fun _ => bufOn dev) s.buf i x j).symm

/-- `bget` finds or recycles the same buffer in both. -/
theorem Shows.bget (h : Shows dev s c) (hc : s.client p = none) (hr : ∀ i, c.refs p i = none)
    (hs : s.bget p dev b = some s') : ∃ c' i, c.bget p b = some (c', i) ∧ Shows dev s' c' ∧
      s'.client p = some (i, .waiting) := by
  have hfind := h.ok.find dev b
  rw [← h.lookup, ← h.victim] at hfind
  cases hl : c.lookup b with
  | some i =>
    simp only [hl] at hfind
    simp only [Bcache.bget, hfind, Option.some.injEq] at hs
    subst hs
    simp only [Cache.bget, hl, hr, if_true]
    exact ⟨_, i, rfl, ⟨h.ok.take hc rfl (.inl ⟨rfl, rfl⟩), h.update (by rw [h.buf]; rfl)⟩,
      update_self ..⟩
  | none =>
    cases hv : c.victim with
    | none => simp [Bcache.bget, hfind, hl, hv] at hs
    | some i =>
      simp only [hl, hv, Option.map_some] at hfind
      obtain ⟨hnew, h0, -⟩ := h.ok.find_miss hfind
      simp only [Bcache.bget, hfind, Option.some.injEq] at hs
      subst hs
      simp only [Cache.bget, hl, hv]
      exact ⟨_, i, rfl, ⟨h.ok.take hc (by simp [h0]) (.inr hnew),
        h.update (by simp [bufOn, h.buf])⟩, update_self ..⟩

/-- The last step of `brelse` moves the same buffer to the front in both. -/
theorem Shows.drop (h : Shows dev s c) (hc : s.client p = some (i, .releasing))
    (hr : c.refs p i = some .releasing) :
    ∃ c', c.drop p i = some c' ∧ Shows dev (s.drop p i) c' := by
  have hok := h.ok.drop hc
  have href : (c.buf i).refcnt = (s.buf i).refcnt := by rw [h.buf]; rfl
  rw [Cache.drop, if_pos hr, href]
  refine ⟨_, rfl, ?_⟩
  split at hok <;> rename_i h0
  · rw [if_pos h0]
    exact ⟨hok, h.update (by rw [h.buf]; rfl)⟩
  · rw [if_neg h0]
    exact ⟨hok, h.update (by rw [h.buf]; rfl)⟩

theorem binit_shows [Inhabited B] (hdev : dev ≠ 0) (disk : ℕ → ℕ → B) :
    Shows dev (binit N NB disk) Cache.binit :=
  ⟨binit_ok disk, funext fun _ => by simp [binit, Cache.binit, bufOn, hdev.symm]⟩

end Shows

end Bcache

end Xv6
