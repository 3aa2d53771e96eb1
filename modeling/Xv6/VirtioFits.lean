import Mathlib.Data.Finset.Card
import Xv6.VirtioRules

/-!
# The virtio protocol

What the threads own fits the memory (`Fits`) : a descriptor that is not free belongs to one
thread, a chain that was published is as it was written, and the heads that are in the avail
ring, with the device, or in the used ring are those of the threads that still wait, once each.
There are never more than two of these, as every chain has three of the eight descriptors, so the
rings never overflow. Every action of the driver and of the device keeps this up.
-/

set_option linter.unusedSectionVars false

namespace Xv6.Virtio

open Function

variable {ι B : Type} {l : List ℕ}

/-- The chain of a request, as the device reads it. -/
structure Formatted (s : Disk B) (c : Chain B) : Prop where
  desc0 : s.desc c.idx0 = ⟨.op c.idx0, 16, VRING_DESC_F_NEXT, c.idx1⟩
  desc1 : s.desc c.idx1 = ⟨.data c.b, BSIZE,
    (if c.write then 0 else VRING_DESC_F_WRITE) ||| VRING_DESC_F_NEXT, c.idx2⟩
  desc2 : s.desc c.idx2 = ⟨.status c.idx0, 1, VRING_DESC_F_WRITE, 0⟩
  op : s.ops c.idx0 = ⟨if c.write then 1 else 0, 0, Disk.sector c.blockno⟩
  buf : (s.info c.idx0).b = some c.b

/-- The descriptors are linked in this order. -/
def Linked (s : Disk B) : List ℕ → Prop
  | [] => True
  | [i] => (s.desc i).flags &&& VRING_DESC_F_NEXT = 0
  | i :: j :: l => (s.desc i).flags &&& VRING_DESC_F_NEXT ≠ 0 ∧ (s.desc i).next = j ∧
    Linked s (j :: l)

/-- What the stage of a thread says of the memory, with `U` in the used ring. -/
def StageOk (s : Disk B) (U : List ℕ) (o : Own B) : Prop :=
  match o.stage with
  | .alloc l => l ≠ [] → o.lock = true
  | .built c => o.lock = true ∧ o.buf = some c.b ∧ s.disk c.b = true ∧ Formatted s c
  | .ringed c => (o.lock = true ∧ o.buf = some c.b ∧ s.disk c.b = true ∧ Formatted s c) ∧
    s.availRing (Ring.slot NUM s.availIdx) = c.idx0
  | .wait c n => o.buf = some c.b ∧ Formatted s c ∧ s.cur c.idx0 = n ∧ s.reqs[n]? = some c ∧
    (s.disk c.b = false → n ∈ s.completed)
  | .over c n => o.lock = true ∧ Formatted s c ∧ n ∈ s.completed
  | .free l n => (l ≠ [] → o.lock = true) ∧ Linked s l ∧ n ∈ s.completed
  | .used id => o.lock = true ∧ U.head? = some id
  | .seen id b => o.lock = true ∧ U.head? = some id ∧ (s.info id).b = some b

/-- The head that a thread waits for. -/
def waits (s : Disk B) (o : Own B) : Option ℕ :=
  match o.stage with
  | .wait c _ => if s.disk c.b then some c.idx0 else none
  | _ => none

/-- A lock is held by one thread. -/
structure Locks (own : ι → Own B) (s : Disk B) : Prop where
  uniq : ∀ {p q}, (own p).lock = true → (own q).lock = true → p = q
  held : ∀ {p}, (own p).lock = true → s.vdiskLock = true
  buf : ∀ {p q b}, (own p).buf = some b → (own q).buf = some b → p = q
  bufHeld : ∀ {p b}, (own p).buf = some b → s.bufLock b = true

/-- A descriptor is free, or one thread's. -/
structure Descs (own : ι → Own B) (s : Disk B) : Prop where
  lt : ∀ {p i}, i ∈ (own p).stage.descs → i < NUM
  nodup : ∀ p, (own p).stage.descs.Nodup
  uniq : ∀ {p q i}, i ∈ (own p).stage.descs → i ∈ (own q).stage.descs → p = q
  free : ∀ {i}, i < NUM → (s.free i = true ↔ ∀ p, i ∉ (own p).stage.descs)

/-- The requests under way : `A` in the avail ring, `U` in the used ring. -/
structure Queue (own : ι → Own B) (s : Disk B) (A U : List ℕ) : Prop where
  avail : Ring.Holds NUM s.availRing s.last s.availIdx A
  used : Ring.Holds NUM s.usedRing s.usedIdx s.usedTop U
  nodup : (A ++ s.busy ++ U).Nodup
  mem : ∀ {h}, h ∈ A ++ s.busy ++ U ↔ ∃ p, waits s (own p) = some h
  status : ∀ {h}, h ∈ U → (s.info h).status = 0 ∧ s.cur h ∈ s.completed

structure FitsWith (own : ι → Own B) (s : Disk B) (A U : List ℕ) : Prop where
  locks : Locks own s
  descs : Descs own s
  stages : ∀ p, StageOk s U (own p)
  done : ∀ {p n}, (own p).done = some n → n ∈ s.completed
  queue : Queue own s A U

def Fits (own : ι → Own B) (s : Disk B) : Prop := ∃ A U, FitsWith own s A U

section Facts

variable {own : ι → Own B} {s s' : Disk B} {A U U' : List ℕ} {p : ι} {o o' : Own B} {c : Chain B}

theorem waits_eq_some {h : ℕ} (hw : waits s o = some h) :
    ∃ c n, o.stage = .wait c n ∧ c.idx0 = h ∧ s.disk c.b = true := by
  unfold waits at hw
  split at hw
  · rename_i c n hs
    split at hw
    · rename_i hd
      exact ⟨c, n, hs, Option.some.inj hw, hd⟩
    · cases hw
  · cases hw

theorem Formatted.congr (h : Formatted s c)
    (hd : ∀ i ∈ c.descs, s'.desc i = s.desc i ∧ s'.ops i = s.ops i ∧
      (s'.info i).b = (s.info i).b) : Formatted s' c := by
  have h0 := hd c.idx0 (by simp [Chain.descs])
  have h1 := hd c.idx1 (by simp [Chain.descs])
  have h2 := hd c.idx2 (by simp [Chain.descs])
  exact ⟨h0.1.trans h.desc0, h1.1.trans h.desc1, h2.1.trans h.desc2, h0.2.1.trans h.op,
    h0.2.2.trans h.buf⟩

theorem Linked.congr : ∀ {l : List ℕ}, (∀ i ∈ l, s'.desc i = s.desc i) → Linked s l → Linked s' l
  | [], _, _ => trivial
  | [i], hd, h => by
    have hi := hd i (by simp)
    simp only [Linked, hi]
    exact h
  | i :: j :: l, hd, ⟨h1, h2, h3⟩ => by
    have hi := hd i (by simp)
    refine ⟨by rwa [hi], by rwa [hi], ?_⟩
    exact Linked.congr (fun k hk => hd k (List.mem_cons_of_mem _ hk)) h3

/-- A change that leaves alone what the stage of a thread is about. -/
theorem StageOk.congr (h : StageOk s U o)
    (hd : ∀ i ∈ o.stage.descs, s'.desc i = s.desc i ∧ s'.ops i = s.ops i ∧
      (s'.info i).b = (s.info i).b ∧ s'.cur i = s.cur i)
    (hb : ∀ b, o.buf = some b → s'.disk b = s.disk b)
    (hreqs : ∀ (n : ℕ) c, s.reqs[n]? = some c → s'.reqs[n]? = some c)
    (hcomp : ∀ n ∈ s.completed, n ∈ s'.completed)
    (hlock : o.lock = true → s'.availRing = s.availRing ∧ s'.availIdx = s.availIdx ∧
      (∀ id, U.head? = some id → U'.head? = some id) ∧ ∀ i, (s'.info i).b = (s.info i).b) :
    StageOk s' U' o := by
  have hfmt : ∀ {c : Chain B}, o.stage.descs = c.descs → Formatted s c → Formatted s' c :=
    fun hc hf => hf.congr fun i hi => by
      obtain ⟨h1, h2, h3, -⟩ := hd i (hc ▸ hi)
      exact ⟨h1, h2, h3⟩
  unfold StageOk at h ⊢
  split <;> rename_i hs <;> simp only [hs] at h
  · exact h
  · exact ⟨h.1, h.2.1, (hb _ h.2.1).trans h.2.2.1, hfmt (by rw [hs]; rfl) h.2.2.2⟩
  · obtain ⟨⟨h1, h2, h3, h4⟩, h5⟩ := h
    obtain ⟨hr, hi, -, -⟩ := hlock h1
    exact ⟨⟨h1, h2, (hb _ h2).trans h3, hfmt (by rw [hs]; rfl) h4⟩, by rw [hr, hi, h5]⟩
  · rename_i c n
    obtain ⟨h1, h2, h3, h4, h5⟩ := h
    refine ⟨h1, hfmt (by rw [hs]; rfl) h2, ?_, hreqs _ _ h4, fun hf => hcomp _ (h5 ?_)⟩
    · rw [(hd c.idx0 (by rw [hs]; simp [Stage.descs, Chain.descs])).2.2.2, h3]
    · rwa [← hb _ h1]
  · exact ⟨h.1, hfmt (by rw [hs]; rfl) h.2.1, hcomp _ h.2.2⟩
  · refine ⟨h.1, h.2.1.congr fun i hi => (hd i ?_).1, hcomp _ h.2.2⟩
    rw [hs]
    exact hi
  · exact ⟨h.1, (hlock h.1).2.2.1 _ h.2⟩
  · obtain ⟨-, -, hU, hinfo⟩ := hlock h.1
    exact ⟨h.1, hU _ h.2.1, (hinfo _).trans h.2.2⟩

/-- The stage of a thread does not depend on locks and on free descriptors. -/
theorem StageOk.relock (h : StageOk s U o) {a : Bool} {b : B → Bool} {f : ℕ → Bool} :
    StageOk { s with vdiskLock := a, bufLock := b, free := f } U o :=
  h.congr (fun _ _ => ⟨rfl, rfl, rfl, rfl⟩) (fun _ _ => rfl) (fun _ _ hn => hn) (fun _ hn => hn)
    fun _ => ⟨rfl, rfl, fun _ hid => hid, fun _ => rfl⟩

theorem waits_congr (hb : ∀ b, o.buf = some b → s'.disk b = s.disk b) (h : StageOk s U o) :
    waits s' o = waits s o := by
  unfold waits
  unfold StageOk at h
  split
  · rename_i hs
    simp only [hs] at h
    rw [hb _ h.1]
  · rfl

/-- Another thread does not have the lock. -/
theorem Locks.not_lock (h : Locks own s) (hp : (own p).lock = true) {q : ι} (hq : q ≠ p) :
    (own q).lock ≠ true := fun hl => hq (h.uniq hl hp)

/-- There are at most two requests, as each has three descriptors. -/
theorem FitsWith.length_le (h : FitsWith own s A U) : (A ++ s.busy ++ U).length ≤ 2 := by
  have hchain : ∀ h' ∈ (A ++ s.busy ++ U).toFinset, ∃ l : List ℕ, l.length = 3 ∧
      l.head? = some h' ∧ ∃ p, (own p).stage.descs = l := fun h' hh => by
    obtain ⟨p, hp⟩ := h.queue.mem.mp (List.mem_toFinset.mp hh)
    obtain ⟨c, n, hs, hc, -⟩ := waits_eq_some hp
    exact ⟨c.descs, rfl, congrArg some hc, p, by rw [hs]; rfl⟩
  choose! l hlen hhead howner using hchain
  have hcard : ∀ h' ∈ (A ++ s.busy ++ U).toFinset, (l h').toFinset.card = 3 := fun h' hh => by
    obtain ⟨p, hp⟩ := howner h' hh
    rw [List.toFinset_card_of_nodup (hp ▸ h.descs.nodup p), hlen h' hh]
  have hsub : ((A ++ s.busy ++ U).toFinset.biUnion fun h' => (l h').toFinset) ⊆
      Finset.range NUM := fun i hi => by
    obtain ⟨h', hh, hi⟩ := Finset.mem_biUnion.mp hi
    obtain ⟨p, hp⟩ := howner h' hh
    exact Finset.mem_range.mpr (h.descs.lt (p := p) (hp ▸ List.mem_toFinset.mp hi))
  have hle := Finset.card_le_card hsub
  rw [Finset.card_biUnion, Finset.sum_congr rfl hcard, Finset.sum_const, smul_eq_mul,
    List.toFinset_card_of_nodup h.queue.nodup, Finset.card_range, NUM] at hle
  · omega
  · intro x hx y hy hxy
    refine Finset.disjoint_left.mpr fun i hix hiy => ?_
    obtain ⟨p, hp⟩ := howner x hx
    obtain ⟨q, hq⟩ := howner y hy
    obtain rfl : p = q := h.descs.uniq (hp ▸ List.mem_toFinset.mp hix)
      (hq ▸ List.mem_toFinset.mp hiy)
    have hheads := hhead x hx
    rw [← hp, hq, hhead y hy] at hheads
    exact hxy (Option.some.inj hheads).symm

end Facts

section Update

variable [DecidableEq ι] {own : ι → Own B} {s s' : Disk B} {A A' U U' : List ℕ} {p : ι}
  {o : Own B}

/-- A step of `p` that leaves the locks of buffers alone. -/
theorem Locks.of_lock (h : Locks own s) (hb : o.buf = (own p).buf) (hbl : s'.bufLock = s.bufLock)
    (huniq : ∀ {q r}, (update own p o q).lock = true → (update own p o r).lock = true → q = r)
    (hheld : ∀ {q}, (update own p o q).lock = true → s'.vdiskLock = true) :
    Locks (update own p o) s' := by
  have hb' := Machine.update_field Own.buf hb
  refine ⟨huniq, hheld, ?_, ?_⟩ <;> simp only [hb', hbl]
  · exact h.buf
  · exact h.bufHeld

/-- A step of `p` that leaves `vdisk_lock` alone. -/
theorem Locks.of_buf (h : Locks own s) (hl : o.lock = (own p).lock)
    (hv : s'.vdiskLock = s.vdiskLock)
    (hbuf : ∀ {q r b}, (update own p o q).buf = some b → (update own p o r).buf = some b → q = r)
    (hheld : ∀ {q b}, (update own p o q).buf = some b → s'.bufLock b = true) :
    Locks (update own p o) s' := by
  have hl' := Machine.update_field Own.lock hl
  refine ⟨?_, ?_, hbuf, hheld⟩ <;> simp only [hl', hv]
  · exact h.uniq
  · exact h.held

theorem Locks.same (h : Locks own s) (hl : o.lock = (own p).lock) (hb : o.buf = (own p).buf)
    (hv : s'.vdiskLock = s.vdiskLock) (hbl : s'.bufLock = s.bufLock) :
    Locks (update own p o) s' := by
  have hb' := Machine.update_field Own.buf hb
  refine h.of_buf hl hv ?_ ?_ <;> simp only [hb', hbl]
  · exact h.buf
  · exact h.bufHeld

theorem Descs.same (h : Descs own s) (hd : o.stage.descs = (own p).stage.descs)
    (hf : s'.free = s.free) : Descs (update own p o) s' := by
  have hd' := Machine.update_field (fun o : Own B => o.stage.descs) hd
  obtain ⟨h1, h2, h3, h4⟩ := h
  constructor <;> simp only [hd', hf] <;> assumption

/-- A step of `p` after which the same heads are waited for. -/
theorem Queue.mem_update (h : Queue own s A U) (hp : waits s' o = waits s (own p))
    (hq : ∀ q, q ≠ p → waits s' (own q) = waits s (own q)) {h' : ℕ} :
    h' ∈ A ++ s.busy ++ U ↔ ∃ q, waits s' (update own p o q) = some h' := by
  rw [h.mem]
  refine exists_congr fun q => ?_
  by_cases hqp : q = p
  · rw [hqp, update_self, hp]
  · rw [update_of_ne hqp, hq q hqp]

/-- The memory of the rings is not touched. -/
theorem Queue.same (h : Queue own s A U) (hp : waits s' o = waits s (own p))
    (hq : ∀ q, q ≠ p → waits s' (own q) = waits s (own q))
    (havail : s'.availRing = s.availRing ∧ s'.availIdx = s.availIdx)
    (hused : s'.usedRing = s.usedRing ∧ s'.usedIdx = s.usedIdx ∧ s'.usedTop = s.usedTop)
    (hdev : s'.last = s.last ∧ s'.busy = s.busy)
    (hstatus : ∀ h' ∈ U, (s'.info h').status = (s.info h').status ∧ s'.cur h' = s.cur h')
    (hcomp : s'.completed = s.completed) : Queue (update own p o) s' A U where
  avail := by
    rw [havail.1, havail.2, hdev.1]
    exact h.avail
  used := by
    rw [hused.1, hused.2.1, hused.2.2]
    exact h.used
  nodup := by
    rw [hdev.2]
    exact h.nodup
  mem := by
    rw [hdev.2]
    exact h.mem_update hp hq
  status hU := by
    rw [(hstatus _ hU).1, (hstatus _ hU).2, hcomp]
    exact h.status hU

theorem FitsWith.stage {g : Stage B} (h : FitsWith own s A U) (hs : (own p).stage = g) :
    StageOk s U { own p with stage := g } :=
  hs ▸ h.stages p

theorem FitsWith.step (h : FitsWith own s A U) (hlocks : Locks (update own p o) s')
    (hdescs : Descs (update own p o) s') (hqueue : Queue (update own p o) s' A' U')
    (hself : StageOk s' U' o) (hothers : ∀ q, q ≠ p → StageOk s' U' (own q))
    (hcomp : ∀ n ∈ s.completed, n ∈ s'.completed)
    (hdone : ∀ n, o.done = some n → n ∈ s'.completed) : FitsWith (update own p o) s' A' U' := by
  refine ⟨hlocks, hdescs, fun q => ?_, fun {q n} hn => ?_, hqueue⟩
  · by_cases hq : q = p
    · rwa [hq, update_self]
    · rw [update_of_ne hq]
      exact hothers q hq
  · by_cases hq : q = p
    · rw [hq, update_self] at hn
      exact hdone n hn
    · rw [update_of_ne hq] at hn
      exact hcomp n (h.done hn)

/-- A step of `p` that changes locks, free descriptors and what `p` knows. -/
theorem FitsWith.relock (h : FitsWith own s A U) {a : Bool} {b : B → Bool} {f : ℕ → Bool}
    (hlocks : Locks (update own p o) { s with vdiskLock := a, bufLock := b, free := f })
    (hdescs : Descs (update own p o) { s with vdiskLock := a, bufLock := b, free := f })
    (hw : waits s o = waits s (own p)) (hself : StageOk s U o)
    (hdone : ∀ n, o.done = some n → n ∈ s.completed) :
    FitsWith (update own p o) { s with vdiskLock := a, bufLock := b, free := f } A U :=
  h.step hlocks hdescs (h.queue.same hw (fun _ _ => rfl) ⟨rfl, rfl⟩ ⟨rfl, rfl, rfl⟩ ⟨rfl, rfl⟩
    (fun _ _ => ⟨rfl, rfl⟩) rfl) hself.relock (fun q _ => (h.stages q).relock) (fun _ hn => hn)
    hdone

theorem FitsWith.know (h : FitsWith own s A U) (hl : o.lock = (own p).lock)
    (hb : o.buf = (own p).buf) (hd : o.stage.descs = (own p).stage.descs)
    (hw : waits s o = waits s (own p)) (hself : StageOk s U o) (hdone : o.done = (own p).done) :
    FitsWith (update own p o) s A U :=
  h.relock (h.locks.same hl hb rfl rfl) (h.descs.same hd rfl) hw hself
    fun _ hn => h.done (hdone ▸ hn)

/-- What the others rely on, when `p` has the lock. -/
theorem FitsWith.others (h : FitsWith own s A U) (hl : (own p).lock = true)
    (hd : ∀ q, q ≠ p → ∀ i ∈ (own q).stage.descs, s'.desc i = s.desc i ∧ s'.ops i = s.ops i ∧
      (s'.info i).b = (s.info i).b ∧ s'.cur i = s.cur i)
    (hb : ∀ q, q ≠ p → ∀ b, (own q).buf = some b → s'.disk b = s.disk b)
    (hreqs : ∀ (n : ℕ) c, s.reqs[n]? = some c → s'.reqs[n]? = some c)
    (hcomp : ∀ n ∈ s.completed, n ∈ s'.completed) (q : ι) (hq : q ≠ p) : StageOk s' U' (own q) :=
  (h.stages q).congr (hd q hq) (hb q hq) hreqs hcomp
    fun hlq => absurd hlq (h.locks.not_lock hl hq)

end Update

section Actions

variable [DecidableEq ι] [DecidableEq B] {own : ι → Own B} {s : Disk B} {A U : List ℕ} {p : ι}
  {c : Chain B} {b : B} {i n : ℕ} (h : FitsWith own s A U)

include h

/-! ## The locks -/

theorem FitsWith.acquire (hfree : s.vdiskLock = false) :
    FitsWith (update own p { own p with lock := true }) { s with vdiskLock := true } A U := by
  have hnone : ∀ q, (own q).lock ≠ true := fun q hq => by simp [h.locks.held hq] at hfree
  have hlock : ∀ q, (update own p { own p with lock := true } q).lock = true → q = p :=
      fun q hq => by
    by_contra hqp
    rw [update_of_ne hqp] at hq
    exact hnone q hq
  refine h.relock (h.locks.of_lock rfl rfl (fun h1 h2 => (hlock _ h1).trans (hlock _ h2).symm)
    fun _ => rfl) (h.descs.same rfl rfl) rfl ?_ fun _ hn => h.done hn
  have hp := h.stages p
  unfold StageOk at hp ⊢
  cases hs : (own p).stage <;> simp only [hs] at hp ⊢
  case alloc l => exact fun _ => trivial
  case wait c n => exact hp
  case free l n => exact ⟨fun _ => trivial, hp.2⟩
  case ringed c => exact absurd hp.1.1 (hnone p)
  all_goals exact absurd hp.1 (hnone p)

theorem FitsWith.release (hl : (own p).lock = true)
    (hstage : (own p).stage = .alloc [] ∨ (∃ c n, (own p).stage = .wait c n) ∨
      ∃ n, (own p).stage = .free [] n) :
    FitsWith (update own p { own p with lock := false }) { s with vdiskLock := false } A U := by
  have hlock : ∀ q, (update own p { own p with lock := false } q).lock ≠ true := fun q hq => by
    by_cases hqp : q = p
    · simp [hqp] at hq
    · rw [update_of_ne hqp] at hq
      exact h.locks.not_lock hl hqp hq
  refine h.relock (h.locks.of_lock rfl rfl (fun h1 => absurd h1 (hlock _))
    fun h1 => absurd h1 (hlock _)) (h.descs.same rfl rfl) rfl ?_ fun _ hn => h.done hn
  have hp := h.stages p
  unfold StageOk at hp ⊢
  rcases hstage with hs | ⟨c, n, hs⟩ | ⟨n, hs⟩ <;> simp only [hs] at hp ⊢
  · exact fun hne => absurd rfl hne
  · exact hp
  · exact ⟨fun hne => absurd rfl hne, hp.2⟩

theorem FitsWith.lockBuf (hs : (own p).stage = .alloc []) (hfree : s.bufLock b = false) :
    FitsWith (update own p { own p with buf := some b })
      { s with bufLock := update s.bufLock b true } A U := by
  have hnone : ∀ q, (own q).buf ≠ some b := fun q hq => by simp [h.locks.bufHeld hq] at hfree
  have hcases : ∀ {q b'}, (update own p { own p with buf := some b } q).buf = some b' →
      q = p ∧ b' = b ∨ q ≠ p ∧ b' ≠ b ∧ (own q).buf = some b' := fun {q b'} hq => by
    by_cases hqp : q = p
    · rw [hqp, update_self] at hq
      exact .inl ⟨hqp, (Option.some.inj hq).symm⟩
    · rw [update_of_ne hqp] at hq
      refine .inr ⟨hqp, ?_, hq⟩
      rintro rfl
      exact hnone q hq
  refine h.relock (h.locks.of_buf rfl rfl (fun h1 h2 => ?_) fun {q b'} h1 => ?_)
    (h.descs.same rfl rfl) (by simp [waits, hs]) (by simp [StageOk, hs]) fun _ hn => h.done hn
  · rcases hcases h1 with ⟨hq1, hb1⟩ | ⟨-, hb1, h1'⟩ <;>
      rcases hcases h2 with ⟨hq2, hb2⟩ | ⟨-, hb2, h2'⟩
    · rw [hq1, hq2]
    · exact absurd hb1 hb2
    · exact absurd hb2 hb1
    · exact h.locks.buf h1' h2'
  · rcases hcases h1 with ⟨-, rfl⟩ | ⟨-, hb', h1'⟩
    · exact update_self ..
    · exact (update_of_ne hb' ..).trans (h.locks.bufHeld h1')

theorem FitsWith.unlockBuf (hb : (own p).buf = some b) (hs : (own p).stage = .free [] n) :
    FitsWith (update own p { own p with buf := none, stage := .alloc [], done := some n })
      { s with bufLock := update s.bufLock b false } A U := by
  have hother : ∀ {q b'}, (update own p { own p with
      buf := none, stage := .alloc [], done := some n } q).buf = some b' →
      q ≠ p ∧ (own q).buf = some b' := fun {q b'} hq => by
    by_cases hqp : q = p
    · simp [hqp] at hq
    · rw [update_of_ne hqp] at hq
      exact ⟨hqp, hq⟩
  have hp := h.stage hs
  refine h.relock (h.locks.of_buf rfl rfl (fun h1 h2 => h.locks.buf (hother h1).2 (hother h2).2)
    fun {q b'} h1 => ?_) (h.descs.same (by rw [hs]; rfl) rfl) (by simp [waits, hs])
    (fun hne => absurd rfl hne) fun m hm => ?_
  · obtain ⟨hq, h1'⟩ := hother h1
    have hbb : b' ≠ b := by
      rintro rfl
      exact hq (h.locks.buf h1' hb)
    exact (update_of_ne hbb ..).trans (h.locks.bufHeld h1')
  · cases hm
    exact hp.2.2

/-! ## The descriptors -/

theorem FitsWith.alloc (hl : (own p).lock = true) (hs : (own p).stage = .alloc l) (hi : i < NUM)
    (hfree : s.free i = true) :
    FitsWith (update own p { own p with stage := .alloc (l ++ [i]) })
      { s with free := update s.free i false } A U := by
  have hnew := (h.descs.free hi).mp hfree
  have hcases : ∀ {q j},
      j ∈ (update own p { own p with stage := .alloc (l ++ [i]) } q).stage.descs →
        q = p ∧ j = i ∨ j ≠ i ∧ j ∈ (own q).stage.descs := fun {q j} hj => by
    by_cases hji : j = i
    · refine .inl ⟨?_, hji⟩
      by_contra hqp
      rw [update_of_ne hqp, hji] at hj
      exact hnew q hj
    · refine .inr ⟨hji, ?_⟩
      by_cases hqp : q = p
      · rw [hqp, update_self] at hj
        rw [hqp, hs]
        simpa [Stage.descs, hji] using hj
      · rwa [update_of_ne hqp] at hj
  refine h.relock (h.locks.same rfl rfl rfl rfl) ⟨fun hj => ?_, fun q => ?_, fun hj hj' => ?_,
    fun {j} hj => ?_⟩ (by simp [waits, hs]) (fun _ => hl) fun _ hn => h.done hn
  · rcases hcases hj with ⟨-, rfl⟩ | ⟨-, hj⟩
    · exact hi
    · exact h.descs.lt hj
  · by_cases hqp : q = p
    · have hnd := h.descs.nodup p
      have hni := hnew p
      rw [hs] at hnd hni
      rw [hqp, update_self]
      exact List.nodup_append'.mpr ⟨hnd, List.nodup_singleton i, by simpa [Stage.descs] using hni⟩
    · rw [update_of_ne hqp]
      exact h.descs.nodup q
  · rcases hcases hj with ⟨rfl, hji⟩ | ⟨hji, hj⟩ <;>
      rcases hcases hj' with ⟨rfl, hji'⟩ | ⟨hji', hj'⟩
    · rfl
    · exact absurd hji hji'
    · exact absurd hji' hji
    · exact h.descs.uniq hj hj'
  · by_cases hji : j = i
    · subst hji
      simp only [update_self, Bool.false_eq_true, false_iff, not_forall, not_not]
      refine ⟨p, ?_⟩
      rw [update_self]
      simp [Stage.descs]
    · simp only [update_of_ne hji]
      rw [h.descs.free hj]
      refine forall_congr' fun q => not_congr ?_
      by_cases hqp : q = p
      · rw [hqp, update_self, hs]
        simp [Stage.descs, hji]
      · rw [update_of_ne hqp]

theorem FitsWith.give {st : Stage B} (hd : (own p).stage.descs = i :: st.descs)
    (hw : waits s (own p) = none)
    (hw' : ∀ s' : Disk B, waits s' { own p with stage := st } = none)
    (hself : StageOk { s with desc := update s.desc i ⟨.null, 0, 0, 0⟩ } U
      { own p with stage := st }) :
    FitsWith (update own p { own p with stage := st })
      { s with desc := update s.desc i ⟨.null, 0, 0, 0⟩, free := update s.free i true } A U := by
  have hi : i ∈ (own p).stage.descs := by simp [hd]
  have hnd := h.descs.nodup p
  rw [hd] at hnd
  have hsub : ∀ {q j}, j ∈ (update own p { own p with stage := st } q).stage.descs ↔
      j ≠ i ∧ j ∈ (own q).stage.descs := fun {q j} => by
    by_cases hqp : q = p
    · rw [hqp, update_self, hd, List.mem_cons]
      constructor
      · intro hj
        refine ⟨?_, .inr hj⟩
        rintro rfl
        exact (List.nodup_cons.mp hnd).1 hj
      · rintro ⟨hji, hj | hj⟩
        · exact absurd hj hji
        · exact hj
    · rw [update_of_ne hqp]
      refine ⟨fun hj => ⟨?_, hj⟩, And.right⟩
      rintro rfl
      exact hqp (h.descs.uniq hj hi)
  refine h.step (h.locks.same rfl rfl rfl rfl) ⟨fun hj => h.descs.lt (hsub.mp hj).2, fun q => ?_,
    fun hj hj' => h.descs.uniq (hsub.mp hj).2 (hsub.mp hj').2, fun {j} hj => ?_⟩
    (h.queue.same ((hw' _).trans hw.symm) (fun _ _ => rfl) ⟨rfl, rfl⟩ ⟨rfl, rfl, rfl⟩ ⟨rfl, rfl⟩
      (fun _ _ => ⟨rfl, rfl⟩) rfl) hself.relock (fun q hq => ?_) (fun _ hn => hn)
    fun _ hn => h.done hn
  · by_cases hqp : q = p
    · rw [hqp, update_self]
      exact (List.nodup_cons.mp hnd).2
    · rw [update_of_ne hqp]
      exact h.descs.nodup q
  · simp only [hsub, not_and]
    by_cases hji : j = i
    · simp [hji]
    · simp only [update_of_ne hji, h.descs.free hj]
      exact ⟨fun hf q _ => hf q, fun hf q => hf q hji⟩
  · refine (h.stages q).congr (fun j hj => ?_) (fun _ _ => rfl) (fun _ _ hn => hn)
      (fun _ hn => hn) fun _ => ⟨rfl, rfl, fun _ hid => hid, fun _ => rfl⟩
    have hji : j ≠ i := by
      rintro rfl
      exact hq (h.descs.uniq hj hi)
    exact ⟨update_of_ne hji .., rfl, rfl, rfl⟩

omit h in
theorem Linked.tail {i : ℕ} : ∀ {l : List ℕ}, Linked s (i :: l) → Linked s l
  | [], _ => trivial
  | _ :: _, h => h.2.2

theorem FitsWith.freeDesc (hl : (own p).lock = true)
    (hs : (∃ l, (own p).stage = .alloc (i :: l)) ∨ ∃ l n, (own p).stage = .free (i :: l) n) :
    i < NUM ∧ s.free i = false ∧ ∃ o, (Act.freeDesc i).Does (own p) () o ∧
      FitsWith (update own p o) { s with
        desc := update s.desc i ⟨.null, 0, 0, 0⟩
        free := update s.free i true } A U := by
  have hi : i ∈ (own p).stage.descs := by
    rcases hs with ⟨l, hs⟩ | ⟨l, n, hs⟩ <;> simp [hs, Stage.descs]
  have hlt := h.descs.lt hi
  refine ⟨hlt, ?_, ?_⟩
  · rw [← Bool.not_eq_true, h.descs.free hlt]
    exact fun hf => hf p hi
  · rcases hs with ⟨l, hs⟩ | ⟨l, n, hs⟩
    · refine ⟨{ own p with stage := .alloc l }, ⟨fun l' hl' => ?_, fun l' n' hl' => ?_⟩,
        h.give (by rw [hs]; rfl) (by simp [waits, hs]) (fun _ => rfl) fun _ => hl⟩
      · rw [hs] at hl'
        cases hl'
        rfl
      · simp [hs] at hl'
    · have hp := h.stage hs
      have hnd := h.descs.nodup p
      rw [hs] at hnd
      refine ⟨{ own p with stage := .free l n }, ⟨fun l' hl' => ?_, fun l' n' hl' => ?_⟩,
        h.give (by rw [hs]; rfl) (by simp [waits, hs]) (fun _ => rfl)
          ⟨fun _ => hl, hp.2.1.tail.congr fun j hj => update_of_ne ?_ .., hp.2.2⟩⟩
      · simp [hs] at hl'
      · rw [hs] at hl'
        cases hl'
        rfl
      · rintro rfl
        exact (List.nodup_cons.mp hnd).1 hj

omit h in
theorem Linked.head (h : Linked s (i :: l)) :
    ((s.desc i).flags &&& VRING_DESC_F_NEXT ≠ 0 ↔ l ≠ []) ∧ ∀ j ∈ l.head?, (s.desc i).next = j := by
  cases l with
  | nil => exact ⟨⟨fun hf => absurd h hf, fun hf => absurd rfl hf⟩, nofun⟩
  | cons j l =>
    refine ⟨⟨fun _ => by simp, fun _ => h.1⟩, fun k hk => ?_⟩
    rw [h.2.1]
    exact Option.some.inj hk

/-! ## A request -/

/-- The memory with the request written. -/
def Disk.withFormat (s : Disk B) (c : Chain B) : Disk B := { s with
  ops := update s.ops c.idx0 ⟨if c.write then 1 else 0, 0, Disk.sector c.blockno⟩
  desc := update (update (update s.desc c.idx0 ⟨.op c.idx0, 16, VRING_DESC_F_NEXT, c.idx1 % 2 ^ 16⟩)
    c.idx1 ⟨.data c.b, BSIZE, (if c.write then 0 else VRING_DESC_F_WRITE) ||| VRING_DESC_F_NEXT,
      c.idx2 % 2 ^ 16⟩) c.idx2 ⟨.status c.idx0, 1, VRING_DESC_F_WRITE, 0⟩
  disk := update s.disk c.b true
  info := update s.info c.idx0 ⟨some c.b, 255⟩ }

omit h in
theorem Disk.format_eq (c : Chain B) : Disk.format c s = .ok ((), s.withFormat c) := by
  simp [Disk.format, Disk.withFormat, modify, modifyGet, MonadStateOf.modifyGet, StateT.modifyGet,
    bind, StateT.bind, Except.bind, pure, Except.pure]

omit h in
theorem mod_of_lt_NUM {i : ℕ} (hi : i < NUM) : i % 2 ^ 16 = i :=
  Nat.mod_eq_of_lt (hi.trans (by decide))

omit h in
theorem Formatted.of_withFormat (hnd : c.descs.Nodup) (h1 : c.idx1 < NUM) (h2 : c.idx2 < NUM) :
    Formatted (s.withFormat c) c := by
  simp only [Chain.descs, List.nodup_cons, List.mem_cons, List.not_mem_nil, or_false, not_or] at hnd
  obtain ⟨⟨h01, h02⟩, h12, -⟩ := hnd
  unfold Disk.withFormat
  rw [mod_of_lt_NUM h1, mod_of_lt_NUM h2]
  constructor <;> simp [h01, h02, h12]

/-- A thread writes to descriptors and a buffer that are its own. -/
theorem FitsWith.format (hl : (own p).lock = true)
    (hb : (own p).buf = some c.b) (hs : (own p).stage = .alloc c.descs) :
    FitsWith (update own p { own p with stage := .built c }) (s.withFormat c) A U := by
  have hmine : ∀ i ∈ c.descs, i ∈ (own p).stage.descs := fun i hi => by rwa [hs]
  have hfmt : Formatted (s.withFormat c) c := by
    refine .of_withFormat ?_ (h.descs.lt (hmine _ ?_)) (h.descs.lt (hmine _ ?_))
    · have hnd := h.descs.nodup p
      rwa [hs] at hnd
    · simp [Chain.descs]
    · simp [Chain.descs]
  have hbuf : ∀ q, q ≠ p → ∀ b, (own q).buf = some b → (s.withFormat c).disk b = s.disk b :=
    fun q hq b hqb => by
      refine update_of_ne ?_ ..
      rintro rfl
      exact hq (h.locks.buf hqb hb)
  have hne : ∀ i, i ∉ (own p).stage.descs → i ≠ c.idx0 ∧ i ≠ c.idx1 ∧ i ≠ c.idx2 := fun i hi => by
    rw [hs] at hi
    simpa [Stage.descs, Chain.descs] using hi
  have hother : ∀ q, q ≠ p → ∀ i ∈ (own q).stage.descs, i ∉ (own p).stage.descs :=
    fun q hq i hi hi' => hq (h.descs.uniq hi hi')
  refine h.step (h.locks.same rfl rfl rfl rfl) (h.descs.same (by rw [hs]; rfl) rfl)
    (h.queue.same (by simp [waits, hs]) (fun q hq => waits_congr (hbuf q hq) (h.stages q))
      ⟨rfl, rfl⟩ ⟨rfl, rfl, rfl⟩ ⟨rfl, rfl⟩ (fun h' hh => ⟨?_, rfl⟩) rfl)
    ⟨hl, hb, update_self .., hfmt⟩ (h.others hl (fun q hq i hi => ?_) hbuf (fun _ _ hn => hn)
      fun _ hn => hn) (fun _ hn => hn) fun _ hn => h.done hn
  · -- a head in the used ring is another thread's
    obtain ⟨q, hq⟩ := h.queue.mem.mp (List.mem_append_right _ hh)
    obtain ⟨c', n, hsq, rfl, -⟩ := waits_eq_some hq
    have hqp : q ≠ p := by
      rintro rfl
      simp [hs] at hsq
    have hi := hne _ (hother q hqp c'.idx0 (by simp [hsq, Stage.descs, Chain.descs]))
    simp [Disk.withFormat, hi.1]
  · obtain ⟨h0, h1, h2⟩ := hne i (hother q hq i hi)
    refine ⟨?_, ?_, ?_, rfl⟩ <;> simp [Disk.withFormat, h0, h1, h2]

omit h in
theorem NUM_dvd : NUM ∣ 2 ^ 16 := ⟨2 ^ 13, rfl⟩

omit h in
theorem NUM_lt : NUM < 2 ^ 16 := by decide

theorem FitsWith.avail_lt : A.length < NUM := by
  have := h.length_le
  simp only [List.length_append] at this
  unfold NUM
  omega

theorem FitsWith.used_lt : U.length < NUM := by
  have := h.length_le
  simp only [List.length_append] at this
  unfold NUM
  omega

theorem FitsWith.ring (hs : (own p).stage = .built c) :
    FitsWith (update own p { own p with stage := .ringed c })
      { s with availRing := update s.availRing (Ring.slot NUM s.availIdx) (c.idx0 % 2 ^ 16) }
      A U := by
  obtain ⟨hl, hb, hd, hf⟩ := h.stage hs
  have hlt : c.idx0 < NUM := h.descs.lt (p := p) (by simp [hs, Stage.descs, Chain.descs])
  refine h.step (h.locks.same rfl rfl rfl rfl) (h.descs.same (by rw [hs]; rfl) rfl)
    ⟨h.queue.avail.write NUM_dvd h.avail_lt _, h.queue.used, h.queue.nodup,
      h.queue.mem_update (by simp [waits, hs]) fun _ _ => rfl, h.queue.status⟩
    ⟨⟨hl, hb, hd, hf.congr fun _ _ => ⟨rfl, rfl, rfl⟩⟩, (update_self ..).trans (mod_of_lt_NUM hlt)⟩
    (h.others hl (fun _ _ _ _ => ⟨rfl, rfl, rfl, rfl⟩) (fun _ _ _ _ => rfl) (fun _ _ hn => hn)
      fun _ hn => hn) (fun _ hn => hn) fun _ hn => h.done hn

theorem FitsWith.publish (hs : (own p).stage = .ringed c) :
    FitsWith (update own p { own p with stage := .wait c s.reqs.length }) { s with
      availIdx := s.availIdx + 1
      reqs := s.reqs ++ [c]
      cur := update s.cur c.idx0 s.reqs.length } (A ++ [c.idx0]) U := by
  obtain ⟨⟨hl, hb, hd, hf⟩, hr⟩ := h.stage hs
  have hmine : c.idx0 ∈ (own p).stage.descs := by simp [hs, Stage.descs, Chain.descs]
  have hnew : c.idx0 ∉ A ++ s.busy ++ U := fun hmem => by
    obtain ⟨q, hq⟩ := h.queue.mem.mp hmem
    obtain ⟨c', n, hsq, hc, -⟩ := waits_eq_some hq
    obtain rfl : q = p := h.descs.uniq (i := c.idx0)
      (by simp [hsq, Stage.descs, Chain.descs, ← hc]) hmine
    simp [hs] at hsq
  have hperm : A ++ [c.idx0] ++ s.busy ++ U = A ++ c.idx0 :: (s.busy ++ U) := by simp
  have hperm' : A ++ s.busy ++ U = A ++ (s.busy ++ U) := by simp
  have hreqs : ∀ (n : ℕ) c', s.reqs[n]? = some c' → (s.reqs ++ [c])[n]? = some c' :=
    fun n c' hn => by
      rw [List.getElem?_append_left (List.getElem?_eq_some_iff.mp hn).1, hn]
  refine h.step (h.locks.same rfl rfl rfl rfl) (h.descs.same (by rw [hs]; rfl) rfl)
    ⟨h.queue.avail.advance h.avail_lt hr, h.queue.used, ?_, fun {h'} => ?_, fun {h'} hh => ?_⟩
    ⟨hb, hf.congr fun _ _ => ⟨rfl, rfl, rfl⟩, update_self .., by simp, fun hf => by simp [hd] at hf⟩
    (h.others hl (fun q hq i hi => ⟨rfl, rfl, rfl, update_of_ne ?_ ..⟩) (fun _ _ _ _ => rfl) hreqs
      fun _ hn => hn) (fun _ hn => hn) fun _ hn => h.done hn
  · have hnd := h.queue.nodup
    rw [hperm'] at hnd hnew
    simp only [hperm]
    rw [List.nodup_middle]
    exact List.nodup_cons.mpr ⟨hnew, hnd⟩
  · simp only [hperm]
    rw [List.mem_append, List.mem_cons, or_left_comm, ← List.mem_append, ← hperm', h.queue.mem]
    constructor
    · rintro (rfl | ⟨q, hq⟩)
      · exact ⟨p, by simp [waits, hd]⟩
      · refine ⟨q, ?_⟩
        have hqp : q ≠ p := by
          rintro rfl
          simp [waits, hs] at hq
        rw [update_of_ne hqp]
        exact hq
    · rintro ⟨q, hq⟩
      by_cases hqp : q = p
      · rw [hqp, update_self] at hq
        simp only [waits, hd, if_true] at hq
        exact .inl (Option.some.inj hq).symm
      · rw [update_of_ne hqp] at hq
        exact .inr ⟨q, hq⟩
  · have hne : h' ≠ c.idx0 := by
      rintro rfl
      exact hnew (List.mem_append_right _ hh)
    simp only [update_of_ne hne]
    exact h.queue.status hh
  · rintro rfl
    exact hq (h.descs.uniq hi hmine)

/-- A thread looks at `b->disk`. -/
theorem FitsWith.busyBuf (hl : (own p).lock = true)
    (hs : (own p).stage = .wait c n) (hd : s.disk c.b = false) :
    FitsWith (update own p { own p with stage := .over c n }) s A U := by
  obtain ⟨-, hf, -, -, hn⟩ := h.stage hs
  exact h.know rfl rfl (by rw [hs]; rfl) (by simp [waits, hs, hd]) ⟨hl, hf, hn hd⟩ rfl

omit h in
theorem Formatted.linked (h : Formatted s c) : Linked s c.descs := by
  simp only [Chain.descs, Linked, h.desc0, h.desc1, h.desc2]
  refine ⟨by decide, trivial, ?_, trivial, by decide⟩
  cases c.write <;> decide

theorem FitsWith.clear (hs : (own p).stage = .over c n) :
    FitsWith (update own p { own p with stage := .free c.descs n })
      { s with info := update s.info c.idx0 { s.info c.idx0 with b := none } } A U := by
  obtain ⟨hl, hf, hn⟩ := h.stage hs
  have hmine : c.idx0 ∈ (own p).stage.descs := by simp [hs, Stage.descs, Chain.descs]
  refine h.step (h.locks.same rfl rfl rfl rfl) (h.descs.same (by rw [hs]; rfl) rfl)
    (h.queue.same (by simp [waits, hs]) (fun _ _ => rfl) ⟨rfl, rfl⟩ ⟨rfl, rfl, rfl⟩ ⟨rfl, rfl⟩
      (fun h' _ => ⟨?_, rfl⟩) rfl)
    ⟨fun _ => hl, hf.linked.congr fun _ _ => rfl, hn⟩
    (h.others hl (fun q hq i hi => ⟨rfl, rfl, ?_, rfl⟩) (fun _ _ _ _ => rfl) (fun _ _ hn => hn)
      fun _ hn => hn) (fun _ hn => hn) fun _ hn => h.done hn
  · by_cases hh : h' = c.idx0
    · simp [hh]
    · simp [hh]
  · have hne : i ≠ c.idx0 := by
      rintro rfl
      exact hq (h.descs.uniq hi hmine)
    simp [hne]

/-! ## Interrupts -/

/-- The thread that waits for the first entry of the used ring. -/
theorem FitsWith.waiter {id : ℕ} (hU : U.head? = some id) :
    ∃ q c n, (own q).stage = .wait c n ∧ c.idx0 = id ∧ s.disk c.b = true ∧ (own q).buf = some c.b ∧
      (s.info id).b = some c.b ∧ s.cur id = n := by
  obtain ⟨q, hq⟩ := h.queue.mem.mp (List.mem_append_right _ (List.mem_of_head? hU))
  obtain ⟨c, n, hs, rfl, hd⟩ := waits_eq_some hq
  have hq' := h.stage hs
  exact ⟨q, c, n, hs, rfl, hd, hq'.1, hq'.2.1.buf, hq'.2.2.1⟩

theorem FitsWith.finish {id : ℕ} (hs : (own p).stage = .seen id b) :
    ∃ U', FitsWith (update own p { own p with stage := .alloc [] })
      { s with disk := update s.disk b false, usedIdx := s.usedIdx + 1 } A U' := by
  obtain ⟨hl, hU, hinfo⟩ := h.stage hs
  obtain ⟨q, c, n, hsq, hc, hd, hbq, hb, hcur⟩ := h.waiter hU
  obtain rfl : b = c.b := Option.some.inj (hinfo.symm.trans hb)
  obtain ⟨U', rfl⟩ : ∃ U', U = id :: U' := ⟨U.tail, (List.cons_head?_tail hU).symm⟩
  have hbuf : ∀ q', q' ≠ q → ∀ b, (own q').buf = some b → update s.disk c.b false b = s.disk b :=
    fun q' hq' b hb' => by
      refine update_of_ne ?_ ..
      rintro rfl
      exact hq' (h.locks.buf hb' hbq)
  have hqp : q ≠ p := by
    rintro rfl
    simp [hs] at hsq
  have hnd := h.queue.nodup
  rw [List.nodup_middle, List.nodup_cons] at hnd
  refine ⟨U', h.step (h.locks.same rfl rfl rfl rfl) (h.descs.same (by rw [hs]; rfl) rfl)
    ⟨h.queue.avail, h.queue.used.pop, hnd.2, fun {h'} => ?_,
      fun hh => h.queue.status (List.mem_cons_of_mem _ hh)⟩
    (fun hne => absurd rfl hne) (fun q' hq' => ?_) (fun _ hn => hn) fun _ hn => h.done hn⟩
  · have hold : h' ∈ A ++ s.busy ++ id :: U' ↔ h' = id ∨ h' ∈ A ++ s.busy ++ U' := by
      simp only [List.mem_append, List.mem_cons]
      tauto
    constructor
    · intro hh
      obtain ⟨q', hq'⟩ := h.queue.mem.mp (hold.mpr (.inr hh))
      have hqq : q' ≠ q := by
        rintro rfl
        simp only [waits, hsq, hd, if_true] at hq'
        rw [← Option.some.inj hq', hc] at hh
        exact hnd.1 hh
      have hqp' : q' ≠ p := by
        rintro rfl
        simp [waits, hs] at hq'
      refine ⟨q', ?_⟩
      rw [update_of_ne hqp', waits_congr (hbuf q' hqq) (h.stages q'), hq']
    · rintro ⟨q', hq'⟩
      by_cases hqp' : q' = p
      · simp [hqp', waits] at hq'
      rw [update_of_ne hqp'] at hq'
      by_cases hqq : q' = q
      · simp [hqq, waits, hsq] at hq'
      · rw [waits_congr (hbuf q' hqq) (h.stages q')] at hq'
        rcases hold.mp (h.queue.mem.mpr ⟨q', hq'⟩) with rfl | hh
        · obtain ⟨c', n', hs', hc', -⟩ := waits_eq_some hq'
          refine absurd (h.descs.uniq (i := h') ?_ ?_) hqq
          · simp [hs', Stage.descs, Chain.descs, hc']
          · simp [hsq, Stage.descs, Chain.descs, hc]
        · exact hh
  · by_cases hqq : q' = q
    · subst hqq
      have hst := h.stages q'
      simp only [StageOk, hsq] at hst ⊢
      obtain ⟨h1, h2, h3, h4, -⟩ := hst
      refine ⟨h1, h2.congr fun _ _ => ⟨rfl, rfl, rfl⟩, h3, h4, fun _ => ?_⟩
      rw [← hcur]
      exact (h.queue.status List.mem_cons_self).2
    · exact (h.stages q').congr (fun _ _ => ⟨rfl, rfl, rfl, rfl⟩) (hbuf q' hqq) (fun _ _ hn => hn)
        (fun _ hn => hn) fun hlq => absurd hlq (h.locks.not_lock hl hq')

/-! ## The device -/

theorem FitsWith.take (hne : s.last ≠ s.availIdx) :
    ∃ A', FitsWith own { s with
      last := s.last + 1
      busy := s.availRing (Ring.slot NUM s.last) :: s.busy } A' U := by
  cases A with
  | nil => exact absurd ((h.queue.avail.eq_iff_nil NUM_lt).mpr rfl) hne
  | cons a A =>
    have hperm : A ++ a :: s.busy ++ U = A ++ a :: (s.busy ++ U) := by simp
    have hperm' : a :: A ++ s.busy ++ U = a :: (A ++ (s.busy ++ U)) := by simp
    have hstages : ∀ q, StageOk { s with
        last := s.last + 1
        busy := s.availRing (Ring.slot NUM s.last) :: s.busy } U (own q) := fun q =>
      (h.stages q).congr (fun _ _ => ⟨rfl, rfl, rfl, rfl⟩) (fun _ _ => rfl) (fun _ _ hn => hn)
        (fun _ hn => hn) fun _ => ⟨rfl, rfl, fun _ hid => hid, fun _ => rfl⟩
    refine ⟨A, ⟨h.locks.uniq, h.locks.held, h.locks.buf, h.locks.bufHeld⟩,
      ⟨h.descs.lt, h.descs.nodup, h.descs.uniq, h.descs.free⟩, hstages, h.done,
      h.queue.avail.pop, h.queue.used, ?_, fun {h'} => ?_, h.queue.status⟩
    · have hnd := h.queue.nodup
      rw [hperm'] at hnd
      simp only [h.queue.avail.head, hperm]
      rw [List.nodup_middle]
      exact hnd
    · have hmem := h.queue.mem (h := h')
      rw [hperm'] at hmem
      simp only [h.queue.avail.head, hperm]
      rw [List.mem_append, List.mem_cons, or_left_comm, ← List.mem_append, ← List.mem_cons]
      exact hmem

/-- The device completes a request. -/
theorem FitsWith.complete {h' : ℕ} (hb : h' ∈ s.busy) :
    FitsWith own { s with
      info := s.writeStatus h'
      usedRing := update s.usedRing (Ring.slot NUM s.usedTop) h'
      usedTop := s.usedTop + 1
      busy := s.busy.erase h'
      completed := s.cur h' :: s.completed } A (U ++ [h']) := by
  have hmem : h' ∈ A ++ s.busy ++ U := by simp [hb]
  obtain ⟨q, hq⟩ := h.queue.mem.mp hmem
  obtain ⟨c, n, hsq, rfl, hd⟩ := waits_eq_some hq
  obtain ⟨-, hf, -, -, -⟩ := h.stage hsq
  have hstatus : s.writeStatus c.idx0 =
      update s.info c.idx0 { s.info c.idx0 with status := 0 } := by
    simp [Disk.writeStatus, hf.desc0, hf.desc1, hf.desc2]
  have hinfo : ∀ i, (s.writeStatus c.idx0 i).b = (s.info i).b := fun i => by
    rw [hstatus]
    by_cases hi : i = c.idx0
    · simp [hi]
    · simp [hi]
  have hperm : (A ++ s.busy.erase c.idx0 ++ (U ++ [c.idx0])).Perm (A ++ s.busy ++ U) := by
    have h1 := ((List.perm_cons_erase hb).append_left A).append_right U
    have h2 : (A ++ c.idx0 :: s.busy.erase c.idx0 ++ U).Perm
        (c.idx0 :: (A ++ s.busy.erase c.idx0 ++ U)) := by simp
    have h3 := List.perm_append_singleton c.idx0 (A ++ s.busy.erase c.idx0 ++ U)
    rw [List.append_assoc] at h3
    exact h3.trans (h1.trans h2).symm
  refine ⟨⟨h.locks.uniq, h.locks.held, h.locks.buf, h.locks.bufHeld⟩,
    ⟨h.descs.lt, h.descs.nodup, h.descs.uniq, h.descs.free⟩, fun q' => ?_,
    fun hn => List.mem_cons_of_mem _ (h.done hn), h.queue.avail,
    h.queue.used.push NUM_dvd h.used_lt _, hperm.nodup_iff.mpr h.queue.nodup, fun {x} => ?_,
    fun {x} hx => ?_⟩
  · refine (h.stages q').congr (fun i _ => ⟨rfl, rfl, hinfo i, rfl⟩) (fun _ _ => rfl)
      (fun _ _ hn => hn) (fun _ hn => List.mem_cons_of_mem _ hn)
      fun _ => ⟨rfl, rfl, fun id hid => ?_, hinfo⟩
    rw [List.head?_append, hid]
    rfl
  · rw [hperm.mem_iff]
    exact h.queue.mem
  · have hx' : x = c.idx0 ∨ x ≠ c.idx0 ∧ x ∈ U := by
      rcases List.mem_append.mp hx with hx | hx
      · by_cases hxc : x = c.idx0
        · exact .inl hxc
        · exact .inr ⟨hxc, hx⟩
      · exact .inl (List.mem_singleton.mp hx)
    rcases hx' with rfl | ⟨hne, hxU⟩
    · simp [hstatus]
    · obtain ⟨h1, h2⟩ := h.queue.status hxU
      simp [hstatus, hne, h1, h2]

/-! ## Every action -/

omit h in
/-- Thread `p` can take the action: it may block, it does not panic, and the fit is kept. -/
def Takes (own : ι → Own B) (p : ι) (s : Disk B) (a : Act B) : Prop :=
  Prog.wp (· = .blocked) a.run
    (fun r s' => ∃ o, a.Does (own p) r o ∧ Fits (update own p o) s') s

theorem FitsWith.same : Fits (update own p (own p)) s := by
  rw [update_eq_self]
  exact ⟨A, U, h⟩

theorem FitsWith.takes_acquire : Takes own p s .acquire := by
  simp only [Takes, Act.run, Disk.acquire, Prog.wp_bind, Prog.wp_get, Prog.wp_ite, Prog.wp_throw,
    Prog.wp_modify]
  split
  · trivial
  · rename_i hfree
    exact ⟨_, rfl, A, U, h.acquire (Bool.not_eq_true _ ▸ hfree)⟩

theorem FitsWith.takes_lockBuf (hs : (own p).stage = .alloc []) :
    Takes own p s (.lockBuf b) := by
  simp only [Takes, Act.run, Disk.lockBuf, Prog.wp_bind, Prog.wp_get, Prog.wp_ite, Prog.wp_throw,
    Prog.wp_modify]
  split
  · trivial
  · rename_i hfree
    exact ⟨_, rfl, A, U, h.lockBuf hs (Bool.not_eq_true _ ▸ hfree)⟩

theorem FitsWith.takes_allocDesc (hl : (own p).lock = true)
    (hs : (own p).stage = .alloc l) : Takes own p s .allocDesc := by
  simp only [Takes, Act.run, Disk.allocDesc, Prog.wp_bind, Prog.wp_get]
  cases hfind : (List.range NUM).find? s.free with
  | none => exact ⟨own p, fun _ _ => rfl, h.same⟩
  | some i =>
    have hi := List.mem_range.mp (List.mem_of_find?_eq_some hfind)
    refine ⟨_, fun l' hs' => ?_, A, U, h.alloc hl hs hi (List.find?_some hfind)⟩
    cases Stage.alloc.inj (hs.symm.trans hs')
    rfl

theorem FitsWith.takes_freeDesc (hn : (Act.freeDesc i).Needs (own p)) :
    Takes own p s (.freeDesc i) := by
  obtain ⟨hlt, hfree, o, hd, hfit⟩ := h.freeDesc hn.1 hn.2
  simp only [Takes, Act.run, Disk.freeDesc, Prog.wp_bind, Prog.wp_get, Prog.wp_ite, Prog.wp_throw,
    Prog.wp_modify]
  rw [if_neg (Nat.not_le.mpr hlt), if_neg (by simp [hfree])]
  exact ⟨o, hd, A, U, hfit⟩

theorem FitsWith.takes_link (hs : (own p).stage = .free (i :: l) n) : Takes own p s (.link i) := by
  have hp := h.stage hs
  refine ⟨own p, ⟨rfl, fun l' n' hs' => ?_⟩, h.same⟩
  obtain ⟨hl, rfl⟩ := Stage.free.inj (hs.symm.trans hs')
  cases hl
  exact hp.2.1.head

theorem FitsWith.takes_busyBuf (hl : (own p).lock = true) (hs : (own p).stage = .wait c n) :
    Takes own p s (.busyBuf c.b) := by
  simp only [Takes, Act.run, Disk.busyBuf, Prog.wp_bind, Prog.wp_get, Prog.wp_pure]
  cases hd : s.disk c.b with
  | true => exact ⟨own p, fun _ _ _ => rfl, h.same⟩
  | false =>
    refine ⟨_, fun c' n' hs' => ?_, A, U, h.busyBuf hl hs hd⟩
    obtain ⟨rfl, rfl⟩ := Stage.wait.inj (hs.symm.trans hs')
    rfl

/-- The interrupt handler looks for an entry of the used ring. -/
theorem FitsWith.takes_used (hl : (own p).lock = true) (hs : (own p).stage = .alloc []) :
    Takes own p s .used := by
  simp only [Takes, Act.run, Disk.used, Prog.wp_bind, Prog.wp_get, Prog.wp_pure]
  split
  · rename_i hne
    cases U with
    | nil => exact absurd ((h.queue.used.eq_iff_nil NUM_lt).mpr rfl) hne
    | cons id U =>
      rw [h.queue.used.head]
      exact ⟨_, rfl, A, _, h.know rfl rfl (by rw [hs]; rfl) (by simp [waits, hs]) ⟨hl, rfl⟩ rfl⟩
  · exact ⟨own p, rfl, h.same⟩

theorem FitsWith.takes_status (hs : (own p).stage = .used i) : Takes own p s (.status i) := by
  have hp := h.stage hs
  exact ⟨own p, ⟨(h.queue.status (List.mem_of_head? hp.2)).1, rfl⟩, h.same⟩

theorem FitsWith.takes_infoB (hs : (own p).stage = .used i) : Takes own p s (.infoB i) := by
  have hp := h.stage hs
  obtain ⟨-, c, -, -, -, -, -, hb, -⟩ := h.waiter hp.2
  exact ⟨_, ⟨c.b, hb, rfl⟩, A, U, h.know rfl rfl (by rw [hs]; rfl) (by simp [waits, hs])
    ⟨hp.1, hp.2, hb⟩ rfl⟩

theorem FitsWith.takes_take : Takes own p s .take := by
  simp only [Takes, Act.run, Disk.take, Prog.wp_bind, Prog.wp_get, Prog.wp_ite, Prog.wp_throw,
    Prog.wp_modify]
  split
  · trivial
  · obtain ⟨A', hfit⟩ := h.take ‹_›
    exact ⟨own p, rfl, hfit.same⟩

theorem FitsWith.takes_complete : Takes own p s (.complete i) := by
  simp only [Takes, Act.run, Disk.complete, Prog.wp_bind, Prog.wp_get, Prog.wp_ite, Prog.wp_throw,
    Prog.wp_modify]
  split
  · exact ⟨own p, rfl, (h.complete ‹_›).same⟩
  · trivial

omit h in
/-- A thread that has what an action needs takes it, by the action's rule. -/
theorem Fits.takes {a : Act B} (h : Fits own s) (hn : a.Needs (own p)) : Takes own p s a := by
  obtain ⟨A, U, h⟩ := h
  cases a with
  | acquire => exact h.takes_acquire
  | release => exact ⟨_, rfl, A, U, h.release hn.1 hn.2⟩
  | lockBuf b => exact h.takes_lockBuf hn.2
  | unlockBuf b =>
    obtain ⟨hb, n, hs⟩ := hn
    refine ⟨_, fun n' hs' => ?_, A, U, h.unlockBuf hb hs⟩
    obtain ⟨-, rfl⟩ := Stage.free.inj (hs.symm.trans hs')
    rfl
  | allocDesc =>
    obtain ⟨hl, l, hs⟩ := hn
    exact h.takes_allocDesc hl hs
  | freeDesc i => exact h.takes_freeDesc hn
  | link i =>
    obtain ⟨l, n, hs⟩ := hn
    exact h.takes_link hs
  | format c =>
    unfold Takes Prog.wp
    rw [Act.run, Disk.format_eq]
    exact ⟨_, rfl, A, U, h.format hn.1 hn.2.1 hn.2.2⟩
  | ring i =>
    obtain ⟨c, hs, rfl⟩ := hn
    refine ⟨_, fun c' hs' => ?_, A, U, h.ring hs⟩
    cases Stage.built.inj (hs.symm.trans hs')
    rfl
  | publish c => exact ⟨_, rfl, _, U, h.publish hn⟩
  | busyBuf b =>
    obtain ⟨hl, c, n, hs, rfl⟩ := hn
    exact h.takes_busyBuf hl hs
  | clear i =>
    obtain ⟨c, n, hs, rfl⟩ := hn
    refine ⟨_, fun c' n' hs' => ?_, A, U, h.clear hs⟩
    obtain ⟨rfl, rfl⟩ := Stage.over.inj (hs.symm.trans hs')
    rfl
  | used => exact h.takes_used hn.1 hn.2
  | status i => exact h.takes_status hn
  | infoB i => exact h.takes_infoB hn
  | finish b =>
    obtain ⟨id, hs⟩ := hn
    obtain ⟨U', hfit⟩ := h.finish hs
    exact ⟨_, rfl, A, U', hfit⟩
  | take => exact h.takes_take
  | complete i => exact h.takes_complete
  | panic e => exact absurd hn id

end Actions

end Xv6.Virtio
