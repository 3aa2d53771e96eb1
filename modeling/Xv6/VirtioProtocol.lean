import Xv6.VirtioFits

/-!
# Runs of the virtio driver

The rules of the driver are sound (`rules_sound`), so in every run what the threads own fits the
memory, and `virtio_protocol` is read off the fit.
-/

set_option linter.unusedSectionVars false

namespace Xv6.Virtio

open Function

variable {ι B : Type}

section Run

variable [DecidableEq ι] [DecidableEq B]

theorem rules_sound : Threads.Sound (ι := ι) Act.run Code.prog (rules B) Idle Fits
    (fun _ _ => True) (· = .blocked) where
  act _ _ _ _ h hn _ := h.takes hn
  holds c l _ h := Code.prog_holds c l h

theorem init_fits : Fits (fun _ : ι => (⟨false, none, .alloc [], none⟩ : Own B)) (Disk.init B) := by
  refine ⟨[], [], ⟨nofun, nofun, nofun, nofun⟩, ⟨nofun, fun _ => List.nodup_nil, nofun, ?_⟩,
    fun _ hne => absurd rfl hne, nofun, .nil .., .nil .., List.nodup_nil, ?_, nofun⟩
  · intro i hi
    exact ⟨fun _ _ => List.not_mem_nil, fun _ => decide_eq_true hi⟩
  · intro h
    exact ⟨fun hm => absurd hm List.not_mem_nil, nofun⟩

/-- The heads that the driver has published and the device has not completed. -/
def Disk.pending (s : Disk B) : List ℕ :=
  (List.range (s.availIdx - s.last).toNat).map
    (fun k => s.availRing (Ring.slot NUM (s.last + BitVec.ofNat 16 k))) ++ s.busy

/-- The thread is in a call of the driver. -/
def Sys.InCall (s : Sys ι B) (p : ι) : Prop :=
  s.ctl p ≠ none ∨ ∀ done, s.loc p ≠ .idle done

/-- The request that a thread has published. -/
def Stage.req : Stage B → Option (Chain B)
  | .wait c _ => some c
  | _ => none

theorem Stage.req_eq_some {st : Stage B} {c : Chain B} (h : st.req = some c) :
    ∃ n, st = .wait c n := by
  cases st with
  | wait c' n =>
    cases h
    exact ⟨n, rfl⟩
  | _ => cases h

section Fit

variable {own : ι → Own B} {s : Disk B}

/-- While nobody has the lock, the descriptors that are not free are in the chains of requests. -/
theorem Fits.descs_of_free (h : Fits own s) (hlock : s.vdiskLock = false) (p : ι) :
    (own p).stage.descs = ((own p).stage.req.map Chain.descs).getD [] := by
  obtain ⟨A, U, h⟩ := h
  have hnone : (own p).lock ≠ true := fun hl => by simp [h.locks.held hl] at hlock
  have hp := h.stages p
  unfold StageOk at hp
  cases hs : (own p).stage <;> simp only [hs] at hp
  case alloc l =>
    by_contra hne
    exact hnone (hp hne)
  case wait c n => rfl
  case free l n =>
    by_contra hne
    exact hnone (hp.1 hne)
  case ringed c => exact absurd hp.1.1 hnone
  all_goals exact absurd hp.1 hnone

theorem Fits.pending (h : Fits own s) {h' : ℕ} (hh : h' ∈ s.pending) :
    ∃ c, s.reqs[s.cur h']? = some c ∧ c.idx0 = h' ∧ Formatted s c ∧
      ∀ i ∈ c.descs, s.free i = false := by
  obtain ⟨A, U, h⟩ := h
  rw [Disk.pending, h.queue.avail.eq_map NUM_lt] at hh
  obtain ⟨p, hp⟩ := h.queue.mem.mp (List.mem_append_left U hh)
  obtain ⟨c, n, hs, rfl, -⟩ := waits_eq_some hp
  obtain ⟨-, hf, hcur, hreq, -⟩ := h.stage hs
  refine ⟨c, by rw [hcur, hreq], rfl, hf, fun i hi => ?_⟩
  have hi : i ∈ (own p).stage.descs := by rwa [hs]
  rw [← Bool.not_eq_true, h.descs.free (h.descs.lt hi)]
  exact fun hf => hf p hi

end Fit

/-- The avail ring is only written at `avail->idx`. -/
theorem Act.run_availRing (a : Act B) (s : Disk B) :
    Prog.wp (fun _ => True) a.run (fun _ s' => s'.availRing = s.availRing ∨
      ∃ x, s'.availRing = update s.availRing (Ring.slot NUM s.availIdx) x) s := by
  cases a with
  | ring i => exact .inr ⟨_, rfl⟩
  | format c =>
    unfold Prog.wp
    rw [Act.run, Disk.format_eq]
    exact .inl rfl
  | allocDesc =>
    simp only [Act.run, Disk.allocDesc, Prog.wp_bind, Prog.wp_get]
    split <;> exact .inl rfl
  | freeDesc i =>
    simp only [Act.run, Disk.freeDesc, Prog.wp_bind, Prog.wp_get, Prog.wp_ite, Prog.wp_throw,
      Prog.wp_modify]
    split
    · trivial
    · split
      · trivial
      · exact .inl trivial
  | acquire | lockBuf | take | complete =>
    simp only [Act.run, Disk.acquire, Disk.lockBuf, Disk.take, Disk.complete, Prog.wp_bind,
      Prog.wp_get, Prog.wp_ite, Prog.wp_throw, Prog.wp_modify]
    split <;> first | trivial | exact .inl trivial
  | panic e => trivial
  | _ => exact .inl rfl

variable {s s' : Sys ι B}

theorem fits_reach (h : Machine.Reach Sys.step (fun _ _ => True) (Sys.init ι B) s) :
    ∃ own, Fits own s.shared ∧ ∀ p, Threads.Owned (rules B) Idle (s.loc p) (s.ctl p) (own p) :=
  rules_sound.reach (h.mono fun s l _ => Threads.admits_true s l)
    ⟨_, init_fits, fun _ => ⟨rfl, rfl, rfl, nofun⟩⟩

/-- No step writes to an entry of the avail ring that the device has yet to take. -/
theorem Fits.availRing {own : ι → Own B} (h : Fits own s.shared) {l : ThreadLabel ι (Call B)}
    (ht : s.step l = some s') {k : ℕ} (hk : k < (s.shared.availIdx - s.shared.last).toNat) :
    s'.shared.availRing (Ring.slot NUM (s.shared.last + BitVec.ofNat 16 k)) =
      s.shared.availRing (Ring.slot NUM (s.shared.last + BitVec.ofNat 16 k)) := by
  obtain ⟨A, U, h⟩ := h
  rw [h.queue.avail.length_eq NUM_lt] at hk
  have hne := Ring.slot_add_ne NUM_dvd s.shared.last hk h.avail_lt
  rw [← h.queue.avail.count] at hne
  unfold Sys.step Threads.step at ht
  cases l with
  | start p call =>
    simp only at ht
    split at ht <;> cases ht
    rfl
  | go p =>
    simp only at ht
    split at ht
    · cases ht
    · cases ht
      rfl
    · rename_i a _ _
      split at ht
      · rename_i hrun
        cases ht
        rcases (a.run_availRing s.shared).ok hrun with heq | ⟨x, heq⟩
        · rw [heq]
        · rw [heq, update_of_ne hne]
      · cases ht

/-- For any number of calls of the driver, in any interleaving with the device : while
`vdisk_lock` is free, the descriptors are free or in the chains of the requests under way, three
each and no two with one in common ; the only errors are waits ; no step changes an entry of the
avail ring that the device has yet to take ; the device finds every chain it has been given as it
was published, with its descriptors allocated ; `virtio_disk_rw` returns after its request was
completed ; and `virtio_disk_intr` finds the buffer of the request. -/
theorem virtio_protocol
    (h : Machine.Reach Sys.step (fun _ _ => True) (Sys.init ι B) s) :
    (s.shared.vdiskLock = false → ∃ req : ι → Option (Chain B),
      (∀ p c, req p = some c → s.InCall p ∧ Formatted s.shared c ∧ c.descs.Nodup ∧
        ∀ i ∈ c.descs, i < NUM) ∧
      (∀ p q c c' i, req p = some c → req q = some c' → i ∈ c.descs → i ∈ c'.descs → p = q) ∧
      ∀ i < NUM, s.shared.free i = true ↔ ∀ p c, req p = some c → i ∉ c.descs) ∧
    (∀ p a k e, s.ctl p = some (.act a k) → a.run s.shared = .error e → e = .blocked) ∧
    (∀ l s', s.step l = some s' → ∀ k < (s.shared.availIdx - s.shared.last).toNat,
      s'.shared.availRing (Ring.slot NUM (s.shared.last + BitVec.ofNat 16 k)) =
        s.shared.availRing (Ring.slot NUM (s.shared.last + BitVec.ofNat 16 k))) ∧
    (∀ h ∈ s.shared.pending, ∃ c, s.shared.reqs[s.shared.cur h]? = some c ∧ c.idx0 = h ∧
      Formatted s.shared c ∧ ∀ i ∈ c.descs, s.shared.free i = false) ∧
    (∀ p n, s.ctl p = some (.ret (.idle (some n))) → n ∈ s.shared.completed) ∧
    ∀ p id k, s.ctl p = some (.act (.infoB id) k) → ((s.shared.info id).b).isSome := by
  obtain ⟨own, hfit, hown⟩ := fits_reach h
  refine ⟨fun hlock => ?_, fun p a k e hc he => ?_, fun l s' ht k hk => hfit.availRing ht hk,
    fun _ => hfit.pending, fun p n hc => ?_, fun p id k hc => ?_⟩
  · obtain ⟨A, U, hf⟩ := id hfit
    have hreq : ∀ {p c}, (own p).stage.req = some c → (own p).stage.descs = c.descs :=
      fun {p c} hr => by rw [hfit.descs_of_free hlock p, hr]; rfl
    refine ⟨fun p => (own p).stage.req, fun p c hr => ⟨?_, ?_, ?_, fun i hi => ?_⟩,
      fun p q c c' i hr hr' hi hi' => hf.descs.uniq (i := i) (hreq hr ▸ hi) (hreq hr' ▸ hi'),
      fun i hi => (hf.descs.free hi).trans ?_⟩
    · obtain ⟨n, hs⟩ := Stage.req_eq_some hr
      by_contra hcall
      simp only [Sys.InCall, not_or, not_not, not_forall] at hcall
      obtain ⟨hctl, done, hloc⟩ := hcall
      have hp := hown p
      rw [hctl, hloc] at hp
      have hs' : (own p).stage = .alloc [] := hp.2.2.1
      simp [hs'] at hs
    · obtain ⟨n, hs⟩ := Stage.req_eq_some hr
      have hp := hf.stage hs
      exact hp.2.1
    · rw [← hreq hr]
      exact hf.descs.nodup p
    · rw [← hreq hr] at hi
      exact hf.descs.lt hi
    · refine forall_congr' fun p => ?_
      rw [hfit.descs_of_free hlock p]
      cases hr : (own p).stage.req <;> simp [hr]
  · exact rules_sound.reach_error (h.mono fun s l _ => Threads.admits_true s l)
      ⟨_, init_fits, fun _ => ⟨rfl, rfl, rfl, by simp⟩⟩ hc trivial he
  · obtain ⟨A, U, hf⟩ := hfit
    have hp := hown p
    rw [hc] at hp
    exact hf.done (hp.2.2.2 n rfl)
  · obtain ⟨A, U, hf⟩ := hfit
    have hp := hown p
    rw [hc] at hp
    have hs : (own p).stage = .used id := hp.1
    have hst := hf.stage hs
    obtain ⟨-, c, -, -, -, -, -, hb, -⟩ := hf.waiter hst.2
    rw [hb]
    rfl

/-- A round of thread `p`, of `k` steps. -/
def round (p : Fin 2) (call : Call Unit) (k : ℕ) : List (ThreadLabel (Fin 2) (Call Unit)) :=
  .start p call :: List.replicate k (.go p)

/-- One request, from the call to its return. -/
def oneRequest : List (ThreadLabel (Fin 2) (Call Unit)) :=
  [round 0 (.rw () 5 true) 11, round 1 .take 2, round 1 (.complete 0) 2, round 1 .intr 2,
    round 1 .intr 5, round 1 .intr 3, round 0 .intr 4, round 0 .intr 3, round 0 .intr 3,
    round 0 .intr 4].flatten

/-- The call has returned, and its request is the first. -/
def returned : Option (Ctl (Act Unit) Act.Res (Loc Unit)) → Bool
  | some (.ret (.idle (some 0))) => true
  | _ => false

theorem eq_of_returned {x} (h : returned x = true) : x = some (.ret (.idle (some 0))) := by
  unfold returned at h
  split at h
  · rfl
  · cases h

theorem virtio_protocol_return : ∃ s : Sys (Fin 2) Unit,
    Machine.Reach Sys.step (fun _ _ => True) (Sys.init (Fin 2) Unit) s ∧
      s.ctl 0 = some (.ret (.idle (some 0))) ∧ 0 ∈ s.shared.completed := by
  obtain ⟨s, hr, hs⟩ := Machine.exists_reach_of_exec Sys.step (fun _ _ => True)
    (fun s : Sys (Fin 2) Unit => returned (s.ctl 0))
    (l := oneRequest) (s := Sys.init (Fin 2) Unit) (by decide +kernel)
  have hc : s.ctl 0 = some (.ret (.idle (some 0))) := eq_of_returned hs
  exact ⟨s, hr, hc, (virtio_protocol hr).2.2.2.2.1 0 0 hc⟩

end Run

end Xv6.Virtio
