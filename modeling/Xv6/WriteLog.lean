import Xv6.FileWrite

/-!
# What a write passes to the log

`filewrite` cuts a write into chunks so that the transaction of each fits in the log. The
blocks that `writei` passes to `log_write` are counted here in three kinds : the data blocks,
the indirect block of the inode, and a bitmap block for each block that is allocated
(`Fs.Charged`). With the block of the inode these are at most `MAXOPBLOCKS` for a chunk
(`Fs.writei_logs`) : a chunk that does not start at a block boundary touches one data block
more, but that block is below the size and has not to be allocated.
-/

namespace Xv6

open Function Prog

namespace Fs

variable {L : FsLayout} {s s' s'' : Fs} {ip : Fin NINODE} {b : ℕ} {T T' D D' : Finset ℕ}
  {c c' k : ℕ} {E : FsPanic → Prop}

/-- What is passed to `log_write` from `s` to `s'` is in `T`. -/
def LogsIn (s : Fs) (T : Finset ℕ) (s' : Fs) : Prop :=
  ∃ new, s'.logged = new ++ s.logged ∧ ∀ b ∈ new, b ∈ T

theorem LogsIn.refl : LogsIn s T s := ⟨[], rfl, nofun⟩

theorem LogsIn.mono (h : LogsIn s T s') (hT : T ⊆ T') : LogsIn s T' s' := by
  obtain ⟨new, hnew, hmem⟩ := h
  exact ⟨new, hnew, fun b hb => hT (hmem b hb)⟩

theorem LogsIn.trans (h : LogsIn s T s') (h' : LogsIn s' T s'') : LogsIn s T s'' := by
  obtain ⟨new, hnew, hmem⟩ := h
  obtain ⟨new', hnew', hmem'⟩ := h'
  refine ⟨new' ++ new, by rw [hnew', hnew, List.append_assoc], fun b hb => ?_⟩
  exact (List.mem_append.mp hb).elim (hmem' b) (hmem b)

theorem LogsIn.cons (h : LogsIn s T s') (hb : b ∈ T) (hs : s''.logged = b :: s'.logged) :
    LogsIn s T s'' :=
  h.trans ⟨[b], hs, fun x hx => by rwa [List.mem_singleton.mp hx]⟩

/-- The indirect block of the inode, if it has one. -/
def indirect (s : Fs) (ip : Fin NINODE) : Finset ℕ :=
  if (s.itable ip).d.addrs NDIRECT = 0 then ∅ else {(s.itable ip).d.addrs NDIRECT}

theorem indirect_card_le : (s.indirect ip).card ≤ 1 := by
  unfold indirect
  split
  · exact Nat.zero_le 1
  · exact (Finset.card_singleton _).le

/-- From `s` to `s'` the blocks passed to `log_write` are in `D`, or the indirect block, or one
of `c` bitmap blocks, or one more bitmap block if the indirect block is new. -/
structure Charged (L : FsLayout) (s : Fs) (ip : Fin NINODE) (D : Finset ℕ) (c : ℕ) (s' : Fs) :
    Prop where
  indirect : s.indirect ip ⊆ s'.indirect ip
  logs : ∃ B : Finset ℕ, LogsIn s (D ∪ s'.indirect ip ∪ B) s' ∧
    B.card + (s.indirect ip).card ≤ c + (s'.indirect ip).card

theorem Charged.refl : Charged L s ip D c s :=
  ⟨Finset.Subset.refl _, ∅, .refl, by simp⟩

theorem Charged.mono (h : Charged L s ip D c s') (hD : D ⊆ D') (hc : c ≤ c') :
    Charged L s ip D' c' s' := by
  obtain ⟨B, hlog, hcard⟩ := h.logs
  refine ⟨h.indirect, B, hlog.mono ?_, by omega⟩
  exact Finset.union_subset_union_left (Finset.union_subset_union_left hD)

theorem Charged.trans (h : Charged L s ip D c s') (h' : Charged L s' ip D' c' s'') :
    Charged L s ip (D ∪ D') (c + c') s'' := by
  obtain ⟨B, hlog, hcard⟩ := h.logs
  obtain ⟨B', hlog', hcard'⟩ := h'.logs
  refine ⟨h.indirect.trans h'.indirect, B ∪ B', (hlog.mono ?_).trans (hlog'.mono ?_), ?_⟩
  · exact Finset.union_subset_union (Finset.union_subset_union Finset.subset_union_left h'.indirect)
      Finset.subset_union_left
  · exact Finset.union_subset_union (Finset.union_subset_union_left Finset.subset_union_right)
      Finset.subset_union_right
  · have := Finset.card_union_le B B'
    omega

/-- A block of `D` is passed to `log_write`. -/
theorem Charged.log (h : Charged L s ip D c s') (hb : b ∈ D)
    (hs : s''.logged = b :: s'.logged) (hi : s''.itable = s'.itable) :
    Charged L s ip D c s'' := by
  obtain ⟨B, hlog, hcard⟩ := h.logs
  have hind : s''.indirect ip = s'.indirect ip := by rw [Fs.indirect, hi, Fs.indirect]
  refine ⟨by rw [hind]; exact h.indirect, B, ?_, by rw [hind]; exact hcard⟩
  rw [hind]
  refine hlog.cons ?_ hs
  simp [hb]

/-- `balloc` passes the block and its bitmap block. -/
theorem balloc_logs : wp E (balloc L) (fun b s' => s'.itable = s.itable ∧
    LogsIn s {b, L.BBLOCK b} s') s := by
  simp only [balloc, wp_bind, wp_get]
  split
  · simp only [bzero, log_write, wp_bind, wp_modify, wp_pure]
    refine ⟨trivial, [_, _], rfl, ?_⟩
    simp
  · exact ⟨rfl, .refl⟩

theorem Charged.of_balloc {a : ℕ} (hi : s'.itable = s.itable)
    (hlog : LogsIn s {a, L.BBLOCK a} s') : Charged L s ip {a} 1 s' := by
  have hind : s'.indirect ip = s.indirect ip := by rw [Fs.indirect, hi, Fs.indirect]
  refine ⟨hind.ge, {L.BBLOCK a}, hlog.mono ?_, by rw [hind, Finset.card_singleton]⟩
  intro b hb
  rcases Finset.mem_insert.mp hb with rfl | hb
  · simp
  · exact Finset.mem_union_right _ hb

theorem ensure_charged {n : ℕ} (hn : n < NDIRECT) :
    wp E (ensure L ip n) (fun a s' => Charged L s ip {a} 1 s') s := by
  simp only [ensure, wp_bind, wp_get, wp_ite]
  split
  · refine balloc_logs.mono fun a s' h => ?_
    have hch : Charged L s ip {a} 1 s' := .of_balloc h.1 h.2
    split
    · rename_i ha
      subst ha
      exact hch
    · simp only [wp_bind, wp_modify, wp_pure]
      have hset : (s'.setD ip fun d => { d with addrs := update d.addrs n a }).indirect ip =
          s'.indirect ip := by
        simp only [indirect, setD, setInode, update_self, update_of_ne hn.ne']
      obtain ⟨B, hlog, hcard⟩ := hch.logs
      exact ⟨by rw [hset]; exact hch.indirect, B, by rw [hset]; exact hlog,
        by rw [hset]; exact hcard⟩
  · exact .refl

/-- A new indirect block is charged for with its bitmap block. -/
theorem ensure_indirect_charged : wp E (ensure L ip NDIRECT) (fun a s' =>
    if a = 0 then Charged L s ip {a} 1 s' else Charged L s ip ∅ 0 s' ∧ s'.indirect ip = {a}) s := by
  simp only [ensure, wp_bind, wp_get, wp_ite]
  split
  · rename_i hzero
    have hnone : s.indirect ip = ∅ := if_pos hzero
    refine balloc_logs.mono fun a s' h => ?_
    by_cases ha : a = 0
    · rw [if_pos ha, wp_pure, if_pos rfl, ← ha]
      exact .of_balloc h.1 h.2
    · rw [if_neg ha]
      simp only [wp_bind, wp_modify, wp_pure]
      rw [if_neg ha]
      have hset : (s'.setD ip fun d => { d with addrs := update d.addrs NDIRECT a }).indirect ip =
          {a} := by
        simp only [indirect, setD, setInode, update_self]
        exact if_neg ha
      refine ⟨⟨by rw [hnone]; exact Finset.empty_subset _, {L.BBLOCK a}, ?_, ?_⟩, hset⟩
      · rw [hset, Finset.empty_union]
        exact h.2
      · rw [hset, hnone, Finset.card_singleton, Finset.card_singleton, Finset.card_empty]
  · rename_i hne
    rw [wp_pure, if_neg hne]
    exact ⟨.refl, if_neg hne⟩

theorem entry_charged {a j : ℕ} (ha : s.indirect ip = {a}) :
    wp E (entry L a j) (fun b s' => Charged L s ip {b} 1 s') s := by
  simp only [entry, wp_bind, wp_get, wp_ite]
  split
  · refine balloc_logs.mono fun b s' h => ?_
    have hch : Charged L s ip {b} 1 s' := .of_balloc h.1 h.2
    have hind : s'.indirect ip = s.indirect ip := by rw [indirect, h.1, indirect]
    split
    · rename_i hb
      subst hb
      exact hch
    · simp only [log_write, wp_bind, wp_modify, wp_pure]
      obtain ⟨B, hlog, hcard⟩ := hch.logs
      refine ⟨hch.indirect, B, hlog.cons (b := a) ?_ rfl, hcard⟩
      rw [hind, ha]
      simp
  · exact .refl

/-- `bmap` allocates one block, and perhaps the indirect block. -/
theorem bmap_charged {bn : ℕ} (hbn : bn < MAXFILE) :
    wp E (bmap L ip bn) (fun a s' => Charged L s ip {a} 1 s') s := by
  simp only [bmap, wp_ite]
  split
  · rename_i hd
    exact ensure_charged hd
  · have hj : bn - NDIRECT < NINDIRECT := by
      unfold MAXFILE at hbn
      omega
    rw [if_pos hj, wp_bind]
    refine ensure_indirect_charged.mono fun a s' h => ?_
    by_cases ha : a = 0
    · rw [if_pos ha] at h ⊢
      subst ha
      exact h
    · rw [if_neg ha] at h ⊢
      refine (entry_charged h.2).mono fun b s'' hb => (h.1.trans hb).mono ?_ (Nat.le_refl _)
      rw [Finset.empty_union]

variable {src : Mem} {n tot off fuel : ℕ}

/-- One round of the loop, with a `bmap` that allocates at most `c` blocks. -/
theorem writeLoop_step (hlt : tot < n)
    (hb : wp E (bmap L ip (off / BSIZE)) (fun a s' => Charged L s ip {a} c s') s)
    (hrest : ∀ s₁ : Fs, wp E (writeLoop L ip src n fuel
        (tot + min (n - tot) (BSIZE - off % BSIZE)) (off + min (n - tot) (BSIZE - off % BSIZE)))
      (fun _ s' => ∃ D : Finset ℕ, D.card ≤ k ∧ Charged L s₁ ip D c' s') s₁) :
    wp E (writeLoop L ip src n (fuel + 1) tot off) (fun _ s' =>
      ∃ D : Finset ℕ, D.card ≤ k + 1 ∧ Charged L s ip D (c + c') s') s := by
  have hone : ∀ (a : ℕ) {s₁ : Fs}, Charged L s ip {a} c s₁ →
      ∃ D : Finset ℕ, D.card ≤ k + 1 ∧ Charged L s ip D (c + c') s₁ := fun a s₁ h =>
    ⟨{a}, by rw [Finset.card_singleton]; omega, h.mono (Finset.Subset.refl _) (by omega)⟩
  rw [writeLoop, if_pos hlt]
  refine hb.bind fun a s₁ h₁ => ?_
  split
  · exact hone a h₁
  · refine wp_bind.mpr (wp_modify.mpr ?_)
    generalize hx : update s₁.data a _ = x
    have h₂ : Charged L s ip {a} c { s₁ with data := x } := ⟨h₁.indirect, h₁.logs⟩
    split
    · refine wp_bind.mpr (wp_modify.mpr ((hrest _).mono fun _ s' h => ?_))
      obtain ⟨D, hD, h⟩ := h
      have h₃ : Charged L s ip {a} c { s₁ with data := x, logged := a :: s₁.logged } :=
        h₂.log (Finset.mem_singleton_self a) rfl rfl
      refine ⟨{a} ∪ D, ?_, h₃.trans h⟩
      have := Finset.card_union_le {a} D
      rw [Finset.card_singleton] at this
      omega
    · exact hone a h₂

/-- The rest of the loop, over at most `k` blocks. -/
theorem writeLoop_charged (hk : tot < n → off % BSIZE + (n - tot) ≤ k * BSIZE)
    (hmax : off + (n - tot) ≤ MAXFILE * BSIZE) :
    wp E (writeLoop L ip src n fuel tot off) (fun _ s' =>
      ∃ D : Finset ℕ, D.card ≤ k ∧ Charged L s ip D k s') s := by
  induction fuel generalizing s tot off k with
  | zero => exact ⟨∅, Nat.zero_le _, .refl⟩
  | succ fuel ih =>
    by_cases hlt : tot < n
    · have hk := hk hlt
      have hmod : off % BSIZE < BSIZE := Nat.mod_lt _ (by decide)
      obtain ⟨k, rfl⟩ : ∃ k', k = k' + 1 := by
        refine ⟨k - 1, (Nat.succ_pred fun h0 => ?_).symm⟩
        rw [h0] at hk
        omega
      have hbn : off / BSIZE < MAXFILE := Nat.div_lt_of_lt_mul (by rw [Nat.mul_comm]; omega)
      have hstep : wp E (writeLoop L ip src n (fuel + 1) tot off) (fun _ s' =>
          ∃ D : Finset ℕ, D.card ≤ k + 1 ∧ Charged L s ip D (1 + k) s') s := by
        refine writeLoop_step hlt (bmap_charged hbn) fun s₁ => ih (fun hlt' => ?_) (by omega)
        unfold BSIZE at *
        omega
      rwa [Nat.add_comm 1 k] at hstep
    · rw [writeLoop, if_neg hlt]
      exact ⟨∅, Nat.zero_le _, .refl⟩

/-- The loop over a chunk : four data blocks, of which three may be new. -/
theorem writeLoop_chunk (hh : s.Holeless ip) (hoff : off ≤ (s.itable ip).d.size)
    (hn : n ≤ (MAXOPBLOCKS - 1 - 1 - 2) / 2 * BSIZE) (hmax : off + n ≤ MAXFILE * BSIZE) :
    wp E (writeLoop L ip src n n 0 off) (fun _ s' =>
      ∃ D : Finset ℕ, D.card ≤ 4 ∧ Charged L s ip D 3 s') s := by
  have hn : n ≤ 3 * BSIZE := hn
  have hmod : off % BSIZE < BSIZE := Nat.mod_lt _ (by decide)
  by_cases hz : off % BSIZE = 0
  · refine (writeLoop_charged (k := 3) (fun _ => by omega) (by omega)).mono fun _ s' h => ?_
    obtain ⟨D, hD, h⟩ := h
    exact ⟨D, by omega, h⟩
  cases n with
  | zero => exact ⟨∅, Nat.zero_le _, .refl⟩
  | succ n =>
    -- the block of `off` is below the size
    have hslot : s.slot ip (Dinode.index (off / BSIZE)) ≠ 0 := by
      refine hh _ (lt_of_lt_of_le ?_ hoff)
      have := Nat.div_add_mod off BSIZE
      rw [Nat.mul_comm] at this
      omega
    have hfirst : wp E (bmap L ip (off / BSIZE)) (fun a s' => Charged L s ip {a} 0 s') s := by
      refine (bmap_mapped hslot (lt_of_slot hslot)).mono fun a s' h => ?_
      rw [h.2]
      exact .refl
    refine (writeLoop_step (k := 3) (Nat.succ_pos n) hfirst fun s₁ =>
      writeLoop_charged (k := 3) (fun hlt => ?_) (by omega)).mono fun _ s' h => ?_
    · unfold BSIZE at *
      omega
    · rwa [Nat.zero_add] at h

/-- **A chunk of `filewrite` fits the reservation of its transaction.** For every layout of the
disk and every file without holes, a `writei` at an offset up to the size, of at most the bytes
of a chunk, returns with at most `MAXOPBLOCKS` distinct blocks passed to `log_write`. -/
theorem writei_logs (hh : s.Holeless ip) (hoff : off ≤ (s.itable ip).d.size)
    (hn : n ≤ (MAXOPBLOCKS - 1 - 1 - 2) / 2 * BSIZE) :
    ∃ r s' new, writei L ip src off n s = .ok (r, s') ∧ s'.logged = new ++ s.logged ∧
      new.toFinset.card ≤ MAXOPBLOCKS := by
  have hspec : wp (fun _ => False) (writei L ip src off n) (fun _ s' =>
      ∃ new, s'.logged = new ++ s.logged ∧ new.toFinset.card ≤ MAXOPBLOCKS) s := by
    have hnone : ∃ new, s.logged = new ++ s.logged ∧ new.toFinset.card ≤ MAXOPBLOCKS :=
      ⟨[], rfl, Nat.zero_le _⟩
    simp only [writei, wp_bind, wp_get, wp_ite]
    split
    · exact hnone
    split
    · exact hnone
    rename_i hmax
    refine (writeLoop_chunk hh hoff hn (by omega)).mono fun r s₁ h => ?_
    obtain ⟨D, hD, h⟩ := h
    obtain ⟨B, ⟨new, hnew, hmem⟩, hB⟩ := h.logs
    simp only [iupdate, log_write, wp_bind, wp_get, wp_modify, wp_pure]
    refine ⟨_ :: new, congrArg (List.cons _) hnew, ?_⟩
    have hind : (s₁.indirect ip).card ≤ 1 := indirect_card_le
    calc (_ :: new).toFinset.card
        ≤ new.toFinset.card + 1 := by
          rw [List.toFinset_cons]
          exact Finset.card_insert_le _ _
      _ ≤ (D ∪ s₁.indirect ip ∪ B).card + 1 := by
          refine Nat.succ_le_succ (Finset.card_le_card fun b hb => ?_)
          exact hmem b (List.mem_toFinset.mp hb)
      _ ≤ MAXOPBLOCKS := by
          have h1 := Finset.card_union_le (D ∪ s₁.indirect ip) B
          have h2 := Finset.card_union_le D (s₁.indirect ip)
          unfold MAXOPBLOCKS
          omega
  obtain ⟨r, s', hrun, new, hnew, hcard⟩ := hspec.returns
  exact ⟨r, s', new, hrun, hnew, hcard⟩

/-- A chunk of the full length, from the last bytes of the only block on. -/
theorem writei_logs_lone : loneFile.Holeless smallEntry ∧
    ∃ r s' new, writei smallLayout smallEntry (kernel fun _ => 7) 1000 3072 loneFile =
        .ok (r, s') ∧
      s'.logged = new ++ loneFile.logged ∧ new.toFinset.card ≤ MAXOPBLOCKS :=
  ⟨loneFile_holeless, writei_logs loneFile_holeless (by decide) (by decide)⟩

end Fs

end Xv6
