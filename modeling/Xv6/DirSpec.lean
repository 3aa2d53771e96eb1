import Xv6.FileWrite
import Xv6.InodeTable

/-!
# Directories as lists of entries

What the functions on directories do, in terms of the entries of the node : `dirlookup` finds
an entry with the name, or there is none ; `dirappend` puts an entry in an empty place or at the
end, or fails and changes nothing ; `isdirempty` looks at the entries after the first two ;
`erase` clears the entry at an offset.
-/

namespace Xv6

open Function Prog

/-! ## Names -/

/-- Only the bytes of the entry matter for a comparison. -/
theorem namecmp_entry {name de : Bytes} : namecmp name de.entry.name = namecmp name de.name :=
  strncmp_congr fun k hk => by
    rw [Nat.zero_add] at hk
    exact if_pos hk

namespace Fs

variable {L : FsLayout} {E : FsPanic → Prop} {s s' : Fs} {dp : Fin NINODE} {n : Node} {name : Bytes}

/-! ## Reading entries -/

theorem Inv.slot_ne (hi : s.Inv L) (hl : s.Live dp) {bn : ℕ}
    (h : bn * BSIZE < (s.itable dp).d.size) : s.slot dp (Dinode.index bn) ≠ 0 :=
  (hi.goodSelf hl).mapped bn h

/-- A file without holes is not longer than `MAXFILE` blocks. -/
theorem Inv.size_le (hi : s.Inv L) (hl : s.Live dp) :
    (s.itable dp).d.size ≤ MAXFILE * BSIZE := by
  by_contra h
  exact absurd (lt_of_slot (hi.slot_ne hl (Nat.not_le.mp h))) (lt_irrefl _)

/-- `readDirent` panics only at a piece of an entry. -/
theorem readDirent_spec (hi : s.Inv L) (hl : s.Live dp) {off : ℕ}
    (hoff : off < (s.itable dp).d.size)
    (hE : ¬ off + DIRENT ≤ (s.itable dp).d.size → E .dirRead) :
    wp E (readDirent L dp off) (fun de s' => s' = s ∧ off + DIRENT ≤ (s.itable dp).d.size ∧
      de.entry = (s.itable dp).d.entryAt s.data off) s := by
  have hlt : off + DIRENT < 2 ^ 32 := by
    have := hi.size_le hl
    unfold MAXFILE NDIRECT NINDIRECT BSIZE at this
    unfold DIRENT
    omega
  simp only [readDirent, wp_bind]
  refine (readi_exact (fun _ => rfl) hlt fun bn hbn => hi.slot_ne hl (by omega)).mono ?_
  rintro ⟨r, de⟩ s' ⟨rfl, hr, hbytes⟩
  obtain rfl : r = _ := hr
  simp only [wp_ite]
  split
  · rename_i heq
    have hmin := Option.some.inj heq
    have hsize : off + DIRENT ≤ (s'.itable dp).d.size := by
      unfold DIRENT at hmin ⊢
      omega
    refine ⟨rfl, hsize, ?_⟩
    have hbyte : ∀ k, k < DIRENT → de k = (s'.itable dp).d.byteAt s'.data (off + k) :=
      fun k hk => (hbytes k).trans (if_pos (hk.trans_eq hmin.symm))
    have h0 : de 0 = (s'.itable dp).d.byteAt s'.data off := hbyte 0 (by decide)
    have hname : (fun k => if k < DIRSIZ then de.name k else 0) = fun k =>
        if k < DIRSIZ then (s'.itable dp).d.byteAt s'.data (off + 2 + k) else 0 := by
      funext k
      split
      · rename_i hk
        rw [Nat.add_assoc]
        exact hbyte (2 + k) (by unfold DIRSIZ at hk; unfold DIRENT; omega)
      · rfl
    rw [Bytes.entry, Bytes.inum, h0, hbyte 1 (by decide), hname]
    rfl
  · rename_i hne
    refine hE fun hle => hne ?_
    rw [Nat.min_eq_left hle, Nat.add_sub_cancel_left]

/-- The size of a directory counts its entries. -/
theorem Inv.ents_length (hi : s.Inv L) (hl : s.Live dp)
    (hn : s.nodes L (s.tab dp).inum = some n) (hdir : n.type = .dir) :
    n.ents.length = (s.itable dp).d.size / DIRENT ∧ n.tail = (s.itable dp).d.size % DIRENT ∧
      ∀ k, k < (s.itable dp).d.size / DIRENT →
        n.ents[k]? = some ((s.itable dp).d.entryAt s.data (k * DIRENT)) := by
  rw [hi.nodes_self hl] at hn
  obtain ⟨-, rfl⟩ := Dinode.node_eq_some hn
  rw [Dinode.ents_dir hdir]
  refine ⟨by simp, if_pos hdir, fun k hk => ?_⟩
  simp [hk]

theorem Inv.type_eq (hi : s.Inv L) (hl : s.Live dp) (hn : s.nodes L (s.tab dp).inum = some n) :
    (s.itable dp).d.type = n.type := by
  rw [hi.nodes_self hl] at hn
  obtain ⟨-, rfl⟩ := Dinode.node_eq_some hn
  rfl

/-- `dirlookup` has found entry `e`, at `off`. -/
def Found (n : Node) (name : Bytes) (off : ℕ) (e : Entry) : Prop :=
  ∃ k, off = k * DIRENT ∧ n.ents[k]? = some e ∧ e.inum ≠ 0 ∧ namecmp name e.name = 0

/-- No entry has the name. -/
def Absent (n : Node) (name : Bytes) : Prop :=
  ∀ e ∈ n.ents, e.inum ≠ 0 → namecmp name e.name ≠ 0

/-- The first entry with the name. -/
def lookup (n : Node) (name : Bytes) : Option Entry :=
  n.ents.find? fun e => e.inum ≠ 0 ∧ namecmp name e.name = 0

theorem Absent.lookup (h : Absent n name) : lookup n name = none := by
  refine List.find?_eq_none.mpr fun e he hc => ?_
  obtain ⟨h0, hcmp⟩ := of_decide_eq_true hc
  exact h e he h0 hcmp

/-- A place for a new entry : an empty one, or the end. -/
def Vacant (n : Node) (k : ℕ) : Prop :=
  (∃ e, n.ents[k]? = some e ∧ e.inum = 0) ∨ k = n.ents.length

section Loops

variable (hi : s.Inv L) (hl : s.Live dp) (hn : s.nodes L (s.tab dp).inum = some n)
  (hdir : n.type = .dir) (hread : n.tail ≠ 0 → E .dirRead)

include hi hl hn hdir hread

/-- The loops over a directory read entry `k`. -/
theorem readEntry_spec {k : ℕ} (hoff : k * DIRENT < (s.itable dp).d.size) :
    wp E (readDirent L dp (k * DIRENT)) (fun de s' => s' = s ∧
      (k + 1) * DIRENT ≤ (s.itable dp).d.size ∧ n.ents[k]? = some de.entry) s := by
  obtain ⟨-, htail, hget⟩ := hi.ents_length hl hn hdir
  refine (readDirent_spec hi hl hoff fun hpart => hread ?_).mono ?_
  · rw [htail]
    unfold DIRENT at *
    omega
  · rintro de t ⟨rfl, hsize, hentry⟩
    refine ⟨rfl, by rwa [Nat.add_one_mul], ?_⟩
    rw [hentry]
    refine hget k ?_
    unfold DIRENT at hsize ⊢
    omega

omit hread in
theorem ents_beyond {k : ℕ} (hoff : ¬ k * DIRENT < (s.itable dp).d.size) :
    n.ents.length ≤ k := by
  rw [(hi.ents_length hl hn hdir).1]
  unfold DIRENT at hoff ⊢
  omega

/-! ### `dirlookup` -/

theorem lookupLoop_spec (hfull : (∀ jp, (s.tab jp).ref ≠ 0) → E .noInodes) :
    ∀ (fuel k : ℕ), n.ents.length < fuel + k →
      (∀ j e, j < k → n.ents[j]? = some e → e.inum ≠ 0 → namecmp name e.name ≠ 0) →
      wp E (lookupLoop L dp name fuel (k * DIRENT)) (fun r s' => s'.Inv L ∧
        s'.disk = s.disk ∧ match r with
        | none => s'.tab = s.tab ∧ Absent n name
        | some (ip, off) =>
          ∃ e, Found n name off e ∧ lookup n name = some e ∧ s.Got e.inum ip s') s := by
  have habsent : ∀ k, n.ents.length ≤ k →
      (∀ j e, j < k → n.ents[j]? = some e → e.inum ≠ 0 → namecmp name e.name ≠ 0) →
      Absent n name := by
    intro k hk hnot e he
    obtain ⟨j, hj, rfl⟩ := List.mem_iff_getElem.mp he
    exact hnot j _ (by omega) (List.getElem?_eq_getElem _)
  intro fuel
  induction fuel with
  | zero => exact fun k hfuel hnot => ⟨hi, rfl, rfl, habsent k (by omega) hnot⟩
  | succ fuel ih =>
    intro k hfuel hnot
    simp only [lookupLoop, wp_bind, wp_get, wp_ite]
    split
    · rename_i hoff
      refine (readEntry_spec hi hl hn hdir hread hoff).mono ?_
      rintro de t ⟨rfl, hsize, hget⟩
      simp only [wp_ite]
      split
      · rename_i hmatch
        have hlt : de.inum < L.ninodes := by
          have hgood := (hi.goodSelf hl).entries ((hi.type_eq hl hn).trans hdir) k hsize
          have hgetk := (hi.ents_length hl hn hdir).2.2 k (by
            unfold DIRENT at hsize ⊢
            omega)
          exact (congrArg Entry.inum (Option.some.inj (hget.symm.trans hgetk))).trans_lt hgood
        simp only [wp_bind]
        refine (iget_spec hi hlt hfull).mono ?_
        rintro ip t' ⟨hi', hn', hgot⟩
        have hfound : de.entry.inum ≠ 0 ∧ namecmp name de.entry.name = 0 :=
          ⟨hmatch.1, namecmp_entry.trans hmatch.2⟩
        refine ⟨hi', hn', de.entry, ⟨k, rfl, hget, hfound⟩, ?_, hgot⟩
        obtain ⟨hk, hgetk⟩ := List.getElem?_eq_some_iff.mp hget
        refine List.find?_eq_some_iff_getElem.mpr ⟨decide_eq_true hfound, k, hk, hgetk, ?_⟩
        intro j hj
        have hnotj := hnot j _ hj (List.getElem?_eq_getElem (hj.trans hk))
        rw [Bool.not_eq_true', decide_eq_false_iff_not]
        exact fun h => hnotj h.1 h.2
      · rename_i hmatch
        rw [← Nat.add_one_mul]
        refine ih (k + 1) (by omega) fun j e hj he h0 hcmp => ?_
        rcases (Nat.le_of_lt_succ hj).eq_or_lt with rfl | hj
        · obtain rfl := Option.some.inj (hget.symm.trans he)
          exact hmatch ⟨h0, namecmp_entry.symm.trans hcmp⟩
        · exact hnot j e hj he h0 hcmp
    · rename_i hoff
      exact ⟨hi, rfl, rfl, habsent k (ents_beyond hi hl hn hdir hoff) hnot⟩

omit hdir in
theorem dirlookup_spec (hfull : (∀ jp, (s.tab jp).ref ≠ 0) → E .noInodes)
    (hdir : n.type ≠ .dir → E .notDir) :
    wp E (dirlookup L dp name) (fun r s' => s'.Inv L ∧ s'.disk = s.disk ∧
      n.type = .dir ∧ match r with
      | none => s'.tab = s.tab ∧ Absent n name
      | some (ip, off) =>
        ∃ e, Found n name off e ∧ lookup n name = some e ∧ s.Got e.inum ip s') s := by
  simp only [dirlookup, wp_bind, wp_get, wp_ite]
  split
  · rename_i ht
    rw [hi.type_eq hl hn] at ht
    rw [← Nat.zero_mul DIRENT]
    refine (lookupLoop_spec hi hl hn ht hread hfull ((s.itable dp).d.size / DIRENT + 1) 0 ?_
      fun j _ hj => absurd hj (Nat.not_lt_zero _)).mono ?_
    · rw [(hi.ents_length hl hn ht).1]
      omega
    · rintro r s' ⟨h1, h2, h3⟩
      exact ⟨h1, h2, ht, h3⟩
  · rename_i ht
    rw [hi.type_eq hl hn] at ht
    exact hdir ht

/-! ### `dirlink` -/

theorem emptyLoop_spec : ∀ (fuel k : ℕ), n.ents.length < fuel + k → k ≤ n.ents.length →
    wp E (emptyLoop L dp fuel (k * DIRENT)) (fun off s' => s' = s ∧ ∃ j, off = j * DIRENT ∧
      Vacant n j ∧ ((j + 1) * DIRENT ≤ (s.itable dp).d.size ∨
        j * DIRENT = (s.itable dp).d.size)) s := by
  have hlen := (hi.ents_length hl hn hdir).1
  intro fuel
  induction fuel with
  | zero => exact fun k hfuel hk => absurd hk (by omega)
  | succ fuel ih =>
    intro k hfuel hk
    simp only [emptyLoop, wp_bind, wp_get, wp_ite]
    split
    · rename_i hoff
      refine (readEntry_spec hi hl hn hdir hread hoff).mono ?_
      rintro de t ⟨rfl, hsize, hget⟩
      simp only [wp_ite]
      split
      · rename_i hzero
        exact ⟨rfl, k, rfl, .inl ⟨_, hget, hzero⟩, .inl hsize⟩
      · rw [← Nat.add_one_mul]
        refine ih (k + 1) (by omega) ?_
        exact (List.getElem?_eq_some_iff.mp hget).1
    · rename_i hoff
      refine ⟨rfl, k, rfl, .inr ?_, .inr ?_⟩
      · exact hk.antisymm (ents_beyond hi hl hn hdir hoff)
      · rw [hlen] at hk
        unfold DIRENT at hk hoff ⊢
        omega

/-- The entry is put in a vacant place, or nothing changes. -/
theorem dirappend_spec {inum : ℕ} (hinum : inum % 2 ^ 16 < L.ninodes) :
    wp E (dirappend L dp name inum) (fun r s' => s'.Inv L ∧ s'.tab = s.tab ∧
      s.SameBut L (s.tab dp).inum s' ∧
      ((r = false ∧ s.SameTree L s') ∨ (r = true ∧ ∃ k, Vacant n k ∧
        s'.nodes L = update (s.nodes L) (s.tab dp).inum
          (some { n with ents := putEntry n.ents k (dirent inum name).entry })))) s := by
  have hlen := (hi.ents_length hl hn hdir).1
  simp only [dirappend, wp_bind, wp_get]
  rw [← Nat.zero_mul DIRENT]
  refine (emptyLoop_spec hi hl hn hdir hread _ 0 (by omega) (Nat.zero_le _)).mono ?_
  rintro off t ⟨rfl, k, rfl, hvac, hsize⟩
  have hb : (dirent inum name).inum < L.ninodes := by rwa [dirent_inum]
  refine (writeEntry_spec hi hl hb hn hdir hsize).bind ?_
  rintro r s' ⟨hi', htab, hbut, ⟨hr, hsame⟩ | ⟨rfl, hnodes⟩⟩
  · exact ⟨hi', htab, hbut, .inl ⟨decide_eq_false hr, hsame⟩⟩
  · exact ⟨hi', htab, hbut, .inr ⟨rfl, k, hvac, hnodes⟩⟩

/-! ### `isdirempty` -/

theorem emptyFrom_spec : ∀ (fuel k : ℕ), n.ents.length < fuel + k →
    wp E (emptyFrom L dp fuel (k * DIRENT)) (fun r s' => s' = s ∧
      (r = true ↔ ∀ j e, k ≤ j → n.ents[j]? = some e → e.inum = 0)) s := by
  have hbeyond : ∀ k, n.ents.length ≤ k → ∀ j e, k ≤ j → n.ents[j]? = some e → e.inum = 0 := by
    intro k hk j e hj he
    have := (List.getElem?_eq_some_iff.mp he).1
    omega
  intro fuel
  induction fuel with
  | zero => exact fun k hfuel => ⟨rfl, iff_of_true rfl (hbeyond k (by omega))⟩
  | succ fuel ih =>
    intro k hfuel
    simp only [emptyFrom, wp_bind, wp_get, wp_ite]
    split
    · rename_i hoff
      refine (readEntry_spec hi hl hn hdir hread hoff).mono ?_
      rintro de t ⟨rfl, -, hget⟩
      simp only [wp_ite]
      split
      · rename_i hne
        exact ⟨rfl, iff_of_false (by decide) fun h => hne (h k _ le_rfl hget)⟩
      · rename_i hzero
        rw [← Nat.add_one_mul]
        refine (ih (k + 1) (by omega)).mono ?_
        rintro r u ⟨rfl, hr⟩
        refine ⟨rfl, hr.trans ⟨fun h j e hj he => ?_, fun h j e hj => h j e (by omega)⟩⟩
        rcases hj.eq_or_lt with rfl | hlt
        · obtain rfl := Option.some.inj (hget.symm.trans he)
          exact not_not.mp hzero
        · exact h j e hlt he
    · rename_i hoff
      exact ⟨rfl, iff_of_true rfl (hbeyond k (ents_beyond hi hl hn hdir hoff))⟩

theorem isdirempty_spec :
    wp E (isdirempty L dp) (fun r s' => s' = s ∧
      (r = true ↔ ∀ j e, 2 ≤ j → n.ents[j]? = some e → e.inum = 0)) s := by
  have hlen := (hi.ents_length hl hn hdir).1
  simp only [isdirempty, wp_bind, wp_get]
  exact emptyFrom_spec hi hl hn hdir hread _ 2 (by omega)

/-! ### `sys_unlink` -/

omit hread in
/-- Clearing an entry does not fail. -/
theorem erase_spec {k : ℕ} (hk : k < n.ents.length) :
    wp E (erase L dp (k * DIRENT)) (fun _ s' => s'.Inv L ∧ s'.tab = s.tab ∧
      s.SameBut L (s.tab dp).inum s' ∧ s'.nodes L = update (s.nodes L) (s.tab dp).inum
        (some { n with ents := putEntry n.ents k (Bytes.entry fun _ => 0) })) s := by
  have hsize : (k + 1) * DIRENT ≤ (s.itable dp).d.size := by
    rw [(hi.ents_length hl hn hdir).1] at hk
    unfold DIRENT at hk ⊢
    omega
  have hle := hi.size_le hl
  have h0 : Bytes.inum (fun _ => 0) < L.ninodes :=
    (Nat.zero_le _).trans_lt (hi.table.inum hl.1)
  -- the block of the entry is there, so `writei` needs none
  have hroom : s.Room L dp (touched (k * DIRENT) DIRENT) :=
    Holeless.room (fun _ => hi.slot_ne hl) (by rwa [← Nat.add_one_mul])
  simp only [erase, wp_bind]
  refine ((writeEntry_spec hi hl h0 hn hdir (.inl hsize)).and (writei_room (hi.focus hl) ?_ ?_
    (fun _ _ => rfl) hroom)).mono ?_
  · unfold DIRENT at hsize ⊢
    omega
  · unfold DIRENT at hsize ⊢
    omega
  · rintro r s' ⟨⟨hi', htab, hbut, ⟨hr, -⟩ | ⟨-, hnodes⟩⟩, hr'⟩
    · exact absurd hr' hr
    · rw [if_pos hr']
      exact ⟨hi', htab, hbut, hnodes⟩

end Loops

end Fs

end Xv6
