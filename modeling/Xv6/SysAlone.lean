import Mathlib.Data.List.Count
import Xv6.DirSpec

/-!
# System calls one at a time

What the functions of `sysfile.c` do when no other process runs meanwhile. `Fs.Holding s r k s'`
compares the table of inodes with what it was at `s` : the process has taken the references `r`,
each with its inode number, and the locks `k`, and nothing else has changed for the entries in
use. A function that gives back all it takes ends with both lists empty.

`iput` of the last reference to an inode without links frees it. In a state where such inodes
are referenced already (`Fs.Tidy`) a function that takes and drops references frees none
(`Fs.Tidy.keeps`). `Fs.Looks` is what such a function keeps up to the point where it changes a
file.
-/

namespace Xv6

open Function Prog

/-- The call, with nothing else running. -/
def Sys.alone {β : Type} (L : FsLayout) (m : Sys β) : FsM β := Ctl.exec (FsAct.run L) m

namespace Fs

/-! ## What a process has taken -/

structure Holding (s : Fs) (r : List (Fin NINODE × ℕ)) (k : List (Fin NINODE)) (s' : Fs) :
    Prop where
  ref : ∀ ip, (s'.tab ip).ref = (s.tab ip).ref + (r.map Prod.fst).count ip
  inum : ∀ ip, 0 < (s.tab ip).ref → (s'.tab ip).inum = (s.tab ip).inum
  mine : ∀ x ∈ r, (s'.tab x.1).inum = x.2
  locked : ∀ ip, (s'.tab ip).locked = ((s.tab ip).locked || decide (ip ∈ k))

variable {L : FsLayout} {s s' s'' : Fs} {r r' : List (Fin NINODE × ℕ)} {k k' : List (Fin NINODE)}
  {ip jp dp : Fin NINODE} {i j : ℕ} {n : Node}

theorem Holding.of_tab (h : s'.tab = s.tab) : Holding s [] [] s' := by
  refine ⟨fun ip => ?_, fun ip _ => ?_, nofun, fun ip => ?_⟩
  · simp [h]
  · rw [h]
  · simp [h]

theorem Holding.trans (h : Holding s r k s') (h' : Holding s' r' k' s'') :
    Holding s (r' ++ r) (k' ++ k) s'' := by
  refine ⟨fun ip => ?_, fun ip hp => ?_, fun x hx => ?_, fun ip => ?_⟩
  · rw [h'.ref, h.ref, List.map_append, List.count_append]
    omega
  · rw [h'.inum ip (by rw [h.ref]; omega), h.inum ip hp]
  · rcases List.mem_append.mp hx with hx | hx
    · exact h'.mine x hx
    · have hpos : 0 < (r.map Prod.fst).count x.1 :=
        List.count_pos_iff.mpr (List.mem_map_of_mem hx)
      rw [h'.inum x.1 (by rw [h.ref]; omega), h.mine x hx]
  · rw [h'.locked, h.locked]
    by_cases h1 : ip ∈ k <;> by_cases h2 : ip ∈ k' <;> simp [h1, h2]

theorem Holding.perm (h : Holding s r k s') (hp : r.Perm r') : Holding s r' k s' :=
  ⟨fun ip => by rw [h.ref, (hp.map Prod.fst).count_eq], h.inum,
    fun x hx => h.mine x (hp.mem_iff.mpr hx), h.locked⟩

theorem Holding.permLocks (h : Holding s r k s') (hp : k.Perm k') : Holding s r k' s' :=
  ⟨h.ref, h.inum, h.mine, fun ip => by rw [h.locked, decide_eq_decide.mpr hp.mem_iff]⟩

/-- A reference the process has is one of those of the entry. -/
theorem Holding.pos (h : Holding s r k s') (hm : (ip, i) ∈ r) : 0 < (s'.tab ip).ref := by
  have hpos : 0 < (r.map Prod.fst).count ip := List.count_pos_iff.mpr (List.mem_map_of_mem hm)
  rw [h.ref]
  omega

theorem Holding.inum_head (h : Holding s ((ip, i) :: r) k s') : (s'.tab ip).inum = i :=
  h.mine (ip, i) List.mem_cons_self

theorem Holding.locked_head (h : Holding s r (ip :: k) s') : (s'.tab ip).locked = true := by
  rw [h.locked, decide_eq_true List.mem_cons_self, Bool.or_true]

/-- An entry that is still in use keeps its inode. -/
theorem Holding.inum_eq (h : Holding s r k s') (h' : Holding s r' k' s'') (hsub : r' ⊆ r)
    (hpos : 0 < (s''.tab ip).ref) : (s''.tab ip).inum = (s'.tab ip).inum := by
  by_cases h0 : 0 < (s.tab ip).ref
  · rw [h'.inum ip h0, h.inum ip h0]
  · rw [h'.ref] at hpos
    have hmem : ip ∈ r'.map Prod.fst := List.count_pos_iff.mp (by omega)
    obtain ⟨x, hx, rfl⟩ := List.mem_map.mp hmem
    rw [h'.mine x hx, h.mine x (hsub hx)]

/-- The table changes at an entry that the process has a reference to. -/
theorem Holding.update {x : Tab} (h : Holding s r k s') (ht : s''.tab = update s'.tab ip x)
    (hinum : x.inum = (s'.tab ip).inum)
    (href : x.ref = (s.tab ip).ref + (r'.map Prod.fst).count ip)
    (hother : ∀ jp, jp ≠ ip → (r'.map Prod.fst).count jp = (r.map Prod.fst).count jp)
    (hsub : r' ⊆ r) (hlock : x.locked = ((s.tab ip).locked || decide (ip ∈ k')))
    (hlocks : ∀ jp, jp ≠ ip → (jp ∈ k' ↔ jp ∈ k)) : Holding s r' k' s'' := by
  have hself : s''.tab ip = x := by rw [ht, update_self]
  have hne : ∀ {jp}, jp ≠ ip → s''.tab jp = s'.tab jp := fun hj => by rw [ht, update_of_ne hj]
  have hinums : ∀ jp, (s''.tab jp).inum = (s'.tab jp).inum := fun jp => by
    by_cases hj : jp = ip
    · rw [hj, hself, hinum]
    · rw [hne hj]
  refine ⟨fun jp => ?_, fun jp hp => ?_, fun y hy => ?_, fun jp => ?_⟩
  · by_cases hj : jp = ip
    · rw [hj, hself, href]
    · rw [hne hj, h.ref, hother jp hj]
  · rw [hinums, h.inum jp hp]
  · rw [hinums, h.mine y (hsub hy)]
  · by_cases hj : jp = ip
    · rw [hj, hself, hlock]
    · rw [hne hj, h.locked, decide_eq_decide.mpr (hlocks jp hj)]

theorem Holding.drop {x : Tab} (h : Holding s ((ip, i) :: r) k s')
    (ht : s''.tab = Function.update s'.tab ip x) (hinum : x.inum = (s'.tab ip).inum)
    (href : x.ref = (s'.tab ip).ref - 1) (hlock : x.locked = (s'.tab ip).locked) :
    Holding s r k s'' := by
  refine h.update ht hinum ?_ (fun jp hj => ?_) (List.subset_cons_self _ _)
    (hlock.trans (h.locked ip)) fun _ _ => Iff.rfl
  · rw [href, h.ref, List.map_cons, List.count_cons_self]
    omega
  · rw [List.map_cons, List.count_cons_of_ne (Ne.symm hj)]

theorem Holding.lock (h : Holding s r k s')
    (ht : s''.tab = Function.update s'.tab ip { s'.tab ip with valid := true, locked := true }) :
    Holding s r (ip :: k) s'' := by
  refine h.update ht rfl (h.ref ip) (fun _ _ => rfl) (List.Subset.refl _) ?_ fun jp hj => ?_
  · simp
  · simp [hj]

theorem Holding.unlock (h : Holding s r (ip :: k) s') (hun : (s.tab ip).locked = false)
    (hk : ip ∉ k)
    (ht : s''.tab = Function.update s'.tab ip { s'.tab ip with locked := false }) :
    Holding s r k s'' := by
  refine h.update ht rfl (h.ref ip) (fun _ _ => rfl) (List.Subset.refl _) ?_ fun jp hj => ?_
  · simp [hun, hk]
  · simp [hj]

/-- The process takes a reference to inode `i` at the entry `ip`. -/
theorem Holding.take {x : Tab} (ht : s'.tab = Function.update s.tab ip x)
    (href : x.ref = (s.tab ip).ref + 1) (hinum : x.inum = i)
    (hold : 0 < (s.tab ip).ref → (s.tab ip).inum = i) (hlock : x.locked = (s.tab ip).locked) :
    Holding s [(ip, i)] [] s' := by
  refine ⟨fun jp => ?_, fun jp hp => ?_, fun y hy => ?_, fun jp => ?_⟩
  · by_cases hj : jp = ip
    · simp [ht, hj, href]
    · simp [ht, hj, Ne.symm hj]
  · by_cases hj : jp = ip
    · subst hj
      simp [ht, hinum, hold hp]
    · simp [ht, hj]
  · rw [List.mem_singleton.mp hy, ht, update_self, hinum]
  · by_cases hj : jp = ip
    · simp [ht, hj, hlock]
    · simp [ht, hj]

theorem Inv.got (hi : s.Inv L) (h : s.Got i ip s') : Holding s [(ip, i)] [] s' := by
  rcases h with ⟨-, hinum, ht⟩ | ⟨href, -, ht⟩
  · exact .take ht rfl hinum (fun _ => hinum) rfl
  · refine .take ht (by rw [href]) rfl (fun hpos => by omega) ?_
    by_contra hl
    have := (hi.table.locked (Bool.eq_true_of_not_eq_false (Ne.symm hl))).1
    omega

/-! ## States in which nothing is about to be freed -/

/-- Inode `i` is allocated and has no links. -/
def Orphan (L : FsLayout) (s : Fs) (i : ℕ) : Prop := ∃ n, s.nodes L i = some n ∧ n.nlink = 0

/-- An inode without links is referenced. -/
structure Tidy (L : FsLayout) (s : Fs) : Prop where
  inv : s.Inv L
  orphan : ∀ {i}, s.Orphan L i → ∃ ip, 0 < (s.tab ip).ref ∧ (s.tab ip).inum = i

theorem orphan_of_disk (h : s'.disk = s.disk) (ho : s'.Orphan L i) : s.Orphan L i := by
  rwa [Orphan, nodes_of_disk h] at ho

/-- A change to one node makes no orphan of another. -/
theorem orphan_of_update (h : s'.nodes L = update (s.nodes L) i (some n))
    (h0 : n.nlink = 0 → s.Orphan L i) (ho : s'.Orphan L j) : s.Orphan L j := by
  obtain ⟨n', hn', hz⟩ := ho
  rw [h] at hn'
  by_cases hj : j = i
  · rw [hj, update_self] at hn'
    obtain rfl := Option.some.inj hn'
    exact hj ▸ h0 hz
  · rw [update_of_ne hj] at hn'
    exact ⟨n', hn', hz⟩

/-- A new orphan is one that is referenced. -/
theorem Tidy.but (ht : Tidy L s) (hi : s'.Inv L) (hh : Holding s r k s')
    (hn : ∀ i, s'.Orphan L i → s.Orphan L i ∨ ∃ ip, 0 < (s'.tab ip).ref ∧ (s'.tab ip).inum = i) :
    Tidy L s' where
  inv := hi
  orphan {i} ho := by
    rcases hn i ho with ho | h
    · obtain ⟨ip, href, hinum⟩ := ht.orphan ho
      exact ⟨ip, by rw [hh.ref]; omega, by rw [hh.inum ip href, hinum]⟩
    · exact h

/-- A change to an inode that is referenced. -/
theorem Tidy.changed (ht : Tidy L s) (hi : s'.Inv L) (hh : Holding s r k s')
    (hpos : 0 < (s'.tab ip).ref) (hinum : (s'.tab ip).inum = i) {x : Option Node}
    (hn : s'.nodes L = update (s.nodes L) i x) : Tidy L s' := by
  refine ht.but hi hh fun j ho => ?_
  by_cases hj : j = i
  · exact .inr ⟨ip, hpos, hinum.trans hj.symm⟩
  · rw [Orphan, hn, update_of_ne hj] at ho
    exact .inl ho

theorem Tidy.held (ht : Tidy L s) (hi : s'.Inv L) (hh : Holding s r k s')
    (hn : ∀ i, s'.Orphan L i → s.Orphan L i) : Tidy L s' := ht.but hi hh fun i ho => .inl (hn i ho)

/-- A reference that was taken since then is not the last one to an inode without links. -/
theorem Tidy.keeps (ht : Tidy L s) (hi : s'.Inv L) (hh : Holding s ((ip, i) :: r) k s')
    (hn : s'.Orphan L i → s.Orphan L i) (h1 : (s'.tab ip).ref = 1) : ¬ s'.Orphan L i := by
  intro ho
  obtain ⟨jp, href, hjp⟩ := ht.orphan (hn ho)
  have heq : (s'.tab jp).inum = (s'.tab ip).inum := by rw [hh.inum jp href, hjp, hh.inum_head]
  obtain rfl := hi.table.uniq (by rw [hh.ref]; omega) (hh.pos List.mem_cons_self) heq
  rw [hh.ref, List.map_cons, List.count_cons_self] at h1
  omega

/-- Since `s` the process has taken the references `r` and the locks `k`, and the files are the
same. -/
structure Looks (L : FsLayout) (s : Fs) (r : List (Fin NINODE × ℕ)) (k : List (Fin NINODE))
    (s' : Fs) : Prop where
  inv : s'.Inv L
  holding : Holding s r k s'
  tree : s.SameTree L s'

section Looks

variable (h : Looks L s r k s')

include h

theorem Looks.orphan (ho : s'.Orphan L i) : s.Orphan L i := by
  rwa [Orphan, h.tree.nodes] at ho

theorem Looks.tidy (ht : Tidy L s) : Tidy L s' := ht.held h.inv h.holding fun _ => h.orphan

theorem Looks.step (hi : s''.Inv L) (hd : s''.disk = s'.disk) (hh : Holding s' r' k' s'') :
    Looks L s (r' ++ r) (k' ++ k) s'' :=
  ⟨hi, h.holding.trans hh, h.tree.trans (sameTree_of_disk hd)⟩

end Looks

theorem Looks.swap {x y : Fin NINODE × ℕ} (h : Looks L s (x :: y :: r) k s') :
    Looks L s (y :: x :: r) k s' := ⟨h.inv, h.holding.perm (List.Perm.swap ..), h.tree⟩

theorem Looks.live (h : Looks L s r (ip :: k) s') : s'.Live ip := h.inv.live h.holding.locked_head

theorem Looks.node (h : Looks L s ((ip, i) :: r) k s') (hn : s.nodes L i = some n) :
    s'.nodes L (s'.tab ip).inum = some n := by
  rw [h.holding.inum_head, h.tree.nodes, hn]

end Fs

/-! ## Calls -/

namespace Sys

open Fs

variable {L : FsLayout} {E : FsPanic → Prop} {β γ : Type} {s s₀ : Fs}
  {r : List (Fin NINODE × ℕ)} {k : List (Fin NINODE)} {ip dp cwd : Fin NINODE} {i : ℕ} {n : Node}

variable {Q : γ → Fs → Prop} {f : β → Sys γ} {m : Sys β}

@[simp] theorem wp_alone_bind :
    wp E (alone L (m >>= f)) Q s ↔ wp E (alone L m) (fun b => wp E (alone L (f b)) Q) s :=
  Ctl.wp_exec_bind

@[simp] theorem wp_alone_map {f : β → γ} :
    wp E (alone L (f <$> m)) Q s ↔ wp E (alone L m) (fun b => Q (f b)) s := Ctl.wp_exec_map

@[simp] theorem wp_alone_act {a : FsAct} {Q : a.Res → Fs → Prop} :
    wp E (alone L (act a)) Q s ↔ wp E (a.run L) Q s := Ctl.wp_exec_call

/-- A program, and what comes after it. -/
theorem wp_alone_seq {Q' : β → Fs → Prop} (h : wp E (alone L m) Q' s)
    (hf : ∀ b s', Q' b s' → wp E (alone L (f b)) Q s') :
    wp E (alone L (m >>= f)) Q s := wp_alone_bind.mpr (h.mono hf)

theorem wp_alone_ite {c : Prop} [Decidable c] {m' : Sys β} {Q : β → Fs → Prop} :
    wp E (alone L (if c then m else m')) Q s ↔
      if c then wp E (alone L m) Q s else wp E (alone L m') Q s := by
  split <;> rfl

/-- `iput` drops the reference, and frees the inode if that was the last one and there are no
links. -/
theorem iput_alone (hi : s.Inv L) (hh : Holding s₀ ((ip, i) :: r) k s)
    (hlock : (s.tab ip).locked = true → 1 < (s.tab ip).ref) :
    wp E (alone L (iput ip)) (fun _ s' => s'.Inv L ∧ Holding s₀ r k s' ∧
      ((s'.disk = s.disk ∧ ¬ ((s.tab ip).ref = 1 ∧ (s.tab ip).valid = true ∧
          s.Orphan L i)) ∨
        ((s.tab ip).ref = 1 ∧ s.Orphan L i ∧ s.SameBut L i s' ∧
          s'.nodes L = update (s.nodes L) i none))) s := by
  have hpos := hh.pos List.mem_cons_self
  have hinum := hh.inum_head
  refine wp_alone_bind.mpr (wp_alone_act.mpr ((iputTest_spec hi hpos hlock).mono ?_))
  rintro b s₁ ⟨hi₁, hd₁, h⟩
  rw [hinum] at h
  rcases h with ⟨rfl, h1, hv, hun, hn, ht₁⟩ | ⟨rfl, hnot, ht₁⟩
  · have htab₁ : s₁.tab ip = { s.tab ip with locked := true } := by rw [ht₁, update_self]
    obtain ⟨n, hnode, h0⟩ := hn
    have hnode₁ : s₁.nodes L (s₁.tab ip).inum = some n := by
      rw [htab₁, nodes_of_disk hd₁]
      exact hinum ▸ hnode
    refine wp_alone_bind.mpr (wp_alone_act.mpr ((iputFree_spec hi₁ (by rw [htab₁]) hnode₁).mono ?_))
    rintro - s₂ ⟨hi₂, ht₂, hbut, hnodes⟩
    have htab₂ : s₂.tab ip = { s.tab ip with valid := false } := by
      rw [ht₂, update_self, htab₁, ← hun]
    refine wp_alone_act.mpr ((iputDrop_spec hi₂ (by rw [htab₂]; exact hpos) ?_).mono ?_)
    · rw [htab₂]
      exact hlock
    · rintro - s₃ ⟨hi₃, hd₃, ht₃⟩
      have ht : s₃.tab = update s.tab ip
          { s.tab ip with ref := (s.tab ip).ref - 1, valid := false } := by
        rw [ht₃, htab₂, ht₂, ht₁, update_idem, update_idem]
      refine ⟨hi₃, ?_, .inr ⟨h1, ⟨n, hnode, h0⟩, ?_, ?_⟩⟩
      · exact hh.drop ht rfl rfl rfl
      · have := (sameTree_of_disk hd₁ (L := L)).but.trans
          (hbut.trans (sameTree_of_disk hd₃).but)
        rwa [htab₁, hinum] at this
      · rw [nodes_of_disk hd₃, hnodes, nodes_of_disk hd₁, htab₁]
        exact congrArg (update (s.nodes L) · none) hinum
  · exact ⟨hi₁, hh.drop ht₁ rfl rfl rfl, .inl ⟨hd₁, hnot⟩⟩

theorem iunlockput_alone (hi : s.Inv L) (hh : Holding s₀ ((ip, i) :: r) (ip :: k) s)
    (hun : (s₀.tab ip).locked = false) (hk : ip ∉ k) :
    wp E (alone L (iunlockput ip)) (fun _ s' => s'.Inv L ∧ Holding s₀ r k s' ∧
      ((s'.disk = s.disk ∧ ¬ ((s.tab ip).ref = 1 ∧ s.Orphan L i)) ∨
        ((s.tab ip).ref = 1 ∧ s.Orphan L i ∧ s.SameBut L i s' ∧
          s'.nodes L = update (s.nodes L) i none))) s := by
  have hvalid := (hi.live hh.locked_head).2
  refine wp_alone_bind.mpr (wp_alone_act.mpr ((iunlock_spec hi hh.locked_head).mono ?_))
  rintro - s₁ ⟨hi₁, hd₁, ht₁⟩
  have htab₁ : s₁.tab ip = { s.tab ip with locked := false } := by rw [ht₁, update_self]
  have hlocked₁ : ¬ (s₁.tab ip).locked = true := by simp [htab₁]
  refine (iput_alone hi₁ (hh.unlock hun hk ht₁) fun h => absurd h hlocked₁).mono ?_
  rintro - s₂ ⟨hi₂, hh₂, h⟩
  rw [htab₁, Orphan, nodes_of_disk hd₁] at h
  refine ⟨hi₂, hh₂, h.imp ?_ ?_⟩
  · rintro ⟨hd₂, hnot⟩
    exact ⟨hd₂.trans hd₁, fun ⟨h1, hn⟩ => hnot ⟨h1, hvalid, hn⟩⟩
  · rintro ⟨h1, hn, hbut, hnodes⟩
    exact ⟨h1, hn, (sameTree_of_disk hd₁).but.trans hbut, hnodes⟩

/-- With the lock held the copy of the inode is there, so that an inode that loses its last
reference with no links is freed. -/
theorem iunlockput_tidies (ht : Tidy L s) (hh : Holding s₀ ((ip, i) :: r) (ip :: k) s)
    (hun : (s₀.tab ip).locked = false) (hk : ip ∉ k) :
    wp E (alone L (iunlockput ip)) (fun _ s' => Tidy L s' ∧ Holding s₀ r k s' ∧
      (s'.nodes L = s.nodes L ∨ s'.nodes L = update (s.nodes L) i none)) s := by
  refine (iunlockput_alone ht.inv hh hun hk).mono ?_
  rintro - s' ⟨hi', hh', h⟩
  have href : ∀ {jp}, jp ≠ ip → (s'.tab jp).ref = (s.tab jp).ref := fun hj => by
    rw [hh'.ref, hh.ref, List.map_cons, List.count_cons_of_ne (Ne.symm hj)]
  have hself : (s'.tab ip).ref + 1 = (s.tab ip).ref := by
    rw [hh'.ref, hh.ref, List.map_cons, List.count_cons_self, Nat.add_assoc]
  have hinum : ∀ {jp}, 0 < (s'.tab jp).ref → (s'.tab jp).inum = (s.tab jp).inum :=
    hh.inum_eq hh' (List.subset_cons_self _ _)
  have htidy : (∀ {i'}, s'.Orphan L i' → s.Orphan L i' ∧ (i' = i → (s.tab ip).ref ≠ 1)) →
      Tidy L s' := fun horphan => ⟨hi', fun ho' => by
    obtain ⟨ho, hmore⟩ := horphan ho'
    obtain ⟨jp, hpos, hjp⟩ := ht.orphan ho
    have hpos' : 0 < (s'.tab jp).ref := by
      by_cases hj : jp = ip
      · subst hj
        have := hmore (hjp.symm.trans hh.inum_head)
        omega
      · rwa [href hj]
    exact ⟨jp, hpos', (hinum hpos').trans hjp⟩⟩
  rcases h with ⟨hd, hnot⟩ | ⟨-, -, -, hnodes⟩
  · refine ⟨htidy fun ho => ?_, hh', .inl (nodes_of_disk hd)⟩
    have ho' := orphan_of_disk hd ho
    exact ⟨ho', fun he h1 => hnot ⟨h1, he ▸ ho'⟩⟩
  · refine ⟨htidy fun {i'} ho => ?_, hh', .inr hnodes⟩
    obtain ⟨n, hn, h0⟩ := ho
    rw [hnodes] at hn
    have hne : i' ≠ i := by
      rintro rfl
      rw [update_self] at hn
      cases hn
    rw [update_of_ne hne] at hn
    exact ⟨⟨n, hn, h0⟩, fun he => absurd he hne⟩

/-- A program that goes on in the same way after both branches. -/
theorem wp_alone_iteBind {c : Prop} [Decidable c] {m' : Sys β} {Q' : β → Fs → Prop}
    (h : wp E (alone L (if c then m else m')) Q' s)
    (hf : ∀ b s', Q' b s' → wp E (alone L (f b)) Q s') :
    wp E (alone L (if c then m >>= f else m' >>= f)) Q s := by
  split
  · rw [if_pos ‹c›] at h
    exact wp_alone_bind.mpr (h.mono hf)
  · rw [if_neg ‹¬ c›] at h
    exact wp_alone_bind.mpr (h.mono hf)

/-- A change to an inode that the process has locked. -/
theorem change_alone (hi : s.Inv L) (hh : Holding s₀ ((ip, i) :: r) (ip :: k) s)
    (hn : s.nodes L i = some n) {e : Edit} :
    wp E (alone L (change ip e)) (fun _ s' => s'.Inv L ∧ s'.tab = s.tab ∧
      Holding s₀ ((ip, i) :: r) (ip :: k) s' ∧
      s'.nodes L = update (s.nodes L) i (some { n with nlink := e.links n.nlink }) ∧
      s'.dinode = update s.dinode i (e.apply (s.dinode i)) ∧ s'.data = s.data) s := by
  have hinum := hh.inum_head
  refine wp_alone_act.mpr ((change_spec hi (hi.live hh.locked_head) (hinum ▸ hn)).mono ?_)
  rintro - s' ⟨hi', htab, hnodes, hdi, hda⟩
  rw [hinum] at hnodes hdi
  exact ⟨hi', htab, hh.trans (.of_tab htab), hnodes, hdi, hda⟩

/-! ### References taken and dropped again -/

section Tidy

variable (ht : Tidy L s₀)

include ht

theorem iput_tidy (hi : s.Inv L) (hh : Holding s₀ ((ip, i) :: r) k s) (hk : ip ∉ k)
    (hn : s.Orphan L i → s₀.Orphan L i) :
    wp E (alone L (iput ip)) (fun _ s' => s'.Inv L ∧ Holding s₀ r k s' ∧ s'.disk = s.disk) s := by
  refine (iput_alone hi hh fun hl => ?_).mono ?_
  · rw [hh.locked, decide_eq_false hk, Bool.or_false] at hl
    have := (ht.inv.table.locked hl).1
    rw [hh.ref, List.map_cons, List.count_cons_self]
    omega
  · rintro - s' ⟨hi', hh', ⟨hd, -⟩ | ⟨h1, ho, -⟩⟩
    · exact ⟨hi', hh', hd⟩
    · exact absurd ho (ht.keeps hi hh hn h1)

theorem iunlockput_tidy (hi : s.Inv L) (hh : Holding s₀ ((ip, i) :: r) (ip :: k) s)
    (hun : (s₀.tab ip).locked = false) (hk : ip ∉ k) (hn : s.Orphan L i → s₀.Orphan L i) :
    wp E (alone L (iunlockput ip)) (fun _ s' =>
      s'.Inv L ∧ Holding s₀ r k s' ∧ s'.disk = s.disk) s := by
  refine (iunlockput_alone hi hh hun hk).mono ?_
  rintro - s' ⟨hi', hh', ⟨hd, -⟩ | ⟨h1, ho, -⟩⟩
  · exact ⟨hi', hh', hd⟩
  · exact absurd ho (ht.keeps hi hh hn h1)

theorem iunlockput_looks (h : Looks L s₀ ((ip, i) :: r) (ip :: k) s)
    (hun : (s₀.tab ip).locked = false) (hk : ip ∉ k) :
    wp E (alone L (iunlockput ip)) (fun _ s' => Looks L s₀ r k s') s := by
  refine (iunlockput_tidy ht h.inv h.holding hun hk h.orphan).mono ?_
  rintro - s' ⟨hi', hh', hd⟩
  exact ⟨hi', hh', h.tree.trans (sameTree_of_disk hd)⟩

end Tidy

/-- `ilock` stops at an inode that is locked or free. -/
theorem ilock_held (hi : s.Inv L) (hh : Holding s₀ r k s) (hm : (ip, i) ∈ r)
    (hhang : (s.tab ip).locked = true → E .hang) (htype : s.nodes L i = none → E .noType) :
    wp E (alone L (ilock ip)) (fun _ s' => s'.Inv L ∧ Holding s₀ r (ip :: k) s' ∧ s'.disk = s.disk ∧
      (s₀.tab ip).locked = false ∧ ip ∉ k ∧ ∃ n, s.nodes L i = some n) s := by
  have hinum : (s.tab ip).inum = i := hh.mine _ hm
  rw [← hinum] at htype ⊢
  refine wp_alone_act.mpr ((ilock_spec hi (hh.pos hm) hhang htype).mono ?_)
  rintro - s' ⟨hi', hd, hun, hn, ht⟩
  rw [hh.locked, Bool.or_eq_false_iff, decide_eq_false_iff_not] at hun
  exact ⟨hi', hh.lock ht, hd, hun.1, hun.2, hn⟩

variable (hE : ∀ e, e ≠ .nlink → E e)

include hE

theorem ilock_alone (hi : s.Inv L) (hh : Holding s₀ r k s) (hm : (ip, i) ∈ r) :
    wp E (alone L (ilock ip)) (fun _ s' => s'.Inv L ∧ Holding s₀ r (ip :: k) s' ∧ s'.disk = s.disk ∧
      (s₀.tab ip).locked = false ∧ ip ∉ k ∧ ∃ n, s.nodes L i = some n) s :=
  ilock_held hi hh hm (fun _ => hE _ (by decide)) fun _ => hE _ (by decide)

theorem ilock_looks (h : Looks L s₀ r k s) (hm : (ip, i) ∈ r) :
    wp E (alone L (ilock ip)) (fun _ s' => Looks L s₀ r (ip :: k) s' ∧
      (s₀.tab ip).locked = false ∧ ip ∉ k ∧ ∃ n, s₀.nodes L i = some n) s := by
  refine (ilock_alone hE h.inv h.holding hm).mono ?_
  rintro - s' ⟨hi', hh', hd, hun, hk, hn⟩
  rw [h.tree.nodes] at hn
  exact ⟨⟨hi', hh', h.tree.trans (sameTree_of_disk hd)⟩, hun, hk, hn⟩

/-- `dirlookup` takes a reference to what it finds. -/
theorem dirlookup_looks (h : Looks L s₀ ((dp, i) :: r) (dp :: k) s) (hn : s₀.nodes L i = some n)
    {name : Bytes} :
    wp E (alone L (act (.dirlookup dp name))) (fun b s' => n.type = .dir ∧ match b with
      | none => Looks L s₀ ((dp, i) :: r) (dp :: k) s' ∧ Absent n name
      | some (ip, off) => ∃ e, Found n name off e ∧
          Looks L s₀ ((ip, e.inum) :: (dp, i) :: r) (dp :: k) s') s := by
  refine wp_alone_act.mpr ((dirlookup_spec h.inv h.live (h.node hn) (fun _ => hE _ (by decide))
    (fun _ => hE _ (by decide)) fun _ => hE _ (by decide)).mono ?_)
  rintro (_ | ⟨ip, off⟩) s' ⟨hi', hd, hdir, hr⟩
  · exact ⟨hdir, h.step hi' hd (.of_tab hr.1), hr.2⟩
  · obtain ⟨e, hf, -, hgot⟩ := hr
    exact ⟨hdir, e, hf, h.step hi' hd (h.inv.got hgot)⟩

/-- `dirlink` adds an entry, or changes nothing. -/
theorem dirlink_alone (ht : Tidy L s) (hlock : (s.tab dp).locked = true)
    (hn : s.nodes L (s.tab dp).inum = some n) {name : Bytes} {inum : ℕ}
    (hinum : inum < L.ninodes) :
    wp E (alone L (dirlink dp name inum)) (fun b s' => s'.Inv L ∧
      ((b = false ∧ Holding s [] [] s' ∧ s.SameTree L s') ∨
        (b = true ∧ s'.tab = s.tab ∧ n.type = .dir ∧ Absent n name ∧
          s.SameBut L (s.tab dp).inum s' ∧ ∃ j, Vacant n j ∧
            s'.nodes L = update (s.nodes L) (s.tab dp).inum
              (some { n with ents := putEntry n.ents j (dirent inum name).entry })))) s := by
  have hi := ht.inv
  have hl := hi.live hlock
  refine wp_alone_bind.mpr (wp_alone_act.mpr ((dirlookup_spec hi hl hn
    (fun _ => hE _ (by decide)) (fun _ => hE _ (by decide)) fun _ => hE _ (by decide)).mono ?_))
  rintro (_ | ⟨ip, off⟩) s₁ ⟨hi₁, hd₁, hdir, h⟩
  · obtain ⟨htab, habsent⟩ := h
    have hl₁ : s₁.Live dp := by
      unfold Live
      rw [htab]
      exact hl
    have hn₁ : s₁.nodes L (s₁.tab dp).inum = some n := by rw [htab, nodes_of_disk hd₁, hn]
    refine wp_alone_act.mpr ((dirappend_spec hi₁ hl₁ hn₁ hdir (fun _ => hE _ (by decide))
      ((Nat.mod_le _ _).trans_lt hinum)).mono ?_)
    rintro b s₂ ⟨hi₂, htab₂, hbut, ⟨rfl, htree⟩ | ⟨rfl, j, hvac, hnodes⟩⟩
    · exact ⟨hi₂, .inl ⟨rfl, .of_tab (htab₂.trans htab), (sameTree_of_disk hd₁).trans htree⟩⟩
    · rw [htab] at hbut hnodes
      rw [nodes_of_disk hd₁] at hnodes
      exact ⟨hi₂, .inr ⟨rfl, htab₂.trans htab, hdir, habsent,
        (sameTree_of_disk hd₁).but.trans hbut, j, hvac, hnodes⟩⟩
  · obtain ⟨e, -, -, hgot⟩ := h
    refine wp_alone_bind.mpr ((iput_tidy ht hi₁ (hi.got hgot) List.not_mem_nil
      (orphan_of_disk hd₁)).mono ?_)
    rintro - s₂ ⟨hi₂, hh₂, hd₂⟩
    exact ⟨hi₂, .inl ⟨rfl, hh₂, sameTree_of_disk (hd₂.trans hd₁)⟩⟩

end Sys

end Xv6
