import Xv6.Paths

/-!
# Calls that change names

What `link`, `unlink` and `create` do to the nodes when they run by themselves, and that a call
that fails puts everything back.
-/

namespace Xv6

open Function Prog

namespace Fs

/-- No number of links is negative. -/
structure Settled (L : FsLayout) (s : Fs) : Prop extends Tidy L s where
  root : ROOTINO < L.ninodes
  nlink : ∀ {i n}, s.nodes L i = some n → 0 ≤ n.nlink ∧ n.nlink < 2 ^ 15

/-- A state between system calls. -/
structure Steady (L : FsLayout) (s : Fs) : Prop extends Settled L s where
  /-- a referenced inode is allocated -/
  alive : ∀ {ip}, 0 < (s.tab ip).ref → ∃ n, s.nodes L (s.tab ip).inum = some n

variable {L : FsLayout} {s s' s'' : Fs} {i : ℕ} {n : Node} {x : ℤ}

/-! ## What the calls do -/

/-- A new name for the file `i`, in the directory `j`. -/
def NewLink (L : FsLayout) (s : Fs) (i : ℕ) (s' : Fs) : Prop :=
  ∃ n j m name k, s.nodes L i = some n ∧ n.type ≠ .dir ∧ s.nodes L j = some m ∧ m.type = .dir ∧
    Vacant m k ∧ s'.nodes L =
      update (update (s.nodes L) i (some { n with nlink := short (n.nlink + 1) })) j
        (some { m with ents := putEntry m.ents k (dirent i name).entry })

/-- A name that is not "." or ".." is taken from the directory `j`. A directory that loses a
subdirectory loses a link. An inode without links may be freed. -/
def Unlinked (L : FsLayout) (s s' : Fs) : Prop :=
  ∃ j m k e n name x y, s.nodes L j = some m ∧ m.type = .dir ∧ Found m name (k * DIRENT) e ∧
    namecmp name dot ≠ 0 ∧ namecmp name dotdot ≠ 0 ∧ e.inum ≠ j ∧ s.nodes L e.inum = some n ∧
    1 ≤ n.nlink ∧
    (x = none ∨ x = some { m with
      ents := putEntry m.ents k (Bytes.entry fun _ => 0)
      nlink := if n.type = .dir then short (m.nlink + -1) else m.nlink }) ∧
    (y = none ∨ y = some { n with nlink := short (n.nlink + -1) }) ∧
    s'.nodes L = update (update (s.nodes L) j x) e.inum y

/-! ## A number of links on its own -/

/-- The files are the same but for the number of links of `i`. -/
structure Relinked (L : FsLayout) (s : Fs) (i : ℕ) (x : ℤ) (s' : Fs) : Prop where
  but : s.SameBut L i s'
  self : Dinode.Same s.data { s.dinode i with nlink := x } s'.data (s'.dinode i)

theorem Relinked.of_tree (hn : s.nodes L i = some n) (h : s.SameTree L s') :
    Relinked L s i (s.dinode i).nlink s' := by
  refine ⟨h.but, ?_⟩
  rcases h i (lt_of_nodes hn) with ⟨hnone, -⟩ | hsame
  · exact absurd hnone (dinode_of_nodes hn).1
  · exact hsame

theorem Relinked.tree (h : Relinked L s i x s') (hn : s.nodes L i = some n)
    (ht : s'.SameTree L s'') : Relinked L s i x s'' := by
  refine ⟨h.but.trans ht.but, ?_⟩
  rcases ht i (lt_of_nodes hn) with ⟨hnone, -⟩ | hsame
  · exact absurd (h.self.type.symm.trans hnone) (dinode_of_nodes hn).1
  · exact h.self.trans hsame

theorem Relinked.add {k : ℤ} (h : Relinked L s i x s')
    (hdi : s''.dinode = update s'.dinode i (Edit.apply (s'.dinode i) (.add k)))
    (hda : s''.data = s'.data) : Relinked L s i (short (x + k)) s'' := by
  refine ⟨h.but.trans (sameBut_of_update hdi hda), ?_⟩
  rw [hdi, update_self, hda]
  refine ⟨h.self.type, h.self.major, h.self.minor, ?_, h.self.size, h.self.bytes⟩
  exact congrArg (fun y => short (y + k)) h.self.nlink

/-- With the old number of links the files are the same. -/
theorem Relinked.same (h : Relinked L s i (s.dinode i).nlink s') : s.SameTree L s' :=
  h.but.tree (.inr h.self)

theorem Relinked.nodes (h : Relinked L s i x s') (hn : s.nodes L i = some n) :
    s'.nodes L = update (s.nodes L) i (some { n with nlink := x }) := by
  have hlt := lt_of_nodes hn
  obtain ⟨hnone, rfl⟩ := dinode_of_nodes hn
  funext j
  by_cases hj : j = i
  · rw [hj, update_self, Fs.nodes, if_pos hlt, h.self.node]
    exact Dinode.node_of (d := { s.dinode i with nlink := x }) hnone
  · rw [update_of_ne hj, Fs.nodes, Fs.nodes]
    split
    · exact (h.but j ‹_› hj).node
    · rfl

theorem short_add_one_ne_zero {x : ℤ} (h : 0 ≤ x ∧ x < 2 ^ 15) : short (x + 1) ≠ 0 := by
  unfold short
  omega

theorem short_undo {x : ℤ} (h : 0 ≤ x ∧ x < 2 ^ 15) : short (short (x + 1) + -1) = x := by
  unfold short
  omega

end Fs

namespace Sys

open Fs

variable {L : FsLayout} {E : FsPanic → Prop} {s s₀ : Fs} {ip dp cwd : Fin NINODE} {i j : ℕ}
  {n m : Node} {name : Bytes} {path : List UInt8}

theorem peek_alone {Q : Inode → Fs → Prop} (h : Q (s.itable ip) s) :
    wp E (alone L (peek ip)) Q s := wp_alone_act.mpr (wp_map.mpr h)

section Links

variable (hE : ∀ e, e ≠ .nlink → E e) (hc : Settled L s₀)

include hE hc

theorem namei_alone (hcwd : 0 < (s₀.tab cwd).ref) :
    wp E (alone L (namei cwd path)) (fun b s' => match b with
      | none => Looks L s₀ [] [] s'
      | some jp => ∃ j, Looks L s₀ [(jp, j)] [] s') s₀ := by
  refine wp_alone_map.mpr ((namex_alone hE hc.toTidy hcwd hc.root).mono ?_)
  rintro (_ | ⟨jp, name⟩) s' h
  · exact h
  · exact h

/-! ## `link` -/

/-- `sys_link` takes back the link it has counted. -/
theorem linkBad_alone (hi : s.Inv L) (hh : Holding s₀ [(ip, i)] [] s)
    (hn : s₀.nodes L i = some n) (hre : Relinked L s₀ i (short (n.nlink + 1)) s) :
    wp E (alone L (do
      ilock ip
      change ip (.add (-1))
      iunlockput ip
      pure (-1 : ℤ))) (fun v s' => v = -1 ∧ Looks L s₀ [] [] s') s := by
  refine wp_alone_seq (ilock_alone hE hi hh List.mem_cons_self) ?_
  rintro - s₁ ⟨hi₁, hh₁, hd₁, hun, hk, -⟩
  have hre₁ := hre.tree hn (sameTree_of_disk hd₁)
  have hn₁ : s₁.nodes L i = some { n with nlink := short (n.nlink + 1) } := by
    rw [hre₁.nodes hn, update_self]
  refine wp_alone_seq (change_alone hi₁ hh₁ hn₁) ?_
  rintro - s₂ ⟨hi₂, -, hh₂, -, hdi, hda⟩
  have hre₂ := hre₁.add hdi hda
  rw [short_undo (hc.nlink hn), (dinode_of_nodes hn).2] at hre₂
  exact wp_alone_seq (iunlockput_looks hc.toTidy ⟨hi₂, hh₂, hre₂.same⟩ hun hk)
    fun _ _ h₃ => ⟨rfl, h₃⟩

theorem linkTo_alone (hcwd : 0 < (s₀.tab cwd).ref) (hi : s.Inv L) (hh : Holding s₀ [(ip, i)] [] s)
    (hn : s₀.nodes L i = some n) (hdir : n.type ≠ .dir)
    (hre : Relinked L s₀ i (short (n.nlink + 1)) s) {new : List UInt8} :
    wp E (alone L (linkTo cwd ip new)) (fun v s' => (v = -1 ∧ Looks L s₀ [] [] s') ∨
      (v = 0 ∧ s'.Inv L ∧ Holding s₀ [] [] s' ∧ NewLink L s₀ i s')) s := by
  have hnodes := hre.nodes hn
  have hne := short_add_one_ne_zero (hc.nlink hn)
  -- the inode has a link too many for now, so it is no orphan
  have ht : Tidy L s := hc.toTidy.held hi hh fun _ =>
    orphan_of_update hnodes fun h0 => absurd h0 hne
  have hcwd' : 0 < (s.tab cwd).ref := by
    rw [hh.ref]
    omega
  have hbad : ∀ {t : Fs}, Looks L s [] [] t → wp E (alone L (do
      ilock ip
      change ip (.add (-1))
      iunlockput ip
      pure (-1 : ℤ))) (fun v s' => (v = -1 ∧ Looks L s₀ [] [] s') ∨
        (v = 0 ∧ s'.Inv L ∧ Holding s₀ [] [] s' ∧ NewLink L s₀ i s')) t := fun h =>
    (linkBad_alone hE hc h.inv (hh.trans h.holding) hn (hre.tree hn h.tree)).mono
      fun _ _ h' => .inl h'
  simp only [linkTo]
  refine wp_alone_seq (namex_alone hE ht hcwd' hc.root) ?_
  rintro (_ | ⟨dp, name⟩) s₁ h₁
  · exact hbad h₁
  obtain ⟨j, h₁⟩ := h₁
  refine wp_alone_seq (ilock_looks hE h₁ List.mem_cons_self) ?_
  rintro - s₂ ⟨h₂, hun, hk, m, hm⟩
  have hinum : (s₂.itable ip).inum = i :=
    (hh.trans h₂.holding).mine (ip, i) (List.mem_cons_of_mem _ List.mem_cons_self)
  refine wp_alone_bind.mpr (peek_alone ?_)
  rw [hinum]
  refine wp_alone_seq (dirlink_alone hE (h₂.tidy ht) h₂.holding.locked_head (h₂.node hm)
    (lt_of_nodes hn)) ?_
  rintro b s₃ ⟨hi₃, ⟨rfl, hh₃, htree⟩ | ⟨rfl, htab, hmdir, -, -, k, hvac, hnodes₃⟩⟩
  · have h₃ : Looks L s [(dp, j)] [dp] s₃ := ⟨hi₃, h₂.holding.trans hh₃, h₂.tree.trans htree⟩
    exact wp_alone_seq (iunlockput_looks ht h₃ hun hk) fun _ _ => hbad
  · have hh₃ : Holding s [(dp, j)] [dp] s₃ := h₂.holding.trans (.of_tab htab)
    rw [h₂.holding.inum_head, h₂.tree.nodes] at hnodes₃
    rw [hnodes] at hm
    have hij : j ≠ i := by
      rintro rfl
      rw [update_self] at hm
      obtain rfl := Option.some.inj hm
      exact hdir hmdir
    rw [update_of_ne hij] at hm
    have horphan : ∀ {l}, s₃.Orphan L l → s.Orphan L l :=
      orphan_of_update hnodes₃ fun h0 => ⟨m, by rw [hnodes, update_of_ne hij, hm], h0⟩
    refine wp_alone_seq (iunlockput_tidy ht hi₃ hh₃ hun hk horphan) ?_
    rintro - s₄ ⟨hi₄, hh₄, hd₄⟩
    have hh₄' : Holding s₀ [(ip, i)] [] s₄ := hh.trans hh₄
    refine wp_alone_seq (iput_tidy hc.toTidy hi₄ hh₄' List.not_mem_nil fun ho => ?_) ?_
    · exact orphan_of_update hnodes (fun h0 => absurd h0 hne) (horphan (orphan_of_disk hd₄ ho))
    · rintro - s₅ ⟨hi₅, hh₅, hd₅⟩
      refine .inr ⟨rfl, hi₅, hh₅, n, j, m, name, k, hn, hdir, hm, hmdir, hvac, ?_⟩
      rw [nodes_of_disk (hd₅.trans hd₄), hnodes₃, hnodes]

/-- `link` fails and changes nothing, or gives the file that `old` names a new name. -/
theorem link_alone (hcwd : 0 < (s₀.tab cwd).ref) {old new : List UInt8} :
    wp E (alone L (link cwd old new)) (fun v s' => (v = -1 ∧ Looks L s₀ [] [] s') ∨
      (v = 0 ∧ s'.Inv L ∧ Holding s₀ [] [] s' ∧ ∃ ip s₁,
        alone L (namei cwd old) s₀ = .ok (some ip, s₁) ∧
          NewLink L s₀ (s₁.tab ip).inum s')) s₀ := by
  refine wp_alone_seq (namei_alone hE hc hcwd).run ?_
  rintro (_ | ip) s₁ ⟨h₁, hrun⟩
  · exact .inl ⟨rfl, h₁⟩
  obtain ⟨i, h₁⟩ := h₁
  refine wp_alone_seq (ilock_looks hE h₁ List.mem_cons_self) ?_
  rintro - s₂ ⟨h₂, hun, hk, n, hn⟩
  refine wp_alone_bind.mpr (peek_alone ?_)
  rw [h₂.inv.type_eq h₂.live (h₂.node hn), wp_alone_ite]
  split
  · exact wp_alone_seq (iunlockput_looks hc.toTidy h₂ hun hk) fun _ _ h₃ => .inl ⟨rfl, h₃⟩
  · rename_i hdir
    refine wp_alone_seq (change_alone h₂.inv h₂.holding ((congrFun h₂.tree.nodes i).trans hn)) ?_
    rintro - s₃ ⟨hi₃, -, hh₃, -, hdi, hda⟩
    refine wp_alone_seq (wp_alone_act.mpr (iunlock_spec hi₃ hh₃.locked_head)) ?_
    rintro - s₄ ⟨hi₄, hd₄, ht₄⟩
    have hre : Relinked L s₀ i (short (n.nlink + 1)) s₄ := by
      rw [(dinode_of_nodes hn).2]
      exact ((Relinked.of_tree hn h₂.tree).add hdi hda).tree hn (sameTree_of_disk hd₄)
    refine (linkTo_alone hE hc hcwd hi₄ (hh₃.unlock hun hk ht₄) hn hdir hre).mono ?_
    rintro v s' (h | ⟨rfl, hi', hh', hlink⟩)
    · exact .inl h
    · exact .inr ⟨rfl, hi', hh', ip, s₁, hrun, h₁.holding.inum_head ▸ hlink⟩

/-! ## `unlink` -/

omit hE hc in
/-- `sys_unlink` clears the entry at `off` of `dp`, and counts one link less for `ip`. -/
theorem unlinkClear_alone (hc : Tidy L s₀) (h : Looks L s₀ [(ip, i), (dp, j)] [ip, dp] s)
    (hun : (s₀.tab ip).locked = false) (hun' : (s₀.tab dp).locked = false) (hne : ip ≠ dp)
    (hn : s₀.nodes L i = some n) (h1 : 1 ≤ n.nlink) (hm : s₀.nodes L j = some m)
    (hdir : m.type = .dir) {off : ℕ} {e : Entry} (hf : Found m name off e) (hinum : e.inum = i)
    (hdot : namecmp name dot ≠ 0) (hdotdot : namecmp name dotdot ≠ 0) :
    wp E (alone L (do
      act (.erase dp off)
      if n.type = .dir then change dp (.add (-1)) else pure ()
      iunlockput dp
      change ip (.add (-1))
      iunlockput ip
      pure (0 : ℤ))) (fun v s' => v = 0 ∧ Tidy L s' ∧ Holding s₀ [] [] s' ∧
        Unlinked L s₀ s') s := by
  obtain ⟨hi, hh, htree⟩ := h
  obtain ⟨k, rfl, hget, hpos, hcmp⟩ := hf
  have hh' := (hh.perm (List.Perm.swap ..)).permLocks (List.Perm.swap ..)
  have hij : i ≠ j := fun h => hne (hi.table.uniq (hh.pos List.mem_cons_self)
    (hh'.pos List.mem_cons_self) (by rw [hh.inum_head, hh'.inum_head, h]))
  have hm' : s.nodes L (s.tab dp).inum = some m := by rw [hh'.inum_head, htree.nodes, hm]
  have hk : k < m.ents.length := (List.getElem?_eq_some_iff.mp hget).1
  refine wp_alone_seq (wp_alone_act.mpr (erase_spec hi (hi.live hh'.locked_head) hm' hdir hk)) ?_
  rintro - s₁ ⟨hi₁, htab₁, -, hnodes₁⟩
  rw [hh'.inum_head, htree.nodes] at hnodes₁
  have hh₁ : Holding s₀ [(dp, j), (ip, i)] [dp, ip] s₁ := hh'.trans (.of_tab htab₁)
  generalize hm₂ : ({ m with
    ents := putEntry m.ents k (Bytes.entry fun _ => 0)
    nlink := if n.type = .dir then short (m.nlink + -1) else m.nlink } : Node) = m₂
  -- the directory has one link less if it loses a subdirectory
  have hdown : wp E (alone L (if n.type = .dir then change dp (.add (-1)) else pure ()))
      (fun _ s₂ => s₂.Inv L ∧ Holding s₀ [(dp, j), (ip, i)] [dp, ip] s₂ ∧
        s₂.nodes L = update (s₀.nodes L) j (some m₂)) s₁ := by
    rw [wp_alone_ite]
    split
    · rename_i ht
      refine (change_alone hi₁ hh₁ (by rw [hnodes₁, update_self])).mono ?_
      rintro - s₂ ⟨hi₂, -, hh₂, hnodes₂, -⟩
      refine ⟨hi₂, hh₂, ?_⟩
      rw [hnodes₂, hnodes₁, update_idem, ← hm₂, if_pos ht]
      rfl
    · rename_i ht
      refine ⟨hi₁, hh₁, ?_⟩
      rw [hnodes₁, ← hm₂, if_neg ht]
  refine wp_alone_iteBind hdown ?_
  rintro - s₂ ⟨hi₂, hh₂, hnodes₂⟩
  have ht₂ : Tidy L s₂ := hc.changed hi₂ hh₂ (hh₂.pos List.mem_cons_self) hh₂.inum_head hnodes₂
  refine wp_alone_seq (iunlockput_tidies ht₂ hh₂ hun' (by simpa using Ne.symm hne)) ?_
  rintro - s₃ ⟨ht₃, hh₃, h₃⟩
  obtain ⟨x, hx, hnodes₃⟩ : ∃ x, (x = none ∨ x = some m₂) ∧
      s₃.nodes L = update (s₀.nodes L) j x := by
    rcases h₃ with h₃ | h₃
    · exact ⟨some m₂, .inr rfl, h₃.trans hnodes₂⟩
    · exact ⟨none, .inl rfl, by rw [h₃, hnodes₂, update_idem]⟩
  have hn₃ : s₃.nodes L i = some n := by rw [hnodes₃, update_of_ne hij, hn]
  refine wp_alone_seq (change_alone ht₃.inv hh₃ hn₃) ?_
  rintro - s₄ ⟨hi₄, htab₄, hh₄, hnodes₄, -⟩
  have ht₄ : Tidy L s₄ :=
    ht₃.changed hi₄ (.of_tab htab₄) (hh₄.pos List.mem_cons_self) hh₄.inum_head hnodes₄
  rw [hnodes₃] at hnodes₄
  refine wp_alone_seq (iunlockput_tidies ht₄ hh₄ hun List.not_mem_nil) ?_
  rintro - s₅ ⟨ht₅, hh₅, h₅⟩
  subst hinum
  refine ⟨rfl, ht₅, hh₅, j, m, k, e, n, name, x, s₅.nodes L e.inum, hm, hdir,
    ⟨k, rfl, hget, hpos, hcmp⟩, hdot, hdotdot, hij, hn, h1, by rwa [hm₂], ?_, ?_⟩
  · rcases h₅ with h₅ | h₅
    · exact .inr (by rw [h₅, hnodes₄, update_self]; rfl)
    · exact .inl (by rw [h₅, update_self])
  · rcases h₅ with h₅ | h₅
    · rw [h₅, hnodes₄, update_self]
    · rw [h₅, hnodes₄, update_self, update_idem]

theorem unlinkAt_alone (h : Looks L s₀ [(ip, i), (dp, j)] [dp] s) (hun : (s₀.tab dp).locked = false)
    (hm : s₀.nodes L j = some m) (hdir : m.type = .dir) {off : ℕ} {e : Entry}
    (hf : Found m name off e) (hinum : e.inum = i) (hdot : namecmp name dot ≠ 0)
    (hdotdot : namecmp name dotdot ≠ 0)
    (hpanic : ∀ n, s₀.nodes L i = some n → n.nlink < 1 → E .nlink) :
    wp E (alone L (unlinkAt dp ip off)) (fun v s' => (v = -1 ∧ Looks L s₀ [] [] s') ∨
      (v = 0 ∧ Tidy L s' ∧ Holding s₀ [] [] s' ∧ Unlinked L s₀ s')) s := by
  refine wp_alone_seq (ilock_looks hE h List.mem_cons_self) ?_
  rintro - s₁ ⟨h₁, hun₁, hk, n, hn⟩
  have hn₁ := h₁.node hn
  have hne : ip ≠ dp := by simpa using hk
  have hlinks : (s₁.itable ip).d.nlink = n.nlink := by
    rw [h₁.inv.nodes_self h₁.live] at hn₁
    rw [(Dinode.node_eq_some hn₁).2]
  refine wp_alone_bind.mpr (peek_alone ?_)
  rw [hlinks, h₁.inv.type_eq h₁.live hn₁, wp_alone_ite]
  split
  · rename_i h0
    exact wp_alone_bind.mpr (wp_alone_act.mpr (hpanic n hn h0))
  rename_i h1
  have hempty : wp E (alone L (if n.type = .dir then isdirempty ip else pure true))
      (fun _ s' => s' = s₁) s₁ := by
    rw [wp_alone_ite]
    split
    · rename_i ht
      refine wp_alone_act.mpr ((isdirempty_spec h₁.inv h₁.live hn₁ ht
        fun _ => hE _ (by decide)).mono ?_)
      exact fun _ _ h => h.1
    · rfl
  refine wp_alone_iteBind hempty ?_
  rintro (_ | _) s₂ rfl
  · refine wp_alone_seq (iunlockput_looks hc.toTidy h₁ hun₁ hk) fun _ _ h₃ => ?_
    exact wp_alone_seq (iunlockput_looks hc.toTidy h₃ hun List.not_mem_nil)
      fun _ _ h₄ => .inl ⟨rfl, h₄⟩
  · exact (unlinkClear_alone hc.toTidy h₁ hun₁ hun hne hn (by omega) hm hdir hf hinum
      hdot hdotdot).mono fun _ _ h' => .inr h'

/-- `unlink` fails and changes nothing, or removes a name. It stops if the inode of the name
has no links. -/
theorem unlink_alone (hcwd : 0 < (s₀.tab cwd).ref)
    (hpanic : ∀ j m name off e n, s₀.nodes L j = some m → m.type = .dir → Found m name off e →
      namecmp name dot ≠ 0 → namecmp name dotdot ≠ 0 → s₀.nodes L e.inum = some n →
      n.nlink < 1 → E .nlink) :
    wp E (alone L (unlink cwd path)) (fun v s' => (v = -1 ∧ Looks L s₀ [] [] s') ∨
      (v = 0 ∧ Tidy L s' ∧ Holding s₀ [] [] s' ∧ Unlinked L s₀ s')) s₀ := by
  refine wp_alone_seq (namex_alone hE hc.toTidy hcwd hc.root) ?_
  rintro (_ | ⟨dp, name⟩) s₁ h₁
  · exact .inl ⟨rfl, h₁⟩
  obtain ⟨j, h₁⟩ := h₁
  refine wp_alone_seq (ilock_looks hE h₁ List.mem_cons_self) ?_
  rintro - s₂ ⟨h₂, hun, hk, m, hm⟩
  rw [wp_alone_ite]
  split
  · exact wp_alone_seq (iunlockput_looks hc.toTidy h₂ hun hk) fun _ _ h₃ => .inl ⟨rfl, h₃⟩
  rename_i hname
  obtain ⟨hdot, hdotdot⟩ := not_or.mp hname
  refine wp_alone_seq (dirlookup_looks hE h₂ hm) ?_
  rintro (_ | ⟨ip, off⟩) s₃ ⟨hdir, h⟩
  · exact wp_alone_seq (iunlockput_looks hc.toTidy h.1 hun hk) fun _ _ h₄ => .inl ⟨rfl, h₄⟩
  · obtain ⟨e, hf, h₃⟩ := h
    exact unlinkAt_alone hE hc h₃ hun hm hdir hf rfl hdot hdotdot
      fun n hn h0 => hpanic j m name off e n hm hdir hf hdot hdotdot hn h0

end Links

/-! ## `create` -/

section Create

variable (hE : ∀ e, e ≠ .nlink → E e) (hc : Steady L s₀)

include hE hc

omit hc in
/-- `dirlink` may change the entries of a directory, nothing else. -/
theorem dirlink_grows (ht : Tidy L s) (hlock : (s.tab dp).locked = true) (hdp : (s.tab dp).inum = j)
    (hm : s.nodes L j = some m) {inum : ℕ} (hinum : inum < L.ninodes) :
    wp E (alone L (dirlink dp name inum)) (fun b s' => s'.Inv L ∧ Holding s [] [] s' ∧
      s.SameBut L j s' ∧ (b = false → s.SameTree L s') ∧ ∃ m',
        s'.nodes L = update (s.nodes L) j (some m') ∧ m'.type = m.type ∧ m'.nlink = m.nlink) s := by
  subst hdp
  refine (dirlink_alone hE ht hlock hm hinum).mono ?_
  rintro b s' ⟨hi', ⟨rfl, hh', htree⟩ | ⟨rfl, htab, -, -, hbut, k, -, hnodes⟩⟩
  · refine ⟨hi', hh', htree.but, fun _ => htree, m, ?_, rfl, rfl⟩
    rw [htree.nodes, ← hm, update_eq_self]
  · exact ⟨hi', .of_tab htab, hbut, nofun, _, hnodes, rfl, rfl⟩

omit hc in
theorem linkDots_alone (ht : Tidy L s) (hlock : (s.tab ip).locked = true)
    (hip : (s.tab ip).inum = i) (hn : s.nodes L i = some n) (hdp : 0 < (s.tab dp).ref) :
    wp E (alone L (linkDots ip dp)) (fun _ s' => s'.Inv L ∧ Holding s [] [] s' ∧
      s.SameBut L i s' ∧ ∃ n', s'.nodes L = update (s.nodes L) i (some n') ∧
        n'.type = n.type ∧ n'.nlink = n.nlink) s := by
  refine wp_alone_bind.mpr (peek_alone ?_)
  refine wp_alone_seq (dirlink_grows hE ht hlock hip hn (ht.inv.inum (ht.inv.live hlock))) ?_
  rintro (_ | _) s₁ ⟨hi₁, hh₁, hbut₁, -, n₁, hnodes₁, htype₁, hlinks₁⟩
  · exact ⟨hi₁, hh₁, hbut₁, n₁, hnodes₁, htype₁, hlinks₁⟩
  have ht₁ : Tidy L s₁ := ht.held hi₁ hh₁ fun _ =>
    orphan_of_update hnodes₁ fun h0 => ⟨n, hn, hlinks₁.symm.trans h0⟩
  have hlock₁ : (s₁.tab ip).locked = true := by rw [hh₁.locked, hlock, Bool.true_or]
  have hip₁ : (s₁.tab ip).inum = i := (hh₁.inum ip (ht.inv.live hlock).1).trans hip
  have hdp₁ : 0 < (s₁.tab dp).ref := by
    rw [hh₁.ref]
    omega
  have hn₁ : s₁.nodes L i = some n₁ := by rw [hnodes₁, update_self]
  refine wp_alone_bind.mpr (peek_alone ((dirlink_grows hE ht₁ hlock₁ hip₁ hn₁
    (hi₁.table.inum hdp₁)).mono ?_))
  rintro b s₂ ⟨hi₂, hh₂, hbut₂, -, n₂, hnodes₂, htype₂, hlinks₂⟩
  refine ⟨hi₂, hh₁.trans hh₂, hbut₁.trans hbut₂, n₂, ?_, htype₂.trans htype₁,
    hlinks₂.trans hlinks₁⟩
  rw [hnodes₂, hnodes₁, update_idem]

omit hE in
/-- `create` gives up : the inode is free again. -/
theorem createFail_alone (hi : s.Inv L) (hh : Holding s₀ [(ip, i), (dp, j)] [ip, dp] s)
    (hun : (s₀.tab ip).locked = false) (hun' : (s₀.tab dp).locked = false) (hne : ip ≠ dp)
    (hfresh : (s₀.tab ip).ref = 0) (hfree : s₀.nodes L i = none) (hlt : i < L.ninodes)
    (hbut : s₀.SameBut L i s) (hn : s.nodes L i = some n) :
    wp E (alone L (do
      change ip .clear
      iunlockput ip
      iunlockput dp
      pure (none : Option (Fin NINODE)))) (fun b s' => b = none ∧ Looks L s₀ [] [] s') s := by
  refine wp_alone_seq (change_alone hi hh hn) ?_
  rintro - s₁ ⟨hi₁, -, hh₁, hnodes₁, hdi, hda⟩
  have ho : s₁.Orphan L i := ⟨_, by rw [hnodes₁, update_self], rfl⟩
  have href : (s₁.tab ip).ref = 1 := by
    rw [hh₁.ref, hfresh]
    simp [hne]
  refine wp_alone_seq (iunlockput_alone hi₁ hh₁ hun (by simpa using hne)) ?_
  rintro - s₂ ⟨hi₂, hh₂, ⟨-, hnot⟩ | ⟨-, -, hbut₂, hnodes₂⟩⟩
  · exact absurd ⟨href, ho⟩ hnot
  have hnone : ∀ {t : Fs}, t.nodes L i = none → (t.dinode i).type = .none := fun {t} h => by
    by_contra ht
    rw [Fs.nodes, if_pos hlt, Dinode.node_of ht] at h
    cases h
  have htree : s₀.SameTree L s₂ :=
    ((hbut.trans (sameBut_of_update hdi hda)).trans hbut₂).tree
      (.inl ⟨hnone hfree, hnone (by rw [hnodes₂, update_self])⟩)
  exact wp_alone_seq (iunlockput_looks hc.toTidy ⟨hi₂, hh₂, htree⟩ hun' List.not_mem_nil)
    fun _ _ h₃ => ⟨rfl, h₃⟩

/-- With an inode `i` that was free, `create` makes the file or frees the inode again. -/
theorem createIn_alone (hi : s.Inv L) (hh : Holding s₀ [(ip, i), (dp, j)] [dp] s)
    (hun : (s₀.tab dp).locked = false) (hfresh : (s₀.tab ip).ref = 0) (hfree : s₀.nodes L i = none)
    (hlt : i < L.ninodes) (hbut : s₀.SameBut L i s) {type : FileType}
    (hnodes : s.nodes L = update (s₀.nodes L) i (some ⟨type, 0, [], 0⟩))
    (hm : s₀.nodes L j = some m) {major minor : ℤ} :
    wp E (alone L (createIn dp ip name type major minor)) (fun b s' => match b with
      | none => Looks L s₀ [] [] s'
      | some ip => s'.Inv L ∧ ∃ i n, Holding s₀ [(ip, i)] [ip] s' ∧
          (s₀.tab ip).locked = false ∧ s'.nodes L i = some n ∧ s₀.nodes L i = none ∧
            n.type = type ∧ n.nlink ≠ 0) s := by
  have hij : j ≠ i := by
    rintro rfl
    rw [hfree] at hm
    cases hm
  refine wp_alone_seq (ilock_alone hE hi hh List.mem_cons_self) ?_
  rintro - s₁ ⟨hi₁, hh₁, hd₁, hunip, hk, -⟩
  have hne : ip ≠ dp := by simpa using hk
  have hn₁ : s₁.nodes L i = some ⟨type, 0, [], 0⟩ := by
    rw [nodes_of_disk hd₁, hnodes, update_self]
  refine wp_alone_seq (change_alone hi₁ hh₁ hn₁) ?_
  rintro - s₂ ⟨hi₂, -, hh₂, hnodes₂, hdi, hda⟩
  rw [nodes_of_disk hd₁, hnodes, update_idem] at hnodes₂
  have hbut₂ : s₀.SameBut L i s₂ :=
    (hbut.trans (sameTree_of_disk hd₁).but).trans (sameBut_of_update hdi hda)
  -- from here on the inode has one link and the other files are as before
  have hdots : wp E (alone L (if type = .dir then linkDots ip dp else pure true)) (fun _ s' =>
      s'.Inv L ∧ Holding s₀ [(ip, i), (dp, j)] [ip, dp] s' ∧ s₀.SameBut L i s' ∧
        ∃ n, s'.nodes L = update (s₀.nodes L) i (some n) ∧ n.type = type ∧ n.nlink = 1) s₂ := by
    rw [wp_alone_ite]
    split
    · have ht₂ : Tidy L s₂ := hc.toTidy.held hi₂ hh₂ fun _ =>
        orphan_of_update hnodes₂ fun h0 => absurd h0 one_ne_zero
      refine (linkDots_alone hE ht₂ hh₂.locked_head hh₂.inum_head (by rw [hnodes₂, update_self])
        (hh₂.pos (List.mem_cons_of_mem _ List.mem_cons_self))).mono ?_
      rintro - s' ⟨hi', hh', hbut', n', hnodes', htype, hlinks⟩
      exact ⟨hi', hh₂.trans hh', hbut₂.trans hbut', n', by rw [hnodes', hnodes₂, update_idem],
        htype, hlinks⟩
    · exact ⟨hi₂, hh₂, hbut₂, _, hnodes₂, rfl, rfl⟩
  refine wp_alone_iteBind hdots ?_
  rintro dots s₃ ⟨hi₃, hh₃, hbut₃, n₃, hnodes₃, htype₃, hlinks₃⟩
  have hn₃ : s₃.nodes L i = some n₃ := by rw [hnodes₃, update_self]
  refine wp_alone_bind.mpr (peek_alone ?_)
  have hinum : (s₃.itable ip).inum = i := hh₃.inum_head
  rw [hinum]
  have hlink : wp E (alone L (if dots = true then dirlink dp name i else pure false)) (fun b s' =>
      s'.Inv L ∧ Holding s₀ [(ip, i), (dp, j)] [ip, dp] s' ∧ (b = false → s₀.SameBut L i s') ∧
        ∃ m', s'.nodes L = update (s₃.nodes L) j (some m') ∧ m'.nlink = m.nlink) s₃ := by
    have hm₃ : s₃.nodes L j = some m := by rw [hnodes₃, update_of_ne hij, hm]
    rw [wp_alone_ite]
    split
    · have ht₃ : Tidy L s₃ := hc.toTidy.held hi₃ hh₃ fun _ =>
        orphan_of_update hnodes₃ fun h0 => absurd (hlinks₃.symm.trans h0) one_ne_zero
      refine (dirlink_grows hE ht₃ (hh₃.permLocks (List.Perm.swap ..)).locked_head
        (hh₃.perm (List.Perm.swap ..)).inum_head hm₃ hlt).mono ?_
      rintro b s' ⟨hi', hh', -, htree, m', hnodes', -, hlinks⟩
      exact ⟨hi', hh₃.trans hh', fun hb => hbut₃.trans (htree hb).but, m', hnodes', hlinks⟩
    · refine ⟨hi₃, hh₃, fun _ => hbut₃, m, ?_, rfl⟩
      rw [← hm₃, update_eq_self]
  refine wp_alone_iteBind hlink ?_
  rintro ok s₄ ⟨hi₄, hh₄, hbut₄, m₄, hnodes₄, hlinks₄⟩
  have hn₄ : s₄.nodes L i = some n₃ := by rw [hnodes₄, update_of_ne hij.symm, hn₃]
  cases ok with
  | false =>
    refine (createFail_alone hc hi₄ hh₄ hunip hun hne hfresh hfree hlt (hbut₄ rfl) hn₄).mono ?_
    rintro b s' ⟨rfl, h'⟩
    exact h'
  | true =>
    have hh₄' := (hh₄.perm (List.Perm.swap ..)).permLocks (List.Perm.swap ..)
    have hup : wp E (alone L (if type = .dir then change dp (.add 1) else pure ())) (fun _ s' =>
        s'.Inv L ∧ Holding s₀ [(dp, j), (ip, i)] [dp, ip] s' ∧
          ∃ m', s'.nodes L = update (s₃.nodes L) j (some m') ∧
            (m'.nlink = 0 → m.nlink = 0)) s₄ := by
      rw [wp_alone_ite]
      split
      · refine (change_alone hi₄ hh₄' (by rw [hnodes₄, update_self])).mono ?_
        rintro - s' ⟨hi', -, hh', hnodes', -⟩
        rw [hnodes₄, update_idem] at hnodes'
        refine ⟨hi', hh', _, hnodes', fun h0 => ?_⟩
        exact absurd h0 (short_add_one_ne_zero (hlinks₄ ▸ hc.nlink hm))
      · exact ⟨hi₄, hh₄', m₄, hnodes₄, fun h0 => hlinks₄.symm.trans h0⟩
    simp only [↓reduceIte]
    refine wp_alone_iteBind hup ?_
    rintro - s₅ ⟨hi₅, hh₅, m₅, hnodes₅, hlinks₅⟩
    refine wp_alone_seq (iunlockput_tidy hc.toTidy hi₅ hh₅ hun (by simpa using Ne.symm hne) ?_) ?_
    · rintro ⟨m', hm', h0⟩
      rw [hnodes₅, update_self] at hm'
      obtain rfl := Option.some.inj hm'
      exact ⟨m, hm, hlinks₅ h0⟩
    · rintro - s₆ ⟨hi₆, hh₆, hd₆⟩
      refine ⟨hi₆, i, n₃, hh₆, hunip, ?_, hfree, htype₃, hlinks₃.trans_ne one_ne_zero⟩
      rw [nodes_of_disk hd₆, hnodes₅, update_of_ne hij.symm, hn₃]

/-- `create` fails and changes nothing, or returns a file that was there or is new. -/
theorem create_alone (hcwd : 0 < (s₀.tab cwd).ref) {type : FileType} (htype : type ≠ .none)
    {major minor : ℤ} :
    wp E (alone L (create cwd path type major minor)) (fun b s' => match b with
      | none => Looks L s₀ [] [] s'
      | some ip => s'.Inv L ∧ ∃ i n, Holding s₀ [(ip, i)] [ip] s' ∧
          (s₀.tab ip).locked = false ∧ s'.nodes L i = some n ∧
            (s₀.SameTree L s' ∧ s₀.nodes L i ≠ none ∨
              s₀.nodes L i = none ∧ n.type = type ∧ n.nlink ≠ 0)) s₀ := by
  refine wp_alone_seq (namex_alone hE hc.toTidy hcwd hc.root) ?_
  rintro (_ | ⟨dp, name⟩) s₁ h₁
  · exact h₁
  obtain ⟨j, h₁⟩ := h₁
  refine wp_alone_seq (ilock_looks hE h₁ List.mem_cons_self) ?_
  rintro - s₂ ⟨h₂, hun, hk, m, hm⟩
  refine wp_alone_seq (dirlookup_looks hE h₂ hm) ?_
  rintro (_ | ⟨ip, off⟩) s₃ ⟨-, h⟩
  · obtain ⟨h₃, -⟩ := h
    refine wp_alone_bind.mpr (wp_alone_seq (wp_alone_act.mpr (iallocLoop_spec h₃.inv htype)) ?_)
    rintro r s₄ ⟨hi₄, htab₄, ⟨rfl, hd₄⟩ | ⟨i, rfl, -, hlt, hfree, hnodes₄, hdi₄, hda₄⟩⟩
    · exact wp_alone_seq (iunlockput_looks hc.toTidy (h₃.step hi₄ hd₄ (.of_tab htab₄)) hun hk)
        fun _ _ h₅ => h₅
    · rw [h₃.tree.nodes] at hfree hnodes₄
      refine wp_alone_map.mpr (wp_alone_act.mpr
        ((iget_spec hi₄ hlt fun _ => hE _ (by decide)).mono ?_))
      rintro ip s₅ ⟨hi₅, hd₅, hgot⟩
      have hh₄ : Holding s₀ [(dp, j)] [dp] s₄ := h₃.holding.trans (.of_tab htab₄)
      -- nobody has a reference to a free inode
      have hfresh : (s₄.tab ip).ref = 0 := by
        rcases hgot with ⟨hpos, hinum, -⟩ | ⟨h0, -⟩
        · exfalso
          by_cases h0 : 0 < (s₀.tab ip).ref
          · obtain ⟨n, hn⟩ := hc.alive h0
            rw [← hh₄.inum ip h0, hinum, hfree] at hn
            cases hn
          · rw [hh₄.ref] at hpos
            have hmem : ip ∈ [(dp, j)].map Prod.fst := List.count_pos_iff.mp (by omega)
            obtain rfl := List.mem_singleton.mp hmem
            rw [hh₄.inum_head] at hinum
            rw [hinum, hfree] at hm
            cases hm
        · exact h0
      have hbut₄ : s₀.SameBut L i s₄ := h₃.tree.but.trans (sameBut_of_update hdi₄ hda₄)
      refine (createIn_alone hE hc hi₅ (hh₄.trans (hi₄.got hgot)) hun ?_ hfree hlt
        (hbut₄.trans (sameTree_of_disk hd₅).but) (by rw [nodes_of_disk hd₅, hnodes₄]) hm).mono ?_
      · rw [hh₄.ref] at hfresh
        omega
      · rintro (_ | ip') s' h
        · exact h
        · obtain ⟨hi', i', n', hh', hun', hn', ht'⟩ := h
          exact ⟨hi', i', n', hh', hun', hn', .inr ht'⟩
  · obtain ⟨e, -, h₃⟩ := h
    refine wp_alone_seq (iunlockput_looks hc.toTidy h₃.swap hun hk) fun _ s₄ h₄ => ?_
    refine wp_alone_seq (ilock_looks hE h₄ List.mem_cons_self) ?_
    rintro - s₅ ⟨h₅, hunip, hk₅, n, hn⟩
    refine wp_alone_bind.mpr (peek_alone ?_)
    rw [wp_alone_ite]
    split
    · exact ⟨h₅.inv, e.inum, n, h₅.holding, hunip, by rw [h₅.tree.nodes, hn],
        .inl ⟨h₅.tree, by rw [hn]; nofun⟩⟩
    · exact wp_alone_seq (iunlockput_looks hc.toTidy h₅ hunip hk₅) fun _ _ h₆ => h₆

end Create

end Sys

end Xv6
