import Mathlib.Data.List.TakeWhile
import Xv6.SysAlone

/-!
# Path names

The components of a path are its pieces between slashes that are not empty (`components`).
`resolve` follows them from an inode, looking each one up, cut to `DIRSIZ` bytes, in a directory ;
`resolveParent` stops before the last.

`namex` does that (`namexLoop_walks`), and swaps its reference at each step, so that in the end it
holds one to the inode it returns, or none. `Stops` lists the panics there may be on the way. In a
file system whose entries name allocated inodes (`Closed`), with no inode locked, the only one is
that the table of inodes is full, for which it takes less than two empty entries (`namex_resolves`).
-/

namespace Xv6

open Function Prog

/-! ## Components -/

/-- `dropWhile` stops at an element that it does not drop. -/
theorem not_of_dropWhile {p : UInt8 → Bool} {l t : List UInt8} {y : UInt8}
    (h : l.dropWhile p = y :: t) : p y = false := by
  have := List.head?_dropWhile_not p l
  rwa [h] at this

/-- The pieces of a path. -/
def components (path : List UInt8) : List (List UInt8) := (path.splitOn 47).filter (· ≠ [])

theorem components_nil : components [] = [] := by decide

theorem components_slash {path : List UInt8} : components (47 :: path) = components path := by
  rw [components, List.splitOn, List.splitOnP_cons_eq_if_modifyHead, if_pos (by decide)]
  simp [components, List.splitOn]

theorem components_dropWhile : ∀ {path : List UInt8},
    components (path.dropWhile (· = 47)) = components path
  | [] => rfl
  | c :: path => by
    by_cases hc : c = 47
    · rw [List.dropWhile_cons_of_pos (by simpa using hc), components_dropWhile, hc,
        components_slash]
    · rw [List.dropWhile_cons_of_neg (by simpa using hc)]

theorem components_piece {c : List UInt8} (hc : 47 ∉ c) (hne : c ≠ []) : components c = [c] := by
  have hsep : ∀ x ∈ c, (x == 47) = false := fun x hx => by
    have : x ≠ 47 := fun h => hc (h ▸ hx)
    simpa using this
  rw [components, List.splitOn, List.splitOnP_eq_singleton hsep]
  simp [hne]

theorem components_append {c path : List UInt8} (hc : 47 ∉ c) (hne : c ≠ []) :
    components (c ++ 47 :: path) = c :: components path := by
  have hsep : ∀ x ∈ c, (x == 47) = false := fun x hx => by
    have : x ≠ 47 := fun h => hc (h ▸ hx)
    simpa using this
  rw [components, List.splitOn, List.splitOnP_append_cons_of_forall_mem hsep 47 (by decide)]
  simp [hne, components, List.splitOn]

/-- A path that does not begin with a slash is empty if it has no components. -/
theorem components_cons {path : List UInt8} {x : UInt8} (h : x ≠ 47) :
    components (x :: path) ≠ [] := by
  rw [components, List.splitOn, List.splitOnP_cons_eq_if_modifyHead, if_neg (by simpa using h)]
  cases hsplit : List.splitOnP (· == 47) path with
  | nil => exact absurd hsplit (List.splitOnP_ne_nil _ _)
  | cons c cs => simp

namespace Sys

theorem skipelem_none {path : List UInt8} (h : skipelem path = none) : components path = [] := by
  unfold skipelem at h
  split at h
  · rename_i hd
    rw [← components_dropWhile, hd, components_nil]
  · cases h

/-- `skipelem` takes off the first component. -/
theorem skipelem_some {path rest : List UInt8} {name : Bytes}
    (h : skipelem path = some (rest, name)) : ∃ c, components path = c :: components rest ∧
      name = cstring (c.take DIRSIZ) ∧ (rest = [] ↔ components rest = []) := by
  unfold skipelem at h
  split at h
  · cases h
  · rename_i x l hd
    cases h
    have hx : x ≠ 47 := by simpa using not_of_dropWhile hd
    have hcat := List.takeWhile_append_dropWhile (p := (· ≠ 47)) (l := x :: l)
    have hpiece : 47 ∉ (x :: l).takeWhile (· ≠ 47) := by
      intro hmem
      have := List.mem_takeWhile_imp hmem
      simp at this
    have hne : (x :: l).takeWhile (· ≠ 47) ≠ [] := by
      rw [List.takeWhile_cons_of_pos (by simpa using hx)]
      exact List.cons_ne_nil _ _
    refine ⟨(x :: l).takeWhile (· ≠ 47), ?_, rfl, ?_⟩
    · rw [← components_dropWhile, hd, components_dropWhile]
      cases htail : (x :: l).dropWhile (· ≠ 47) with
      | nil =>
        rw [htail, List.append_nil] at hcat
        rw [hcat] at hpiece ⊢
        exact components_piece hpiece (List.cons_ne_nil _ _)
      | cons y t =>
        have hy : y = 47 := by simpa using not_of_dropWhile htail
        rw [htail, hy] at hcat
        rw [hy, components_slash, ← components_append hpiece hne, hcat]
    · constructor
      · intro h
        rw [h, components_nil]
      · intro h
        cases hrest : ((x :: l).dropWhile (· ≠ 47)).dropWhile (· = 47) with
        | nil => rfl
        | cons y t =>
          have hy : y ≠ 47 := by simpa using not_of_dropWhile hrest
          rw [hrest] at h
          exact absurd h (components_cons hy)

end Sys

/-! ## Following components -/

section Resolve

variable (N : ℕ → Option Node)

/-- The inode that a component names in the directory `i`. -/
def child (i : ℕ) (c : List UInt8) : Option ℕ :=
  (N i).bind fun n =>
    if n.type = .dir then (Fs.lookup n (cstring (c.take DIRSIZ))).map Entry.inum else none

/-- The inode at the end of the components. -/
def resolve (i : ℕ) (cs : List (List UInt8)) : Option ℕ := cs.foldlM (child N) i

/-- The directory that the last component is to be looked up in, and that component. -/
def resolveParent (i : ℕ) (cs : List (List UInt8)) : Option (ℕ × Bytes) := do
  let c ← cs.getLast?
  let j ← resolve N i cs.dropLast
  if (N j).map Node.type = some .dir then some (j, cstring (c.take DIRSIZ)) else none

/-- Both at once, a component at a time. -/
def walk (parent : Bool) : ℕ → List (List UInt8) → Option (ℕ × Bytes)
  | i, [] => if parent then none else some (i, fun _ => 0)
  | i, c :: cs =>
    if (N i).map Node.type = some .dir then
      if parent ∧ cs = [] then some (i, cstring (c.take DIRSIZ))
      else (child N i c).bind fun j => walk parent j cs
    else none

variable {N} {i : ℕ}

theorem child_of_not_dir {c : List UInt8} (h : ¬ (N i).map Node.type = some .dir) :
    child N i c = none := by
  unfold child
  cases hn : N i with
  | none => rfl
  | some n =>
    rw [hn] at h
    exact if_neg fun hd => h (congrArg some hd)

theorem walk_false : ∀ {i : ℕ} (cs : List (List UInt8)),
    walk N false i cs = (resolve N i cs).map fun j => (j, fun _ => 0)
  | _, [] => rfl
  | i, c :: cs => by
    rw [walk, resolve, List.foldlM_cons]
    split
    · rw [if_neg (by simp)]
      cases hc : child N i c with
      | none => rfl
      | some j => exact walk_false cs
    · rename_i hd
      rw [child_of_not_dir hd]
      rfl

theorem walk_true : ∀ {i : ℕ} (cs : List (List UInt8)), walk N true i cs = resolveParent N i cs
  | _, [] => rfl
  | i, [c] => by
    rw [walk]
    by_cases hd : (N i).map Node.type = some .dir
    · rw [if_pos hd, if_pos ⟨rfl, rfl⟩]
      exact (if_pos hd).symm
    · rw [if_neg hd]
      exact (if_neg hd).symm
  | i, c :: c' :: cs => by
    have hlast : (c :: c' :: cs).getLast? = (c' :: cs).getLast? := List.getLast?_cons_cons ..
    rw [walk, resolveParent, hlast, List.dropLast_cons_cons, resolve, List.foldlM_cons]
    split
    · rw [if_neg (by simp)]
      cases hc : child N i c with
      | none => cases (c' :: cs).getLast? <;> rfl
      | some j => exact walk_true (c' :: cs)
    · rename_i hd
      rw [child_of_not_dir hd]
      cases (c' :: cs).getLast? <;> rfl

end Resolve

/-! ## `namex` -/

/-- The root and what the entries name is allocated, and directories hold whole entries. -/
structure Closed (N : ℕ → Option Node) : Prop where
  root : N ROOTINO ≠ none
  entries : ∀ {i n e}, N i = some n → e ∈ n.ents → e.inum ≠ 0 → N e.inum ≠ none
  whole : ∀ {i n}, N i = some n → n.type = .dir → n.tail = 0

namespace Sys

open Fs

variable {L : FsLayout} {E : FsPanic → Prop} {s₀ s s' : Fs} {cwd : Fin NINODE} {path : List UInt8}
  {parent : Bool}

/-- Why `namex` may stop: a lock is held, the file system is broken, or there are no two empty
entries in the table of inodes. -/
def Stops (L : FsLayout) (s : Fs) (cwd : Fin NINODE) : FsPanic → Prop
  | .hang => ∃ ip, (s.tab ip).locked = true
  | .noType => ¬ (Closed (s.nodes L) ∧ s.nodes L (s.tab cwd).inum ≠ none)
  | .dirRead => ¬ Closed (s.nodes L)
  | .noInodes => ∀ ip jp, (s.tab ip).ref = 0 → (s.tab jp).ref = 0 → ip = jp
  | _ => False

/-- Where the path starts. -/
def start (s : Fs) (cwd : Fin NINODE) (path : List UInt8) : ℕ :=
  if path.head? = some 47 then ROOTINO else (s.tab cwd).inum

section

variable (hE : ∀ e, Stops L s₀ cwd e → E e) (ht : Tidy L s₀)

include hE ht

/-- The loop of `namex` follows the components, and swaps its reference for one to the inode it
returns. The induction is on its rounds. -/
theorem namexLoop_walks : ∀ {fuel : ℕ} {path : List UInt8} {ip : Fin NINODE} {i : ℕ} {s : Fs},
    path.length < fuel → s.Inv L → s.disk = s₀.disk → Holding s₀ [(ip, i)] [] s →
    (Closed (s₀.nodes L) ∧ s₀.nodes L (s₀.tab cwd).inum ≠ none → s₀.nodes L i ≠ none) →
    wp E (alone L (namexLoop parent fuel path ip)) (fun b s' => s'.Inv L ∧ s'.disk = s₀.disk ∧
      match b with
      | none => Holding s₀ [] [] s' ∧ walk (s₀.nodes L) parent i (components path) = none
      | some (jp, name) => ∃ j, Holding s₀ [(jp, j)] [] s' ∧
          walk (s₀.nodes L) parent i (components path) = some (j, name)) s
  | fuel + 1, path, ip, i, s, hfuel, hi, hd, hh, halive => by
    unfold namexLoop
    split
    · rename_i hskip
      rw [skipelem_none hskip, wp_alone_ite]
      split
      · rename_i hparent
        refine wp_alone_bind.mpr ((iput_tidy ht hi hh List.not_mem_nil
          (orphan_of_disk hd)).mono ?_)
        rintro - s' ⟨hi', hh', hd'⟩
        exact ⟨hi', hd'.trans hd, hh', if_pos hparent⟩
      · rename_i hparent
        exact ⟨hi, hd, i, hh, if_neg hparent⟩
    · rename_i rest name hskip
      have hrest := skipelem_length hskip
      obtain ⟨c, hcomp, rfl, hlast⟩ := skipelem_some hskip
      have hN : s.nodes L = s₀.nodes L := nodes_of_disk hd
      refine wp_alone_bind.mpr ((ilock_held hi hh List.mem_cons_self (fun hl => hE _ ⟨ip, ?_⟩)
        fun hnone => hE _ fun ha => halive ha (hN ▸ hnone)).mono ?_)
      · rwa [hh.locked, decide_eq_false List.not_mem_nil, Bool.or_false] at hl
      rintro - s₁ ⟨hi₁, hh₁, hd₁, hun, hk, n, hn⟩
      rw [hN] at hn
      have hd₁' := hd₁.trans hd
      have hlock₁ := hh₁.locked_head
      have hn₁ : s₁.nodes L (s₁.tab ip).inum = some n := by
        rw [hh₁.inum_head, nodes_of_disk hd₁', hn]
      have htype := hi₁.type_eq (hi₁.live hlock₁) hn₁
      have hisdir : (s₀.nodes L i).map Node.type = some .dir ↔ n.type = .dir := by
        rw [hn, Option.map_some, Option.some.injEq]
      rw [hcomp, walk]
      -- every exit but two gives the inode back
      have hgiveup : ∀ {s₂}, s₂.Inv L → s₂.disk = s₀.disk → Holding s₀ [(ip, i)] [ip] s₂ →
          wp E (alone L (do iunlockput ip; pure none)) (fun b s' => s'.Inv L ∧
            s'.disk = s₀.disk ∧ b = (none : Option (Fin NINODE × Bytes)) ∧
              Holding s₀ [] [] s') s₂ := by
        intro s₂ hi₂ hd₂ hh₂
        refine wp_alone_bind.mpr ((iunlockput_tidy ht hi₂ hh₂ hun hk (orphan_of_disk hd₂)).mono ?_)
        rintro - s' ⟨hi', hh', hd'⟩
        exact ⟨hi', hd'.trans hd₂, rfl, hh'⟩
      refine wp_alone_bind.mpr (wp_alone_act.mpr ?_)
      show wp E (alone L (if _ then _ else _)) _ s₁
      rw [wp_alone_ite]
      split
      · rename_i hdir
        rw [htype] at hdir
        refine (hgiveup hi₁ hd₁' hh₁).mono ?_
        rintro b s' ⟨hi', hd', rfl, hh'⟩
        exact ⟨hi', hd', hh', if_neg (hisdir.not.mpr hdir)⟩
      rename_i hdir
      rw [htype, not_not] at hdir
      rw [wp_alone_ite]
      split
      · rename_i hstop
        refine wp_alone_bind.mpr (wp_alone_act.mpr ((iunlock_spec hi₁ hlock₁).mono ?_))
        rintro - s₂ ⟨hi₂, hd₂, ht₂⟩
        refine ⟨hi₂, hd₂.trans hd₁', i, hh₁.unlock hun hk ht₂, ?_⟩
        rw [if_pos (hisdir.mpr hdir), if_pos ⟨hstop.1, hlast.mp hstop.2⟩]
      · rename_i hstop
        rw [if_pos (hisdir.mpr hdir), if_neg fun h => hstop ⟨h.1, hlast.mpr h.2⟩]
        have hchild : child (s₀.nodes L) i c =
            (lookup n (cstring (c.take DIRSIZ))).map Entry.inum := by
          rw [child, hn, Option.bind_some, if_pos hdir]
        refine wp_alone_bind.mpr (wp_alone_act.mpr ((dirlookup_spec hi₁ (hi₁.live hlock₁) hn₁
          (fun h0 => hE _ fun hr => h0 (hr.whole hn hdir)) (fun hfull => hE _ ?_)
          fun h => absurd hdir h).mono ?_))
        · -- the only entry that can have been empty is the one that was taken
          intro jp kp hjp hkp
          have hone : ∀ q, (s₀.tab q).ref = 0 → q = ip := by
            intro q hq
            have hq₁ := hfull q
            rw [hh₁.ref, hq, List.map_cons, List.map_nil, List.count_singleton] at hq₁
            by_contra hne
            simp [Ne.symm hne] at hq₁
          exact (hone jp hjp).trans (hone kp hkp).symm
        rintro (_ | ⟨next, off⟩) s₂ ⟨hi₂, hd₂, -, h⟩
        · refine (hgiveup hi₂ (hd₂.trans hd₁') (hh₁.trans (.of_tab h.1))).mono ?_
          rintro b s' ⟨hi', hd', rfl, hh'⟩
          refine ⟨hi', hd', hh', ?_⟩
          rw [hchild, h.2.lookup]
          rfl
        · obtain ⟨e, hfound, hlookup, hgot⟩ := h
          have hh₂ : Holding s₀ [(ip, i), (next, e.inum)] [ip] s₂ :=
            (hh₁.trans (hi₁.got hgot)).perm (List.Perm.swap ..)
          rw [hchild, hlookup, Option.map_some, Option.bind_some]
          refine wp_alone_bind.mpr ((iunlockput_tidy ht hi₂ hh₂ hun hk
            (orphan_of_disk (hd₂.trans hd₁'))).mono ?_)
          rintro - s₃ ⟨hi₃, hh₃, hd₃⟩
          refine namexLoop_walks (by omega) hi₃ (hd₃.trans (hd₂.trans hd₁')) hh₃ fun ha => ?_
          obtain ⟨k, -, hget, hpos, -⟩ := hfound
          exact ha.1.entries hn (List.mem_of_getElem? hget) hpos

theorem namex_walks (hcwd : 0 < (s₀.tab cwd).ref) (hroot : ROOTINO < L.ninodes) :
    wp E (alone L (namex cwd path parent)) (fun b s' => s'.Inv L ∧ s'.disk = s₀.disk ∧
      match b with
      | none => Holding s₀ [] [] s' ∧ walk (s₀.nodes L) parent (start s₀ cwd path)
          (components path) = none
      | some (jp, name) => ∃ j, Holding s₀ [(jp, j)] [] s' ∧
          walk (s₀.nodes L) parent (start s₀ cwd path) (components path) = some (j, name)) s₀ := by
  rw [namex, start, wp_alone_ite]
  split
  · refine wp_alone_bind.mpr (wp_alone_act.mpr ((iget_spec ht.inv hroot fun hfull =>
      hE _ fun jp _ hjp => absurd hjp (hfull jp)).mono ?_))
    rintro ip s₁ ⟨hi₁, hd₁, hgot⟩
    exact namexLoop_walks hE ht (Nat.lt_succ_self _) hi₁ hd₁ (ht.inv.got hgot) fun ha => ha.1.root
  · refine wp_alone_bind.mpr (wp_alone_act.mpr ((idup_spec ht.inv hcwd).mono ?_))
    rintro - s₁ ⟨hi₁, hd₁, ht₁⟩
    exact namexLoop_walks hE ht (Nat.lt_succ_self _) hi₁ hd₁
      (ht.inv.got (.inl ⟨hcwd, rfl, ht₁⟩)) fun ha => ha.2

end

/-- `namex` returns one reference, or none. -/
theorem namex_alone (hE : ∀ e, e ≠ .nlink → E e) (ht : Tidy L s₀) (hcwd : 0 < (s₀.tab cwd).ref)
    (hroot : ROOTINO < L.ninodes) :
    wp E (alone L (namex cwd path parent)) (fun b s' => match b with
      | none => Looks L s₀ [] [] s'
      | some (jp, _) => ∃ j, Looks L s₀ [(jp, j)] [] s') s₀ := by
  have hstops : ∀ e, Stops L s₀ cwd e → E e := fun e he => hE e fun h => by
    rw [h] at he
    exact he
  refine (namex_walks hstops ht hcwd hroot).mono ?_
  rintro (_ | ⟨jp, name⟩) s' ⟨hi, hd, h⟩
  · exact ⟨hi, h.1, sameTree_of_disk hd⟩
  · obtain ⟨j, hh, -⟩ := h
    exact ⟨j, hi, hh, sameTree_of_disk hd⟩

end Sys

open Sys Fs

/-! ## Results -/

variable {L : FsLayout} {s s' : Fs} {cwd : Fin NINODE}

/-- `namex` has returned `r` : the file system and the locks are as before, and there is a new
reference to the inode that is returned, and no other. -/
structure Returned (s : Fs) (r : Option (Fin NINODE × Bytes)) (s' : Fs) : Prop where
  disk : s'.disk = s.disk
  ref : ∀ ip, (s'.tab ip).ref = (s.tab ip).ref + if r.map Prod.fst = some ip then 1 else 0
  inum : ∀ ip, 0 < (s.tab ip).ref → (s'.tab ip).inum = (s.tab ip).inum
  locked : ∀ ip, (s'.tab ip).locked = (s.tab ip).locked

/-- `namex` finds the inode of the path, or the directory of its last component. -/
theorem namex_resolves (ht : Tidy L s) (hroot : Closed (s.nodes L))
    (hlocks : ∀ ip, (s.tab ip).locked = false) (hcwd : 0 < (s.tab cwd).ref)
    (halive : s.nodes L (s.tab cwd).inum ≠ none) {path : List UInt8} {parent : Bool} :
    (∃ r s', alone L (namex cwd path parent) s = .ok (r, s') ∧ Returned s r s' ∧
      (parent = false → r.map (fun x => (s'.tab x.1).inum) =
        resolve (s.nodes L) (start s cwd path) (components path)) ∧
      (parent = true → r.map (fun x => ((s'.tab x.1).inum, x.2)) =
        resolveParent (s.nodes L) (start s cwd path) (components path))) ∨
    (alone L (namex cwd path parent) s = .error .noInodes ∧
      ∀ ip jp, (s.tab ip).ref = 0 → (s.tab jp).ref = 0 → ip = jp) := by
  have hlt : ROOTINO < L.ninodes := by
    obtain ⟨n, hn⟩ := Option.ne_none_iff_exists'.mp hroot.root
    exact lt_of_nodes hn
  have hwalk := @namex_walks L (Stops L s cwd) s cwd path parent (fun _ h => h) ht hcwd hlt
  cases hrun : alone L (namex cwd path parent) s with
  | error e =>
    have hstop := hwalk.error hrun
    cases e with
    | noInodes => exact .inr ⟨rfl, hstop⟩
    | hang =>
      obtain ⟨ip, hip⟩ := hstop
      exact absurd ((hlocks ip).symm.trans hip) Bool.false_ne_true
    | noType => exact absurd ⟨hroot, halive⟩ hstop
    | dirRead => exact absurd hroot hstop
    | _ => exact hstop.elim
  | ok x =>
    obtain ⟨r, s'⟩ := x
    obtain ⟨-, hd, hr⟩ := hwalk.ok hrun
    refine .inl ⟨r, s', rfl, ?_⟩
    cases r with
    | none =>
      obtain ⟨hh, hnone⟩ := hr
      refine ⟨⟨hd, fun ip => ?_, hh.inum, fun ip => ?_⟩, ?_, ?_⟩
      · rw [hh.ref]
        rfl
      · rw [hh.locked, decide_eq_false List.not_mem_nil, Bool.or_false]
      · rintro rfl
        rw [walk_false, Option.map_eq_none_iff] at hnone
        exact hnone.symm
      · rintro rfl
        rw [walk_true] at hnone
        exact hnone.symm
    | some x =>
      obtain ⟨jp, name⟩ := x
      obtain ⟨j, hh, hsome⟩ := hr
      have hj : (s'.tab jp).inum = j := hh.inum_head
      refine ⟨⟨hd, fun ip => ?_, hh.inum, fun ip => ?_⟩, ?_, ?_⟩
      · rw [hh.ref, List.map_cons, List.map_nil, List.count_singleton]
        simp
      · rw [hh.locked, decide_eq_false List.not_mem_nil, Bool.or_false]
      · rintro rfl
        rw [walk_false, Option.map_eq_some_iff] at hsome
        obtain ⟨j', hj', heq⟩ := hsome
        rw [hj', Option.map_some, hj, (Prod.mk.inj heq).1]
      · rintro rfl
        rw [walk_true] at hsome
        rw [hsome, Option.map_some, hj]

/-! ## A root directory -/

/-- A process has the root directory, with the inode `d`, as its working directory. -/
def cwdTable (d : Dinode) (ip : Fin NINODE) : Inode :=
  if ip = smallEntry then ⟨1, 1, true, false, d⟩ else ⟨0, 0, false, false, .fresh .none⟩

theorem tab_cwd {d : Dinode} (h : s.itable = cwdTable d) (ip : Fin NINODE) :
    s.tab ip = if ip = smallEntry then ⟨1, 1, true, false⟩ else ⟨0, 0, false, false⟩ := by
  rw [Fs.tab, h, cwdTable]
  split <;> rfl

theorem ref_cwd {d : Dinode} (h : s.itable = cwdTable d) {ip : Fin NINODE}
    (hp : 0 < (s.tab ip).ref) : ip = smallEntry := by
  by_contra hne
  rw [tab_cwd h, if_neg hne] at hp
  cases hp

/-- The inode of the working directory is the only one in memory. -/
theorem Fs.Inv.of_cwd (h : s.itable = cwdTable (s.dinode 1)) (hL : 1 < L.ninodes)
    (ht : (s.dinode 1).type ≠ .none) (hmarked : Marked L s.dinode s.bitmap s.data)
    (hgood : ∀ {i}, i < L.ninodes → (s.dinode i).type ≠ .none → (s.dinode i).Good s.data L) :
    s.Inv L where
  table := by
    refine ⟨fun h1 h2 _ => (ref_cwd h h1).trans (ref_cwd h h2).symm, fun h1 => ?_, fun hl => ?_⟩
    · rw [tab_cwd h, if_pos (ref_cwd h h1)]
      exact hL
    · rw [tab_cwd h] at hl
      split at hl <;> cases hl
  sync {ip} h1 _ := by
    rw [tab_cwd h, h, cwdTable, if_pos (ref_cwd h h1), if_pos (ref_cwd h h1)]
    exact ⟨rfl, ht⟩
  marked := hmarked
  good := hgood

/-- Blocks 3 and on are data blocks. -/
def rootLayout (size : Fin 8192) : FsLayout where
  logstart := 0
  nlog := 1
  size := size
  ninodes := 4
  inodestart := 1
  bmapstart := 2
  size_lt := by omega
  pos := Nat.one_pos

/-- The names "." and "..", in block 3. -/
def rootInode : Dinode := ⟨.dir, 0, 0, 1, 32, fun n => if n = 0 then 3 else 0⟩

/-- There is only the root directory. A process has it as its working directory, at
`smallEntry`. -/
def rootFs : Fs where
  bitmap b := b < 4
  dinode i := if i = 1 then rootInode else .fresh .none
  data _ k := if k < 16 then dirent 1 dot k else if k < 32 then dirent 1 dotdot (k - 16) else 0
  itable ip :=
    if ip = smallEntry then ⟨1, 1, true, false, rootInode⟩ else ⟨0, 0, false, false, .fresh .none⟩
  logged := []

section Root

variable {size : Fin 8192}

theorem rootFs_dinode {i : ℕ} (h : (rootFs.dinode i).type ≠ .none) : i = 1 := by
  by_contra hi
  exact h (congrArg Dinode.type (if_neg hi))

theorem rootFs_datastart : (rootLayout size).datastart = 3 := by
  have : size.val / 8192 = 0 := Nat.div_eq_of_lt size.isLt
  show 2 + (size.val / 8192 + 1) = 3
  rw [this]

theorem rootFs_inv (h : 4 ≤ size.val) : rootFs.Inv (rootLayout size) := by
  refine .of_cwd rfl (show 1 < 4 by decide) (by decide)
    (marked_one rfl (by decide) (show 1 < 4 by decide) rootFs_datastart h) fun {i} _ ht => ?_
  obtain rfl := rootFs_dinode ht
  refine ⟨fun bn hbn => ?_, fun _ k hk => ?_⟩
  · have hbn : bn * 1024 < 32 := hbn
    obtain rfl : bn = 0 := by omega
    decide
  · have hk : (k + 1) * 16 ≤ 32 := hk
    have hk : k = 0 ∨ k = 1 := by omega
    show Dinode.inumAt rootFs.data (rootFs.dinode 1) (k * DIRENT) < 4
    rcases hk with rfl | rfl
    · decide
    · decide

theorem rootFs_nodes {i : ℕ} {n : Node} (h : rootFs.nodes (rootLayout size) i = some n) :
    i = 1 ∧ n.nlink = 1 := by
  obtain ⟨ht, rfl⟩ := dinode_of_nodes h
  obtain rfl := rootFs_dinode ht
  exact ⟨rfl, rfl⟩

theorem rootFs_tidy (h : 4 ≤ size.val) : Tidy (rootLayout size) rootFs where
  inv := rootFs_inv h
  orphan := by
    rintro i ⟨n, hn, h0⟩
    rw [(rootFs_nodes hn).2] at h0
    cases h0

theorem rootFs_rooted : Closed (rootFs.nodes (rootLayout size)) := by
  have hone : rootFs.nodes (rootLayout size) 1 ≠ none := by
    simp [Fs.nodes, rootLayout, rootFs, Dinode.node, rootInode]
  refine ⟨hone, fun {i n e} hn he _ => ?_, fun hn _ => ?_⟩
  · obtain ⟨ht, rfl⟩ := dinode_of_nodes hn
    obtain rfl := rootFs_dinode ht
    have hinums : ((rootFs.dinode 1).ents rootFs.data).map Entry.inum = [1, 1] := by decide
    have he1 : e.inum ∈ ((rootFs.dinode 1).ents rootFs.data).map Entry.inum :=
      List.mem_map_of_mem he
    rw [hinums] at he1
    rwa [show e.inum = 1 by simpa using he1]
  · obtain ⟨ht, rfl⟩ := dinode_of_nodes hn
    obtain rfl := rootFs_dinode ht
    rfl

/-- The path "/../." in a file system with only the root directory. -/
theorem namex_resolves_root : ∃ x s',
    alone (rootLayout 8) (namex smallEntry [47, 46, 46, 47, 46] false) rootFs =
      .ok (some x, s') ∧ (s'.tab x.1).inum = 1 := by
  have htidy : Tidy (rootLayout 8) rootFs := rootFs_tidy (by decide)
  have hlocks : ∀ ip, (rootFs.tab ip).locked = false := fun ip => by
    by_contra h
    have hpos := (htidy.inv.table.locked (Bool.eq_true_of_not_eq_false h)).1
    rw [ref_cwd (d := rootInode) rfl hpos] at h
    exact h rfl
  have hcwd : 0 < (rootFs.tab smallEntry).ref := by decide
  rcases namex_resolves htidy rootFs_rooted hlocks hcwd rootFs_rooted.root with h | ⟨-, h⟩
  · obtain ⟨r, s', hrun, -, hr, -⟩ := h
    have hone : resolve (rootFs.nodes (rootLayout 8)) (start rootFs smallEntry [47, 46, 46, 47, 46])
        (components [47, 46, 46, 47, 46]) = some 1 := by decide
    obtain ⟨x, rfl, hx⟩ := Option.map_eq_some_iff.mp ((hr rfl).trans hone)
    exact ⟨x, s', hrun, hx⟩
  · exact absurd (h ⟨2, by decide⟩ ⟨3, by decide⟩ rfl rfl) (by decide)

end Root

end Xv6
