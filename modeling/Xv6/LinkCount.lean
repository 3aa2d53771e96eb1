import Xv6.MkfsSpec
import Xv6.SysAtomic

/-!
# Numbers of links

An entry counts for the inode it names unless its name is "." or "..", and an entry that names a
directory counts for the directory that it is in too, which is what ".." stands for. A number of
links that is not smaller than what counts for the inode stays so over `link` and `unlink`
(`Counts.link`, `Counts.unlink`), and then `unlink` finds no inode without links. `nlink` is a
`short`, so this holds only as long as no link is made to an inode with 32767 links
(`links_counted`). A file system of 2000 blocks has room for one name more than that
(`link_overflows`).
-/

namespace Xv6

open Function Prog Fs

/-! ## Names -/

/-- Names that compare as equal compare alike with a third one. -/
theorem strncmp_left {p q r : Bytes} : ∀ {n i : ℕ}, strncmp p q n i = 0 →
    strncmp p r n i = strncmp q r n i
  | 0, _, _ => rfl
  | n + 1, i, h => by
    rw [strncmp] at h
    rw [strncmp, strncmp]
    by_cases hpq : p i = q i
    · by_cases h0 : p i ≠ 0
      · rw [if_pos ⟨h0, hpq⟩] at h
        rw [← hpq, strncmp_left h]
      · rw [if_neg fun hc => h0 hc.1, if_neg fun hc => h0 (hpq ▸ hc.1), hpq]
    · rw [if_neg fun hc => hpq hc.2] at h
      have : (p i).toNat = (q i).toNat := by omega
      exact absurd (UInt8.toNat_inj.mp this) hpq

/-- The entry is in use, and its name is not "." or "..". -/
def Entry.Counts (e : Entry) : Prop :=
  e.inum ≠ 0 ∧ namecmp e.name dot ≠ 0 ∧ namecmp e.name dotdot ≠ 0

instance : DecidablePred Entry.Counts := fun _ => inferInstanceAs (Decidable (_ ∧ _ ∧ _))

theorem Fs.Found.counts {m : Node} {name : Bytes} {off : ℕ} {e : Entry} (h : Found m name off e)
    (hdot : namecmp name dot ≠ 0) (hdotdot : namecmp name dotdot ≠ 0) : e.Counts := by
  obtain ⟨-, -, -, hpos, hcmp⟩ := h
  have hleft : ∀ t, namecmp e.name t = namecmp name t := fun t => (strncmp_left hcmp).symm
  exact ⟨hpos, by rwa [hleft], by rwa [hleft]⟩

/-! ## Counting entries -/

variable {p : Entry → Bool} {l : List Entry} {k : ℕ} {e e₀ : Entry} {name : Bytes}

theorem countP_putEntry (h : l[k]? = some e₀) :
    (putEntry l k e).countP p + (if p e₀ then 1 else 0) =
      l.countP p + (if p e then 1 else 0) := by
  obtain ⟨hk, rfl⟩ := List.getElem?_eq_some_iff.mp h
  have hl : l.countP p = (l.take k ++ l[k] :: l.drop (k + 1)).countP p := by
    rw [List.cons_getElem_drop_succ, List.take_append_drop]
  rw [hl, putEntry, List.countP_append, List.countP_append, List.countP_cons, List.countP_cons]
  omega

/-- An entry that is put in a vacant place takes the place of none that counts. -/
theorem countP_vacant {m : Node} (h : Vacant m k) (hp : ∀ e, e.inum = 0 → p e = false) :
    (putEntry m.ents k e).countP p = m.ents.countP p + (if p e then 1 else 0) := by
  rcases h with ⟨e₀, he₀, h0⟩ | rfl
  · have := countP_putEntry (p := p) (e := e) he₀
    rw [hp e₀ h0] at this
    simpa using this
  · rw [putEntry, List.take_length, List.drop_eq_nil_of_le (Nat.le_succ _), List.countP_append,
      List.countP_cons, List.countP_nil, Nat.zero_add]

/-- The inodes of a file system, `none` for a free one. -/
abbrev Nodes := ℕ → Option Node

/-- How many entries of the directory count for `i`. -/
def Node.names (n : Node) (i : ℕ) : ℕ := n.ents.countP fun e => e.Counts ∧ e.inum = i

namespace Nodes

variable (M : ℕ) (N : Nodes)

/-- How many entries count for `i`, for `M` inodes. -/
def names (i : ℕ) : ℕ := ∑ j ∈ Finset.range M, (N j).elim 0 fun n => n.names i

def IsDir (i : ℕ) : Prop := (N i).map Node.type = some .dir

instance : DecidablePred (IsDir N) := fun _ => inferInstanceAs (Decidable (_ = _))

/-- How many entries of the directory name directories. -/
def subdirs (n : Node) : ℕ := n.ents.countP fun e => e.Counts ∧ IsDir N e.inum

/-- No number of links is too small. -/
def Counts : Prop := ∀ i n, N i = some n → (names M N i + subdirs N n : ℤ) ≤ n.nlink

variable {M N} {N' : Nodes} {i j t : ℕ} {n m : Node} {x y : Option Node}

theorem names_update (hi : i < M) : names M (update N i x) t + ((N i).elim 0 fun n => n.names t) =
    names M N t + (x.elim 0 fun n => n.names t) :=
  Machine.sum_update_add_of_mem (fun o : Option Node => o.elim 0 fun n => n.names t) N
    (Finset.mem_range.mpr hi) x

/-- A node may be freed, or keep its type. -/
theorem IsDir.of_update (hi : N i = some n) (hx : x = none ∨ ∃ n', x = some n' ∧ n'.type = n.type)
    (h : IsDir (update N i x) t) : IsDir N t := by
  unfold IsDir at h ⊢
  by_cases ht : t = i
  · subst ht
    rw [update_self] at h
    rcases hx with rfl | ⟨n', rfl, htype⟩
    · cases h
    · rw [hi, Option.map_some, ← htype]
      exact h
  · rwa [update_of_ne ht] at h

theorem subdirs_mono (h : ∀ t, IsDir N' t → IsDir N t) (n : Node) : subdirs N' n ≤ subdirs N n := by
  refine List.countP_mono_left fun e _ he => ?_
  simp only [decide_eq_true_eq] at he ⊢
  exact ⟨he.1, h _ he.2⟩

theorem names_eq_zero_of_free {e : Entry} (h : e.inum = 0) (q : Prop) [Decidable q] :
    decide (e.Counts ∧ q) = false := decide_eq_false fun hc => hc.1.1 h

/-- A node gets at most `a` names of `i` more, and links for its new subdirectories ; the links of
`i` change by `a`. Each of the two may be freed. -/
theorem Counts.change {m' : Node} {a v : ℤ} (h : Counts M N) (hi : N i = some n) (hiM : i < M)
    (hj : N j = some m) (hjM : j < M) (hij : i ≠ j) (hx : x = none ∨ x = some m')
    (hy : y = none ∨ y = some { n with nlink := v }) (htype : m'.type = m.type)
    (hnames : ∀ t, (m'.names t : ℤ) ≤ m.names t + if t = i then a else 0)
    (hsub : subdirs N m' + m.nlink ≤ subdirs N m + m'.nlink) (hv : n.nlink + a ≤ v) :
    Counts M (update (update N j x) i y) := by
  have hi' : update N j x i = some n := by rw [update_of_ne hij, hi]
  have hkeeps : ∀ t, IsDir (update (update N j x) i y) t → IsDir N t := fun t ht =>
    IsDir.of_update hj (hx.imp_right fun hx => ⟨m', hx, htype⟩)
      (IsDir.of_update hi' (hy.imp_right fun hy => ⟨{ n with nlink := v }, hy, rfl⟩) ht)
  have hle : ∀ t, (names M (update (update N j x) i y) t : ℤ) ≤
      names M N t + if t = i then a else 0 := by
    intro t
    have h₁ := names_update (N := N) (t := t) (x := x) hjM
    have h₂ := names_update (N := update N j x) (t := t) (x := y) hiM
    have hxle : (x.elim 0 fun n => n.names t) ≤ m'.names t := by
      rcases hx with rfl | rfl
      · exact Nat.zero_le _
      · exact le_rfl
    have hyle : (y.elim 0 fun n => n.names t) ≤ n.names t := by
      rcases hy with rfl | rfl
      · exact Nat.zero_le _
      · exact le_rfl
    have ht := hnames t
    rw [hi'] at h₂
    rw [hj] at h₁
    simp only [Option.elim_some] at h₁ h₂
    omega
  intro t u hu
  have ht := hle t
  have hmono := subdirs_mono hkeeps u
  by_cases hti : t = i
  · rw [hti, update_self] at hu
    rcases hy with rfl | rfl <;> cases hu
    have hcount := h i n hi
    have hsame : subdirs N { n with nlink := v } = subdirs N n := rfl
    rw [hti, if_pos rfl] at ht
    rw [hti]
    dsimp only
    omega
  rw [update_of_ne hti] at hu
  rw [if_neg hti] at ht
  by_cases htj : t = j
  · rw [htj, update_self] at hu
    rcases hx with rfl | rfl <;> cases hu
    have hcount := h j m hj
    rw [htj] at ht ⊢
    omega
  · rw [update_of_ne htj] at hu
    have hcount := h t u hu
    omega

/-- A new name for a file, and one link more. -/
theorem Counts.link (h : Counts M N) (hM : M ≤ 2 ^ 16) (hi : N i = some n) (hiM : i < M)
    (hdir : n.type ≠ .dir) (hj : N j = some m) (hjM : j < M) (hmdir : m.type = .dir)
    (hvac : Vacant m k) (hn : 0 ≤ n.nlink ∧ n.nlink < 2 ^ 15 - 1) :
    Counts M (update (update N i (some { n with nlink := short (n.nlink + 1) })) j
      (some { m with ents := putEntry m.ents k (dirent i name).entry })) := by
  have hij : i ≠ j := by
    rintro rfl
    obtain rfl := Option.some.inj (hi.symm.trans hj)
    exact hdir hmdir
  have hshort : n.nlink + 1 ≤ short (n.nlink + 1) := by
    unfold short
    omega
  have hinum : (dirent i name).entry.inum = i := by
    show (dirent i name).inum = i
    rw [dirent_inum]
    omega
  have hnotdir : ¬ IsDir N i := by
    rw [IsDir, hi]
    exact fun hd => hdir (Option.some.inj hd)
  rw [update_comm hij]
  refine h.change (a := 1) hi hiM hj hjM hij (.inr rfl) (.inr rfl) rfl (fun t => ?_) (le_of_eq ?_)
    hshort
  · rw [Node.names, countP_vacant hvac fun e he => names_eq_zero_of_free he _, hinum, Node.names]
    by_cases ht : t = i
    · simp only [ht]
      split <;> simp
    · simp [ht, Ne.symm ht]
  · rw [subdirs, countP_vacant hvac fun e he => names_eq_zero_of_free he _, hinum,
      if_neg (by simp [hnotdir])]
    rfl

theorem one_le_names (hj : N j = some m) (hjM : j < M) (hget : m.ents[k]? = some e)
    (he : e.Counts) : 1 ≤ names M N e.inum := by
  have hle : ((N j).elim 0 fun n => n.names e.inum) ≤ names M N e.inum :=
    Finset.single_le_sum (f := fun j => (N j).elim 0 fun n => n.names e.inum)
      (fun _ _ => Nat.zero_le _) (Finset.mem_range.mpr hjM)
  have hpos : 0 < m.names e.inum :=
    List.countP_pos_iff.mpr ⟨e, List.mem_of_getElem? hget, by simpa using he⟩
  rw [hj] at hle
  exact le_trans hpos hle

theorem one_le_subdirs (hget : m.ents[k]? = some e) (he : e.Counts) (hd : IsDir N e.inum) :
    1 ≤ subdirs N m :=
  List.countP_pos_iff.mpr ⟨e, List.mem_of_getElem? hget, by simpa using ⟨he, hd⟩⟩

/-- A name and a link less. A directory that loses a subdirectory loses a link as well. -/
theorem Counts.unlink (h : Counts M N) (hj : N j = some m) (hjM : j < M)
    (hget : m.ents[k]? = some e) (he : e.Counts) (hi : N e.inum = some n) (hiM : e.inum < M)
    (hij : e.inum ≠ j) (hn : n.nlink < 2 ^ 15) (hm : m.nlink < 2 ^ 15)
    (hx : x = none ∨ x = some { m with
      ents := putEntry m.ents k (Bytes.entry fun _ => 0)
      nlink := if n.type = .dir then short (m.nlink + -1) else m.nlink })
    (hy : y = none ∨ y = some { n with nlink := short (n.nlink + -1) }) :
    Counts M (update (update N j x) e.inum y) := by
  have hisdir : IsDir N e.inum ↔ n.type = .dir := by
    rw [IsDir, hi, Option.map_some, Option.some.injEq]
  have hshort : n.nlink + -1 ≤ short (n.nlink + -1) := by
    have := h e.inum n hi
    have := one_le_names hj hjM hget he
    unfold short
    omega
  -- the cleared entry counts for nothing
  have hcleared : ∀ (q : Entry → Prop) [DecidablePred q],
      (putEntry m.ents k (Bytes.entry fun _ => 0)).countP (fun e => decide (e.Counts ∧ q e)) +
        (if q e then 1 else 0) = m.ents.countP fun e => decide (e.Counts ∧ q e) := by
    intro q _
    have := countP_putEntry (p := fun e => decide (e.Counts ∧ q e))
      (e := Bytes.entry fun _ => 0) hget
    have hzero : (Bytes.entry fun _ => 0).inum = 0 := rfl
    rw [names_eq_zero_of_free hzero] at this
    simpa [he] using this
  refine h.change (a := -1) hi hiM hj hjM hij hx hy rfl (fun t => ?_) ?_ hshort
  · have ht := hcleared fun e => e.inum = t
    rw [Node.names, Node.names, ← ht]
    by_cases hte : t = e.inum
    · simp [hte]
    · simp [hte, Ne.symm hte]
  · have hd := hcleared fun e => IsDir N e.inum
    rw [subdirs, subdirs, ← hd]
    simp only [hisdir]
    by_cases hdir : n.type = .dir
    · have := h j m hj
      have := one_le_subdirs hget he (hisdir.mpr hdir)
      simp only [if_pos hdir, short]
      omega
    · simp only [if_neg hdir]
      omega

end Nodes

/-! ## Runs of `link` and `unlink` -/

/-- A call of a process with its working directory at `cwd`. -/
inductive LinkCall
  | sys_link (cwd : Fin NINODE) (old new : List UInt8)
  | sys_unlink (cwd : Fin NINODE) (path : List UInt8)

namespace LinkCall

variable (L : FsLayout)

def prog : LinkCall → Sys ℤ
  | .sys_link cwd old new => Sys.link cwd old new
  | .sys_unlink cwd path => Sys.unlink cwd path

/-- A call that stops with an error has no step. -/
def step (s : Fs) (c : LinkCall) : Option Fs :=
  match Sys.alone L c.prog s with
  | .ok (_, s') => some s'
  | .error _ => none

/-- The process has a reference to its working directory, and `old` does not name an inode with
32767 links. -/
def Fits (s : Fs) : LinkCall → Prop
  | .sys_link cwd old _ => 0 < (s.tab cwd).ref ∧ ∀ ip s₁ n,
      Sys.alone L (Sys.namei cwd old) s = .ok (some ip, s₁) →
        s.nodes L (s₁.tab ip).inum = some n → n.nlink < 2 ^ 15 - 1
  | .sys_unlink cwd _ => 0 < (s.tab cwd).ref

end LinkCall

namespace Fs

variable {L : FsLayout} {s s' : Fs} {i : ℕ} {n : Node}

/-- What holds throughout. -/
structure Linked (L : FsLayout) (s : Fs) : Prop extends Settled L s where
  counts : Nodes.Counts L.ninodes (s.nodes L)

theorem Linked.same (h : Linked L s) (hi : s'.Inv L) (hh : Holding s [] [] s')
    (ht : s.SameTree L s') : Linked L s' where
  toTidy := h.toTidy.held hi hh fun _ ho => by rwa [Orphan, ht.nodes] at ho
  root := h.root
  nlink := by
    rw [ht.nodes]
    exact h.nlink
  counts := by
    rw [ht.nodes]
    exact h.counts

theorem Linked.newLink (h : Linked L s) (hL : L.ninodes ≤ 2 ^ 16) (hi : s'.Inv L)
    (hh : Holding s [] [] s') (hnew : NewLink L s i s')
    (hmax : ∀ n, s.nodes L i = some n → n.nlink < 2 ^ 15 - 1) : Linked L s' := by
  obtain ⟨n, j, m, name, k, hn, hdir, hm, hmdir, hvac, hnodes⟩ := hnew
  have hlinks := h.nlink hn
  have hlt := hmax n hn
  have hshort : short (n.nlink + 1) = n.nlink + 1 := by
    unfold short
    omega
  have hij : j ≠ i := by
    rintro rfl
    obtain rfl := Option.some.inj (hn.symm.trans hm)
    exact hdir hmdir
  -- one node has a link more, the other has the links it had
  have hcase : ∀ {t u}, s'.nodes L t = some u → (t = i ∧ u.nlink = n.nlink + 1) ∨
      ∃ u', s.nodes L t = some u' ∧ u.nlink = u'.nlink := by
    intro t u hu
    rw [hnodes] at hu
    by_cases htj : t = j
    · rw [htj, update_self] at hu
      exact .inr ⟨m, htj ▸ hm, by rw [← Option.some.inj hu]⟩
    · rw [update_of_ne htj] at hu
      by_cases hti : t = i
      · rw [hti, update_self] at hu
        refine .inl ⟨hti, ?_⟩
        rw [← Option.some.inj hu]
        exact hshort
      · rw [update_of_ne hti] at hu
        exact .inr ⟨u, hu, rfl⟩
  refine ⟨⟨h.toTidy.held hi hh ?_, h.root, fun hu => ?_⟩, ?_⟩
  · rintro t ⟨u, hu, h0⟩
    rcases hcase hu with ⟨-, hlk⟩ | ⟨u', hu', hlk⟩
    · omega
    · exact ⟨u', hu', hlk.symm.trans h0⟩
  · rcases hcase hu with ⟨-, hlk⟩ | ⟨u', hu', hlk⟩
    · omega
    · rw [hlk]
      exact h.nlink hu'
  · rw [hnodes]
    exact h.counts.link hL hn (lt_of_nodes hn) hdir hm (lt_of_nodes hm) hmdir hvac ⟨hlinks.1, hlt⟩

theorem Linked.unlinked (h : Linked L s) (ht : Tidy L s') (hun : Unlinked L s s') :
    Linked L s' := by
  obtain ⟨j, m, k, e, n, name, x, y, hm, hmdir, hf, hdot, hdotdot, hne, hn, h1, hx, hy, hnodes⟩ :=
    hun
  have hcounts := hf.counts hdot hdotdot
  obtain ⟨k', hk', hget, -, -⟩ := hf
  obtain rfl : k = k' := Nat.eq_of_mul_eq_mul_right (by decide) hk'
  have hml := h.nlink hm
  have hnl := h.nlink hn
  refine ⟨⟨ht, h.root, fun {t u} hu => ?_⟩, ?_⟩
  · rw [hnodes] at hu
    by_cases hti : t = e.inum
    · rw [hti, update_self] at hu
      rcases hy with rfl | rfl
      · cases hu
      · rw [← Option.some.inj hu]
        simp only [short]
        omega
    · rw [update_of_ne hti] at hu
      by_cases htj : t = j
      · rw [htj, update_self] at hu
        rcases hx with rfl | rfl
        · cases hu
        · rw [← Option.some.inj hu]
          by_cases hd : n.type = .dir
          · have hcount := h.counts j m hm
            have hsub := Nodes.one_le_subdirs (N := s.nodes L) hget hcounts (by
              rw [Nodes.IsDir, hn, Option.map_some, hd])
            simp only [if_pos hd, short]
            omega
          · simpa only [if_neg hd] using hml
      · rw [update_of_ne htj] at hu
        exact h.nlink hu
  · rw [hnodes]
    exact h.counts.unlink hm (lt_of_nodes hm) hget hcounts hn (lt_of_nodes hn) hne hnl.2 hml.2 hx hy

/-- `unlink` finds no inode without links. -/
theorem Linked.no_panic (h : Linked L s) {j : ℕ} {m : Node} {off : ℕ} {e : Entry}
    (hm : s.nodes L j = some m) (hf : Found m name off e) (hdot : namecmp name dot ≠ 0)
    (hdotdot : namecmp name dotdot ≠ 0) (hn : s.nodes L e.inum = some n) : ¬ n.nlink < 1 := by
  have hcounts := hf.counts hdot hdotdot
  obtain ⟨k, -, hget, -, -⟩ := hf
  have h1 := Nodes.one_le_names (N := s.nodes L) hm (lt_of_nodes hm) hget hcounts
  have h2 := h.counts e.inum n hn
  omega

end Fs

open Sys

variable {L : FsLayout} {s₀ s s' : Fs} {cwd : Fin NINODE}

theorem link_linked (hL : L.ninodes ≤ 2 ^ 16) (h : Linked L s) {old new : List UInt8} {v : ℤ}
    (hfits : (LinkCall.sys_link cwd old new).Fits L s)
    (hrun : alone L (link cwd old new) s = .ok (v, s')) :
    Linked L s' ∧ (v = 0 → ∃ ip s₁ n n', alone L (namei cwd old) s = .ok (some ip, s₁) ∧
      s.nodes L (s₁.tab ip).inum = some n ∧ s'.nodes L (s₁.tab ip).inum = some n' ∧
      n.nlink < n'.nlink) := by
  have hE : ∀ e : FsPanic, e ≠ .nlink → True := fun _ _ => trivial
  obtain ⟨rfl, hs⟩ | ⟨rfl, hi, hh, ip, s₁, hnamei, hnew⟩ :=
    (link_alone hE h.toSettled hfits.1).ok hrun
  · exact ⟨h.same hs.inv hs.holding hs.tree, fun h0 => absurd h0 (by decide)⟩
  · have hmax := fun n hn => hfits.2 ip s₁ n hnamei hn
    refine ⟨h.newLink hL hi hh hnew hmax, fun _ => ?_⟩
    obtain ⟨n, j, m, name, k, hn, hdir, hm, hmdir, -, hnodes⟩ := hnew
    have hij : (s₁.tab ip).inum ≠ j := by
      intro heq
      rw [heq, hm] at hn
      obtain rfl := Option.some.inj hn
      exact hdir hmdir
    refine ⟨ip, s₁, n, _, hnamei, hn, by rw [hnodes, update_of_ne hij, update_self], ?_⟩
    have hlt := hmax n hn
    have h0 := h.nlink hn
    simp only [short]
    omega

theorem unlink_linked (h : Linked L s) (hcwd : 0 < (s.tab cwd).ref) {path : List UInt8} :
    wp (· ≠ .nlink) (alone L (unlink cwd path)) (fun _ s' => Linked L s') s := by
  refine (unlink_alone (fun _ he => he) h.toSettled hcwd ?_).mono ?_
  · intro j m name off e n hm _ hf hdot hdotdot hn hlt
    exact absurd hlt (h.no_panic hm hf hdot hdotdot hn)
  · rintro v s' (⟨-, hs⟩ | ⟨-, ht, -, hun⟩)
    · exact h.same hs.inv hs.holding hs.tree
    · exact h.unlinked ht hun

theorem Fs.Linked.reach (hL : L.ninodes ≤ 2 ^ 16) (h₀ : Linked L s₀)
    (h : Machine.Reach (LinkCall.step L) (LinkCall.Fits L) s₀ s) : Linked L s := by
  refine h.invariant h₀ ?_
  intro s c s' hs hfits hstep
  unfold LinkCall.step at hstep
  split at hstep
  · rename_i v t hrun
    cases hstep
    cases c with
    | sys_link cwd old new => exact (link_linked hL hs hfits hrun).1
    | sys_unlink cwd path => exact (unlink_linked hs hfits).ok hrun
  · cases hstep

/-- As long as no link is made to an inode with 32767 links, `link` makes the number of links
larger and `unlink` finds none below one. -/
theorem links_counted (hL : L.ninodes ≤ 2 ^ 16) (h₀ : Linked L s₀)
    (h : Machine.Reach (LinkCall.step L) (LinkCall.Fits L) s₀ s) :
    (∀ cwd old new s', (LinkCall.sys_link cwd old new).Fits L s →
      alone L (link cwd old new) s = .ok (0, s') → ∃ ip s₁ n n',
        alone L (namei cwd old) s = .ok (some ip, s₁) ∧ s.nodes L (s₁.tab ip).inum = some n ∧
        s'.nodes L (s₁.tab ip).inum = some n' ∧ n.nlink < n'.nlink) ∧
    ∀ cwd path, 0 < (s.tab cwd).ref → alone L (unlink cwd path) s ≠ .error .nlink := by
  have hs := h₀.reach hL h
  refine ⟨fun cwd old new s' hfits hrun => (link_linked hL hs hfits hrun).2 rfl, ?_⟩
  exact fun cwd path hcwd herr => (unlink_linked hs hcwd).error herr rfl

/-! ## Directories in consecutive blocks -/

/-- Slot `n` of a directory with the entries `e` that has its blocks from `base` on. -/
def denseBlock (base : ℕ) (e : ℕ → Bytes) (n : ℕ) : Bytes :=
  if n = NDIRECT then fun o => UInt8.ofNat ((base + NDIRECT + 1 + o / 4) / 2 ^ (8 * (o % 4)))
  else fun o => e ((if n < NDIRECT then n else n - 1) * 64 + o / DIRENT) (o % DIRENT)

/-- The directory has all the blocks that a file may have, one after the other. -/
structure Dinode.Dense (d : Dinode) (data : ℕ → Bytes) (base : ℕ) (e : ℕ → Bytes) : Prop where
  addrs : ∀ n, d.addrs n = base + n
  blocks : ∀ n ≤ NDIRECT + NINDIRECT, data (base + n) = denseBlock base e n
  pos : 0 < base
  small : base < 2 ^ 16

section Dense

variable {d : Dinode} {data : ℕ → Bytes} {base : ℕ} {e : ℕ → Bytes}

theorem Dinode.Dense.slot (h : d.Dense data base e) {n : ℕ} :
    d.slot data n = if n ≤ NDIRECT + NINDIRECT then base + n else 0 := by
  have hpos := h.pos
  unfold Dinode.slot
  by_cases hn : n ≤ NDIRECT
  · rw [if_pos hn, if_pos (hn.trans (by decide)), h.addrs]
  rw [if_neg hn, h.addrs, h.blocks NDIRECT (by decide), denseBlock, if_pos rfl]
  by_cases hle : n ≤ NDIRECT + NINDIRECT
  · have hword : base + NDIRECT + 1 + (n - NDIRECT - 1) < 2 ^ 32 := by
      have := h.small
      unfold NDIRECT NINDIRECT at *
      omega
    rw [if_pos ⟨hle, by omega⟩, if_pos hle, Bytes.word_ofNat (w := fun j => base + NDIRECT + 1 + j)
      hword]
    omega
  · rw [if_neg fun hc => hle hc.1, if_neg hle]

theorem Dinode.Dense.entryAt (h : d.Dense data base e) {k : ℕ} (hk : k < MAXFILE * 64) :
    d.entryAt data (k * DIRENT) = (e k).entry := by
  refine Dinode.entryAt_eq fun j hj => ?_
  generalize hbn : (k * DIRENT + j) / BSIZE = bn
  have hent : bn * 64 + (k * DIRENT + j) % BSIZE / DIRENT = k := by
    unfold DIRENT BSIZE at *
    omega
  have hoff : (k * DIRENT + j) % BSIZE % DIRENT = j := by
    unfold DIRENT BSIZE at *
    omega
  have hlt : bn < MAXFILE := by
    unfold MAXFILE DIRENT NDIRECT NINDIRECT BSIZE at *
    omega
  have hindex : Dinode.index bn ≤ NDIRECT + NINDIRECT := by
    unfold Dinode.index MAXFILE at *
    split <;> omega
  have hback : (if Dinode.index bn < NDIRECT then Dinode.index bn else Dinode.index bn - 1) =
      bn := by
    unfold Dinode.index
    split_ifs <;> omega
  rw [Dinode.byteAt, hbn, Dinode.block, h.slot, if_pos hindex, h.blocks _ hindex, denseBlock,
    if_neg (Dinode.index_ne_indirect _), hback, hent, hoff]

variable {n : ℕ} (hsize : d.size = n * DIRENT) (hn : n ≤ MAXFILE * 64)

include hsize hn

theorem Dinode.Dense.ents (h : d.Dense data base e) (hd : d.type = .dir) :
    d.ents data = (List.range n).map fun k => (e k).entry := by
  rw [Dinode.ents_dir hd, hsize, Nat.mul_div_cancel n (by decide)]
  exact List.map_congr_left fun k hk => h.entryAt (by have := List.mem_range.mp hk; omega)

theorem Dinode.Dense.good (h : d.Dense data base e) {L : FsLayout}
    (he : ∀ k < n, (e k).entry.inum < L.ninodes) : d.Good data L := by
  refine ⟨fun bn hbn => ?_, fun _ k hk => ?_⟩
  · have hindex : Dinode.index bn ≤ NDIRECT + NINDIRECT := by
      rw [hsize] at hbn
      unfold Dinode.index MAXFILE NDIRECT NINDIRECT DIRENT BSIZE at *
      split <;> omega
    rw [Dinode.block, h.slot, if_pos hindex]
    have := h.pos
    omega
  · rw [hsize] at hk
    have hlt : k < n := Nat.le_of_mul_le_mul_right hk (by decide)
    exact lt_of_eq_of_lt (congrArg Entry.inum (h.entryAt (by omega))) (he k hlt)

end Dense

/-! ## A file with many names

A file system of 2000 blocks with the root directory, two directories and a file, inodes 1 to 4.
The entries of the root directory name the other three. All entries of directory 2 name the file,
and so do `c` entries of directory 3. With `c = 15616` the file has 32767 names. -/

/-- Four letters for each number. -/
def linkName (k : ℕ) : Bytes :=
  cstring ([k, k / 16, k / 256, k / 4096].map fun x => UInt8.ofNat (97 + x % 16))

/-- How many names directory `i` has. -/
def linkCount (c i : ℕ) : ℕ := if i = 1 then 3 else if i = 2 then 17150 else c

/-- Entry `k` of directory `i`. -/
def linkDirent (c i k : ℕ) : Bytes :=
  if k = 0 then dirent i dot
  else if k = 1 then dirent ROOTINO dotdot
  else if k < linkCount c i + 2 then dirent (if i = 1 then k else 4) (linkName k)
  else fun _ => 0

/-- How many entries directory `i` has. -/
def linkSize (i : ℕ) : ℕ := if i = 1 then 5 else 17152

def linkDinode (c i : ℕ) : Dinode :=
  if 1 ≤ i ∧ i ≤ 3 then
    ⟨.dir, 0, 0, if i = 1 then 3 else 1, linkSize i * DIRENT, fun n => 46 + 269 * (i - 1) + n⟩
  else if i = 4 then ⟨.file, 0, 0, 17150 + c + 1, 0, fun _ => 0⟩
  else .fresh .none

def linkData (c b : ℕ) : Bytes :=
  denseBlock (b - (b - 46) % 269) (linkDirent c ((b - 46) / 269 + 1)) ((b - 46) % 269)

/-- A process has the root as its working directory. -/
def linkFs (c : ℕ) : Fs where
  bitmap b := b < 853
  dinode := linkDinode c
  data := linkData c
  itable ip :=
    if ip = smallEntry then ⟨1, 1, true, false, linkDinode c 1⟩
    else ⟨0, 0, false, false, .fresh .none⟩
  logged := []

section Image

variable {c i : ℕ}

theorem linkDinode_dir (hi : 1 ≤ i ∧ i ≤ 3) : linkDinode c i =
    ⟨.dir, 0, 0, if i = 1 then 3 else 1, linkSize i * DIRENT, fun n => 46 + 269 * (i - 1) + n⟩ :=
  if_pos hi

theorem linkDinode_file : linkDinode c 4 = ⟨.file, 0, 0, 17150 + c + 1, 0, fun _ => 0⟩ := rfl

theorem linkDinode_type (h : (linkDinode c i).type ≠ .none) : (1 ≤ i ∧ i ≤ 3) ∨ i = 4 := by
  by_contra hi
  rw [not_or] at hi
  rw [linkDinode, if_neg hi.1, if_neg hi.2] at h
  exact h rfl

theorem linkDinode_dense (hi : 1 ≤ i ∧ i ≤ 3) :
    (linkDinode c i).Dense (linkData c) (46 + 269 * (i - 1)) (linkDirent c i) := by
  rw [linkDinode_dir hi]
  refine ⟨fun _ => rfl, fun n hn => ?_, by omega, by omega⟩
  unfold NDIRECT NINDIRECT at hn
  have hmod : (46 + 269 * (i - 1) + n - 46) % 269 = n := by omega
  have hdiv : (46 + 269 * (i - 1) + n - 46) / 269 + 1 = i := by omega
  rw [linkData, hmod, hdiv, Nat.add_sub_cancel]

/-- Which block is where. -/
theorem linkFs_places {k b : ℕ} :
    places conf2000.layout (linkFs c).dinode (linkFs c).data (i, k) = some b ↔
      (1 ≤ i ∧ i ≤ 3) ∧ k ≤ 268 ∧ b = 46 + 269 * (i - 1) + k := by
  have hslot : 1 ≤ i ∧ i ≤ 3 → (linkDinode c i).slot (linkData c) k =
      if k ≤ 268 then 46 + 269 * (i - 1) + k else 0 := fun hi => (linkDinode_dense hi).slot
  rw [places_eq_some]
  constructor
  · rintro ⟨-, ht, hne, hb⟩
    change (linkDinode c i).slot (linkData c) k = b at hb
    rcases linkDinode_type ht with hi | rfl
    · rw [hslot hi] at hb
      split at hb <;> omega
    · rw [linkDinode_file, Dinode.slot] at hb
      split at hb
      · exact absurd hb.symm hne
      · rw [if_neg (by simp)] at hb
        exact absurd hb.symm hne
  · rintro ⟨hi, hk, rfl⟩
    refine ⟨show i < 200 by omega, ?_, by omega, (hslot hi).trans (if_pos hk)⟩
    show (linkDinode c i).type ≠ .none
    simp [linkDinode_dir hi]

theorem linkFs_marked :
    Marked conf2000.layout (linkFs c).dinode (linkFs c).bitmap (linkFs c).data := by
  have hstart : conf2000.layout.datastart = 46 := by decide
  refine ⟨⟨?_, ?_, ?_⟩, fun b hb => ?_⟩
  · rintro ⟨i, k⟩ b h
    obtain ⟨hi, hk, rfl⟩ := linkFs_places.mp h
    exact ⟨by rw [hstart]; omega, show _ < 2000 by omega, decide_eq_true (by omega)⟩
  · rintro ⟨i, k⟩ ⟨i', k'⟩ b h h'
    have h := linkFs_places.mp h
    have h' := linkFs_places.mp h'
    rw [Prod.mk.injEq]
    omega
  · rintro b ⟨h1, -, h2⟩
    rw [hstart] at h1
    have h2 : b < 853 := of_decide_eq_true h2
    exact ⟨((b - 46) / 269 + 1, (b - 46) % 269), linkFs_places.mpr (by omega)⟩
  · rw [hstart] at hb
    exact decide_eq_true (by omega)

/-! The entries. -/

theorem linkDirent_inum {k : ℕ} (hi : 1 ≤ i ∧ i ≤ 3) : (linkDirent c i k).entry.inum =
    if k = 0 then i else if k = 1 then 1
    else if k < linkCount c i + 2 then if i = 1 then k else 4 else 0 := by
  show (linkDirent c i k).inum = _
  unfold linkDirent
  split
  · rw [dirent_inum]
    omega
  split
  · rw [dirent_inum]
    rfl
  split
  · rename_i hk
    rw [dirent_inum]
    split
    · rename_i h1
      rw [h1, linkCount, if_pos rfl] at hk
      omega
    · rfl
  · rfl

theorem namecmp_ne_of_first {p q : Bytes} (h : p 0 ≠ q 0) : namecmp p q ≠ 0 := by
  intro hcmp
  have hcmp : strncmp p q (13 + 1) 0 = 0 := hcmp
  rw [strncmp, if_neg fun hc => h hc.2] at hcmp
  exact h (UInt8.toNat_inj.mp (by omega))

theorem dirent_entry_name {inum : ℕ} :
    (dirent inum name).entry.name = fun k => if k < DIRSIZ then strncpy name k else 0 := by
  funext k
  show (if k < DIRSIZ then dirent inum name (2 + k) else 0) = _
  rw [Nat.add_comm]
  rfl

/-- The names of inodes are not "." or "..". -/
theorem linkDirent_counts {k : ℕ} (hi : 1 ≤ i ∧ i ≤ 3) :
    (linkDirent c i k).entry.Counts ↔ 2 ≤ k ∧ k < linkCount c i + 2 := by
  have hinum := linkDirent_inum (c := c) (k := k) hi
  by_cases hk : 2 ≤ k ∧ k < linkCount c i + 2
  · refine iff_of_true ?_ hk
    rw [if_neg (by omega), if_neg (by omega), if_pos hk.2] at hinum
    have hd : linkDirent c i k = dirent (if i = 1 then k else 4) (linkName k) := by
      rw [linkDirent, if_neg (by omega), if_neg (by omega), if_pos hk.2]
    have hfirst : (linkDirent c i k).entry.name 0 ≠ 46 := by
      rw [hd]
      show UInt8.ofNat (97 + k % 16) ≠ 46
      intro heq
      have := congrArg UInt8.toNat heq
      rw [UInt8.toNat_ofNat'] at this
      have h46 : (46 : UInt8).toNat = 46 := rfl
      omega
    exact ⟨by rw [hinum]; split <;> omega, namecmp_ne_of_first hfirst, namecmp_ne_of_first hfirst⟩
  · refine iff_of_false (fun hc => ?_) hk
    by_cases h0 : k = 0
    · rw [h0, linkDirent, if_pos rfl, Entry.Counts, dirent_entry_name] at hc
      exact absurd hc.2.1 (by decide)
    by_cases h1 : k = 1
    · rw [h1, linkDirent, if_neg one_ne_zero, if_pos rfl, Entry.Counts, dirent_entry_name] at hc
      exact absurd hc.2.2 (by decide)
    · rw [if_neg h0, if_neg h1, if_neg (by omega)] at hinum
      exact hc.1 hinum

theorem linkDinode_ents (hi : 1 ≤ i ∧ i ≤ 3) : (linkDinode c i).ents (linkData c) =
    (List.range (linkSize i)).map fun k => (linkDirent c i k).entry :=
  (linkDinode_dense hi).ents (by rw [linkDinode_dir hi])
    (by unfold linkSize MAXFILE NDIRECT NINDIRECT; split <;> omega) (by rw [linkDinode_dir hi])

theorem countP_between {c : ℕ} : ∀ {n : ℕ},
    (List.range n).countP (fun k => 2 ≤ k ∧ k < c + 2) = min (n - 2) c
  | 0 => by simp
  | n + 1 => by
    rw [List.range_succ, List.countP_append, countP_between, List.countP_cons, List.countP_nil]
    by_cases h : 2 ≤ n ∧ n < c + 2
    · simp only [h, and_self, decide_true, if_true]
      omega
    · simp only [h, decide_false, Bool.false_eq_true, if_false]
      omega

/-- The entries of directory `i` that count, by what they name. -/
theorem linkDinode_countP (hc : c ≤ 17150) (hi : 1 ≤ i ∧ i ≤ 3) (q : ℕ → Prop) [DecidablePred q] :
    ((linkDinode c i).ents (linkData c)).countP (fun e => e.Counts ∧ q e.inum) =
      if i = 1 then (if q 2 then 1 else 0) + (if q 3 then 1 else 0) + (if q 4 then 1 else 0)
      else if q 4 then linkCount c i else 0 := by
  have hents : ((linkDinode c i).ents (linkData c)).countP (fun e => e.Counts ∧ q e.inum) =
      (List.range (linkSize i)).countP fun k =>
        (2 ≤ k ∧ k < linkCount c i + 2) ∧ q (if i = 1 then k else 4) := by
    rw [linkDinode_ents hi, List.countP_map]
    refine List.countP_congr fun k _ => ?_
    simp only [Function.comp_apply, decide_eq_true_eq, linkDirent_counts hi]
    refine and_congr_right fun hk => ?_
    rw [linkDirent_inum hi, if_neg (by omega), if_neg (by omega), if_pos hk.2]
  rw [hents]
  split
  · rename_i h1
    rw [linkSize, if_pos h1, show List.range 5 = [0, 1, 2, 3, 4] from rfl]
    simp [List.countP_cons, linkCount, h1]
    omega
  · rename_i h1
    rw [linkSize, if_neg h1]
    by_cases h4 : q 4
    · simp only [h4, and_true, if_true, countP_between]
      unfold linkCount
      rw [if_neg h1]
      split <;> omega
    · rw [if_neg h4]
      exact List.countP_eq_zero.mpr fun k _ => by simp [h4]

theorem linkFs_nodes {n : Node} (h : (linkFs c).nodes conf2000.layout i = some n) :
    ((1 ≤ i ∧ i ≤ 3) ∨ i = 4) ∧ n = ⟨(linkDinode c i).type, (linkDinode c i).nlink,
      (linkDinode c i).ents (linkData c), (linkDinode c i).tail⟩ := by
  obtain ⟨ht, hn⟩ := dinode_of_nodes h
  exact ⟨linkDinode_type ht, hn⟩

theorem linkFs_node (hi : 1 ≤ i ∧ i ≤ 3) :
    (linkFs c).nodes conf2000.layout i = some ⟨(linkDinode c i).type, (linkDinode c i).nlink,
      (linkDinode c i).ents (linkData c), (linkDinode c i).tail⟩ := by
  have hlt : i < conf2000.layout.ninodes := show i < 200 by omega
  rw [Fs.nodes, if_pos hlt]
  refine Dinode.node_of ?_
  show (linkDinode c i).type ≠ .none
  simp [linkDinode_dir hi]

theorem linkFs_names (hc : c ≤ 17150) {t : ℕ} :
    Nodes.names conf2000.layout.ninodes ((linkFs c).nodes conf2000.layout) t =
      (if 2 ≤ t ∧ t ≤ 4 then 1 else 0) + if t = 4 then 17150 + c else 0 := by
  have hsub : ({1, 2, 3} : Finset ℕ) ⊆ Finset.range conf2000.layout.ninodes := by decide
  have hzero : ∀ j ∈ Finset.range conf2000.layout.ninodes, j ∉ ({1, 2, 3} : Finset ℕ) →
      (((linkFs c).nodes conf2000.layout j).elim 0 fun n => n.names t) = 0 := by
    intro j _ hj
    cases hn : (linkFs c).nodes conf2000.layout j with
    | none => rfl
    | some n =>
      obtain ⟨hi, rfl⟩ := linkFs_nodes hn
      obtain rfl : j = 4 := by
        simp only [Finset.mem_insert, Finset.mem_singleton] at hj
        omega
      have hents : (linkDinode c 4).ents (linkData c) = [] :=
        Dinode.ents_of_ne (by simp [linkDinode_file])
      simp only [Option.elim_some, Node.names, hents, List.countP_nil]
  have hdir : ∀ {j}, 1 ≤ j ∧ j ≤ 3 → (((linkFs c).nodes conf2000.layout j).elim 0 fun n =>
      n.names t) = _ := fun hj => by
    rw [linkFs_node hj, Option.elim_some, Node.names, linkDinode_countP hc hj (· = t)]
  rw [Nodes.names, ← Finset.sum_subset hsub hzero, Finset.sum_insert (by decide),
    Finset.sum_insert (by decide), Finset.sum_singleton, hdir (by omega), hdir (by omega),
    hdir (by omega)]
  simp only [linkCount]
  split_ifs <;> omega

theorem linkFs_counts (hc : c ≤ 17150) :
    Nodes.Counts conf2000.layout.ninodes ((linkFs c).nodes conf2000.layout) := by
  intro i n hn
  rw [linkFs_names hc]
  obtain ⟨hi, rfl⟩ := linkFs_nodes hn
  rw [Nodes.subdirs]
  dsimp only
  rcases hi with hi | rfl
  · have hfile : ¬ Nodes.IsDir ((linkFs c).nodes conf2000.layout) 4 := by
      rw [Nodes.IsDir]
      intro h
      obtain ⟨n, hn, ht⟩ := Option.map_eq_some_iff.mp h
      rw [(linkFs_nodes hn).2, linkDinode_file] at ht
      cases ht
    rw [linkDinode_countP hc hi, if_neg hfile]
    have hlinks : (linkDinode c i).nlink = if i = 1 then 3 else 1 := by rw [linkDinode_dir hi]
    rw [hlinks]
    split_ifs at * <;> omega
  · have hents : (linkDinode c 4).ents (linkData c) = [] :=
      Dinode.ents_of_ne (by simp [linkDinode_file])
    have hlinks : (linkDinode c 4).nlink = 17150 + c + 1 := rfl
    rw [hents, List.countP_nil, hlinks, if_pos (by omega), if_pos rfl]
    omega

theorem linkFs_inv : (linkFs c).Inv conf2000.layout := by
  have hroot : (linkDinode c 1).type ≠ .none := by simp [linkDinode]
  refine .of_cwd rfl (show 1 < 200 by decide) hroot linkFs_marked fun {i} _ ht => ?_
  change (linkDinode c i).Good (linkData c) conf2000.layout
  rcases linkDinode_type ht with hi | rfl
  · refine (linkDinode_dense hi).good (n := linkSize i) (by rw [linkDinode_dir hi])
      (by unfold linkSize MAXFILE NDIRECT NINDIRECT; split <;> omega) fun k hk => ?_
    show _ < 200
    rw [linkDirent_inum hi]
    unfold linkSize at hk
    split_ifs at * <;> omega
  · exact ⟨nofun, fun hd => by cases hd⟩

theorem linkFs_linked (hc : c ≤ 15616) : Linked conf2000.layout (linkFs c) := by
  have hnlink : ∀ {i n}, (linkFs c).nodes conf2000.layout i = some n →
      0 < n.nlink ∧ n.nlink < 2 ^ 15 := by
    intro i n hn
    obtain ⟨hi | rfl, rfl⟩ := linkFs_nodes hn
    · simp only [linkDinode_dir hi]
      split <;> decide
    · simp only [linkDinode_file]
      omega
  refine ⟨⟨⟨linkFs_inv, ?_⟩, by decide, fun hn => ?_⟩, linkFs_counts (by omega)⟩
  · rintro i ⟨n, hn, h0⟩
    have := (hnlink hn).1
    omega
  · have := hnlink hn
    omega

/-! The last link. -/

/-- `link("/eaaa", "/x")`, a link to the file. -/
def linkCall : LinkCall := .sys_link smallEntry [47, 101, 97, 97, 97] [47, 120]

theorem linkCall_fits (hc : c < 15616) : linkCall.Fits conf2000.layout (linkFs c) := by
  refine ⟨Nat.one_pos, fun ip s₁ n _ hn => ?_⟩
  obtain ⟨hi | h, rfl⟩ := linkFs_nodes hn
  · simp only [linkDinode_dir hi]
    split <;> decide
  · simp only [h, linkDinode_file]
    omega

/-- The file gets its last link. -/
theorem links_counted_last : ∃ s',
    Sys.alone conf2000.layout linkCall.prog (linkFs 15615) = .ok (0, s') ∧
    ∃ ip s₁ n n', Sys.alone conf2000.layout (Sys.namei smallEntry [47, 101, 97, 97, 97])
        (linkFs 15615) = .ok (some ip, s₁) ∧
      (linkFs 15615).nodes conf2000.layout (s₁.tab ip).inum = some n ∧
      s'.nodes conf2000.layout (s₁.tab ip).inum = some n' ∧ n.nlink < n'.nlink := by
  have hrun : (Sys.alone conf2000.layout linkCall.prog (linkFs 15615)).map Prod.fst = .ok 0 := by
    decide +kernel
  obtain ⟨s', h⟩ := returns_of_map hrun
  exact ⟨s', h, (links_counted (by decide) (linkFs_linked (by omega)) .refl).1 _ _ _ s'
    (linkCall_fits (by omega)) h⟩

/-- The file has 32767 names and gets one more: its number of links becomes negative, and `unlink`
of the new name stops. -/
theorem link_overflows : Linked conf2000.layout (linkFs 15616) ∧
    Nodes.names conf2000.layout.ninodes ((linkFs 15616).nodes conf2000.layout) 4 = 2 ^ 15 - 1 ∧
    ((linkFs 15616).dinode 4).nlink = 2 ^ 15 - 1 ∧ ∃ s',
      Sys.alone conf2000.layout linkCall.prog (linkFs 15616) = .ok (0, s') ∧
      (s'.dinode 4).nlink = - 2 ^ 15 ∧
      Sys.alone conf2000.layout (Sys.unlink smallEntry [47, 120]) s' = .error .nlink := by
  have hrun : (Sys.alone conf2000.layout linkCall.prog (linkFs 15616)).map Prod.fst = .ok 0 := by
    decide +kernel
  have hlinks : ((do
      let _ ← Sys.alone conf2000.layout linkCall.prog
      return ((← get).dinode 4).nlink) (linkFs 15616)).map Prod.fst = .ok (-2 ^ 15) := by
    decide +kernel
  have hun : ((do
      let _ ← Sys.alone conf2000.layout linkCall.prog
      Sys.alone conf2000.layout (Sys.unlink smallEntry [47, 120])) (linkFs 15616)).map Prod.fst =
        .error .nlink := by
    decide +kernel
  refine ⟨linkFs_linked le_rfl, ?_, by decide, ?_⟩
  · rw [linkFs_names (by omega), if_pos (by omega), if_pos rfl]
    omega
  obtain ⟨s', h⟩ := returns_of_map hrun
  obtain ⟨_, hlinks⟩ := returns_of_bind h hlinks
  have hstop := stops_of_bind h hun
  have hnlink : (s'.dinode 4).nlink = -2 ^ 15 := congrArg Prod.fst (Except.ok.inj hlinks)
  exact ⟨s', h, hnlink, hstop⟩

end Image

end Xv6
