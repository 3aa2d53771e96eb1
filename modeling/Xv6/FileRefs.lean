import Xv6.FileRules

/-!
# The reference counts of open files

What the processes hold fits the file table and the descriptors : the supply of tokens is what
the descriptors, the files and the processes hold (`Fits.total`), and no process owes more than
its descriptors hold (`Fits.pos`). Every action keeps that up (`Fits.takes`), so it holds in every
state of every run. Between system calls the processes hold nothing, which gives the counts
(`open_file_counts`).
-/

namespace Xv6

open Function

variable {N NF NO : ℕ}

/-! ## What the processes hold fits the tables -/

section Fits

variable {own : Fin N → Held N NF NO} {s s' : Ftable N NF NO} {p q : Fin N} {o' : Held N NF NO}

/-- The tokens of a process, in descriptors or not. -/
def share (own : Fin N → Held N NF NO) (s : Ftable N NF NO) (p : Fin N) : Tok NF → ℤ :=
  descs (s.ofile p) + (own p).hand

/-- The tokens of all processes are the references that are counted. -/
structure Fits (own : Fin N → Held N NF NO) (s : Ftable N NF NO) : Prop where
  self : ∀ p, (own p).self = p
  row : ∀ p t, (own p).row = some t → s.state p = .runnable ∧ s.ofile p = t
  child : ∀ p q t, (own p).child = some (q, t) → s.state q = .used ∧ s.ofile q = t
  apart : ∀ p p' q t t', (own p).child = some (q, t) → (own p').child = some (q, t') → p = p'
  gone : ∀ p, s.state p = .unused ∨ s.state p = .zombie → s.ofile p = fun _ => none
  pos : ∀ p t, 0 ≤ share own s p t
  total : s.supply = ∑ p, share own s p + s.filed
  free : ∀ f, (s.file f).ref = 0 → (s.file f).type = .none
  live : ∀ pi e, s.page pi = some e → e.readopen ∨ e.writeopen
  raw : ∀ p f, (own p).raw f = true →
    (s.file f).ref = 1 ∧ (s.file f).type = .none ∧ share own s p (.file f) = 1

theorem share_hand {δ : Tok NF → ℤ} (hhand : o'.hand = (own p).hand + δ)
    (hofile : s'.ofile = s.ofile) :
    share (update own p o') s' = update (share own s) p (share own s p + δ) := by
  funext q
  by_cases hq : q = p
  · subst hq
    simp [share, hhand, hofile, add_assoc]
  · simp [share, hq, hofile]

theorem share_same (hhand : o'.hand = (own p).hand) (hofile : s'.ofile = s.ofile) :
    share (update own p o') s' = share own s := by
  rw [share_hand (δ := 0) (by simpa using hhand) hofile]
  simp

theorem share_self (x : Tok NF) :
    share (update own p o') s p x = share own s p x + (o'.hand x - (own p).hand x) := by
  simp only [share, update_self, Pi.add_apply]
  omega

theorem lose_pos {t : Tok NF} (ht : 0 < (own p).hand t) (x : Tok NF) :
    0 ≤ (own p).hand x + (-tok (some t)) x ∨ 0 ≤ (-tok (some t)) x := by
  by_cases hx : x = t
  · subst hx
    left
    simp only [Pi.neg_apply, tok_self]
    omega
  · right
    simp [tok, Ne.symm hx]

namespace Fits

variable (h : Fits own s) {f : Fin NF}

include h

/-- What a process knows to be its own is its share. -/
theorem mine_eq {p : Fin N} (hrow : (own p).row.isSome) :
    (own p).mine = share own s p := by
  obtain ⟨t, ht⟩ := Option.isSome_iff_exists.mp hrow
  simp [Held.mine, share, ht, (h.row p t ht).2]

theorem total_apply (t : Tok NF) : s.supply t = ∑ p, share own s p t + s.filed t := by
  rw [h.total, Pi.add_apply, Finset.sum_apply]

/-- No share is more than is counted. -/
theorem share_le (p : Fin N) (t : Tok NF) :
    share own s p t + s.filed t ≤ s.supply t := by
  have := Finset.single_le_sum (f := fun p => share own s p t) (fun p _ => h.pos p t)
    (Finset.mem_univ p)
  have := h.total_apply t
  omega

theorem hand_le (p : Fin N) (t : Tok NF) : (own p).hand t + s.filed t ≤ s.supply t := by
  have hle := h.share_le p t
  have hdescs := descs_nonneg (s.ofile p) t
  simp only [share, Pi.add_apply] at hle
  omega

theorem share_add_le (hne : p ≠ q) (t : Tok NF) :
    share own s p t + share own s q t ≤ s.supply t := by
  have := Finset.add_le_sum (f := fun p => share own s p t) (fun p _ => h.pos p t)
    (Finset.mem_univ p) (Finset.mem_univ q) hne
  have := h.total_apply t
  have := s.filed_nonneg t
  omega

/-- A process that has a token can give it away. -/
theorem tok_le {t : Tok NF} (ht : 0 < share own s p t) (x : Tok NF) :
    tok (some t) x ≤ share own s p x := by
  by_cases hx : x = t
  · subst hx
    rw [tok_self]
    omega
  · rw [tok_of_ne (by simpa using Ne.symm hx)]
    exact h.pos p x

/-- Nobody else has a file that `q` did not fill in. -/
theorem raw_alone (hraw : (own q).raw f = true) (hp : 0 < share own s p (.file f)) : q = p := by
  by_contra hne
  obtain ⟨href, -, hone⟩ := h.raw q f hraw
  have := h.share_add_le hne (.file f)
  simp only [Ftable.supply, href] at this
  omega

/-- A step of `p` that does not touch descriptor tables. -/
theorem hands (δ : Tok NF → ℤ) (hself : o'.self = (own p).self)
    (hrow : o'.row = (own p).row) (hchild : o'.child = (own p).child)
    (hhand : o'.hand = (own p).hand + δ) (hofile : s'.ofile = s.ofile)
    (hstate : s'.state = s.state) (htotal : s'.supply + s.filed = s.supply + δ + s'.filed)
    (hpos : ∀ t, 0 ≤ share own s p t + δ t)
    (hfree : ∀ f, (s'.file f).ref = 0 → (s'.file f).type = .none)
    (hlive : ∀ pi e, s'.page pi = some e → e.readopen ∨ e.writeopen)
    (hraw : ∀ f, o'.raw f = true → (s'.file f).ref = 1 ∧ (s'.file f).type = .none ∧
      share own s p (.file f) + δ (.file f) = 1)
    (hothers : ∀ q f, q ≠ p → (own q).raw f = true → s'.file f = s.file f) :
    Fits (update own p o') s' := by
  have hshare := share_hand hhand hofile
  have hkid := Machine.update_field Held.child hchild
  constructor
  · exact fun q => (Machine.update_field Held.self hself q).trans (h.self q)
  · intro q t hq
    rw [Machine.update_field Held.row hrow] at hq
    rw [hstate, hofile]
    exact h.row q t hq
  · intro q r t hq
    rw [hkid] at hq
    rw [hstate, hofile]
    exact h.child q r t hq
  · intro q q' r t t' hq hq'
    rw [hkid] at hq hq'
    exact h.apart q q' r t t' hq hq'
  · rw [hstate, hofile]
    exact h.gone
  · intro q t
    rw [hshare]
    by_cases hq : q = p
    · subst hq
      simpa using hpos t
    · simpa [hq] using h.pos q t
  · have hsupply : s'.supply = s.supply + δ + s'.filed - s.filed := eq_sub_of_add_eq htotal
    rw [hshare, Machine.sum_update_sub, hsupply, h.total]
    abel
  · exact hfree
  · exact hlive
  · intro q f hq
    rw [hshare]
    by_cases hqp : q = p
    · subst hqp
      simpa using hraw f (by simpa using hq)
    · have hq' : (own q).raw f = true := by simpa [hqp] using hq
      rw [hothers q f hqp hq']
      simpa [hqp] using h.raw q f hq'

/-! A step of `p` that touches one slot of the process table. -/

section Slot

variable {x : ProcState} {y t : Ofile NF NO}

/-- The slot `q` gets the state `x` and the descriptors `y` in a step of `p`, which leaves
files, pipes and inodes alone. -/
structure SlotStep (own : Fin N → Held N NF NO) (s : Ftable N NF NO) (p q : Fin N)
    (x : ProcState) (y : Ofile NF NO) (o' : Held N NF NO) (s' : Ftable N NF NO) : Prop where
  frame : s'.file = s.file ∧ s'.page = s.page ∧ s'.iref = s.iref ∧ o'.self = (own p).self
  state : s'.state = update s.state q x
  ofile : s'.ofile = update s.ofile q y
  row : ∀ {r t}, (update own p o' r).row = some t →
    r = q ∧ x = .runnable ∧ y = t ∨ r ≠ q ∧ (own r).row = some t
  child : ∀ {r u t}, (update own p o' r).child = some (u, t) →
    u = q ∧ r = p ∧ x = .used ∧ y = t ∨ u ≠ q ∧ (own r).child = some (u, t)
  gone : x = .unused ∨ x = .zombie → y = fun _ => none

/-- Of the slot `q` something changes, and the tokens only move. -/
theorem slot (hs : SlotStep own s p q x y o' s')
    (hpos : ∀ r t, 0 ≤ share (update own p o') s' r t)
    (hsum : ∑ r, share (update own p o') s' r = ∑ r, share own s r)
    (hraw : ∀ r f, (update own p o' r).raw f = true → (own r).raw f = true ∧
      share (update own p o') s' r (.file f) = share own s r (.file f)) :
    Fits (update own p o') s' where
  self r := (Machine.update_field Held.self hs.frame.2.2.2 r).trans (h.self r)
  row r t hr := by
    rw [hs.state, hs.ofile]
    rcases hs.row hr with ⟨rfl, rfl, rfl⟩ | ⟨hne, hr⟩
    · simp
    · simpa [hne] using h.row r t hr
  child r u t hr := by
    rw [hs.state, hs.ofile]
    rcases hs.child hr with ⟨rfl, -, rfl, rfl⟩ | ⟨hne, hr⟩
    · simp
    · simpa [hne] using h.child r u t hr
  apart r r' u t t₁ hr hr' := by
    rcases hs.child hr with ⟨hu, hrp, -⟩ | ⟨hne, hr⟩
    · rcases hs.child hr' with ⟨-, hrp', -⟩ | ⟨hne, -⟩
      · exact hrp.trans hrp'.symm
      · exact absurd hu hne
    · rcases hs.child hr' with ⟨hu, -⟩ | ⟨-, hr'⟩
      · exact absurd hu hne
      · exact h.apart r r' u t t₁ hr hr'
  gone r hr := by
    rw [hs.state] at hr
    rw [hs.ofile]
    by_cases hrq : r = q
    · subst hrq
      simpa using hs.gone (by simpa using hr)
    · simpa [hrq] using h.gone r (by simpa [hrq] using hr)
  pos := hpos
  total := by
    have hsupply : s'.supply = s.supply := by
      funext t
      cases t <;> simp [Ftable.supply, hs.frame]
    have hfiled : s'.filed = s.filed := by simp [Ftable.filed, hs.frame]
    rw [hsupply, hfiled, hsum, h.total]
  free := by
    rw [hs.frame.1]
    exact h.free
  live := by
    rw [hs.frame.2.1]
    exact h.live
  raw r f hr := by
    obtain ⟨hraw, heq⟩ := hraw r f hr
    rw [hs.frame.1, heq]
    exact h.raw r f hraw

/-- No token changes its process. -/
theorem relabel (hs : SlotStep own s p q x y o' s') (hraw : o'.raw = (own p).raw)
    (hshare : share (update own p o') s' = share own s) :
    Fits (update own p o') s' := by
  refine h.slot hs ?_ (by rw [hshare]) ?_
  · rw [hshare]
    exact h.pos
  · intro r f hr
    rw [Machine.update_field Held.raw hraw] at hr
    exact ⟨hr, by rw [hshare]⟩

/-- A slot in another state is no descriptor table that a process knows. -/
theorem row_kept {r : Fin N} (hr : (update own p o' r).row = some t) (hrow : o'.row = (own p).row)
    (hq : s.state q ≠ .runnable) : r ≠ q ∧ (own r).row = some t := by
  rw [Machine.update_field Held.row hrow] at hr
  exact ⟨fun he => hq (he ▸ (h.row r t hr).1), hr⟩

theorem child_kept {r u : Fin N} (hr : (update own p o' r).child = some (u, t))
    (hchild : o'.child = (own p).child) (hq : s.state q ≠ .used) :
    u ≠ q ∧ (own r).child = some (u, t) := by
  rw [Machine.update_field Held.child hchild] at hr
  exact ⟨fun he => hq (he ▸ (h.child r u t hr).1), hr⟩

/-- A token goes to a descriptor or comes from it. -/
theorem put (hrow : (own p).row = some t) (fd : Fin NO) (v : Option (Fin NF)) :
    Fits (update own p ((own p).put t fd v)) (s.setFd p fd v) := by
  obtain ⟨hstate, hofile⟩ := h.row p t hrow
  refine h.relabel (q := p) (x := .runnable) (y := update (s.ofile p) fd v)
    ⟨⟨rfl, rfl, rfl, rfl⟩, by rw [← hstate, update_eq_self]; rfl, rfl, fun {r y} hr => ?_,
      fun hr => .inr (h.child_kept hr rfl (by simp [hstate])), by simp⟩ rfl ?_
  · by_cases hrp : r = p
    · subst hrp
      exact .inl ⟨rfl, rfl, by simpa [hofile] using hr⟩
    · exact .inr ⟨hrp, by simpa [hrp] using hr⟩
  · funext q
    by_cases hq : q = p
    · subst hq
      simp only [share, Ftable.setFd, update_self, Held.put, hofile, descs_update]
      abel
    · simp [share, Ftable.setFd, hq]

/-- A call starts, and the process has its descriptors. -/
theorem enter (hstate : s.state p = .runnable) :
    Fits (update own p { own p with row := some (s.ofile p) }) s := by
  refine h.relabel (q := p) (x := .runnable) (y := s.ofile p)
    ⟨⟨rfl, rfl, rfl, rfl⟩, by rw [← hstate, update_eq_self], (update_eq_self p _).symm,
      fun {r t} hr => ?_, fun hr => .inr (h.child_kept hr rfl (by simp [hstate])), by simp⟩
    rfl (share_same rfl rfl)
  by_cases hrp : r = p
  · subst hrp
    exact .inl ⟨rfl, rfl, by simpa using hr⟩
  · exact .inr ⟨hrp, by simpa [hrp] using hr⟩

/-- The child starts without descriptors. -/
theorem allocproc (hchild : (own p).child = none) (hstate : s.state q = .unused) :
    Fits (update own p { own p with child := some (q, fun _ => none) }) (s.setState q .used) := by
  refine h.relabel (q := q) (y := s.ofile q)
    ⟨⟨rfl, rfl, rfl, rfl⟩, rfl, (update_eq_self q _).symm,
      fun hr => .inr (h.row_kept hr rfl (by simp [hstate])), fun {r u t} hr => ?_, by simp⟩
    rfl (share_same rfl rfl)
  by_cases hrp : r = p
  · subst hrp
    obtain ⟨rfl, rfl⟩ : q = u ∧ (fun _ => none) = t := by simpa using hr
    exact .inl ⟨rfl, rfl, rfl, h.gone q (.inl hstate)⟩
  · have hr' : (own r).child = some (u, t) := by simpa [hrp] using hr
    refine .inr ⟨?_, hr'⟩
    rintro rfl
    simp [(h.child r u t hr').1] at hstate

/-- `fork` is done with the child, which gets the state `x`. -/
theorem parent (hchild : (own p).child = some (q, t))
    (hx : x = .runnable ∨ x = .unused ∧ t = fun _ => none) :
    Fits (update own p { own p with child := none }) (s.setState q x) := by
  obtain ⟨hstate, hofile⟩ := h.child p q t hchild
  refine h.relabel (q := q) (y := s.ofile q)
    ⟨⟨rfl, rfl, rfl, rfl⟩, rfl, (update_eq_self q _).symm,
      fun hr => .inr (h.row_kept hr rfl (by simp [hstate])), fun {r u y} hr => .inr ?_, ?_⟩
    rfl (share_same rfl rfl)
  · by_cases hrp : r = p
    · subst hrp
      simp at hr
    · have hr' : (own r).child = some (u, y) := by simpa [hrp] using hr
      refine ⟨?_, hr'⟩
      rintro rfl
      exact hrp (h.apart r p u y t hr' hchild)
  · rcases hx with rfl | ⟨rfl, rfl⟩
    · simp
    · exact fun _ => hofile

/-- A process that exits has no descriptors left. -/
theorem zombie (hrow : (own p).row = some fun _ => none) :
    Fits (update own p { own p with row := none }) (s.setState p .zombie) := by
  obtain ⟨hstate, hofile⟩ := h.row p _ hrow
  refine h.relabel (q := p) (y := s.ofile p)
    ⟨⟨rfl, rfl, rfl, rfl⟩, rfl, (update_eq_self p _).symm, fun {r t} hr => .inr ?_,
      fun hr => .inr (h.child_kept hr rfl (by simp [hstate])), fun _ => hofile⟩
    rfl (share_same rfl rfl)
  by_cases hrp : r = p
  · subst hrp
    simp at hr
  · exact ⟨hrp, by simpa [hrp] using hr⟩

theorem reap (hstate : s.state q = .zombie) :
    Fits (update own p (own p)) (s.setState q .unused) :=
  h.relabel (q := q) (y := s.ofile q)
    ⟨⟨rfl, rfl, rfl, rfl⟩, rfl, (update_eq_self q _).symm,
      fun hr => .inr (h.row_kept hr rfl (by simp [hstate])),
      fun hr => .inr (h.child_kept hr rfl (by simp [hstate])), fun _ => h.gone q (.inr hstate)⟩
    rfl (share_same rfl rfl)

/-- `fork` gives a reference to the child. -/
theorem copyfd {i : Fin NO} (hrow : (own p).row.isSome) (hchild : (own p).child = some (q, t))
    (hi : t i = none) (hf : 0 < share own s p (.file f)) (hraw : (own p).raw f = false) :
    Fits (update own p { (own p).lose (.file f) with child := some (q, update t i (some f)) })
      (s.setFd q i (some f)) := by
  obtain ⟨hq, hofile⟩ := h.child p q t hchild
  obtain ⟨tp, htp⟩ := Option.isSome_iff_exists.mp hrow
  have hqp : q ≠ p := by
    rintro rfl
    simp [(h.row q tp htp).1] at hq
  have hshare : share (update own p { (own p).lose (.file f) with
        child := some (q, update t i (some f)) }) (s.setFd q i (some f)) =
      update (update (share own s) p (share own s p - tok (some (.file f)))) q
        (share own s q + tok (some (.file f))) := by
    funext r
    by_cases hrq : r = q
    · subst hrq
      simp only [share, Ftable.setFd, update_self, update_of_ne hqp, hofile, descs_update,
        hi, Option.map_some, Option.map_none, tok_none, sub_zero]
      abel
    · by_cases hrp : r = p
      · subst hrp
        simp only [share, Ftable.setFd, update_self, update_of_ne hrq, Held.lose]
        abel
      · simp [share, Ftable.setFd, hrq, hrp]
  refine h.slot (q := q) (x := .used) (y := update (s.ofile q) i (some f))
    ⟨⟨rfl, rfl, rfl, rfl⟩, by rw [← hq, update_eq_self]; rfl, rfl,
      fun hr => .inr (h.row_kept hr rfl (by simp [hq])), fun {r u y} hr => ?_, by simp⟩ ?_ ?_ ?_
  · by_cases hrp : r = p
    · subst hrp
      obtain ⟨rfl, rfl⟩ : q = u ∧ update t i (some f) = y := by simpa using hr
      exact .inl ⟨rfl, rfl, rfl, by rw [hofile]⟩
    · have hr' : (own r).child = some (u, y) := by simpa [hrp] using hr
      refine .inr ⟨?_, hr'⟩
      rintro rfl
      exact hrp (h.apart r p u y t hr' hchild)
  · intro r x
    rw [hshare]
    have hpos := h.pos r x
    by_cases hrq : r = q
    · subst hrq
      have hone := tok_nonneg (some (.file f)) x
      simp only [update_self, Pi.add_apply]
      omega
    · rw [update_of_ne hrq]
      by_cases hrp : r = p
      · subst hrp
        simpa using h.tok_le hf x
      · simpa [hrp] using hpos
  · rw [hshare, Machine.sum_update_sub, Machine.sum_update_sub, update_of_ne hqp]
    abel
  · intro r g hr
    have hr' : (own r).raw g = true :=
      (congrFun (Machine.update_field Held.raw (by rfl) r) g).symm.trans hr
    have hgf : f ≠ g := by
      rintro rfl
      obtain rfl := h.raw_alone hr' hf
      simp [hraw] at hr'
    rw [hshare]
    refine ⟨hr', ?_⟩
    by_cases hrq : r = q
    · subst hrq
      simp [tok, hgf]
    · by_cases hrp : r = p
      · subst hrp
        simp [hrq, tok, hgf]
      · simp [hrq, hrp]

end Slot

/-! A step of `p` that changes the file `f`. -/

section File

variable {f : Fin NF} {x : File}

/-- A file changes, and with it the tokens of `p`. -/
theorem setFile (hself : o'.self = (own p).self) (hrow : o'.row = (own p).row)
    (hchild : o'.child = (own p).child)
    (hhand : o'.hand = (own p).hand + (((x.ref : ℤ) - (s.file f).ref) • tok (some (.file f)) +
      tok (s.file f).token - tok x.token))
    (hpos : ∀ t, 0 ≤ share (update own p o') s p t) (hfree : x.ref = 0 → x.type = .none)
    (hraw : ∀ g, g ≠ f → o'.raw g = true → (own p).raw g = true)
    (hrawf : o'.raw f = true →
      x.ref = 1 ∧ x.type = .none ∧ share (update own p o') s p (.file f) = 1)
    (hothers : ∀ q, q ≠ p → (own q).raw f = false) :
    Fits (update own p o') (s.setFile f x) := by
  have hshare : share (update own p o') s = update (share own s) p (share own s p +
      (((x.ref : ℤ) - (s.file f).ref) • tok (some (.file f)) + tok (s.file f).token -
        tok x.token)) := share_hand hhand rfl
  refine h.hands _ hself hrow hchild hhand rfl rfl ?_ ?_ ?_ h.live ?_ ?_
  · rw [Ftable.supply_setFile, Ftable.filed_setFile]
    abel
  · intro t
    have := hpos t
    rwa [hshare, update_self] at this
  · intro g hg
    by_cases hgf : g = f
    · subst hgf
      simp only [Ftable.setFile, update_self] at hg ⊢
      exact hfree hg
    · simp only [Ftable.setFile, update_of_ne hgf] at hg ⊢
      exact h.free g hg
  · intro g hg
    by_cases hgf : g = f
    · subst hgf
      have := hrawf hg
      rw [hshare, update_self] at this
      simpa [Ftable.setFile] using this
    · have hzero : ∀ y : File, tok y.token (.file g) = 0 := fun y =>
        tok_of_ne (File.token_ne_file y g)
      simpa [Ftable.setFile, hgf, hzero, tok_of_ne (o := some (.file f)) (t := .file g)
        (by simpa using Ne.symm hgf)] using h.raw p g (hraw g hgf hg)
  · intro q g hqp hq
    have hgf : g ≠ f := by
      rintro rfl
      simp [hothers q hqp] at hq
    simp [Ftable.setFile, hgf]

/-- A file that is being made has one reference. -/
theorem raw_of_ref (hf : (s.file f).ref ≠ 1) (q : Fin N) : (own q).raw f = false := by
  by_contra hraw
  exact hf (h.raw q f (by simpa using hraw)).1

theorem raw_of_share (hf : 0 < share own s p (.file f)) (hq : q ≠ p) :
    (own q).raw f = false := by
  by_contra hraw
  exact hq (h.raw_alone (by simpa using hraw) hf)

theorem gain_pos (t : Tok NF) : 0 ≤ share own s p t + tok (some (.file f)) t :=
  add_nonneg (h.pos p t) (tok_nonneg _ t)

theorem filealloc (hf : (s.file f).ref = 0) :
    Fits (update own p { (own p).gain (.file f) with raw := update (own p).raw f true })
      (s.setFile f { s.file f with ref := 1 }) := by
  have hnone : share own s p (.file f) = 0 := by
    have hle := h.share_le p (.file f)
    have hpos := h.pos p (.file f)
    simp only [s.filed_file f, Ftable.supply, hf] at hle
    omega
  refine h.setFile rfl rfl rfl ?_ ?_ ?_ ?_ ?_ ?_
  · simp [hf, File.token, h.free f hf]
  · simpa [share_self] using h.gain_pos
  · simp
  · intro g hg hraw
    simpa [hg] using hraw
  · simp [share_self, hnone, h.free f hf]
  · exact fun q _ => h.raw_of_ref (by simp [hf]) q

theorem filedup (hf : 0 < share own s p (.file f)) (hraw : (own p).raw f = false) :
    Fits (update own p ((own p).gain (.file f)))
      (s.setFile f { s.file f with ref := (s.file f).ref + 1 }) := by
  refine h.setFile rfl rfl rfl ?_ ?_ ?_ ?_ ?_ ?_
  · simp [File.token]
  · simpa [share_self] using h.gain_pos
  · simp
  · exact fun g _ hg => hg
  · intro hg
    have hg' : (own p).raw f = true := hg
    simp [hraw] at hg'
  · exact fun q hq => h.raw_of_share hf hq

/-- `fileclose` takes a reference away ; the last one frees the file's token. -/
theorem unref (hf : 0 < share own s p (.file f)) (hx : x.ref + 1 = (s.file f).ref)
    (htok : x.type = (s.file f).type ∧ (x.token : Option (Tok NF)) = (s.file f).token ∧
      0 < x.ref ∨ x.type = .none) :
    Fits (update own p { (own p).drop f with
      hand := ((own p).drop f).hand + (tok (s.file f).token - tok x.token) }) (s.setFile f x) := by
  refine h.setFile rfl rfl rfl ?_ ?_ ?_ ?_ ?_ ?_
  · have href : (x.ref : ℤ) - (s.file f).ref = -1 := by omega
    have hneg : (-1 : ℤ) • tok (some (.file f)) = -tok (some (Tok.file f)) := neg_one_zsmul _
    simp only [Held.drop, href, hneg]
    abel
  · intro t
    have hgain : 0 ≤ tok (s.file f).token t - tok x.token t := by
      rcases htok with ⟨-, htok, -⟩ | htype
      · simp [htok]
      · simpa [File.token_of_none htype] using tok_nonneg _ t
    have hlose := h.tok_le hf t
    simp only [share_self, Held.drop, Pi.add_apply, Pi.sub_apply]
    omega
  · intro hzero
    rcases htok with ⟨-, -, hpos⟩ | htype
    · omega
    · exact htype
  · intro g hg hraw
    simpa [hg] using hraw
  · simp
  · exact fun q hq => h.raw_of_share hf hq

/-- A new file takes a token of the process. -/
theorem fill {t : Tok NF} (hraw : (own p).raw f = true) (hx : x.ref = (s.file f).ref)
    (htok : x.token = some t) (ht : 0 < (own p).hand t) :
    Fits (update own p ((own p).fill f t)) (s.setFile f x) := by
  obtain ⟨href, htype, hone⟩ := h.raw p f hraw
  refine h.setFile rfl rfl rfl ?_ ?_ ?_ ?_ ?_ ?_
  · simp [hx, htok, File.token_of_none htype, sub_eq_add_neg]
  · intro y
    have hlose := h.tok_le (add_pos_of_nonneg_of_pos (descs_nonneg (s.ofile p) t) ht) y
    simp only [share_self, Held.fill, Pi.sub_apply]
    omega
  · intro hzero
    omega
  · intro g hg hraw
    simpa [hg] using hraw
  · simp
  · exact fun q hq => h.raw_of_share (by omega) hq

/-- A file that somebody has is in use. -/
theorem ref_pos (hf : 0 < share own s p (.file f)) : 0 < (s.file f).ref := by
  have hle := h.share_le p (.file f)
  simp only [s.filed_file f, Ftable.supply] at hle
  omega

end File

/-! A step of `p` that changes no file. -/

section World

variable {pi ip : ℕ} {w : Bool}

/-- The pipes or the inodes change, and the hand of `p` with them. -/
theorem world (δ : Tok NF → ℤ) (hself : o'.self = (own p).self)
    (hrow : o'.row = (own p).row) (hchild : o'.child = (own p).child)
    (hraw : o'.raw = (own p).raw) (hhand : o'.hand = (own p).hand + δ)
    (hofile : s'.ofile = s.ofile) (hstate : s'.state = s.state) (hfile : s'.file = s.file)
    (hsupply : s'.supply = s.supply + δ) (hδ : ∀ f, δ (.file f) = 0)
    (hpos : ∀ t, 0 ≤ (own p).hand t + δ t ∨ 0 ≤ δ t)
    (hlive : ∀ pi e, s'.page pi = some e → e.readopen ∨ e.writeopen) :
    Fits (update own p o') s' := by
  refine h.hands δ hself hrow hchild hhand hofile hstate ?_ ?_ ?_ hlive ?_ ?_
  · simp [hsupply, Ftable.filed, hfile]
  · intro t
    have := h.pos p t
    have := descs_nonneg (s.ofile p) t
    simp only [share, Pi.add_apply] at *
    rcases hpos t with ht | ht <;> omega
  · rw [hfile]
    exact h.free
  · intro f hf
    rw [hfile, hδ, add_zero]
    exact h.raw p f (hraw ▸ hf)
  · exact fun q f _ _ => by rw [hfile]

theorem kalloc (hpage : s.page pi = none) :
    Fits (update own p (((own p).gain (.pipe pi false)).gain (.pipe pi true)))
      (s.setPage pi (some ⟨true, true⟩)) := by
  refine h.world (tok (some (.pipe pi false)) + tok (some (.pipe pi true))) rfl rfl rfl rfl ?_
    rfl rfl rfl ?_ ?_ ?_ ?_
  · simp [add_assoc]
  · rw [Ftable.supply_setPage, hpage]
    simp [PipeEnds.isOpen, add_assoc]
  · intro f
    simp [tok]
  · exact fun t => .inr (add_nonneg (tok_nonneg _ t) (tok_nonneg _ t))
  · intro pi' e he
    by_cases hpi : pi' = pi
    · subst hpi
      obtain rfl : (⟨true, true⟩ : PipeEnds) = e := by simpa [Ftable.setPage] using he
      exact .inl rfl
    · exact h.live pi' e (by simpa [Ftable.setPage, hpi] using he)

/-- The page of a pipe is there as long as a token of one of its ends is. -/
theorem page_open (hhand : 0 < (own p).hand (.pipe pi w)) :
    ∃ e, s.page pi = some e ∧ e.isOpen w = true := by
  have hle := h.hand_le p (.pipe pi w)
  have hfiled := s.filed_nonneg (.pipe pi w)
  simp only [Ftable.supply] at hle
  cases hany : (s.page pi).any (·.isOpen w) with
  | false =>
    simp only [hany, Bool.toNat_false] at hle
    omega
  | true =>
    cases hp : s.page pi with
    | none => simp [hp] at hany
    | some e => exact ⟨e, rfl, by simpa [hp] using hany⟩

theorem pipeclose {e : PipeEnds} (hhand : 0 < (own p).hand (.pipe pi w))
    (hpage : s.page pi = some e) (hopen : e.isOpen w = true) :
    Fits (update own p ((own p).lose (.pipe pi w))) (s.setPage pi (e.close w).kept) := by
  refine h.world (-tok (some (.pipe pi w))) rfl rfl rfl rfl ?_ rfl rfl rfl ?_ ?_ (lose_pos hhand) ?_
  · simp [sub_eq_add_neg]
  · rw [Ftable.supply_setPage, hpage]
    obtain ⟨r, wr⟩ := e
    cases w <;> cases r <;> cases wr <;>
      simp_all [PipeEnds.isOpen, PipeEnds.close, PipeEnds.kept]
  · intro f
    simp [tok]
  · intro pi' e' he
    by_cases hpi : pi' = pi
    · subst hpi
      have hkept : (e.close w).kept = some e' := by simpa [Ftable.setPage] using he
      unfold PipeEnds.kept at hkept
      split at hkept
      · cases hkept
      · rename_i hends
        cases hkept
        by_contra hcon
        exact hends (by simpa using hcon)
    · exact h.live pi' e' (by simpa [Ftable.setPage, hpi] using he)

theorem iget (ip : ℕ) :
    Fits (update own p ((own p).gain (.inode ip))) (s.setIref ip (s.iref ip + 1)) := by
  refine h.world (tok (some (.inode ip))) rfl rfl rfl rfl rfl rfl rfl rfl ?_ ?_ ?_ h.live
  · rw [Ftable.supply_setIref]
    simp
  · intro f
    simp [tok]
  · exact fun t => .inr (tok_nonneg _ t)

theorem iref_pos (hhand : 0 < (own p).hand (.inode ip)) : 0 < s.iref ip := by
  have hle := h.hand_le p (.inode ip)
  have hfiled := s.filed_nonneg (.inode ip)
  simp only [Ftable.supply] at hle
  omega

theorem iput (hhand : 0 < (own p).hand (.inode ip)) :
    Fits (update own p ((own p).lose (.inode ip))) (s.setIref ip (s.iref ip - 1)) := by
  have hpos := h.iref_pos hhand
  refine h.world (-tok (some (.inode ip))) rfl rfl rfl rfl ?_ rfl rfl rfl ?_ ?_ (lose_pos hhand)
    h.live
  · simp [sub_eq_add_neg]
  · have hone : (((s.iref ip - 1 : ℕ) : ℤ) - s.iref ip) = -1 := by omega
    rw [Ftable.supply_setIref, hone]
    simp
  · intro f
    simp [tok]

end World

/-! What each action does to the fit. -/

/-- An action of `p` keeps the fit, and the only panic is that of `init` exiting. -/
def Takes (own : Fin N → Held N NF NO) (s : Ftable N NF NO) (p : Fin N)
    (a : FileAct N NF NO) : Prop :=
  Prog.wp (· = .initExiting) a.run
    (fun r s' => ∃ o', (own p).Does a r o' ∧ Fits (update own p o') s') s

theorem same : Fits (update own p (own p)) s := by
  rwa [update_eq_self]

/-- The descriptor table that `p` knows is its own. -/
theorem own_row (hn : (own p).self = q ∧ (own p).row.isSome) :
    p = q ∧ ∃ t, (own p).row = some t ∧ s.ofile p = t := by
  obtain ⟨t, ht⟩ := Option.isSome_iff_exists.mp hn.2
  exact ⟨(h.self p).symm.trans hn.1, t, ht, (h.row p t ht).2⟩

theorem takes_scheduled (hn : (own p).self = q) : Takes own s p (.scheduled q) := by
  obtain rfl : p = q := (h.self p).symm.trans hn
  simp only [Takes, FileAct.run, Ftable.scheduled, Prog.wp_bind, Prog.wp_get, Prog.wp_pure]
  by_cases hs : s.state p = .runnable
  · exact ⟨_, by simp [Held.Does, hs], h.enter hs⟩
  · exact ⟨own p, by simp [Held.Does, hs], h.same⟩

/-- A free descriptor is used, if there is one. -/
theorem takes_fdalloc (hn : (own p).self = q ∧ (own p).row.isSome) :
    Takes own s p (.fdalloc q f) := by
  obtain ⟨rfl, t, ht, hofile⟩ := h.own_row hn
  simp only [Takes, FileAct.run, Ftable.fdalloc, Prog.wp_bind, Prog.wp_get]
  cases hfind : (List.finRange NO).find? fun fd => s.ofile p fd = none with
  | none => exact ⟨own p, .inl ⟨rfl, rfl⟩, h.same⟩
  | some fd =>
    have hfree : s.ofile p fd = none := by simpa using List.find?_some hfind
    rw [hofile] at hfree
    exact ⟨_, .inr ⟨t, fd, ht, hfree, rfl, rfl⟩, h.put ht fd (some f)⟩

theorem takes_filealloc : Takes own s p .filealloc := by
  simp only [Takes, FileAct.run, Ftable.filealloc, Prog.wp_bind, Prog.wp_get]
  cases hfind : (List.finRange NF).find? fun f => (s.file f).ref = 0 with
  | none => exact ⟨own p, .inl ⟨rfl, rfl⟩, h.same⟩
  | some f =>
    have hfree : (s.file f).ref = 0 := by simpa using List.find?_some hfind
    exact ⟨_, .inr ⟨f, rfl, h.raw_of_ref (by simp [hfree]) p, rfl⟩, h.filealloc hfree⟩

theorem takes_filedup (hf : 0 < share own s p (.file f)) (hraw : (own p).raw f = false) :
    Takes own s p (.filedup f) := by
  have hpos := h.ref_pos hf
  simp only [Takes, FileAct.run, Ftable.filedup, Prog.wp_bind, Prog.wp_get, Prog.wp_ite]
  rw [if_neg (by omega)]
  exact ⟨_, rfl, h.filedup hf hraw⟩

/-- With the last reference the token of the file comes free. -/
theorem takes_unref (hf : 0 < share own s p (.file f)) : Takes own s p (.unref f) := by
  have hpos := h.ref_pos hf
  simp only [Takes, FileAct.run, Ftable.unref, Prog.wp_bind, Prog.wp_get, Prog.wp_ite]
  rw [if_neg (by omega)]
  split
  · have hfit := h.unref (x := { s.file f with ref := (s.file f).ref - 1 }) hf
      (Nat.sub_add_cancel hpos) (.inl ⟨rfl, rfl, ‹_›⟩)
    refine ⟨_, .inl ⟨rfl, rfl⟩, ?_⟩
    simpa [File.token] using hfit
  · have hfit := h.unref (x := { s.file f with ref := 0, type := .none }) hf
      (by simp only; omega) (.inr rfl)
    refine ⟨_, .inr ⟨_, rfl, fun t ht => ?_, rfl⟩, ?_⟩
    · have hne : ∀ g, t ≠ .file g := by
        rintro g rfl
        exact File.token_ne_file _ g ht
      simpa [share, descs_of_ne_file hne] using h.pos p t
    · simpa [File.token] using hfit

theorem takes_kalloc (free : Option ℕ) : Takes own s p (.kalloc free) := by
  simp only [Takes, FileAct.run, Ftable.kalloc, Prog.wp_bind, Prog.wp_get]
  cases free with
  | none => exact ⟨own p, .inl ⟨rfl, rfl⟩, h.same⟩
  | some pi =>
    simp only [Prog.wp_ite]
    split
    · exact ⟨_, .inr ⟨pi, rfl, rfl⟩, h.kalloc ‹_›⟩
    · exact ⟨own p, .inl ⟨rfl, rfl⟩, h.same⟩

theorem takes_pipeclose {pi : ℕ} {w : Bool} (hn : 0 < (own p).hand (.pipe pi w)) :
    Takes own s p (.pipeclose pi w) := by
  obtain ⟨e, hpage, hopen⟩ := h.page_open hn
  simp only [Takes, FileAct.run, Ftable.pipeclose, Prog.wp_bind, Prog.wp_get, hpage]
  exact ⟨_, rfl, h.pipeclose hn hpage hopen⟩

theorem takes_iput {ip : ℕ} (hn : 0 < (own p).hand (.inode ip)) :
    Takes own s p (.iput ip) := by
  have hpos := h.iref_pos hn
  simp only [Takes, FileAct.run, Ftable.iput, Prog.wp_bind, Prog.wp_get, Prog.wp_ite]
  rw [if_neg (by omega)]
  exact ⟨_, rfl, h.iput hn⟩

theorem takes_allocproc (hn : (own p).child = none) : Takes own s p .allocproc := by
  simp only [Takes, FileAct.run, Ftable.allocproc, Prog.wp_bind, Prog.wp_get]
  cases hfind : (List.finRange N).find? fun q => s.state q = .unused with
  | none => exact ⟨own p, .inl ⟨rfl, rfl⟩, h.same⟩
  | some q =>
    have hfree : s.state q = .unused := by simpa using List.find?_some hfind
    exact ⟨_, .inr ⟨q, rfl, rfl⟩, h.allocproc hn hfree⟩

theorem takes_reap (q : Fin N) : Takes own s p (.reap q) := by
  simp only [Takes, FileAct.run, Ftable.reap, Prog.wp_bind, Prog.wp_get, Prog.wp_ite]
  split
  · exact ⟨own p, rfl, h.reap ‹_›⟩
  · exact ⟨own p, rfl, h.same⟩

/-- Each action for which a process has what it needs keeps the fit. -/
theorem takes {a : FileAct N NF NO} (hn : (own p).Needs a) : Takes own s p a := by
  cases a with
  | scheduled q => exact h.takes_scheduled hn
  | getfd q fd =>
    obtain ⟨rfl, t, ht, hofile⟩ := h.own_row hn
    exact ⟨own p, ⟨t, ht, by rw [← hofile], rfl⟩, h.same⟩
  | setfd q fd v =>
    obtain ⟨rfl, t, ht, -⟩ := h.own_row hn
    exact ⟨_, ⟨t, ht, rfl⟩, h.put ht fd v⟩
  | fdalloc q f => exact h.takes_fdalloc hn
  | filealloc => exact h.takes_filealloc
  | filedup f => exact h.takes_filedup (h.mine_eq hn.2.2 ▸ hn.1) hn.2.1
  | unref f => exact h.takes_unref (h.mine_eq hn.2 ▸ hn.1)
  | setPipe f pi w => exact ⟨_, rfl, h.fill hn.1 rfl rfl hn.2⟩
  | setInode f ip device readable writable =>
    exact ⟨_, rfl, h.fill hn.1 (by cases device <;> rfl) (by cases device <;> rfl) hn.2⟩
  | kalloc free => exact h.takes_kalloc free
  | pipeclose pi w => exact h.takes_pipeclose hn
  | iget ip => exact ⟨_, rfl, h.iget ip⟩
  | iput ip => exact h.takes_iput hn
  | allocproc => exact h.takes_allocproc hn
  | freeproc q => exact ⟨_, rfl, h.parent hn (.inr ⟨rfl, rfl⟩)⟩
  | copyfd q i f =>
    obtain ⟨hrow, hf, hraw, t, hchild, hi⟩ := hn
    exact ⟨_, ⟨t, hchild, rfl⟩, h.copyfd hrow hchild hi (h.mine_eq hrow ▸ hf) hraw⟩
  | runnable q =>
    obtain ⟨t, hchild⟩ := hn
    exact ⟨_, rfl, h.parent hchild (.inl rfl)⟩
  | zombie q =>
    obtain rfl : p = q := (h.self p).symm.trans hn.1
    exact ⟨_, rfl, h.zombie hn.2⟩
  | reap q => exact h.takes_reap q
  | panic e => exact hn

end Fits

end Fits

/-- Every action does what the rules say. -/
theorem fileRules_sound (initproc : Fin N) :
    Threads.Sound (ι := Fin N) FileAct.run (FileCall.prog initproc) fileRules
      (Held.Idle : Fin N → Held N NF NO → Prop) Fits (fun _ _ => True) (· = .initExiting) where
  act _ _ _ _ h hn _ := h.takes hn
  holds c _ _ h := prog_holds initproc c h

/-- At boot there is no reference. -/
theorem boot_fits (initproc : Fin N) :
    Fits (fun p => ⟨p, none, 0, fun _ => false, none⟩)
      (Ftable.boot initproc : Ftable N NF NO) where
  self _ := rfl
  row _ _ h := by cases h
  child _ _ _ h := by cases h
  apart _ _ _ _ _ h := by cases h
  gone _ _ := rfl
  pos p t := by
    have := descs_nonneg (fun _ : Fin NO => (none : Option (Fin NF))) t
    simpa [share, Ftable.boot] using this
  total := by
    funext t
    cases t <;>
      simp [Ftable.supply, Ftable.boot, Ftable.filed, share, descs, File.token]
  free _ _ := rfl
  live _ _ h := by cases h
  raw _ _ h := by cases h

/-! ## Between system calls -/

/-- The loop of `count_openfile` counts. -/
theorem Ftable.countOpenfile_eq (s : Ftable N NF NO) :
    s.countOpenfile = (Finset.univ.filter fun f => 0 < (s.file f).ref).card := by
  have hfold : ∀ (l : List (Fin NF)) (n : ℕ),
      l.foldl (fun total f => if 0 < (s.file f).ref then total + 1 else total) n =
        n + (l.map fun f => if 0 < (s.file f).ref then 1 else 0).sum := by
    intro l
    induction l with
    | nil => simp
    | cons f l ih =>
      intro n
      rw [List.foldl_cons, ih, List.map_cons, List.sum_cons]
      split <;> omega
  rw [countOpenfile, hfold, Finset.card_filter, Fin.sum_univ_def, Nat.zero_add]

section Quiet

variable {own : Fin N → Held N NF NO} {s : Ftable N NF NO}

/-- The slots that point to `f`. -/
def Ftable.slots (s : Ftable N NF NO) (f : Fin NF) : Finset (Fin N × Fin NO) :=
  Finset.univ.filter fun x => s.ofile x.1 x.2 = some f

variable (h : Fits own s) (hhand : ∀ p, (own p).hand = 0)

include h hhand

/-- Between calls a file counts its descriptors. -/
theorem Fits.ref_eq (f : Fin NF) :
    (s.file f).ref = (s.slots f).card := by
  have htotal := h.total_apply (.file f)
  simp only [Ftable.supply, s.filed_file f, share, hhand, add_zero, descs_apply] at htotal
  have hcard : ((s.slots f).card : ℤ) = ∑ p, ∑ fd, tok ((s.ofile p fd).map .file) (.file f) := by
    rw [Ftable.slots, Finset.card_filter, Nat.cast_sum, Fintype.sum_prod_type]
    refine Finset.sum_congr rfl fun p _ => Finset.sum_congr rfl fun fd _ => ?_
    cases hfd : s.ofile p fd <;> simp [tok]
  omega

theorem Fits.slot_of_ref (f : Fin NF) :
    0 < (s.file f).ref ↔ ∃ p fd, s.ofile p fd = some f := by
  rw [h.ref_eq hhand, Finset.card_pos]
  simp [Finset.Nonempty, Ftable.slots]

omit h hhand in
theorem File.token_eq_pipe {x : File} {pi : ℕ} {w : Bool} :
    (x.token : Option (Tok NF)) = some (.pipe pi w) ↔
      x.type = .pipe ∧ x.pipe = pi ∧ x.writable = w := by
  unfold File.token
  split <;> simp_all

/-- Is there a descriptor of the end `w` of the pipe ? -/
def Ftable.EndHeld (s : Ftable N NF NO) (pi : ℕ) (w : Bool) : Prop :=
  ∃ p fd f, s.ofile p fd = some f ∧ (s.file f).type = .pipe ∧ (s.file f).pipe = pi ∧
    (s.file f).writable = w

omit h hhand in
/-- An end is referred to by a file. -/
theorem Ftable.filed_pos {pi : ℕ} {w : Bool} : 0 < s.filed (.pipe pi w) ↔
    ∃ f, (s.file f).type = .pipe ∧ (s.file f).pipe = pi ∧ (s.file f).writable = w := by
  rw [s.filed_apply]
  constructor
  · intro hpos
    obtain ⟨f, -, hf⟩ := Finset.exists_ne_zero_of_sum_ne_zero hpos.ne'
    have htok : ((s.file f).token : Option (Tok NF)) = some (.pipe pi w) := by
      by_contra hne
      exact hf (tok_of_ne hne)
    exact ⟨f, File.token_eq_pipe.mp htok⟩
  · rintro ⟨f, hf⟩
    refine Finset.sum_pos' (fun g _ => tok_nonneg _ _) ⟨f, Finset.mem_univ f, ?_⟩
    rw [File.token_eq_pipe.mpr hf, tok_self]
    exact zero_lt_one

/-- Between system calls the tokens of pipes are in the file table. -/
theorem Fits.end_filed (pi : ℕ) (w : Bool) :
    (((s.page pi).any (·.isOpen w)).toNat : ℤ) = s.filed (.pipe pi w) := by
  have htotal := h.total_apply (.pipe pi w)
  have hnone : ∀ p, descs (s.ofile p) (.pipe pi w) = 0 := fun p => descs_of_ne_file (by simp)
  simpa only [Ftable.supply, share, hhand, add_zero, hnone, Finset.sum_const_zero, zero_add]
    using htotal

/-- An end is open if and only if a file refers to it. -/
theorem Fits.end_open (pi : ℕ) (w : Bool) :
    (s.page pi).any (·.isOpen w) = true ↔ s.EndHeld pi w := by
  have hfiled := h.end_filed hhand pi w
  constructor
  · intro hopen
    rw [hopen] at hfiled
    obtain ⟨f, htype, hpipe⟩ := Ftable.filed_pos.mp (hfiled ▸ by simp : 0 < s.filed (.pipe pi w))
    have href : 0 < (s.file f).ref := by
      refine Nat.pos_of_ne_zero fun hzero => ?_
      simp [h.free f hzero] at htype
    obtain ⟨p, fd, hfd⟩ := (h.slot_of_ref hhand f).mp href
    exact ⟨p, fd, f, hfd, htype, hpipe⟩
  · rintro ⟨p, fd, f, -, hf⟩
    have hpos := Ftable.filed_pos.mpr ⟨f, hf⟩
    by_contra hclosed
    rw [← hfiled, eq_false_of_ne_true hclosed] at hpos
    simp at hpos

/-- A pipe is there as long as one of its ends is. -/
theorem Fits.page_held (pi : ℕ) :
    (s.page pi).isSome ↔ ∃ w, s.EndHeld pi w := by
  constructor
  · intro hsome
    obtain ⟨e, he⟩ := Option.isSome_iff_exists.mp hsome
    rcases h.live pi e he with hr | hw
    · exact ⟨false, (h.end_open hhand pi false).mp (by simpa [he, PipeEnds.isOpen] using hr)⟩
    · exact ⟨true, (h.end_open hhand pi true).mp (by simpa [he, PipeEnds.isOpen] using hw)⟩
  · rintro ⟨w, hw⟩
    have hopen := (h.end_open hhand pi w).mpr hw
    cases he : s.page pi with
    | none => simp [he] at hopen
    | some e => rfl

end Quiet

/-- A process closes an end of a pipe after the last file of that end. -/
theorem Fits.closes_last {own : Fin N → Held N NF NO} {s : Ftable N NF NO} {p : Fin N} {pi : ℕ}
    {w : Bool} (h : Fits own s) (hhand : 0 < (own p).hand (.pipe pi w)) (f : Fin NF) :
    ¬ ((s.file f).type = .pipe ∧ (s.file f).pipe = pi ∧ (s.file f).writable = w) := by
  intro hf
  have hpos := Ftable.filed_pos.mpr ⟨f, hf⟩
  have hle := h.hand_le p (.pipe pi w)
  have hone : s.supply (.pipe pi w) ≤ 1 := by
    have := Bool.toNat_le ((s.page pi).any (·.isOpen w))
    simp only [Ftable.supply]
    omega
  omega

/-- In every run of `open`, `dup`, `close`, `pipe`, `fork`, `exit` and `wait` a file without
references has no type, the only panic is that of `init` exiting, and a process that closes an
end of a pipe finds the pipe and that end open, with no file left for it. When no system call is
in progress, `ref` counts the slots that point to the file, a pipe is there while one of its
ends has a descriptor, each end is open while it has one, and `count_openfile` counts the files
that some slot points to. -/
theorem open_file_counts (initproc : Fin N) {s : FileRun N NF NO}
    (h : Machine.Reach (FileRun.step initproc) (fun _ _ => True) (FileRun.boot initproc) s) :
    (∀ f, (s.shared.file f).ref = 0 → (s.shared.file f).type = .none) ∧
    (∀ p a k e, s.ctl p = some (.act a k) → a.run s.shared = .error e → e = .initExiting) ∧
    (∀ p pi w k, s.ctl p = some (.act (.pipeclose pi w) k) →
      (s.shared.page pi).any (·.isOpen w) = true ∧
      ∀ f, ¬ ((s.shared.file f).type = .pipe ∧ (s.shared.file f).pipe = pi ∧
        (s.shared.file f).writable = w)) ∧
    ((∀ p, s.ctl p = none) →
      (∀ f, (s.shared.file f).ref = (s.shared.slots f).card) ∧
      (∀ pi w, (s.shared.page pi).any (·.isOpen w) = true ↔ s.shared.EndHeld pi w) ∧
      (∀ pi, (s.shared.page pi).isSome ↔ ∃ w, s.shared.EndHeld pi w) ∧
      s.shared.countOpenfile =
        (Finset.univ.filter fun f => ∃ p fd, s.shared.ofile p fd = some f).card) := by
  have hsound : Threads.Sound (ι := Fin N) FileAct.run (FileCall.prog initproc) fileRules
      (Held.Idle : Fin N → Held N NF NO → Prop) Fits (fun _ _ => True) (· = .initExiting) :=
    fileRules_sound initproc
  have h₀ : ∃ own, Fits own (FileRun.boot initproc : FileRun N NF NO).shared ∧
      ∀ p, Threads.Owned fileRules Held.Idle ((FileRun.boot initproc : FileRun N NF NO).loc p)
        ((FileRun.boot initproc : FileRun N NF NO).ctl p) (own p) :=
    ⟨_, boot_fits initproc, fun p => ⟨rfl, rfl, rfl, rfl⟩⟩
  have h := h.mono fun s l _ => Threads.admits_true s l
  obtain ⟨own, hfit, hown⟩ := hsound.reach h h₀
  refine ⟨hfit.free, fun p a k e hc he => hsound.reach_error h h₀ hc trivial he, ?_, ?_⟩
  · intro p pi w k hc
    have hp := hown p
    rw [hc] at hp
    obtain ⟨e, hpage, hopen⟩ := hfit.page_open hp.1
    exact ⟨by simpa [hpage] using hopen, hfit.closes_last hp.1⟩
  · intro hidle
    have hhand : ∀ p, (own p).hand = 0 := fun p => by
      have hp := hown p
      rw [hidle p] at hp
      exact hp.hand
    refine ⟨hfit.ref_eq hhand, hfit.end_open hhand, hfit.page_held hhand, ?_⟩
    rw [Ftable.countOpenfile_eq]
    simp only [hfit.slot_of_ref hhand]

/-- `init` makes a pipe and forks, and the child closes the read end. -/
def pipeAndFork : List (ThreadLabel (Fin 2) (FileCall 2)) :=
  .start 0 (.pipe (some 7) true) :: List.replicate 9 (.go 0) ++
  .start 0 (.fork true) :: List.replicate 10 (.go 0) ++
  .start 1 (.close 0) :: List.replicate 5 (.go 1)

theorem open_file_counts_pipe : ∃ s : FileRun 2 3 2,
    Machine.Reach (FileRun.step 0) (fun _ _ => True) (FileRun.boot 0) s ∧
    (s.shared.file 0).ref = 1 ∧ (s.shared.file 1).ref = 2 ∧
    (s.shared.slots 0).card = 1 ∧ (s.shared.slots 1).card = 2 ∧ s.shared.EndHeld 7 false := by
  obtain ⟨s, hreach, hs⟩ := Machine.exists_reach_of_exec (FileRun.step 0) (fun _ _ => True)
    (fun s : FileRun 2 3 2 => (s.ctl 0).isNone && (s.ctl 1).isNone &&
      decide ((s.shared.file 0).ref = 1 ∧ (s.shared.file 1).ref = 2 ∧
        (s.shared.page 7).any (·.isOpen false)))
    (l := pipeAndFork) (s := FileRun.boot 0) (by decide +kernel)
  simp only [Bool.and_eq_true, Option.isNone_iff_eq_none, decide_eq_true_eq] at hs
  obtain ⟨⟨h0, h1⟩, href0, href1, hpage⟩ := hs
  obtain ⟨-, -, -, hquiet⟩ := open_file_counts 0 hreach
  obtain ⟨href, hends, -, -⟩ := hquiet fun p => by
    match p with
    | 0 => exact h0
    | 1 => exact h1
  exact ⟨s, hreach, href0, href1, (href 0).symm.trans href0, (href 1).symm.trans href1,
    (hends 7 false).mp hpage⟩

end Xv6
