import Mathlib.Data.List.Nodup
import Mathlib.Logic.Function.Iterate

/-!
# Circular doubly linked lists

Nodes with a `next` and a `prev` pointer each, and one node `h` that serves as the head of a
circular list. `Ring h l` says that following `next` from `h` visits the nodes of `l` in order
and comes back to `h`, and that `prev` goes the other way. Taking a node out (`unlink`) and
putting one behind the head (`push`) are the usual assignments, one after the other. A search
along the pointers finds what a search of the list finds (`Ring.scan_next`, `Ring.scan_prev`).
-/

open Function

structure Links (ν : Type*) where
  next : ν → ν
  prev : ν → ν

namespace Links

variable {ν : Type*} {L L' : Links ν} {a b c h : ν} {l l₁ l₂ : List ν}

/-! ## Paths -/

/-- From `a` through the nodes `l` to `c`, and back. -/
def Path (L : Links ν) : ν → List ν → ν → Prop
  | a, [], c => L.next a = c ∧ L.prev c = a
  | a, b :: l, c => (L.next a = b ∧ L.prev b = a) ∧ L.Path b l c

theorem path_append : L.Path a (l₁ ++ b :: l₂) c ↔ L.Path a l₁ b ∧ L.Path b l₂ c := by
  induction l₁ generalizing a with
  | nil => rfl
  | cons x l ih => simp only [List.cons_append, Path, ih, and_assoc]

/-- A path is kept by changes to other pointers. -/
theorem Path.frame (hp : L.Path a l c) (hn : ∀ x ∈ a :: l, L'.next x = L.next x)
    (hv : ∀ x ∈ l ++ [c], L'.prev x = L.prev x) : L'.Path a l c := by
  induction l generalizing a with
  | nil => exact ⟨(hn a (by simp)).trans hp.1, (hv c (by simp)).trans hp.2⟩
  | cons b l ih =>
    refine ⟨⟨(hn a (by simp)).trans hp.1.1, (hv b (by simp)).trans hp.1.2⟩, ?_⟩
    exact ih hp.2 (fun x hx => hn x (List.mem_cons_of_mem a hx))
      fun x hx => hv x (List.mem_cons_of_mem b hx)

theorem Path.next_mem (hp : L.Path a l c) : L.next a ∈ l ++ [c] := by
  cases l with
  | nil => simp [hp.1]
  | cons b l => simp [hp.1.1]

theorem Path.prev_mem (hp : L.Path a l c) : L.prev c ∈ a :: l := by
  induction l generalizing a with
  | nil => simp [hp.2]
  | cons b l ih => exact List.mem_cons_of_mem a (ih hp.2)

/-- Every node but the last has a successor, of which it is the predecessor. -/
theorem Path.prev_next (hp : L.Path a l c) {x : ν} (hx : x ∈ a :: l) :
    L.prev (L.next x) = x := by
  induction l generalizing a with
  | nil =>
    obtain rfl : x = a := by simpa using hx
    rw [hp.1, hp.2]
  | cons b l ih =>
    rcases List.mem_cons.mp hx with rfl | hx
    · rw [hp.1.1, hp.1.2]
    · exact ih hp.2 hx

theorem Path.next_prev (hp : L.Path a l c) {x : ν} (hx : x ∈ l ++ [c]) :
    L.next (L.prev x) = x := by
  induction l generalizing a with
  | nil =>
    obtain rfl : x = c := by simpa using hx
    rw [hp.2, hp.1]
  | cons b l ih =>
    rcases List.mem_cons.mp hx with rfl | hx
    · rw [hp.1.2, hp.1.1]
    · exact ih hp.2 hx

/-- The `k`-th node along `next`. -/
theorem Path.iterate_next (hp : L.Path a l c) (k : ℕ) (hk : k ≤ l.length) :
    (l ++ [c])[k]? = some (L.next^[k + 1] a) := by
  induction l generalizing a k with
  | nil =>
    obtain rfl : k = 0 := by simpa using hk
    simp [hp.1]
  | cons b l ih =>
    cases k with
    | zero => simp [hp.1.1]
    | succ k =>
      rw [iterate_succ_apply, hp.1.1]
      simpa using ih hp.2 k (by simpa using hk)

/-- Read from the other end, with the pointers exchanged. -/
theorem Path.reverse (hp : L.Path a l c) : Path ⟨L.prev, L.next⟩ c l.reverse a := by
  induction l generalizing a with
  | nil => exact ⟨hp.2, hp.1⟩
  | cons b l ih =>
    rw [List.reverse_cons, path_append]
    exact ⟨ih hp.2, hp.1.2, hp.1.1⟩

/-! ## Rings -/

/-- The circular list of `h` and then `l`. -/
structure Ring (L : Links ν) (h : ν) (l : List ν) : Prop where
  nodup : (h :: l).Nodup
  path : L.Path h l h

theorem Ring.reverse (hr : L.Ring h l) : Ring ⟨L.prev, L.next⟩ h l.reverse where
  nodup := by simpa using hr.nodup
  path := hr.path.reverse

/-- Walk from `a` along `nxt` until `h`, for `fuel` nodes, and return the first node that
satisfies `p`. -/
def scan [DecidableEq ν] (nxt : ν → ν) (h : ν) (p : ν → Bool) : (fuel : ℕ) → ν → Option (Option ν)
  | 0, _ => none
  | fuel + 1, a =>
    if a = h then some none else if p a then some (some a) else scan nxt h p fuel (nxt a)

theorem Path.scan [DecidableEq ν] (hp : L.Path a l h) (hh : h ∉ l) (p : ν → Bool) :
    scan L.next h p (l.length + 1) (L.next a) = some (l.find? p) := by
  induction l generalizing a with
  | nil => simp [Links.scan, hp.1]
  | cons b l ih =>
    have hb : b ≠ h := fun he => hh (by simp [he])
    rw [hp.1.1, Links.scan, if_neg hb, List.find?_cons]
    cases hpb : p b with
    | true => simp
    | false => simpa using ih hp.2 fun hl => hh (List.mem_cons_of_mem b hl)

theorem Ring.not_mem (hr : L.Ring h l) : h ∉ l := (List.nodup_cons.mp hr.nodup).1

theorem Ring.scan_next [DecidableEq ν] (hr : L.Ring h l) (p : ν → Bool) :
    scan L.next h p (l.length + 1) (L.next h) = some (l.find? p) :=
  hr.path.scan hr.not_mem p

theorem Ring.scan_prev [DecidableEq ν] (hr : L.Ring h l) (p : ν → Bool) :
    scan L.prev h p (l.length + 1) (L.prev h) = some (l.reverse.find? p) := by
  simpa using hr.reverse.scan_next p

/-! ## Taking out and putting in -/

variable [DecidableEq ν]

/-- `b->next->prev = b->prev; b->prev->next = b->next` -/
def unlink (L : Links ν) (b : ν) : Links ν :=
  let L := { L with prev := update L.prev (L.next b) (L.prev b) }
  { L with next := update L.next (L.prev b) (L.next b) }

/-- `b->next = h->next; b->prev = h; h->next->prev = b; h->next = b` -/
def push (L : Links ν) (h b : ν) : Links ν :=
  let L := { L with next := update L.next b (L.next h) }
  let L := { L with prev := update L.prev b h }
  let L := { L with prev := update L.prev (L.next h) b }
  { L with next := update L.next h b }

theorem Path.unlink (h₁ : L.Path a l₁ b) (h₂ : L.Path b l₂ c) (hd : (a :: (l₁ ++ b :: l₂)).Nodup)
    (hc : c ∉ l₁ ++ b :: l₂) : (L.unlink b).Path a (l₁ ++ l₂) c := by
  have hb : L.next b ≠ b := fun he => by
    have hmem := h₂.next_mem
    rw [he] at hmem
    rcases List.mem_append.mp hmem with hm | hm
    · exact (List.nodup_cons.mp (List.nodup_append.mp (List.nodup_cons.mp hd).2).2.1).1 hm
    · exact hc (by simp [(List.mem_singleton.mp hm).symm])
  have hnext : (L.unlink b).next = update L.next (L.prev b) (L.next b) := by
    simp [Links.unlink, update_of_ne hb.symm]
  have hprev : (L.unlink b).prev = update L.prev (L.next b) (L.prev b) := rfl
  induction l₁ generalizing a with
  | nil =>
    obtain ⟨hab, hba⟩ := h₁
    have hal : a ∉ l₂ := fun hm => (List.nodup_cons.mp hd).1 (by simp [hm])
    rw [hba] at hnext hprev
    cases l₂ with
    | nil =>
      refine ⟨by rw [hnext, update_self]; exact h₂.1, ?_⟩
      rw [hprev, h₂.1, update_self]
    | cons x l =>
      obtain ⟨⟨hbx, hxb⟩, hx⟩ := h₂
      refine ⟨⟨by rw [hnext, update_self, hbx], by rw [hprev, hbx, update_self]⟩, ?_⟩
      refine hx.frame (fun y hy => ?_) fun y hy => ?_
      · have hya : y ≠ a := fun he => hal (he ▸ hy)
        rw [hnext, update_of_ne hya]
      · rw [hprev, hbx, update_of_ne]
        rintro rfl
        rcases List.mem_append.mp hy with hm | hm
        · simp [hm] at hd
        · exact hc (by simp [(List.mem_singleton.mp hm).symm])
  | cons x l ih =>
    obtain ⟨⟨hax, hxa⟩, hx⟩ := h₁
    have hd' : (x :: (l ++ b :: l₂)).Nodup := (List.nodup_cons.mp hd).2
    refine ⟨⟨?_, ?_⟩, ih hx hd' fun hm => hc (List.mem_cons_of_mem x hm)⟩
    · rw [hnext, update_of_ne, hax]
      rintro rfl
      have hmem := hx.prev_mem
      exact (List.nodup_cons.mp hd).1 (by
        rw [List.cons_append]
        rcases List.mem_cons.mp hmem with he | hm
        · simp [← he]
        · exact List.mem_cons_of_mem x (List.mem_append_left _ hm))
    · rw [hprev, update_of_ne, hxa]
      rintro rfl
      rcases List.mem_append.mp h₂.next_mem with hm | hm
      · exact (List.nodup_cons.mp hd').1 (by simp [hm])
      · exact hc (by simp [(List.mem_singleton.mp hm).symm])

theorem Ring.unlink (hr : L.Ring h (l₁ ++ b :: l₂)) : (L.unlink b).Ring h (l₁ ++ l₂) := by
  obtain ⟨h₁, h₂⟩ := path_append.mp hr.path
  refine ⟨?_, h₁.unlink h₂ hr.nodup hr.not_mem⟩
  exact hr.nodup.sublist ((List.append_sublist_append_left l₁).mpr (List.sublist_cons_self b l₂)
    |>.cons_cons h)

theorem Ring.push (hr : L.Ring h l) (hb : b ∉ h :: l) : (L.push h b).Ring h (b :: l) := by
  have hbh : b ≠ h := fun he => hb (by simp [he])
  have hnb : L.next h ≠ b := fun he => by
    have hmem := hr.path.next_mem
    rw [he] at hmem
    rcases List.mem_append.mp hmem with hm | hm
    · exact hb (List.mem_cons_of_mem h hm)
    · exact hbh (List.mem_singleton.mp hm)
  have hnext : ∀ x, x ≠ h → x ≠ b → (L.push h b).next x = L.next x := fun x hx hx' => by
    simp [Links.push, hx, hx']
  have hprev : ∀ x, x ≠ L.next h → x ≠ b → (L.push h b).prev x = L.prev x := fun x hx hx' => by
    simp [Links.push, hx', update_of_ne hbh.symm, hx]
  have hbn : (L.push h b).next b = L.next h := by simp [Links.push, hbh]
  have hnp : (L.push h b).prev (L.next h) = b := by simp [Links.push, update_of_ne hbh.symm]
  refine ⟨?_, ⟨by simp [Links.push], ?_⟩, ?_⟩
  · have hd := hr.nodup
    simp only [List.mem_cons, not_or] at hb
    simp only [List.nodup_cons, List.mem_cons, not_or] at hd ⊢
    exact ⟨⟨hbh.symm, hd.1⟩, hb.2, hd.2⟩
  · simp [Links.push, update_of_ne hbh.symm, hnb.symm]
  · cases l with
    | nil =>
      have hh : L.next h = h := hr.path.1
      rw [hh] at hbn hnp
      exact ⟨hbn, hnp⟩
    | cons x l =>
      obtain ⟨⟨hx, -⟩, hp⟩ := hr.path
      rw [hx] at hbn hnp
      refine ⟨⟨hbn, hnp⟩, hp.frame (fun y hy => ?_) fun y hy => ?_⟩
      · refine hnext y (fun he => hr.not_mem (he ▸ hy)) fun he => hb ?_
        exact List.mem_cons_of_mem h (he ▸ hy)
      · have hd : x ∉ l := (List.nodup_cons.mp (List.nodup_cons.mp hr.nodup).2).1
        rcases List.mem_append.mp hy with hm | hm
        · refine hprev y (fun he => hd ?_) fun he => hb ?_
          · rw [hx] at he
            exact he ▸ hm
          · exact List.mem_cons_of_mem h (List.mem_cons_of_mem x (he ▸ hm))
        · obtain rfl := List.mem_singleton.mp hm
          refine hprev y (fun he => hr.not_mem ?_) hbh.symm
          rw [hx] at he
          simp [← he]

theorem Ring.toFront (hr : L.Ring h (l₁ ++ b :: l₂)) :
    ((L.unlink b).push h b).Ring h (b :: (l₁ ++ l₂)) := by
  refine hr.unlink.push fun hm => ?_
  rcases List.mem_cons.mp hm with rfl | hm
  · exact hr.not_mem (by simp)
  · exact (List.nodup_cons.mp (List.nodup_middle.mp (List.nodup_cons.mp hr.nodup).2)).1 hm

end Links
