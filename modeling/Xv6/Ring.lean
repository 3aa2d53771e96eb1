import Mathlib.Data.Nat.ModEq
import Mathlib.Data.List.Basic
import Mathlib.Logic.Function.Basic

/-!
# Rings indexed by free-running counters

A queue of at most `cap` elements kept in a ring : the read and the write index are
counters of `k` bits that only ever grow and wrap, and an element sits in the slot of its
counter modulo `cap`. `Holds` says that the ring holds the list `q`. If `cap` divides
`2 ^ k`, the slot of a counter does not notice the wrap (`slot_add`), so pushing and
popping act on `q` as on a queue (`Holds.push`, `Holds.pop`) and comparing the two counters
tells how long it is (`Holds.eq_iff_nil`, `Holds.eq_add_iff_full`).
-/

namespace Ring

open Function

variable {α : Type*} {k cap : ℕ}

/-- The slot of a counter. -/
def slot (cap : ℕ) (c : BitVec k) : ℕ :=
  c.toNat % cap

theorem slot_add (hdvd : cap ∣ 2 ^ k) (c : BitVec k) (i : ℕ) :
    slot cap (c + BitVec.ofNat k i) = (c.toNat + i) % cap := by
  simp [slot, BitVec.toNat_add, Nat.mod_mod_of_dvd _ hdvd]

/-- Slots less than a whole ring apart differ. -/
theorem slot_add_ne (hdvd : cap ∣ 2 ^ k) (c : BitVec k) {i j : ℕ} (hij : i < j) (hj : j < cap) :
    slot cap (c + BitVec.ofNat k i) ≠ slot cap (c + BitVec.ofNat k j) := by
  rw [slot_add hdvd, slot_add hdvd]
  intro h
  have h' : i ≡ j [MOD cap] := Nat.ModEq.add_left_cancel' _ h
  exact hij.ne (Nat.ModEq.eq_of_lt_of_lt h' (hij.trans hj) hj)

/-- The ring `data` holds `q` between the counters `r` and `w`. -/
structure Holds (cap : ℕ) (data : ℕ → α) (r w : BitVec k) (q : List α) : Prop where
  le : q.length ≤ cap
  count : w = r + BitVec.ofNat k q.length
  get : ∀ i (hi : i < q.length), data (slot cap (r + BitVec.ofNat k i)) = q[i]

namespace Holds

variable {data : ℕ → α} {r w : BitVec k} {q : List α} {x : α}

theorem nil (data : ℕ → α) (r : BitVec k) : Holds cap data r r [] where
  le := Nat.zero_le _
  count := by simp
  get i hi := absurd hi (by simp)

theorem eq_iff_nil (h : Holds cap data r w q) (hcap : cap < 2 ^ k) : r = w ↔ q = [] := by
  constructor
  · intro hrw
    have h0 : BitVec.ofNat k q.length = 0#k := by
      have := h.count
      rw [← hrw] at this
      simpa using this.symm
    have hlen : q.length = 0 := by
      have := congrArg BitVec.toNat h0
      simpa [Nat.mod_eq_of_lt (h.le.trans_lt hcap)] using this
    exact List.eq_nil_of_length_eq_zero hlen
  · rintro rfl
    simpa using h.count.symm

theorem eq_add_iff_full (h : Holds cap data r w q) (hcap : cap < 2 ^ k) :
    w = r + BitVec.ofNat k cap ↔ q.length = cap := by
  rw [h.count, BitVec.add_right_inj]
  constructor
  · intro he
    have := congrArg BitVec.toNat he
    simpa [Nat.mod_eq_of_lt (h.le.trans_lt hcap), Nat.mod_eq_of_lt hcap] using this
  · intro he
    rw [he]

/-- While there is room, the slot of `w` is that of no element. -/
theorem write (h : Holds cap data r w q) (hdvd : cap ∣ 2 ^ k) (hlt : q.length < cap) (x : α) :
    Holds cap (update data (slot cap w) x) r w q where
  le := h.le
  count := h.count
  get i hi := by
    have hne := slot_add_ne hdvd r hi hlt
    rw [← h.count] at hne
    rw [update_of_ne hne, h.get i hi]

/-- What the slot of `w` has is appended. -/
theorem advance (h : Holds cap data r w q) (hlt : q.length < cap) (hx : data (slot cap w) = x) :
    Holds cap data r (w + 1#k) (q ++ [x]) where
  le := by
    rw [List.length_append, List.length_singleton]
    exact hlt
  count := by
    rw [h.count, List.length_append, List.length_singleton, BitVec.ofNat_add, BitVec.add_assoc]
  get i hi := by
    rcases Nat.lt_or_ge i q.length with hi' | hi'
    · rw [h.get i hi', List.getElem_append_left hi']
    · obtain rfl : i = q.length := by simp at hi; omega
      rw [← h.count, hx]
      simp

/-- The element counted by `w` goes to the end. -/
theorem push (h : Holds cap data r w q) (hdvd : cap ∣ 2 ^ k) (hlt : q.length < cap) (x : α) :
    Holds cap (update data (slot cap w) x) r (w + 1#k) (q ++ [x]) :=
  (h.write hdvd hlt x).advance hlt (update_self ..)

/-- The element before `w` is the last. -/
theorem last (h : Holds cap data r w (q ++ [x])) : data (slot cap (w - 1#k)) = x := by
  have hw : w - 1#k = r + BitVec.ofNat k q.length := by
    rw [h.count, List.length_append, List.length_singleton, BitVec.ofNat_add, ← BitVec.add_assoc,
      BitVec.add_sub_cancel]
  have := h.get q.length (by simp)
  rw [hw, this]
  simp

/-- The last element is taken back. -/
theorem unpush (h : Holds cap data r w (q ++ [x])) : Holds cap data r (w - 1#k) q where
  le := Nat.le_of_succ_le (by simpa using h.le)
  count := by
    rw [h.count, List.length_append, List.length_singleton, BitVec.ofNat_add, ← BitVec.add_assoc,
      BitVec.add_sub_cancel]
  get i hi := by
    rw [h.get i (by simp; omega), List.getElem_append_left hi]

/-- The element counted by `r` is the first. -/
theorem head (h : Holds cap data r w (x :: q)) : data (slot cap r) = x := by
  have := h.get 0 (by simp)
  rwa [BitVec.add_zero, List.getElem_cons_zero] at this

theorem add_one_add (c : BitVec k) (i : ℕ) :
    c + 1#k + BitVec.ofNat k i = c + BitVec.ofNat k (i + 1) := by
  rw [BitVec.ofNat_add, BitVec.add_assoc, BitVec.add_comm (1#k)]

theorem pop (h : Holds cap data r w (x :: q)) : Holds cap data (r + 1#k) w q where
  le := Nat.le_of_succ_le (by simpa using h.le)
  count := by rw [h.count, List.length_cons, add_one_add]
  get i hi := by
    have := h.get (i + 1) (by simpa using hi)
    rwa [← add_one_add, List.getElem_cons_succ] at this

/-- A part of the ring holds the first elements. -/
theorem left {l : List α} (h : Holds cap data r w (q ++ l)) :
    Holds cap data r (r + BitVec.ofNat k q.length) q where
  le := by
    have := h.le
    rw [List.length_append] at this
    omega
  count := rfl
  get i hi := by
    rw [h.get i (by rw [List.length_append]; omega), List.getElem_append_left hi]

/-- The rest of the ring holds the other elements. -/
theorem right {l : List α} (h : Holds cap data r w (q ++ l)) :
    Holds cap data (r + BitVec.ofNat k q.length) w l where
  le := by
    have := h.le
    rw [List.length_append] at this
    omega
  count := by rw [h.count, List.length_append, BitVec.ofNat_add, BitVec.add_assoc]
  get i hi := by
    have := h.get (q.length + i) (by rw [List.length_append]; omega)
    rw [BitVec.ofNat_add, ← BitVec.add_assoc] at this
    rw [this]
    simp

/-- The counters tell how many elements there are. -/
theorem length_eq (h : Holds cap data r w q) (hcap : cap < 2 ^ k) : (w - r).toNat = q.length := by
  have hsub : w - r = BitVec.ofNat k q.length := by
    rw [h.count, BitVec.add_comm, BitVec.add_sub_cancel]
  rw [hsub, BitVec.toNat_ofNat, Nat.mod_eq_of_lt (h.le.trans_lt hcap)]

/-- The elements, read off the ring. -/
theorem eq_map (h : Holds cap data r w q) (hcap : cap < 2 ^ k) :
    (List.range (w - r).toNat).map (fun i => data (slot cap (r + BitVec.ofNat k i))) = q := by
  rw [h.length_eq hcap]
  refine List.ext_getElem (by simp) fun i h1 h2 => ?_
  rw [List.getElem_map, List.getElem_range, h.get i h2]

end Holds

end Ring
