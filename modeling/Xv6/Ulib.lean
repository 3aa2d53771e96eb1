import Xv6.Memory

/-!
# Functions of the user library

`strchr`, `strlen` and `memmove` of `ulib.c`, on a memory, and the `memmove` of the kernel's
`string.c`. Both versions of `memmove` copy upwards or downwards, each by a test of its own, so
that no byte is overwritten before it has been copied (`memmove_eq`, `Kernel.memmove_eq`). An
address is a number that does not wrap around.

The length is a `uint` in the kernel and an `int` in the user library, so the user's `memmove`
does nothing when the length has its top bit set. For every other length the two agree
(`memmove_moves`).
-/

namespace Xv6.Ulib

open Function

/-- `strchr(s, c)`, of a string that ends before `s + n`. -/
def strchr (m : Ram) (c : UInt8) : (n s : ℕ) → Option ℕ
  | 0, _ => none
  | n + 1, s => if m s = 0 then none else if m s = c then some s else strchr m c n (s + 1)

/-- `strlen(s)`, of a string that ends before `s + n`. -/
def strlen (m : Ram) : (n s : ℕ) → ℕ
  | 0, _ => 0
  | n + 1, s => if m s = 0 then 0 else strlen m n (s + 1) + 1

/-- `while(n-- > 0) *dst++ = *src++;` -/
def copyUp : (n : ℕ) → Ram → (dst src : ℕ) → Ram
  | 0, m, _, _ => m
  | n + 1, m, dst, src => copyUp n (update m dst (m src)) (dst + 1) (src + 1)

/-- `while(n-- > 0) *--dst = *--src;` -/
def copyDown : (n : ℕ) → Ram → (dst src : ℕ) → Ram
  | 0, m, _, _ => m
  | n + 1, m, dst, src => copyDown n (update m (dst - 1) (m (src - 1))) (dst - 1) (src - 1)

/-- `memmove(dst, src, n)`, where `n` is an `int`. -/
def memmove (m : Ram) (dst src : ℕ) (n : ℤ) : Ram :=
  if src > dst then copyUp n.toNat m dst src
  else copyDown n.toNat m (dst + n).toNat (src + n).toNat

variable {m : Ram} {dst src n : ℕ} {c : UInt8}

/-- A copy to lower addresses, or one between ranges that do not meet, may go upwards. -/
theorem copyUp_eq (h : dst ≤ src ∨ src + n ≤ dst) :
    copyUp n m dst src = m.memmove dst src n := by
  induction n generalizing m dst src with
  | zero => exact Ram.write_zero.symm
  | succ n ih =>
    rw [copyUp, ih (by omega)]
    funext x
    unfold Ram.memmove
    by_cases hx : dst + 1 ≤ x ∧ x < dst + 1 + n
    · rw [Ram.write_of_mem hx.1 hx.2, Ram.write_of_mem (by omega) (by omega),
        update_of_ne (by omega)]
      congr 1
      omega
    · rw [Ram.write_of_disjoint hx]
      by_cases hd : x = dst
      · rw [hd, update_self, Ram.write_of_mem le_rfl (by omega), Nat.sub_self, Nat.add_zero]
      · rw [update_of_ne hd, Ram.write_of_disjoint (by omega)]

theorem copyDown_eq (h : src ≤ dst) : copyDown n m (dst + n) (src + n) = m.memmove dst src n := by
  induction n generalizing m with
  | zero => exact Ram.write_zero.symm
  | succ n ih =>
    have hdst : dst + (n + 1) - 1 = dst + n := by omega
    have hsrc : src + (n + 1) - 1 = src + n := by omega
    rw [copyDown, hdst, hsrc, ih]
    funext x
    unfold Ram.memmove
    by_cases hx : dst ≤ x ∧ x < dst + n
    · rw [Ram.write_of_mem hx.1 hx.2, Ram.write_of_mem hx.1 (by omega), update_of_ne (by omega)]
    · rw [Ram.write_of_disjoint hx]
      by_cases hd : x = dst + n
      · rw [hd, update_self, Ram.write_of_mem (by omega) (by omega), Nat.add_sub_cancel_left]
      · rw [update_of_ne hd, Ram.write_of_disjoint (by omega)]

/-- `memmove` copies all bytes at once. -/
theorem memmove_eq {n : ℤ} : memmove m dst src n = m.memmove dst src n.toNat := by
  unfold memmove
  split
  · exact copyUp_eq (by omega)
  · by_cases hn : 0 ≤ n
    · rw [show (dst + n).toNat = dst + n.toNat by omega,
        show (src + n).toNat = src + n.toNat by omega]
      exact copyDown_eq (by omega)
    · rw [Int.toNat_of_nonpos (by omega)]
      exact Ram.write_zero.symm

theorem strlen_eq {s : ℕ} : strlen m n s = (m.str n s).length := by
  induction n generalizing s with
  | zero => rfl
  | succ n ih =>
    rw [strlen, Ram.str]
    split
    · rfl
    · rw [ih, List.length_cons]

/-- `strchr` finds the first place of `c`. -/
theorem strchr_eq {s : ℕ} {w v : List UInt8} (hw : m.slice s (w ++ c :: v).length = w ++ c :: v)
    (h0 : 0 ∉ w) (hc : c ∉ w) (hc0 : c ≠ 0) (hn : w.length < n) :
    strchr m c n s = some (s + w.length) := by
  induction w generalizing s n with
  | nil =>
    obtain ⟨n, rfl⟩ := Nat.exists_eq_succ_of_ne_zero (Nat.ne_of_gt hn)
    rw [List.nil_append, List.length_cons, Ram.slice_succ, List.cons.injEq] at hw
    rw [strchr, hw.1, if_neg hc0, if_pos rfl]
    rfl
  | cons x w ih =>
    obtain ⟨n, rfl⟩ := Nat.exists_eq_succ_of_ne_zero (Nat.ne_of_gt (Nat.zero_lt_of_lt hn))
    rw [List.cons_append, List.length_cons, Ram.slice_succ, List.cons.injEq] at hw
    rw [List.mem_cons, not_or] at h0 hc
    rw [strchr, hw.1, if_neg (Ne.symm h0.1), if_neg (Ne.symm hc.1),
      ih hw.2 h0.2 hc.2 (Nat.lt_of_succ_lt_succ hn), List.length_cons]
    congr 1
    omega

/-- `strchr` finds nothing in a string without `c`. -/
theorem strchr_none {s : ℕ} {w : List UInt8} (hw : m.slice s w.length = w) (hc : c ∉ w)
    (hnul : m (s + w.length) = 0) : strchr m c n s = none := by
  induction w generalizing s n with
  | nil =>
    cases n with
    | zero => rfl
    | succ n => exact if_pos hnul
  | cons x w ih =>
    cases n with
    | zero => rfl
    | succ n =>
      rw [List.length_cons, Ram.slice_succ, List.cons.injEq] at hw
      rw [List.mem_cons, not_or] at hc
      rw [List.length_cons, Nat.add_comm w.length, ← Nat.add_assoc] at hnul
      rw [strchr, hw.1, if_neg (Ne.symm hc.1), ih hw.2 hc.2 hnul, ite_self]

/-! ## The kernel's `memmove` -/

/-- `memmove(dst, src, n)` of `string.c`, where `n` is a `uint`. -/
def Kernel.memmove (m : Ram) (dst src n : ℕ) : Ram :=
  if n = 0 then m
  else if src < dst ∧ src + n > dst then copyDown n m (dst + n) (src + n)
  else copyUp n m dst src

theorem Kernel.memmove_eq : Kernel.memmove m dst src n = m.memmove dst src n := by
  unfold Kernel.memmove
  split_ifs with h0 h
  · rw [h0, Ram.memmove, Ram.write_zero]
  · exact copyDown_eq h.1.le
  · exact copyUp_eq (by omega)

/-- After a copy of `n` bytes the range at `dst` has what was in the range at `src`, and nothing
else has changed. -/
def Moved (m m' : Ram) (dst src n : ℕ) : Prop :=
  (∀ i < n, m' (dst + i) = m (src + i)) ∧ ∀ x, ¬ (dst ≤ x ∧ x < dst + n) → m' x = m x

theorem moved_memmove : Moved m (m.memmove dst src n) dst src n := by
  refine ⟨fun i hi => ?_, fun x hx => Ram.write_of_disjoint hx⟩
  rw [Ram.memmove, Ram.write_of_mem (by omega) (by omega), Nat.add_sub_cancel_left]

/-- Both versions move the bytes of their length, which is the same if its top bit is clear. -/
theorem memmove_moves (m : Ram) (dst src : ℕ) (n : BitVec 32) :
    Moved m (Kernel.memmove m dst src n.toNat) dst src n.toNat ∧
    Moved m (memmove m dst src n.toInt) dst src n.toInt.toNat ∧
    (n.toNat < 2 ^ 31 → n.toInt.toNat = n.toNat ∧
      memmove m dst src n.toInt = Kernel.memmove m dst src n.toNat) := by
  rw [Kernel.memmove_eq, memmove_eq]
  refine ⟨moved_memmove, moved_memmove, fun h => ?_⟩
  have hn : n.toInt.toNat = n.toNat := by
    rw [BitVec.toInt_eq_toNat_of_lt (by omega), Int.toNat_natCast]
  exact ⟨hn, by rw [hn]⟩

theorem memmove_moves_three : memmove (fun x => UInt8.ofNat x) 2 1 3 4 = 3 ∧
    Kernel.memmove (fun x => UInt8.ofNat x) 2 1 3 4 = 3 := by
  obtain ⟨-, hu, hk⟩ := memmove_moves (fun x => UInt8.ofNat x) 2 1 3#32
  exact ⟨hu.1 2 (by decide), (congrFun (hk (by decide)).2 4).symm.trans (hu.1 2 (by decide))⟩

/-- Of a length of `2 ^ 31` the user's `memmove` moves nothing, and the kernel's everything. -/
theorem memmove_top_bit : ¬ ∀ (m : Ram) (dst src : ℕ) (n : BitVec 32),
    Moved m (memmove m dst src n.toInt) dst src n.toNat ∧
      memmove m dst src n.toInt = Kernel.memmove m dst src n.toNat := by
  intro h
  obtain ⟨⟨hmoved, -⟩, -⟩ := h (fun x => UInt8.ofNat x) 0 1 (2 ^ 31)
  have hzero := hmoved 0 (by decide)
  rw [memmove_eq, show (BitVec.toInt (2 ^ 31 : BitVec 32)).toNat = 0 by decide, Ram.memmove,
    Ram.write_zero] at hzero
  exact absurd hzero (by decide)

end Xv6.Ulib
