import Mathlib.Data.Set.Basic
import Mathlib.Data.List.Nodup
import Mathlib.Algebra.Order.Ring.Nat

/-!
# Byte memory

A memory is a function from addresses to bytes. `Ram.write` replaces the bytes of a range,
and `memset`, `memmove` and the store of a number are instances of it. A number is held with
its low byte first (`Ram.load`, `Ram.store`), of any width. What an operation leaves alone is
read off `Ram.write_of_disjoint`, and `Ram.load_congr` says which bytes a load depends on.

`Chain next nil a l` : following `next` from `a` visits the nodes `l` and ends at `nil`.
-/

/-- A byte at each address. -/
abbrev Ram := ℕ → UInt8

/-- The bytes of a text. -/
def ascii (l : List Char) : List UInt8 := l.map Char.toUInt8

namespace Ram

variable {m m' : Ram} {a b n k v : ℕ} {src src' : ℕ → UInt8} {c : UInt8}

/-- The `n` bytes from `a` on become those of `src`. -/
def write (m : Ram) (a : ℕ) (src : ℕ → UInt8) (n : ℕ) : Ram := fun x =>
  if a ≤ x ∧ x < a + n then src (x - a) else m x

/-- `memset(a, c, n)` -/
def memset (m : Ram) (a : ℕ) (c : UInt8) (n : ℕ) : Ram := m.write a (fun _ => c) n

/-- `memmove(dst, src, n)` -/
def memmove (m : Ram) (dst src n : ℕ) : Ram := m.write dst (fun i => m (src + i)) n

/-- The number in the `n` bytes from `a` on. -/
def load (m : Ram) : (n a : ℕ) → ℕ
  | 0, _ => 0
  | n + 1, a => (m a).toNat + 256 * load m n (a + 1)

/-- The number `v` is put into the `n` bytes from `a` on. -/
def store (m : Ram) (n a v : ℕ) : Ram := m.write a (fun i => UInt8.ofNat (v / 256 ^ i)) n

theorem write_of_mem {x : ℕ} (h : a ≤ x) (h' : x < a + n) : m.write a src n x = src (x - a) :=
  if_pos ⟨h, h'⟩

theorem write_of_disjoint {x : ℕ} (h : ¬ (a ≤ x ∧ x < a + n)) : m.write a src n x = m x :=
  if_neg h

@[simp] theorem write_zero : m.write a src 0 = m :=
  funext fun x => write_of_disjoint (by omega)

theorem write_congr (h : ∀ i < n, src' i = src i) : m.write a src' n = m.write a src n := by
  funext x
  by_cases hx : a ≤ x ∧ x < a + n
  · rw [write_of_mem hx.1 hx.2, write_of_mem hx.1 hx.2, h _ (by omega)]
  · rw [write_of_disjoint hx, write_of_disjoint hx]

/-- Two writes one after the other are one write. -/
theorem write_write : (m.write a src n).write (a + n) (fun i => src (n + i)) k =
    m.write a src (n + k) := by
  funext x
  by_cases h : a + n ≤ x ∧ x < a + n + k
  · rw [write_of_mem h.1 h.2, write_of_mem (by omega) (by omega)]
    congr 1
    omega
  · rw [write_of_disjoint h]
    by_cases h' : a ≤ x ∧ x < a + n
    · rw [write_of_mem h'.1 h'.2, write_of_mem h'.1 (by omega)]
    · rw [write_of_disjoint h', write_of_disjoint (by omega)]

theorem load_congr (h : ∀ x, a ≤ x → x < a + n → m' x = m x) : m'.load n a = m.load n a := by
  induction n generalizing a with
  | zero => rfl
  | succ n ih =>
    rw [load, load, h a (Nat.le_refl a) (by omega),
      ih fun x hx hlt => h x (by omega) (by omega)]

theorem load_zero : load (fun _ => 0) n a = 0 := by
  induction n generalizing a with
  | zero => rfl
  | succ n ih =>
    rw [load, ih]
    rfl

theorem load_lt (m : Ram) (n a : ℕ) : m.load n a < 256 ^ n := by
  induction n generalizing a with
  | zero => exact Nat.one_pos
  | succ n ih =>
    have hb := (m a).toNat_lt
    have hr := ih (a + 1)
    rw [load, pow_succ]
    omega

theorem load_store_self : (m.store n a v).load n a = v % 256 ^ n := by
  induction n generalizing m a v with
  | zero => simp [load, Nat.mod_one]
  | succ n ih =>
    have htail : (m.store (n + 1) a v).load n (a + 1) =
        (m.store n (a + 1) (v / 256)).load n (a + 1) := by
      refine load_congr fun x hx hlt => ?_
      unfold store
      rw [write_of_mem (by omega) (by omega), write_of_mem hx hlt, Nat.div_div_eq_div_mul,
        ← pow_succ', show x - a = x - (a + 1) + 1 by omega]
    have hhead : ((m.store (n + 1) a v) a).toNat = v % 256 := by
      unfold store
      rw [write_of_mem (Nat.le_refl a) (by omega)]
      simp
    rw [load, hhead, htail, ih, pow_succ', Nat.mod_mul]

theorem load_write_of_disjoint (h : b + k ≤ a ∨ a + n ≤ b) :
    (m.write a src n).load k b = m.load k b :=
  load_congr fun x hx hlt => write_of_disjoint (by omega)

theorem load_store_of_disjoint (h : b + k ≤ a ∨ a + n ≤ b) :
    (m.store n a v).load k b = m.load k b :=
  load_write_of_disjoint h

/-- The same bytes are the same number. -/
theorem load_shift (h : ∀ i < k, m' (b + i) = m (a + i)) : m'.load k b = m.load k a := by
  induction k generalizing a b with
  | zero => rfl
  | succ k ih =>
    have h0 := h 0 (Nat.succ_pos k)
    rw [Nat.add_zero, Nat.add_zero] at h0
    rw [load, load, h0, ih fun i hi => ?_]
    have hi := h (i + 1) (by omega)
    rwa [← Nat.add_assoc, ← Nat.add_assoc, Nat.add_right_comm b, Nat.add_right_comm a] at hi

/-- The `n` bytes from `a` on. -/
def slice (m : Ram) (a n : ℕ) : List UInt8 := (List.range n).map fun i => m (a + i)

@[simp] theorem length_slice : (m.slice a n).length = n := by rw [slice, List.length_map,
  List.length_range]

theorem slice_congr (h : ∀ i < n, m' (b + i) = m (a + i)) : m'.slice b n = m.slice a n :=
  List.map_congr_left fun i hi => h i (List.mem_range.mp hi)

theorem slice_add : m.slice a (n + k) = m.slice a n ++ m.slice (a + n) k := by
  rw [slice, List.range_add, List.map_append, List.map_map]
  refine congrArg₂ _ rfl (List.map_congr_left fun i _ => ?_)
  rw [Function.comp_apply, Nat.add_assoc]

theorem slice_succ : m.slice a (n + 1) = m a :: m.slice (a + 1) n := by
  rw [Nat.add_comm, slice_add]
  rfl

theorem slice_append {l r : List UInt8} : m.slice a (l ++ r).length = l ++ r ↔
    m.slice a l.length = l ∧ m.slice (a + l.length) r.length = r := by
  rw [List.length_append, slice_add]
  constructor
  · exact fun h => List.append_inj h length_slice
  · rintro ⟨hl, hr⟩
    rw [hl, hr]

theorem slice_cons {x : UInt8} {l : List UInt8} : m.slice a (x :: l).length = x :: l ↔
    m a = x ∧ m.slice (a + 1) l.length = l := by
  rw [List.length_cons, slice_succ, List.cons.injEq]

/-- The bytes from `a` on that come before a NUL, at most `n` of them. -/
def str (m : Ram) : (n a : ℕ) → List UInt8
  | 0, _ => []
  | n + 1, a => if m a = 0 then [] else m a :: str m n (a + 1)

theorem str_eq {l : List UInt8} (hl : m.slice a l.length = l) (h0 : 0 ∉ l)
    (hnul : m (a + l.length) = 0) (hn : l.length < n) : m.str n a = l := by
  induction l generalizing a n with
  | nil =>
    obtain ⟨n, rfl⟩ := Nat.exists_eq_succ_of_ne_zero (Nat.ne_of_gt hn)
    exact if_pos hnul
  | cons c l ih =>
    obtain ⟨n, rfl⟩ := Nat.exists_eq_succ_of_ne_zero (Nat.ne_of_gt (Nat.zero_lt_of_lt hn))
    rw [List.length_cons, slice_succ, List.cons.injEq] at hl
    rw [List.mem_cons, not_or] at h0
    rw [List.length_cons, Nat.add_comm l.length, ← Nat.add_assoc] at hnul
    rw [str, hl.1, if_neg (Ne.symm h0.1), ih hl.2 h0.2 hnul (Nat.lt_of_succ_lt_succ hn)]

theorem load_memset_zero (h : a ≤ b) (h' : b + k ≤ a + n) : (m.memset a 0 n).load k b = 0 := by
  induction k generalizing b with
  | zero => rfl
  | succ k ih =>
    rw [load, ih (by omega) (by omega), memset, write_of_mem h (by omega)]
    rfl

end Ram

/-! ## Linked lists -/

/-- From `a`, through the nodes `l`, to `nil`. -/
def Chain {ν : Type*} (next : ν → ν) (nil : ν) : ν → List ν → Prop
  | a, [] => a = nil
  | a, b :: l => a = b ∧ b ≠ nil ∧ Chain next nil (next b) l

namespace Chain

variable {ν : Type*} {next next' : ν → ν} {nil a b : ν} {l l' : List ν}

/-- A list is kept by changes to pointers of other nodes. -/
theorem frame (h : Chain next nil a l) (hn : ∀ x ∈ l, next' x = next x) :
    Chain next' nil a l := by
  induction l generalizing a with
  | nil => exact h
  | cons b l ih =>
    refine ⟨h.1, h.2.1, ?_⟩
    rw [hn b (List.mem_cons_self ..)]
    exact ih h.2.2 fun x hx => hn x (List.mem_cons_of_mem b hx)

theorem unique (h : Chain next nil a l) (h' : Chain next nil a l') : l = l' := by
  induction l generalizing a l' with
  | nil =>
    cases l' with
    | nil => rfl
    | cons b l' => exact absurd (h'.1 ▸ h) h'.2.1
  | cons b l ih =>
    cases l' with
    | nil => exact absurd (h.1 ▸ h') h.2.1
    | cons b' l' =>
      obtain rfl : b = b' := h.1 ▸ h'.1
      rw [ih h.2.2 h'.2.2]

end Chain
