import Mathlib.Data.Nat.Digits.Defs
import Mathlib.Data.UInt
import Mathlib.Tactic.Ring
import Xv6.Memory

/-!
# The kernel's `printf`

`printint` puts the digits of a number into a buffer of 16 bytes, the last digit first, and prints
the buffer backwards. What it prints is the numeral of `Nat.toDigits`, if that has at most 16
characters, sign included (`printint_eq`); otherwise it stores outside of the buffer.

A format is a list of pieces (`Piece`), of which `Piece.text` is the text, and `Piece.print` is
what ought to be printed for it. `printf` prints that for every format (`printf_prints`), as long
as the arguments of its conversions fit (`Piece.Fits`). A conversion whose argument does not fit is
never printed right (`Piece.directive_ok_iff`): `%u` and `%x` take their argument as an `int`, which
`printint` extends with its sign to 64 bits, and numbers of more than 16 characters do not fit in
the buffer.

`consputc` is modelled by the list of its arguments. The lock `pr.lock` is left out.
-/

namespace Xv6.Printf

/-! ## The model -/

/-- `digits` -/
def digits : List UInt8 := ascii "0123456789abcdef".toList

/-- A store outside of `buf`. -/
inductive Fault
  | overrun
deriving DecidableEq

/-- `do { buf[i++] = digits[x % base]; } while((x /= base) != 0);`, with room for `n` more bytes in
`buf`. -/
def digitLoop (base : ℕ) : ℕ → ℕ → List UInt8 → Except Fault (List UInt8)
  | 0, _, _ => .error .overrun
  | n + 1, x, buf =>
    let buf := buf ++ [digits.getD (x % base) 0]
    if x / base ≠ 0 then digitLoop base n (x / base) buf else .ok buf

/-- `printint(xx, base, sign)`. An `unsigned long long` is taken modulo `2 ^ 64`. -/
def printint (xx : ℤ) (base : ℕ) (sign : Bool) : Except Fault (List UInt8) := do
  let sign := sign && decide (xx < 0)
  let x := ((if sign then -xx else xx) % 2 ^ 64).toNat
  let buf ← digitLoop base 16 x []
  if sign then
    if buf.length < 16 then return (buf ++ ['-'.toUInt8]).reverse else throw .overrun
  else return buf.reverse

/-- `n` rounds of the loop of `printptr`. -/
def ptrLoop : ℕ → ℕ → List UInt8
  | 0, _ => []
  | n + 1, x => digits.getD (x / 2 ^ 60) 0 :: ptrLoop n (x * 2 ^ 4 % 2 ^ 64)

def printptr (x : UInt64) : List UInt8 :=
  '0'.toUInt8 :: 'x'.toUInt8 :: ptrLoop 16 x.toNat

/-- `va_arg(ap, int)`, from the argument's 64 bits. -/
def argInt (v : UInt64) : ℤ := Int.bmod v.toNat (2 ^ 32)

/-- `va_arg(ap, uint64)` as a `long long`. -/
def argLong (v : UInt64) : ℤ := Int.bmod v.toNat (2 ^ 64)

/-- What is printed for a `%` and the characters after it, how many more characters than `c0` it
takes, and how many arguments. -/
structure Directive where
  out : Except Fault (List UInt8)
  skip : ℕ
  args : ℕ

section

variable (str : UInt64 → List UInt8)

/-- The next argument is `v`, and `str` has the string at an address. -/
def directive (v : UInt64) (c0 c1 c2 : UInt8) : Directive :=
  if c0 = 'd'.toUInt8 then ⟨printint (argInt v) 10 true, 0, 1⟩
  else if c0 = 'l'.toUInt8 ∧ c1 = 'd'.toUInt8 then ⟨printint (argLong v) 10 true, 1, 1⟩
  else if c0 = 'l'.toUInt8 ∧ c1 = 'l'.toUInt8 ∧ c2 = 'd'.toUInt8 then
    ⟨printint (argLong v) 10 true, 2, 1⟩
  else if c0 = 'u'.toUInt8 then ⟨printint (argInt v) 10 false, 0, 1⟩
  else if c0 = 'l'.toUInt8 ∧ c1 = 'u'.toUInt8 then ⟨printint (argLong v) 10 false, 1, 1⟩
  else if c0 = 'l'.toUInt8 ∧ c1 = 'l'.toUInt8 ∧ c2 = 'u'.toUInt8 then
    ⟨printint (argLong v) 10 false, 2, 1⟩
  else if c0 = 'x'.toUInt8 then ⟨printint (argInt v) 16 false, 0, 1⟩
  else if c0 = 'l'.toUInt8 ∧ c1 = 'x'.toUInt8 then ⟨printint (argLong v) 16 false, 1, 1⟩
  else if c0 = 'l'.toUInt8 ∧ c1 = 'l'.toUInt8 ∧ c2 = 'x'.toUInt8 then
    ⟨printint (argLong v) 16 false, 2, 1⟩
  else if c0 = 'p'.toUInt8 then ⟨.ok (printptr v), 0, 1⟩
  else if c0 = 's'.toUInt8 then ⟨.ok (if v = 0 then ascii "(null)".toList else str v), 0, 1⟩
  else if c0 = '%'.toUInt8 then ⟨.ok ['%'.toUInt8], 0, 0⟩
  else ⟨.ok ['%'.toUInt8, c0], 0, 0⟩

/-- At most `n` rounds of the loop of `printf`, from `fmt + i` and argument `a` on. -/
def printfLoop (ap : ℕ → UInt64) : ℕ → List UInt8 → ℕ → Except Fault (List UInt8)
  | 0, _, _ => .ok []
  | n + 1, fmt, a =>
    let cx := fmt.getD 0 0
    if cx = 0 then .ok []
    else if cx ≠ '%'.toUInt8 then do
      let rest ← printfLoop ap n (fmt.drop 1) a
      return cx :: rest
    else
      let fmt := fmt.drop 1
      let c0 := fmt.getD 0 0
      let c1 := if c0 ≠ 0 then fmt.getD 1 0 else 0
      let c2 := if c1 ≠ 0 then fmt.getD 2 0 else 0
      -- the last branch but one of the chain
      if c0 = 0 then .ok []
      else do
        let d := directive str (ap a) c0 c1 c2
        let out ← d.out
        let rest ← printfLoop ap n (fmt.drop (d.skip + 1)) (a + d.args)
        return out ++ rest

/-- `printf(fmt, ap 0, ap 1, …)`. Each round of the loop takes a character. -/
def printf (fmt : List UInt8) (ap : ℕ → UInt64) : Except Fault (List UInt8) :=
  printfLoop str ap fmt.length fmt 0

end

/-! ## Numerals -/

/-- The numeral of `xx` taken as `printint` takes it. -/
def numeral (xx : ℤ) (base : ℕ) (sign : Bool) : List Char :=
  if sign = true ∧ xx < 0 then '-' :: Nat.toDigits base (-xx % 2 ^ 64).toNat
  else Nat.toDigits base (xx % 2 ^ 64).toNat

theorem digits_getD {d : ℕ} (h : d < 16) : digits.getD d 0 = (Nat.digitChar d).toUInt8 := by
  revert d
  decide

theorem digitLoop_eq {base : ℕ} (h1 : 1 < base) (h16 : base ≤ 16) : ∀ {n x : ℕ} {buf : List UInt8},
    digitLoop base n x buf = if (Nat.toDigits base x).length ≤ n then
      .ok (buf ++ (ascii (Nat.toDigits base x)).reverse) else .error .overrun
  | 0, x, buf => by
    have := Nat.length_toDigits_pos (b := base) (n := x)
    rw [digitLoop, if_neg (by omega)]
  | n + 1, x, buf => by
    have hdigit : digits.getD (x % base) 0 = (Nat.digitChar (x % base)).toUInt8 :=
      digits_getD ((Nat.mod_lt _ (by omega)).trans_le h16)
    rw [digitLoop, hdigit]
    by_cases hx : base ≤ x
    · have hne : x / base ≠ 0 := (Nat.div_pos hx (by omega)).ne'
      rw [if_pos hne, digitLoop_eq h1 h16, Nat.toDigits_of_base_le h1 hx]
      simp [ascii]
    · have hlt : x < base := Nat.lt_of_not_le hx
      rw [if_neg (by simp [Nat.div_eq_of_lt hlt]), Nat.toDigits_of_lt_base hlt,
        Nat.mod_eq_of_lt hlt]
      simp [ascii]

/-- `printint` prints the numeral or overruns its buffer. -/
theorem printint_eq {base : ℕ} (h1 : 1 < base) (h16 : base ≤ 16) {xx : ℤ} {sign : Bool} :
    printint xx base sign = if (numeral xx base sign).length ≤ 16 then
      .ok (ascii (numeral xx base sign)) else .error .overrun := by
  unfold printint numeral
  by_cases hs : sign = true ∧ xx < 0
  · have hsign : (sign && decide (xx < 0)) = true := by simp [hs]
    simp only [hsign, if_pos hs, if_true, digitLoop_eq h1 h16, List.length_cons]
    by_cases hlen : (Nat.toDigits base (-xx % 2 ^ 64).toNat).length + 1 ≤ 16
    · rw [if_pos hlen, if_pos (by omega)]
      simp only [bind, Except.bind, List.nil_append, List.length_reverse, ascii, List.length_map]
      rw [if_pos (by omega)]
      simp [pure, Except.pure]
    · rw [if_neg hlen]
      by_cases hlen' : (Nat.toDigits base (-xx % 2 ^ 64).toNat).length ≤ 16
      · rw [if_pos hlen']
        simp only [bind, Except.bind, List.nil_append, List.length_reverse, ascii, List.length_map]
        rw [if_neg (by omega)]
        rfl
      · rw [if_neg hlen']
        rfl
  · have hsign : (sign && decide (xx < 0)) = false := by simpa using hs
    simp only [hsign, if_neg hs, Bool.false_eq_true, if_false, digitLoop_eq h1 h16]
    split
    · simp [bind, Except.bind, pure, Except.pure]
    · rfl

theorem ptrLoop_eq : ∀ {n k v : ℕ}, n + k = 16 →
    ptrLoop n (v * 16 ^ k % 2 ^ 64) = ((List.range n).map fun j =>
      (Nat.digitChar (v / 16 ^ (n - 1 - j) % 16)).toUInt8)
  | 0, _, _, _ => rfl
  | n + 1, k, v, h => by
    have hnext : v * 16 ^ k % 2 ^ 64 * 2 ^ 4 % 2 ^ 64 = v * 16 ^ (k + 1) % 2 ^ 64 := by
      have h4 : 2 ^ 4 = 16 := rfl
      rw [h4, Nat.mod_mul_mod, pow_succ 16 k, Nat.mul_assoc]
    have hdigit : v * 16 ^ k % 2 ^ 64 / 2 ^ 60 = v / 16 ^ n % 16 := by
      have h64 : 2 ^ 64 = 16 ^ n * 16 * 16 ^ k := by
        rw [← pow_succ, ← pow_add, h]
        norm_num
      have h60 : 2 ^ 60 = 16 ^ n * 16 ^ k := by
        rw [← pow_add, show n + k = 15 by omega]
        norm_num
      rw [h64, h60, Nat.mul_mod_mul_right, Nat.mul_div_mul_right _ _ (by positivity),
        Nat.mod_mul_right_div_self]
    rw [ptrLoop, hnext, ptrLoop_eq (by omega), hdigit, digits_getD (Nat.mod_lt _ (by decide)),
      List.range_succ_eq_map, List.map_cons, List.map_map]
    refine congrArg₂ List.cons rfl (List.map_congr_left fun j _ => ?_)
    have hexp : n + 1 - 1 - (j + 1) = n - 1 - j := by omega
    simp only [Function.comp_apply, Nat.succ_eq_add_one, hexp]

/-! ## Formats -/

/-- The `l`s of a conversion. -/
inductive Length
  | int | long | longlong
deriving DecidableEq

inductive Conv
  | d | u | x
deriving DecidableEq

namespace Length

def text : Length → List UInt8
  | .int => []
  | .long => ['l'.toUInt8]
  | .longlong => ['l'.toUInt8, 'l'.toUInt8]

def bits : Length → ℕ
  | .int => 32
  | .long => 64
  | .longlong => 64

variable (l : Length) (v : UInt64)

/-- The argument as a signed number. -/
def signed : ℤ := Int.bmod v.toNat (2 ^ l.bits)

/-- The argument as an unsigned number. -/
def unsigned : ℕ := v.toNat % 2 ^ l.bits

end Length

def Conv.text : Conv → UInt8
  | .d => 'd'.toUInt8
  | .u => 'u'.toUInt8
  | .x => 'x'.toUInt8

/-- A part of a format. -/
inductive Piece
  | char (c : UInt8) (h : c ≠ 0 ∧ c ≠ '%'.toUInt8)
  | num (l : Length) (f : Conv)
  | ptr
  | str
  | percent

namespace Piece

def text : Piece → List UInt8
  | .char c _ => [c]
  | .num l f => '%'.toUInt8 :: (l.text ++ [f.text])
  | .ptr => ['%'.toUInt8, 'p'.toUInt8]
  | .str => ['%'.toUInt8, 's'.toUInt8]
  | .percent => ['%'.toUInt8, '%'.toUInt8]

/-- How many arguments it takes. -/
def args : Piece → ℕ
  | .num _ _ => 1
  | .ptr => 1
  | .str => 1
  | _ => 0

/-- What is to be printed for it, for the argument `v`. -/
def print (str : UInt64 → List UInt8) (v : UInt64) : Piece → List UInt8
  | .char c _ => [c]
  | .num l .d => ascii (toString (l.signed v)).toList
  | .num l .u => ascii (toString (l.unsigned v)).toList
  | .num l .x => ascii (Nat.toDigits 16 (l.unsigned v))
  | .ptr => ascii ("0x".toList ++
      (List.range 16).map fun j => Nat.digitChar (v.toNat / 16 ^ (15 - j) % 16))
  | .str => if v = 0 then ascii "(null)".toList else str v
  | .percent => ['%'.toUInt8]

/-- The argument of `%u` and `%x` is not negative as an `int`, and a decimal number has at most 16
characters. -/
def Fits (v : UInt64) : Piece → Prop
  | .num .int .d => True
  | .num .int _ => v.toNat % 2 ^ 32 < 2 ^ 31
  | .num l .d => -10 ^ 15 < l.signed v ∧ l.signed v < 10 ^ 16
  | .num l .u => l.unsigned v < 10 ^ 16
  | _ => True

end Piece

/-- What is to be printed for a format. -/
def render (str : UInt64 → List UInt8) (ap : ℕ → UInt64) : List Piece → ℕ → List UInt8
  | [], _ => []
  | p :: ps, a => p.print str (ap a) ++ render str ap ps (a + p.args)

/-- The arguments of a format fit. -/
def Fitting (ap : ℕ → UInt64) : List Piece → ℕ → Prop
  | [], _ => True
  | p :: ps, a => p.Fits (ap a) ∧ Fitting ap ps (a + p.args)

variable {str : UInt64 → List UInt8} {ap : ℕ → UInt64} {v : UInt64} {l : Length} {f : Conv}

def Conv.base : Conv → ℕ
  | .d => 10
  | .u => 10
  | .x => 16

def Conv.sign : Conv → Bool
  | .d => true
  | .u => false
  | .x => false

/-- What the code prints for a piece. -/
def Piece.out (str : UInt64 → List UInt8) (v : UInt64) : Piece → Except Fault (List UInt8)
  | .num l f => printint (l.signed v) f.base f.sign
  | p => .ok (p.print str v)

theorem printptr_eq : printptr v = Piece.ptr.print str v := by
  have h := ptrLoop_eq (n := 16) (k := 0) (v := v.toNat) rfl
  rw [pow_zero, Nat.mul_one, Nat.mod_eq_of_lt v.toNat_lt] at h
  rw [printptr, h, Piece.print, ascii, List.map_append, List.map_map]
  rfl

theorem printfLoop_piece (p : Piece) {n a : ℕ} {rest : List UInt8} :
    printfLoop str ap (n + 1) (p.text ++ rest) a = (do
      let out ← p.out str (ap a)
      let rest ← printfLoop str ap n rest (a + p.args)
      return out ++ rest) := by
  cases p with
  | char c h =>
    simp only [printfLoop, Piece.text, List.cons_append, List.nil_append, List.getD_cons_zero,
      if_neg h.1, if_pos h.2, List.drop_succ_cons, List.drop_zero]
    rfl
  | num l f =>
    cases l <;> cases f <;> rfl
  | ptr =>
    have hout : Piece.ptr.out str (ap a) = .ok (printptr (ap a)) := congrArg _ printptr_eq.symm
    rw [hout]
    rfl
  | str => rfl
  | percent => rfl

theorem length_flatMap_text : ∀ {ps : List Piece}, ps.length ≤ (ps.flatMap Piece.text).length
  | [] => le_rfl
  | p :: ps => by
    have hps := @length_flatMap_text ps
    have hp : 1 ≤ p.text.length := by cases p <;> simp [Piece.text]
    rw [List.flatMap_cons, List.length_append, List.length_cons]
    omega

/-! ## Conversions -/

theorem toList_toString_int {z : ℤ} : (toString z).toList =
    if z < 0 then '-' :: Nat.toDigits 10 z.natAbs else Nat.toDigits 10 z.natAbs := by
  cases z with
  | ofNat n =>
    rw [if_neg (by simp)]
    exact Nat.toList_repr
  | negSucc n =>
    rw [if_pos (Int.negSucc_lt_zero n), Int.natAbs_negSucc]
    show ("-" ++ (n + 1).repr).toList = _
    rw [String.toList_append, Nat.toList_repr]
    rfl

/-- `printint` takes a signed number as it is. -/
theorem numeral_signed {z : ℤ} (h : -2 ^ 63 ≤ z ∧ z < 2 ^ 63) :
    numeral z 10 true = (toString z).toList := by
  rw [toList_toString_int, numeral]
  by_cases hz : z < 0
  · rw [if_pos ⟨rfl, hz⟩, if_pos hz]
    congr 2
    omega
  · rw [if_neg fun hc => hz hc.2, if_neg hz]
    congr 1
    omega

/-- The numbers of at most 16 characters. -/
theorem length_signed_le {z : ℤ} :
    (toString z).toList.length ≤ 16 ↔ -10 ^ 15 < z ∧ z < 10 ^ 16 := by
  rw [toList_toString_int]
  by_cases hz : z < 0
  · rw [if_pos hz, List.length_cons, Nat.succ_le_succ_iff,
      Nat.length_toDigits_le_iff (by decide) (by decide)]
    omega
  · rw [if_neg hz, Nat.length_toDigits_le_iff (by decide) (by decide)]
    omega

theorem ite_eq_ok {α : Type*} {P : Prop} [Decidable P] {a b : α} {e : Fault} :
    (if P then .ok a else .error e : Except Fault α) = .ok b ↔ P ∧ a = b := by
  split <;> simp_all

theorem ascii_length {l : List Char} : (ascii l).length = l.length := List.length_map _

/-- An unsigned conversion, of a number that `printint` takes as `x`. -/
theorem printint_unsigned {z : ℤ} {base x : ℕ} (h1 : 1 < base) (h16 : base ≤ 16)
    (hx : (z % 2 ^ 64).toNat = x) {out : List UInt8} :
    printint z base false = .ok out ↔ x < base ^ 16 ∧ ascii (Nat.toDigits base x) = out := by
  have hnum : numeral z base false = Nat.toDigits base x := by
    rw [numeral, if_neg (by simp), hx]
  rw [printint_eq h1 h16, ite_eq_ok, hnum, Nat.length_toDigits_le_iff h1 (by decide)]

/-- An `int` that is negative becomes a number of 64 bits. -/
theorem Length.signed_int (v : UInt64) : Length.int.signed v =
    if v.toNat % 2 ^ 32 < 2 ^ 31 then (v.toNat % 2 ^ 32 : ℤ) else v.toNat % 2 ^ 32 - 2 ^ 32 := by
  simp only [Length.signed, Length.bits, Int.bmod]
  split_ifs <;> omega

theorem Length.signed_bounds : -2 ^ 63 ≤ l.signed v ∧ l.signed v < 2 ^ 63 := by
  have hv := v.toNat_lt
  cases l <;> simp only [Length.signed, Length.bits, Int.bmod] <;> split_ifs <;> omega

theorem Length.signed_mod (h : l.bits = 64) : (l.signed v % 2 ^ 64).toNat = l.unsigned v := by
  have hv := v.toNat_lt
  rw [Length.signed, Length.unsigned, h, Int.bmod]
  split_ifs <;> omega

theorem printint_long {base : ℕ} (h1 : 1 < base) (h16 : base ≤ 16) (h : l.bits = 64) :
    printint (l.signed v) base false = .ok (ascii (Nat.toDigits base (l.unsigned v))) ↔
      l.unsigned v < base ^ 16 := by
  rw [printint_unsigned h1 h16 (Length.signed_mod h), and_iff_left rfl]

/-- A negative `int` is printed as a number of more than ten digits. -/
theorem printint_int {base : ℕ} (h10 : 10 ≤ base) (h16 : base ≤ 16) :
    printint (Length.int.signed v) base false =
        .ok (ascii (Nat.toDigits base (Length.int.unsigned v))) ↔
      v.toNat % 2 ^ 32 < 2 ^ 31 := by
  have hlow : 10 ^ 10 ≤ base ^ 10 := Nat.pow_le_pow_left h10 10
  have hhigh : base ^ 10 ≤ 16 ^ 10 := Nat.pow_le_pow_left h16 10
  have hmono : base ^ 10 ≤ base ^ 16 := Nat.pow_le_pow_right (by omega) (by decide)
  have hz := Length.signed_int v
  have hu : Length.int.unsigned v = v.toNat % 2 ^ 32 := rfl
  by_cases hneg : v.toNat % 2 ^ 32 < 2 ^ 31
  · rw [if_pos hneg] at hz
    have hx : (Length.int.signed v % 2 ^ 64).toNat = Length.int.unsigned v := by omega
    rw [printint_unsigned (by omega) h16 hx]
    exact iff_of_true ⟨by omega, rfl⟩ hneg
  · rw [if_neg hneg] at hz
    have hx : (Length.int.signed v % 2 ^ 64).toNat = 2 ^ 64 - 2 ^ 32 + v.toNat % 2 ^ 32 := by omega
    rw [printint_unsigned (by omega) h16 hx]
    refine iff_of_false (fun ⟨_, heq⟩ => ?_) hneg
    have hlen := congrArg List.length heq
    rw [ascii_length, ascii_length] at hlen
    have hshort := (Nat.length_toDigits_le_iff (b := base) (n := Length.int.unsigned v) (k := 10)
      (by omega) (by decide)).mpr (by omega)
    rw [← hlen, Nat.length_toDigits_le_iff (by omega) (by decide)] at hshort
    omega

/-- A conversion prints what it has to if its argument fits, and never otherwise. -/
theorem Piece.directive_ok_iff :
    (Piece.num l f).out str v = .ok ((Piece.num l f).print str v) ↔ (Piece.num l f).Fits v := by
  cases f with
  | d =>
    have hlen := length_signed_le (z := l.signed v)
    rw [Piece.out, Piece.print, Conv.base, Conv.sign, printint_eq (by decide) (by decide),
      numeral_signed Length.signed_bounds, ite_eq_ok, hlen, and_iff_left rfl]
    cases l with
    | int =>
      refine iff_of_true ?_ trivial
      rw [Length.signed_int]
      split <;> omega
    | long => rfl
    | longlong => rfl
  | u =>
    have htext : ∀ n : ℕ, (toString n).toList = Nat.toDigits 10 n := fun _ => Nat.toList_repr
    rw [Piece.out, Piece.print, Conv.base, Conv.sign, htext]
    cases l with
    | int => exact printint_int le_rfl (by decide)
    | long => exact printint_long (by decide) (by decide) rfl
    | longlong => exact printint_long (by decide) (by decide) rfl
  | x =>
    -- 16 digits are enough for 64 bits
    have hfits : ∀ {l : Length}, l.bits = 64 → l.unsigned v < 16 ^ 16 := fun h => by
      rw [Length.unsigned, h]
      exact Nat.mod_lt _ (by decide)
    rw [Piece.out, Piece.print, Conv.base, Conv.sign]
    cases l with
    | int => exact printint_int (by decide) le_rfl
    | long => exact (printint_long (by decide) le_rfl rfl).trans (iff_of_true (hfits rfl) trivial)
    | longlong =>
      exact (printint_long (by decide) le_rfl rfl).trans (iff_of_true (hfits rfl) trivial)

theorem Piece.out_of_fits {p : Piece} (h : p.Fits v) : p.out str v = .ok (p.print str v) := by
  cases p with
  | num l f => exact Piece.directive_ok_iff.mpr h
  | char => rfl
  | ptr => rfl
  | str => rfl
  | percent => rfl

/-- The induction is on the pieces; each takes one round. -/
theorem printfLoop_render : ∀ {ps : List Piece} {n a : ℕ}, ps.length ≤ n → Fitting ap ps a →
    printfLoop str ap n (ps.flatMap Piece.text) a = .ok (render str ap ps a)
  | [], 0, _, _, _ => rfl
  | [], _ + 1, _, _, _ => rfl
  | p :: ps, n + 1, a, hn, ⟨hp, hps⟩ => by
    have ih := printfLoop_render (Nat.le_of_succ_le_succ hn) hps
    rw [List.flatMap_cons, printfLoop_piece, Piece.out_of_fits hp, render]
    simp only [bind, Except.bind, ih]
    rfl

/-- `printf` prints every format, and stays inside of its buffer, if the arguments fit. -/
theorem printf_prints {ps : List Piece} (h : Fitting ap ps 0) :
    printf str (ps.flatMap Piece.text) ap = .ok (render str ap ps 0) :=
  printfLoop_render length_flatMap_text h

/-- Part of the line that is printed for a traced system call. -/
theorem printf_prints_trace :
    printf (fun _ => []) (ascii "%d: %ld\n".toList)
        (fun k => if k = 0 then 3 else 0xffffffffffffffff) =
      .ok (ascii "3: -1\n".toList) := by
  have htext : [Piece.num .int .d, .char 58 (by decide), .char 32 (by decide), .num .long .d,
      .char 10 (by decide)].flatMap Piece.text = ascii "%d: %ld\n".toList := by decide
  rw [← htext]
  refine (printf_prints ?_).trans (by decide +kernel)
  exact ⟨trivial, trivial, trivial, ⟨by decide +kernel, by decide +kernel⟩, trivial, trivial⟩

/-- `%u` of 2147483648, `%lu` of `10 ^ 16` and `%ld` of `-10 ^ 15` overrun the buffer, and `%x` of
2147483648 prints the digits of another number. -/
theorem printf_fails :
    printf (fun _ => []) (ascii "%u".toList) (fun _ => 2 ^ 31) = .error .overrun ∧
    printf (fun _ => []) (ascii "%x".toList) (fun _ => 2 ^ 31) =
      .ok (ascii "ffffffff80000000".toList) ∧
    printf (fun _ => []) (ascii "%lu".toList) (fun _ => 10 ^ 16) = .error .overrun ∧
    printf (fun _ => []) (ascii "%ld".toList) (fun _ => -10 ^ 15) = .error .overrun := by
  decide +kernel

end Xv6.Printf
