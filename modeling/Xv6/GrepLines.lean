import Mathlib.Data.List.TakeWhile
import Xv6.Grep
import Xv6.Ulib

/-!
# The lines that `grep` prints

`grep` reads into a buffer of 1024 bytes, prints the matching lines that end in it, and moves what
comes after the last newline to the start of the buffer. Each `read` returns as many bytes as it
likes, at least one as long as there is input and it is asked for any.

A stream is a sequence of lines that each end with a newline, and a last part without one
(`Lines`). However the reads cut the stream, what the loop over a buffer finds are lines of the
stream (`Lines.split`), so `grep` prints the matching lines that end with a newline, up to the first
one that fills the buffer (`grep_eq`) : there it asks for no bytes, and takes that for the end of
the file. These are all the matching lines exactly if no line from there on matches and the last
part does not match (`grep_prints`), so not in general (`grep_misses`).
-/

namespace Xv6.Grep

open Function Ulib

/-! ## The model -/

/-- The loop over the lines of a buffer, from `p` on, for at most `n` lines: the buffer, the last
`p`, and what is written. -/
def lineLoop (re : List UInt8) : (n : ℕ) → Ram → (p : ℕ) → Ram × ℕ × List UInt8
  | 0, buf, p => (buf, p, [])
  | n + 1, buf, p =>
    match strchr buf '\n'.toUInt8 (1024 - p) p with
    | none => (buf, p, [])
    | some q =>
      let buf : Ram := update buf q 0
      if match_ re (buf.str (1024 - p) p) then
        let buf : Ram := update buf q '\n'.toUInt8
        let r := lineLoop re n buf (q + 1)
        (r.1, r.2.1, buf.slice p (q + 1 - p) ++ r.2.2)
      else lineLoop re n buf (q + 1)

/-- At most `n` rounds of the loop of `grep`. Read number `i` wants to return `sizes i + 1`
bytes. -/
def grepLoop (re : List UInt8) (sizes : ℕ → ℕ) :
    (n i : ℕ) → Ram → (m : ℕ) → (input : List UInt8) → List UInt8
  | 0, _, _, _, _ => []
  | fuel + 1, i, buf, m, input =>
    let n := min (min (sizes i + 1) (1024 - m - 1)) input.length
    if n > 0 then
      let buf := buf.write m (fun k => input.getD k 0) n
      let m := m + n
      let buf : Ram := update buf m 0
      let r := lineLoop re 1024 buf 0
      let p := r.2.1
      if m > 0 then
        r.2.2 ++ grepLoop re sizes fuel (i + 1) (memmove r.1 0 p (m - p)) (m - p) (input.drop n)
      else r.2.2 ++ grepLoop re sizes fuel (i + 1) r.1 m (input.drop n)
    else []

/-- `grep(pattern, fd)`, of a file whose bytes are `input`; the buffer has any contents. -/
def grep (re : List UInt8) (sizes : ℕ → ℕ) (buf : Ram) (input : List UInt8) : List UInt8 :=
  grepLoop re sizes (input.length + 1) 0 buf 0 input

/-! ## Lines -/

/-- The lines of a stream, and what comes after the last newline. -/
structure Lines (input : List UInt8) (ls : List (List UInt8)) (last : List UInt8) : Prop where
  eq : input = ls.flatMap (· ++ ['\n'.toUInt8]) ++ last
  lines : ∀ l ∈ ls, '\n'.toUInt8 ∉ l
  tail : '\n'.toUInt8 ∉ last

/-- What is to be printed for lines. -/
def printed (re : List UInt8) (ls : List (List UInt8)) : List UInt8 :=
  (ls.filter (match_ re)).flatMap (· ++ ['\n'.toUInt8])

variable {re input last w v l : List UInt8} {ls ls' : List (List UInt8)} {sizes : ℕ → ℕ} {buf : Ram}

theorem printed_append : printed re (ls ++ ls') = printed re ls ++ printed re ls' := by
  rw [printed, List.filter_append, List.flatMap_append]
  rfl

theorem printed_cons : printed re (l :: ls) =
    (if match_ re l then l ++ ['\n'.toUInt8] else []) ++ printed re ls := by
  rw [printed, List.filter_cons]
  split <;> rfl

theorem Lines.nil (h : '\n'.toUInt8 ∉ w) : Lines w [] w := ⟨rfl, by simp, h⟩

theorem Lines.cons (h : Lines v ls last) (hl : '\n'.toUInt8 ∉ l) :
    Lines (l ++ '\n'.toUInt8 :: v) (l :: ls) last := by
  refine ⟨?_, List.forall_mem_cons.mpr ⟨hl, h.lines⟩, h.tail⟩
  rw [List.flatMap_cons, h.eq]
  simp

/-- A stream with lines starts with the first. -/
theorem Lines.head (h : Lines w (l :: ls) last) : ∃ v, w = l ++ '\n'.toUInt8 :: v ∧
    Lines v ls last ∧ '\n'.toUInt8 ∉ l := by
  obtain ⟨hl, hls⟩ := List.forall_mem_cons.mp h.lines
  refine ⟨_, ?_, ⟨rfl, hls, h.tail⟩, hl⟩
  rw [h.eq, List.flatMap_cons]
  simp

/-- There is only one first line. -/
theorem first_unique {c : UInt8} : ∀ {l l' v v' : List UInt8}, c ∉ l → c ∉ l' →
    l ++ c :: v = l' ++ c :: v' → l = l' ∧ v = v'
  | [], [], _, _, _, _, h => ⟨rfl, (List.cons.inj h).2⟩
  | [], x :: l', _, _, _, hl', h =>
    absurd (List.mem_cons.mpr (.inl (List.cons.inj h).1)) hl'
  | x :: l, [], _, _, hl, _, h =>
    absurd (List.mem_cons.mpr (.inl (List.cons.inj h).1.symm)) hl
  | x :: l, y :: l', _, _, hl, hl', h => by
    obtain ⟨hxy, htail⟩ := List.cons.inj h
    obtain ⟨hll, hvv⟩ := first_unique (fun hc => hl (List.mem_cons_of_mem _ hc))
      (fun hc => hl' (List.mem_cons_of_mem _ hc)) htail
    exact ⟨by rw [hxy, hll], hvv⟩

/-- The lines of a part of the stream are lines of the stream. -/
theorem Lines.split (h : Lines w ls v) (h' : Lines (w ++ input) ls' last) :
    ∃ rest, ls' = ls ++ rest ∧ Lines (v ++ input) rest last := by
  induction ls generalizing w ls' with
  | nil =>
    obtain rfl : w = v := h.eq
    exact ⟨ls', rfl, h'⟩
  | cons l ls ih =>
    obtain ⟨u, rfl, hu, hl⟩ := h.head
    cases ls' with
    | nil =>
      refine absurd ?_ h'.tail
      rw [← show (l ++ '\n'.toUInt8 :: u) ++ input = last from h'.eq]
      simp
    | cons l' ls' =>
      obtain ⟨u', heq, hu', hl'⟩ := h'.head
      rw [List.append_assoc, List.cons_append] at heq
      obtain ⟨rfl, rfl⟩ := first_unique hl hl' heq
      obtain ⟨rest, rfl, hrest⟩ := ih hu hu'
      exact ⟨rest, rfl, hrest⟩

/-- A part of the stream in which no line ends is shorter than its first line. -/
theorem Lines.le_first (h : Lines (w ++ input) (l :: ls) last) (hw : '\n'.toUInt8 ∉ w) :
    w.length ≤ l.length ∧ input ≠ [] := by
  obtain ⟨v, heq, -, -⟩ := h.head
  have hlen := congrArg List.length heq
  have hle : w.length ≤ l.length := by
    by_contra hlt
    have hget : (w ++ input)[l.length]? = some '\n'.toUInt8 := by
      rw [heq, List.getElem?_append_right le_rfl, Nat.sub_self, List.getElem?_cons_zero]
    rw [List.getElem?_append_left (by omega)] at hget
    exact hw (List.mem_of_getElem? hget)
  refine ⟨hle, ?_⟩
  rintro rfl
  simp only [List.append_nil, List.length_append, List.length_cons] at hlen
  omega

/-- A line that ends in the stream is shorter than the stream. -/
theorem Lines.length_lt (h : Lines w ls last) (hl : l ∈ ls) : l.length < w.length := by
  obtain ⟨ls₁, ls₂, rfl⟩ := List.append_of_mem hl
  rw [h.eq]
  simp only [List.flatMap_append, List.flatMap_cons, List.length_append, List.length_cons]
  omega

/-! ## The loops -/

/-- The loop over the lines of a buffer. The induction is on its rounds. -/
theorem lineLoop_spec : ∀ {n p : ℕ} {buf : Ram} {w : List UInt8},
    buf.slice p w.length = w → buf (p + w.length) = 0 → 0 ∉ w → p + w.length < 1024 →
    w.length < n → ∃ ls v, Lines w ls v ∧ (lineLoop re n buf p).2.2 = printed re ls ∧
      (lineLoop re n buf p).2.1 + v.length = p + w.length ∧
      (lineLoop re n buf p).1.slice (lineLoop re n buf p).2.1 v.length = v
  | n + 1, p, buf, w, hw, hnul, h0, hp, hn => by
    by_cases hnl : '\n'.toUInt8 ∈ w
    · -- the first line is `l`, and the loop goes on with `v`
      obtain ⟨l, v, rfl, hl⟩ := List.eq_append_cons_of_mem hnl
      have hlen : (l ++ '\n'.toUInt8 :: v).length = l.length + 1 + v.length := by
        rw [List.length_append, List.length_cons]
        omega
      rw [hlen] at hnul hp hn
      obtain ⟨h0l, h0v⟩ : 0 ∉ l ∧ 0 ∉ v :=
        ⟨fun h => h0 (by simp [h]), fun h => h0 (by simp [h])⟩
      have hq := strchr_eq (n := 1024 - p) hw h0l hl (by decide) (by omega)
      obtain ⟨hwl, hwv⟩ := Ram.slice_append.mp hw
      obtain ⟨hnlq, hwv⟩ := Ram.slice_cons.mp hwv
      -- the buffer changes at `q` only
      have hlow : ∀ b : Ram, (∀ x, x ≠ p + l.length → b x = buf x) → b.slice p l.length = l := by
        intro b hb
        refine (Ram.slice_congr fun i hi => ?_).trans hwl
        rw [hb _ (by omega)]
      have hhigh : ∀ b : Ram, (∀ x, x ≠ p + l.length → b x = buf x) →
          ∃ ls u, Lines v ls u ∧ (lineLoop re n b (p + l.length + 1)).2.2 = printed re ls ∧
            (lineLoop re n b (p + l.length + 1)).2.1 + u.length = p + (l.length + 1 + v.length) ∧
            (lineLoop re n b (p + l.length + 1)).1.slice
              (lineLoop re n b (p + l.length + 1)).2.1 u.length = u := by
        intro b hb
        have hbv : b.slice (p + l.length + 1) v.length = v := by
          refine (Ram.slice_congr fun i hi => ?_).trans hwv
          rw [hb _ (by omega)]
        have hbnul : b (p + l.length + 1 + v.length) = 0 := by
          rw [hb _ (by omega), ← hnul]
          congr 1
          omega
        obtain ⟨ls, u, hlines, hout, hpos, hslice⟩ :=
          lineLoop_spec (n := n) hbv hbnul h0v (by omega) (by omega)
        exact ⟨ls, u, hlines, hout, by omega, hslice⟩
      have hb₁ : ∀ x, x ≠ p + l.length → update buf (p + l.length) 0 x = buf x :=
        fun x hx => update_of_ne hx ..
      have hb₂ : ∀ x, x ≠ p + l.length → update (update buf (p + l.length) 0) (p + l.length)
          '\n'.toUInt8 x = buf x := fun x hx => (update_of_ne hx ..).trans (hb₁ x hx)
      have hstr : Ram.str (update buf (p + l.length) 0) (1024 - p) p = l :=
        Ram.str_eq (hlow _ hb₁) h0l (update_self ..) (by omega)
      rw [lineLoop, hq, hlen]
      simp only [hstr]
      by_cases hm : match_ re l = true
      · obtain ⟨ls, u, hlines, hout, hpos, hslice⟩ := hhigh _ hb₂
        have hline : Ram.slice (update (update buf (p + l.length) 0) (p + l.length) '\n'.toUInt8) p
            (p + l.length + 1 - p) = l ++ ['\n'.toUInt8] := by
          rw [show p + l.length + 1 - p = (l ++ ['\n'.toUInt8]).length by simp; omega]
          exact Ram.slice_append.mpr ⟨hlow _ hb₂, Ram.slice_cons.mpr ⟨update_self .., rfl⟩⟩
        refine ⟨l :: ls, u, hlines.cons hl, ?_⟩
        rw [if_pos hm, printed_cons, if_pos hm, hline, hout]
        exact ⟨rfl, hpos, hslice⟩
      · obtain ⟨ls, u, hlines, hout, hpos, hslice⟩ := hhigh _ hb₁
        refine ⟨l :: ls, u, hlines.cons hl, ?_⟩
        rw [if_neg hm, printed_cons, if_neg hm]
        exact ⟨hout, hpos, hslice⟩
    · have hnone := strchr_none (n := 1024 - p) hw hnl hnul
      refine ⟨[], w, .nil hnl, ?_⟩
      simp only [lineLoop, hnone]
      exact ⟨rfl, trivial, hw⟩

/-- The loop of `grep`. What is in the buffer and what has not been read yet are the lines `ls` and
the last part; the loop gets to the first line that fills the buffer. The induction is on the
rounds. -/
theorem grepLoop_spec : ∀ {n i m : ℕ} {buf : Ram} {w input : List UInt8} {ls : List (List UInt8)},
    buf.slice 0 w.length = w → m = w.length → m ≤ 1023 → '\n'.toUInt8 ∉ w → 0 ∉ w ++ input →
    Lines (w ++ input) ls last → input.length < n →
    grepLoop re sizes n i buf m input = printed re (ls.takeWhile (·.length ≤ 1022))
  | n + 1, i, m, buf, w, input, ls, hw, hm, h1023, hnl, h0, hlines, hn => by
    rw [grepLoop]
    generalize hsize : min (min (sizes i + 1) (1024 - m - 1)) input.length = k
    simp only
    by_cases hk : k > 0
    · rw [if_pos hk, if_pos (by omega)]
      have hchunk : (input.take k).length = k := List.length_take_of_le (by omega)
      have hcat : w ++ input.take k ++ input.drop k = w ++ input := by
        rw [List.append_assoc, List.take_append_drop]
      generalize hbuf : update (buf.write m (fun j => input.getD j 0) k) (m + k) 0 = b
      have hlen : (w ++ input.take k).length = m + k := by rw [List.length_append, hchunk, hm]
      have hb : Ram.slice b 0 (w ++ input.take k).length = w ++ input.take k := by
        refine Ram.slice_append.mpr ⟨(Ram.slice_congr fun j hj => ?_).trans hw, ?_⟩
        · rw [← hbuf, update_of_ne (by omega), Ram.write_of_disjoint (by omega)]
        · rw [Nat.zero_add, ← hm, hchunk]
          refine List.ext_getElem (Ram.length_slice.trans hchunk.symm) fun j hj hj' => ?_
          rw [hchunk] at hj'
          simp only [Ram.slice, List.getElem_map, List.getElem_range, List.getElem_take]
          rw [← hbuf, update_of_ne (by omega), Ram.write_of_mem (by omega) (by omega),
            Nat.add_sub_cancel_left]
          have : j < input.length := by omega
          simp [this]
      have hbnul : b (0 + (w ++ input.take k).length) = 0 := by
        rw [hlen, Nat.zero_add, ← hbuf, update_self]
      rw [← hcat] at hlines h0
      obtain ⟨ls₁, v, hv, hout, hpos, hslice⟩ := @lineLoop_spec re 1024 0 b _ hb hbnul
        (fun h => h0 (List.mem_append_left _ h)) (by omega) (by omega)
      obtain ⟨ls₂, rfl, hrest⟩ := hv.split hlines
      have hvlen : m + k - (lineLoop re 1024 b 0).2.1 = v.length := by omega
      have hvint : ((m + k : ℕ) - (lineLoop re 1024 b 0).2.1 : ℤ).toNat = v.length := by omega
      have hshort : ∀ l ∈ ls₁, decide (l.length ≤ 1022) = true := fun l hl => by
        have := hv.length_lt hl
        exact decide_eq_true (by omega)
      rw [hout, List.takeWhile_append_of_pos hshort, printed_append, memmove_eq, hvlen, hvint]
      refine congrArg _ (grepLoop_spec ?_ rfl (by omega) hv.tail ?_ hrest ?_)
      · refine (Ram.slice_congr fun j hj => ?_).trans hslice
        rw [Nat.zero_add, Ram.memmove, Ram.write_of_mem (Nat.zero_le j) (by omega), Nat.sub_zero]
      · intro h
        rcases List.mem_append.mp h with h | h
        · refine h0 (List.mem_append_left _ ?_)
          rw [hv.eq]
          exact List.mem_append_right _ h
        · exact h0 (List.mem_append_right _ h)
      · rw [List.length_drop]
        omega
    · -- nothing is read: no line ends in the rest of the stream, or the buffer is full
      rw [if_neg hk]
      cases ls with
      | nil => rfl
      | cons l ls =>
        obtain ⟨hle, hne⟩ := hlines.le_first hnl
        have := List.length_pos_iff.mpr hne
        rw [List.takeWhile_cons_of_neg (by simp; omega)]
        rfl

theorem grep_eq (hlines : Lines input ls last) (h0 : 0 ∉ input) :
    grep re sizes buf input = printed re (ls.takeWhile (·.length ≤ 1022)) :=
  grepLoop_spec (w := []) rfl rfl (by decide) (by simp) h0 hlines (Nat.lt_succ_self _)

/-- The matching lines of a stream. A last line without a newline is followed by `nl`. -/
def matching (re : List UInt8) (ls : List (List UInt8)) (last nl : List UInt8) : List UInt8 :=
  printed re ls ++ if last ≠ [] ∧ match_ re last = true then last ++ nl else []

theorem printed_eq_nil : printed re ls = [] ↔ ∀ l ∈ ls, match_ re l = false := by
  simp [printed]

/-- `grep` prints the matching lines exactly if no line matches from the first one on that fills
the buffer, and a last line without a newline does not match. -/
theorem grep_prints (hlines : Lines input ls last) (h0 : 0 ∉ input) (nl : List UInt8) :
    grep re sizes buf input = matching re ls last nl ↔
      (∀ l ∈ ls.dropWhile (·.length ≤ 1022), match_ re l = false) ∧
        (last = [] ∨ match_ re last = false) := by
  have hsplit : printed re ls = printed re (ls.takeWhile (·.length ≤ 1022)) ++
      printed re (ls.dropWhile (·.length ≤ 1022)) := by
    rw [← printed_append, List.takeWhile_append_dropWhile]
  rw [grep_eq hlines h0, matching, hsplit, List.append_assoc, List.self_eq_append_right,
    List.append_eq_nil_iff, printed_eq_nil]
  refine and_congr_right fun _ => ?_
  by_cases hlast : last = []
  · simp [hlast]
  · simp [hlast]

/-- The input `"ba\na\nb"`, read a byte at a time. -/
theorem grep_prints_two : grep [97, 36] (fun _ => 0) (fun _ => 0) [98, 97, 10, 97, 10, 98] =
    matching [97, 36] [[98, 97], [97]] [98] [] := by
  have hlines : Lines [98, 97, 10, 97, 10, 98] [[98, 97], [97]] [98] :=
    ⟨rfl, by decide, by decide⟩
  exact (grep_prints hlines (by decide) []).mpr ⟨by decide, .inr rfl⟩

/-- A last line without a newline is not printed, and neither is what comes after a line of 1023
bytes. -/
theorem grep_misses :
    (match_ [97] [97] = true ∧ Lines [97] [] [97] ∧ grep [97] (fun _ => 0) (fun _ => 0) [97] = []) ∧
    (match_ [97] [97] = true ∧
      Lines (List.replicate 1023 98 ++ [10, 97, 10]) [List.replicate 1023 98, [97]] [] ∧
      grep [97] (fun _ => 0) (fun _ => 0) (List.replicate 1023 98 ++ [10, 97, 10]) = []) := by
  have hlong : ∀ c ≠ 98, (c : UInt8) ∉ List.replicate 1023 98 := fun c hc h =>
    hc (List.eq_of_mem_replicate h)
  have hone : Lines ([97] ++ '\n'.toUInt8 :: []) [[97]] [] :=
    (Lines.nil (by decide)).cons (by decide)
  have hlines : Lines (List.replicate 1023 98 ++ [10, 97, 10]) [List.replicate 1023 98, [97]] [] :=
    hone.cons (hlong _ (by decide))
  refine ⟨⟨by decide, .nil (by decide), by decide⟩, by decide, hlines, ?_⟩
  rw [grep_eq hlines, List.takeWhile_cons_of_neg (by rw [List.length_replicate]; decide)]
  · rfl
  · rw [List.mem_append, not_or]
    exact ⟨hlong _ (by decide), by decide⟩

end Xv6.Grep
