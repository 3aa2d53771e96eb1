import Mathlib.Computability.Language

/-!
# The matcher of `grep`

A C string is the list of its bytes before the NUL, so `re[0] == '\0'` says that the list is empty.
The functions are total, by recursion on the pattern and, in `matchstar` and `match`, on the text.

A pattern stands for a `Regex` : a sequence of items, of which `c*` is one, between an anchor `^`
and an end `$` that may each be there or not (`Regex.parse`). `match_iff` says that `match` finds
out whether a part of the text is in the language of the items, at the start of the text if there
is an anchor and at its end if there is an end.
-/

namespace Xv6.Grep

/-! ## The model -/

/-- `matchstar(c, re, text)`, where `here` is `matchhere` for `re`. -/
def matchstar (here : List UInt8 → Bool) (c : UInt8) : List UInt8 → Bool
  | [] => here []
  | t :: text => here (t :: text) || ((t = c || c = '.'.toUInt8) && matchstar here c text)

/-- The last test of `matchhere`, where `here` is `matchhere` for `re + 1`. -/
def matchone (here : List UInt8 → Bool) (c : UInt8) : List UInt8 → Bool
  | [] => false
  | t :: text => (c = '.'.toUInt8 || c = t) && here text

def matchhere : List UInt8 → List UInt8 → Bool
  | [], _ => true
  -- re[1] is the NUL
  | [c], text => if c = '$'.toUInt8 then text.isEmpty else matchone (matchhere []) c text
  | c :: s :: re, text =>
    if s = '*'.toUInt8 then matchstar (matchhere re) c text
    else matchone (matchhere (s :: re)) c text

/-- The loop of `match`. -/
def matchFrom (re : List UInt8) : List UInt8 → Bool
  | [] => matchhere re []
  | t :: text => matchhere re (t :: text) || matchFrom re text

def match_ (re text : List UInt8) : Bool :=
  if re.head? = some '^'.toUInt8 then matchhere re.tail text else matchFrom re text

/-! ## The language of a pattern -/

/-- One character, or any number of them. -/
inductive Item
  | one (c : UInt8)
  | many (c : UInt8)

/-- `c` stands for `t`. -/
def Stands (c t : UInt8) : Prop := c = '.'.toUInt8 ∨ c = t

/-- The words of one character that `c` stands for. -/
def single (c : UInt8) : Language UInt8 := {l | ∃ t, Stands c t ∧ l = [t]}

def Item.lang : Item → Language UInt8
  | .one c => single c
  | .many c => KStar.kstar (single c)

structure Regex where
  anchor : Bool
  items : List Item
  eot : Bool

namespace Regex

/-- The items of a pattern, and whether it has an end. A `*` belongs to the character before it,
which may be a `*` or a `$`. -/
def body : List UInt8 → List Item × Bool
  | [] => ([], false)
  | [c] => if c = '$'.toUInt8 then ([], true) else ([.one c], false)
  | c :: s :: re =>
    if s = '*'.toUInt8 then (.many c :: (body re).1, (body re).2)
    else (.one c :: (body (s :: re)).1, (body (s :: re)).2)

def parse (re : List UInt8) : Regex :=
  if re.head? = some '^'.toUInt8 then ⟨true, (body re.tail).1, (body re.tail).2⟩
  else ⟨false, (body re).1, (body re).2⟩

/-- The language of the items. -/
def lang (r : Regex) : Language UInt8 := (r.items.map Item.lang).prod

/-- A part of the text is generated by the items, at the start or the end of the text where the
pattern says so. -/
def Matches (r : Regex) (text : List UInt8) : Prop :=
  ∃ pre s post, text = pre ++ s ++ post ∧ s ∈ r.lang ∧ (r.anchor = true → pre = []) ∧
    (r.eot = true → post = [])

end Regex

/-! ## Languages -/

variable {c : UInt8} {l u re text : List UInt8} {here : List UInt8 → Bool} {p : List Item × Bool}

theorem mem_one : l ∈ (Item.one c).lang ↔ ∃ t, Stands c t ∧ l = [t] := Iff.rfl

theorem mem_many : l ∈ (Item.many c).lang ↔ ∀ t ∈ l, Stands c t := by
  rw [Item.lang, Language.mem_kstar]
  constructor
  · rintro ⟨L, rfl, hL⟩ t ht
    obtain ⟨w, hw, htw⟩ := List.mem_flatten.mp ht
    obtain ⟨t', hs, rfl⟩ := mem_one.mp (hL w hw)
    rwa [List.mem_singleton.mp htw]
  · intro h
    refine ⟨l.map fun t => [t], ?_, ?_⟩
    · rw [← List.flatMap_def, List.flatMap_singleton']
    · intro w hw
      obtain ⟨t, ht, rfl⟩ := List.mem_map.mp hw
      exact mem_one.mpr ⟨t, h t ht, rfl⟩

/-- A text starts with a word of the items and, if the pattern has an end, is that word. -/
def Starts (p : List Item × Bool) (text : List UInt8) : Prop :=
  ∃ s post, text = s ++ post ∧ s ∈ (p.1.map Item.lang).prod ∧ (p.2 = true → post = [])

theorem starts_nil : Starts ([], false) text := ⟨[], text, rfl, rfl, fun h => by cases h⟩

theorem starts_end : Starts ([], true) text ↔ text = [] := by
  constructor
  · rintro ⟨s, post, rfl, hs, hpost⟩
    obtain rfl : s = [] := hs
    rw [hpost rfl, List.append_nil]
  · rintro rfl
    exact ⟨[], [], rfl, rfl, fun _ => rfl⟩

theorem starts_cons {i : Item} :
    Starts (i :: p.1, p.2) text ↔ ∃ u v, text = u ++ v ∧ u ∈ i.lang ∧ Starts p v := by
  constructor
  · rintro ⟨s, post, rfl, hs, hpost⟩
    rw [List.map_cons, List.prod_cons, Language.mem_mul] at hs
    obtain ⟨u, hu, v, hv, rfl⟩ := hs
    exact ⟨u, v ++ post, List.append_assoc u v post, hu, v, post, rfl, hv, hpost⟩
  · rintro ⟨u, v, rfl, hu, s, post, rfl, hs, hpost⟩
    refine ⟨u ++ s, post, (List.append_assoc u s post).symm, ?_, hpost⟩
    rw [List.map_cons, List.prod_cons]
    exact Language.append_mem_mul hu hs

theorem starts_one :
    Starts (.one c :: p.1, p.2) text ↔ ∃ t v, text = t :: v ∧ Stands c t ∧ Starts p v := by
  rw [starts_cons]
  constructor
  · rintro ⟨u, v, rfl, ⟨t, hs, rfl⟩, hv⟩
    exact ⟨t, v, rfl, hs, hv⟩
  · rintro ⟨t, v, rfl, hs, hv⟩
    exact ⟨[t], v, rfl, ⟨t, hs, rfl⟩, hv⟩

/-! ## The matcher -/

theorem matchstar_iff : ∀ {text : List UInt8}, matchstar here c text = true ↔
    ∃ u v, text = u ++ v ∧ u ∈ (Item.many c).lang ∧ here v = true
  | [] => by
    rw [matchstar]
    constructor
    · intro h
      exact ⟨[], [], rfl, mem_many.mpr (by simp), h⟩
    · rintro ⟨u, v, huv, -, h⟩
      obtain ⟨rfl, rfl⟩ := List.append_eq_nil_iff.mp huv.symm
      exact h
  | t :: text => by
    rw [matchstar, Bool.or_eq_true, Bool.and_eq_true, matchstar_iff]
    constructor
    · rintro (h | ⟨hs, u, v, rfl, hu, h⟩)
      · exact ⟨[], t :: text, rfl, mem_many.mpr (by simp), h⟩
      · have hst : Stands c t := by
          simp only [Bool.or_eq_true, decide_eq_true_eq] at hs
          exact hs.symm.imp_right Eq.symm
        refine ⟨t :: u, v, rfl, mem_many.mpr fun x hx => ?_, h⟩
        rcases List.mem_cons.mp hx with rfl | hx
        · exact hst
        · exact mem_many.mp hu x hx
    · rintro ⟨u, v, huv, hu, h⟩
      cases u with
      | nil => exact .inl (huv ▸ h)
      | cons x u =>
        obtain ⟨rfl, rfl⟩ := List.cons.inj huv
        have hst := mem_many.mp hu t (List.mem_cons_self ..)
        refine .inr ⟨?_, u, v, rfl, mem_many.mpr fun y hy => ?_, h⟩
        · simp only [Bool.or_eq_true, decide_eq_true_eq]
          exact hst.symm.imp_left Eq.symm
        · exact mem_many.mp hu y (List.mem_cons_of_mem _ hy)

/-- One character of the pattern and of the text. -/
theorem matchone_iff (ih : ∀ v, here v = true ↔ Starts p v) :
    matchone here c text = true ↔ Starts (.one c :: p.1, p.2) text := by
  rw [starts_one]
  cases text with
  | nil =>
    refine iff_of_false Bool.false_ne_true ?_
    rintro ⟨t, v, h, -⟩
    cases h
  | cons t v =>
    simp only [matchone, Bool.and_eq_true, Bool.or_eq_true, decide_eq_true_eq, ih]
    constructor
    · rintro ⟨hs, hv⟩
      exact ⟨t, v, rfl, hs, hv⟩
    · rintro ⟨t', v', htv, hs, hv⟩
      obtain ⟨rfl, rfl⟩ := List.cons.inj htv
      exact ⟨hs, hv⟩

/-- The induction is on the pattern, an item at a time. -/
theorem matchhere_iff : ∀ (re : List UInt8) {text : List UInt8},
    matchhere re text = true ↔ Starts (Regex.body re) text
  | [], text => iff_of_true rfl starts_nil
  | [c], text => by
    rw [matchhere, Regex.body]
    split
    · rw [starts_end, List.isEmpty_iff]
    · exact matchone_iff (p := ([], false)) fun v => matchhere_iff []
  | c :: s :: re, text => by
    rw [matchhere, Regex.body]
    split
    · rw [matchstar_iff, starts_cons]
      simp only [matchhere_iff re]
    · exact matchone_iff fun v => matchhere_iff (s :: re)

theorem matchFrom_iff : ∀ {text : List UInt8}, matchFrom re text = true ↔
    ∃ pre v, text = pre ++ v ∧ Starts (Regex.body re) v
  | [] => by
    rw [matchFrom, matchhere_iff]
    constructor
    · intro h
      exact ⟨[], [], rfl, h⟩
    · rintro ⟨pre, v, hv, h⟩
      obtain ⟨rfl, rfl⟩ := List.append_eq_nil_iff.mp hv.symm
      exact h
  | t :: text => by
    rw [matchFrom, Bool.or_eq_true, matchhere_iff, matchFrom_iff]
    constructor
    · rintro (h | ⟨pre, v, rfl, h⟩)
      · exact ⟨[], t :: text, rfl, h⟩
      · exact ⟨t :: pre, v, rfl, h⟩
    · rintro ⟨pre, v, hv, h⟩
      cases pre with
      | nil => exact .inl (hv ▸ h)
      | cons x pre =>
        obtain ⟨rfl, rfl⟩ := List.cons.inj hv
        exact .inr ⟨pre, v, rfl, h⟩

/-- `match` decides the language of the pattern. -/
theorem match_iff {re text : List UInt8} :
    match_ re text = true ↔ (Regex.parse re).Matches text := by
  unfold match_ Regex.parse
  split
  · rw [matchhere_iff]
    constructor
    · rintro ⟨s, post, rfl, hs, hpost⟩
      exact ⟨[], s, post, rfl, hs, fun _ => rfl, hpost⟩
    · rintro ⟨pre, s, post, rfl, hs, hpre, hpost⟩
      obtain rfl := hpre rfl
      exact ⟨s, post, rfl, hs, hpost⟩
  · rw [matchFrom_iff]
    constructor
    · rintro ⟨pre, v, rfl, s, post, rfl, hs, hpost⟩
      refine ⟨pre, s, post, (List.append_assoc pre s post).symm, hs, fun h => ?_, hpost⟩
      cases h
    · rintro ⟨pre, s, post, rfl, hs, -, hpost⟩
      exact ⟨pre, s ++ post, List.append_assoc pre s post, s, post, rfl, hs, hpost⟩

end Xv6.Grep
