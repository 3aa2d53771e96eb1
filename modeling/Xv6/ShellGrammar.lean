import Mathlib.Data.List.Forall2
import Mathlib.Data.List.TakeWhile
import Xv6.Shell

/-!
# The grammar of the shell

`lex` cuts a line into words and symbols, and `Derives` is the grammar over them, with the tree of
each derivation. `Unread` says which tokens a pointer into the line still has before it, and the
parser is specified twice : what it returns is derived by the grammar from the tokens it has read
(`parse_spec`), and it returns the tree of every derivation that a token of the right kind follows
(`parse_complete`). So `parsecmd_accepts`, that the parser accepts the grammar. The strings that
`nulterminate` ends are the words, because it writes only to bytes that are in no word.
-/

namespace Xv6.Shell

open Function Prog

/-! ## Lexing -/

inductive Token
  | word (w : List UInt8)
  | lt | gt | gtgt | bar | amp | semi | lpar | rpar
  deriving DecidableEq

/-- The symbols of one character that begin no other. -/
def Token.ofChar (c : UInt8) : Option Token :=
  if c = '<'.toUInt8 then some .lt
  else if c = '|'.toUInt8 then some .bar
  else if c = '&'.toUInt8 then some .amp
  else if c = ';'.toUInt8 then some .semi
  else if c = '('.toUInt8 then some .lpar
  else if c = ')'.toUInt8 then some .rpar
  else none

def lex : List UInt8 → List Token
  | [] => []
  | c :: l =>
    if white c then lex l
    else if c = '>'.toUInt8 then
      if l.head? = some '>'.toUInt8 then .gtgt :: lex l.tail else .gt :: lex l
    else match Token.ofChar c with
      | some t => t :: lex l
      | none => .word (c :: l.takeWhile plain) :: lex (l.dropWhile plain)
termination_by l => l.length
decreasing_by
  all_goals simp only [List.length_cons, List.length_tail]
  all_goals first | omega | exact Nat.lt_succ_of_le (List.length_dropWhile_le ..)

theorem lex_white {c : UInt8} {l : List UInt8} (hc : white c = true) : lex (c :: l) = lex l := by
  rw [lex, if_pos hc]

theorem lex_dropWhile {l : List UInt8} : lex (l.dropWhile white) = lex l := by
  induction l with
  | nil => rfl
  | cons c l ih =>
    rw [List.dropWhile_cons]
    split
    · rw [ih, lex_white ‹_›]
    · rfl

/-- There are at most as many tokens as bytes. -/
theorem length_lex_le (l : List UInt8) : (lex l).length ≤ l.length := by
  fun_induction lex l with
  | case1 => exact Nat.le_refl 0
  | case2 c l hc ih => exact Nat.le_succ_of_le ih
  | case3 l hc hnext ih =>
    rw [List.length_tail] at ih
    simp only [List.length_cons]
    omega
  | case4 l hc hnext ih => exact Nat.succ_le_succ ih
  | case5 c l hc hgt t ht ih => exact Nat.succ_le_succ ih
  | case6 c l hc hgt ht ih =>
    exact Nat.succ_le_succ (ih.trans (List.length_dropWhile_le ..))

/-- What `gettoken` returns for a token. -/
def Token.code : Token → UInt8
  | .word _ => 'a'.toUInt8
  | .lt => '<'.toUInt8
  | .gt => '>'.toUInt8
  | .gtgt => '+'.toUInt8
  | .bar => '|'.toUInt8
  | .amp => '&'.toUInt8
  | .semi => ';'.toUInt8
  | .lpar => '('.toUInt8
  | .rpar => ')'.toUInt8

/-- The character that `peek` sees before a token, if it is a symbol. -/
def Token.first : Token → UInt8
  | .word _ => 0
  | .gtgt => '>'.toUInt8
  | t => t.code

/-- `peek` finds one of `toks` before `ts`. -/
def peeks (toks : List UInt8) (ts : List Token) : Bool :=
  ts.head?.any fun t => toks.contains t.first

/-! ## The text that is left -/

section Text

variable {m : Ram} {es s n : ℕ} {l : List UInt8} {p : UInt8 → Bool} {c : UInt8}

/-- `l` is what is left of the line at `s`. -/
structure Text (m : Ram) (es s : ℕ) (l : List UInt8) : Prop where
  length : s + l.length = es
  bytes : m.slice s l.length = l
  nul : m es = 0
  str : 0 ∉ l

namespace Text

theorem byte (h : Text m es s l) : m s = l.headD 0 := by
  cases l with
  | nil =>
    have hs : s = es := h.length
    rw [hs, h.nul]
    rfl
  | cons c l => exact (Ram.slice_cons.mp h.bytes).1

theorem tail (h : Text m es s (c :: l)) : Text m es (s + 1) l where
  length := by
    have := h.length
    rw [List.length_cons] at this
    omega
  bytes := (Ram.slice_cons.mp h.bytes).2
  nul := h.nul
  str := fun h0 => h.str (List.mem_cons_of_mem c h0)

theorem ne_zero (h : Text m es s (c :: l)) : c ≠ 0 := fun h0 =>
  h.str (h0 ▸ List.mem_cons_self)

/-- The loop stops after the bytes with `p`. -/
theorem span (h : Text m es s l) : Shell.span m p (es - s) s = s + (l.takeWhile p).length := by
  induction l generalizing s with
  | nil =>
    have hs : s = es := h.length
    rw [hs, Nat.sub_self]
    rfl
  | cons c l ih =>
    have hn : es - s = (es - (s + 1)) + 1 := by
      have := h.tail.length
      omega
    have hc : m s = c := h.byte
    rw [hn, Shell.span, ih h.tail, hc, List.takeWhile_cons]
    split
    · rw [List.length_cons]
      omega
    · rfl

theorem drop (h : Text m es s l) : Text m es (s + (l.takeWhile p).length) (l.dropWhile p) := by
  induction l generalizing s with
  | nil => exact h
  | cons c l ih =>
    rw [List.takeWhile_cons, List.dropWhile_cons]
    split
    · have := ih h.tail
      rwa [Nat.add_assoc, Nat.add_comm 1] at this
    · exact h

theorem skip (h : Text m es s l) : Text m es (skip m es s) (l.dropWhile white) := by
  rw [Shell.skip, h.span]
  exact h.drop

end Text

/-- The string `x` is the word `w`, and the byte after it belongs to no word. -/
structure IsWord (m : Ram) (es : ℕ) (x : Str) (w : List UInt8) : Prop where
  eq : x.q + w.length = x.eq
  le : x.eq ≤ es
  bytes : m.slice x.q w.length = w
  plain : ∀ c ∈ w, plain c = true ∧ c ≠ 0
  after : Shell.plain (m x.eq) = false ∨ m x.eq = 0

/-- The tokens `ts` are left at `s`. -/
def Unread (m : Ram) (es s : ℕ) (ts : List Token) : Prop := ∃ l, Text m es s l ∧ lex l = ts

theorem Unread.skip {ts : List Token} (h : Unread m es s ts) :
    ∃ l, Text m es (skip m es s) l ∧ lex l = ts ∧ ∀ c ∈ l.head?, white c = false := by
  obtain ⟨l, hl, rfl⟩ := h
  refine ⟨l.dropWhile white, hl.skip, lex_dropWhile, fun c hc => ?_⟩
  have := List.head?_dropWhile_not white l
  rw [hc] at this
  simpa using this

theorem Unread.of_text (h : Text m es s l) : Unread m es s (lex l) := ⟨l, h, rfl⟩

theorem Token.ofChar_some {t : Token} (h : Token.ofChar c = some t) :
    c ∈ ascii ['|', '(', ')', ';', '&', '<'] ∧ t.code = c ∧ t.first = c ∧ ∀ w, t ≠ .word w := by
  unfold Token.ofChar at h
  split_ifs at h
  all_goals
    cases h
    subst c
    exact ⟨by decide, rfl, rfl, fun _ h => nomatch h⟩

theorem Token.ofChar_none (h : Token.ofChar c = none) :
    c ∉ ascii ['|', '(', ')', ';', '&', '<'] := by
  unfold Token.ofChar at h
  split_ifs at h
  simp only [ascii, List.map_cons, List.map_nil, List.mem_cons, List.not_mem_nil]
  tauto

theorem plain_of_ofChar (hwhite : white c = false) (hgt : c ≠ '>'.toUInt8)
    (h : Token.ofChar c = none) : plain c = true := by
  have hsym : c ∉ symbols := by
    intro hc
    apply Token.ofChar_none h
    simp only [symbols, ascii, List.map_cons, List.map_nil, List.mem_cons, List.not_mem_nil] at hc ⊢
    tauto
  rw [white] at hwhite
  rw [plain, hwhite, List.contains_eq_mem, decide_eq_false hsym]
  rfl

theorem Text.isWord (h : Text m es s l) :
    IsWord m es ⟨s, s + (l.takeWhile plain).length⟩ (l.takeWhile plain) where
  eq := rfl
  le := by
    have := h.length
    have := (List.takeWhile_sublist plain : (l.takeWhile plain).Sublist l).length_le
    dsimp only
    omega
  bytes := by
    have hb := h.bytes
    rw [← List.takeWhile_append_dropWhile (p := plain) (l := l)] at hb
    exact (Ram.slice_append.mp hb).1
  plain := fun c hc => ⟨List.mem_takeWhile_imp hc, fun h0 =>
    h.str (h0 ▸ (List.takeWhile_sublist plain).subset hc)⟩
  after := by
    have hafter : m (s + (l.takeWhile Shell.plain).length) = (l.dropWhile Shell.plain).headD 0 :=
      h.drop.byte
    have hnot := List.head?_dropWhile_not Shell.plain l
    dsimp only
    rw [hafter]
    cases hd : l.dropWhile Shell.plain with
    | nil => exact .inr rfl
    | cons c r =>
      rw [hd] at hnot
      exact .inl (by simpa using hnot)

/-- What the `switch` finds at the first byte that is not white. -/
theorem token_spec {ts : List Token} {t : Token} (h : Text m es s l) (hlex : lex l = t :: ts)
    (hwhite : ∀ c ∈ l.head?, white c = false) :
    (token m es s).1 = t.code ∧ Unread m es (token m es s).2 ts ∧
      ∀ w, t = .word w → IsWord m es ⟨s, (token m es s).2⟩ w := by
  cases l with
  | nil => simp [lex] at hlex
  | cons c l =>
    have hc : m s = c := h.byte
    have hcw : white c = false := hwhite c rfl
    rw [lex, if_neg (by simp [hcw])] at hlex
    rw [token, hc, if_neg h.ne_zero]
    by_cases hgt : c = '>'.toUInt8
    · have hnext : m (s + 1) = '>'.toUInt8 ↔ l.head? = some '>'.toUInt8 := by
        rw [h.tail.byte]
        cases l with
        | nil => decide
        | cons c' l => simp
      rw [if_pos hgt] at hlex
      rw [if_neg (by rw [hgt]; decide), if_pos hgt]
      by_cases hnx : l.head? = some '>'.toUInt8
      · rw [if_pos hnx] at hlex
        rw [if_pos (hnext.mpr hnx)]
        cases hlex
        obtain ⟨r, rfl⟩ := List.head?_eq_some_iff.mp hnx
        exact ⟨rfl, .of_text h.tail.tail, fun w hw => nomatch hw⟩
      · rw [if_neg hnx] at hlex
        rw [if_neg (fun h => hnx (hnext.mp h))]
        cases hlex
        exact ⟨hgt, .of_text h.tail, fun w hw => nomatch hw⟩
    · rw [if_neg hgt] at hlex
      cases hof : Token.ofChar c with
      | some t' =>
        obtain ⟨hmem, hcode, -, hnw⟩ := Token.ofChar_some hof
        rw [hof] at hlex
        cases hlex
        rw [if_pos hmem]
        exact ⟨hcode.symm, .of_text h.tail, fun w hw => (hnw w hw).elim⟩
      | none =>
        have hplain : plain c = true := plain_of_ofChar hcw hgt hof
        have htake : (c :: l).takeWhile plain = c :: l.takeWhile plain :=
          List.takeWhile_cons_of_pos hplain
        have hdrop : (c :: l).dropWhile plain = l.dropWhile plain :=
          List.dropWhile_cons_of_pos hplain
        rw [hof] at hlex
        cases hlex
        rw [if_neg (Token.ofChar_none hof), if_neg hgt, h.span]
        refine ⟨rfl, hdrop ▸ .of_text h.drop, fun w hw => ?_⟩
        cases hw
        exact htake ▸ h.isWord

end Text

/-! ## What `peek` and `gettoken` do -/

section Tokens

variable {m : Ram} {es s : ℕ} {ts : List Token} {t : Token} {E : Stop → Prop} {l : List UInt8}

theorem token_nil (h : Text m es s []) : token m es s = (0, s) := by
  rw [token, h.byte]
  exact if_pos rfl

theorem lex_eq_nil (hlex : lex l = []) (hwhite : ∀ c ∈ l.head?, white c = false) : l = [] := by
  cases l with
  | nil => rfl
  | cons c l =>
    rw [lex, if_neg (by simp [hwhite c rfl])] at hlex
    split at hlex
    · split at hlex <;> cases hlex
    · split at hlex <;> cases hlex

theorem gettoken_nil (h : Unread m es s []) :
    wp E (gettoken m es) (fun r s' => r.1 = 0 ∧ Unread m es s' []) s := by
  obtain ⟨l, hl, hlex, hwhite⟩ := h.skip
  cases lex_eq_nil hlex hwhite
  simp only [gettoken, wp_bind, wp_modify, wp_get, wp_pure, token_nil hl]
  exact ⟨trivial, hlex ▸ (Unread.of_text hl.skip)⟩

theorem gettoken_cons (h : Unread m es s (t :: ts)) :
    wp E (gettoken m es) (fun r s' => r.1 = t.code ∧ Unread m es s' ts ∧
      ∀ w, t = .word w → IsWord m es r.2 w) s := by
  obtain ⟨l, hl, hlex, hwhite⟩ := h.skip
  obtain ⟨hcode, hrest, hword⟩ := token_spec hl hlex hwhite
  simp only [gettoken, wp_bind, wp_modify, wp_get, wp_pure]
  obtain ⟨r, hr, hrlex, -⟩ := hrest.skip
  exact ⟨hcode, ⟨r, hr, hrlex⟩, hword⟩

variable {toks : List UInt8}

/-- The first byte of the text tells whether its first token is among the symbols `toks`. -/
theorem mem_iff_peeks {c : UInt8} (hwhite : white c = false)
    (htoks : toks ⊆ symbols) : c ∈ toks ↔ peeks toks (lex (c :: l)) = true := by
  rw [lex, if_neg (by simp [hwhite])]
  by_cases hgt : c = '>'.toUInt8
  · rw [if_pos hgt]
    split <;> simp [peeks, Token.first, Token.code, hgt]
  · rw [if_neg hgt]
    cases hof : Token.ofChar c with
    | some t => simp [peeks, (Token.ofChar_some hof).2.2.1]
    | none =>
      have hplain := plain_of_ofChar hwhite hgt hof
      have hnot : c ∉ toks := fun hc => by simp [plain, htoks hc] at hplain
      have hzero : 0 ∉ toks := fun h0 => absurd (htoks h0) (by decide)
      simp [peeks, Token.first, hnot, hzero]

theorem peek_spec (h : Unread m es s ts) (htoks : toks ⊆ symbols) :
    wp E (peek m es toks) (fun b s' => b = peeks toks ts ∧ Unread m es s' ts) s := by
  obtain ⟨l, hl, hlex, hwhite⟩ := h.skip
  simp only [peek, wp_bind, wp_modify, wp_get, wp_pure]
  refine ⟨?_, l, hl, hlex⟩
  rw [hl.byte]
  cases l with
  | nil =>
    rw [lex] at hlex
    cases hlex
    simp [peeks]
  | cons c l =>
    have hc := mem_iff_peeks (l := l) (hwhite c rfl) htoks
    rw [Bool.eq_iff_iff, decide_eq_true_eq, List.headD_cons, and_iff_right hl.ne_zero, hc, hlex]

variable {α : Type} {Q : α → ℕ → Prop}

theorem wp_peek {x y : Prog ℕ Stop α} (h : Unread m es s ts) (htoks : toks ⊆ symbols)
    (hx : ∀ s', peeks toks ts = true → Unread m es s' ts → wp E x Q s')
    (hy : ∀ s', peeks toks ts = false → Unread m es s' ts → wp E y Q s') :
    wp E (peek m es toks >>= fun b => if b = true then x else y) Q s := by
  refine (peek_spec h htoks).bind fun b s' hb => ?_
  obtain ⟨rfl, h'⟩ := hb
  rw [wp_ite]
  split
  · exact hx s' ‹_› h'
  · exact hy s' (Bool.eq_false_of_not_eq_true ‹_›) h'

theorem peeks_cons (h : peeks toks ts = true) : ∃ t ts', ts = t :: ts' ∧ t.first ∈ toks := by
  cases ts with
  | nil => simp [peeks] at h
  | cons t ts => exact ⟨t, ts, rfl, by simpa [peeks] using h⟩

/-- The symbols that `peek` can tell from all other tokens. -/
def Token.single : List Token := [.bar, .amp, .semi, .lpar, .rpar]

theorem peeks_single {u : Token} (hu : u ∈ Token.single) :
    peeks [u.code] ts = true ↔ ∃ ts', ts = u :: ts' := by
  have hof : Token.ofChar u.code = some u :=
    (by decide : ∀ u ∈ Token.single, Token.ofChar u.code = some u) u hu
  have hfirst : u.first = u.code := (by decide : ∀ u ∈ Token.single, u.first = u.code) u hu
  have hinj : ∀ t : Token, t.first = u.code ↔ t = u := by
    intro t
    refine ⟨fun h => ?_, fun h => h ▸ hfirst⟩
    rw [← h] at hof
    cases t with
    | word | gt | gtgt => exact absurd hof.symm (Option.some_ne_none u)
    | lt | bar | amp | semi | lpar | rpar => exact Option.some.inj hof
  cases ts with
  | nil => simp [peeks]
  | cons t ts => simp [peeks, hinj]

end Tokens

/-! ## The grammar -/

/-- `R` relates the strings of two trees of the same shape. -/
inductive Cmd.Rel {α β : Type} (R : α → β → Prop) : Cmd α → Cmd β → Prop
  | exec {argv argv'} : List.Forall₂ R argv argv' → Rel R (.exec argv) (.exec argv')
  | redir {cmd cmd' file file' mode fd} : Rel R cmd cmd' → R file file' →
    Rel R (.redir cmd file mode fd) (.redir cmd' file' mode fd)
  | pipe {l l' r r'} : Rel R l l' → Rel R r r' → Rel R (.pipe l r) (.pipe l' r')
  | list {l l' r r'} : Rel R l l' → Rel R r r' → Rel R (.list l r) (.list l' r')
  | back {cmd cmd'} : Rel R cmd cmd' → Rel R (.back cmd) (.back cmd')

structure Redir where
  file : List UInt8
  mode : ℕ
  fd : ℕ

/-- The redirection to `w` that begins with a token. -/
def Redir.ofToken (w : List UInt8) : Token → Option Redir
  | .lt => some ⟨w, O_RDONLY, 0⟩
  | .gt => some ⟨w, O_WRONLY ||| O_CREATE ||| O_TRUNC, 1⟩
  | .gtgt => some ⟨w, O_WRONLY ||| O_CREATE, 1⟩
  | _ => none

/-- Each redirection is put around the command so far. -/
def Cmd.redirs (c : Cmd (List UInt8)) (rs : List Redir) : Cmd (List UInt8) :=
  rs.foldl (fun c r => .redir c r.file r.mode r.fd) c

/-- `Redir*` -/
inductive Redirs : List Token → List Redir → Prop
  | nil : Redirs [] []
  | cons {t w r ts rs} : Redir.ofToken w t = some r → Redirs ts rs →
    Redirs (t :: .word w :: ts) (r :: rs)

/-- `(word Redir*)*`, with its words. -/
inductive Args : List Token → List (List UInt8) → List Redir → Prop
  | nil : Args [] [] []
  | cons {w ts rs ts' ws rs'} : Redirs ts rs → Args ts' ws rs' →
    Args (.word w :: (ts ++ ts')) (w :: ws) (rs ++ rs')

inductive Nonterminal
  | line | pipe | exec

/-- The tokens that each nonterminal derives, with the tree of the derivation. -/
inductive Derives : Nonterminal → List Token → Cmd (List UInt8) → Prop
  | line {ts c} (n : ℕ) : Derives .pipe ts c →
    Derives .line (ts ++ List.replicate n .amp) (Cmd.back^[n] c)
  | list {ts c ts' c'} (n : ℕ) : Derives .pipe ts c → Derives .line ts' c' →
    Derives .line (ts ++ List.replicate n .amp ++ .semi :: ts') (.list (Cmd.back^[n] c) c')
  | exec {ts c} : Derives .exec ts c → Derives .pipe ts c
  | pipe {ts c ts' c'} : Derives .exec ts c → Derives .pipe ts' c' →
    Derives .pipe (ts ++ .bar :: ts') (.pipe c c')
  | block {ts c ts' rs} : Derives .line ts c → Redirs ts' rs →
    Derives .exec (.lpar :: ts ++ .rpar :: ts') (c.redirs rs)
  | args {ts rs ts' ws rs'} : Redirs ts rs → Args ts' ws rs' → ws.length < MAXARGS →
    Derives .exec (ts ++ ts') ((Cmd.exec ws).redirs (rs ++ rs'))

theorem Cmd.redirs_append {c : Cmd (List UInt8)} {rs rs' : List Redir} :
    c.redirs (rs ++ rs') = (c.redirs rs).redirs rs' := List.foldl_append

variable {w : List UInt8} {t : Token} {ts : List Token} {ws : List (List UInt8)}

/-- A new word goes to the command that the redirections are around. -/
theorem Cmd.arg_redirs {rs : List Redir} :
    ((Cmd.exec ws).redirs rs).arg w = (Cmd.exec (ws ++ [w])).redirs rs := by
  have harg : ∀ c : Cmd (List UInt8), (c.redirs rs).arg w = (c.arg w).redirs rs := by
    induction rs with
    | nil => exact fun c => rfl
    | cons r rs ih => exact fun c => ih _
  exact harg _

theorem Cmd.Rel.arg {α β : Type} {R : α → β → Prop} {cmd : Cmd α} {c : Cmd β} {x : α} {w : β}
    (h : Cmd.Rel R cmd c) (hx : R x w) : Cmd.Rel R (cmd.arg x) (c.arg w) := by
  induction h with
  | exec h => exact .exec (List.rel_append h (.cons hx .nil))
  | redir _ hf ih => exact .redir ih hf
  | pipe hl hr => exact .pipe hl hr
  | list hl hr => exact .list hl hr
  | back hc => exact .back hc

theorem redirect_rel {α : Type} {R : α → List UInt8 → Prop} {cmd : Cmd α} {c : Cmd (List UInt8)}
    {x : α} {r : Redir} (ht : Redir.ofToken w t = some r) (h : Cmd.Rel R cmd c) (hx : R x w) :
    Cmd.Rel R (redirect t.code x cmd) (.redir c r.file r.mode r.fd) := by
  cases t <;> cases ht <;> exact .redir h hx

theorem Redir.ofToken_of_peeks (w : List UInt8) (h : t.first ∈ ascii ['<', '>']) :
    ∃ r, Redir.ofToken w t = some r := by
  cases t with
  | lt => exact ⟨_, rfl⟩
  | gt => exact ⟨_, rfl⟩
  | gtgt => exact ⟨_, rfl⟩
  | word =>
    have hzero : (0 : UInt8) ∈ ascii ['<', '>'] := h
    exact absurd hzero (by decide)
  | bar | amp | semi | lpar | rpar => exact absurd h (by decide)

theorem Redir.peeks_of_ofToken {r : Redir} (h : Redir.ofToken w t = some r) :
    peeks (ascii ['<', '>']) (t :: ts) = true := by
  cases t <;> cases h <;> rfl

theorem Token.eq_word (h : t.code = 'a'.toUInt8) : ∃ w, t = .word w := by
  cases t with
  | word w => exact ⟨w, rfl⟩
  | lt | gt | gtgt | bar | amp | semi | lpar | rpar => exact absurd h (by decide)

theorem Token.code_ne_zero : t.code ≠ 0 := by
  cases t with
  | word w => exact (by decide : 'a'.toUInt8 ≠ 0)
  | lt | gt | gtgt | bar | amp | semi | lpar | rpar => decide

/-! ## What the parser returns is derived -/

section Sound

variable {m : Ram} {es s n : ℕ} {ts : List Token} {cmd : Cmd Str} {c : Cmd (List UInt8)}

/-- The words of a tree of pointers. -/
abbrev Denotes (m : Ram) (es : ℕ) : Cmd Str → Cmd (List UInt8) → Prop := Cmd.Rel (IsWord m es)

theorem parseredirs_spec (hn : ts.length < n) (h : Unread m es s ts) (hc : Denotes m es cmd c) :
    wp (· ≠ .fuel) (parseredirs m es n cmd) (fun cmd' s' => ∃ ts₁ ts₂ rs, ts = ts₁ ++ ts₂ ∧
      Unread m es s' ts₂ ∧ Redirs ts₁ rs ∧ Denotes m es cmd' (c.redirs rs)) s := by
  induction n generalizing ts s cmd c with
  | zero => exact absurd hn (Nat.not_lt_zero _)
  | succ n ih =>
    refine wp_peek h (by decide) (fun s' hp h' => ?_) fun s' _ h' =>
      ⟨[], ts, [], rfl, h', .nil, hc⟩
    obtain ⟨t, ts', rfl, ht⟩ := peeks_cons hp
    refine (gettoken_cons h').bind fun tok s₁ ⟨htok, h₁, _⟩ => ?_
    cases ts' with
    | nil =>
      refine (gettoken_nil h₁).bind fun file s₂ ⟨hfile, _⟩ => ?_
      rw [if_pos (by rw [hfile]; decide)]
      exact fun h => nomatch h
    | cons u ts' =>
      refine (gettoken_cons h₁).bind fun file s₂ ⟨hfile, h₂, hword⟩ => ?_
      rw [wp_ite]
      split
      · exact fun h => nomatch h
      · rename_i hcode
        obtain ⟨w, rfl⟩ := Token.eq_word (hfile ▸ not_not.mp hcode)
        obtain ⟨r, hr⟩ := Redir.ofToken_of_peeks w ht
        simp only [List.length_cons] at hn
        refine (ih (by omega) h₂ (htok ▸ redirect_rel hr hc (hword w rfl))).mono ?_
        rintro cmd' s' ⟨ts₁, ts₂, rs, rfl, h', hrs, hcmd'⟩
        exact ⟨t :: .word w :: ts₁, ts₂, r :: rs, rfl, h', .cons hr hrs, hcmd'⟩

theorem parseargs_spec {rs : List Redir} (hn : ts.length < n) (h : Unread m es s ts)
    (hc : Denotes m es cmd ((Cmd.exec ws).redirs rs)) (hlen : ws.length < MAXARGS) :
    wp (· ≠ .fuel) (parseargs m es n cmd ws.length) (fun cmd' s' => ∃ ts₁ ts₂ ws' rs',
      ts = ts₁ ++ ts₂ ∧ Unread m es s' ts₂ ∧ Args ts₁ ws' rs' ∧ (ws ++ ws').length < MAXARGS ∧
      Denotes m es cmd' ((Cmd.exec (ws ++ ws')).redirs (rs ++ rs'))) s := by
  induction n generalizing ts s cmd ws rs with
  | zero => exact absurd hn (Nat.not_lt_zero _)
  | succ n ih =>
    have hstop : ∀ s' (ts : List Token), Unread m es s' ts → ∃ ts₁ ts₂ ws' rs',
        ts = ts₁ ++ ts₂ ∧ Unread m es s' ts₂ ∧ Args ts₁ ws' rs' ∧
          (ws ++ ws').length < MAXARGS ∧
          Denotes m es cmd ((Cmd.exec (ws ++ ws')).redirs (rs ++ rs')) := fun s' ts h' =>
      ⟨[], ts, [], [], rfl, h', .nil, by rwa [List.append_nil],
        by rwa [List.append_nil, List.append_nil]⟩
    refine wp_peek h (by decide) (fun s' _ h' => hstop s' ts h') fun s' _ h' => ?_
    cases ts with
    | nil =>
      refine (gettoken_nil h').bind fun tok s₁ ⟨htok, h₁⟩ => ?_
      rw [if_pos htok]
      exact hstop s₁ [] h₁
    | cons t ts =>
      refine (gettoken_cons h').bind fun tok s₁ ⟨htok, h₁, hword⟩ => ?_
      rw [if_neg (htok ▸ Token.code_ne_zero), wp_ite]
      split
      · exact fun h => nomatch h
      rename_i hcode
      rw [wp_ite]
      split
      · exact fun h => nomatch h
      rename_i hmax
      obtain ⟨w, rfl⟩ := Token.eq_word (htok ▸ not_not.mp hcode)
      have hlen' : (ws ++ [w]).length < MAXARGS := by
        rw [List.length_append, List.length_singleton]
        omega
      rw [List.length_cons] at hn
      have harg := hc.arg (hword w rfl)
      rw [Cmd.arg_redirs] at harg
      refine (parseredirs_spec (by omega) h₁ harg).bind ?_
      rintro cmd₂ s₂ ⟨ts₁, ts₂, rs₁, rfl, h₂, hrs₁, hcmd₂⟩
      rw [← Cmd.redirs_append] at hcmd₂
      rw [List.length_append] at hn
      have hnext := ih (by omega) h₂ hcmd₂ hlen'
      rw [List.length_append, List.length_singleton] at hnext
      refine hnext.mono ?_
      rintro cmd₃ s₃ ⟨ts₃, ts₄, ws', rs', rfl, h₃, hargs, hlen₃, hcmd₃⟩
      rw [List.append_assoc, List.singleton_append] at hlen₃ hcmd₃
      rw [List.append_assoc] at hcmd₃
      exact ⟨.word w :: (ts₁ ++ ts₃), ts₄, w :: ws', rs₁ ++ rs', by simp, h₃, .cons hrs₁ hargs,
        hlen₃, hcmd₃⟩

theorem parseback_spec (hn : ts.length < n) (h : Unread m es s ts) (hc : Denotes m es cmd c) :
    wp (· ≠ .fuel) (parseback m es n cmd) (fun cmd' s' => ∃ k ts₂,
      ts = List.replicate k .amp ++ ts₂ ∧ Unread m es s' ts₂ ∧
      Denotes m es cmd' (Cmd.back^[k] c)) s := by
  induction n generalizing ts s cmd c with
  | zero => exact absurd hn (Nat.not_lt_zero _)
  | succ n ih =>
    refine wp_peek h (by decide) (fun s' hp h' => ?_) fun s' _ h' => ⟨0, ts, rfl, h', hc⟩
    obtain ⟨ts', rfl⟩ := (peeks_single (u := .amp) (by decide)).mp hp
    refine (gettoken_cons h').bind fun tok s₁ ⟨_, h₁, _⟩ => ?_
    refine (ih (Nat.lt_of_succ_lt_succ hn) h₁ (.back hc)).mono ?_
    rintro cmd' s' ⟨k, ts₂, rfl, h', hcmd'⟩
    exact ⟨k + 1, ts₂, rfl, h', hcmd'⟩

/-- The function that parses a nonterminal. -/
def parse (m : Ram) (es : ℕ) : Nonterminal → ℕ → Prog ℕ Stop (Cmd Str)
  | .line => parseline m es
  | .pipe => parsepipe m es
  | .exec => parseexec m es

/-- The calls that a nonterminal may need for `k` tokens. -/
def fuel (k : ℕ) : Nonterminal → ℕ
  | .line => 4 * k + 4
  | .pipe => 4 * k + 3
  | .exec => 4 * k + 2

/-- What has been read is derived from a nonterminal. -/
def Parsed (m : Ram) (es : ℕ) (nt : Nonterminal) (ts : List Token) (cmd : Cmd Str) (s : ℕ) : Prop :=
  ∃ ts₁ ts₂ c, ts = ts₁ ++ ts₂ ∧ Unread m es s ts₂ ∧ Derives nt ts₁ c ∧ Denotes m es cmd c

theorem parseblock_spec (hn : 4 * ts.length ≤ n)
    (ih : ∀ {ts s}, fuel ts.length .line ≤ n → Unread m es s ts →
      wp (· ≠ .fuel) (parseline m es n) (Parsed m es .line ts) s)
    (hp : peeks (ascii ['(']) ts = true) (h : Unread m es s ts) :
    wp (· ≠ .fuel) (parseblock m es (n + 1)) (Parsed m es .exec ts) s := by
  rw [parseblock]
  refine wp_peek h (by decide) (fun s₁ _ h₁ => ?_) fun _ hnp => by rw [hp] at hnp; cases hnp
  obtain ⟨ts, rfl⟩ := (peeks_single (u := .lpar) (by decide)).mp hp
  rw [List.length_cons] at hn
  refine (gettoken_cons h₁).bind fun tok s₂ ⟨_, h₂, _⟩ => ?_
  refine (ih (by simp only [fuel]; omega) h₂).bind ?_
  rintro cmd s₃ ⟨ts₁, ts₂, c, rfl, h₃, hder, hcmd⟩
  rw [List.length_append] at hn
  refine wp_peek h₃ (by decide) (fun s₄ hp₄ h₄ => ?_) fun _ _ _ => fun h => nomatch h
  obtain ⟨ts₂, rfl⟩ := (peeks_single (u := .rpar) (by decide)).mp hp₄
  rw [List.length_cons] at hn
  refine (gettoken_cons h₄).bind fun tok s₅ ⟨_, h₅, _⟩ => ?_
  refine (parseredirs_spec (by omega) h₅ hcmd).mono ?_
  rintro cmd' s₆ ⟨ts₃, ts₄, rs, rfl, h₆, hrs, hcmd'⟩
  exact ⟨.lpar :: ts₁ ++ .rpar :: ts₃, ts₄, c.redirs rs, by simp, h₆, .block hder hrs, hcmd'⟩

/-- With enough calls the parser stops, and what it returns is derived from what it has read. -/
theorem parse_spec {nt : Nonterminal} (hn : fuel ts.length nt ≤ n) (h : Unread m es s ts) :
    wp (· ≠ .fuel) (parse m es nt n) (Parsed m es nt ts) s := by
  induction n using Nat.strong_induction_on generalizing nt ts s with
  | _ n ih =>
  cases nt with
  | line =>
    obtain ⟨n, rfl⟩ : ∃ k, n = k + 1 := ⟨n - 1, by simp only [fuel] at hn; omega⟩
    simp only [fuel] at hn
    rw [parse, parseline]
    refine (@ih n (by omega) s ts .pipe (by simp only [fuel]; omega) h).bind ?_
    rintro cmd s₁ ⟨ts₁, ts₂, c, rfl, h₁, hder, hcmd⟩
    rw [List.length_append] at hn
    refine (parseback_spec (by omega) h₁ hcmd).bind ?_
    rintro cmd₂ s₂ ⟨k, ts₃, rfl, h₂, hcmd₂⟩
    rw [List.length_append] at hn
    refine wp_peek h₂ (by decide) (fun s₃ hp h₃ => ?_) fun s₃ _ h₃ =>
      ⟨ts₁ ++ List.replicate k .amp, ts₃, _, by simp, h₃, .line k hder, hcmd₂⟩
    obtain ⟨ts₃, rfl⟩ := (peeks_single (u := .semi) (by decide)).mp hp
    rw [List.length_cons] at hn
    refine (gettoken_cons h₃).bind fun tok s₄ ⟨_, h₄, _⟩ => ?_
    refine (@ih n (by omega) _ _ .line (by simp only [fuel]; omega) h₄).bind ?_
    rintro right s₅ ⟨ts₄, ts₅, c', rfl, h₅, hder', hright⟩
    exact ⟨ts₁ ++ List.replicate k .amp ++ .semi :: ts₄, ts₅, _, by simp, h₅,
      .list k hder hder', .list hcmd₂ hright⟩
  | pipe =>
    obtain ⟨n, rfl⟩ : ∃ k, n = k + 1 := ⟨n - 1, by simp only [fuel] at hn; omega⟩
    simp only [fuel] at hn
    rw [parse, parsepipe]
    refine (@ih n (by omega) s ts .exec (by simp only [fuel]; omega) h).bind ?_
    rintro cmd s₁ ⟨ts₁, ts₂, c, rfl, h₁, hder, hcmd⟩
    rw [List.length_append] at hn
    refine wp_peek h₁ (by decide) (fun s₂ hp h₂ => ?_) fun s₂ _ h₂ =>
      ⟨ts₁, ts₂, c, rfl, h₂, .exec hder, hcmd⟩
    obtain ⟨ts₂, rfl⟩ := (peeks_single (u := .bar) (by decide)).mp hp
    rw [List.length_cons] at hn
    refine (gettoken_cons h₂).bind fun tok s₃ ⟨_, h₃, _⟩ => ?_
    refine (@ih n (by omega) _ _ .pipe (by simp only [fuel]; omega) h₃).bind ?_
    rintro right s₄ ⟨ts₃, ts₄, c', rfl, h₄, hder', hright⟩
    exact ⟨ts₁ ++ .bar :: ts₃, ts₄, _, by simp, h₄, .pipe hder hder', .pipe hcmd hright⟩
  | exec =>
    obtain ⟨n, rfl⟩ : ∃ k, n = k + 1 + 1 := ⟨n - 2, by simp only [fuel] at hn; omega⟩
    simp only [fuel] at hn
    rw [parse, parseexec]
    refine wp_peek h (by decide) (fun s₁ hp h₁ => ?_) fun s₁ _ h₁ => ?_
    · exact parseblock_spec (by omega) (fun hk h => @ih n (by omega) _ _ .line hk h) hp h₁
    refine (parseredirs_spec (by omega) h₁ (.exec .nil)).bind ?_
    rintro cmd s₂ ⟨ts₁, ts₂, rs, rfl, h₂, hrs, hcmd⟩
    rw [List.length_append] at hn
    refine (parseargs_spec (by omega) h₂ hcmd (by decide)).mono ?_
    rintro cmd' s₃ ⟨ts₃, ts₄, ws, rs', rfl, h₃, hargs, hlen, hcmd'⟩
    exact ⟨ts₁ ++ ts₃, ts₄, _, by simp, h₃, .args hrs hargs hlen, hcmd'⟩

end Sound

/-! ## What is derived is returned -/

section Complete

variable {m : Ram} {es s n : ℕ} {ts rest : List Token} {cmd : Cmd Str} {c : Cmd (List UInt8)}
  {rs : List Redir}

/-- The tokens that may come after a nonterminal. -/
def follow : Nonterminal → List Token
  | .line => [.rpar]
  | .pipe => [.rpar, .amp, .semi]
  | .exec => [.rpar, .amp, .semi, .bar]

/-- `rest` may come after a nonterminal. -/
def Follows (nt : Nonterminal) (rest : List Token) : Prop := ∀ t ∈ rest.head?, t ∈ follow nt

variable {nt : Nonterminal} {toks : List UInt8}

/-- No token that may come after a nonterminal is one of `toks`. -/
theorem Follows.peeks (h : Follows nt rest) (htoks : ∀ t ∈ follow nt, t.first ∉ toks) :
    peeks toks rest = false := by
  cases rest with
  | nil => rfl
  | cons t rest => simpa [Shell.peeks] using htoks t (h t rfl)

theorem parseredirs_complete (hrs : Redirs ts rs) (hrest : peeks (ascii ['<', '>']) rest = false)
    (h : Unread m es s (ts ++ rest)) (hc : Denotes m es cmd c) :
    wp (· = .fuel) (parseredirs m es n cmd)
      (fun cmd' s' => Unread m es s' rest ∧ Denotes m es cmd' (c.redirs rs)) s := by
  induction hrs generalizing n s cmd c with
  | nil =>
    cases n with
    | zero => exact rfl
    | succ n =>
      refine wp_peek h (by decide) (fun s' hp _ => ?_) fun s' _ h' => ⟨h', hc⟩
      exact absurd hp (by rw [List.nil_append, hrest]; decide)
  | @cons t w r ts rs hr hrs ih =>
    cases n with
    | zero => exact rfl
    | succ n =>
      refine wp_peek h (by decide) (fun s₁ _ h₁ => ?_) fun _ hp => ?_
      · refine (gettoken_cons h₁).bind fun tok s₂ ⟨htok, h₂, _⟩ => ?_
        refine (gettoken_cons h₂).bind fun file s₃ ⟨hfile, h₃, hword⟩ => ?_
        have hfile' : ¬ file.1 ≠ 'a'.toUInt8 := not_not.mpr hfile
        rw [if_neg hfile']
        exact ih h₃ (htok ▸ redirect_rel hr hc (hword w rfl))
      · rw [List.cons_append, Redir.peeks_of_ofToken hr] at hp
        cases hp

theorem Args.peeks (hargs : Args ts ws rs) (h0 : 0 ∉ toks)
    (hrest : Shell.peeks toks rest = false) : Shell.peeks toks (ts ++ rest) = false := by
  cases hargs with
  | nil => exact hrest
  | cons => simp [Shell.peeks, Token.first, h0]

theorem parseargs_complete {ws ws' : List (List UInt8)} {rs' : List Redir} (hargs : Args ts ws' rs')
    (hlen : (ws ++ ws').length < MAXARGS) (hrest : Follows .exec rest)
    (h : Unread m es s (ts ++ rest)) (hc : Denotes m es cmd ((Cmd.exec ws).redirs rs)) :
    wp (· = .fuel) (parseargs m es n cmd ws.length) (fun cmd' s' => Unread m es s' rest ∧
      Denotes m es cmd' ((Cmd.exec (ws ++ ws')).redirs (rs ++ rs'))) s := by
  induction hargs generalizing n s cmd ws rs with
  | nil =>
    rw [List.append_nil, List.append_nil]
    cases n with
    | zero => exact rfl
    | succ n =>
      refine wp_peek h (by decide) (fun s' _ h' => ⟨h', hc⟩) fun s' hp h' => ?_
      cases rest with
      | nil =>
        refine (gettoken_nil h').bind fun tok s₁ ⟨htok, h₁⟩ => ?_
        rw [if_pos htok]
        exact ⟨h₁, hc⟩
      | cons t rest =>
        have hpeek : Shell.peeks (ascii ['|', ')', '&', ';']) (t :: rest) = true :=
          (by decide : ∀ t ∈ follow .exec, Shell.peeks (ascii ['|', ')', '&', ';']) [t] = true)
            t (hrest t rfl)
        rw [List.nil_append, hpeek] at hp
        cases hp
  | @cons w ts₁ rs₁ ts₂ ws₂ rs₂ hrs hargs ih =>
    rw [List.cons_append, List.append_assoc] at h
    cases n with
    | zero => exact rfl
    | succ n =>
      refine wp_peek h (by decide) (fun _ hp _ => ?_) fun s₁ _ h₁ => ?_
      · have hzero : (ascii ['|', ')', '&', ';']).contains 0 = true := hp
        exact absurd hzero (by decide)
      refine (gettoken_cons h₁).bind fun tok s₂ ⟨htok, h₂, hword⟩ => ?_
      rw [List.length_append, List.length_cons] at hlen
      have htok' : ¬ tok.1 ≠ 'a'.toUInt8 := not_not.mpr htok
      rw [if_neg (htok ▸ Token.code_ne_zero), if_neg htok', if_neg (by omega)]
      have harg := hc.arg (hword w rfl)
      rw [Cmd.arg_redirs] at harg
      have hnot : peeks (ascii ['<', '>']) (ts₂ ++ rest) = false :=
        hargs.peeks (by decide) (hrest.peeks (by decide))
      refine (parseredirs_complete hrs hnot h₂ harg).bind ?_
      rintro cmd₃ s₃ ⟨h₃, hcmd₃⟩
      rw [← Cmd.redirs_append] at hcmd₃
      have hlen' : (ws ++ [w] ++ ws₂).length < MAXARGS := by
        simp only [List.length_append, List.length_singleton]
        omega
      have hnext := ih (n := n) hlen' h₃ hcmd₃
      rw [List.length_append, List.length_singleton] at hnext
      simpa only [List.append_assoc, List.singleton_append] using hnext

theorem parseback_complete {k : ℕ} (hrest : peeks (ascii ['&']) rest = false)
    (h : Unread m es s (List.replicate k .amp ++ rest)) (hc : Denotes m es cmd c) :
    wp (· = .fuel) (parseback m es n cmd)
      (fun cmd' s' => Unread m es s' rest ∧ Denotes m es cmd' (Cmd.back^[k] c)) s := by
  induction k generalizing n s cmd c with
  | zero =>
    cases n with
    | zero => exact rfl
    | succ n =>
      refine wp_peek h (by decide) (fun s' hp _ => ?_) fun s' _ h' => ⟨h', hc⟩
      exact absurd hp (by rw [List.replicate_zero, List.nil_append, hrest]; decide)
  | succ k ih =>
    cases n with
    | zero => exact rfl
    | succ n =>
      refine wp_peek h (by decide) (fun s₁ _ h₁ => ?_) fun _ hp => by cases hp
      refine (gettoken_cons h₁).bind fun tok s₂ ⟨_, h₂, _⟩ => ?_
      exact ih h₂ (.back hc)

theorem Redirs.peeks (hrs : Redirs ts rs) (htoks : ∀ t ∈ [Token.lt, .gt, .gtgt], t.first ∉ toks)
    (hrest : Shell.peeks toks rest = false) : Shell.peeks toks (ts ++ rest) = false := by
  cases hrs with
  | nil => exact hrest
  | @cons t w r ts rs hr =>
    have ht : t ∈ [Token.lt, .gt, .gtgt] := by cases t <;> cases hr <;> decide
    simpa [Shell.peeks] using htoks t ht

theorem Follows.mono {nt' : Nonterminal} (h : Follows nt rest) (hsub : follow nt ⊆ follow nt') :
    Follows nt' rest := fun t ht => hsub (h t ht)

theorem Follows.cons {t : Token} (ht : t ∈ follow nt) : Follows nt (t :: rest) := by
  rintro _ ⟨⟩
  exact ht

theorem Follows.amps {k : ℕ} (h : Follows .pipe rest) :
    Follows .pipe (List.replicate k .amp ++ rest) := by
  cases k with
  | zero => exact h
  | succ k => exact .cons (by decide)

/-- The parser returns the tree of a derivation, if it has enough calls. -/
theorem parse_complete (hder : Derives nt ts c) (hrest : Follows nt rest)
    (h : Unread m es s (ts ++ rest)) : wp (· = .fuel) (parse m es nt n)
      (fun cmd s' => Unread m es s' rest ∧ Denotes m es cmd c) s := by
  induction hder generalizing rest n s with
  | @line ts c k _ ih =>
    cases n with
    | zero => exact rfl
    | succ n =>
      rw [List.append_assoc] at h
      rw [parse, parseline]
      refine (ih (hrest.mono (by decide)).amps h).bind fun cmd s₁ ⟨h₁, hcmd⟩ => ?_
      refine (parseback_complete (hrest.peeks (by decide)) h₁ hcmd).bind ?_
      rintro cmd₂ s₂ ⟨h₂, hcmd₂⟩
      refine wp_peek h₂ (by decide) (fun _ hp => ?_) fun s₃ _ h₃ => ⟨h₃, hcmd₂⟩
      rw [hrest.peeks (by decide)] at hp
      cases hp
  | @list ts c ts' c' k _ _ ih ih' =>
    cases n with
    | zero => exact rfl
    | succ n =>
      rw [List.append_assoc, List.append_assoc, List.cons_append] at h
      rw [parse, parseline]
      have hfollow : Follows .pipe (.semi :: (ts' ++ rest)) := .cons (by decide)
      refine (ih hfollow.amps h).bind fun cmd s₁ ⟨h₁, hcmd⟩ => ?_
      refine (parseback_complete rfl h₁ hcmd).bind fun cmd₂ s₂ ⟨h₂, hcmd₂⟩ => ?_
      refine wp_peek h₂ (by decide) (fun s₃ _ h₃ => ?_) fun _ hp => by cases hp
      refine (gettoken_cons h₃).bind fun tok s₄ ⟨_, h₄, _⟩ => ?_
      exact (ih' hrest h₄).bind fun right s₅ ⟨h₅, hright⟩ =>
        ⟨h₅, .list hcmd₂ hright⟩
  | exec _ ih =>
    cases n with
    | zero => exact rfl
    | succ n =>
      rw [parse, parsepipe]
      refine (ih (hrest.mono (by decide)) h).bind fun cmd s₁ ⟨h₁, hcmd⟩ => ?_
      refine wp_peek h₁ (by decide) (fun _ hp => ?_) fun s₂ _ h₂ => ⟨h₂, hcmd⟩
      rw [hrest.peeks (by decide)] at hp
      cases hp
  | pipe _ _ ih ih' =>
    cases n with
    | zero => exact rfl
    | succ n =>
      rw [List.append_assoc, List.cons_append] at h
      rw [parse, parsepipe]
      refine (ih (.cons (by decide)) h).bind fun cmd s₁ ⟨h₁, hcmd⟩ => ?_
      refine wp_peek h₁ (by decide) (fun s₂ _ h₂ => ?_) fun _ hp => by cases hp
      refine (gettoken_cons h₂).bind fun tok s₃ ⟨_, h₃, _⟩ => ?_
      exact (ih' hrest h₃).bind fun right s₄ ⟨h₄, hright⟩ =>
        ⟨h₄, .pipe hcmd hright⟩
  | block _ hrs ih =>
    rw [List.append_assoc, List.cons_append, List.cons_append] at h
    cases n with
    | zero => exact rfl
    | succ n =>
      rw [parse, parseexec]
      refine wp_peek h (by decide) (fun s₁ _ h₁ => ?_) fun _ hp => by cases hp
      cases n with
      | zero => exact rfl
      | succ n =>
        rw [parseblock]
        refine wp_peek h₁ (by decide) (fun s₂ _ h₂ => ?_) fun _ hp => by cases hp
        refine (gettoken_cons h₂).bind fun tok s₃ ⟨_, h₃, _⟩ => ?_
        refine (ih (.cons (by decide)) h₃).bind fun cmd s₄ ⟨h₄, hcmd⟩ => ?_
        refine wp_peek h₄ (by decide) (fun s₅ _ h₅ => ?_) fun _ hp => by cases hp
        refine (gettoken_cons h₅).bind fun tok s₆ ⟨_, h₆, _⟩ => ?_
        exact parseredirs_complete hrs (hrest.peeks (by decide)) h₆ hcmd
  | @args ts rs ts' ws rs' hrs hargs hlen =>
    have hlen' : ([] ++ ws).length < MAXARGS := hlen
    rw [List.append_assoc] at h
    have hnot : ∀ {toks : List UInt8}, 0 ∉ toks → (∀ t ∈ follow .exec, t.first ∉ toks) →
        peeks toks (ts' ++ rest) = false := fun h0 hf => hargs.peeks h0 (hrest.peeks hf)
    cases n with
    | zero => exact rfl
    | succ n =>
      rw [parse, parseexec]
      refine wp_peek h (by decide) (fun _ hp => ?_) fun s₁ _ h₁ => ?_
      · rw [hrs.peeks (by decide) (hnot (by decide) (by decide))] at hp
        cases hp
      refine (parseredirs_complete hrs (hnot (by decide) (by decide)) h₁
        (.exec .nil)).bind fun cmd s₂ ⟨h₂, hcmd⟩ => ?_
      exact parseargs_complete hargs hlen' hrest h₂ hcmd

end Complete

/-! ## The strings of the tree -/

section Strings

variable {α β : Type} {m : Ram} {es : ℕ}

def Cmd.map (f : α → β) : Cmd α → Cmd β
  | .exec argv => .exec (argv.map f)
  | .redir cmd file mode fd => .redir (cmd.map f) (f file) mode fd
  | .pipe left right => .pipe (left.map f) (right.map f)
  | .list left right => .list (left.map f) (right.map f)
  | .back cmd => .back (cmd.map f)

/-- All strings of a tree. -/
def Cmd.strs : Cmd α → List α
  | .exec argv => argv
  | .redir cmd file _ _ => cmd.strs ++ [file]
  | .pipe left right => left.strs ++ right.strs
  | .list left right => left.strs ++ right.strs
  | .back cmd => cmd.strs

theorem Cmd.Rel.strs {R : α → β → Prop} {cmd : Cmd α} {c : Cmd β} (h : Cmd.Rel R cmd c) :
    ∀ x ∈ cmd.strs, ∃ w, R x w := by
  induction h with
  | exec h =>
    induction h with
    | nil => exact fun x hx => absurd hx List.not_mem_nil
    | cons hx _ ih => exact List.forall_mem_cons.mpr ⟨⟨_, hx⟩, ih⟩
  | redir _ hf ih =>
    exact List.forall_mem_append.mpr ⟨ih, List.forall_mem_singleton.mpr ⟨_, hf⟩⟩
  | pipe _ _ ih ih' | list _ _ ih ih' => exact List.forall_mem_append.mpr ⟨ih, ih'⟩
  | back _ ih => exact ih

theorem Cmd.Rel.map_eq {R : α → β → Prop} {cmd : Cmd α} {c : Cmd β} {f : α → β}
    (h : Cmd.Rel R cmd c) (hf : ∀ x w, x ∈ cmd.strs → R x w → f x = w) : cmd.map f = c := by
  induction h with
  | exec h =>
    refine congrArg Cmd.exec ?_
    induction h with
    | nil => rfl
    | cons hx _ ih =>
      rw [List.map_cons, hf _ _ List.mem_cons_self hx,
        ih fun x w hx => hf x w (List.mem_cons_of_mem _ hx)]
  | redir _ hfile ih =>
    rw [Cmd.map, ih fun x w hx => hf x w (List.mem_append_left _ hx),
      hf _ _ (List.mem_append_right _ (List.mem_singleton_self _)) hfile]
  | pipe _ _ ih ih' | list _ _ ih ih' =>
    rw [Cmd.map, ih fun x w hx => hf x w (List.mem_append_left _ hx),
      ih' fun x w hx => hf x w (List.mem_append_right _ hx)]
  | back _ ih => rw [Cmd.map, ih hf]

/-- `nulterminate` writes a NUL after every string, and nothing else. -/
theorem nulterminate_apply (cmd : Cmd Str) (m : Ram) (y : ℕ) :
    nulterminate cmd m y = if y ∈ cmd.strs.map Str.eq then 0 else m y := by
  induction cmd generalizing m with
  | exec argv =>
    rw [nulterminate, Cmd.strs]
    induction argv generalizing m with
    | nil => rfl
    | cons a argv ih =>
      rw [List.foldl_cons, ih, List.map_cons]
      by_cases hy : y = a.eq
      · simp [hy]
      · simp [hy]
  | redir cmd file mode fd ih =>
    rw [nulterminate, Cmd.strs, List.map_append, List.map_singleton]
    by_cases hy : y = file.eq
    · simp [hy]
    · simp [hy, ih]
  | pipe left right ih ih' | list left right ih ih' =>
    rw [nulterminate, ih', ih, Cmd.strs, List.map_append]
    by_cases hr : y ∈ right.strs.map Str.eq
    · rw [if_pos hr, if_pos (List.mem_append_right _ hr)]
    · rw [if_neg hr]
      exact if_congr (by simp only [List.mem_append, hr, or_false]) rfl rfl
  | back cmd ih => exact ih m

/-- After `nulterminate` the strings of the tree are its words, read as C strings. -/
theorem Denotes.map_str {cmd : Cmd Str} {c : Cmd (List UInt8)} {n : ℕ} (h : Denotes m es cmd c)
    (hn : es < n) : cmd.map (fun x => (nulterminate cmd m).str n x.q) = c := by
  refine h.map_eq fun x w hx hw => ?_
  -- a NUL goes where there is a byte that is in no word
  have hkeep : ∀ y, plain (m y) = true → m y ≠ 0 → nulterminate cmd m y = m y := by
    intro y hplain hzero
    rw [nulterminate_apply, if_neg]
    intro hy
    obtain ⟨x', hx', rfl⟩ := List.mem_map.mp hy
    obtain ⟨w', hw'⟩ := h.strs x' hx'
    rcases hw'.after with hafter | hafter
    · rw [hplain] at hafter
      cases hafter
    · exact hzero hafter
  have hbytes : (nulterminate cmd m).slice x.q w.length = w := by
    refine (Ram.slice_congr fun i hi => ?_).trans hw.bytes
    have hmem : m (x.q + i) ∈ w := by
      rw [← hw.bytes]
      exact List.mem_map_of_mem (List.mem_range.mpr hi)
    exact hkeep _ (hw.plain _ hmem).1 (hw.plain _ hmem).2
  have hlen : w.length < n := by
    have := hw.eq
    have := hw.le
    omega
  refine Ram.str_eq hbytes (fun h0 => (hw.plain 0 h0).2 rfl) ?_ hlen
  rw [hw.eq, nulterminate_apply, if_pos (List.mem_map_of_mem hx)]

end Strings

/-! ## The line -/

section Line

variable {m : Ram} {es s s' n fuel : ℕ} {cmd : Cmd Str} {line : List UInt8}

/-- The test for leftovers. -/
theorem Unread.skip_eq_iff (h : Unread m es s ts) : Shell.skip m es s = es ↔ ts = [] := by
  obtain ⟨l, hl, rfl, hwhite⟩ := h.skip
  have hlen := hl.length
  constructor
  · intro hs
    have hnil : l = [] := List.eq_nil_of_length_eq_zero (by omega)
    rw [hnil, lex]
  · intro hnil
    rw [lex_eq_nil hnil hwhite] at hlen
    exact hlen

theorem parsecmd_of_ok (hes : s + Ulib.strlen m n s = es)
    (h : parseline m es fuel s = .ok (cmd, s')) : parsecmd fuel n m s =
      if skip m es s' ≠ es then .error (.leftovers (skip m es s'))
      else .ok (cmd, nulterminate cmd m) := by
  simp only [parsecmd, hes, h, bind, Except.bind]
  rfl

theorem parsecmd_of_error {e : Stop} (hes : s + Ulib.strlen m n s = es)
    (h : parseline m es fuel s = .error e) : parsecmd fuel n m s = .error e := by
  simp only [parsecmd, hes, h, bind, Except.bind]

/-- For every line that is a C string, `parsecmd` stops, and succeeds on the lines that the grammar
derives. It returns the tree of the derivation, whose strings, as C strings in the memory that
`nulterminate` leaves, are the words. -/
theorem parsecmd_accepts (hline : m.slice s line.length = line) (h0 : 0 ∉ line)
    (hnul : m (s + line.length) = 0) (hn : s + line.length < n)
    (hfuel : 4 * line.length + 4 ≤ fuel) :
    parsecmd fuel n m s ≠ .error .fuel ∧
      ∀ c, Derives .line (lex line) c ↔ ∃ cmd m', parsecmd fuel n m s = .ok (cmd, m') ∧
        cmd.map (fun x => m'.str n x.q) = c := by
  have hes : s + Ulib.strlen m n s = s + line.length := by
    rw [Ulib.strlen_eq, Ram.str_eq hline h0 hnul (by omega)]
  have hunread : Unread m (s + line.length) s (lex line) := .of_text ⟨rfl, hline, hnul, h0⟩
  have hspec := @parse_spec _ _ _ fuel _ .line
    (by have := length_lex_le line; simp only [Shell.fuel]; omega) hunread
  have hcomplete : ∀ c, Derives .line (lex line) c → wp (· = .fuel)
      (parseline m (s + line.length) fuel) (fun cmd s' => Unread m (s + line.length) s' [] ∧
        Denotes m (s + line.length) cmd c) s := fun c hc =>
    @parse_complete _ _ _ _ _ _ _ .line hc (fun t ht => nomatch ht)
      (by rwa [List.append_nil])
  cases hp : parseline m (s + line.length) fuel s with
  | error e =>
    have he : e ≠ .fuel := hspec.error hp
    rw [parsecmd_of_error hes hp]
    refine ⟨fun h => he (Except.error.inj h), fun c => ⟨fun hc => ?_, ?_⟩⟩
    · exact absurd ((hcomplete c hc).error hp) he
    · rintro ⟨cmd, m', hcmd, -⟩
      cases hcmd
  | ok r =>
    obtain ⟨cmd, s'⟩ := r
    obtain ⟨ts₁, ts₂, c', hts, h', hder, hden⟩ := hspec.ok hp
    rw [parsecmd_of_ok hes hp]
    refine ⟨by split <;> simp, fun c => ⟨fun hc => ?_, ?_⟩⟩
    · obtain ⟨hend, hdenc⟩ := (hcomplete c hc).ok hp
      rw [if_neg (not_not.mpr (hend.skip_eq_iff.mpr rfl))]
      exact ⟨cmd, _, rfl, hdenc.map_str hn⟩
    · rintro ⟨cmd', m', hcmd, rfl⟩
      split at hcmd
      · cases hcmd
      · rename_i hskip
        cases hcmd
        rw [h'.skip_eq_iff.mp (not_not.mp hskip), List.append_nil] at hts
        rw [hden.map_str hn, hts]
        exact hder

/-- The line `a >b` at address 1. -/
def redirLine : Ram :=
  Ram.write (fun _ => 0) 1 (fun i => (ascii ['a', ' ', '>', 'b']).getD i 0) 4

theorem parsecmd_accepts_redir :
    (redirLine.slice 1 4 = ascii ['a', ' ', '>', 'b'] ∧ redirLine 5 = 0) ∧
      Derives .line (lex (ascii ['a', ' ', '>', 'b']))
        (.redir (.exec [ascii ['a']]) (ascii ['b']) 0x601 1) :=
  ⟨by decide, ((parsecmd_accepts (m := redirLine) (s := 1) (n := 6) (by decide) (by decide)
    (by decide) (by decide) (Nat.le_refl 20)).2 _).mpr
      ⟨.redir (.exec [⟨1, 2⟩]) ⟨4, 5⟩ 0x601 1, _, rfl, by decide +kernel⟩⟩

end Line

end Xv6.Shell
