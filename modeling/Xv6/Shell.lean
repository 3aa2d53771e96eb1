import Xv6.Prog
import Xv6.Ulib

/-!
# The parser of the shell

The functions of `sh.c` that read a command line. The line is a C string in memory, `*ps` is the
state of a `Prog`, and the memory does not change before `nulterminate` runs. A call of `panic` is
an error. The nodes are a tree of type `Cmd α`, where `α` is the pair of pointers `q`, `eq` that
`gettoken` finds.

The functions that call themselves, and the loops, take the number of calls they may still make.
`Stop.fuel` says that it was not enough. The C code has no such limit.
-/

namespace Xv6.Shell

open Function

/-- `whitespace` -/
def whitespace : List UInt8 := ascii [' ', '\t', '\r', '\n', '\x0b']

/-- `symbols` -/
def symbols : List UInt8 := ascii ['<', '|', '>', '&', ';', '(', ')']

/-- `strchr(whitespace, c)` -/
def white (c : UInt8) : Bool := whitespace.contains c

/-- `!strchr(whitespace, c) && !strchr(symbols, c)` -/
def plain (c : UInt8) : Bool := !whitespace.contains c && !symbols.contains c

/-- `struct cmd`, whose strings are in `α`. -/
inductive Cmd (α : Type)
  | exec (argv : List α)
  | redir (cmd : Cmd α) (file : α) (mode fd : ℕ)
  | pipe (left right : Cmd α)
  | list (left right : Cmd α)
  | back (cmd : Cmd α)
  deriving DecidableEq

/-- A string of the line, from `q` up to `eq`. -/
structure Str where
  q : ℕ
  eq : ℕ
  deriving DecidableEq

/-- What ends the parser. -/
inductive Stop
  | fuel
  | panic (s : String)
  /-- The text left at `s` is printed before `panic("syntax")`. -/
  | leftovers (s : ℕ)
  deriving DecidableEq

def MAXARGS : ℕ := 10

def O_RDONLY : ℕ := 0x000
def O_WRONLY : ℕ := 0x001
def O_CREATE : ℕ := 0x200
def O_TRUNC : ℕ := 0x400

/-! ## Tokens -/

section Parser

variable (m : Ram)

/-- `while(s < es && p(*s)) s++;` with `n` bytes up to `es` -/
def span (p : UInt8 → Bool) : (n s : ℕ) → ℕ
  | 0, s => s
  | n + 1, s => if p (m s) then span p n (s + 1) else s

variable (es : ℕ)

/-- `while(s < es && strchr(whitespace, *s)) s++;` -/
def skip (s : ℕ) : ℕ := span m white (es - s) s

/-- The `switch` of `gettoken`, which returns `ret` and the new `s`. -/
def token (s : ℕ) : UInt8 × ℕ :=
  if m s = 0 then (0, s)
  else if m s ∈ ascii ['|', '(', ')', ';', '&', '<'] then (m s, s + 1)
  else if m s = '>'.toUInt8 then
    if m (s + 1) = '>'.toUInt8 then ('+'.toUInt8, s + 2) else (m s, s + 1)
  else ('a'.toUInt8, span m plain (es - s) s)

/-- `gettoken(ps, es, q, eq)`, which also returns `*q` and `*eq`. -/
def gettoken : Prog ℕ Stop (UInt8 × Str) := do
  modify (skip m es)
  let q ← get
  modify fun s => (token m es s).2
  let eq ← get
  modify (skip m es)
  return ((token m es q).1, ⟨q, eq⟩)

def peek (toks : List UInt8) : Prog ℕ Stop Bool := do
  modify (skip m es)
  let s ← get
  return m s ≠ 0 ∧ m s ∈ toks

/-! ## Commands -/

/-- `cmd->argv[argc] = q; cmd->eargv[argc] = eq;` where `cmd` is the `execcmd` that the
redirections of `ret` were put around. -/
def Cmd.arg {α : Type} (a : α) : Cmd α → Cmd α
  | .exec argv => .exec (argv ++ [a])
  | .redir cmd file mode fd => .redir (cmd.arg a) file mode fd
  | ret => ret

/-- The `switch` of `parseredirs`. -/
def redirect {α : Type} (tok : UInt8) (file : α) (cmd : Cmd α) : Cmd α :=
  if tok = '<'.toUInt8 then .redir cmd file O_RDONLY 0
  else if tok = '>'.toUInt8 then .redir cmd file (O_WRONLY ||| O_CREATE ||| O_TRUNC) 1
  else if tok = '+'.toUInt8 then .redir cmd file (O_WRONLY ||| O_CREATE) 1
  else cmd

def parseredirs : ℕ → Cmd Str → Prog ℕ Stop (Cmd Str)
  | 0, _ => throw .fuel
  | n + 1, cmd => do
    if ← peek m es (ascii ['<', '>']) then
      let tok ← gettoken m es
      let file ← gettoken m es
      if file.1 ≠ 'a'.toUInt8 then throw (.panic "missing file for redirection")
      else parseredirs n (redirect tok.1 file.2 cmd)
    else return cmd

/-- The loop of `parseexec`. -/
def parseargs : ℕ → Cmd Str → ℕ → Prog ℕ Stop (Cmd Str)
  | 0, _, _ => throw .fuel
  | n + 1, ret, argc => do
    if ← peek m es (ascii ['|', ')', '&', ';']) then return ret
    else
      let tok ← gettoken m es
      if tok.1 = 0 then return ret
      else if tok.1 ≠ 'a'.toUInt8 then throw (.panic "syntax")
      else if argc + 1 ≥ MAXARGS then throw (.panic "too many args")
      else
        let ret ← parseredirs m es n (ret.arg tok.2)
        parseargs n ret (argc + 1)

/-- The loop of `parseline`. -/
def parseback : ℕ → Cmd Str → Prog ℕ Stop (Cmd Str)
  | 0, _ => throw .fuel
  | n + 1, cmd => do
    if ← peek m es (ascii ['&']) then
      let _ ← gettoken m es
      parseback n (.back cmd)
    else return cmd

mutual

def parseline : ℕ → Prog ℕ Stop (Cmd Str)
  | 0 => throw .fuel
  | n + 1 => do
    let cmd ← parsepipe n
    let cmd ← parseback m es n cmd
    if ← peek m es (ascii [';']) then
      let _ ← gettoken m es
      let right ← parseline n
      return .list cmd right
    else return cmd

def parsepipe : ℕ → Prog ℕ Stop (Cmd Str)
  | 0 => throw .fuel
  | n + 1 => do
    let cmd ← parseexec n
    if ← peek m es (ascii ['|']) then
      let _ ← gettoken m es
      let right ← parsepipe n
      return .pipe cmd right
    else return cmd

def parseblock : ℕ → Prog ℕ Stop (Cmd Str)
  | 0 => throw .fuel
  | n + 1 => do
    if ← peek m es (ascii ['(']) then
      let _ ← gettoken m es
      let cmd ← parseline n
      if ← peek m es (ascii [')']) then
        let _ ← gettoken m es
        parseredirs m es n cmd
      else throw (.panic "syntax - missing )")
    else throw (.panic "parseblock")

def parseexec : ℕ → Prog ℕ Stop (Cmd Str)
  | 0 => throw .fuel
  | n + 1 => do
    if ← peek m es (ascii ['(']) then parseblock n
    else
      let ret ← parseredirs m es n (.exec [])
      parseargs m es n ret 0

end

end Parser

def nulterminate : Cmd Str → Ram → Ram
  | .exec argv, m => argv.foldl (fun m a => update m a.eq 0) m
  | .redir cmd file _ _, m => update (nulterminate cmd m) file.eq 0
  | .pipe left right, m => nulterminate right (nulterminate left m)
  | .list left right, m => nulterminate right (nulterminate left m)
  | .back cmd, m => nulterminate cmd m

/-- `parsecmd(s)`, of a string shorter than `n` bytes, with the memory that `nulterminate`
leaves. -/
def parsecmd (fuel n : ℕ) (m : Ram) (s : ℕ) : Except Stop (Cmd Str × Ram) := do
  let es := s + Ulib.strlen m n s
  let (cmd, s) ← parseline m es fuel s
  let (_, s) ← peek m es [] s
  if s ≠ es then throw (.leftovers s) else return (cmd, nulterminate cmd m)

end Xv6.Shell
