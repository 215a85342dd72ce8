import Xv6.Lib.Outcome

/-!
# The shell's parser

The parser of `sh.c`. It reads a line through a cursor with `gettoken` and `peek`, so it is
written over any `Scanner` for which these two are given; `chars` is the one of the source,
with an index into the buffer for the cursor `*ps` and the end of the line for `es`.

A word of the result is a pair of indices, its first byte and the byte behind it, until
`nulterminate` makes C strings of them. Memory for the nodes never runs out here.

The recursive functions and the loops run with fuel; without a return by then they never
end.
-/

namespace Xv6.Sh
open Lib

def MAXARGS : ℕ := 10
def O_RDONLY : ℕ := 0
def O_WRONLY : ℕ := 1
def O_CREATE : ℕ := 0x200

inductive Cmd (α : Type)
  | exec (argv : List α)
  | redir (cmd : Cmd α) (file : α) (mode fd : ℕ)
  | pipe (left right : Cmd α)
  | list (left right : Cmd α)
  | back (cmd : Cmd α)
  deriving DecidableEq

namespace Cmd

variable {α β : Type}

/-- `cmd->argv[argc++] = w` at the innermost node. -/
def addArg (w : α) : Cmd α → Cmd α
  | .exec argv => .exec (argv ++ [w])
  | .redir c file mode fd => .redir (c.addArg w) file mode fd
  | c => c

def map (f : α → β) : Cmd α → Cmd β
  | .exec argv => .exec (argv.map f)
  | .redir c file mode fd => .redir (c.map f) (f file) mode fd
  | .pipe l r => .pipe (l.map f) (r.map f)
  | .list l r => .list (l.map f) (r.map f)
  | .back c => .back (c.map f)

end Cmd

section Characters

def bar : UInt8 := 124
def amp : UInt8 := 38
def semi : UInt8 := 59
def lpar : UInt8 := 40
def rpar : UInt8 := 41
def lt : UInt8 := 60
def gt : UInt8 := 62
def plus : UInt8 := 43
def letter : UInt8 := 97

def whitespace : List UInt8 := [32, 9, 13, 10, 11]
def symbols : List UInt8 := [lt, bar, gt, amp, semi, lpar, rpar]

def isWord (c : UInt8) : Bool := !whitespace.contains c && !symbols.contains c

end Characters

/-- What the parser needs of its input. `gettoken` answers the kind of a token and the word
at it. -/
structure Scanner (σ α : Type) where
  gettoken : Prog σ (UInt8 × α)
  peek : List UInt8 → Prog σ Bool

section Parser

variable {σ α : Type} (S : Scanner σ α)

def redircmd (cmd : Cmd α) (tok : UInt8) (file : α) : Cmd α :=
  if tok = lt then .redir cmd file O_RDONLY 0
  else if tok = gt then .redir cmd file (O_WRONLY ||| O_CREATE) 1
  else if tok = plus then .redir cmd file (O_WRONLY ||| O_CREATE) 1
  else cmd

def parseredirs : ℕ → Cmd α → Prog σ (Cmd α)
  | 0, _ => .hang
  | fuel + 1, cmd => do
    let more ← S.peek [lt, gt]
    if more then do
      let tok ← S.gettoken
      let file ← S.gettoken
      if file.1 ≠ letter then .panic "missing file for redirection"
      else parseredirs fuel (redircmd cmd tok.1 file.2)
    else return cmd

/-- The loop of `parseexec`. -/
def parseargs : ℕ → ℕ → Cmd α → Prog σ (Cmd α)
  | 0, _, _ => .hang
  | fuel + 1, argc, ret => do
    let stop ← S.peek [bar, rpar, amp, semi]
    if stop then return ret
    else do
      let tok ← S.gettoken
      if tok.1 = 0 then return ret
      else if tok.1 ≠ letter then .panic "syntax"
      else if MAXARGS ≤ argc + 1 then .panic "too many args"
      else do
        let ret ← parseredirs S fuel (ret.addArg tok.2)
        parseargs fuel (argc + 1) ret

/-- The loop of `parseline` over `&`. -/
def parsebacks : ℕ → Cmd α → Prog σ (Cmd α)
  | 0, _ => .hang
  | fuel + 1, cmd => do
    let more ← S.peek [amp]
    if more then do
      let _ ← S.gettoken
      parsebacks fuel (.back cmd)
    else return cmd

mutual

def parseline : ℕ → Prog σ (Cmd α)
  | 0 => .hang
  | fuel + 1 => do
    let cmd ← parsepipe fuel
    let cmd ← parsebacks S fuel cmd
    let more ← S.peek [semi]
    if more then do
      let _ ← S.gettoken
      let right ← parseline fuel
      return .list cmd right
    else return cmd

def parsepipe : ℕ → Prog σ (Cmd α)
  | 0 => .hang
  | fuel + 1 => do
    let cmd ← parseexec fuel
    let more ← S.peek [bar]
    if more then do
      let _ ← S.gettoken
      let right ← parsepipe fuel
      return .pipe cmd right
    else return cmd

def parseexec : ℕ → Prog σ (Cmd α)
  | 0 => .hang
  | fuel + 1 => do
    let block ← S.peek [lpar]
    if block then parseblock fuel
    else do
      let ret ← parseredirs S fuel (.exec [])
      parseargs S fuel 0 ret

def parseblock : ℕ → Prog σ (Cmd α)
  | 0 => .hang
  | fuel + 1 => do
    let block ← S.peek [lpar]
    if block = false then .panic "parseblock"
    else do
      let _ ← S.gettoken
      let cmd ← parseline fuel
      let close ← S.peek [rpar]
      if close = false then .panic "syntax - missing )"
      else do
        let _ ← S.gettoken
        parseredirs S fuel cmd

end

end Parser

section Source

def byteAt (buf : List UInt8) (s : ℕ) : UInt8 := (buf[s]?).getD 0

/-- `while(s < es && p(*s)) s++`; it ends within the line. -/
def skipFrom (buf : List UInt8) (p : UInt8 → Bool) : ℕ → ℕ → ℕ
  | 0, s => s
  | fuel + 1, s =>
    if s < buf.length ∧ p (byteAt buf s) then skipFrom buf p fuel (s + 1) else s

def skip (buf : List UInt8) (p : UInt8 → Bool) (s : ℕ) : ℕ :=
  skipFrom buf p (buf.length - s) s

abbrev Span := ℕ × ℕ

/-- The `switch` of `gettoken`: the kind of the token at `q` and the index behind it. -/
def tokenAt (buf : List UInt8) (q : ℕ) : UInt8 × ℕ :=
  let c := byteAt buf q
  if c = 0 then (c, q)
  else if c = bar ∨ c = lpar ∨ c = rpar ∨ c = semi ∨ c = amp ∨ c = lt then (c, q + 1)
  else if c = gt then
    if byteAt buf (q + 1) = gt then (plus, q + 2) else (c, q + 1)
  else (letter, skip buf isWord q)

def gettoken (buf : List UInt8) (ps : ℕ) : (UInt8 × Span) × ℕ :=
  let q := skip buf whitespace.contains ps
  let r := tokenAt buf q
  ((r.1, (q, r.2)), skip buf whitespace.contains r.2)

def peek (buf : List UInt8) (toks : List UInt8) (ps : ℕ) : Bool × ℕ :=
  let s := skip buf whitespace.contains ps
  (byteAt buf s ≠ 0 ∧ toks.contains (byteAt buf s), s)

def chars (buf : List UInt8) : Scanner ℕ Span where
  gettoken := fun ps => .ret (gettoken buf ps)
  peek := fun toks ps => .ret (peek buf toks ps)

/-- `nulterminate` writes a zero behind every word. -/
def nulterminate (buf : List UInt8) : Cmd Span → List UInt8
  | .exec argv => argv.foldl (fun m w => m.set w.2 0) buf
  | .redir c file _ _ => (nulterminate buf c).set file.2 0
  | .pipe l r => nulterminate (nulterminate buf l) r
  | .list l r => nulterminate (nulterminate buf l) r
  | .back c => nulterminate buf c

def cstring (m : List UInt8) (s : ℕ) : List UInt8 := (m.drop s).takeWhile (· ≠ 0)

def enough (n : ℕ) : ℕ := 4 * n + 4

def parsecmd (s : List UInt8) : Outcome (Cmd (List UInt8)) :=
  let buf := s.takeWhile (· ≠ 0)
  (parseline (chars buf) (enough buf.length) 0).bind fun r =>
    let p := (peek buf [] r.2).2
    if p ≠ buf.length then .panic "syntax"
    else .ret (r.1.map fun w => cstring (nulterminate buf r.1) w.1)

end Source

end Xv6.Sh
