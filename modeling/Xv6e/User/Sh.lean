import Xv6e.Params

/-!
# The parser of the shell

`gettoken`, `peek`, the parsing functions and `nulterminate` of `sh.c`.  The parsing functions see the input
through `peek` and `gettoken` only: they are written over any `Scanner`, and `scanner` is the one of the
source, which keeps a cursor into a buffer.  A command refers to its words by the two pointers `q` and `eq` of
each; a word is a pair of positions.

Reads and writes beyond the buffer stop the program (`Stop.outside`), and so do loops and recursions that have
not ended when every byte of the input may have been read (`Stop.loops`).  That `malloc` returns memory is
taken for granted.

* `parseredirs`, `parseline`, `parsepipe`, `parseexec`, `parseblock` — the parsing functions;
* `gettoken`, `peek`, `scanner` — the scanner;
* `nulterminate`, `parsecmd`.
-/

namespace Xv6e.User.Sh

/-- The bytes of a C string before its terminator. -/
abbrev Text : Type := List UInt8

def bar : UInt8 := 124

def amp : UInt8 := 38

def semi : UInt8 := 59

def lparen : UInt8 := 40

def rparen : UInt8 := 41

def less : UInt8 := 60

def greater : UInt8 := 62

def plus : UInt8 := 43

def letter : UInt8 := 97

def whitespace : Text := [32, 9, 13, 10, 11]

def symbols : Text := [less, bar, greater, amp, semi, lparen, rparen]

def MAXARGS : ℕ := 10

def strchr (s : Text) (c : UInt8) : Bool := s.contains c

inductive Stop where
  /-- `panic(text)`. -/
  | panic (text : String)
  /-- A byte beyond the buffer is read or written. -/
  | outside
  /-- A loop or a recursion does not end. -/
  | loops
  deriving DecidableEq, Repr

/-! ### Commands -/

/-- `struct cmd`, with words of any kind. -/
inductive Cmd (ω : Type) where
  | exec (argv : List ω)
  | redir (cmd : Cmd ω) (file : ω) (mode fd : ℕ)
  | pipe (left right : Cmd ω)
  | list (left right : Cmd ω)
  | back (cmd : Cmd ω)
  deriving DecidableEq, Repr

variable {σ ω υ : Type}

/-- A word is added to the `execcmd` that `parseexec` has made; `parseredirs` may have put it into `redircmd`s
since. -/
def Cmd.addArg : Cmd ω → ω → Cmd ω
  | .exec argv, w => .exec (argv ++ [w])
  | .redir cmd file mode fd, w => .redir (cmd.addArg w) file mode fd
  | cmd, _ => cmd

/-- The words of a command, in the order of its nodes. -/
def Cmd.words : Cmd ω → List ω
  | .exec argv => argv
  | .redir cmd file _ _ => cmd.words ++ [file]
  | .pipe left right => left.words ++ right.words
  | .list left right => left.words ++ right.words
  | .back cmd => cmd.words

def Cmd.map (f : ω → υ) : Cmd ω → Cmd υ
  | .exec argv => .exec (argv.map f)
  | .redir cmd file mode fd => .redir (cmd.map f) (f file) mode fd
  | .pipe left right => .pipe (left.map f) (right.map f)
  | .list left right => .list (left.map f) (right.map f)
  | .back cmd => .back (cmd.map f)

/-! ### The parsing functions -/

/-- What the parsing functions call: `gettoken` returns the code of a token and its word, `peek` says whether
the next token starts with one of some characters; both move the cursor. -/
structure Scanner (σ ω : Type) where
  gettoken : σ → Except Stop (UInt8 × ω × σ)
  peek : Text → σ → Except Stop (Bool × σ)

def redirect (tok : UInt8) (cmd : Cmd ω) (file : ω) : Cmd ω :=
  if tok = less then .redir cmd file O_RDONLY 0
  else if tok = greater then .redir cmd file (O_WRONLY ||| O_CREATE) 1
  else if tok = plus then .redir cmd file (O_WRONLY ||| O_CREATE) 1
  else cmd

def parseredirs (sc : Scanner σ ω) : ℕ → Cmd ω → σ → Except Stop (Cmd ω × σ)
  | 0, _, _ => .error .loops
  | fuel + 1, cmd, s => do
    let (more, s) ← sc.peek [less, greater] s
    if more then
      let (tok, _, s) ← sc.gettoken s
      let (next, file, s) ← sc.gettoken s
      if next ≠ letter then .error (.panic "missing file for redirection")
      else parseredirs sc fuel (redirect tok cmd file) s
    else .ok (cmd, s)

/-- The loop of `parseexec`, with `argc` words so far. -/
def argLoop (sc : Scanner σ ω) : ℕ → ℕ → Cmd ω → σ → Except Stop (Cmd ω × σ)
  | 0, _, _, _ => .error .loops
  | fuel + 1, argc, ret, s => do
    let (stop, s) ← sc.peek [bar, rparen, amp, semi] s
    if stop then .ok (ret, s)
    else
      let (tok, arg, s) ← sc.gettoken s
      if tok = 0 then .ok (ret, s)
      else if tok ≠ letter then .error (.panic "syntax")
      else if MAXARGS ≤ argc + 1 then .error (.panic "too many args")
      else
        let (ret, s) ← parseredirs sc fuel (ret.addArg arg) s
        argLoop sc fuel (argc + 1) ret s

def backLoop (sc : Scanner σ ω) : ℕ → Cmd ω → σ → Except Stop (Cmd ω × σ)
  | 0, _, _ => .error .loops
  | fuel + 1, cmd, s => do
    let (more, s) ← sc.peek [amp] s
    if more then
      let (_, _, s) ← sc.gettoken s
      backLoop sc fuel (.back cmd) s
    else .ok (cmd, s)

mutual

def parseline (sc : Scanner σ ω) : ℕ → σ → Except Stop (Cmd ω × σ)
  | 0, _ => .error .loops
  | fuel + 1, s => do
    let (cmd, s) ← parsepipe sc fuel s
    let (cmd, s) ← backLoop sc fuel cmd s
    let (more, s) ← sc.peek [semi] s
    if more then
      let (_, _, s) ← sc.gettoken s
      let (right, s) ← parseline sc fuel s
      .ok (.list cmd right, s)
    else .ok (cmd, s)

def parsepipe (sc : Scanner σ ω) : ℕ → σ → Except Stop (Cmd ω × σ)
  | 0, _ => .error .loops
  | fuel + 1, s => do
    let (cmd, s) ← parseexec sc fuel s
    let (more, s) ← sc.peek [bar] s
    if more then
      let (_, _, s) ← sc.gettoken s
      let (right, s) ← parsepipe sc fuel s
      .ok (.pipe cmd right, s)
    else .ok (cmd, s)

def parseexec (sc : Scanner σ ω) : ℕ → σ → Except Stop (Cmd ω × σ)
  | 0, _ => .error .loops
  | fuel + 1, s => do
    let (block, s) ← sc.peek [lparen] s
    if block then parseblock sc fuel s
    else
      let (ret, s) ← parseredirs sc fuel (.exec []) s
      argLoop sc fuel 0 ret s

def parseblock (sc : Scanner σ ω) : ℕ → σ → Except Stop (Cmd ω × σ)
  | 0, _ => .error .loops
  | fuel + 1, s => do
    let (opens, s) ← sc.peek [lparen] s
    if opens = false then .error (.panic "parseblock")
    else
      let (_, _, s) ← sc.gettoken s
      let (cmd, s) ← parseline sc fuel s
      let (closes, s) ← sc.peek [rparen] s
      if closes = false then .error (.panic "syntax - missing )")
      else
        let (_, _, s) ← sc.gettoken s
        parseredirs sc fuel cmd s

end

/-! ### The scanner -/

def readByte (buf : Text) (s : ℕ) : Except Stop UInt8 :=
  match buf[s]? with
  | some c => .ok c
  | none => .error .outside

def advance (buf : Text) (es : ℕ) (p : UInt8 → Bool) : ℕ → ℕ → Except Stop ℕ
  | 0, _ => .error .loops
  | fuel + 1, s =>
    if s < es then do
      let c ← readByte buf s
      if p c then advance buf es p fuel (s + 1) else .ok s
    else .ok s

/-- The loops of `gettoken` and `peek` over whitespace. -/
def skip (buf : Text) (es s : ℕ) : Except Stop ℕ := advance buf es (strchr whitespace) (es + 1) s

def wordChar (c : UInt8) : Bool := !strchr whitespace c && !strchr symbols c

/-- The `switch` of `gettoken`: the code of the token at `s`, and where it ends. -/
def token (buf : Text) (es s : ℕ) : Except Stop (UInt8 × ℕ) := do
  let c ← readByte buf s
  if c = 0 then .ok (c, s)
  else if strchr [bar, lparen, rparen, semi, amp, less] c then .ok (c, s + 1)
  else if c = greater then
    let d ← readByte buf (s + 1)
    if d = greater then .ok (plus, s + 2) else .ok (c, s + 1)
  else
    let s ← advance buf es wordChar (es + 1) s
    .ok (letter, s)

/-- `gettoken`: the code of the token, the pointers `q` and `eq`, and the cursor. -/
def gettoken (buf : Text) (es ps : ℕ) : Except Stop (UInt8 × (ℕ × ℕ) × ℕ) := do
  let q ← skip buf es ps
  let (ret, eq) ← token buf es q
  let s ← skip buf es eq
  .ok (ret, (q, eq), s)

def peek (buf : Text) (es : ℕ) (toks : Text) (ps : ℕ) : Except Stop (Bool × ℕ) := do
  let s ← skip buf es ps
  let c ← readByte buf s
  .ok (c ≠ 0 && strchr toks c, s)

/-- The scanner of a buffer whose string ends at `es`. -/
def scanner (buf : Text) (es : ℕ) : Scanner ℕ (ℕ × ℕ) where
  gettoken := gettoken buf es
  peek := peek buf es

/-! ### `parsecmd` -/

/-- `strlen`, for a string with `n` bytes before `s`. -/
def strlen (buf : Text) : ℕ → ℕ → Except Stop ℕ
  | 0, _ => .error .loops
  | fuel + 1, n => do
    let c ← readByte buf n
    if c = 0 then .ok n else strlen buf fuel (n + 1)

def terminate (buf : Text) (s : ℕ) : Except Stop Text :=
  if s < buf.length then .ok (buf.set s 0) else .error .outside

/-- `nulterminate`: the buffer afterwards. -/
def nulterminate (buf : Text) : Cmd (ℕ × ℕ) → Except Stop Text
  | .exec argv => argv.foldlM (fun buf w => terminate buf w.2) buf
  | .redir cmd file _ _ => do
    let buf ← nulterminate buf cmd
    terminate buf file.2
  | .pipe left right => do
    let buf ← nulterminate buf left
    nulterminate buf right
  | .list left right => do
    let buf ← nulterminate buf left
    nulterminate buf right
  | .back cmd => nulterminate buf cmd

/-- `parsecmd`: the command, and the buffer afterwards. -/
def parsecmd (buf : Text) : Except Stop (Cmd (ℕ × ℕ) × Text) := do
  let es ← strlen buf buf.length 0
  let (cmd, s) ← parseline (scanner buf es) (4 * es + 4) 0
  let (_, s) ← peek buf es [] s
  if s ≠ es then .error (.panic "syntax")
  else
    let buf ← nulterminate buf cmd
    .ok (cmd, buf)

end Xv6e.User.Sh
