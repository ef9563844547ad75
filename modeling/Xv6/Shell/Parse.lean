import Xv6.Lib.Bytes
import Xv6.Lib.Depth

/-!
# The parser of the shell

`parsecmd` and the functions it calls.  A pointer into the line is an offset; the line ends in a
NUL.  The recursive functions only move the cursor through `peek` and `gettoken`, so they are
written over a `Lexer`: `scanner` is the one of the source, over bytes.  Functions that recurse or
loop take the depth they may go to; without depth left they give `none`.
-/

namespace Shell
open Bytes Depth

def MAXARGS : Nat := 10
def O_RDONLY : Nat := 0x000
def O_WRONLY : Nat := 0x001
def O_CREATE : Nat := 0x200
def O_TRUNC : Nat := 0x400

def chr (c : Char) : Byte := BitVec.ofNat 8 c.toNat

/-- space, `\t`, `\r`, `\n`, `\v` -/
def whitespace : List Byte := [0x20, 0x09, 0x0d, 0x0a, 0x0b]

def symbols : List Byte := [chr '<', chr '|', chr '>', chr '&', chr ';', chr '(', chr ')']

/-! ## commands -/

/-- a parsed command; `W` stands for the two pointers that delimit a word -/
inductive Cmd (W : Type) where
  | exec (argv : List W)
  | redir (cmd : Cmd W) (file : W) (mode fd : Nat)
  | pipe (left right : Cmd W)
  | list (left right : Cmd W)
  | back (cmd : Cmd W)
deriving DecidableEq

/-- `cmd->argv[argc] = q; cmd->eargv[argc] = eq`, where `cmd` is the command at the bottom of the
redirections -/
def Cmd.pushArg {W : Type} : Cmd W → W → Cmd W
  | .exec argv, w => .exec (argv ++ [w])
  | .redir cmd file mode fd, w => .redir (cmd.pushArg w) file mode fd
  | cmd, _ => cmd

/-- the calls of `panic` -/
inductive Panic where
  | leftovers (s : Nat)
  | badToken
  | missingFile
  | notBlock
  | missingParen
  | tooManyArgs
deriving DecidableEq

def Panic.message : Panic → String
  | .leftovers _ => "syntax"
  | .badToken => "syntax"
  | .missingFile => "missing file for redirection"
  | .notBlock => "parseblock"
  | .missingParen => "syntax - missing )"
  | .tooManyArgs => "too many args"

abbrev Parse (α : Type) : Type := Comp Panic α

/-! ## tokens -/

/-- what `gettoken` returns and stores -/
structure Gettoken (P W : Type) where
  ret : Byte
  word : W
  ps : P

structure Lexer (P W : Type) where
  peek : P → List Byte → Bool × P
  gettoken : P → Gettoken P W

section
variable (buf : List Byte) (es : Nat)

def byteAt (s : Nat) : Byte := buf.getD s 0

/-- at most `n` rounds of `while(p(*s)) s++` -/
def scanLoop (p : Byte → Bool) : Nat → Nat → Nat
  | 0, s => s
  | n + 1, s => if p (byteAt buf s) then scanLoop p n (s + 1) else s

/-- `while(s < es && p(*s)) s++` -/
def scan (p : Byte → Bool) (s : Nat) : Nat := scanLoop buf p (es - s) s

def isSpace (c : Byte) : Bool := whitespace.contains c

/-- the bytes of a word -/
def isPlain (c : Byte) : Bool := !whitespace.contains c && !symbols.contains c

/-- what the `switch` of `gettoken` returns at `s`, and where it leaves `s` -/
def lexeme (s : Nat) : Byte × Nat :=
  let c := byteAt buf s
  if c = 0 then (0, s)
  else if c = chr '|' ∨ c = chr '(' ∨ c = chr ')' ∨ c = chr ';' ∨ c = chr '&' ∨ c = chr '<' then
    (c, s + 1)
  else if c = chr '>' then
    if byteAt buf (s + 1) = chr '>' then (chr '+', s + 2) else (chr '>', s + 1)
  else (chr 'a', scan buf es isPlain s)

def gettoken (ps : Nat) : Gettoken Nat (Nat × Nat) :=
  let q := scan buf es isSpace ps
  let r := lexeme buf es q
  ⟨r.1, (q, r.2), scan buf es isSpace r.2⟩

def peek (ps : Nat) (toks : List Byte) : Bool × Nat :=
  let s := scan buf es isSpace ps
  (byteAt buf s != 0 && toks.contains (byteAt buf s), s)

def scanner : Lexer Nat (Nat × Nat) := ⟨peek buf es, gettoken buf es⟩

end

/-! ## the recursive functions -/

section
variable {P W : Type} (L : Lexer P W)

/-- the `switch` of `parseredirs` -/
def redirSwitch (cmd : Cmd W) (file : W) (tok : Byte) : Cmd W :=
  if tok = chr '<' then .redir cmd file O_RDONLY 0
  else if tok = chr '>' then .redir cmd file (O_WRONLY ||| O_CREATE ||| O_TRUNC) 1
  else if tok = chr '+' then .redir cmd file (O_WRONLY ||| O_CREATE) 1
  else cmd

def parseredirs : Nat → Cmd W → P → Parse (Cmd W × P)
  | 0, _, _ => outOfDepth
  | n + 1, cmd, ps =>
    let p := L.peek ps [chr '<', chr '>']
    if p.1 then
      let op := L.gettoken p.2
      let file := L.gettoken op.ps
      if file.ret ≠ chr 'a' then throw .missingFile
      else parseredirs n (redirSwitch cmd file.word op.ret) file.ps
    else pure (cmd, p.2)

/-- the loop of `parseexec` -/
def parseargs : Nat → Cmd W → Nat → P → Parse (Cmd W × P)
  | 0, _, _, _ => outOfDepth
  | n + 1, ret, argc, ps =>
    let p := L.peek ps [chr '|', chr ')', chr '&', chr ';']
    if p.1 then pure (ret, p.2)
    else
      let tok := L.gettoken p.2
      if tok.ret = 0 then pure (ret, tok.ps)
      else if tok.ret ≠ chr 'a' then throw .badToken
      else if MAXARGS ≤ argc + 1 then throw .tooManyArgs
      else do
        let r ← parseredirs L n (ret.pushArg tok.word) tok.ps
        parseargs n r.1 (argc + 1) r.2

/-- the loop of `parseline` -/
def parseback : Nat → Cmd W → P → Parse (Cmd W × P)
  | 0, _, _ => outOfDepth
  | n + 1, cmd, ps =>
    let p := L.peek ps [chr '&']
    if p.1 then parseback n (.back cmd) (L.gettoken p.2).ps
    else pure (cmd, p.2)

mutual

def parseline : Nat → P → Parse (Cmd W × P)
  | 0, _ => outOfDepth
  | n + 1, ps => do
    let c ← parsepipe n ps
    let c ← parseback L n c.1 c.2
    let p := L.peek c.2 [chr ';']
    if p.1 then do
      let r ← parseline n (L.gettoken p.2).ps
      pure (.list c.1 r.1, r.2)
    else pure (c.1, p.2)

def parsepipe : Nat → P → Parse (Cmd W × P)
  | 0, _ => outOfDepth
  | n + 1, ps => do
    let c ← parseexec n ps
    let p := L.peek c.2 [chr '|']
    if p.1 then do
      let r ← parsepipe n (L.gettoken p.2).ps
      pure (.pipe c.1 r.1, r.2)
    else pure (c.1, p.2)

def parseexec : Nat → P → Parse (Cmd W × P)
  | 0, _ => outOfDepth
  | n + 1, ps =>
    let p := L.peek ps [chr '(']
    if p.1 then parseblock n p.2
    else do
      let r ← parseredirs L n (.exec []) p.2
      parseargs L n r.1 0 r.2

def parseblock : Nat → P → Parse (Cmd W × P)
  | 0, _ => outOfDepth
  | n + 1, ps =>
    let p := L.peek ps [chr '(']
    if !p.1 then throw .notBlock
    else do
      let c ← parseline n (L.gettoken p.2).ps
      let e := L.peek c.2 [chr ')']
      if !e.1 then throw .missingParen
      else parseredirs L n c.1 (L.gettoken e.2).ps

end

end

/-! ## parsecmd -/

/-- every word of the command gets a NUL at its end -/
def nulterminate : Cmd (Nat × Nat) → List Byte → List Byte
  | .exec argv, buf => argv.foldl (fun buf w => buf.set w.2 0) buf
  | .redir cmd file _ _, buf => (nulterminate cmd buf).set file.2 0
  | .pipe left right, buf => nulterminate right (nulterminate left buf)
  | .list left right, buf => nulterminate right (nulterminate left buf)
  | .back cmd, buf => nulterminate cmd buf

def strlen (buf : List Byte) : Nat := buf.findIdx (· == 0)

/-- the command, and the line after `nulterminate` -/
def parsecmd (n : Nat) (buf : List Byte) : Parse (Cmd (Nat × Nat) × List Byte) := do
  let es := strlen buf
  let c ← parseline (scanner buf es) n 0
  let s := (peek buf es c.2 []).2
  if s ≠ es then throw (.leftovers s)
  else pure (c.1, nulterminate c.1 buf)

/-- the NUL-terminated string at `q` -/
def stringAt (buf : List Byte) (q : Nat) : List Byte := (buf.drop q).takeWhile (· != 0)

def Cmd.map {W V : Type} (f : W → V) : Cmd W → Cmd V
  | .exec argv => .exec (argv.map f)
  | .redir cmd file mode fd => .redir (cmd.map f) (f file) mode fd
  | .pipe left right => .pipe (left.map f) (right.map f)
  | .list left right => .list (left.map f) (right.map f)
  | .back cmd => .back (cmd.map f)

/-- the command with the strings `runcmd` passes on: what stands at `argv[i]` and `file` -/
def Cmd.strings (buf : List Byte) (cmd : Cmd (Nat × Nat)) : Cmd (List Byte) :=
  cmd.map fun w => stringAt buf w.1

end Shell
