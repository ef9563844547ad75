import Mathlib.Logic.Function.Iterate
import Xv6.Shell.Parse

/-!
# The grammar of command lines

    line  ::=  pipe '&'* [';' line]
    pipe  ::=  exec ['|' pipe]
    exec  ::=  '(' line ')' redir*  |  redir* (word redir*)*      with fewer than MAXARGS words
    redir ::=  ('<' | '>' | '>>') word

`tokenise` cuts a line into tokens.  A derivation is a tree (`Line`, `Pipe`, `Exec`) with the
tokens it derives (`tokens`) and the command it stands for (`denote`).
-/

namespace Shell
open Bytes

inductive Token where
  | bar
  | lpar
  | rpar
  | semi
  | amp
  | lt
  | gt
  | append
  | word (w : List Byte)
deriving DecidableEq

/-- what `gettoken` returns for a token -/
def Token.code : Token → Byte
  | .bar => chr '|'
  | .lpar => chr '('
  | .rpar => chr ')'
  | .semi => chr ';'
  | .amp => chr '&'
  | .lt => chr '<'
  | .gt => chr '>'
  | .append => chr '+'
  | .word _ => chr 'a'

/-- the symbols of one byte other than `>` -/
def symbolTokens : List Token := [.bar, .lpar, .rpar, .semi, .amp, .lt]

def symbolToken (c : Byte) : Option Token := symbolTokens.find? fun t => t.code == c

/-- the tokens of a line: the longest one at each place -/
def tokenise : List Byte → List Token
  | [] => []
  | c :: cs =>
    if isSpace c then tokenise cs
    else if c = chr '>' then
      if cs.head? = some (chr '>') then .append :: tokenise cs.tail else .gt :: tokenise cs
    else if let some t := symbolToken c then t :: tokenise cs
    else .word (c :: cs.takeWhile isPlain) :: tokenise (cs.dropWhile isPlain)
termination_by cs => cs.length
decreasing_by
  · exact Nat.lt_succ_self _
  · rw [List.length_tail, List.length_cons]
    omega
  · exact Nat.lt_succ_self _
  · exact Nat.lt_succ_self _
  · exact Nat.lt_succ_of_le (List.dropWhile_suffix _).length_le

/-! ## derivations -/

inductive RedirOp where
  | input
  | output
  | append
deriving DecidableEq

structure Redir where
  op : RedirOp
  file : List Byte

def RedirOp.token : RedirOp → Token
  | .input => .lt
  | .output => .gt
  | .append => .append

def Redir.tokens (r : Redir) : List Token := [r.op.token, .word r.file]

/-- a redirection of `cmd` -/
def Redir.wrap (cmd : Cmd (List Byte)) (r : Redir) : Cmd (List Byte) :=
  match r.op with
  | .input => .redir cmd r.file O_RDONLY 0
  | .output => .redir cmd r.file (O_WRONLY ||| O_CREATE ||| O_TRUNC) 1
  | .append => .redir cmd r.file (O_WRONLY ||| O_CREATE) 1

/-- a word and the redirections after it -/
structure Arg where
  word : List Byte
  redirs : List Redir

def Arg.tokens (a : Arg) : List Token := .word a.word :: a.redirs.flatMap Redir.tokens

mutual

inductive Line where
  | last (p : Pipe) (amps : Nat)
  | seq (p : Pipe) (amps : Nat) (l : Line)

inductive Pipe where
  | last (e : Exec)
  | pipe (e : Exec) (p : Pipe)

inductive Exec where
  | block (l : Line) (redirs : List Redir)
  | simple (redirs : List Redir) (args : List Arg) (few : args.length ≤ MAXARGS - 1)

end

mutual

def Line.tokens : Line → List Token
  | .last p amps => p.tokens ++ List.replicate amps .amp
  | .seq p amps l => p.tokens ++ List.replicate amps .amp ++ .semi :: l.tokens

def Pipe.tokens : Pipe → List Token
  | .last e => e.tokens
  | .pipe e p => e.tokens ++ .bar :: p.tokens

def Exec.tokens : Exec → List Token
  | .block l redirs => .lpar :: l.tokens ++ .rpar :: redirs.flatMap Redir.tokens
  | .simple redirs args _ => redirs.flatMap Redir.tokens ++ args.flatMap Arg.tokens

end

mutual

/-- the command of a line: lists nest to the right -/
def Line.denote : Line → Cmd (List Byte)
  | .last p amps => Nat.iterate .back amps p.denote
  | .seq p amps l => .list (Nat.iterate .back amps p.denote) l.denote

/-- pipes nest to the right -/
def Pipe.denote : Pipe → Cmd (List Byte)
  | .last e => e.denote
  | .pipe e p => .pipe e.denote p.denote

/-- each redirection wraps the command built so far -/
def Exec.denote : Exec → Cmd (List Byte)
  | .block l redirs => redirs.foldl Redir.wrap l.denote
  | .simple redirs args _ =>
    (redirs ++ args.flatMap Arg.redirs).foldl Redir.wrap (.exec (args.map Arg.word))

end

/-! ## tokens as a lexer -/

def Token.text : Token → List Byte
  | .word w => w
  | _ => []

/-- the symbol a token begins with -/
def Token.first : Token → Option Byte
  | .append => some (chr '>')
  | .word _ => none
  | t => some t.code

/-- the next token begins with a symbol of `toks` -/
def opens (toks : List Byte) : List Token → Bool
  | [] => false
  | t :: _ => t.first.any toks.contains

def nextToken : List Token → Gettoken (List Token) (List Byte)
  | [] => ⟨0, [], []⟩
  | t :: ts => ⟨t.code, t.text, ts⟩

/-- the parser at this lexer works on tokens -/
def tokenLexer : Lexer (List Token) (List Byte) := ⟨fun ts toks => (opens toks ts, ts), nextToken⟩

end Shell
