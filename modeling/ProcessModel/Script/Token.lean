import ProcessModel.Text.Lines

/-! Tokens of method sources and the logical lines they form. -/

namespace ProcessModel

inductive TokenKind
  | name | number | str | op
  deriving DecidableEq, Repr

structure Token where
  kind : TokenKind
  text : String
  deriving DecidableEq, Repr

namespace Token

def ofName (s : String) : Token := ⟨.name, s⟩

def ofOp (s : String) : Token := ⟨.op, s⟩

def isOp (t : Token) (s : String) : Bool := t.kind == .op && t.text == s

def isName (t : Token) (s : String) : Bool := t.kind == .name && t.text == s

def isOpening (t : Token) : Bool := t.isOp "(" || t.isOp "["

def isClosing (t : Token) : Bool := t.isOp ")" || t.isOp "]"

/-- Whether a value can end with this token, so that a point after it selects a member. -/
def endsValue (t : Token) : Bool := t.kind == .name || t.kind == .number || t.isClosing

/-- Whether a space stands between two tokens of a written line. -/
def spaced (t next : Token) : Bool :=
  if next.isOp "." || next.isOp "," || next.isClosing || next.isOp ":" then false
  else if t.isOp "." || t.isOpening then false
  else !((t.kind == .name || t.isClosing) && next.isOpening)

def render : List Token → String
  | [] => ""
  | [t] => t.text
  | t :: next :: rest => t.text ++ (if t.spaced next then " " else "") ++ render (next :: rest)

end Token

/-- One statement: its indentation, the number of the physical line it starts on, its tokens. -/
structure LogicalLine where
  indent : Nat
  line : Nat
  tokens : List Token
  deriving DecidableEq, Repr

namespace LogicalLine

def containsName (l : LogicalLine) (name : String) : Bool := l.tokens.any fun t => t.isName name

def isHeader (l : LogicalLine) : Bool := l.tokens.getLast?.any fun t => t.isOp ":"

def render (l : LogicalLine) : String := Token.render l.tokens

def text (l : LogicalLine) : String := String.ofList (List.replicate l.indent ' ') ++ l.render ++ "\n"

end LogicalLine

def linesText (ls : List LogicalLine) : String := String.join (ls.map LogicalLine.text)

/-- Position of the first token outside all brackets with property `p`. A closing bracket without
an opening one does not count. -/
def topLevel? (p : Token → Bool) (tokens : List Token) : Option Nat := go 0 0 tokens
where
  go (depth at_ : Nat) : List Token → Option Nat
    | [] => none
    | t :: rest =>
      if t.isOpening then go (depth + 1) (at_ + 1) rest
      else if t.isClosing then go (depth - 1) (at_ + 1) rest
      else if depth = 0 && p t then some at_
      else go depth (at_ + 1) rest

end ProcessModel
