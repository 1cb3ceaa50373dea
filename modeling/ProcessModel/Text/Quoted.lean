import ProcessModel.Text.Lines

/-! Texts and lists as messages show them: in quotes, with what cannot be printed spelled by its
code point. -/

namespace ProcessModel.Text

/-- Code points that are invisible or join the character before them. -/
def hiddenRanges : List (Nat × Nat) :=
  [(0x0, 0x1f), (0x7f, 0xa0), (0xad, 0xad), (0x300, 0x36f), (0x1680, 0x1680), (0x2000, 0x200f),
    (0x2028, 0x202f), (0x205f, 0x206f), (0x20d0, 0x20f0), (0x3000, 0x3000), (0xe000, 0xf8ff),
    (0xfe00, 0xfe0f), (0xfe20, 0xfe2f), (0xfeff, 0xfeff), (0xfff0, 0xfffb), (0xe0000, 0x10ffff)]

def isHidden (c : Char) : Bool := hiddenRanges.any fun r => r.1 ≤ c.toNat && c.toNat ≤ r.2

/-- One character inside quotes. The marks in `marks` are written after a backslash. -/
def quoteChar (marks : List Char) (c : Char) : List Char :=
  if c = '\x00' then ['\\', '0']
  else if c = '\t' then ['\\', 't']
  else if c = '\r' then ['\\', 'r']
  else if c = '\n' then ['\\', 'n']
  else if c = '\\' || marks.contains c then ['\\', c]
  else if isHidden c then "\\u\x7b".toList ++ Nat.toDigits 16 c.toNat ++ ['\x7d']
  else [c]

def quoted (s : String) : String :=
  String.ofList ('\x22' :: s.toList.flatMap (quoteChar ['\x22']) ++ ['\x22'])

/-- A file name in double quotes; here the single quote is marked too. -/
def quotedName (s : String) : String :=
  String.ofList ('\x22' :: s.toList.flatMap (quoteChar ['\x22', '\x27']) ++ ['\x22'])

def bracketed (items : List String) : String := "[" ++ joinWith ", " items ++ "]"

end ProcessModel.Text
