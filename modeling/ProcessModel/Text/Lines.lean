import ProcessModel.Text.Blank

/-! Cutting a text into lines, at a separator, and at a byte offset of its UTF-8 form. -/

namespace ProcessModel.Text

def consFirst (c : Char) : List (List Char) → List (List Char)
  | [] => [[c]]
  | l :: ls => (c :: l) :: ls

/-- The lines of a text. A line ends before `\n` or `\r\n`; a last line without an end counts, and
an empty text has no lines. -/
def lines : List Char → List (List Char)
  | [] => []
  | '\n' :: cs => [] :: lines cs
  | '\r' :: '\n' :: cs => [] :: lines cs
  | c :: cs => consFirst c (lines cs)

def unlines (ls : List (List Char)) : List Char := ['\n'].intercalate ls

def ofLines (ls : List String) : String := String.join (ls.map fun l => l ++ "\n")

def byteLength : List Char → Nat
  | [] => 0
  | c :: cs => c.utf8Size + byteLength cs

/-- The text after its first `n` bytes; `none` when the text is shorter or `n` falls inside a
character. -/
def dropBytes? : Nat → List Char → Option (List Char)
  | 0, cs => some cs
  | _ + 1, [] => none
  | n + 1, c :: cs => if c.utf8Size ≤ n + 1 then dropBytes? (n + 1 - c.utf8Size) cs else none

def splitOnce (sep : Char) : List Char → Option (List Char × List Char)
  | [] => none
  | c :: cs =>
    if c = sep then some ([], cs) else (splitOnce sep cs).map fun p => (c :: p.1, p.2)

def splitAll (sep : Char) : List Char → List (List Char)
  | [] => [[]]
  | c :: cs => if c = sep then [] :: splitAll sep cs else consFirst c (splitAll sep cs)

def fields (sep : Char) (s : String) : List String :=
  (splitAll sep s.toList).map String.ofList

def joinWith (sep : String) (parts : List String) : String := sep.intercalate parts

def startsWith (cs p : List Char) : Bool := p.isPrefixOf cs

/-- The text with every occurrence of `old`, taken from the left, replaced by `new`. -/
def replaceAll (old new : List Char) (cs : List Char) : List Char := go cs.length cs
where
  go : Nat → List Char → List Char
    | 0, cs => cs
    | _ + 1, [] => []
    | n + 1, c :: cs =>
      if startsWith (c :: cs) old && !old.isEmpty then new ++ go n ((c :: cs).drop old.length)
      else c :: go n cs

end ProcessModel.Text
