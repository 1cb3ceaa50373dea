import ProcessModel.Text.Lines

/-! String literals and documentation texts. -/

namespace ProcessModel.Script

def isLiteralLetter (c : Char) : Bool := ['r', 'R', 'u', 'U', 'b', 'B'].contains c

/-- The quotes a literal may have, in the order in which they are tried. -/
def quoteForms : List (List Char) :=
  [['\x22', '\x22', '\x22'], ['\x27', '\x27', '\x27'], ['\x22'], ['\x27']]

/-- What stands between the quotes of a literal; a text without quotes stays. -/
def stringValue (raw : List Char) : List Char :=
  let body := raw.dropWhile isLiteralLetter
  match quoteForms.find? fun q =>
      2 * q.length ≤ body.length && q.isPrefixOf body && q.isSuffixOf body with
  | some q => (body.drop q.length).take (body.length - 2 * q.length)
  | none => body

def indentBytes (line : List Char) : Nat :=
  Text.byteLength line - Text.byteLength (Text.trimStart line)

def commonIndent (lines : List (List Char)) : Nat :=
  ((lines.filter fun l => !Text.allBlank l).map indentBytes).min?.getD 0

/-- A line without its first `indent` bytes and the white space at its end; a shorter line is
trimmed. `none` when the cut falls inside a character. -/
def dedent? (indent : Nat) (line : List Char) : Option (List Char) :=
  if indent ≤ Text.byteLength line then (Text.dropBytes? indent line).map Text.trimEnd
  else some (Text.trim line)

/-- Documentation without the indentation its lines share after the first one. `none` when that
indentation ends inside a character of some line. -/
def cleanDoc? (doc : List Char) : Option (List Char) :=
  match Text.lines doc with
  | [] => some []
  | first :: rest => do
    let rest' ← rest.mapM (dedent? (commonIndent rest))
    some (Text.trim (Text.unlines (Text.trim first :: rest')))

end ProcessModel.Script
