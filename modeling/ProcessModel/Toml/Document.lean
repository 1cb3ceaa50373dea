import ProcessModel.Toml.Lexeme

/-! TOML documents. -/

namespace ProcessModel.Toml

/-- The depth at which values are nested too deep, and the length at which keys are too long. -/
def nestingLimit : Nat := 80

def keyPath : Reader (List String) := fun cs => do
  let (names, rest) ← dottedKey (cs.length + 1) cs
  if nestingLimit ≤ names.length then none
  return (names, rest)

mutual

/-- A value in which `room` arrays and inline tables may nest. Every call reads a character or goes
from an item to its value, so twice the length of the text bounds the depth of the calls. -/
def value : Nat → Nat → Reader Toml
  | 0, _, _ => none
  | _ + 1, _, [] => none
  | n + 1, room, c :: cs =>
    if c = '\x22' || c = '\x27' then (stringText (c :: cs)).map fun r => (.str r.1, r.2)
    else if c = '[' then do
      if room = 0 then none
      let (items, rest) ← arrayItems n (room - 1) cs
      return (.array items, rest)
    else if c = '{' then
      if room = 0 then none
      else
        match skipBlanks cs with
        | '}' :: rest => some (.table [], rest)
        | rest => do
          let (t, rest) ← inlineItems n (room - 1) .empty rest
          return (.table t.finish, rest)
    else if (c :: cs).take 4 = ['t', 'r', 'u', 'e'] then some (.bool true, cs.drop 3)
    else if (c :: cs).take 5 = ['f', 'a', 'l', 's', 'e'] then some (.bool false, cs.drop 4)
    else number (c :: cs)

/-- The items of an array behind its bracket. A comma may follow the last one. -/
def arrayItems : Nat → Nat → Reader (List Toml)
  | 0, _, _ => none
  | n + 1, room, cs =>
    match skipLines cs.length cs with
    | ']' :: rest => some ([], rest)
    | cs => do
      let (v, rest) ← value n room cs
      match skipLines rest.length rest with
      | ']' :: rest => return ([v], rest)
      | ',' :: rest =>
        let (vs, rest) ← arrayItems n room rest
        return (v :: vs, rest)
      | _ => none

/-- The items of an inline table from the first key on. -/
def inlineItems : Nat → Nat → Draft → Reader Draft
  | 0, _, _, _ => none
  | n + 1, room, t, cs => do
    let (key, rest) ← keyPath cs
    match skipBlanks rest with
    | '=' :: rest =>
      let (v, rest) ← value n room (skipBlanks rest)
      let t ← t.addValue key.dropLast (key.getLast?.getD "") v
      match skipBlanks rest with
      | '}' :: rest => return (t, rest)
      | ',' :: rest => inlineItems n room t (skipBlanks rest)
      | _ => none
    | _ => none

end

def endLine (cs : List Char) : Option (List Char) :=
  match skipComment (skipBlanks cs) with
  | [] => some []
  | rest => afterNewline? rest

/-- A document as far as it is read: its tables and the header that is in force. -/
structure Progress where
  root : Draft
  /-- The path of the table that key and value pairs go to. -/
  current : List String

def Progress.addPair (p : Progress) (key : List String) (v : Toml) : Option Progress := do
  let root ← p.root.update false (fun t => t.addValue key.dropLast (key.getLast?.getD "") v) p.current
  return { p with root }

/-- A header: its path and whether it stands in double brackets. -/
def header (cs : List Char) : Option ((List String × Bool) × List Char) := do
  let cs ← mark '[' cs
  match cs with
  | '[' :: rest => do
    let (key, rest) ← keyPath (skipBlanks rest)
    let rest ← mark ']' (skipBlanks rest)
    let rest ← mark ']' rest
    return ((key, true), rest)
  | _ => do
    let (key, rest) ← keyPath (skipBlanks cs)
    let rest ← mark ']' (skipBlanks rest)
    return ((key, false), rest)

def statement (p : Progress) (cs : List Char) : Option (Progress × List Char) :=
  match skipBlanks cs with
  | '[' :: rest => do
    let ((path, isArray), rest) ← header ('[' :: rest)
    let last := path.getLast?.getD ""
    let root ← if isArray then p.root.addArrayTable path.dropLast last
      else p.root.addTable path.dropLast last
    return (⟨root, path⟩, ← endLine rest)
  | start =>
    match endLine start with
    | some rest => some (p, rest)
    | none => do
      let (key, rest) ← keyPath start
      let rest ← mark '=' (skipBlanks rest)
      let (v, rest) ← value (2 * rest.length + 2) (nestingLimit - 1) (skipBlanks rest)
      return (← p.addPair key v, ← endLine rest)

def statements : Nat → Progress → List Char → Option Progress
  | _, p, [] => some p
  | 0, _, _ :: _ => none
  | n + 1, p, c :: cs => do
    let (p, rest) ← statement p (c :: cs)
    statements n p rest

/-- The table that a document holds. A byte order mark may stand at its start. -/
def parse? (text : String) : Option (List (String × Toml)) :=
  let cs := match text.toList with
    | '\uFEFF' :: cs => cs
    | cs => cs
  (statements cs.length ⟨.empty, []⟩ cs).map fun p => p.root.finish

end ProcessModel.Toml
