import ProcessModel.Definition
import ProcessModel.Dialect
import ProcessModel.Script.Statement

/-! Methods as they stand in the source files of a model. -/

namespace ProcessModel

namespace Script

structure Unsupported where
  line : Nat
  cause : Construct
  deriving DecidableEq, Repr

def onLine {α : Type} (line : Nat) : Except Construct α → Except Unsupported α
  | .ok a => .ok a
  | .error cause => .error ⟨line, cause⟩

def inMethod {α : Type} (model method : String) : Except Unsupported α → Except Error α
  | .ok a => .ok a
  | .error u => .error (.unsupported model method u.line u.cause)

def tokensOf (text : String) (firstLine : Nat) : Except Unsupported Block :=
  match tokenize text firstLine with
  | .ok block => .ok block
  | .error e => .error ⟨e.line, .lexical e.cause⟩

def after? (p cs : List Char) : Option (List Char) :=
  if p.isPrefixOf cs then some (cs.drop p.length) else none

/-- Whether a line starts the definition of method `name`: `def`, the name, a bracket. -/
def isHeaderOf (name : String) (line : List Char) : Bool :=
  match after? ['d', 'e', 'f'] (Text.trimStart line) with
  | some (c :: rest) =>
    (c == ' ' || c == '\t') &&
      (after? name.toList (Text.trimStart (c :: rest))).any fun r => (Text.trimStart r).head? == some '('
  | _ => false

def leadingWidth (line : List Char) : Nat := (measureIndent 0 line).1

/-- The lines below a header: blank ones and those indented deeper. Blank lines at the end go. -/
def blockBody (header : List Char) (lines : List (List Char)) : List (List Char) :=
  ((lines.takeWhile fun l => Text.allBlank l || leadingWidth header < leadingWidth l).reverse.dropWhile
    Text.allBlank).reverse

/-- The first block that defines `name` among lines whose first has number `line`: the number of
its header and its text. -/
def blockFrom? (name : String) (line : Nat) : List (List Char) → Option (Nat × String)
  | [] => none
  | l :: rest =>
    if isHeaderOf name l then
      some (line, String.ofList (Text.unlines (l :: blockBody l rest) ++ ['\n']))
    else blockFrom? name (line + 1) rest

def findBlock? (name text : String) : Option (Nat × String) :=
  blockFrom? name 1 (Text.lines text.toList)

def splitCommas : List Token → List (List Token)
  | [] => [[]]
  | t :: rest =>
    if t.isOp "," then [] :: splitCommas rest
    else match splitCommas rest with
      | [] => [[t]]
      | part :: parts => (t :: part) :: parts

/-- The names that parts of a parameter list consist of. After a name the last part may be empty. -/
def paramNames? (first : Bool) : List (List Token) → Option (List String)
  | [] => some []
  | [t] :: parts => if t.kind = .name then (paramNames? false parts).map (t.text :: ·) else none
  | [[]] => if first then none else some []
  | _ => none

def headerParams (name : String) (header : LogicalLine) : Except Construct (List String) :=
  let malformed := .error (.malformedHeader header.render)
  match header.tokens, header.tokens.reverse with
  | w :: n :: o :: inner, colon :: c :: _ =>
    if 5 ≤ header.tokens.length && w.isName "def" && n.isName name && o.isOp "(" &&
        colon.isOp ":" && c.isOp ")" then
      match paramNames? true (splitCommas (inner.take (inner.length - 2))) with
      | none => .error .parameterForm
      | some params => if params.head? = some "model" then .ok params else .error .firstParameter
    else malformed
  | _, _ => malformed

def isAssignment (t : Token) : Bool :=
  t.kind == .op && t.text.toList.getLast? == some '=' &&
    !(["==", "<=", ">=", "!="].contains t.text)

def boundName? (line : LogicalLine) : Option String :=
  match line.tokens with
  | f :: x :: i :: rest =>
    if f.isName "for" && i.isName "in" then if x.kind = .name then some x.text else none
    else assigned? (f :: x :: i :: rest)
  | tokens => assigned? tokens
where
  assigned? : List Token → Option String
    | x :: op :: _ => if x.kind = .name && isAssignment op then some x.text else none
    | _ => none

/-- Names bound in a body, in the order of their first appearance, without the parameters. -/
def localsOf (fastMarker : String) (params : List String) (body : List LogicalLine) : List String :=
  (body.filter fun l => !l.containsName fastMarker).foldl (fun locals l =>
    match boundName? l with
    | some x => if params.contains x || locals.contains x then locals else locals ++ [x]
    | none => locals) []

end Script

structure MethodSource where
  name : String
  kind : MethodKind
  /-- The whole block with its header, as written. -/
  source : String
  doc : String
  params : List String
  /-- Targets of assignments and loops in the order of their first appearance. -/
  locals : List String
  line : Nat
  origin : String
  references : References
  deriving DecidableEq, Repr

namespace MethodSource

def args (m : MethodSource) : List String := m.params.drop 1

open Script in
/-- Read a method from the block found in `origin` at `line`. -/
def ofBlock (d : Definition) (fastMarker name : String) (kind : MethodKind) (origin : String)
    (line : Nat) (text : String) : Except Unsupported MethodSource := do
  let block ← tokensOf text line
  match block.lines with
  | [] => .error ⟨line, .emptyBlock⟩
  | header :: body =>
    let params ← onLine header.line (headerParams name header)
    if !body.head?.any fun l => header.indent < l.indent then .error ⟨line, .noBody⟩ else
    let doc := ((block.docs.find? fun d => d.position == 1).map (·.text)).getD []
    match cleanDoc? doc with
    | none => .error ⟨line, .splitCharacter⟩
    | some doc => .ok {
      name, kind, source := text, params, line, origin
      doc := String.ofList doc
      locals := localsOf fastMarker params body
      references := (d.references.get? name).getD {} }

/-- Find method `name`: the sources are searched in order and the first header counts. -/
def find (d : Definition) (fastMarker name : String) (kind : MethodKind) :
    Except Error MethodSource :=
  match d.sources.findSome? fun s => (Script.findBlock? name s.text).map fun b => (s.path, b) with
  | some (origin, line, text) =>
    Script.inMethod d.name name (ofBlock d fastMarker name kind origin line text)
  | none =>
    .error (.noSource d.name name
      (if d.sources.isEmpty then .noSources else .notIn name (d.sources.map (·.path))))

end MethodSource

end ProcessModel
