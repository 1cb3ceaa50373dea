import ProcessModel.Script.Resolved

/-! Method bodies in normal form: no bindings, no augmented assignments, every name known. -/

namespace ProcessModel

structure NormalBody where
  lines : List LogicalLine
  args : List Local
  locals : List Local
  deriving DecidableEq, Repr

namespace NormalBody

def text (b : NormalBody) : String := linesText b.lines

def augmented : List String := ["+=", "-=", "*=", "/=", "//=", "%=", "**="]

/-- `x op= e` becomes `x = x op (e)`. -/
def expandTokens (tokens : List Token) : List Token :=
  match topLevel? (fun t => t.kind == .op && augmented.contains t.text) tokens with
  | none => tokens
  | some i =>
    let target := tokens.take i
    let op := String.ofList (((tokens[i]?.map (·.text)).getD "").toList.filter (· != '='))
    target ++ [.ofOp "="] ++ target ++ [.ofOp op, .ofOp "("] ++ tokens.drop (i + 1) ++ [.ofOp ")"]

def expand (line : LogicalLine) : LogicalLine :=
  if line.isHeader then line else { line with tokens := expandTokens line.tokens }

def isKnown (names : List Local) (called : Bool) (name : String) : Bool :=
  keywords.contains name || name == "self" || (called && (Builtin.ofName? name).isSome) ||
    names.any fun x => x.name == name

/-- The first string literal or unknown name among the tokens of a statement. -/
def nameFault? (method : String) (names : List Local) (afterPoint : Bool) :
    List Token → Option Construct
  | [] => none
  | t :: rest =>
    if t.kind = .str then some .stringLiteral
    else if t.kind = .name && !afterPoint &&
        !isKnown names (rest.head?.any fun t => t.isOp "(") t.text then
      some (if t.text = method then .unqualifiedMethod else .undeclared t.text)
    else nameFault? method names (t.isOp ".") rest

open Script in
def normalLines (dialect : Dialect) (method : String) (names : List Local) :
    List LogicalLine → Except Unsupported (List LogicalLine)
  | [] => .ok []
  | l :: rest =>
    if l.containsName dialect.fastMarker then normalLines dialect method names rest
    else
      let line := expand l
      match nameFault? method names false line.tokens with
      | some cause => .error ⟨l.line, cause⟩
      | none => do return line :: (← normalLines dialect method names rest)

open Script in
/-- The normal form of the resolved lines of a method with the given arguments and locals. -/
def ofLines (dialect : Dialect) (method : String) (args locals : List String)
    (lines : List LogicalLine) : Except Unsupported NormalBody := do
  let typed := fun name => Local.mk name (.ofName dialect.accumulator name)
  let args := args.map typed
  let locals := locals.map typed
  return ⟨← normalLines dialect method (args ++ locals) lines, args, locals⟩

end NormalBody

end ProcessModel
