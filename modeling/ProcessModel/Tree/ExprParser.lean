import ProcessModel.Definition
import ProcessModel.Decimal.Reader
import ProcessModel.Script.Token
import ProcessModel.Tree.Expr

/-! Reading expressions.

One function reads the expressions of every level of binding, from `or` to single operands. Each
call reads a token or goes to the next tighter level, so a multiple of the number of tokens bounds
the depth of the calls. -/

namespace ProcessModel

/-- What the names of an expression may stand for. -/
structure Names where
  definition : Definition
  locals : List Local

def Names.isLocal (names : Names) (x : String) : Bool := names.locals.any fun l => l.name == x

/-- Levels of binding, loosest first. -/
inductive Level
  | or | and | not | comparison | sum | product | sign | power | operand
  deriving DecidableEq, Repr

namespace Level

def tighter : Level → Level
  | .or => .and
  | .and => .not
  | .not => .comparison
  | .comparison => .sum
  | .sum => .product
  | .product => .sign
  | .sign => .power
  | .power | .operand => .operand

/-- The operator that continues a chain at this level. -/
def operator? (l : Level) (t : Token) : Option BinaryOp :=
  match l, t.kind, BinaryOp.ofSymbol? t.text with
  | .or, .name, some .or => some .or
  | .and, .name, some .and => some .and
  | .sum, .op, some .add => some .add
  | .sum, .op, some .sub => some .sub
  | .product, .op, some .mul => some .mul
  | .product, .op, some .div => some .div
  | .product, .op, some .floorDiv => some .floorDiv
  | .product, .op, some .mod => some .mod
  | _, _, _ => none

end Level

def comparison? : List Token → Option (BinaryOp × List Token)
  | [] => none
  | t :: rest =>
    if t.kind = .op then
      ((BinaryOp.ofSymbol? t.text).filter BinaryOp.isComparison).map fun op => (op, rest)
    else none

def afterOp? (op : String) : List Token → Option (List Token)
  | [] => none
  | t :: rest => if t.isOp op then some rest else none

def afterWord? (word : String) : List Token → Option (List Token)
  | [] => none
  | t :: rest => if t.isName word then some rest else none

def numberExpr? (text : String) : Option Expr :=
  if text.toList.any fun c => c == '.' || c == 'e' || c == 'E' then
    (Decimal.float? text).map fun x => .float x text
  else (Decimal.int64? text).map .int

def members : List Token → Except Construct (List String × List Token)
  | [] => .ok ([], [])
  | [d] => if d.isOp "." then .error .nameAfterDot else .ok ([], [d])
  | d :: t :: rest =>
    if d.isOp "." then
      if t.kind = .name then do
        let (names, rest) ← members rest
        return (t.text :: names, rest)
      else .error .nameAfterDot
    else .ok ([], d :: t :: rest)

/-- What the names behind `self` stand for: a method if no family is among them, else a variable
with its number of dimensions. -/
def designate (d : Definition) (chain : List String) :
    Except Construct ((List String × String) ⊕ (VarPath × Nat)) :=
  let owner := chain.takeWhile fun s => (Family.ofName? s).isNone
  match chain.drop owner.length with
  | [] =>
    match chain.getLast? with
    | none => .error .bareSelf
    | some name => .ok (.inl (chain.dropLast, name))
  | [f, g, name] =>
    match Family.ofName? f with
    | none => .error (.malformedReference (Text.joinWith "." chain))
    | some family =>
      match GroupRef.ofName? family g with
      | none => .error (.unknownGroup g)
      | some group =>
        let path : VarPath := ⟨owner, group, name⟩
        match (d.descend? owner).bind fun d => d.var? group.declaring name with
        | none => .error (.unknownPath path.text)
        | some v => .ok (.inr (path, v.ndim))
  | _ => .error (.malformedReference (Text.joinWith "." chain))

def builtinCall (name : String) (f : Builtin) (args : List Expr) : Except Construct Expr :=
  if args.length = f.arity then .ok (.call (.builtin f) args)
  else .error (.arity name f.arity args.length)

def indexed (path : VarPath) (ndim : Nat) (indices : List Expr) : Except Construct Expr :=
  if indices.length = ndim then .ok (.var path indices)
  else .error (.dimensions path.name ndim indices.length)

namespace Expr

mutual

/-- Read an expression of level `l`, and return the tokens behind it. -/
def parse (names : Names) : Nat → Level → List Token → Except Construct (Expr × List Token)
  | 0, _, _ => .error .endOfExpression
  | n + 1, .not, ts =>
    match afterWord? "not" ts with
    | some rest => do
      let (e, rest) ← parse names n .not rest
      return (.unary .not e, rest)
    | none => parse names n .comparison ts
  | n + 1, .comparison, ts => do
    let (left, rest) ← parse names n .sum ts
    match comparison? rest with
    | none => return (left, rest)
    | some (op, rest) =>
      let (right, rest) ← parse names n .sum rest
      if (comparison? rest).isSome then throw .chainedComparison
      return (.binary op left right, rest)
  | n + 1, .sign, ts =>
    match afterOp? "-" ts, afterOp? "+" ts with
    | some rest, _ => do
      let (e, rest) ← parse names n .sign rest
      return (.unary .neg e, rest)
    | none, some rest => do
      let (e, rest) ← parse names n .sign rest
      return (.unary .pos e, rest)
    | none, none => parse names n .power ts
  | n + 1, .power, ts => do
    let (base, rest) ← parse names n .operand ts
    match afterOp? "**" rest with
    | none => return (base, rest)
    | some rest =>
      let (exponent, rest) ← parse names n .sign rest
      return (.binary .pow base exponent, rest)
  | n + 1, .operand, ts => operand names n ts
  | n + 1, l, ts => do
    let (first, rest) ← parse names n l.tighter ts
    chain names n l first rest

def chain (names : Names) : Nat → Level → Expr → List Token → Except Construct (Expr × List Token)
  | 0, _, left, ts => .ok (left, ts)
  | _ + 1, _, left, [] => .ok (left, [])
  | n + 1, l, left, t :: rest =>
    match l.operator? t with
    | none => .ok (left, t :: rest)
    | some op => do
      let (right, rest) ← parse names n l.tighter rest
      chain names n l (.binary op left right) rest

def operand (names : Names) : Nat → List Token → Except Construct (Expr × List Token)
  | 0, _ => .error .endOfExpression
  | _ + 1, [] => .error .endOfExpression
  | n + 1, t :: rest =>
    match t.kind with
    | .number =>
      match numberExpr? t.text with
      | some e => .ok (e, rest)
      | none => .error (.invalidNumber t.text)
    | .op =>
      if t.text = "(" then do
        let (e, rest) ← parse names n .or rest
        match afterOp? ")" rest with
        | some rest => return (e, rest)
        | none => throw (.expected ")")
      else .error (.unexpected t.text)
    | .name =>
      if t.text = "True" then .ok (.bool true, rest)
      else if t.text = "False" then .ok (.bool false, rest)
      else if t.text = "self" then member names n rest
      else
        match afterOp? "(" rest with
        | some inner =>
          match Builtin.ofName? t.text with
          | none => .error (.unknownFunction t.text)
          | some f => do
            let (args, rest) ← arguments names n inner
            return (← builtinCall t.text f args, rest)
        | none =>
          if (afterOp? "[" rest).isSome then .error (.indexedLocal t.text)
          else if names.isLocal t.text then .ok (.loc t.text, rest)
          else .error (.undeclared t.text)
    | .str => .error (.unexpected t.text)

def member (names : Names) : Nat → List Token → Except Construct (Expr × List Token)
  | 0, _ => .error .endOfExpression
  | n + 1, ts => do
    let (segments, rest) ← members ts
    match ← designate names.definition segments with
    | .inl (owner, name) =>
      match afterOp? "(" rest with
      | none => throw (.uncalled name)
      | some inner =>
        let (args, rest) ← arguments names n inner
        return (.call (.method owner name) args, rest)
    | .inr (path, ndim) =>
      match afterOp? "[" rest with
      | none => return (← indexed path ndim [], rest)
      | some inner =>
        let (is, rest) ← indices names n inner
        return (← indexed path ndim is, rest)

/-- Read the arguments of a call behind its bracket. A comma may stand after the last one. -/
def arguments (names : Names) : Nat → List Token → Except Construct (List Expr × List Token)
  | 0, _ => .error .endOfExpression
  | n + 1, ts =>
    match afterOp? ")" ts with
    | some rest => .ok ([], rest)
    | none => do
      let (e, rest) ← parse names n .or ts
      match afterOp? ")" rest, afterOp? "," rest with
      | some rest, _ => return ([e], rest)
      | none, some rest =>
        let (es, rest) ← arguments names n rest
        return (e :: es, rest)
      | none, none => throw (.expected ",")

def indices (names : Names) : Nat → List Token → Except Construct (List Expr × List Token)
  | 0, _ => .error .endOfExpression
  | n + 1, ts => do
    let (e, rest) ← parse names n .or ts
    match afterOp? "]" rest, afterOp? "," rest with
    | some rest, _ => return ([e], rest)
    | none, some rest =>
      let (es, rest) ← indices names n rest
      return (e :: es, rest)
    | none, none => throw (.expected ",")

end

/-- A bound on the depth of the calls that read `ts`. -/
def parseDepth (ts : List Token) : Nat := 12 * (ts.length + 1)

def ofTokens (names : Names) (ts : List Token) : Except Construct Expr :=
  if ts.isEmpty then .error .noExpression else do
    match ← parse names (parseDepth ts) .or ts with
    | (e, []) => return e
    | (_, t :: _) => throw (.unexpected t.text)

end Expr

end ProcessModel
