import ProcessModel.Script.Normal
import ProcessModel.Tree.ExprParser
import ProcessModel.Tree.Stmt

/-! Reading statements. Blocks follow from the indentation of the lines. -/

namespace ProcessModel

open Script

/-- The parts of a token list between the commas outside brackets; an empty last part does not
count. -/
def splitArgs : Nat → List Token → List (List Token)
  | 0, _ => []
  | n + 1, ts =>
    match topLevel? (fun t => t.isOp ",") ts with
    | some i => ts.take i :: splitArgs n (ts.drop (i + 1))
    | none => if ts.isEmpty then [] else [ts]

/-- The step of a loop: an integer other than zero, with or without a minus sign. -/
def literalStep? : List Token → Option Int64
  | [t] => value? t
  | [m, t] => if m.isOp "-" then (value? t).map fun n => -n else none
  | _ => none
where
  value? (t : Token) : Option Int64 :=
    if t.kind = .number then (Decimal.int64? t.text).filter (· ≠ 0) else none

structure CountHead where
  counter : String
  start : Expr
  stop : Expr
  step : Int64

namespace Stmt

/-- The counter and the tokens between the brackets of `for <counter> in range(...):`. -/
def countTokens? (names : Names) (ts : List Token) : Option (String × List Token) :=
  match ts, ts.reverse with
  | _ :: x :: i :: r :: o :: inner, colon :: c :: _ =>
    if 8 ≤ ts.length && x.kind == .name && i.isName "in" && r.isName "range" && o.isOp "(" &&
        c.isOp ")" && colon.isOp ":" && names.isLocal x.text then
      some (x.text, inner.take (inner.length - 2))
    else none
  | _, _ => none

def countHead (names : Names) (ts : List Token) : Except Construct CountHead :=
  match countTokens? names ts with
  | none => .error .malformedLoop
  | some (x, inner) =>
    match splitArgs (inner.length + 1) inner with
    | [stop] => do return ⟨x, .int 0, ← Expr.ofTokens names stop, 1⟩
    | [start, stop] => do
      return ⟨x, ← Expr.ofTokens names start, ← Expr.ofTokens names stop, 1⟩
    | [start, stop, step] => do
      let start ← Expr.ofTokens names start
      let stop ← Expr.ofTokens names stop
      match literalStep? step with
      | some n => return ⟨x, start, stop, n⟩
      | none => throw .rangeStep
    | _ => .error .malformedLoop

def test (names : Names) (line : LogicalLine) : Except Construct Expr :=
  if line.isHeader && 2 < line.tokens.length then
    Expr.ofTokens names ((line.tokens.drop 1).dropLast)
  else .error .noCondition

def target (names : Names) (ts : List Token) : Except Construct Target :=
  let general : Except Construct Target := do
    match ← Expr.ofTokens names ts with
    | .var path indices => return .var path indices
    | _ => throw .assignmentTarget
  match ts with
  | [t] => if t.kind = .name && names.isLocal t.text then .ok (.loc t.text) else general
  | _ => general

def simple (names : Names) (line : LogicalLine) : Except Construct Stmt :=
  let ts := line.tokens
  if ts.head?.any fun t => t.isName "return" then
    if 1 < ts.length then do return .ret line.line (some (← Expr.ofTokens names (ts.drop 1)))
    else .ok (.ret line.line none)
  else if (ts.head?.any fun t => t.isName "pass") && ts.length = 1 then .ok .pass
  else if line.isHeader then .error (.unsupportedStatement line.render)
  else match topLevel? (fun t => t.isOp "=") ts with
    | some i => do
      let target ← target names (ts.take i)
      return .assign line.line target (← Expr.ofTokens names (ts.drop (i + 1)))
    | none => do
      let e ← Expr.ofTokens names ts
      if e.isMethodCall then return .call line.line e else throw .valueStatement

mutual

/-- Read the statements of indentation `indent`, and return the lines behind them. -/
def block (names : Names) : Nat → Nat → List LogicalLine →
    Except Unsupported (List Stmt × List LogicalLine)
  | 0, _, ls => .ok ([], ls)
  | _ + 1, _, [] => .ok ([], [])
  | n + 1, indent, l :: rest =>
    if l.indent < indent then .ok ([], l :: rest)
    else if indent < l.indent then .error ⟨l.line, .unexpectedIndent⟩
    else do
      let (s, rest) ← statement names n l rest
      let (ss, rest) ← block names n indent rest
      return (s :: ss, rest)

def statement (names : Names) : Nat → LogicalLine → List LogicalLine →
    Except Unsupported (Stmt × List LogicalLine)
  | 0, l, _ => .error ⟨l.line, .noSuite⟩
  | n + 1, l, rest =>
    match l.tokens.head?.filter fun t => t.kind = .name with
    | some ⟨_, "if"⟩ => do
      let e ← onLine l.line (test names l)
      let (body, rest) ← suite names n l rest
      let (clauses, otherwise, rest) ← clauses names n l.indent rest
      return (.choose l.line (⟨e, body⟩ :: clauses) otherwise, rest)
    | some ⟨_, "for"⟩ => do
      let head ← onLine l.line (countHead names l.tokens)
      let (body, rest) ← suite names n l rest
      return (.count l.line head.counter head.start head.stop head.step body, rest)
    | some ⟨_, "while"⟩ => do
      let e ← onLine l.line (test names l)
      let (body, rest) ← suite names n l rest
      return (.loop l.line e body, rest)
    | some ⟨_, "elif"⟩ => .error ⟨l.line, .orphanClause "elif"⟩
    | some ⟨_, "else"⟩ => .error ⟨l.line, .orphanClause "else"⟩
    | _ => do return (← onLine l.line (simple names l), rest)

def suite (names : Names) : Nat → LogicalLine → List LogicalLine →
    Except Unsupported (List Stmt × List LogicalLine)
  | 0, l, _ => .error ⟨l.line, .noSuite⟩
  | _ + 1, l, [] => .error ⟨l.line, .noSuite⟩
  | n + 1, l, next :: rest =>
    if l.indent < next.indent then block names n next.indent (next :: rest)
    else .error ⟨l.line, .noSuite⟩

def clauses (names : Names) : Nat → Nat → List LogicalLine →
    Except Unsupported (List Clause × List Stmt × List LogicalLine)
  | 0, _, ls => .ok ([], [], ls)
  | _ + 1, _, [] => .ok ([], [], [])
  | n + 1, indent, l :: rest =>
    if l.indent ≠ indent then .ok ([], [], l :: rest)
    else if l.tokens.head?.any fun t => t.isName "elif" then do
      let e ← onLine l.line (test names l)
      let (body, rest) ← suite names n l rest
      let (cs, otherwise, rest) ← clauses names n indent rest
      return (⟨e, body⟩ :: cs, otherwise, rest)
    else if l.tokens.head?.any fun t => t.isName "else" then
      if l.tokens.length = 2 && l.isHeader then do
        let (body, rest) ← suite names n l rest
        return ([], body, rest)
      else .error ⟨l.line, .malformedElse⟩
    else .ok ([], [], l :: rest)

end

/-- A bound on the depth of the calls that read `ls`. -/
def parseDepth (ls : List LogicalLine) : Nat := 3 * (ls.length + 1)

/-- The statements that all lines make. The first line fixes the indentation. -/
def ofLines (names : Names) (ls : List LogicalLine) : Except Unsupported (List Stmt) := do
  match ← block names (parseDepth ls) ((ls.head?.map (·.indent)).getD 0) ls with
  | (ss, []) => return ss
  | (_, l :: _) => throw ⟨l.line, .unexpectedDedent⟩

end Stmt

namespace Body

/-- Whether statements return values; all returns agree on it. -/
def returnsOf (ss : List Stmt) : Except Unsupported Bool :=
  let returns := Stmt.returnsAll ss
  let valued := returns.any (·.1)
  match returns.find? fun r => !r.1 with
  | some (_, line) => if valued then .error ⟨line, .mixedReturns⟩ else .ok false
  | none => .ok valued

def ofNormal (d : Definition) (name : String) (kind : MethodKind) (doc : String)
    (normal : NormalBody) : Except Unsupported Body := do
  let stmts ← Stmt.ofLines ⟨d, normal.args ++ normal.locals⟩ normal.lines
  let returnsValue ← returnsOf stmts
  return { name, kind, doc, args := normal.args, locals := normal.locals, stmts, returnsValue }

end Body

end ProcessModel
