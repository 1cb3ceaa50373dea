import ProcessModel.Method
import ProcessModel.Tree.Expr

/-! Statements and bodies of methods. -/

namespace ProcessModel

inductive Target
  | loc (name : String)
  | var (path : VarPath) (indices : List Expr)

def Target.indices : Target → List Expr
  | .loc _ => []
  | .var _ indices => indices

mutual

/-- Statements; `line` is the number of the line a statement starts on. -/
inductive Stmt
  | assign (line : Nat) (target : Target) (value : Expr)
  /-- Counts from `start` by `step`, which is not zero, and ends before `stop`. -/
  | count (line : Nat) (counter : String) (start stop : Expr) (step : Int64) (body : List Stmt)
  /-- The body of the first clause whose test holds, else `otherwise`. -/
  | choose (line : Nat) (clauses : List Clause) (otherwise : List Stmt)
  | loop (line : Nat) (test : Expr) (body : List Stmt)
  | ret (line : Nat) (value : Option Expr)
  | pass
  | call (line : Nat) (expr : Expr)

inductive Clause
  | mk (test : Expr) (body : List Stmt)

end

namespace Stmt

mutual

/-- All expressions of the statement that stands at `place`, outer ones first. -/
def walk (place : List Nat) : Stmt → List Occurrence
  | .assign _ target value => Expr.walkAll place 0 (target.indices ++ [value])
  | .count _ _ start stop _ body => Expr.walkAll place 0 [start, stop] ++ walkAll place 2 body
  | .choose _ clauses otherwise =>
    clauseWalk place 0 clauses ++ walkAll place clauses.length otherwise
  | .loop _ test body => Expr.walkAll place 0 [test] ++ walkAll place 1 body
  | .ret _ value => Expr.walkAll place 0 value.toList
  | .pass => []
  | .call _ e => Expr.walkAll place 0 [e]

def walkAll (place : List Nat) (i : Nat) : List Stmt → List Occurrence
  | [] => []
  | s :: rest => walk (place ++ [i]) s ++ walkAll place (i + 1) rest

def clauseWalk (place : List Nat) (i : Nat) : List Clause → List Occurrence
  | [] => []
  | ⟨test, body⟩ :: rest =>
    Expr.walkAll (place ++ [i]) 0 [test] ++ walkAll (place ++ [i]) 1 body ++
      clauseWalk place (i + 1) rest

end

mutual

/-- The expressions of the call statements in the statement that stands at `place`. -/
def statementCalls (place : List Nat) : Stmt → List Occurrence
  | .count _ _ _ _ _ body => statementCallsAll place 2 body
  | .choose _ clauses otherwise =>
    clauseStatementCalls place 0 clauses ++ statementCallsAll place clauses.length otherwise
  | .loop _ _ body => statementCallsAll place 1 body
  | .call _ e => [⟨place ++ [0], e⟩]
  | _ => []

def statementCallsAll (place : List Nat) (i : Nat) : List Stmt → List Occurrence
  | [] => []
  | s :: rest => statementCalls (place ++ [i]) s ++ statementCallsAll place (i + 1) rest

def clauseStatementCalls (place : List Nat) (i : Nat) : List Clause → List Occurrence
  | [] => []
  | ⟨_, body⟩ :: rest =>
    statementCallsAll (place ++ [i]) 1 body ++ clauseStatementCalls place (i + 1) rest

end

mutual

/-- Whether each return in a statement gives a value, with its line, from first to last. -/
def returns : Stmt → List (Bool × Nat)
  | .count _ _ _ _ _ body => returnsAll body
  | .choose _ clauses otherwise => clauseReturns clauses ++ returnsAll otherwise
  | .loop _ _ body => returnsAll body
  | .ret line value => [(value.isSome, line)]
  | _ => []

def returnsAll : List Stmt → List (Bool × Nat)
  | [] => []
  | s :: rest => returns s ++ returnsAll rest

def clauseReturns : List Clause → List (Bool × Nat)
  | [] => []
  | ⟨_, body⟩ :: rest => returnsAll body ++ clauseReturns rest

end

end Stmt

structure Body where
  name : String
  kind : MethodKind
  doc : String
  args : List Local
  locals : List Local
  stmts : List Stmt
  returnsValue : Bool

namespace Body

def typeOf? (b : Body) (name : String) : Option LocalType :=
  ((b.args ++ b.locals).find? fun x => x.name == name).map (·.type)

/-- The expressions of a body, each where it stands. -/
def occurrences (b : Body) : List Occurrence := Stmt.walkAll [] 0 b.stmts

def methodCalls (b : Body) : List Occurrence := b.occurrences.filter (·.expr.isMethodCall)

/-- Calls of methods whose results are used: those that do not stand where a call statement has its
expression. -/
def valueCalls (b : Body) : List Occurrence :=
  let statements := Stmt.statementCallsAll [] 0 b.stmts
  b.methodCalls.filter fun o => !statements.any fun s => s.place == o.place

end Body

end ProcessModel
