import ProcessModel.Dialect
import ProcessModel.Variable

/-! Expressions of method bodies. -/

namespace ProcessModel

inductive UnaryOp
  | neg | pos | not
  deriving DecidableEq, Repr

inductive BinaryOp
  | add | sub | mul | div | floorDiv | mod | pow | lt | le | gt | ge | eq | ne | and | or
  deriving DecidableEq, Repr

namespace BinaryOp

def all : List BinaryOp :=
  [.add, .sub, .mul, .div, .floorDiv, .mod, .pow, .lt, .le, .gt, .ge, .eq, .ne, .and, .or]

def symbol : BinaryOp → String
  | .add => "+"
  | .sub => "-"
  | .mul => "*"
  | .div => "/"
  | .floorDiv => "//"
  | .mod => "%"
  | .pow => "**"
  | .lt => "<"
  | .le => "<="
  | .gt => ">"
  | .ge => ">="
  | .eq => "=="
  | .ne => "!="
  | .and => "and"
  | .or => "or"

def ofSymbol? (s : String) : Option BinaryOp := all.find? fun op => op.symbol == s

def isComparison : BinaryOp → Bool
  | .lt | .le | .gt | .ge | .eq | .ne => true
  | _ => false

end BinaryOp

/-- What a call names: a function of every method, or a method of the model or a sub-model. -/
inductive Callee
  | builtin (function : Builtin)
  | method (owner : List String) (name : String)
  deriving DecidableEq, Repr

def Callee.isMethod : Callee → Bool
  | .builtin _ => false
  | .method _ _ => true

inductive Expr
  | int (value : Int64)
  /-- A number with a point or exponent, and its text. -/
  | float (value : Float) (text : String)
  | bool (value : Bool)
  | loc (name : String)
  | var (path : VarPath) (indices : List Expr)
  | unary (op : UnaryOp) (operand : Expr)
  | binary (op : BinaryOp) (left right : Expr)
  | call (callee : Callee) (args : List Expr)

namespace Expr

def isMethodCall : Expr → Bool
  | .call callee _ => callee.isMethod
  | _ => false

end Expr

/-- An expression and the place where it stands: the number of a part in the whole, that of a part in
this one, and so on. Equal expressions at two places are two occurrences. -/
structure Occurrence where
  place : List Nat
  expr : Expr

namespace Expr

mutual

/-- The expression that stands at `place` and all expressions in it, outer ones first. -/
def walk (place : List Nat) : Expr → List Occurrence
  | .int n => [⟨place, .int n⟩]
  | .float x text => [⟨place, .float x text⟩]
  | .bool b => [⟨place, .bool b⟩]
  | .loc x => [⟨place, .loc x⟩]
  | .var path indices => ⟨place, .var path indices⟩ :: walkAll place 0 indices
  | .unary op e => ⟨place, .unary op e⟩ :: walk (place ++ [0]) e
  | .binary op l r =>
    ⟨place, .binary op l r⟩ :: (walk (place ++ [0]) l ++ walk (place ++ [1]) r)
  | .call callee args => ⟨place, .call callee args⟩ :: walkAll place 0 args

/-- The same for the parts from number `i` on of what stands at `place`. -/
def walkAll (place : List Nat) (i : Nat) : List Expr → List Occurrence
  | [] => []
  | e :: es => walk (place ++ [i]) e ++ walkAll place (i + 1) es

end

end Expr

end ProcessModel
