import ProcessModel.Text.Lines

/-! The words with a meaning of their own in method sources. -/

namespace ProcessModel

/-- The words that a configuration may choose. -/
structure Dialect where
  /-- Arguments and locals whose names start with it are floating point numbers. -/
  accumulator : String := "d_"
  /-- Ends the binding of a name to a group. -/
  fastMarker : String := "fastaccess"
  /-- Statements with this name are not part of the generated code. -/
  slowMarker : String := "slowpath"
  /-- Stands before the functions that every method may call. -/
  helpers : String := "modelutils"
  deriving DecidableEq, Repr

def keywords : List String :=
  ["if", "elif", "else", "for", "in", "while", "return", "pass", "and", "or", "not", "True",
    "False", "range", "def"]

inductive LocalType
  | int | float
  deriving DecidableEq, Repr

namespace LocalType

def cType : LocalType → String
  | .int => "int"
  | .float => "double"

def ofName (accumulator name : String) : LocalType :=
  if Text.startsWith name.toList accumulator.toList then .float else .int

end LocalType

structure Local where
  name : String
  type : LocalType
  deriving DecidableEq, Repr

inductive Builtin
  | exp | log | abs | fabs | sqrt | min | max | floor | smoothLogistic1 | smoothLogistic2
  deriving DecidableEq, Repr

namespace Builtin

def all : List Builtin :=
  [.exp, .log, .abs, .fabs, .sqrt, .min, .max, .floor, .smoothLogistic1, .smoothLogistic2]

def name : Builtin → String
  | .exp => "exp"
  | .log => "log"
  | .abs => "abs"
  | .fabs => "fabs"
  | .sqrt => "sqrt"
  | .min => "min"
  | .max => "max"
  | .floor => "floor"
  | .smoothLogistic1 => "smooth_logistic1"
  | .smoothLogistic2 => "smooth_logistic2"

def ofName? (s : String) : Option Builtin := all.find? fun b => b.name == s

def arity : Builtin → Nat
  | .min | .max | .smoothLogistic1 | .smoothLogistic2 => 2
  | _ => 1

end Builtin

end ProcessModel
