import ProcessModel.Code.Line
import ProcessModel.Model

/-! Expressions of generated code. -/

namespace ProcessModel.Code

inductive Term
  /-- A number or the name of a local. -/
  | word (text : String)
  /-- A member of the model, reached through other members; a link is followed. -/
  | member (path : List String) (indices : List Term) (link : Bool)
  /-- The model itself, or a sub-model. -/
  | model (owner : List String)
  | unary (op : String) (operand : Term)
  | binary (op : String) (left right : Term)
  | quotient (left right : Term)
  | floorQuotient (left right : Term)
  | call (function : String) (args : List Term)

namespace Term

mutual

def render : Term → String
  | .word text => text
  | .member path indices link =>
    let access := "self->" ++ Text.joinWith "." path ++ renderIndices indices
    if link then "(*" ++ access ++ ")" else access
  | .model owner => if owner.isEmpty then "self" else "&self->" ++ Text.joinWith "." owner
  | .unary op e => "(" ++ op ++ render e ++ ")"
  | .binary op l r => "(" ++ render l ++ " " ++ op ++ " " ++ render r ++ ")"
  | .quotient l r => "((double)(" ++ render l ++ ") / (" ++ render r ++ "))"
  | .floorQuotient l r => "floor((double)(" ++ render l ++ ") / (double)(" ++ render r ++ "))"
  | .call function args => function ++ "(" ++ Text.joinWith ", " (renderAll args) ++ ")"

def renderIndices : List Term → String
  | [] => ""
  | i :: is => "[" ++ render i ++ "]" ++ renderIndices is

def renderAll : List Term → List String
  | [] => []
  | e :: es => render e :: renderAll es

end

end Term

def builtinName : Builtin → String
  | .exp => "mu_exp"
  | .log => "mu_log"
  | .abs | .fabs => "mu_fabs"
  | .sqrt => "sqrt"
  | .min => "fmin"
  | .max => "fmax"
  | .floor => "floor"
  | .smoothLogistic1 => "su_logistic1"
  | .smoothLogistic2 => "su_logistic2"

def floatWord (text : String) : String :=
  if Text.startsWith text.toList ['.'] then "0" ++ text else text

def unaryTerm : UnaryOp → Term → Term
  | .neg => .unary "-"
  | .pos => .unary "+"
  | .not => .unary "!"

def binaryTerm : BinaryOp → Term → Term → Term
  | .div, l, r => .quotient l r
  | .floorDiv, l, r => .floorQuotient l r
  | .mod, l, r => .call "fmod" [l, r]
  | .pow, l, r => .call "pow" [l, r]
  | .and, l, r => .binary "&&" l r
  | .or, l, r => .binary "||" l r
  | op, l, r => .binary op.symbol l r

/-- The members that lead to a variable from the model a method runs on. -/
def memberPath (p : VarPath) : List String :=
  p.owner ++ [p.group.family.name, p.group.name, p.name]

def methodFunction (m : Model) (owner : List String) (name : String) : String :=
  functionName (((m.descend? owner).map Model.name).getD m.name) name

namespace Term

mutual

def ofExpr (m : Model) : Expr → Term
  | .int n => .word (toString n.toInt)
  | .float _ text => .word (floatWord text)
  | .bool b => .word (if b then "1" else "0")
  | .loc x => .word x
  | .var p indices => .member (memberPath p) (ofExprs m indices) p.group.declaring.isLink
  | .unary op e => unaryTerm op (ofExpr m e)
  | .binary op l r => binaryTerm op (ofExpr m l) (ofExpr m r)
  | .call (.builtin f) args => .call (builtinName f) (ofExprs m args)
  | .call (.method owner name) args =>
    .call (methodFunction m owner name) (.model owner :: ofExprs m args)

def ofExprs (m : Model) : List Expr → List Term
  | [] => []
  | e :: es => ofExpr m e :: ofExprs m es

end

def ofTarget (m : Model) : Target → Term
  | .loc x => .word x
  | .var p indices => ofExpr m (.var p indices)

end Term

end ProcessModel.Code
