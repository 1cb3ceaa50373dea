import ProcessModel.Decimal.Binary
import ProcessModel.Logarithm
import ProcessModel.Tree.Expr

/-! Values of expressions and the operations on them. -/

namespace ProcessModel

namespace Real64

def nan : Float := 0.0 / 0.0

def infinity : Float := 1.0 / 0.0

/-- The integer part as a 64-bit integer; values outside its range go to the nearest end and a
value that is no number to zero. -/
def toInt (x : Float) : Int64 := x.toModel.toInt64

def ofInt (n : Int64) : Float := .ofModel (.ofInt64 n)

/-- The lesser of two numbers; an operand that is no number gives way to the other. -/
def lesser (a b : Float) : Float := if a.isNaN then b else if b < a then b else a

/-- The greater of two numbers; an operand that is no number gives way to the other. -/
def greater (a b : Float) : Float := if a.isNaN then b else if a < b then b else a

/-- The remainder of the division of `a` by `b` with the quotient rounded toward zero. It is exact
and has the sign of `a`. -/
def remainder (a b : Float) : Float :=
  match Decimal.parts a, Decimal.parts b with
  | .finite negative m p, .finite _ n q =>
    if n = 0 then nan
    else
      let place := min p q
      Decimal.ofParts negative (m * Nat.pow 2 (p - place).toNat % (n * Nat.pow 2 (q - place).toNat)) place
  | .finite _ _ _, .infinite _ => a
  | _, _ => nan

/-- A step from 0 to 1 around zero; a positive parameter smooths it. -/
def smoothStep (value parameter : Float) : Float :=
  if parameter ≤ 0.0 then
    if 0.0 < value then 1.0 else if value < 0.0 then 0.0 else 0.5
  else 1.0 / (1.0 + (-value / parameter).exp)

/-- The positive part of `value`; a positive parameter smooths it. -/
def smoothPositive (value parameter : Float) : Float :=
  if parameter ≤ 0.0 then greater value 0.0
  else if 700.0 < value / parameter then value
  else parameter * logOnePlus (value / parameter).exp

end Real64

/-- What a variable of an element type holds after `value` is assigned to it. -/
def Element.cast : Element → Float → Float
  | .float, value => value
  | .int, value => Real64.ofInt (Real64.toInt value)
  | .bool, value => if value != 0.0 then 1.0 else 0.0

inductive Value
  | int (value : Int64)
  | float (value : Float)
  | bool (value : Bool)

namespace Value

def toFloat : Value → Float
  | .int n => Real64.ofInt n
  | .float x => x
  | .bool b => if b then 1.0 else 0.0

def toInt? : Value → Option Int64
  | .int n => some n
  | .bool b => some (if b then 1 else 0)
  | .float _ => none

def isTrue : Value → Bool
  | .int n => n != 0
  | .float x => x != 0.0
  | .bool b => b

def cast : LocalType → Value → Value
  | .float, v => .float v.toFloat
  | .int, v => .int (v.toInt?.getD (Real64.toInt v.toFloat))

def ofElement : Element → Float → Value
  | .float, raw => .float raw
  | .int, raw => .int (Real64.toInt raw)
  | .bool, raw => .bool (raw != 0.0)

def unary : UnaryOp → Value → Value
  | .not, v => .bool !v.isTrue
  | .neg, .float x => .float (-x)
  | .neg, v => .int (-v.toInt?.getD 0)
  | .pos, .bool b => .int (if b then 1 else 0)
  | .pos, v => v

/-- An operation that stays among integers if both operands are. -/
def arithmetic (onInts : Int64 → Int64 → Int64) (onFloats : Float → Float → Float)
    (l r : Value) : Value :=
  match l.toInt?, r.toInt? with
  | some a, some b => .int (onInts a b)
  | _, _ => .float (onFloats l.toFloat r.toFloat)

def compare (onInts : Int64 → Int64 → Bool) (onFloats : Float → Float → Bool)
    (l r : Value) : Value :=
  match l.toInt?, r.toInt? with
  | some a, some b => .bool (onInts a b)
  | _, _ => .bool (onFloats l.toFloat r.toFloat)

/-- The value of an operator on two operands. Integers wrap around at 64 bits; the divisions, the
remainder and powers are floating point numbers. -/
def binary : BinaryOp → Value → Value → Value
  | .div, l, r => .float (l.toFloat / r.toFloat)
  | .floorDiv, l, r => .float (l.toFloat / r.toFloat).floor
  | .mod, l, r => .float (Real64.remainder l.toFloat r.toFloat)
  | .pow, l, r => .float (l.toFloat.pow r.toFloat)
  | .add, l, r => arithmetic (· + ·) (· + ·) l r
  | .sub, l, r => arithmetic (· - ·) (· - ·) l r
  | .mul, l, r => arithmetic (· * ·) (· * ·) l r
  | .lt, l, r => compare (· < ·) (· < ·) l r
  | .le, l, r => compare (· ≤ ·) (· ≤ ·) l r
  | .gt, l, r => compare (· > ·) (· > ·) l r
  | .ge, l, r => compare (· ≥ ·) (· ≥ ·) l r
  | .eq, l, r => compare (· == ·) (· == ·) l r
  | .ne, l, r => compare (· != ·) (· != ·) l r
  | .and, l, r => .bool (l.isTrue && r.isTrue)
  | .or, l, r => .bool (l.isTrue || r.isTrue)

/-- The value of a function. A missing argument is no number. -/
def builtin (f : Builtin) (args : List Value) : Value :=
  let x := (args[0]?.map toFloat).getD Real64.nan
  let y := (args[1]?.map toFloat).getD Real64.nan
  .float <| match f with
    | .exp => x.exp
    | .log => x.log
    | .abs | .fabs => x.abs
    | .sqrt => x.sqrt
    | .min => Real64.lesser x y
    | .max => Real64.greater x y
    | .floor => x.floor
    | .smoothLogistic1 => Real64.smoothStep x y
    | .smoothLogistic2 => Real64.smoothPositive x y

end Value

end ProcessModel
