import ProcessModel.Decimal.Binary

/-! Reading doubles and integers from decimal text. -/

namespace ProcessModel.Decimal

def digitValue (c : Char) : Nat := c.toNat - '0'.toNat

def digitsValue (cs : List Char) : Nat := cs.foldl (fun n c => 10 * n + digitValue c) 0

/-- The double nearest to `m * 10 ^ e`. Far outside the range of doubles the result is zero or
infinite whatever the digits are. -/
def toFloat (m : Nat) (e : Int) : Float :=
  let length := (Nat.toDigits 10 m).length
  if m = 0 ∨ e + length < -400 then 0.0
  else if 400 < e + length then Float.ofBits 0x7ff0000000000000
  else Float.ofScientific m (decide (e < 0)) e.natAbs

def sign : List Char → Bool × List Char
  | '-' :: cs => (true, cs)
  | '+' :: cs => (false, cs)
  | cs => (false, cs)

/-- An unsigned decimal: digits, a point, digits, an exponent. The digits before or after the point
may be missing, not both. The result is the mantissa and the power of ten. -/
def unsigned? (cs : List Char) : Option (Nat × Int) :=
  let whole := cs.takeWhile Char.isDigit
  let rest := cs.dropWhile Char.isDigit
  let (frac, rest) := match rest with
    | '.' :: r => (r.takeWhile Char.isDigit, r.dropWhile Char.isDigit)
    | r => ([], r)
  if whole.isEmpty && frac.isEmpty then none else
  let m := digitsValue (whole ++ frac)
  let shift : Int := -(frac.length : Int)
  match rest with
  | [] => some (m, shift)
  | c :: r =>
    if c = 'e' || c = 'E' then
      let (negative, ds) := sign r
      if ds.isEmpty || !ds.all Char.isDigit then none
      else
        let e : Int := digitsValue ds
        some (m, shift + if negative then -e else e)
    else none

/-- A double in decimal notation, or `inf`, `infinity`, `nan` in any case. -/
def float? (s : String) : Option Float :=
  let (negative, cs) := sign s.toList
  let word := String.ofList (cs.map Char.toLower)
  let magnitude : Option Float :=
    if word = "inf" || word = "infinity" then some (Float.ofBits 0x7ff0000000000000)
    else if word = "nan" then some (Float.ofBits 0x7ff8000000000000)
    else (unsigned? cs).map fun p => toFloat p.1 p.2
  magnitude.map fun x => if negative then -x else x

def nat64? (s : String) : Option Nat :=
  let ds := match s.toList with
    | '+' :: cs => cs
    | cs => cs
  if ds.isEmpty || !ds.all Char.isDigit then none
  else if digitsValue ds < Nat.pow 2 64 then some (digitsValue ds) else none

def int64? (s : String) : Option Int64 :=
  let (negative, ds) := sign s.toList
  if ds.isEmpty || !ds.all Char.isDigit then none
  else
    let n : Int := if negative then -(digitsValue ds : Int) else digitsValue ds
    if -(Nat.pow 2 63 : Int) ≤ n ∧ n < Nat.pow 2 63 then some (Int64.ofInt n) else none

end ProcessModel.Decimal
