import ProcessModel.Decimal.Digits

/-! The written forms of a double. -/

namespace ProcessModel.Decimal

/-- One digit, a point and the other digits if there are any, and the power of ten. -/
def Digits.scientific (d : Digits) : List Char :=
  let tail := d.digits.drop 1
  d.digits.take 1 ++ (if tail.isEmpty then [] else '.' :: tail) ++ 'e' :: (toString (d.point - 1)).toList

/-- All places written out; a whole number ends in `whole`. -/
def Digits.positional (d : Digits) (whole : List Char) : List Char :=
  if d.point ≤ 0 then '0' :: '.' :: List.replicate (-d.point).toNat '0' ++ d.digits
  else if d.digits.length ≤ d.point.toNat then
    d.digits ++ List.replicate (d.point.toNat - d.digits.length) '0' ++ whole
  else d.digits.take d.point.toNat ++ '.' :: d.digits.drop d.point.toNat

/-- How a format writes doubles: the words for the special values, the form of both zeros and the
form of other finite values. -/
structure Layout where
  nan : String
  infinite : String
  zero : Bool → String
  finite : Nat → Int → List Char

def Layout.render (l : Layout) (x : Float) : String :=
  match parts x with
  | .nan => l.nan
  | .infinite negative => if negative then "-" ++ l.infinite else l.infinite
  | .finite negative 0 _ => l.zero negative
  | .finite negative m q =>
    let body := String.ofList (l.finite m q)
    if negative then "-" ++ body else body

/-- Numbers in generated code and printed vectors: the shortest digits, with a point or an exponent;
exponents below `1e-4` and from `1e16` on. -/
def literal : Layout where
  nan := "NaN"
  infinite := "inf"
  zero negative := if negative then "-0.0" else "0.0"
  finite m q :=
    let d := shortest m q
    if -3 ≤ d.point ∧ d.point ≤ 16 then d.positional ['.', '0'] else d.scientific

/-- Numbers in messages: the shortest digits, never an exponent, whole numbers without a point. -/
def plain : Layout where
  nan := "NaN"
  infinite := "inf"
  zero negative := if negative then "-0" else "0"
  finite m q := (shortest m q).positional []

end ProcessModel.Decimal
