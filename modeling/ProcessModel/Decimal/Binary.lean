/-! Doubles taken apart into sign, mantissa and power of two. -/

namespace ProcessModel.Decimal

/-- What a double stands for. A finite one is `± mantissa * 2 ^ exponent`. -/
inductive Parts
  | nan
  | infinite (negative : Bool)
  | finite (negative : Bool) (mantissa : Nat) (exponent : Int)
  deriving DecidableEq, Repr

/-- Reads the sign bit, the eleven exponent bits and the 52 fraction bits. -/
def parts (x : Float) : Parts :=
  let bits := x.toBits.toNat
  let negative := bits / Nat.pow 2 63 % 2 == 1
  let biased : Nat := bits / Nat.pow 2 52 % Nat.pow 2 11
  let fraction : Nat := bits % Nat.pow 2 52
  if biased = 2047 then (if fraction = 0 then .infinite negative else .nan)
  else if biased = 0 then .finite negative fraction (-1074)
  else .finite negative (Nat.pow 2 52 + fraction) ((biased : Int) - 1075)

/-- The double `± m * 2 ^ q`, for a value that is one. -/
def ofParts (negative : Bool) (m : Nat) (q : Int) : Float :=
  let place := max (q + (Nat.log2 m : Nat) - 52) (-1074)
  let mantissa := m * Nat.pow 2 (q - place).toNat / Nat.pow 2 (place - q).toNat
  let magnitude := if mantissa < Nat.pow 2 52 then mantissa
    else (place + 1075).toNat * Nat.pow 2 52 + (mantissa - Nat.pow 2 52)
  Float.ofBits (UInt64.ofNat (magnitude + if negative then Nat.pow 2 63 else 0))

/-- The fraction `m * 2 ^ two * 10 ^ ten` as numerator and denominator. -/
def fraction (m : Nat) (two ten : Int) : Nat × Nat :=
  (m * Nat.pow 2 two.toNat * Nat.pow 10 ten.toNat, Nat.pow 2 (-two).toNat * Nat.pow 10 (-ten).toNat)

/-- The `k` with `10 ^ (k - 1) ≤ m * 2 ^ q < 10 ^ k`, for `m ≠ 0`. The guess from the binary length
is at most one too small. -/
def magnitude (m : Nat) (q : Int) : Int :=
  let guess := (((Nat.log2 m : Nat) : Int) + q) * 30103 / 100000 + 1
  let (num, den) := fraction m q (-guess)
  if den ≤ num then guess + 1 else guess

end ProcessModel.Decimal
