import ProcessModel.Decimal.Binary

/-! Decimal digits of a positive double: the fewest that read back as it, and a fixed number of them.

Both work on exact fractions of natural numbers. -/

namespace ProcessModel.Decimal

/-- The number `0.d₁d₂… * 10 ^ point` with the digits of `digits`. -/
structure Digits where
  digits : List Char
  point : Int
  deriving DecidableEq, Repr

def Digits.ofScaled (value : Nat) (scale : Int) : Digits :=
  let digits := Nat.toDigits 10 value
  ⟨digits, digits.length + scale⟩

/-- Drop zeros at the end of the digits, which do not change the number. -/
def Digits.strip (d : Digits) : Digits :=
  match (d.digits.reverse.dropWhile (· == '0')).reverse with
  | [] => ⟨['0'], d.point⟩
  | digits => ⟨digits, d.point⟩

/-- Whether `c * 10 ^ ten` lies between `low * 2 ^ two` and `high * 2 ^ two`, the ends included
if `closed`. -/
def between (c : Nat) (ten : Int) (low high : Nat) (two : Int) (closed : Bool) : Bool :=
  let (a, d) := fraction low two (-ten)
  let (b, _) := fraction high two (-ten)
  if closed then a ≤ c * d && c * d ≤ b else a < c * d && c * d < b

/-- The point of the grid `10 ^ ten` next to `m * 2 ^ q` that reads back as it, if there is one; the
nearer of two, and the upper one when both are equally near. -/
def onGrid? (m : Nat) (q : Int) (ten : Int) : Option Nat :=
  let (num, den) := fraction m q (-ten)
  let below := num / den
  let lower := 4 * m - (if m = Nat.pow 2 52 && -1074 < q then 1 else 2)
  let upper := 4 * m + 2
  let hit c := between c ten lower upper (q - 2) (m % 2 == 0)
  match hit below, hit (below + 1) with
  | true, true => some (if 2 * (num % den) < den then below else below + 1)
  | true, false => some below
  | false, true => some (below + 1)
  | false, false => none

/-- The first of the grids with `n`, `n + 1`, … digits that has a point reading back. -/
def shortestFrom (m : Nat) (q k : Int) : Nat → Nat → Digits
  | n, 0 => Digits.ofScaled (let f := fraction m q ((n : Int) - k); f.1 / f.2) (k - n)
  | n, tries + 1 =>
    match onGrid? m q (k - n) with
    | some c => Digits.ofScaled c (k - n)
    | none => shortestFrom m q k (n + 1) tries

/-- The fewest digits that read back as `m * 2 ^ q`; seventeen always do. -/
def shortest (m : Nat) (q : Int) : Digits :=
  (shortestFrom m q (magnitude m q) 1 17).strip

end ProcessModel.Decimal
