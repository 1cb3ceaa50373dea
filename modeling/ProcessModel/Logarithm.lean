/-! The logarithm of `1 + x` for a double `x`, accurate also where `1 + x` rounds to one. The sum is
taken as `2 ^ power * (1 + rest)`, so the result is `power * log 2 + log (1 + rest)`; the last term
is an odd series in `rest / (2 + rest)`. -/

namespace ProcessModel.Real64

/-- A positive number as `2 ^ power * (1 + rest)`, with `1 + rest` between the square roots of one
half and of two. -/
structure Reduced where
  power : Float
  rest : Float
  /-- What the number lacks of the one it was rounded from, relative to it. -/
  lost : Float
  /-- The rest is so small that two terms of its logarithm are enough. -/
  tiny : Bool

/-- Takes a positive number apart. The first twenty bits of its fraction say on which side of the
square root of two it lies. -/
def reduce (u lost : Float) : Reduced :=
  let bits := u.toBits.toNat
  let fraction : Nat := bits % Nat.pow 2 52
  let head : Nat := fraction / Nat.pow 2 32
  let power : Int := ((bits / Nat.pow 2 52 : Nat) : Int) - 1023
  let scaled (biased : Nat) := Float.ofBits (UInt64.ofNat (biased * Nat.pow 2 52 + fraction))
  if head < 0x6a09e then ⟨.ofInt power, scaled 1023 - 1.0, lost, head == 0⟩
  else ⟨.ofInt (power + 1), scaled 1022 - 1.0, lost, 0xffffc < head⟩

/-- The leading bits of `log 2`: so few that a power of two multiplies them without rounding. -/
def log2High : Float := 6.93147180369123816490e-01

def log2Low : Float := 1.90821492927058770002e-10

/-- The terms of `log (1 + f) / s - 2`, for `s = f / (2 + f)`, as a polynomial in `z = s * s`. -/
def seriesTail (z : Float) : Float :=
  let z2 := z * z
  let z4 := z2 * z2
  let z6 := z4 * z2
  z * 6.666666666666735130e-01
    + z2 * (3.999999999940941908e-01 + z * 2.857142874366239149e-01)
    + z4 * (2.222219843214978396e-01 + z * 1.818357216161805012e-01)
    + z6 * (1.531383769920937332e-01 + z * 1.479819860511658591e-01)

def Reduced.log (r : Reduced) : Float :=
  let f := r.rest
  let half := 0.5 * f * f
  let low := r.power * log2Low + r.lost
  if r.tiny then
    if f == 0.0 then r.power * log2High + low
    else
      let second := half * (1.0 - 0.66666666666666666 * f)
      if r.power == 0.0 then f - second else r.power * log2High - ((second - low) - f)
  else
    let s := f / (2.0 + f)
    let odd := s * (half + seriesTail (s * s))
    if r.power == 0.0 then f - (half - odd)
    else r.power * log2High - ((half - (odd + low)) - f)

/-- The logarithm of `1 + x`. Near zero the sum is not formed: `x` itself is the rest, and below
`2 ^ -29` the first two terms of the series in `x` are the result. -/
def logOnePlus (x : Float) : Float :=
  if x.isNaN || x < -1.0 then 0.0 / 0.0
  else if x == -1.0 then -1.0 / 0.0
  else if x.isInf then x
  else if x.abs < 1.862645149230957e-09 then
    if x.abs < 5.551115123125783e-17 then x else x - x * x * 0.5
  else if Float.ofBits 0xbfd2bec400000000 < x && x < Float.ofBits 0x3fda827a00000000 then
    Reduced.log ⟨0.0, x, 0.0, false⟩
  else if x < 9007199254740992.0 then
    let u := 1.0 + x
    (reduce u ((if u < 2.0 then x - (u - 1.0) else 1.0 - (u - x)) / u)).log
  else (reduce x 0.0).log

end ProcessModel.Real64
