/-! The numbers a solver computes with. -/

namespace ProcessModel

/-- Numbers with an infinite one. Nothing is asked of the operations; doubles and rational numbers
are both of this kind. -/
class Scalar (α : Type) extends Add α, Sub α, Mul α, Div α where
  ratio : Int → Nat → α
  infinity : α
  absolute : α → α
  ln : α → α
  exp : α → α
  less : α → α → Bool
  atMost : α → α → Bool
  same : α → α → Bool
  finite : α → Bool

namespace Scalar

variable {α : Type} [Scalar α]

def zero : α := ratio 0 1

def one : α := ratio 1 1

/-- The lesser of two numbers; what differs from itself gives way to the other. -/
def lesser (a b : α) : α := if !same a a then b else if less b a then b else a

/-- The greater of two numbers; what differs from itself gives way to the other. -/
def greater (a b : α) : α := if !same a a then b else if less a b then b else a

/-- Numbers added up from the left, the first one as it is. -/
def total : List α → α
  | [] => zero
  | x :: xs => xs.foldl (· + ·) x

instance : Scalar Float where
  ratio n d := Float.ofInt n / Float.ofNat d
  infinity := 1.0 / 0.0
  absolute := Float.abs
  ln := Float.log
  exp := Float.exp
  less a b := a < b
  atMost a b := a ≤ b
  same a b := a == b
  finite := Float.isFinite

end Scalar

end ProcessModel
