import Mathlib.Algebra.Order.Field.Rat
import Mathlib.Tactic.FieldSimp
import Mathlib.Tactic.Linarith
import Mathlib.Tactic.Positivity
import ProcessModel.Solver.Settings

/-! Exact numbers for a solver: rational numbers with two infinite ones.

Operations are those of floating point numbers without their rounding. What they leave open is
undefined, and comparisons with it fail. -/

namespace ProcessModel

inductive Exact
  | rational (q : ℚ)
  | infinite (negative : Bool)
  | undefined
  deriving DecidableEq

namespace Exact

def neg : Exact → Exact
  | rational q => rational (-q)
  | infinite negative => infinite !negative
  | undefined => undefined

def add : Exact → Exact → Exact
  | rational p, rational q => rational (p + q)
  | rational _, infinite negative => infinite negative
  | infinite negative, rational _ => infinite negative
  | infinite a, infinite b => if a = b then infinite a else undefined
  | _, _ => undefined

def scale (negative : Bool) (q : ℚ) : Exact :=
  if q = 0 then undefined else infinite (negative != decide (q < 0))

def mul : Exact → Exact → Exact
  | rational p, rational q => rational (p * q)
  | rational p, infinite negative => scale negative p
  | infinite negative, rational q => scale negative q
  | infinite a, infinite b => infinite (a != b)
  | _, _ => undefined

/-- Zero counts as positive under a division. -/
def div : Exact → Exact → Exact
  | rational p, rational q => if q = 0 then scale false p else rational (p / q)
  | rational _, infinite _ => rational 0
  | infinite negative, rational q => infinite (negative != decide (q < 0))
  | _, _ => undefined

def isLess : Exact → Exact → Bool
  | rational p, rational q => p < q
  | rational _, infinite negative => !negative
  | infinite negative, rational _ => negative
  | infinite a, infinite b => a && !b
  | _, _ => false

def isSame : Exact → Exact → Bool
  | rational p, rational q => p = q
  | infinite a, infinite b => a = b
  | _, _ => false

def abs : Exact → Exact
  | rational q => rational |q|
  | infinite _ => infinite false
  | undefined => undefined

/-- Functions that stand for the logarithm and the exponential function. -/
class Functions where
  ln : Exact → Exact
  exp : Exact → Exact

instance [Functions] : Scalar Exact where
  add := add
  sub a b := add a (neg b)
  mul := mul
  div := div
  ratio n d := rational (n / d)
  infinity := infinite false
  absolute := abs
  ln := Functions.ln
  exp := Functions.exp
  less := isLess
  atMost a b := isLess a b || isSame a b
  same := isSame
  finite
    | rational _ => true
    | _ => false

open Scalar

variable [Functions]

@[simp] theorem ratio_eq (n : Int) (d : Nat) : (ratio n d : Exact) = rational (n / d) := rfl

@[simp] theorem zero_eq : (zero : Exact) = rational 0 := by simp [zero]

@[simp] theorem one_eq : (one : Exact) = rational 1 := by simp [one]

@[simp] theorem add_rational (p q : ℚ) : rational p + rational q = rational (p + q) := rfl

@[simp] theorem sub_rational (p q : ℚ) : rational p - rational q = rational (p - q) := by
  rw [sub_eq_add_neg]
  rfl

@[simp] theorem mul_rational (p q : ℚ) : rational p * rational q = rational (p * q) := rfl

@[simp] theorem absolute_rational (q : ℚ) : absolute (rational q) = rational |q| := rfl

@[simp] theorem less_rational (p q : ℚ) : less (rational p) (rational q) = decide (p < q) := rfl

@[simp] theorem same_rational (p q : ℚ) : same (rational p) (rational q) = decide (p = q) := rfl

@[simp] theorem atMost_rational (p q : ℚ) :
    atMost (rational p) (rational q) = decide (p ≤ q) := by
  simp only [atMost, isLess, isSame, ← Bool.decide_or, le_iff_lt_or_eq]

@[simp] theorem lesser_rational (p q : ℚ) :
    lesser (rational p) (rational q) = rational (min p q) := by
  by_cases h : q < p
  · simp [lesser, h, min_eq_right h.le]
  · simp [lesser, h, min_eq_left (not_lt.1 h)]

@[simp] theorem greater_rational (p q : ℚ) :
    greater (rational p) (rational q) = rational (max p q) := by
  by_cases h : p < q
  · simp [greater, h, max_eq_right h.le]
  · simp [greater, h, max_eq_left (not_lt.1 h)]

theorem finite_iff {a : Exact} : finite a = true ↔ ∃ q, a = rational q := by
  cases a with
  | rational q => exact ⟨fun _ => ⟨q, rfl⟩, fun _ => rfl⟩
  | infinite negative => exact ⟨nofun, nofun⟩
  | undefined => exact ⟨nofun, nofun⟩

end Exact

end ProcessModel
