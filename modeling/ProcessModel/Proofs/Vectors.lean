import Mathlib.Algebra.BigOperators.Fin
import Mathlib.Algebra.BigOperators.Pi
import Mathlib.Algebra.Module.Pi
import Mathlib.Data.Finset.Fold
import Mathlib.Data.Matrix.Mul
import ProcessModel.Proofs.Exact
import ProcessModel.Proofs.Verdicts

/-! Vectors of rational numbers in a solver with exact numbers.

On a model that adds its fluxes to the old states, whatever the fluxes are, the stages of an order
are those of a Runge-Kutta method on rational vectors. -/

namespace ProcessModel

open Scalar

namespace Exact

variable {n : Nat}

def vec (x : Fin n → ℚ) : List Exact := List.ofFn fun i => rational (x i)

@[simp] theorem length_vec (x : Fin n → ℚ) : (vec x).length = n := List.length_ofFn

theorem zip_vec (x y : Fin n → ℚ) :
    (vec x).zip (vec y) = List.ofFn fun i => (rational (x i), rational (y i)) := by
  refine List.ext_getElem (by simp) fun i _ _ => ?_
  simp [vec]

def weighted (weights : List ℚ) (points : List (Fin n → ℚ)) : Fin n → ℚ :=
  (List.zipWith (· • ·) weights points).sum

theorem weighted_apply (weights : List ℚ) (points : List (Fin n → ℚ)) (i : Fin n) :
    weighted weights points i = (List.zipWith (fun w x => w * x i) weights points).sum := by
  rw [weighted, Pi.list_sum_apply, List.map_zipWith]
  rfl

variable [Functions]

theorem foldl_add_rational (q : ℚ) (qs : List ℚ) :
    (qs.map rational).foldl (· + ·) (rational q) = rational (q + qs.sum) := by
  induction qs generalizing q with
  | nil => simp
  | cons p qs ih => rw [List.map_cons, List.foldl_cons, add_rational, ih, List.sum_cons, add_assoc]

theorem total_rational (qs : List ℚ) : total (qs.map rational) = rational qs.sum := by
  cases qs with
  | nil => simp [total]
  | cons q qs => exact foldl_add_rational q qs

theorem add_vec (x y : Fin n → ℚ) :
    ((vec x).zip (vec y)).map (fun p => p.1 + p.2) = vec (x + y) := by
  rw [zip_vec, List.map_ofFn]
  rfl

theorem replicate_zero : List.replicate n (zero : Exact) = vec (0 : Fin n → ℚ) := by
  rw [zero_eq, ← List.ofFn_const]
  rfl

theorem addUp_vec (x y : Fin n → ℚ) : SolverRun.addUp (vec x) (vec y) = vec (x + y) := by
  rw [SolverRun.addUp, add_vec, List.drop_eq_nil_of_le (by simp), List.append_nil]

theorem map_zip_vec (weights : List ℚ) (points : List (Fin n → ℚ)) (i : Fin n) :
    ((weights.map rational).zip (points.map vec)).map (fun p => p.1 * p.2[i.val]?.getD zero) =
      (List.zipWith (fun w x => w * x i) weights points).map rational := by
  induction weights generalizing points with
  | nil => rfl
  | cons w weights ih =>
    cases points with
    | nil => rfl
    | cons x points =>
      have hpoint : (vec x)[i.val]?.getD zero = rational (x i) := by simp [vec]
      rw [List.map_cons, List.map_cons, List.zip_cons_cons, List.map_cons, ih,
        List.zipWith_cons_cons, List.map_cons, hpoint, mul_rational]

theorem weightedPoints_vec (dt : ℚ) (weights : List ℚ) (points : List (Fin n → ℚ)) :
    weightedPoints (rational dt) (weights.map rational) (points.map vec) n =
      vec (dt • weighted weights points) := by
  refine List.ext_getElem (by simp) fun i _ hi => ?_
  have hn : i < n := by simpa using hi
  have hterms := map_zip_vec weights points ⟨i, hn⟩
  simp only [weightedPoints, List.getElem_map, List.getElem_range, hterms, total_rational]
  simp [vec, weighted_apply]

end Exact

namespace RungeKutta

def rationalWeights (method stage : Nat) : List ℚ :=
  ((table[method - 1]?.bind fun rows => rows[stage - 1]?).getD []).map fun w => w.1 / w.2

theorem weights_eq_map_rational [Exact.Functions] (method stage : Nat) :
    (weights method stage : List Exact) = (rationalWeights method stage).map .rational := by
  rw [rationalWeights, List.map_map]
  rfl

end RungeKutta

open Exact

section Sizes

variable {n : Nat} {α : Type}

theorem resultErrors_fst [Scalar α] (useRel : Bool) (current previous : List α) :
    (resultErrors useRel current previous).1 = (current.zip previous).foldl
      (fun error p => greater error (absolute (p.1 - p.2))) zero :=
  (List.foldl_hom Prod.fst fun _ _ => rfl).symm

def maxSize (x : Fin n → ℚ) : ℚ := Finset.univ.fold max 0 fun i => |x i|

theorem foldl_finRange (x : Fin n → ℚ) :
    (List.finRange n).foldl (fun size i => max size |x i|) 0 = maxSize x := by
  rw [maxSize, Finset.fold, Fin.univ_val_map, Multiset.coe_fold_l, List.ofFn_eq_map,
    List.foldl_map]

theorem resultErrors_vec [Functions] (useRel : Bool) (x y : Fin n → ℚ) :
    (resultErrors useRel (vec x) (vec y)).1 = rational (maxSize (x - y)) := by
  rw [resultErrors_fst, zip_vec, List.ofFn_eq_map, List.foldl_map, zero_eq, ← foldl_finRange]
  refine List.foldl_hom rational fun q i => ?_
  rw [sub_rational, absolute_rational, greater_rational]
  rfl

end Sizes

section Slopes

variable {n : Nat} (f : (Fin n → ℚ) → Fin n → ℚ) (dt : ℚ) (x : Fin n → ℚ) (order : Nat)

/-- The values of `f` at the stages of an order before stage `stage + 1`, for a step from `x`. -/
def slopes : Nat → List (Fin n → ℚ)
  | 0 => [f x]
  | stage + 1 => slopes stage ++
      [f (x + dt • weighted (RungeKutta.rationalWeights order (stage + 1)) (slopes stage))]

def increment : Fin n → ℚ :=
  dt • weighted (RungeKutta.rationalWeights order (order - 1 + 1)) (slopes f dt x order (order - 1))

end Slopes

namespace Dynamics

variable {σ : Type} {n : Nat} {d : Dynamics σ (List Exact) Exact} {f : (Fin n → ℚ) → Fin n → ℚ}

/-- Rules by which the fluxes are a function of rational states and are added to the old states. -/
structure Additive (d : Dynamics σ (List Exact) Exact) (f : (Fin n → ℚ) → Fin n → ℚ) : Prop where
  size : d.size = n
  rate : ∀ x, d.rate (vec x) = vec (f x)
  advance : ∀ x w : Fin n → ℚ, d.advance (vec x) (vec w) = vec (x + w)

variable [Functions] {p : Departure (List Exact) Exact} {dt : ℚ} {x : Fin n → ℚ}

theorem Additive.points_eq (hd : d.Additive f) (hdt : p.dt = rational dt) (hold : p.old = vec x)
    (hfirst : p.first = vec (f x)) (order stage : Nat) :
    d.points p order stage = (slopes f dt x order stage).map vec := by
  induction stage with
  | zero => rw [points, slopes, hfirst, List.map_singleton]
  | succ stage ih =>
    rw [points, slopes, ih, List.map_append, List.map_singleton, hold, hdt, hd.size,
      RungeKutta.weights_eq_map_rational, weightedPoints_vec, hd.advance, hd.rate]

theorem Additive.integral_eq (hd : d.Additive f) (hdt : p.dt = rational dt) (hold : p.old = vec x)
    (hfirst : p.first = vec (f x)) (order : Nat) :
    d.integral p order = vec (increment f dt x order) := by
  rw [integral, integralAt, hd.points_eq hdt hold hfirst, hdt, hd.size,
    RungeKutta.weights_eq_map_rational, weightedPoints_vec, increment]

end Dynamics

namespace LinearSystem

variable {n : Nat} [Functions]

def rows (A : Matrix (Fin n) (Fin n) ℚ) : List (List Exact) := List.ofFn fun i => vec (A i)

theorem dot_vec (a x : Fin n → ℚ) : dot (vec a) (vec x) = rational (a ⬝ᵥ x) := by
  have hdot : dot (vec a) (vec x) =
      (((vec a).zip (vec x)).map fun p => p.1 * p.2).foldl (· + ·) zero := List.foldl_map.symm
  have hsum := foldl_add_rational 0 (List.ofFn fun i => a i * x i)
  rw [List.map_ofFn, zero_add, List.sum_ofFn] at hsum
  rw [hdot, zip_vec, List.map_ofFn, zero_eq]
  exact hsum

theorem apply_rows (A : Matrix (Fin n) (Fin n) ℚ) (x : Fin n → ℚ) :
    apply (rows A) (vec x) = vec (A.mulVec x) := by
  rw [apply, rows, List.map_ofFn, vec]
  exact congrArg List.ofFn (funext fun i => dot_vec (A i) x)

theorem additive_dynamics (A : Matrix (Fin n) (Fin n) ℚ) :
    (dynamics (rows A)).Additive A.mulVec where
  size := List.length_ofFn
  rate := apply_rows A
  advance := add_vec

end LinearSystem

end ProcessModel
