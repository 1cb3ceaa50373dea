import ProcessModel.Solver.Step

/-! Linear systems `y' = A y` as models of the solver. -/

namespace ProcessModel

open Scalar

/-- A linear system with its states now and at the start of the step, and its fluxes. -/
structure LinearSystem (α : Type) where
  matrix : List (List α)
  new : List α
  old : List α
  flux : List α
  deriving DecidableEq, Repr

namespace LinearSystem

variable {α : Type} [Scalar α]

def dot (row y : List α) : α := (row.zip y).foldl (fun sum p => sum + p.1 * p.2) zero

def apply (matrix : List (List α)) (y : List α) : List α := matrix.map fun row => dot row y

def start (matrix : List (List α)) (y : List α) : LinearSystem α where
  matrix
  new := y
  old := y
  flux := y.map fun _ => zero

/-- Fluxes are `A y`, and states the old states plus the fluxes. -/
def ode : Ode Error (LinearSystem α) α where
  singleTerms := modify fun s => { s with flux := apply s.matrix s.new }
  fullTerms := modify fun s => { s with new := (s.old.zip s.flux).map fun p => p.1 + p.2 }
  fluxes s := .ok s.flux
  setFluxes values := modify fun s => { s with flux := values }
  states s := .ok s.new
  newToOld := modify fun s => { s with old := s.new }

end LinearSystem

end ProcessModel
