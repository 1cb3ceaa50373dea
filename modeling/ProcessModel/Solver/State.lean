import ProcessModel.Solver.Settings

/-! What the adaptive solver remembers, and how its decisions change it. -/

namespace ProcessModel

open Scalar

structure SolverVars (α : Type) where
  calls : Nat
  method : Nat
  stage : Nat
  t0 : α
  t1 : α
  dt : α
  /-- The step size for the next trial. -/
  dtEst : α
  absError : α
  relError : α
  lastAbsError : α
  lastRelError : α
  extraAbsError : α
  extraRelError : α
  /-- Whether the right-hand side at the start of the trial is known. -/
  startReady : Bool
  useRelError : Bool
  /-- Accepted trials since the last rejection. -/
  accepted : Nat
  deriving DecidableEq, Repr

/-- One trial: its start, its size, the highest order tried, the decision, the error and the step
size for the next trial. -/
structure TrialRecord (α : Type) where
  t0 : α
  dt : α
  order : Nat
  accepted : Bool
  absError : α
  dtEst : α
  deriving DecidableEq, Repr

structure SolverBuffers (α : Type) where
  fluxPoints : List (List α) := []
  statePoints : List (List α) := []
  fluxResults : List (List α) := []
  stateResults : List (List α) := []
  integrals : List α := []
  sum : List α := []
  deriving DecidableEq, Repr

structure Solver (α : Type) where
  settings : Settings α
  vars : SolverVars α
  buffers : SolverBuffers α := {}
  /-- The trials of the latest step. -/
  trace : List (TrialRecord α) := []
  deriving DecidableEq, Repr

variable {α : Type} [Scalar α]

/-- Stands for an error that cannot be estimated; it is below every tolerance. -/
def noEstimate : α := ratio (-9999) 10

/-- A step counts as complete when no more than this is left of it. -/
def timeEpsilon : α := ratio 1 100000000000000

/-- How many methods come after method `method`. The count is a 64-bit word and wraps for a method
beyond the last one. -/
def methodsLeft (methods method : Nat) : Nat :=
  if method ≤ methods then methods - method else Nat.pow 2 64 - (method - methods)

/-- The error to be expected of the last method, from the errors of method `method` and the one
before. -/
def extrapolate (error last : α) (methods method : Nat) : α :=
  if method ≤ 2 then noEstimate
  else if less zero error then
    exp (ln error + (ln error - ln last) * ratio (methodsLeft methods method : Int) 1)
  else if same error zero then zero
  else noEstimate

namespace SolverVars

def initial : SolverVars α where
  calls := 0
  method := 0
  stage := 0
  t0 := zero
  t1 := one
  dt := one
  dtEst := one
  absError := zero
  relError := zero
  lastAbsError := infinity
  lastRelError := infinity
  extraAbsError := noEstimate
  extraRelError := noEstimate
  startReady := false
  useRelError := false
  accepted := 0

def startStep (v : SolverVars α) (s : Settings α) : SolverVars α :=
  { v with
    calls := 0, useRelError := s.relErrorMax.isSome, t0 := zero, t1 := one, dtEst := s.relDtMax,
    startReady := false, accepted := 0 }

def unfinished (v : SolverVars α) : Bool := less v.t0 (v.t1 - timeEpsilon)

/-- The size of the next trial: the estimate within its bounds, and no more than is left. -/
def nextDt (v : SolverVars α) (s : Settings α) : α :=
  lesser (v.t1 - v.t0) (lesser s.relDtMax (greater v.dtEst s.relDtMin))

def beginTrial (v : SolverVars α) : SolverVars α :=
  { v with lastAbsError := infinity, lastRelError := infinity }

def withErrors (v : SolverVars α) (errors : α × α) : SolverVars α :=
  { v with absError := errors.1, relError := errors.2 }

def withEstimates (v : SolverVars α) : SolverVars α :=
  { v with
    extraAbsError := extrapolate v.absError v.lastAbsError RungeKutta.methods v.method
    extraRelError := extrapolate v.relError v.lastRelError RungeKutta.methods v.method }

def keepErrors (v : SolverVars α) : SolverVars α :=
  { v with lastAbsError := v.absError, lastRelError := v.relError }

def tolerable (v : SolverVars α) (s : Settings α) : Bool :=
  atMost v.absError s.absErrorMax || s.relErrorMax.any fun most => atMost v.relError most

/-- Whether no order is expected to reach the tolerances with this step size. -/
def hopeless (v : SolverVars α) (s : Settings α) : Bool :=
  less s.relDtMin v.dt && less s.absErrorMax v.extraAbsError &&
    s.relErrorMax.all fun most => less most v.extraRelError

/-- Go on from the end of the trial; after enough accepted trials the step size grows. -/
def accept (v : SolverVars α) (s : Settings α) : SolverVars α :=
  { v with
    startReady := false, accepted := v.accepted + 1
    dtEst := if s.acceptsBeforeGrowth ≤ v.accepted + 1 then
      lesser (greater v.dtEst v.dt * s.dtIncrease) s.relDtMax else v.dtEst }

/-- Try again from the same start with a smaller step size. -/
def reject (v : SolverVars α) (s : Settings α) : SolverVars α :=
  { v with
    dtEst := greater (v.dt / s.dtDecrease) s.relDtMin, startReady := true, accepted := 0 }

end SolverVars

/-- The absolute and the relative difference of two results: the greatest of all components. A
component that is zero has an infinite relative difference. -/
def resultErrors (useRel : Bool) (current previous : List α) : α × α :=
  (current.zip previous).foldl (fun (errors : α × α) p =>
    let diff := absolute (p.1 - p.2)
    (greater errors.1 diff,
      if useRel then
        if same p.1 zero then infinity else greater errors.2 (absolute (diff / p.1))
      else errors.2)) (zero, zero)

/-- The weighted sum of points, component by component, times `dt`. There is none if a point that has
a weight is missing or has fewer components. -/
def weightedPoints? (dt : α) (weights : List α) (points : List (List α)) (size : Nat) :
    Option (List α) :=
  (List.range size).mapM fun i =>
    (weights.zipIdx.mapM fun w => (points[w.2]?.bind (·[i]?)).map (w.1 * ·)).map fun terms =>
      dt * total terms

def Solver.ofSettings (s : Settings α) : Except (SettingsFault α) (Solver α) :=
  match s.fault? with
  | some fault => .error fault
  | none => .ok { settings := s, vars := .initial }

end ProcessModel
