import ProcessModel.Error
import ProcessModel.Solver.Scalar

/-! Settings of the adaptive solver and the methods it chooses from. -/

namespace ProcessModel

open Scalar

/-- Tolerances and step sizes. Step sizes are parts of the whole step, which has length one. -/
structure Settings (α : Type) where
  absErrorMax : α
  /-- Without it relative errors play no role. -/
  relErrorMax : Option α
  relDtMin : α
  relDtMax : α
  dtIncrease : α
  dtDecrease : α
  /-- Accepted trials in a row before the step size grows. -/
  acceptsBeforeGrowth : Nat
  deriving DecidableEq, Repr

namespace Settings

variable {α : Type} [Scalar α]

def standard : Settings α where
  absErrorMax := ratio 1 100
  relErrorMax := none
  relDtMin := ratio 1 1000
  relDtMax := ratio 1 1
  dtIncrease := ratio 2 1
  dtDecrease := ratio 10 1
  acceptsBeforeGrowth := 1

def positiveFault? (name : String) (value : α) : Option (SettingsFault α) :=
  if finite value && less zero value then none else some (.notPositive name value)

def fault? (s : Settings α) : Option (SettingsFault α) :=
  (positiveFault? "abs_error_max" s.absErrorMax).or <|
  (s.relErrorMax.bind (positiveFault? "rel_error_max")).or <|
  (positiveFault? "rel_dt_min" s.relDtMin).or <|
  (positiveFault? "rel_dt_max" s.relDtMax).or <|
  if less s.relDtMax s.relDtMin then some (.stepOrder s.relDtMin s.relDtMax)
  else if less one s.relDtMax then some (.stepTooLong s.relDtMax)
  else if !less one s.dtIncrease || !less one s.dtDecrease then some .factors
  else if s.acceptsBeforeGrowth = 0 then some .growth
  else none

end Settings

namespace RungeKutta

/-- The number of methods. Method `m` has order `m` and as many stages. -/
def methods : Nat := 4

/-- For every method and stage, the weights of the points before that stage. -/
def table : List (List (List (Int × Nat))) :=
  [[[(1, 1)]],
    [[(1, 1)], [(1, 2), (1, 2)]],
    [[(1, 2)], [(-1, 1), (2, 1)], [(1, 6), (2, 3), (1, 6)]],
    [[(1, 2)], [(0, 1), (1, 2)], [(0, 1), (0, 1), (1, 1)], [(1, 6), (1, 3), (1, 3), (1, 6)]]]

variable {α : Type} [Scalar α]

/-- The weights of stage `stage` of method `method`, both counted from one. -/
def weights (method stage : Nat) : List α :=
  (((table[method - 1]?.bind fun rows => rows[stage - 1]?).getD []).map fun w => ratio w.1 w.2)

def weight (method stage point : Nat) : α := (weights method stage)[point]?.getD zero

end RungeKutta

end ProcessModel
