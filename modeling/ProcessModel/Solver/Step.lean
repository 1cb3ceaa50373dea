import ProcessModel.Solver.State

/-! Advancing a model over one step.

A trial evaluates methods of increasing order from the same start, estimates the error from two
successive orders and accepts the trial, rejects it or goes on to the next order. -/

namespace ProcessModel

open Scalar

/-- A model that a solver advances: `σ` is its state, `ε` the type of its failures. Fluxes and
states are vectors of the integrated variables. -/
structure Ode (ε σ α : Type) where
  singleTerms : EStateM (Stop ε) σ Unit
  fullTerms : EStateM (Stop ε) σ Unit
  fluxes : σ → Except ε (List α)
  setFluxes : List α → EStateM (Stop ε) σ Unit
  states : σ → Except ε (List α)
  newToOld : EStateM (Stop ε) σ Unit

structure SolverRun (σ α : Type) where
  solver : Solver α
  model : σ

namespace SolverRun

variable {ε σ α : Type}

abbrev Action (ε σ α : Type) := EStateM (Stop ε) (SolverRun σ α)

def onModel {β : Type} (action : EStateM (Stop ε) σ β) : Action ε σ α β := fun r =>
  match action r.model with
  | .ok b m => .ok b { r with model := m }
  | .error e m => .error e { r with model := m }

def ask {β : Type} (f : σ → Except ε β) : Action ε σ α β := fun r =>
  match f r.model with
  | .ok b => .ok b r
  | .error e => .error (.failed e) r

def changeVars (f : SolverVars α → SolverVars α) : Action ε σ α Unit :=
  modify fun r => { r with solver := { r.solver with vars := f r.solver.vars } }

def changeBuffers (f : SolverBuffers α → SolverBuffers α) : Action ε σ α Unit :=
  modify fun r => { r with solver := { r.solver with buffers := f r.solver.buffers } }

def vars : Action ε σ α (SolverVars α) := do return (← get).solver.vars

def buffers : Action ε σ α (SolverBuffers α) := do return (← get).solver.buffers

def settings : Action ε σ α (Settings α) := do return (← get).solver.settings

variable [Scalar α]

def singleTerms (ode : Ode ε σ α) : Action ε σ α Unit := do
  changeVars fun v => { v with calls := v.calls + 1 }
  onModel ode.singleTerms

/-- Evaluate the right-hand side at the start of a trial and clear the buffers. -/
def startPoint (ode : Ode ε σ α) : Action ε σ α Unit := do
  singleTerms ode
  let fluxes ← ask ode.fluxes
  let states ← ask ode.states
  let zeros := fun (l : List α) => List.replicate l.length (zero : α)
  let rows := RungeKutta.methods
  changeBuffers fun b => {
    fluxPoints := fluxes :: List.replicate rows (zeros fluxes)
    statePoints := states :: List.replicate rows (zeros states)
    fluxResults := List.replicate (rows + 1) (zeros fluxes)
    stateResults := List.replicate (rows + 1) (zeros states)
    integrals := zeros fluxes
    sum := if b.sum.length = fluxes.length then b.sum else zeros fluxes }
  changeVars fun v => { v with stage := 0, startReady := true }

def keepIntegrals : Option (List α) → Action ε σ α Unit
  | some integrals => changeBuffers fun b => { b with integrals }
  | none => throw .outOfRange

/-- Integrate the fluxes up to stage `stage` of method `order`. -/
def integrateFluxes (order stage : Nat) : Action ε σ α Unit := do
  let dt := (← vars).dt
  let b ← buffers
  keepIntegrals
    (weightedPoints? dt (RungeKutta.weights order stage) b.fluxPoints b.integrals.length)

/-- Go to the states that the integrals up to stage `stage` of method `order` lead to. -/
def tryStage (ode : Ode ε σ α) (order stage : Nat) : Action ε σ α Unit := do
  changeVars fun v => { v with stage := stage }
  integrateFluxes order stage
  onModel (ode.setFluxes (← buffers).integrals)
  onModel ode.fullTerms
  let states ← ask ode.states
  changeBuffers fun b => { b with statePoints := b.statePoints.set stage states }
  if stage < order then
    singleTerms ode
    let fluxes ← ask ode.fluxes
    changeBuffers fun b => { b with fluxPoints := b.fluxPoints.set stage fluxes }

/-- Take the step with method `order`, from the start of the trial to its end. -/
def tryOrder (ode : Ode ε σ α) (order : Nat) : Action ε σ α Unit := do
  changeVars fun v => { v with method := order }
  (List.range order).forM fun i => tryStage ode order (i + 1)
  let states ← ask ode.states
  changeBuffers fun b =>
    { b with
      fluxResults := b.fluxResults.set order b.integrals
      stateResults := b.stateResults.set order states }

def measureErrors : Action ε σ α Unit := do
  let b ← buffers
  changeVars fun v => v.withErrors (resultErrors v.useRelError
    (b.fluxResults[v.method]?.getD []) (b.fluxResults[v.method - 1]?.getD []))

/-- Add the fluxes of the trial to the sum and let the model go on from the trial's end. -/
def accept (ode : Ode ε σ α) : Action ε σ α Unit := do
  changeBuffers fun b =>
    { b with sum := (b.sum.zip b.integrals).map (fun p => p.1 + p.2) ++ b.sum.drop b.integrals.length }
  changeVars fun v => { v with t0 := v.t0 + v.dt }
  onModel ode.newToOld
  let s ← settings
  changeVars fun v => v.accept s

def reject : Action ε σ α Unit := do
  let s ← settings
  changeVars fun v => v.reject s

/-- Try orders until one is decisive: the order, and whether the trial is accepted. -/
def tryOrders (ode : Ode ε σ α) : List Nat → Action ε σ α (Option (Nat × Bool))
  | [] => return none
  | order :: rest => do
    tryOrder ode order
    if order < 2 then tryOrders ode rest
    else
      measureErrors
      changeVars SolverVars.withEstimates
      let s ← settings
      if (← vars).tolerable s then
        accept ode
        return some (order, true)
      else if (← vars).hopeless s then
        reject
        return some (order, false)
      else
        changeVars SolverVars.keepErrors
        tryOrders ode rest

def orders : List Nat := (List.range RungeKutta.methods).map (· + 1)

/-- Decide a trial that no order decided: at the smallest step size it is accepted. -/
def settle (ode : Ode ε σ α) : Option (Nat × Bool) → Action ε σ α (Nat × Bool)
  | some decision => return decision
  | none => do
    if atMost (← vars).dt (← settings).relDtMin then
      accept ode
      return (RungeKutta.methods, true)
    else
      reject
      return (RungeKutta.methods, false)

def trial (ode : Ode ε σ α) : Action ε σ α Unit := do
  let s ← settings
  changeVars fun v => { v with dt := v.nextDt s }
  if !(← vars).startReady then startPoint ode
  changeVars SolverVars.beginTrial
  let t0 := (← vars).t0
  let (order, accepted) ← settle ode (← tryOrders ode orders)
  modify fun r =>
    let v := r.solver.vars
    { r with solver := { r.solver with
        trace := r.solver.trace ++ [⟨t0, v.dt, order, accepted, v.absError, v.dtEst⟩] } }

/-- Trials until the step is complete; at most `bound` of them. -/
def trials (ode : Ode ε σ α) : Nat → Action ε σ α Unit
  | 0 => do if (← vars).unfinished then throw .exhausted
  | n + 1 => do
    if (← vars).unfinished then
      trial ode
      trials ode n

/-- Advance the model over one step. Its fluxes end as their integrals over the step. -/
def solve (ode : Ode ε σ α) (bound : Nat) : Action ε σ α Unit := do
  let s ← settings
  modify fun r => { r with solver := { r.solver with trace := [] } }
  changeVars fun v => v.startStep s
  let fluxes ← ask ode.fluxes
  changeBuffers fun b => { b with sum := List.replicate fluxes.length zero }
  trials ode bound
  onModel (ode.setFluxes (← buffers).sum)

def solveDirect (ode : Ode ε σ α) : Action ε σ α Unit := do
  changeVars fun v => { v with calls := 0 }
  singleTerms ode
  onModel ode.fullTerms

/-- The absolute errors of a single trial of size `dt`, from the second order on. The model is left
at the end of the last order. -/
def orderErrors (ode : Ode ε σ α) (dt : α) : Action ε σ α (List α) := do
  changeVars fun v => { v with dt := dt, useRelError := false }
  startPoint ode
  go orders
where
  go : List Nat → Action ε σ α (List α)
    | [] => return []
    | order :: rest => do
      tryOrder ode order
      if order < 2 then go rest
      else
        measureErrors
        let error := (← vars).absError
        return error :: (← go rest)

end SolverRun

end ProcessModel
