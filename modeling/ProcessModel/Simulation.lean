import ProcessModel.Interpreter
import ProcessModel.Series
import ProcessModel.Solver.Step

/-! Running a compiled model step by step. -/

namespace ProcessModel

structure Simulation where
  model : Model
  store : Store
  solver : Solver Float
  channels : Channels := []

namespace Simulation

/-- The bound on nested calls, on the turns of a loop and on the trials of a step. -/
def bound : Nat := Nat.pow 2 62

def parameterValues (s : Settings Float) : List Float :=
  [s.absErrorMax, s.relErrorMax.getD Real64.nan, s.relDtMin, s.relDtMax]

def setParameters (s : Settings Float) (store : Store) : Except Error Store :=
  (Definition.solverParameters.zip (parameterValues s)).foldlM
    (fun store p => store.setScalar (GroupKind.solver.name ++ "." ++ p.1) p.2) store

def ofModel (model : Model) (settings : Settings Float) : Except Error Simulation := do
  let solver ← (Solver.ofSettings settings).mapError fun f => .config (.solver f)
  let store := Store.ofDefinition model.definition
  let store ← if model.plan = .adaptive then setParameters settings store else pure store
  return { model, store, solver }

def ofDefinition (dialect : Dialect) (settings : Settings Float) (d : Definition) :
    Except Error Simulation := do
  ofModel (← Model.compile dialect d) settings

def ode (model : Model) : Ode Error Store Float where
  singleTerms := Interpreter.runMethods model bound .partOde
  fullTerms := Interpreter.runMethods model bound .fullOde
  fluxes s := (NumericKeys.ofDefinition model.definition .fluxes).gather s
  setFluxes values := fun s =>
    match NumericKeys.scatter s (.ofDefinition model.definition .fluxes) values with
    | (s, .ok ()) => .ok () s
    | (s, .error e) => .error (.failed e) s
  states s := (NumericKeys.ofDefinition model.definition .states).gather s
  newToOld := modify Store.newToOld

/-- Actions on a simulation; what was done before a failure stays done. -/
abbrev Action := EStateM (Stop Error) Simulation

def onStore {α : Type} (action : Model → EStateM (Stop Error) Store α) : Action α := fun s =>
  match action s.model s.store with
  | .ok a store => .ok a { s with store }
  | .error e store => .error e { s with store }

def onSolver {α : Type} (action : Ode Error Store Float → SolverRun.Action Error Store Float α) :
    Action α := fun s =>
  match action (ode s.model) ⟨s.solver, s.store⟩ with
  | .ok a r => .ok a { s with solver := r.solver, store := r.model }
  | .error e r => .error e { s with solver := r.solver, store := r.model }

def runMethods (kind : MethodKind) : Action Unit :=
  onStore fun model => Interpreter.runMethods model bound kind

def call (owner : List String) (name : String) (args : List Value) : Action (Option Value) :=
  onStore fun model => Interpreter.call model bound owner name args

def solve : Action Unit := do
  match (← get).model.plan with
  | .adaptive => onSolver fun ode => SolverRun.solve ode bound
  | .direct => onSolver SolverRun.solveDirect
  | .static => return ()

def compute : Action Unit := do
  runMethods .inlet
  solve
  runMethods .run
  runMethods .outlet
  modify fun s => { s with store := s.store.newToOld }

variable {m : Type → Type} [Monad m] [FileAccess m]

def simulate (s : Simulation) (idx : Nat) : m (Simulation × Except (Stop Error) Unit) := do
  match ← s.channels.load s.store idx with
  | (store, .error e) => return ({ s with store }, .error (.failed e))
  | (store, .ok ()) =>
    match compute { s with store } with
    | .error e s => return (s, .error e)
    | .ok () s =>
      let (channels, r) ← s.channels.save s.store idx
      return ({ s with channels }, r.mapError .failed)

end Simulation

end ProcessModel
