import ProcessModel.Bundle
import ProcessModel.Simulation

/-! Bundled models with their parameters set, ready to run. -/

namespace ProcessModel.Scenario

def simulation (dialect : Dialect) (settings : Settings Float) (name : String) :
    Except Error Simulation := do
  Simulation.ofDefinition dialect settings (← Bundle.definition name)

def decay (dialect : Dialect) (settings : Settings Float) (k y0 : Float) :
    Except Error Simulation := do
  let s ← simulation dialect settings "decay"
  let store ← s.store.setScalar "control.k" k
  let store ← store.setScalar "states.y" y0
  return { s with store := store.newToOld }

def counter (dialect : Dialect) (settings : Settings Float) (increment n0 : Float) :
    Except Error Simulation := do
  let s ← simulation dialect settings "counter"
  let store ← s.store.setScalar "control.increment" increment
  let store ← store.setScalar "states.n" n0
  return { s with store := store.newToOld }

/-- The storage with one zone for every area, loss fraction `c`, smoothing `beta` and initial
content `s0`. -/
def lstorage (dialect : Dialect) (settings : Settings Float) (area : List Float)
    (c beta s0 : Float) : Except Error Simulation := do
  let s ← simulation dialect settings "lstorage"
  let zones := area.length
  let store ← s.store.setScalar "control.nmb" (Float.ofNat zones)
  let store ← store.setArray "control.area" [zones] area.toArray
  let store ← store.setShape "fluxes.qz" [zones]
  let store ← store.setArray "states.s" [zones] (Array.replicate zones s0)
  let store ← store.newToOld.setScalar "loss.control.c" c
  let store ← store.setScalar "loss.control.beta" beta
  return { s with store }

end ProcessModel.Scenario
