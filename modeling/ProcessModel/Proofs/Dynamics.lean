import Mathlib.Tactic.Common
import ProcessModel.Proofs.Trials
import ProcessModel.Solver.Linear

/-! Models whose fluxes follow from their states, and whose states from old states and fluxes.

What an order computes on such a model is a recursion over its stages, which knows the first flux
point and the old states only. -/

namespace ProcessModel

open Scalar

/-- What a solver moves of a model: its states, those at the start of a trial and its fluxes. -/
structure Phase (ν α : Type) where
  new : ν
  old : ν
  flux : List α

/-- Rules for a model in the states `Sound` of it: the phase that it is in, the numbers that stand
for its states, the fluxes at given states, and the states that old states and fluxes lead to. -/
structure Dynamics (σ ν α : Type) where
  Sound : σ → Prop
  phase : σ → Phase ν α
  size : Nat
  vector : ν → List α
  rate : ν → List α
  advance : ν → List α → ν

variable {ε σ ν α : Type}

/-- A model that keeps to its rules: each of its actions succeeds, sets one part of the phase and
leaves the others as they are. All else that the rules refer to is part of `d.Sound`. -/
structure Ode.Follows (ode : Ode ε σ α) (d : Dynamics σ ν α) : Prop where
  size : ∀ m, d.Sound m → (d.phase m).flux.length = d.size
  fluxes : ∀ m, d.Sound m → ode.fluxes m = .ok (d.phase m).flux
  states : ∀ m, d.Sound m → ode.states m = .ok (d.vector (d.phase m).new)
  singleTerms : ∀ m, d.Sound m → ∃ m', ode.singleTerms m = .ok () m' ∧ d.Sound m' ∧
    d.phase m' = ⟨(d.phase m).new, (d.phase m).old, d.rate (d.phase m).new⟩
  fullTerms : ∀ m, d.Sound m → ∃ m', ode.fullTerms m = .ok () m' ∧ d.Sound m' ∧
    d.phase m' = ⟨d.advance (d.phase m).old (d.phase m).flux, (d.phase m).old, (d.phase m).flux⟩
  setFluxes : ∀ m values, d.Sound m → values.length = d.size →
    ∃ m', ode.setFluxes values m = .ok () m' ∧ d.Sound m' ∧
      d.phase m' = ⟨(d.phase m).new, (d.phase m).old, values⟩
  newToOld : ∀ m, d.Sound m → ∃ m', ode.newToOld m = .ok () m' ∧ d.Sound m' ∧
    d.phase m' = ⟨(d.phase m).new, (d.phase m).new, (d.phase m).flux⟩

structure Departure (ν α : Type) where
  settings : Settings α
  useRelError : Bool
  t0 : α
  dt : α
  old : ν
  first : List α
  sum : List α

namespace RungeKutta

theorem table_lengths : ∀ rows ∈ table, ∀ row ∈ rows, row.length ≤ methods := by decide

/-- No stage weighs more points than a trial has. -/
theorem length_weights_le_methods [Scalar α] (method stage : Nat) :
    (weights method stage : List α).length ≤ methods := by
  unfold weights
  rw [List.length_map]
  cases hrow : table[method - 1]?.bind fun rows => rows[stage - 1]? with
  | none => exact Nat.zero_le _
  | some row =>
    obtain ⟨rows, hrows, hrow⟩ := Option.bind_eq_some_iff.1 hrow
    exact table_lengths rows (List.mem_of_getElem? hrows) row (List.mem_of_getElem? hrow)

theorem table_rows : ∀ rows ∈ table, ∀ p ∈ rows.zipIdx, p.1.length = p.2 + 1 := by decide

theorem length_weights_le [Scalar α] (method stage : Nat) :
    (weights method (stage + 1) : List α).length ≤ stage + 1 := by
  unfold weights
  rw [List.length_map]
  cases hrows : table[method - 1]? with
  | none => simp
  | some rows =>
    cases hrow : rows[stage]? with
    | none => simp [hrow]
    | some row =>
      have hmem := List.mem_of_getElem? hrows
      have hlength := table_rows rows hmem (row, stage)
        (List.mem_zipIdx_iff_getElem?.2 (by simpa using hrow))
      simp [hrow, hlength]

end RungeKutta

section Weighted

variable [Scalar α]

/-- The weighted sum of points that have all components. -/
def weightedPoints (dt : α) (weights : List α) (points : List (List α)) (size : Nat) : List α :=
  (List.range size).map fun i =>
    dt * total ((weights.zip points).map fun p => p.1 * p.2[i]?.getD zero)

theorem mapM_eq_some_map {β γ : Type} {xs : List β} {f : β → Option γ} {g : β → γ}
    (h : ∀ x ∈ xs, f x = some (g x)) : xs.mapM f = some (xs.map g) := by
  induction xs with
  | nil => rfl
  | cons x xs ih =>
    rw [List.mapM_cons, h x List.mem_cons_self, ih fun y hy => h y (List.mem_cons_of_mem x hy)]
    rfl

theorem weightedPoints?_eq {dt : α} {weights : List α} {points : List (List α)} {size : Nat}
    (hle : weights.length ≤ points.length) (hsize : ∀ point ∈ points, size ≤ point.length) :
    weightedPoints? dt weights points size = some (weightedPoints dt weights points size) := by
  refine mapM_eq_some_map fun i hi => ?_
  have hterms : weights.zipIdx.map (fun w => w.1 * (points[w.2]?.bind (·[i]?)).getD zero) =
      (weights.zip points).map fun p => p.1 * p.2[i]?.getD zero := by
    refine List.ext_getElem (by simp [hle]) fun j hj hj' => ?_
    have hpoint : j < points.length := by simp at hj; omega
    simp [hpoint]
  rw [mapM_eq_some_map (g := fun w => w.1 * (points[w.2]?.bind (·[i]?)).getD zero), hterms]
  · rfl
  · rintro ⟨w, j⟩ hw
    have hj : j < points.length := Nat.lt_of_lt_of_le (List.mem_zipIdx' hw).1 hle
    have hi : i < points[j].length :=
      Nat.lt_of_lt_of_le (List.mem_range.1 hi) (hsize _ (List.getElem_mem hj))
    simp [hj, hi]

@[simp] theorem length_weightedPoints (dt : α) (weights : List α) (points : List (List α))
    (size : Nat) : (weightedPoints dt weights points size).length = size := by
  simp [weightedPoints]

theorem zip_append_of_le {β γ : Type} {xs : List β} {ys zs : List γ} (h : xs.length ≤ ys.length) :
    xs.zip (ys ++ zs) = xs.zip ys := by
  induction xs generalizing ys with
  | nil => rfl
  | cons x xs ih =>
    cases ys with
    | nil => simp at h
    | cons y ys =>
      rw [List.cons_append, List.zip_cons_cons, List.zip_cons_cons, ih (Nat.le_of_succ_le_succ h)]

theorem weightedPoints_of_prefix {dt : α} {weights : List α} {points rows : List (List α)}
    {size : Nat} (hpoints : points <+: rows) (hle : weights.length ≤ points.length) :
    weightedPoints dt weights rows size = weightedPoints dt weights points size := by
  obtain ⟨rest, rfl⟩ := hpoints
  simp only [weightedPoints, zip_append_of_le hle]

theorem prefix_set_of_prefix {β : Type} {points rows : List β} {point : β}
    (hpoints : points <+: rows) (hlt : points.length < rows.length) :
    points ++ [point] <+: rows.set points.length point := by
  obtain ⟨rest, rfl⟩ := hpoints
  cases rest with
  | nil => simp at hlt
  | cons row rest =>
    rw [List.set_append_right _ _ (Nat.le_refl _), Nat.sub_self, List.set_cons_zero]
    exact ⟨rest, by simp⟩

theorem length_of_mem_startRows {fluxes row : List α} {n : Nat}
    (h : row ∈ fluxes :: List.replicate n (List.replicate fluxes.length zero)) :
    row.length = fluxes.length := by
  rcases List.mem_cons.1 h with rfl | hzeros
  · rfl
  · rw [List.eq_of_mem_replicate hzeros, List.length_replicate]

theorem forall_mem_set {β : Type} {P : β → Prop} {xs : List β} {i : Nat} {x : β}
    (h : ∀ y ∈ xs, P y) (hx : P x) : ∀ y ∈ xs.set i x, P y := by
  intro y hy
  rcases List.mem_or_eq_of_mem_set hy with hmem | rfl
  · exact h y hmem
  · exact hx

end Weighted

namespace Dynamics

variable [Scalar α] (d : Dynamics σ ν α) (p : Departure ν α) (order : Nat)

/-- The fluxes at the stages of an order before stage `stage + 1`. -/
def points : Nat → List (List α)
  | 0 => [p.first]
  | stage + 1 => points stage ++ [d.rate (d.advance p.old
      (weightedPoints p.dt (RungeKutta.weights order (stage + 1)) (points stage) d.size))]

def integralAt (stage : Nat) : List α :=
  weightedPoints p.dt (RungeKutta.weights order (stage + 1)) (d.points p order stage) d.size

def integral : List α := d.integralAt p order (order - 1)

def arrival : ν := d.advance p.old (d.integral p order)

theorem points_succ (stage : Nat) : d.points p order (stage + 1) =
    d.points p order stage ++ [d.rate (d.advance p.old (d.integralAt p order stage))] := rfl

@[simp] theorem length_points (stage : Nat) : (d.points p order stage).length = stage + 1 := by
  induction stage with
  | zero => rfl
  | succ stage ih => rw [points_succ, List.length_append, ih, List.length_singleton]

theorem first_prefix_points (stage : Nat) : [p.first] <+: d.points p order stage := by
  induction stage with
  | zero => exact List.prefix_rfl
  | succ stage ih => exact ih.trans (List.prefix_append _ _)

end Dynamics

namespace SolverRun

variable {ode : Ode ε σ α} {d : Dynamics σ ν α} {p : Departure ν α}

/-- A solver without what the stages of an order change. -/
def outsideStages (r : SolverRun σ α) : Solver α :=
  { r.solver with
    vars := { r.solver.vars with calls := 0, stage := 0 }
    buffers := { r.solver.buffers with fluxPoints := [], statePoints := [], integrals := [] } }

/-- A trial under way of which the first flux points are known. -/
structure Underway (d : Dynamics σ ν α) (p : Departure ν α) (points : List (List α))
    (r : SolverRun σ α) : Prop where
  sound : d.Sound r.model
  old : (d.phase r.model).old = p.old
  settings : r.solver.settings = p.settings
  useRelError : r.solver.vars.useRelError = p.useRelError
  t0 : r.solver.vars.t0 = p.t0
  dt : r.solver.vars.dt = p.dt
  sum : r.solver.buffers.sum = p.sum
  points : points <+: r.solver.buffers.fluxPoints
  rows : r.solver.buffers.fluxPoints.length = RungeKutta.methods + 1
  rowSizes : ∀ row ∈ r.solver.buffers.fluxPoints, row.length = d.size
  fluxResults : r.solver.buffers.fluxResults.length = RungeKutta.methods + 1
  stateResults : r.solver.buffers.stateResults.length = RungeKutta.methods + 1
  size : r.solver.buffers.integrals.length = d.size

structure AtStage (d : Dynamics σ ν α) (p : Departure ν α) (points : List (List α)) (w : List α)
    (r : SolverRun σ α) : Prop extends Underway d p points r where
  phase : d.phase r.model = ⟨d.advance p.old w, p.old, w⟩
  integrals : r.solver.buffers.integrals = w

variable {r : SolverRun σ α}

theorem Underway.of_prefix {points rows : List (List α)} (h : Underway d p rows r)
    (hpoints : points <+: rows) : Underway d p points r :=
  { h with points := hpoints.trans h.points }

theorem singleTerms_ok {m : σ} (h : ode.singleTerms r.model = .ok () m) :
    singleTerms ode r = .ok () ({ r with model := m }.withVars fun v =>
      { v with calls := v.calls + 1 }) :=
  onModel_ok (r := r.withVars fun v => { v with calls := v.calls + 1 }) h

theorem addPoint_ok (hode : ode.Follows d) {points : List (List α)} {w : List α}
    (h : AtStage d p points w r) (hle : points.length ≤ RungeKutta.methods) :
    ∃ t : SolverRun σ α, addPoint ode points.length r = .ok () t ∧
      t.outsideStages = r.outsideStages ∧
      Underway d p (points ++ [d.rate (d.advance p.old w)]) t := by
  obtain ⟨m, hsingle, hsound, hphase⟩ := hode.singleTerms r.model h.sound
  have hold : (d.phase m).old = p.old := by rw [hphase, h.old]
  have hflux : (d.phase m).flux = d.rate (d.advance p.old w) := by rw [hphase, h.phase]
  have hrow : points.length < r.solver.buffers.fluxPoints.length := by rw [h.rows]; omega
  have hfluxes := hode.fluxes m hsound
  have hsize := hode.size m hsound
  rw [hflux] at hfluxes hsize
  refine ⟨_, (run_bind_ok (singleTerms_ok hsingle)).trans (run_bind_ok (ask_ok hfluxes)), rfl, ?_⟩
  exact ⟨hsound, hold, h.settings, h.useRelError, h.t0, h.dt, h.sum,
    prefix_set_of_prefix h.points hrow, List.length_set.trans h.rows,
    forall_mem_set h.rowSizes hsize, h.fluxResults, h.stateResults, h.size⟩

/-- A stage from where its integrals are known. -/
def concludeStage (ode : Ode ε σ α) (order stage : Nat) (integrals : List α) :
    Action ε σ α Unit := do
  onModel (ode.setFluxes integrals)
  onModel ode.fullTerms
  let states ← ask ode.states
  changeBuffers fun b => { b with statePoints := b.statePoints.set stage states }
  if stage < order then addPoint ode stage

variable {order stage : Nat}

theorem concludeStage_eq {integrals states : List α} {m m₁ m₂ : σ}
    (hset : ode.setFluxes integrals m = .ok () m₁) (hfull : ode.fullTerms m₁ = .ok () m₂)
    (hstates : ode.states m₂ = .ok states) (s : Solver α) :
    concludeStage ode order stage integrals ⟨s, m⟩ =
      (if stage < order then addPoint ode stage else pure ())
        (SolverRun.withBuffers ⟨s, m₂⟩ fun b =>
          { b with statePoints := b.statePoints.set stage states }) :=
  (run_bind_ok (onModel_ok (r := ⟨s, m⟩) hset)).trans
    ((run_bind_ok (onModel_ok (r := ⟨s, m₁⟩) hfull)).trans
      (run_bind_ok (ask_ok (r := ⟨s, m₂⟩) hstates)))

variable [Scalar α]

theorem tryStage_ok {integrals : List α} (h : r.stageIntegrals? order stage = some integrals)
    (ode : Ode ε σ α) : tryStage ode order stage r = concludeStage ode order stage integrals
      ((r.withVars fun v => { v with stage := stage }).withBuffers fun b =>
        { b with integrals }) :=
  run_bind_ok (integrateFluxes_ok (r := r.withVars fun v => { v with stage := stage }) h)

theorem Underway.stageIntegrals?_eq (h : Underway d p (d.points p order stage) r) :
    r.stageIntegrals? order (stage + 1) = some (d.integralAt p order stage) := by
  have hle := RungeKutta.length_weights_le (α := α) order stage
  have hrows := RungeKutta.length_weights_le_methods (α := α) order (stage + 1)
  rw [stageIntegrals?, h.dt, h.size, weightedPoints?_eq (by rw [h.rows]; omega)
    fun row hrow => Nat.le_of_eq (h.rowSizes row hrow).symm,
    weightedPoints_of_prefix h.points (by rwa [Dynamics.length_points]), Dynamics.integralAt]

theorem tryStage_eq (hode : ode.Follows d) (h : Underway d p (d.points p order stage) r) :
    ∃ t : SolverRun σ α, tryStage ode order (stage + 1) r =
        (if stage + 1 < order then addPoint ode (stage + 1) else pure ()) t ∧
      t.outsideStages = r.outsideStages ∧
      AtStage d p (d.points p order stage) (d.integralAt p order stage) t := by
  have hsize : (d.integralAt p order stage).length = d.size := length_weightedPoints _ _ _ _
  obtain ⟨m₁, hset, hsound₁, hphase₁⟩ := hode.setFluxes r.model _ h.sound hsize
  obtain ⟨m₂, hfull, hsound₂, hphase₂⟩ := hode.fullTerms m₁ hsound₁
  have hphase : d.phase m₂ = ⟨d.advance p.old (d.integralAt p order stage), p.old,
      d.integralAt p order stage⟩ := by
    rw [hphase₂, hphase₁, h.old]
  have hrun := tryStage_ok h.stageIntegrals?_eq ode
  refine ⟨_, hrun.trans (concludeStage_eq hset hfull (hode.states m₂ hsound₂) _), rfl, ?_⟩
  exact ⟨⟨hsound₂, congrArg Phase.old hphase, h.settings, h.useRelError, h.t0, h.dt, h.sum,
    h.points, h.rows, h.rowSizes, h.fluxResults, h.stateResults, hsize⟩, hphase, rfl⟩

theorem stages_ok (hode : ode.Follows d) (hle : order ≤ RungeKutta.methods) {n : Nat}
    (horder : stage + n + 1 = order) (h : Underway d p (d.points p order stage) r) :
    ∃ t : SolverRun σ α,
      ((List.range' stage (n + 1)).forM fun i => tryStage ode order (i + 1)) r = .ok () t ∧
      t.outsideStages = r.outsideStages ∧ AtStage d p [p.first] (d.integral p order) t := by
  induction n generalizing stage r with
  | zero =>
    obtain ⟨t, hrun, houtside, hstage⟩ := tryStage_eq hode h
    rw [if_neg (by omega)] at hrun
    have hlast : order - 1 = stage := by omega
    refine ⟨t, run_bind_ok hrun, houtside, ?_⟩
    rw [Dynamics.integral, hlast]
    exact { hstage with
      toUnderway := hstage.toUnderway.of_prefix (d.first_prefix_points p order stage) }
  | succ n ih =>
    obtain ⟨t, hrun, houtside, hstage⟩ := tryStage_eq hode h
    rw [if_pos (by omega)] at hrun
    obtain ⟨u, hadd, houtside', hpoints⟩ := addPoint_ok hode hstage (by rw [d.length_points]; omega)
    rw [d.length_points] at hadd
    rw [← d.points_succ] at hpoints
    obtain ⟨v, hrest, houtside'', hend⟩ := ih (by omega) hpoints
    exact ⟨v, (run_bind_ok (hrun.trans hadd)).trans hrest,
      houtside''.trans (houtside'.trans houtside), hend⟩

def keepResults (order : Nat) (fluxes states : List α) (s : Solver α) : Solver α :=
  { s with buffers := { s.buffers with
      fluxResults := s.buffers.fluxResults.set order fluxes
      stateResults := s.buffers.stateResults.set order states } }

/-- An order computes what the recursion over its stages says. -/
theorem tryOrder_ok (hode : ode.Follows d) (hpos : 1 ≤ order) (hle : order ≤ RungeKutta.methods)
    (h : Underway d p [p.first] r) :
    ∃ t : SolverRun σ α, tryOrder ode order r = .ok () t ∧
      t.outsideStages = keepResults order (d.integral p order) (d.vector (d.arrival p order))
        (r.withVars fun v => { v with method := order }).outsideStages ∧
      AtStage d p [p.first] (d.integral p order) t := by
  obtain ⟨n, rfl⟩ : ∃ n, order = n + 1 := ⟨order - 1, by omega⟩
  have hset : Underway d p (d.points p (n + 1) 0)
      (r.withVars fun v => { v with method := n + 1 }) := { h with }
  obtain ⟨t, hrun, houtside, hend⟩ := stages_ok hode hle (show 0 + n + 1 = n + 1 by omega) hset
  rw [← List.range_eq_range'] at hrun
  have hstates := hode.states t.model hend.sound
  rw [hend.phase] at hstates
  refine ⟨_, (run_bind_ok hrun).trans (run_bind_ok (ask_ok hstates)), ?_, { hend with
    fluxResults := List.length_set.trans hend.fluxResults
    stateResults := List.length_set.trans hend.stateResults }⟩
  rw [← houtside, Dynamics.arrival, ← hend.integrals]
  rfl

/-- The integrals of the accepted trials, or zeros where these are of another size. -/
def fittingSum (n : Nat) (r : SolverRun σ α) : List α :=
  if r.solver.buffers.sum.length = n then r.solver.buffers.sum else List.replicate n zero

@[simp] theorem length_fittingSum (n : Nat) (r : SolverRun σ α) : (r.fittingSum n).length = n := by
  unfold fittingSum
  split
  · assumption
  · exact List.length_replicate

/-- What a trial of size `dt` that evaluates its first flux point departs from. -/
def departure (d : Dynamics σ ν α) (dt : α) (r : SolverRun σ α) : Departure ν α where
  settings := r.solver.settings
  useRelError := r.solver.vars.useRelError
  t0 := r.solver.vars.t0
  dt
  old := (d.phase r.model).old
  first := d.rate (d.phase r.model).new
  sum := r.fittingSum d.size

theorem startPoint_ok (hode : ode.Follows d) (h : d.Sound r.model) :
    ∃ t : SolverRun σ α, startPoint ode r = .ok () t ∧
      Underway d (r.departure d r.solver.vars.dt) [d.rate (d.phase r.model).new] t := by
  obtain ⟨m, hsingle, hsound, hphase⟩ := hode.singleTerms r.model h
  have hold : (d.phase m).old = (d.phase r.model).old := by rw [hphase]
  have hsize := hode.size m hsound
  have hfluxes := hode.fluxes m hsound
  rw [hphase] at hsize hfluxes
  let counted : SolverRun σ α := { r with model := m }.withVars fun v =>
    { v with calls := v.calls + 1 }
  have hask : (ask ode.fluxes : Action ε σ α (List α)) counted = .ok _ counted := ask_ok hfluxes
  have hstates : (ask ode.states : Action ε σ α (List α)) counted = .ok _ counted :=
    ask_ok (hode.states m hsound)
  refine ⟨_, (run_bind_ok (singleTerms_ok hsingle)).trans
    ((run_bind_ok hask).trans (run_bind_ok hstates)), ?_⟩
  exact {
    sound := hsound
    old := hold
    settings := rfl
    useRelError := rfl
    t0 := rfl
    dt := rfl
    sum := by
      rw [departure, fittingSum, ← hsize]
      rfl
    points := List.prefix_append [_] _
    rows := congrArg Nat.succ List.length_replicate
    rowSizes := fun row hrow => (length_of_mem_startRows hrow).trans hsize
    fluxResults := List.length_replicate
    stateResults := List.length_replicate
    size := List.length_replicate.trans hsize }

end SolverRun

namespace LinearSystem

variable [Scalar α]

def dynamics (matrix : List (List α)) : Dynamics (LinearSystem α) (List α) α where
  Sound m := m.matrix = matrix ∧ m.flux.length = matrix.length
  phase m := ⟨m.new, m.old, m.flux⟩
  size := matrix.length
  vector := id
  rate := apply matrix
  advance old flux := (old.zip flux).map fun p => p.1 + p.2

theorem follows_dynamics (matrix : List (List α)) : ode.Follows (dynamics matrix) where
  size _ h := h.2
  fluxes _ _ := rfl
  states _ _ := rfl
  singleTerms
    | m, ⟨rfl, _⟩ => ⟨_, rfl, ⟨rfl, List.length_map _⟩, rfl⟩
  fullTerms _ h := ⟨_, rfl, h, rfl⟩
  setFluxes _ _ h hlength := ⟨_, rfl, ⟨h.1, hlength⟩, rfl⟩
  newToOld _ h := ⟨_, rfl, h, rfl⟩

end LinearSystem

end ProcessModel
