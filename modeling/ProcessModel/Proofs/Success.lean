import ProcessModel.Proofs.Verdicts

/-! Models whose actions succeed.

A solver calls the actions of a model only in states that these lead to, and sets only as many
fluxes as it has been given. Where all flux vectors have one length no index is out of range. -/

namespace ProcessModel

open Scalar

variable {ε σ ν α β : Type}

/-- A model whose actions succeed. It stays in the states `Sound` of it, and has `size` fluxes there,
so many of which can be set. -/
structure Ode.Succeeds (ode : Ode ε σ α) (Sound : σ → Prop) (size : Nat) : Prop where
  fluxes : ∀ m, Sound m → ∃ values, ode.fluxes m = .ok values ∧ values.length = size
  states : ∀ m, Sound m → ∃ values, ode.states m = .ok values
  singleTerms : ∀ m, Sound m → ∃ m', ode.singleTerms m = .ok () m' ∧ Sound m'
  fullTerms : ∀ m, Sound m → ∃ m', ode.fullTerms m = .ok () m' ∧ Sound m'
  setFluxes : ∀ m values, Sound m → values.length = size →
    ∃ m', ode.setFluxes values m = .ok () m' ∧ Sound m'
  newToOld : ∀ m, Sound m → ∃ m', ode.newToOld m = .ok () m' ∧ Sound m'

theorem Ode.Follows.succeeds {ode : Ode ε σ α} {d : Dynamics σ ν α} (h : ode.Follows d) :
    ode.Succeeds d.Sound d.size where
  fluxes m hm := ⟨_, h.fluxes m hm, h.size m hm⟩
  states m hm := ⟨_, h.states m hm⟩
  singleTerms m hm := by
    obtain ⟨m', hrun, hsound, -⟩ := h.singleTerms m hm
    exact ⟨m', hrun, hsound⟩
  fullTerms m hm := by
    obtain ⟨m', hrun, hsound, -⟩ := h.fullTerms m hm
    exact ⟨m', hrun, hsound⟩
  setFluxes m values hm hsize := by
    obtain ⟨m', hrun, hsound, -⟩ := h.setFluxes m values hm hsize
    exact ⟨m', hrun, hsound⟩
  newToOld m hm := by
    obtain ⟨m', hrun, hsound, -⟩ := h.newToOld m hm
    exact ⟨m', hrun, hsound⟩

namespace SolverRun

variable {Sound : σ → Prop} {size : Nat} {ode : Ode ε σ α}

/-- Flux points and integrals of one length, and as many points as a trial may have. -/
structure Sized (size : Nat) (b : SolverBuffers α) : Prop where
  rows : RungeKutta.methods ≤ b.fluxPoints.length
  points : ∀ row ∈ b.fluxPoints, row.length = size
  integrals : b.integrals.length = size

/-- A trial under way that can set the fluxes it computes. -/
structure Equipped (Sound : σ → Prop) (size : Nat) (r : SolverRun σ α) : Prop where
  model : Sound r.model
  sized : Sized size r.solver.buffers
  sum : r.solver.buffers.sum.length = size

/-- An action that succeeds in trials under way. -/
abbrev Proceeds (Sound : σ → Prop) (size : Nat) (x : Action ε σ α β) : Prop :=
  Keeps (Equipped Sound size) (fun _ => False) x fun _ => True

theorem onModel_proceeds {action : EStateM (Stop ε) σ Unit}
    (h : ∀ m, Sound m → ∃ m', action m = .ok () m' ∧ Sound m') :
    Proceeds (α := α) Sound size (onModel action) := by
  intro r hr
  obtain ⟨m, hrun, hsound⟩ := h r.model hr.model
  rw [onModel_ok hrun]
  exact ⟨⟨hsound, hr.sized, hr.sum⟩, trivial⟩

theorem ask_proceeds {f : σ → Except ε β} (h : ∀ m, Sound m → ∃ b, f m = .ok b) :
    Proceeds (α := α) Sound size (ask f) := by
  intro r hr
  obtain ⟨b, hb⟩ := h r.model hr.model
  rw [ask_ok hb]
  exact ⟨hr, trivial⟩

theorem changeVars_proceeds (f : SolverVars α → SolverVars α) :
    Proceeds (ε := ε) Sound size (changeVars f) :=
  fun _ hr => ⟨⟨hr.model, hr.sized, hr.sum⟩, trivial⟩

theorem changeBuffers_proceeds {f : SolverBuffers α → SolverBuffers α} (hf : Resizes f) :
    Proceeds (ε := ε) Sound size (changeBuffers f) := by
  refine fun r hr => ⟨⟨hr.model, ⟨?_, ?_, ?_⟩, (hf.sum r.solver.buffers).trans hr.sum⟩, trivial⟩
  · exact (hf.points r.solver.buffers).symm ▸ hr.sized.rows
  · exact (hf.points r.solver.buffers).symm ▸ hr.sized.points
  · exact (hf.integrals r.solver.buffers).trans hr.sized.integrals

theorem buffers_proceeds {f : SolverBuffers α → Action ε σ α β}
    (hf : ∀ b, b.integrals.length = size → Proceeds Sound size (f b)) :
    Proceeds Sound size (buffers >>= f) :=
  fun r hr => hf r.solver.buffers hr.sized.integrals r hr

theorem singleTerms_proceeds (hode : ode.Succeeds Sound size) :
    Proceeds Sound size (singleTerms ode) :=
  keeps_bind (changeVars_proceeds _) fun _ _ => onModel_proceeds hode.singleTerms

theorem askFluxes_proceeds (hode : ode.Succeeds Sound size) :
    Proceeds (α := α) Sound size (ask ode.fluxes) := by
  refine ask_proceeds fun m hm => ?_
  obtain ⟨values, hvalues, -⟩ := hode.fluxes m hm
  exact ⟨values, hvalues⟩

theorem addPoint_proceeds (hode : ode.Succeeds Sound size) (stage : Nat) :
    Proceeds Sound size (addPoint ode stage) := by
  refine keeps_bind (singleTerms_proceeds hode) fun _ _ r hr => ?_
  obtain ⟨values, hvalues, hlength⟩ := hode.fluxes r.model hr.model
  rw [run_bind_ok (ask_ok hvalues)]
  refine ⟨⟨hr.model, ⟨?_, ?_, hr.sized.integrals⟩, hr.sum⟩, trivial⟩
  · exact Nat.le_trans hr.sized.rows (Nat.le_of_eq List.length_set.symm)
  · exact forall_mem_set hr.sized.points hlength

variable {r : SolverRun σ α}

theorem Proceeds.exists_ok {x : Action ε σ α β} (hx : Proceeds Sound size x)
    (hr : Equipped Sound size r) : ∃ b t, x r = .ok b t ∧ Equipped Sound size t := by
  have h := hx r hr
  cases hrun : x r with
  | ok b t =>
    rw [hrun] at h
    exact ⟨b, t, rfl, h.1⟩
  | error e t =>
    rw [hrun] at h
    exact h.2.elim

variable [Scalar α]

theorem Sized.stageIntegrals? (h : Sized size r.solver.buffers) (order stage : Nat) :
    ∃ w, r.stageIntegrals? order stage = some w ∧ w.length = size := by
  have hle := RungeKutta.length_weights_le_methods (α := α) order stage
  refine ⟨_, weightedPoints?_eq (Nat.le_trans hle h.rows) fun row hrow => ?_, ?_⟩
  · exact Nat.le_of_eq (h.integrals.trans (h.points row hrow).symm)
  · rw [length_weightedPoints, h.integrals]

theorem integrateFluxes_proceeds (order stage : Nat) :
    Proceeds Sound size (integrateFluxes order stage : Action ε σ α Unit) := by
  intro r hr
  obtain ⟨w, hw, hlength⟩ := hr.sized.stageIntegrals? order stage
  rw [integrateFluxes_ok hw]
  exact ⟨⟨hr.model, ⟨hr.sized.rows, hr.sized.points, hlength⟩, hr.sum⟩, trivial⟩

theorem stepCompares_proceeds (hode : ode.Succeeds Sound size) :
    StepCompares (fun _ x _ => Proceeds Sound size x) ode ode where
  pure _ := keeps_pure trivial
  bind hx hf := keeps_bind hx fun b _ => hf b
  vars _ hr := ⟨hr, trivial⟩
  stage _ := changeVars_proceeds _
  integrateFluxes := integrateFluxes_proceeds
  changeBuffers _ hf := changeBuffers_proceeds hf
  integrate hx := buffers_proceeds fun _ hb =>
    keeps_bind (onModel_proceeds fun m hm => hode.setFluxes m _ hm hb) fun _ _ => hx
  fullTerms := onModel_proceeds hode.fullTerms
  singleTerms := singleTerms_proceeds hode
  fluxes := askFluxes_proceeds hode
  states := ask_proceeds hode.states
  addPoint := addPoint_proceeds hode
  buffers _ hr := ⟨hr, trivial⟩
  settings _ hr := ⟨hr, trivial⟩
  changeVars f _ := changeVars_proceeds f
  newToOld := onModel_proceeds hode.newToOld
  record _ _ _ _ hr := ⟨⟨hr.model, hr.sized, hr.sum⟩, trivial⟩

variable (hode : ode.Succeeds Sound size)
include hode

theorem concludeTrial_proceeds : Proceeds Sound size (concludeTrial ode) :=
  concludeTrial_compares (stepCompares_proceeds hode)

theorem startPoint_equips (hr : Sound r.model) :
    ∃ t, startPoint ode r = .ok () t ∧ Equipped Sound size t := by
  obtain ⟨m, hsingle, hsound⟩ := hode.singleTerms r.model hr
  obtain ⟨fluxes, hfluxes, hlength⟩ := hode.fluxes m hsound
  obtain ⟨states, hstates⟩ := hode.states m hsound
  let counted : SolverRun σ α := { r with model := m }.withVars fun v =>
    { v with calls := v.calls + 1 }
  have hask : (ask ode.fluxes : Action ε σ α (List α)) counted = .ok fluxes counted :=
    ask_ok hfluxes
  have hask' : (ask ode.states : Action ε σ α (List α)) counted = .ok states counted :=
    ask_ok hstates
  refine ⟨_, (run_bind_ok (singleTerms_ok hsingle)).trans
    ((run_bind_ok hask).trans (run_bind_ok hask')), hsound, ⟨?_, ?_, ?_⟩, ?_⟩
  · exact Nat.le_trans (Nat.le_succ _) (Nat.le_of_eq (congrArg Nat.succ List.length_replicate).symm)
  · exact fun row hrow => (length_of_mem_startRows hrow).trans hlength
  · exact List.length_replicate.trans hlength
  · exact (length_fittingSum fluxes.length counted).trans hlength

/-- A solver between two trials of which the next will succeed. -/
structure Standing (Sound : σ → Prop) (size : Nat) (r : SolverRun σ α) : Prop where
  model : Sound r.model
  sum : r.solver.buffers.sum.length = size
  sized : r.solver.vars.startReady = true → Sized size r.solver.buffers

theorem trial_succeeds (hr : Standing Sound size r) :
    ∃ t, trial ode r = .ok () t ∧ Standing Sound size t := by
  have hconclude {t : SolverRun σ α} (ht : Equipped Sound size t) :
      ∃ u, concludeTrial ode t = .ok () u ∧ Standing Sound size u := by
    obtain ⟨_, u, hrun, hu⟩ := (concludeTrial_proceeds hode).exists_ok ht
    exact ⟨u, hrun, hu.model, hu.sum, fun _ => hu.sized⟩
  let sized : SolverRun σ α := r.withVars fun v => { v with dt := v.nextDt r.solver.settings }
  rw [trial_apply]
  cases hready : r.solver.vars.startReady with
  | false =>
    obtain ⟨t, hstart, ht⟩ := startPoint_equips hode (r := sized) hr.model
    obtain ⟨u, hrun, hu⟩ := hconclude ht
    exact ⟨u, (run_bind_ok hstart).trans hrun, hu⟩
  | true => exact hconclude (t := sized) ⟨hr.model, hr.sized hready, hr.sum⟩

/-- Trials fail only where the step needs more of them. -/
theorem trials_succeed (bound : Nat) {t : SolverRun σ α} (hcourse : Course ode r t)
    (ht : Standing Sound size t) :
    Results (fun _ last => Standing Sound size last)
      (fun _ last => Course ode r last ∧ last.solver.vars.unfinished = true ∧
        last.solver.trace.length = t.solver.trace.length + bound) (trials ode bound t) := by
  induction bound generalizing t with
  | zero =>
    cases hleft : t.solver.vars.unfinished with
    | true =>
      rw [trials_zero hleft]
      exact ⟨hcourse, hleft, rfl⟩
    | false =>
      rw [trials_done hleft]
      exact ht
  | succ bound ih =>
    cases hleft : t.solver.vars.unfinished with
    | true =>
      obtain ⟨u, hran, hu⟩ := trial_succeeds hode ht
      obtain ⟨entry, htrace⟩ := trace_of_trial_ok hran
      rw [trials_succ hleft, run_bind_ok hran]
      refine (ih (hcourse.trial hleft hran) hu).mono (fun _ _ h => h) fun _ last h => ?_
      refine ⟨h.1, h.2.1, h.2.2.trans ?_⟩
      rw [htrace, List.length_append, List.length_singleton, Nat.add_assoc, Nat.add_comm 1 bound]
    | false =>
      rw [trials_done hleft]
      exact ht

/-- A step that never needs more trials than it may take is completed. -/
theorem solve_succeeds (hr : Sound r.model) {bound : Nat}
    (hbound : ∀ last, Course ode r last → last.solver.vars.unfinished = true →
      last.solver.trace.length < bound) : ∃ r', solve ode bound r = .ok () r' := by
  obtain ⟨fluxes, hfluxes, hlength⟩ := hode.fluxes r.model hr
  have hstart : Standing Sound size (r.stepStart fluxes.length) :=
    ⟨hr, List.length_replicate.trans hlength, nofun⟩
  have hresults := trials_succeed hode bound (.start hfluxes) hstart
  rw [solve_ok hfluxes]
  cases hrun : trials ode bound (r.stepStart fluxes.length) with
  | ok u last =>
    rw [hrun] at hresults
    obtain ⟨m, hset, -⟩ := hode.setFluxes last.model _ hresults.model hresults.sum
    exact ⟨_, (run_bind_ok hrun).trans (onModel_ok hset)⟩
  | error e last =>
    rw [hrun] at hresults
    obtain ⟨hcourse, hleft, htrials⟩ := hresults
    have hlt := hbound last hcourse hleft
    have hempty : (r.stepStart fluxes.length).solver.trace.length = 0 := rfl
    omega

end SolverRun

end ProcessModel
