import ProcessModel.Proofs.Trials
import ProcessModel.Solver.Linear

/-! A step does not depend on what its solver did before.

Two solvers with the same settings run side by side on the same model. What the first trial finds in
variables and buffers is written before it is read: the buffers by the first point, the method by
every order, and the errors by the second order, which every trial reaches. -/

namespace ProcessModel

open Scalar

namespace SolverRun

variable {ε σ α β γ : Type}

/-- The results of two runs side by side: equal values and related states, or equal failures after
the same trials and with the same model. -/
inductive SideBySide (Q : SolverRun σ α → SolverRun σ α → Prop) :
    EStateM.Result (Stop ε) (SolverRun σ α) β → EStateM.Result (Stop ε) (SolverRun σ α) β → Prop
  | ok {b : β} {r t : SolverRun σ α} (h : Q r t) : SideBySide Q (.ok b r) (.ok b t)
  | error {e : Stop ε} {r t : SolverRun σ α} (hmodel : r.model = t.model)
      (htrace : r.solver.trace = t.solver.trace) : SideBySide Q (.error e r) (.error e t)

/-- An action that leads related states to related states. -/
def Parallel (P : SolverRun σ α → SolverRun σ α → Prop) (x : Action ε σ α β)
    (Q : SolverRun σ α → SolverRun σ α → Prop) : Prop :=
  ∀ r t, P r t → SideBySide Q (x r) (x t)

def By (g : SolverRun σ α → SolverRun σ α) (r t : SolverRun σ α) : Prop := r = g t

/-- A change that neither the model nor the trials show. -/
structure Hidden (g : SolverRun σ α → SolverRun σ α) : Prop where
  model : ∀ t m, g { t with model := m } = { g t with model := m }
  sameModel : ∀ t, (g t).model = t.model
  sameTrace : ∀ t, (g t).solver.trace = t.solver.trace

section Parallel

variable {P Q R : SolverRun σ α → SolverRun σ α → Prop} {g : SolverRun σ α → SolverRun σ α}

theorem parallel_eq (x : Action ε σ α β) : Parallel Eq x Eq := by
  rintro r _ rfl
  cases x r with
  | ok b r' => exact .ok rfl
  | error e r' => exact .error rfl rfl

theorem parallel_pure (b : β) : Parallel P (pure b : Action ε σ α β) P := fun _ _ h => .ok h

variable {x : Action ε σ α β}

theorem SideBySide.bind {f : β → Action ε σ α γ} {r t : SolverRun σ α}
    (hx : SideBySide Q (x r) (x t)) (hf : ∀ b, Parallel Q (f b) R) :
    SideBySide R ((x >>= f) r) ((x >>= f) t) := by
  simp only [Bind.bind, EStateM.bind]
  generalize x r = left, x t = right at hx
  cases hx with
  | ok h => exact hf _ _ _ h
  | error hmodel htrace => exact .error hmodel htrace

theorem SideBySide.eq_ok {x : EStateM.Result (Stop ε) (SolverRun σ α) β} {b : β}
    {t : SolverRun σ α} (h : SideBySide Eq x (.ok b t)) : x = .ok b t := by
  cases h with
  | ok h => rw [h]

theorem parallel_bind {f : β → Action ε σ α γ} (hx : Parallel P x Q)
    (hf : ∀ b, Parallel Q (f b) R) : Parallel P (x >>= f) R :=
  fun r t h => (hx r t h).bind hf

theorem onModel_parallel (hg : Hidden g) (action : EStateM (Stop ε) σ β) :
    Parallel (By g) (onModel (α := α) action) (By g) := by
  rintro _ t rfl
  unfold onModel
  rw [hg.sameModel]
  cases action t.model with
  | ok b m => exact .ok (hg.model t m).symm
  | error e m => exact .error rfl (hg.sameTrace t)

theorem ask_parallel (hg : Hidden g) (f : σ → Except ε β) :
    Parallel (By g) (ask (α := α) f) (By g) := by
  rintro _ t rfl
  unfold ask
  rw [hg.sameModel]
  cases f t.model with
  | ok b => exact .ok rfl
  | error e => exact .error (hg.sameModel t) (hg.sameTrace t)

theorem changeVars_parallel {f : SolverVars α → SolverVars α}
    (h : ∀ t, (g t).withVars f = g (t.withVars f)) :
    Parallel (By g) (changeVars f : Action ε σ α Unit) (By g) := by
  rintro _ t rfl
  exact .ok (h t)

theorem changeBuffers_parallel {f : SolverBuffers α → SolverBuffers α}
    (h : ∀ t, (g t).withBuffers f = g (t.withBuffers f)) :
    Parallel (By g) (changeBuffers f : Action ε σ α Unit) (By g) := by
  rintro _ t rfl
  exact .ok (h t)

theorem buffers_parallel {f : SolverBuffers α → Action ε σ α β}
    (hsame : ∀ t, f (g t).solver.buffers = f t.solver.buffers)
    (hf : ∀ b, Parallel (By g) (f b) Q) : Parallel (By g) (buffers >>= f) Q := by
  rintro _ t rfl
  change SideBySide Q (f (g t).solver.buffers (g t)) (f t.solver.buffers t)
  rw [hsame]
  exact hf _ _ t rfl

theorem parallel_ite {c : Prop} [Decidable c] {y : Action ε σ α β} (hx : Parallel P x Q)
    (hy : Parallel P y Q) : Parallel P (if c then x else y) Q := by
  split
  · exact hx
  · exact hy

end Parallel

end SolverRun

/-- The errors and the estimates that another solver has measured. -/
def SolverVars.measuredBy {α : Type} (o v : SolverVars α) : SolverVars α :=
  { v with
    absError := o.absError, relError := o.relError
    extraAbsError := o.extraAbsError, extraRelError := o.extraRelError }

namespace SolverRun

variable {ε σ α β γ : Type}

def measuredBy (o : SolverVars α) (t : SolverRun σ α) : SolverRun σ α := t.withVars o.measuredBy

/-- A run with what another solver has left of the orders it tried. -/
def triedBy (o : SolverVars α) (t : SolverRun σ α) : SolverRun σ α :=
  (measuredBy o t).withVars fun v =>
    { v with
      method := o.method, lastAbsError := o.lastAbsError, lastRelError := o.lastRelError }

/-- A run with what another solver has left of its trials. -/
def leftBy (o : Solver α) (t : SolverRun σ α) : SolverRun σ α :=
  ((triedBy o.vars t).withVars fun v => { v with stage := o.vars.stage }).withBuffers fun b =>
    { o.buffers with sum := b.sum }

theorem hidden_measuredBy (o : SolverVars α) : Hidden (measuredBy (σ := σ) o) :=
  ⟨fun _ _ => rfl, fun _ => rfl, fun _ => rfl⟩

theorem hidden_leftBy (o : Solver α) : Hidden (leftBy (σ := σ) o) :=
  ⟨fun _ _ => rfl, fun _ => rfl, fun _ => rfl⟩

theorem singleTerms_parallel {g : SolverRun σ α → SolverRun σ α} (hg : Hidden g)
    (hcalls : ∀ t, (g t).withVars (fun v => { v with calls := v.calls + 1 }) =
      g (t.withVars fun v => { v with calls := v.calls + 1 })) (ode : Ode ε σ α) :
    Parallel (By g) (singleTerms ode) (By g) :=
  parallel_bind (changeVars_parallel hcalls) fun _ => onModel_parallel hg _

section Meeting

variable [Scalar α] (ode : Ode ε σ α)

section

variable (o : SolverVars α)
include o

omit ode in
theorem integrateFluxes_parallel (order stage : Nat) :
    Parallel (By (measuredBy o)) (integrateFluxes order stage : Action ε σ α Unit)
      (By (measuredBy o)) := by
  rintro _ t rfl
  have hsame : (measuredBy o t).stageIntegrals? order stage = t.stageIntegrals? order stage := rfl
  cases h : t.stageIntegrals? order stage with
  | some w =>
    rw [integrateFluxes_ok h, integrateFluxes_ok (hsame.trans h)]
    exact .ok rfl
  | none =>
    rw [integrateFluxes_error h, integrateFluxes_error (hsame.trans h)]
    exact .error rfl rfl

theorem tryStage_parallel (order stage : Nat) :
    Parallel (By (measuredBy o)) (tryStage ode order stage) (By (measuredBy o)) := by
  have hg := hidden_measuredBy (σ := σ) o
  refine parallel_bind (changeVars_parallel fun _ => rfl) fun _ => ?_
  refine parallel_bind (integrateFluxes_parallel o order stage) fun _ => ?_
  refine buffers_parallel (fun _ => rfl) fun b => ?_
  refine parallel_bind (onModel_parallel hg _) fun _ => ?_
  refine parallel_bind (onModel_parallel hg _) fun _ => ?_
  refine parallel_bind (ask_parallel hg _) fun states => ?_
  refine parallel_bind (changeBuffers_parallel fun _ => rfl) fun _ => ?_
  refine parallel_ite ?_ (parallel_pure _)
  refine parallel_bind (singleTerms_parallel hg (fun _ => rfl) ode) fun _ => ?_
  exact parallel_bind (ask_parallel hg _) fun fluxes => changeBuffers_parallel fun _ => rfl

theorem stages_parallel (order : Nat) (stages : List Nat) :
    Parallel (By (measuredBy o)) (stages.forM fun i => tryStage ode order (i + 1))
      (By (measuredBy o)) := by
  induction stages with
  | nil => exact parallel_pure _
  | cons i rest ih => exact parallel_bind (tryStage_parallel ode o order (i + 1)) fun _ => ih

theorem tryOrder_parallel (order : Nat) :
    Parallel (By (measuredBy o)) (tryOrder ode order) (By (measuredBy o)) := by
  refine parallel_bind (changeVars_parallel fun _ => rfl) fun _ => ?_
  refine parallel_bind (stages_parallel ode o order _) fun _ => ?_
  refine parallel_bind (ask_parallel (hidden_measuredBy o) _) fun states => ?_
  exact changeBuffers_parallel fun _ => rfl

/-- The second order sets all errors and estimates, so that two runs that differ in them meet. -/
theorem tryOrders_meet : Parallel (By (measuredBy o)) (tryOrders ode orders) Eq := by
  refine parallel_bind (tryOrder_parallel ode o 1) fun _ => ?_
  refine parallel_bind (tryOrder_parallel ode o 2) fun _ => ?_
  rintro _ t rfl
  -- Both runs have the same results, and the errors they differ in are set before they are read.
  have hmeet : judge ode 2 (tryOrders ode [3, 4]) (measuredBy o t) =
      judge ode 2 (tryOrders ode [3, 4]) t := rfl
  change SideBySide Eq (judge ode 2 (tryOrders ode [3, 4]) (measuredBy o t)) _
  rw [hmeet]
  exact parallel_eq _ t t rfl

theorem concludeTrial_meet : Parallel (By (triedBy o)) (concludeTrial ode) Eq := by
  rintro _ t rfl
  have hbegin : concludeTrial ode (triedBy o t) = (tryOrders ode orders >>= fun d =>
      settle ode d >>= fun decision =>
        modify (recorded t.solver.vars.t0 decision.1 decision.2))
      (measuredBy o (t.withVars SolverVars.beginTrial)) := rfl
  rw [hbegin]
  exact parallel_bind (tryOrders_meet ode o) (fun d => parallel_eq _) _ _ rfl

end

theorem startPoint_parallel (o : Solver α) :
    Parallel (By (leftBy o)) (startPoint ode) (By (triedBy o.vars)) := by
  have hg := hidden_leftBy (σ := σ) o
  refine parallel_bind (singleTerms_parallel hg (fun _ => rfl) ode) fun _ => ?_
  refine parallel_bind (ask_parallel hg _) fun fluxes => ?_
  refine parallel_bind (ask_parallel hg _) fun states => ?_
  rintro _ t rfl
  exact .ok rfl

variable {used fresh : Solver α}

variable (hsettings : used.settings = fresh.settings)
include hsettings

theorem trial_meets (n : Nat) (m : σ) :
    SideBySide Eq (trial ode (stepStart n ⟨used, m⟩)) (trial ode (stepStart n ⟨fresh, m⟩)) := by
  obtain ⟨settings, vars, buffers, trace⟩ := used
  obtain rfl : settings = fresh.settings := hsettings
  rw [trial_apply, trial_apply]
  exact parallel_bind (startPoint_parallel ode ⟨fresh.settings, vars, buffers, trace⟩)
    (fun _ => concludeTrial_meet ode vars) _ _ rfl

theorem trials_meet (hfirst : less (zero : α) (one - timeEpsilon) = true) (bound n : Nat) (m : σ) :
    SideBySide Eq (trials ode bound (stepStart n ⟨used, m⟩))
      (trials ode bound (stepStart n ⟨fresh, m⟩)) := by
  have hleft (s : Solver α) : (stepStart n ⟨s, m⟩).solver.vars.unfinished = true := hfirst
  cases bound with
  | zero =>
    rw [trials_zero (hleft used), trials_zero (hleft fresh)]
    exact .error rfl rfl
  | succ bound =>
    rw [trials_succ (hleft used), trials_succ (hleft fresh)]
    exact (trial_meets ode hsettings n m).bind fun _ => parallel_eq _

theorem solve_meets (hfirst : less (zero : α) (one - timeEpsilon) = true) (bound : Nat) (m : σ) :
    SideBySide Eq (solve ode bound ⟨used, m⟩) (solve ode bound ⟨fresh, m⟩) := by
  cases hfluxes : ode.fluxes m with
  | error e =>
    rw [solve_error hfluxes, solve_error hfluxes]
    exact .error rfl rfl
  | ok fluxes =>
    rw [solve_ok hfluxes, solve_ok hfluxes]
    exact (trials_meet ode hsettings hfirst bound _ m).bind fun _ => parallel_eq _

end Meeting

def SparesSettings (x : Action ε σ α β) : Prop :=
  ∀ s, Keeps (fun r => r.solver.settings = s) (fun _ => True) x fun _ => True

/-- The solver that a call leaves behind, also where the call fails. -/
def solverAfter : EStateM.Result (Stop ε) (SolverRun σ α) β → Solver α
  | .ok _ r => r.solver
  | .error _ r => r.solver

theorem SparesSettings.solverAfter {x : Action ε σ α β} (hx : SparesSettings x)
    (r : SolverRun σ α) : (solverAfter (x r)).settings = r.solver.settings := by
  have h := (hx _).results (s := r) rfl
  cases hrun : x r with
  | ok b t =>
    rw [hrun] at h
    exact h
  | error e t =>
    rw [hrun] at h
    exact h

theorem untouched_settings (s : Settings α) :
    Untouched fun r : SolverRun σ α => r.solver.settings = s where
  model _ _ h := h
  buffers _ _ h := h
  calls _ _ h := h
  stage _ _ h := h
  startReady _ _ h := h

theorem sparesSettings_bind {x : Action ε σ α β} {f : β → Action ε σ α γ} (hx : SparesSettings x)
    (hf : ∀ b, SparesSettings (f b)) : SparesSettings (x >>= f) :=
  fun s => keeps_bind (hx s) fun b _ => hf b s

theorem sparesSettings_pure (b : β) : SparesSettings (pure b : Action ε σ α β) :=
  fun _ => keeps_pure trivial

theorem changeVars_sparesSettings (f : SolverVars α → SolverVars α) :
    SparesSettings (changeVars f : Action ε σ α Unit) :=
  fun _ => changeVars_keeps fun _ h => h

theorem onModel_sparesSettings (action : EStateM (Stop ε) σ β) :
    SparesSettings (onModel (α := α) action) :=
  fun s => onModel_keeps (untouched_settings s) action

theorem singleTerms_sparesSettings (ode : Ode ε σ α) : SparesSettings (singleTerms ode) :=
  fun s => singleTerms_keeps ode (untouched_settings s)

theorem solveDirect_sparesSettings (ode : Ode ε σ α) : SparesSettings (solveDirect ode) := by
  refine sparesSettings_bind (changeVars_sparesSettings _) fun _ => ?_
  exact sparesSettings_bind (singleTerms_sparesSettings ode) fun _ => onModel_sparesSettings _

variable [Scalar α] (ode : Ode ε σ α)

theorem stepCompares_sparesSettings :
    StepCompares (fun _ x _ => SparesSettings x) ode ode where
  pure := sparesSettings_pure
  bind := sparesSettings_bind
  vars _ := vars_keeps
  stage _ := changeVars_sparesSettings _
  integrateFluxes order stage s := integrateFluxes_keeps (untouched_settings s) order stage
  changeBuffers f _ s := changeBuffers_keeps (untouched_settings s) f
  integrate hx := sparesSettings_bind (fun _ => buffers_keeps) fun _ =>
    sparesSettings_bind (onModel_sparesSettings _) fun _ => hx
  fullTerms := onModel_sparesSettings _
  singleTerms := singleTerms_sparesSettings ode
  fluxes _ := ask_keeps _
  states _ := ask_keeps _
  addPoint stage s := addPoint_keeps ode (untouched_settings s) stage
  buffers _ := buffers_keeps
  settings _ _ h := ⟨h, trivial⟩
  changeVars f _ := changeVars_sparesSettings f
  newToOld := onModel_sparesSettings _
  record _ _ _ _ _ h := ⟨h, trivial⟩

theorem trials_sparesSettings (bound : Nat) : SparesSettings (trials ode bound) :=
  trials_compare (stepCompares_sparesSettings ode)
    (fun f s => changeBuffers_keeps (untouched_settings s) f) (fun _ => keeps_throw trivial) bound

theorem solve_sparesSettings (bound : Nat) : SparesSettings (solve ode bound) := by
  refine sparesSettings_bind (fun _ _ h => ⟨h, trivial⟩) fun s => ?_
  refine sparesSettings_bind (fun _ _ h => ⟨h, trivial⟩) fun _ => ?_
  refine sparesSettings_bind (changeVars_sparesSettings _) fun _ => ?_
  refine sparesSettings_bind (fun _ => ask_keeps _) fun fluxes => ?_
  refine sparesSettings_bind (fun s => changeBuffers_keeps (untouched_settings s) _) fun _ => ?_
  refine sparesSettings_bind (trials_sparesSettings ode bound) fun _ => ?_
  exact sparesSettings_bind (fun _ => buffers_keeps) fun b => onModel_sparesSettings _

theorem orderErrorsGo_sparesSettings (os : List Nat) : SparesSettings (orderErrors.go ode os) := by
  have hode := stepCompares_sparesSettings ode
  induction os with
  | nil => exact sparesSettings_pure _
  | cons order rest ih =>
    refine sparesSettings_bind (tryOrder_compares hode order) fun _ s => keeps_ite (ih s) ?_
    refine keeps_bind (measureErrors_compares hode s) fun _ _ => keeps_bind vars_keeps fun v _ => ?_
    exact keeps_bind (ih s) fun _ _ => keeps_pure trivial

theorem orderErrors_sparesSettings (dt : α) : SparesSettings (orderErrors ode dt) := by
  refine sparesSettings_bind (changeVars_sparesSettings _) fun _ => ?_
  refine sparesSettings_bind (fun s => startPoint_keeps ode (untouched_settings s)) fun _ => ?_
  exact orderErrorsGo_sparesSettings ode _

/-- The solvers that calls lead to, each of them on a model of its own. -/
inductive Reached (s : Settings α) : Solver α → Prop
  | new {fresh : Solver α} (h : Solver.ofSettings s = .ok fresh) : Reached s fresh
  | solve {used : Solver α} (h : Reached s used) {ε σ : Type} (ode : Ode ε σ α) (bound : Nat)
      (m : σ) : Reached s (solverAfter (SolverRun.solve ode bound ⟨used, m⟩))
  | solveDirect {used : Solver α} (h : Reached s used) {ε σ : Type} (ode : Ode ε σ α) (m : σ) :
      Reached s (solverAfter (SolverRun.solveDirect ode ⟨used, m⟩))
  | singleTerms {used : Solver α} (h : Reached s used) {ε σ : Type} (ode : Ode ε σ α) (m : σ) :
      Reached s (solverAfter (SolverRun.singleTerms ode ⟨used, m⟩))
  | orderErrors {used : Solver α} (h : Reached s used) {ε σ : Type} (ode : Ode ε σ α) (dt : α)
      (m : σ) : Reached s (solverAfter (SolverRun.orderErrors ode dt ⟨used, m⟩))

theorem settings_of_ofSettings {s : Settings α} {fresh : Solver α}
    (h : Solver.ofSettings s = .ok fresh) : fresh.settings = s := by
  unfold Solver.ofSettings at h
  split at h
  · exact absurd h nofun
  · cases h
    rfl

theorem Reached.settings {s : Settings α} {used : Solver α} (h : Reached s used) :
    used.settings = s := by
  induction h with
  | new h => exact settings_of_ofSettings h
  | solve _ ode bound m ih => exact ((solve_sparesSettings ode bound).solverAfter _).trans ih
  | solveDirect _ ode m ih => exact ((solveDirect_sparesSettings ode).solverAfter _).trans ih
  | singleTerms _ ode m ih => exact ((singleTerms_sparesSettings ode).solverAfter _).trans ih
  | orderErrors _ ode dt m ih => exact ((orderErrors_sparesSettings ode dt).solverAfter _).trans ih

/-- A step goes as it would with a new solver, whatever the solver was used for before. -/
theorem solve_forgets_history {s : Settings Float} {fresh used : Solver Float}
    (hfresh : Solver.ofSettings s = .ok fresh) (hused : Reached s used) (ode : Ode ε σ Float)
    (bound : Nat) (m : σ) :
    SideBySide Eq (solve ode bound ⟨used, m⟩) (solve ode bound ⟨fresh, m⟩) := by
  have hsettings : used.settings = fresh.settings :=
    hused.settings.trans (settings_of_ofSettings hfresh).symm
  have hfirst : less (zero : Float) (one - timeEpsilon) = true := by decide +kernel
  exact solve_meets ode hsettings hfirst bound m

def unused : Solver Float := { settings := .standard, vars := .initial }

def twoStates : LinearSystem Float := .start [[ratio (-1) 2, zero], [zero, zero]] [one, one]

def measured : Solver Float :=
  solverAfter (orderErrors LinearSystem.ode (ratio 1 2) ⟨unused, twoStates⟩)

def interrupted : Solver Float :=
  solverAfter (solve { LinearSystem.ode with fullTerms := throw .exhausted } 1
    ⟨measured, twoStates⟩)

def slowDecay : LinearSystem Float := .start [[ratio (-1) 10]] [one]

theorem unused_solves_slowDecay :
    Results (fun _ r' => r'.solver.trace.map (fun entry => (entry.order, entry.accepted)) =
        [(2, true)])
      (fun _ _ => False) (solve LinearSystem.ode 1 ⟨unused, slowDecay⟩) := by
  decide +kernel

/-- The earlier calls leave their method and the size of their model in the solver. -/
theorem interrupted_forgets_history :
    Solver.ofSettings .standard = .ok unused ∧ Reached .standard interrupted ∧
    (interrupted.vars.method, interrupted.buffers.sum.length) = (1, 2) ∧
    ∃ r', solve LinearSystem.ode 1 ⟨interrupted, slowDecay⟩ = .ok () r' ∧
      solve LinearSystem.ode 1 ⟨unused, slowDecay⟩ = .ok () r' := by
  have hvalid : (Settings.standard : Settings Float).fault? = none := by decide +kernel
  have hfresh : Solver.ofSettings .standard = .ok unused := by
    rw [Solver.ofSettings, hvalid]
    rfl
  have hused : Reached .standard interrupted :=
    ((Reached.new hfresh).orderErrors _ _ twoStates).solve _ _ twoStates
  have hside := solve_forgets_history hfresh hused LinearSystem.ode 1 slowDecay
  obtain ⟨u, r', hrun, -⟩ := unused_solves_slowDecay.exists_ok
  rw [hrun] at hside
  exact ⟨hfresh, hused, by decide +kernel, r', hside.eq_ok, hrun⟩

end SolverRun

end ProcessModel
