import ProcessModel.Proofs.Retries

/-! The work of a step.

A solver counts the evaluations of the right-hand side itself. That its count is the number of
evaluations is seen on a model with a counter of its own. -/

namespace ProcessModel

open Scalar

variable {ε σ τ α β γ : Type}

def mapState (f : σ → τ) : EStateM.Result ε σ β → EStateM.Result ε τ β
  | .ok b s => .ok b (f s)
  | .error e s => .error e (f s)

def onFirst (action : EStateM ε σ β) : EStateM ε (σ × τ) β := fun p =>
  mapState (·, p.2) (action p.1)

/-- A model together with the number of evaluations of its right-hand side. -/
def Ode.counted (ode : Ode ε σ α) : Ode ε (σ × Nat) α where
  singleTerms := do
    modify fun p => (p.1, p.2 + 1)
    onFirst ode.singleTerms
  fullTerms := onFirst ode.fullTerms
  fluxes p := ode.fluxes p.1
  setFluxes values := onFirst (ode.setFluxes values)
  states p := ode.states p.1
  newToOld := onFirst ode.newToOld

namespace SolverRun

section Counter

variable {c : Nat} {ode : Ode ε σ α}

def counted (c : Nat) (r : SolverRun σ α) : SolverRun (σ × Nat) α :=
  ⟨r.solver, (r.model, c + r.solver.vars.calls)⟩

/-- Two actions that do the same, the second of them with a counter that keeps its distance from the
solver's. -/
def Mirrored (c : Nat) (x : Action ε σ α β) (y : Action ε (σ × Nat) α β) : Prop :=
  ∀ r, y (r.counted c) = mapState (counted c) (x r)

theorem mirrored_pure (b : β) : Mirrored c (pure b : Action ε σ α β) (pure b) := fun _ => rfl

theorem mirrored_bind {x : Action ε σ α β} {y : Action ε (σ × Nat) α β}
    {f : β → Action ε σ α γ} {g : β → Action ε (σ × Nat) α γ} (hx : Mirrored c x y)
    (hf : ∀ b, Mirrored c (f b) (g b)) : Mirrored c (x >>= f) (y >>= g) := by
  intro r
  have h := hx r
  cases hrun : x r with
  | ok b t =>
    rw [hrun] at h
    rw [run_bind_ok hrun, run_bind_ok h]
    exact hf b t
  | error e t =>
    rw [hrun] at h
    rw [run_bind_error hrun, run_bind_error h]
    rfl

theorem onModel_mirrored (action : EStateM (Stop ε) σ β) :
    Mirrored (α := α) c (onModel action) (onModel (onFirst action)) := by
  intro r
  simp only [onModel, onFirst, counted]
  cases action r.model with
  | ok b m => rfl
  | error e m => rfl

theorem ask_mirrored (f : σ → Except ε β) :
    Mirrored (α := α) c (ask f) (ask fun p => f p.1) := by
  intro r
  simp only [ask, counted]
  cases f r.model with
  | ok b => rfl
  | error e => rfl

theorem changeVars_mirrored {f : SolverVars α → SolverVars α}
    (h : ∀ v, (f v).calls = v.calls) :
    Mirrored c (changeVars f : Action ε σ α Unit) (changeVars f) := by
  intro r
  have hcalls := h r.solver.vars
  change EStateM.Result.ok () _ = EStateM.Result.ok () _
  simp only [counted, hcalls]

theorem changeBuffers_mirrored (f : SolverBuffers α → SolverBuffers α) :
    Mirrored c (changeBuffers f : Action ε σ α Unit) (changeBuffers f) := fun _ => rfl

theorem buffers_mirrored : Mirrored c (buffers : Action ε σ α (SolverBuffers α)) buffers :=
  fun _ => rfl

theorem singleTerms_mirrored (ode : Ode ε σ α) :
    Mirrored c (singleTerms ode) (singleTerms ode.counted) := by
  intro r
  exact onModel_mirrored ode.singleTerms (r.withVars fun v => { v with calls := v.calls + 1 })

theorem addPoint_mirrored (ode : Ode ε σ α) (stage : Nat) :
    Mirrored c (addPoint ode stage) (addPoint ode.counted stage) :=
  mirrored_bind (singleTerms_mirrored ode) fun _ => mirrored_bind (ask_mirrored _) fun _ =>
    changeBuffers_mirrored _

variable [Scalar α]

theorem integrateFluxes_mirrored (order stage : Nat) :
    Mirrored c (integrateFluxes order stage : Action ε σ α Unit) (integrateFluxes order stage) := by
  intro r
  cases h : r.stageIntegrals? order stage with
  | some w =>
    rw [integrateFluxes_ok h, integrateFluxes_ok (r := r.counted c) h]
    rfl
  | none =>
    rw [integrateFluxes_error h, integrateFluxes_error (r := r.counted c) h]
    rfl

theorem stepCompares_mirrored (ode : Ode ε σ α) :
    StepCompares (fun _ => Mirrored c) ode ode.counted where
  pure := mirrored_pure
  bind := mirrored_bind
  vars _ := rfl
  stage _ := changeVars_mirrored fun _ => rfl
  integrateFluxes := integrateFluxes_mirrored
  changeBuffers f _ := changeBuffers_mirrored f
  integrate hx := mirrored_bind buffers_mirrored fun _ =>
    mirrored_bind (onModel_mirrored _) fun _ => hx
  fullTerms := onModel_mirrored _
  singleTerms := singleTerms_mirrored ode
  fluxes := ask_mirrored _
  states := ask_mirrored _
  addPoint := addPoint_mirrored ode
  buffers := buffers_mirrored
  settings _ := rfl
  changeVars _ h := changeVars_mirrored h
  newToOld := onModel_mirrored _
  record _ _ _ _ := rfl

theorem trials_mirrored (ode : Ode ε σ α) (bound : Nat) :
    Mirrored c (trials ode bound) (trials ode.counted bound) :=
  trials_compare (stepCompares_mirrored ode) changeBuffers_mirrored (fun _ => rfl) bound

/-- A counter in the model changes nothing, and a step adds to it what the solver has counted. -/
theorem solve_counted (ode : Ode ε σ α) (bound : Nat) (r : SolverRun σ α) :
    solve ode.counted bound ⟨r.solver, (r.model, c)⟩ =
      mapState (counted c) (solve ode bound r) := by
  have hrest : Mirrored c (ask ode.fluxes >>= fun fluxes =>
      changeBuffers (fun b => { b with sum := List.replicate fluxes.length zero }) >>= fun _ =>
      trials ode bound >>= fun _ => buffers >>= fun b => onModel (ode.setFluxes b.sum))
      (ask ode.counted.fluxes >>= fun fluxes =>
      changeBuffers (fun b => { b with sum := List.replicate fluxes.length zero }) >>= fun _ =>
      trials ode.counted bound >>= fun _ => buffers >>= fun b =>
      onModel (ode.counted.setFluxes b.sum)) := by
    refine mirrored_bind (ask_mirrored _) fun fluxes => ?_
    refine mirrored_bind (changeBuffers_mirrored _) fun _ => ?_
    refine mirrored_bind (trials_mirrored ode bound) fun _ => ?_
    exact mirrored_bind buffers_mirrored fun b => onModel_mirrored _
  rw [solve_apply, solve_apply]
  exact hrest r.opened

end Counter

section Evaluations

variable {ode : Ode ε σ α}

/-- What the records of a step say about its evaluations. -/
def recordedWork (records : List (TrialRecord α)) : Nat :=
  records.countP (·.accepted) + (records.map fun entry => entry.order * (entry.order - 1) / 2).sum

theorem recordedWork_concat (records : List (TrialRecord α)) (entry : TrialRecord α) :
    recordedWork (records ++ [entry]) = recordedWork records +
      (if entry.accepted then 1 else 0) + entry.order * (entry.order - 1) / 2 := by
  simp only [recordedWork, List.countP_append, List.countP_singleton, List.map_append,
    List.sum_append, List.map_singleton, List.sum_singleton]
  omega

/-- A solver that has counted `n` evaluations; `ready` tells whether the first point is known. -/
def Tally (n : Nat) (ready : Bool) (r : SolverRun σ α) : Prop :=
  r.solver.vars.calls = n ∧ r.solver.vars.startReady = ready

/-- An action with `k` evaluations, unless it fails. -/
def Takes (k : Nat) (x : Action ε σ α β) : Prop :=
  ∀ (n : Nat) (ready : Bool) (r : SolverRun σ α), Tally n ready r →
    Results (fun _ t => Tally (n + k) ready t) (fun _ _ => True) (x r)

theorem takes_pure (b : β) : Takes 0 (pure b : Action ε σ α β) := fun _ _ _ h => h

variable {k : Nat} {x : Action ε σ α β}

theorem takes_bind {j : Nat} {f : β → Action ε σ α γ} (hx : Takes j x) (hf : ∀ b, Takes k (f b)) :
    Takes (j + k) (x >>= f) := by
  intro n ready r hr
  refine (hx n ready r hr).andThen fun b t ht => ?_
  rw [← Nat.add_assoc]
  exact hf b (n + j) ready t ht

theorem takes_after {f : β → Action ε σ α γ} (hx : Takes 0 x) (hf : ∀ b, Takes k (f b)) :
    Takes k (x >>= f) :=
  Nat.zero_add k ▸ takes_bind hx hf

theorem takes_ite {p : Prop} [Decidable p] {j : Nat} {y : Action ε σ α β} (hx : Takes j x)
    (hy : Takes k y) : Takes (if p then j else k) (if p then x else y) := by
  split
  · exact hx
  · exact hy

theorem onModel_takes (action : EStateM (Stop ε) σ β) : Takes (α := α) 0 (onModel action) :=
  fun _ _ r hr => onModel_results action r (fun _ _ => hr) fun _ _ => trivial

theorem ask_takes (f : σ → Except ε β) : Takes (α := α) 0 (ask f) := by
  intro n ready r hr
  unfold ask
  cases f r.model with
  | ok b => exact hr
  | error e => exact trivial

theorem changeBuffers_takes (f : SolverBuffers α → SolverBuffers α) :
    Takes 0 (changeBuffers f : Action ε σ α Unit) := fun _ _ _ hr => hr

theorem buffers_takes : Takes 0 (buffers : Action ε σ α (SolverBuffers α)) := fun _ _ _ hr => hr

theorem singleTerms_takes (ode : Ode ε σ α) : Takes 1 (singleTerms ode) := by
  intro n ready r hr
  exact onModel_takes ode.singleTerms (n + 1) ready
    (r.withVars fun v => { v with calls := v.calls + 1 }) ⟨congrArg (· + 1) hr.1, hr.2⟩

variable [Scalar α]

theorem integrateFluxes_takes (order stage : Nat) :
    Takes 0 (integrateFluxes order stage : Action ε σ α Unit) := by
  intro n ready r hr
  cases h : r.stageIntegrals? order stage with
  | some w =>
    rw [integrateFluxes_ok h]
    exact hr
  | none =>
    rw [integrateFluxes_error h]
    exact trivial

theorem tryStage_takes (ode : Ode ε σ α) (order stage : Nat) :
    Takes (if stage < order then 1 else 0) (tryStage ode order stage) := by
  have hpoint : Takes 1 (addPoint ode stage) :=
    takes_bind (singleTerms_takes ode) fun _ => takes_after (ask_takes _) fun _ =>
      changeBuffers_takes _
  have hconclude (integrals : List α) : Takes (if stage < order then 1 else 0)
      (concludeStage ode order stage integrals) := by
    refine takes_after (onModel_takes _) fun _ => takes_after (onModel_takes _) fun _ => ?_
    refine takes_after (ask_takes _) fun states => takes_after (changeBuffers_takes _) fun _ => ?_
    exact takes_ite hpoint (takes_pure _)
  have hstage : Takes 0 (changeVars fun v => { v with stage := stage } : Action ε σ α Unit) :=
    fun _ _ _ hr => hr
  refine takes_after hstage fun _ => takes_after (integrateFluxes_takes order stage) fun _ => ?_
  exact takes_after buffers_takes fun b => hconclude b.integrals

theorem tryOrder_takes (ode : Ode ε σ α) (order : Nat) :
    Takes (order - 1) (tryOrder ode order) := by
  have hstages (stages : List Nat) :
      Takes (stages.map fun i => if i + 1 < order then 1 else 0).sum
        (stages.forM fun i => tryStage ode order (i + 1)) := by
    induction stages with
    | nil => exact takes_pure _
    | cons i rest ih => exact takes_bind (tryStage_takes ode order (i + 1)) fun _ => ih
  have hcount (n : Nat) : ((List.range n).map fun i => if i + 1 < order then 1 else 0).sum =
      min n (order - 1) := by
    induction n with
    | zero => simp
    | succ n ih =>
      rw [List.range_succ, List.map_append, List.sum_append, ih, List.map_singleton,
        List.sum_singleton]
      split <;> omega
  have horder := hstages (List.range order)
  rw [hcount, Nat.min_eq_right (Nat.sub_le order 1)] at horder
  have hmethod : Takes 0 (changeVars fun v => { v with method := order } : Action ε σ α Unit) :=
    fun _ _ _ hr => hr
  refine takes_after hmethod fun _ => ?_
  exact takes_bind horder fun _ => takes_after (ask_takes _) fun states => changeBuffers_takes _

/-- How a trial with `c` evaluations before its orders ends. An order is tried after all that are
lower; once a trial is decided the first point is known only where it was rejected. -/
def Spent (c last : Nat) : Option (Nat × Bool) → SolverRun σ α → Prop
  | some (order, accepted), t => Tally (c + order * (order - 1) / 2) (!accepted) t
  | none, t => t.solver.vars.calls = c + last * (last - 1) / 2

variable {ready : Bool} {r : SolverRun σ α}

theorem accept_tally {n : Nat} (h : Tally n ready r) :
    Results (fun _ t => Tally n false t) (fun _ _ => True) (accept ode r) := by
  let summed : SolverRun σ α := (r.withBuffers fun b =>
    { b with sum := addUp b.sum b.integrals }).withVars fun v => { v with t0 := v.t0 + v.dt }
  change Results _ _ ((onModel ode.newToOld >>= fun _ => settings >>= fun s =>
    changeVars fun v => v.accept s) summed)
  exact Results.bind (onModel_results _ summed (fun _ m => ⟨h.1, rfl⟩) fun _ _ => trivial)

variable {c : Nat}

theorem judge_spent {order last : Nat} {rest : Action ε σ α (Option (Nat × Bool))}
    (hr : Tally (c + order * (order - 1) / 2) ready r)
    (hrest : ∀ t : SolverRun σ α, Tally (c + order * (order - 1) / 2) ready t →
      Results (Spent c last) (fun _ _ => True) (rest t)) :
    Results (Spent c last) (fun _ _ => True) (judge ode order rest r) := by
  rw [judge_apply]
  split_ifs with htolerable hhopeless
  · exact (accept_tally (r := r.judged) hr).andThen fun _ t ht => ht
  · exact ⟨hr.1, rfl⟩
  · exact hrest _ hr

theorem tryOrders_spent {n : Nat} (h : Tally (c + k * (k - 1) / 2) ready r) :
    Results (Spent c (k + n)) (fun _ _ => True) (tryOrders ode (List.range' (k + 1) n) r) := by
  induction n generalizing k r with
  | zero => exact h.1
  | succ n ih =>
    rw [List.range'_succ, tryOrders_cons]
    refine (tryOrder_takes ode (k + 1) _ ready r h).andThen fun _ t ht => ?_
    rw [Nat.add_assoc, Nat.add_sub_cancel, ← Nat.triangle_succ] at ht
    have hnext (t : SolverRun σ α) (ht : Tally (c + (k + 1) * (k + 1 - 1) / 2) ready t) :
        Results (Spent c (k + (n + 1))) (fun _ _ => True)
          (tryOrders ode (List.range' (k + 1 + 1) n) t) := by
      have hlast : k + (n + 1) = k + 1 + n := by omega
      rw [hlast]
      exact ih ht
    split_ifs
    · exact hnext t ht
    · exact judge_spent ht hnext

theorem settle_spent {d : Option (Nat × Bool)} (h : Spent c RungeKutta.methods d r) :
    Results (fun decision t => Tally (c + decision.1 * (decision.1 - 1) / 2) (!decision.2) t)
      (fun _ _ => True) (settle ode d r) := by
  match d, h with
  | some (order, accepted), h => exact h
  | none, h =>
    rw [settle_apply]
    split_ifs
    · exact (accept_tally ⟨h, rfl⟩).andThen fun _ t ht => ht
    · exact ⟨h, rfl⟩

theorem concludeTrial_spent (h : Tally c ready r) :
    Results (fun _ t => ∀ entry, t.solver.trace.getLast? = some entry →
        Tally (c + entry.order * (entry.order - 1) / 2) (!entry.accepted) t) (fun _ _ => True)
      (concludeTrial ode r) := by
  let begun : SolverRun σ α := r.withVars SolverVars.beginTrial
  have horders : orders = List.range' (0 + 1) RungeKutta.methods := rfl
  change Results _ _ ((tryOrders ode orders >>= fun d => settle ode d >>= fun decision =>
    modify (recorded r.solver.vars.t0 decision.1 decision.2)) begun)
  rw [horders]
  refine (tryOrders_spent (k := 0) (r := begun) h).andThen fun d t ht => ?_
  rw [Nat.zero_add] at ht
  refine (settle_spent ht).andThen fun decision u hu entry hentry => ?_
  rw [getLast?_recorded] at hentry
  cases hentry
  exact hu

/-- The evaluations of a trial: that of the first point unless it is known, and those of all orders
up to the recorded one. -/
theorem trial_spent (ode : Ode ε σ α) (r : SolverRun σ α) :
    Results (fun _ t => ∀ entry, t.solver.trace.getLast? = some entry →
        Tally (r.solver.vars.calls + (if r.solver.vars.startReady then 0 else 1) +
          entry.order * (entry.order - 1) / 2) (!entry.accepted) t) (fun _ _ => True)
      (trial ode r) := by
  let sized : SolverRun σ α := r.withVars fun v => { v with dt := v.nextDt r.solver.settings }
  rw [trial_apply]
  cases hready : r.solver.vars.startReady with
  | true => exact concludeTrial_spent (r := sized) ⟨rfl, hready⟩
  | false =>
    have hstart : Results (fun _ t => t.solver.vars.calls = r.solver.vars.calls + 1)
        (fun _ _ => True) (startPoint ode sized) := by
      refine (singleTerms_takes ode _ _ sized ⟨rfl, rfl⟩).andThen fun _ t ht => ?_
      refine (ask_takes _ _ _ t ht).andThen fun fluxes u hu => ?_
      refine (ask_takes _ _ _ u hu).andThen fun states v hv => ?_
      exact hv.1
    exact hstart.andThen fun _ t ht => concludeTrial_spent ⟨ht, rfl⟩

/-- Only a first point that is known and not yet used by an accepted trial is not in the records. -/
theorem Course.calls_eq {last : SolverRun σ α} (h : Course ode r last) :
    last.solver.vars.calls = recordedWork last.solver.trace +
      if last.solver.vars.startReady then 1 else 0 := by
  induction h with
  | start h => rfl
  | @trial t t' h hleft hran ih =>
    obtain ⟨entry, htrace⟩ := trace_of_trial_ok hran
    have hresults := trial_spent ode t
    rw [hran] at hresults
    obtain ⟨hcalls, hready⟩ := hresults entry (by rw [htrace, List.getLast?_concat])
    rw [htrace, recordedWork_concat, hcalls, hready, ih]
    cases t.solver.vars.startReady <;> cases entry.accepted <;>
      simp only [if_true, if_false, Bool.not_true, Bool.not_false, Bool.false_eq_true] <;> omega

/-- A step is not completed by a rejected trial, as this leaves its times alone. -/
theorem Course.startReady_eq_false {last : SolverRun σ α} (h : Course ode r last)
    (hdone : last.solver.vars.unfinished = false) : last.solver.vars.startReady = false := by
  cases h with
  | start h => rfl
  | @trial t _ h hleft hran =>
    have hresults := trial_spent ode t
    rw [hran] at hresults
    obtain ⟨order, accepted, u, hjudged, rfl⟩ := trial_ok hran
    obtain ⟨-, hready⟩ := hresults _ (getLast?_recorded _ _ _ _)
    rw [hready]
    cases accepted with
    | true => rfl
    | false =>
      have ht0 : u.solver.vars.t0 = t.solver.vars.t0 := congrArg TrialStart.t0 hjudged.tried.start
      have ht1 : u.solver.vars.t1 = t.solver.vars.t1 := congrArg TrialStart.t1 hjudged.tried.start
      have hsame : less u.solver.vars.t0 (u.solver.vars.t1 - timeEpsilon) = false := hdone
      rw [ht0, ht1] at hsame
      exact absurd (hleft.symm.trans hsame) nofun

/-- The solver's count of a completed step is the number of evaluations that the model has seen, and
the records tell it: one for each accepted trial, and for each trial as many as there are pairs of
orders up to its own. -/
theorem solve_counts_evaluations (ode : Ode ε σ α) (bound : Nat) (r r' : SolverRun σ α)
    (h : solve ode bound r = .ok () r') :
    solve ode.counted bound ⟨r.solver, (r.model, 0)⟩ =
        .ok () ⟨r'.solver, (r'.model, r'.solver.vars.calls)⟩ ∧
      r'.solver.vars.calls = r'.solver.trace.countP (·.accepted) +
        (r'.solver.trace.map fun entry => entry.order * (entry.order - 1) / 2).sum := by
  constructor
  · rw [solve_counted, h, mapState, counted, Nat.zero_add]
  · have hresults : Results _ _ (solve ode bound r) := solve_results bound r
    rw [h] at hresults
    obtain ⟨last, hcourse, hdone, hsolver⟩ := hresults
    have hcalls := hcourse.calls_eq
    rw [hcourse.startReady_eq_false hdone, ← hsolver] at hcalls
    exact hcalls

end Evaluations

end SolverRun

namespace SolverRun

open Exact

/-- Two accepted trials and a rejected one, all of the fourth order. -/
theorem decline_counts_evaluations :
    letI : Functions := ⟨id, id⟩
    ∃ r', solve LinearSystem.ode 3 decline = .ok () r' ∧
      r'.solver.trace.map (fun entry => (entry.order, entry.accepted)) =
        [(4, false), (4, true), (4, true)] ∧
      solve LinearSystem.ode.counted 3 ⟨decline.solver, (decline.model, 0)⟩ =
        .ok () ⟨r'.solver, (r'.model, r'.solver.vars.calls)⟩ ∧
      r'.solver.vars.calls = 2 + (6 + 6 + 6) := by
  let _ : Functions := ⟨id, id⟩
  obtain ⟨u, r', hrun, hdecisions⟩ := decline_decisions.exists_ok
  obtain ⟨hcounted, hcalls⟩ := solve_counts_evaluations LinearSystem.ode 3 decline r' hrun
  refine ⟨r', hrun, hdecisions, hcounted, hcalls.trans ?_⟩
  have haccepted : r'.solver.trace.countP (·.accepted) =
      (r'.solver.trace.map fun entry => (entry.order, entry.accepted)).countP (·.2) := by
    rw [List.countP_map]
    rfl
  have horders : r'.solver.trace.map (fun entry => entry.order * (entry.order - 1) / 2) =
      (r'.solver.trace.map fun entry => (entry.order, entry.accepted)).map
        fun decision => decision.1 * (decision.1 - 1) / 2 := by
    rw [List.map_map]
    rfl
  rw [haccepted, horders, hdecisions]
  rfl

end SolverRun

end ProcessModel
