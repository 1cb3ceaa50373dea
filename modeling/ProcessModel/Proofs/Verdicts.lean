import ProcessModel.Proofs.Dynamics

/-! What a trial decides on a model that follows dynamics.

The errors of an order follow from its results and those of the order before, and the decision from
the errors. So the decision and all results of a trial are functions of what it departs from. -/

namespace ProcessModel

open Scalar

variable {ε σ ν α : Type} [Scalar α]

namespace Dynamics

variable (d : Dynamics σ ν α) (p : Departure ν α)

def errors (order : Nat) : α × α :=
  resultErrors p.useRelError (d.integral p order) (d.integral p (order - 1))

def lastErrors (order : Nat) : α × α :=
  if order ≤ 2 then (infinity, infinity) else d.errors p (order - 1)

def estimates (order : Nat) : α × α :=
  (extrapolate (d.errors p order).1 (d.lastErrors p order).1 RungeKutta.methods order,
    extrapolate (d.errors p order).2 (d.lastErrors p order).2 RungeKutta.methods order)

def findings (order : Nat) : SolverVars α :=
  { SolverVars.initial with
    dt := p.dt
    absError := (d.errors p order).1
    relError := (d.errors p order).2
    extraAbsError := (d.estimates p order).1
    extraRelError := (d.estimates p order).2 }

/-- What an order decides, where `rest` is what the orders after it decide. -/
def judgement (order : Nat) (rest : Option (Nat × Bool)) : Option (Nat × Bool) :=
  if (d.findings p order).tolerable p.settings then some (order, true)
  else if (d.findings p order).hopeless p.settings then some (order, false)
  else rest

/-- The first order that decides a trial, and whether it is accepted. -/
def verdict : List Nat → Option (Nat × Bool)
  | [] => none
  | order :: rest => if order < 2 then verdict rest else d.judgement p order (verdict rest)

def decision : Nat × Bool :=
  (d.verdict p SolverRun.orders).getD (RungeKutta.methods, atMost p.dt p.settings.relDtMin)

end Dynamics

namespace SolverRun

variable {ode : Ode ε σ α} {d : Dynamics σ ν α} {p : Departure ν α}

def addUp (sum integrals : List α) : List α :=
  (sum.zip integrals).map (fun p => p.1 + p.2) ++ sum.drop integrals.length

theorem length_addUp (sum integrals : List α) : (addUp sum integrals).length = sum.length := by
  simp only [addUp, List.length_append, List.length_map, List.length_zip, List.length_drop]
  omega

structure Found (d : Dynamics σ ν α) (p : Departure ν α) (order : Nat) (v : SolverVars α) :
    Prop where
  dt : v.dt = p.dt
  errors : (v.absError, v.relError) = d.errors p order
  estimates : (v.extraAbsError, v.extraRelError) = d.estimates p order

variable {order : Nat}

theorem Found.tolerable {v : SolverVars α} (h : Found d p order v) (s : Settings α) :
    v.tolerable s = (d.findings p order).tolerable s := by
  simp only [SolverVars.tolerable, Dynamics.findings, ← h.errors]

theorem Found.hopeless {v : SolverVars α} (h : Found d p order v) (s : Settings α) :
    v.hopeless s = (d.findings p order).hopeless s := by
  simp only [SolverVars.hopeless, Dynamics.findings, ← h.estimates, h.dt]

/-- The buffers hold the results of the orders up to `order`. -/
structure Holds (d : Dynamics σ ν α) (p : Departure ν α) (order : Nat) (b : SolverBuffers α) :
    Prop where
  fluxes : ∀ m, 1 ≤ m → m ≤ order → b.fluxResults[m]? = some (d.integral p m)
  states : ∀ m, 1 ≤ m → m ≤ order → b.stateResults[m]? = some (d.vector (d.arrival p m))

/-- Orders up to `order` are tried and leave a trial undecided. -/
structure Undecided (d : Dynamics σ ν α) (p : Departure ν α) (order : Nat) (r : SolverRun σ α) :
    Prop extends Underway d p [p.first] r where
  results : Holds d p order r.solver.buffers
  last : (r.solver.vars.lastAbsError, r.solver.vars.lastRelError) = d.lastErrors p (order + 1)
  ended : 1 ≤ order → AtStage d p [p.first] (d.integral p order) r
  found : 2 ≤ order → Found d p order r.solver.vars

/-- A trial that is decided at an order: the model has gone on, or it goes back. -/
structure Decided (d : Dynamics σ ν α) (p : Departure ν α) (order : Nat) (accepted : Bool)
    (r : SolverRun σ α) : Prop where
  results : Holds d p order r.solver.buffers
  found : Found d p order r.solver.vars
  gone : accepted = true → d.Sound r.model ∧
    d.phase r.model = ⟨d.arrival p order, d.arrival p order, d.integral p order⟩ ∧
    r.solver.buffers.sum = addUp p.sum (d.integral p order) ∧
    r.solver.vars.t0 = p.t0 + p.dt ∧ r.solver.vars.startReady = false
  back : accepted = false → Underway d p [p.first] r ∧ r.solver.vars.startReady = true

theorem getElem?_set_succ {β : Type} {rows : List β} {x : Nat → β} {n : Nat}
    (h : ∀ m, 1 ≤ m → m ≤ n → rows[m]? = some (x m)) (hlt : n + 1 < rows.length) :
    ∀ m, 1 ≤ m → m ≤ n + 1 → (rows.set (n + 1) (x (n + 1)))[m]? = some (x m) := by
  intro m hpos hm
  rcases Nat.lt_or_ge m (n + 1) with hold | hge
  · rw [List.getElem?_set_ne (by omega), h m hpos (by omega)]
  · obtain rfl : m = n + 1 := by omega
    rw [List.getElem?_set_self hlt]

variable {r : SolverRun σ α}

theorem tryOrder_holds (hode : ode.Follows d) (hle : order + 1 ≤ RungeKutta.methods)
    (h : Underway d p [p.first] r) (hresults : Holds d p order r.solver.buffers) :
    ∃ t : SolverRun σ α, tryOrder ode (order + 1) r = .ok () t ∧
      AtStage d p [p.first] (d.integral p (order + 1)) t ∧
      Holds d p (order + 1) t.solver.buffers ∧ t.solver.vars.method = order + 1 ∧
      (t.solver.vars.lastAbsError, t.solver.vars.lastRelError) =
        (r.solver.vars.lastAbsError, r.solver.vars.lastRelError) := by
  obtain ⟨t, hrun, houtside, hend⟩ := tryOrder_ok hode (Nat.le_add_left 1 order) hle h
  have hfluxes : t.solver.buffers.fluxResults =
      r.solver.buffers.fluxResults.set (order + 1) (d.integral p (order + 1)) :=
    congrArg (·.buffers.fluxResults) houtside
  have hstates : t.solver.buffers.stateResults =
      r.solver.buffers.stateResults.set (order + 1) (d.vector (d.arrival p (order + 1))) :=
    congrArg (·.buffers.stateResults) houtside
  refine ⟨t, hrun, hend, ⟨?_, ?_⟩, congrArg (·.vars.method) houtside,
    congrArg (fun s => (s.vars.lastAbsError, s.vars.lastRelError)) houtside⟩
  · rw [hfluxes]
    exact getElem?_set_succ hresults.fluxes (by rw [h.fluxResults]; omega)
  · rw [hstates]
    exact getElem?_set_succ hresults.states (by rw [h.stateResults]; omega)

theorem Holds.errorsOf_eq (hge : 2 ≤ order) (h : Holds d p order r.solver.buffers) :
    errorsOf p.useRelError order r = d.errors p order := by
  rw [errorsOf, h.fluxes order (by omega) (Nat.le_refl _),
    h.fluxes (order - 1) (by omega) (by omega)]
  rfl

theorem judged_found (hge : 2 ≤ order) (h : Underway d p [p.first] r)
    (hresults : Holds d p order r.solver.buffers) (hmethod : r.solver.vars.method = order)
    (hlast : (r.solver.vars.lastAbsError, r.solver.vars.lastRelError) = d.lastErrors p order) :
    Found d p order r.judged.solver.vars := by
  subst hmethod
  have herrors := hresults.errorsOf_eq hge
  rw [← h.useRelError] at herrors
  refine ⟨h.dt, herrors, ?_⟩
  rw [Dynamics.estimates, ← hlast, ← herrors]
  rfl

theorem accept_ok (hode : ode.Follows d) (hend : AtStage d p [p.first] (d.integral p order) r)
    (hresults : Holds d p order r.solver.buffers) (hfound : Found d p order r.solver.vars) :
    ∃ t : SolverRun σ α, accept ode r = .ok () t ∧ Decided d p order true t := by
  obtain ⟨m, hnew, hsound, hphase⟩ := hode.newToOld r.model hend.sound
  have hsum : addUp r.solver.buffers.sum r.solver.buffers.integrals =
      addUp p.sum (d.integral p order) := by rw [hend.sum, hend.integrals]
  have ht0 : r.solver.vars.t0 + r.solver.vars.dt = p.t0 + p.dt := by rw [hend.t0, hend.dt]
  rw [hend.phase] at hphase
  let summed : SolverRun σ α :=
    (r.withBuffers fun b => { b with sum := addUp b.sum b.integrals }).withVars fun v =>
      { v with t0 := v.t0 + v.dt }
  have hstep : onModel ode.newToOld summed = .ok () { summed with model := m } := onModel_ok hnew
  refine ⟨_, run_bind_ok hstep, ⟨hresults.fluxes, hresults.states⟩,
    ⟨hfound.dt, hfound.errors, hfound.estimates⟩, fun _ => ?_, nofun⟩
  exact ⟨hsound, hphase, hsum, ht0, rfl⟩

theorem reject_ok (h : Underway d p [p.first] r) (hresults : Holds d p order r.solver.buffers)
    (hfound : Found d p order r.solver.vars) :
    ∃ t : SolverRun σ α, (reject : Action ε σ α Unit) r = .ok () t ∧ Decided d p order false t :=
  ⟨_, rfl, hresults, ⟨hfound.dt, hfound.errors, hfound.estimates⟩, nofun,
    fun _ => ⟨{ h with }, rfl⟩⟩

/-- What the orders of a trial lead to. -/
def Leads (d : Dynamics σ ν α) (p : Departure ν α) : Option (Nat × Bool) → SolverRun σ α → Prop
  | some (order, accepted), t => Decided d p order accepted t
  | none, t => Undecided d p RungeKutta.methods t

theorem judge_ok (hode : ode.Follows d) (hge : 2 ≤ order)
    {rest : Action ε σ α (Option (Nat × Bool))} {verdict : Option (Nat × Bool)}
    (hrest : ∀ t, Undecided d p order t → ∃ u, rest t = .ok verdict u ∧ Leads d p verdict u)
    (hend : AtStage d p [p.first] (d.integral p order) r)
    (hresults : Holds d p order r.solver.buffers) (hmethod : r.solver.vars.method = order)
    (hlast : (r.solver.vars.lastAbsError, r.solver.vars.lastRelError) = d.lastErrors p order) :
    ∃ t, judge ode order rest r = .ok (d.judgement p order verdict) t ∧
      Leads d p (d.judgement p order verdict) t := by
  have hfound := judged_found hge hend.toUnderway hresults hmethod hlast
  have hjudged : AtStage d p [p.first] (d.integral p order) r.judged := { hend with }
  rw [judge_apply, hend.settings, hfound.tolerable, hfound.hopeless, Dynamics.judgement]
  split_ifs with htolerable hhopeless
  · obtain ⟨t, hrun, hdecided⟩ := accept_ok hode hjudged hresults hfound
    exact ⟨t, run_bind_ok hrun, hdecided⟩
  · obtain ⟨t, hrun, hdecided⟩ := reject_ok (ε := ε) hjudged.toUnderway hresults hfound
    exact ⟨t, run_bind_ok hrun, hdecided⟩
  · refine hrest _ { hjudged.toUnderway with
      results := hresults
      last := ?_
      ended := fun _ => { hjudged with }
      found := fun _ => ⟨hfound.dt, hfound.errors, hfound.estimates⟩ }
    rw [Dynamics.lastErrors, if_neg (by omega)]
    exact hfound.errors

theorem tryOrders_ok (hode : ode.Follows d) {n : Nat} (horder : order + n = RungeKutta.methods)
    (h : Undecided d p order r) :
    ∃ t : SolverRun σ α, tryOrders ode (List.range' (order + 1) n) r =
        .ok (d.verdict p (List.range' (order + 1) n)) t ∧
      Leads d p (d.verdict p (List.range' (order + 1) n)) t := by
  induction n generalizing order r with
  | zero =>
    obtain rfl : order = RungeKutta.methods := horder
    exact ⟨r, rfl, h⟩
  | succ n ih =>
    obtain ⟨t, hrun, hend, hresults, hmethod, hlast⟩ :=
      tryOrder_holds hode (by omega) h.toUnderway h.results
    have hlast' := hlast.trans h.last
    rw [List.range'_succ, tryOrders_cons, run_bind_ok hrun, Dynamics.verdict]
    split_ifs with hlow
    · obtain rfl : order = 0 := by omega
      exact ih (by omega) { hend.toUnderway with
        results := hresults, last := hlast', ended := fun _ => hend, found := nofun }
    · exact judge_ok hode (by omega) (fun u hu => ih (by omega) hu) hend hresults hmethod hlast'

theorem settle_ok (hode : ode.Follows d) {verdict : Option (Nat × Bool)} (h : Leads d p verdict r) :
    ∃ t decision, settle ode verdict r = .ok decision t ∧
      decision = verdict.getD (RungeKutta.methods, atMost p.dt p.settings.relDtMin) ∧
      Decided d p decision.1 decision.2 t := by
  match verdict, h with
  | some (order, accepted), h => exact ⟨r, (order, accepted), rfl, rfl, h⟩
  | none, h =>
    have hend := h.ended (by decide)
    have hfound := h.found (by decide)
    rw [settle_apply, h.dt, h.settings]
    split_ifs with hsmall
    · obtain ⟨t, hrun, hdecided⟩ := accept_ok hode hend h.results hfound
      exact ⟨t, (RungeKutta.methods, true), run_bind_ok hrun,
        congrArg (Prod.mk _) hsmall.symm, hdecided⟩
    · obtain ⟨t, hrun, hdecided⟩ := reject_ok (ε := ε) hend.toUnderway h.results hfound
      exact ⟨t, (RungeKutta.methods, false), run_bind_ok hrun,
        congrArg (Prod.mk _) (eq_false_of_ne_true hsmall).symm, hdecided⟩

/-- A trial is decided as its departure says, whatever an earlier trial has left in the buffers. -/
theorem concludeTrial_ok (hode : ode.Follows d) (h : Underway d p [p.first] r) :
    ∃ t, concludeTrial ode r = .ok () (recorded p.t0 (d.decision p).1 (d.decision p).2 t) ∧
      Decided d p (d.decision p).1 (d.decision p).2 t := by
  have hbegun : Undecided d p 0 (r.withVars SolverVars.beginTrial) :=
    { h with results := ⟨by omega, by omega⟩, last := rfl, ended := nofun, found := nofun }
  obtain ⟨t, htried, hleads⟩ := tryOrders_ok hode (Nat.zero_add RungeKutta.methods) hbegun
  obtain ⟨u, decision, hsettled, hdecision, hdecided⟩ := settle_ok hode hleads
  obtain rfl : decision = d.decision p := hdecision
  refine ⟨u, ?_, hdecided⟩
  rw [← h.t0]
  exact (run_bind_ok htried).trans (run_bind_ok hsettled)

theorem orderErrors_go_ok (hode : ode.Follows d) {n : Nat} (horder : order + n = RungeKutta.methods)
    (h : Underway d p [p.first] r) (hresults : Holds d p order r.solver.buffers) :
    ∃ t, orderErrors.go ode (List.range' (order + 1) n) r =
      .ok (((List.range' (order + 1) n).filter (2 ≤ ·)).map fun m => (d.errors p m).1) t := by
  induction n generalizing order r with
  | zero => exact ⟨r, rfl⟩
  | succ n ih =>
    obtain ⟨t, hrun, hend, hresults, hmethod, -⟩ := tryOrder_holds hode (by omega) h hresults
    rw [List.range'_succ, orderErrors.go, run_bind_ok hrun]
    split_ifs with hlow
    · rw [List.filter_cons_of_neg (by simp only [decide_eq_true_eq]; omega)]
      exact ih (by omega) hend.toUnderway hresults
    · let measured := t.withVars fun v => v.withErrors (errorsOf v.useRelError v.method t)
      have hunderway : Underway d p [p.first] measured := { hend.toUnderway with }
      have herrors : measured.solver.vars.absError = (d.errors p (order + 1)).1 := by
        rw [← hresults.errorsOf_eq (by omega), ← hend.useRelError, ← hmethod]
        rfl
      obtain ⟨u, hgo⟩ := ih (by omega) hunderway hresults
      rw [List.filter_cons_of_pos (by simp only [decide_eq_true_eq]; omega), List.map_cons,
        ← herrors]
      exact ⟨u, run_bind_ok hgo⟩

theorem orderErrors_ok (hode : ode.Follows d) (h : d.Sound r.model) (dt : α) :
    ∃ t, orderErrors ode dt r = .ok ([2, 3, 4].map fun m => (d.errors
      ((r.withVars fun v => { v with useRelError := false }).departure d dt) m).1) t := by
  let sized : SolverRun σ α := r.withVars fun v => { v with dt := dt, useRelError := false }
  obtain ⟨t, hstart, hunderway⟩ := startPoint_ok hode (r := sized) h
  obtain ⟨u, hgo⟩ := orderErrors_go_ok hode (Nat.zero_add RungeKutta.methods) hunderway
    ⟨by omega, by omega⟩
  exact ⟨u, (run_bind_ok hstart).trans hgo⟩

end SolverRun

end ProcessModel
