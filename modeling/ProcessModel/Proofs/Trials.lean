import Mathlib.Tactic.Common
import ProcessModel.Proofs.Outcome
import ProcessModel.Solver.Step

/-! The trials of a step, whatever the numbers are.

Up to its decision a trial changes nothing that the decision is about: its start, its size and the
estimate for the next one. The decision follows from the errors between the last two orders that were
tried. -/

namespace ProcessModel

open Scalar

/-- What a trial leaves alone until it is decided. -/
structure TrialStart (α : Type) where
  settings : Settings α
  trace : List (TrialRecord α)
  t0 : α
  t1 : α
  dt : α
  dtEst : α
  useRelError : Bool
  accepted : Nat

namespace TrialStart

variable {α : Type} [Scalar α]

def accept (c : TrialStart α) : TrialStart α :=
  { c with
    t0 := c.t0 + c.dt
    accepted := c.accepted + 1
    dtEst := if c.settings.acceptsBeforeGrowth ≤ c.accepted + 1 then
      lesser (greater c.dtEst c.dt * c.settings.dtIncrease) c.settings.relDtMax else c.dtEst }

def reject (c : TrialStart α) : TrialStart α :=
  { c with
    accepted := 0
    dtEst := greater (c.dt / c.settings.dtDecrease) c.settings.relDtMin }

def decided (c : TrialStart α) (accepted : Bool) : TrialStart α :=
  if accepted then c.accept else c.reject

variable (c : TrialStart α) (accepted : Bool)

@[simp] theorem decided_settings : (c.decided accepted).settings = c.settings := by
  cases accepted <;> rfl

@[simp] theorem decided_trace : (c.decided accepted).trace = c.trace := by
  cases accepted <;> rfl

@[simp] theorem decided_t1 : (c.decided accepted).t1 = c.t1 := by
  cases accepted <;> rfl

@[simp] theorem decided_dt : (c.decided accepted).dt = c.dt := by
  cases accepted <;> rfl

@[simp] theorem decided_useRelError : (c.decided accepted).useRelError = c.useRelError := by
  cases accepted <;> rfl

end TrialStart

namespace SolverRun

variable {ε σ τ α : Type}

def trialStart (r : SolverRun σ α) : TrialStart α where
  settings := r.solver.settings
  trace := r.solver.trace
  t0 := r.solver.vars.t0
  t1 := r.solver.vars.t1
  dt := r.solver.vars.dt
  dtEst := r.solver.vars.dtEst
  useRelError := r.solver.vars.useRelError
  accepted := r.solver.vars.accepted

def withVars (r : SolverRun σ α) (f : SolverVars α → SolverVars α) : SolverRun σ α :=
  { r with solver := { r.solver with vars := f r.solver.vars } }

def withBuffers (r : SolverRun σ α) (f : SolverBuffers α → SolverBuffers α) : SolverRun σ α :=
  { r with solver := { r.solver with buffers := f r.solver.buffers } }

variable {β : Type} {r : SolverRun σ α}

theorem onModel_ok {action : EStateM (Stop ε) σ β} {b : β} {m : σ} (h : action r.model = .ok b m) :
    onModel action r = .ok b { r with model := m } := by
  simp only [onModel, h]

theorem ask_ok {f : σ → Except ε β} {b : β} (h : f r.model = .ok b) : ask f r = .ok b r := by
  simp only [ask, h]

theorem ask_error {f : σ → Except ε β} {e : ε} (h : f r.model = .error e) :
    ask f r = .error (.failed e) r := by
  simp only [ask, h]

theorem onModel_results (action : EStateM (Stop ε) σ β) (r : SolverRun σ α)
    {Q : β → SolverRun σ α → Prop} {E : Stop ε → SolverRun σ α → Prop}
    (hok : ∀ b m, Q b { r with model := m }) (herror : ∀ e m, E e { r with model := m }) :
    Results Q E (onModel action r) := by
  unfold onModel
  cases action r.model with
  | ok b m => exact hok b m
  | error e m => exact herror e m

/-- A change of the buffers that leaves the flux points and the number of fluxes alone. -/
structure Resizes (f : SolverBuffers α → SolverBuffers α) : Prop where
  points : ∀ b, (f b).fluxPoints = b.fluxPoints
  integrals : ∀ b, (f b).integrals.length = b.integrals.length
  sum : ∀ b, (f b).sum.length = b.sum.length

/-- The fluxes at the end of a stage, as the next flux point. -/
def addPoint (ode : Ode ε σ α) (stage : Nat) : Action ε σ α Unit := do
  singleTerms ode
  let fluxes ← ask ode.fluxes
  changeBuffers fun b => { b with fluxPoints := b.fluxPoints.set stage fluxes }

section Integrals

variable [Scalar α]

/-- The integrals up to a stage, if the flux points have enough components. -/
def stageIntegrals? (order stage : Nat) (r : SolverRun σ α) : Option (List α) :=
  weightedPoints? r.solver.vars.dt (RungeKutta.weights order stage) r.solver.buffers.fluxPoints
    r.solver.buffers.integrals.length

theorem integrateFluxes_apply (order stage : Nat) (r : SolverRun σ α) :
    (integrateFluxes order stage : Action ε σ α Unit) r =
      keepIntegrals (r.stageIntegrals? order stage) r := rfl

theorem integrateFluxes_ok {order stage : Nat} {w : List α}
    (h : r.stageIntegrals? order stage = some w) :
    (integrateFluxes order stage : Action ε σ α Unit) r =
      .ok () (r.withBuffers fun b => { b with integrals := w }) := by
  rw [integrateFluxes_apply, h]
  rfl

theorem integrateFluxes_error {order stage : Nat} (h : r.stageIntegrals? order stage = none) :
    (integrateFluxes order stage : Action ε σ α Unit) r = .error .outOfRange r := by
  rw [integrateFluxes_apply, h]
  rfl

/-- A relation between the actions of two solvers at work that sequences follow and that the actions
of a stage have. -/
structure StageCompares (Rel : (β : Type) → Action ε σ α β → Action ε τ α β → Prop)
    (ode : Ode ε σ α) (ode' : Ode ε τ α) : Prop where
  pure : ∀ {β : Type} (b : β), Rel β (pure b) (pure b)
  bind : ∀ {β γ : Type} {x : Action ε σ α β} {y : Action ε τ α β} {f : β → Action ε σ α γ}
    {g : β → Action ε τ α γ}, Rel β x y → (∀ b, Rel γ (f b) (g b)) → Rel γ (x >>= f) (y >>= g)
  stage : ∀ n, Rel Unit (changeVars fun v => { v with stage := n })
    (changeVars fun v => { v with stage := n })
  integrateFluxes : ∀ order stage,
    Rel Unit (integrateFluxes order stage) (integrateFluxes order stage)
  changeBuffers : ∀ f, Resizes f → Rel Unit (changeBuffers f) (changeBuffers f)
  integrate : ∀ {β : Type} {x : Action ε σ α β} {y : Action ε τ α β}, Rel β x y →
    Rel β (buffers >>= fun b => onModel (ode.setFluxes b.integrals) >>= fun _ => x)
      (buffers >>= fun b => onModel (ode'.setFluxes b.integrals) >>= fun _ => y)
  fullTerms : Rel Unit (onModel ode.fullTerms) (onModel ode'.fullTerms)
  states : Rel (List α) (ask ode.states) (ask ode'.states)
  addPoint : ∀ stage, Rel Unit (addPoint ode stage) (addPoint ode' stage)

end Integrals

section Stages

variable {Rel : (β : Type) → Action ε σ α β → Action ε τ α β → Prop} {ode : Ode ε σ α}
  {ode' : Ode ε τ α}

theorem compares_ite {β : Type} {p : Prop} [Decidable p] {x x' : Action ε σ α β}
    {y y' : Action ε τ α β} (h : Rel β x y) (h' : Rel β x' y') :
    Rel β (if p then x else x') (if p then y else y') := by
  split
  · exact h
  · exact h'

variable [Scalar α]

theorem tryStage_compares (h : StageCompares Rel ode ode') (order stage : Nat) :
    Rel Unit (tryStage ode order stage) (tryStage ode' order stage) := by
  refine h.bind (h.stage stage) fun _ => h.bind (h.integrateFluxes order stage) fun _ => ?_
  refine h.integrate (h.bind h.fullTerms fun _ => h.bind h.states fun states => ?_)
  refine h.bind (h.changeBuffers _ ⟨fun _ => rfl, fun _ => rfl, fun _ => rfl⟩) fun _ => ?_
  exact compares_ite (h.addPoint stage) (h.pure _)

theorem stages_compare (h : StageCompares Rel ode ode') (order : Nat) (stages : List Nat) :
    Rel Unit (stages.forM fun i => tryStage ode order (i + 1))
      (stages.forM fun i => tryStage ode' order (i + 1)) := by
  induction stages with
  | nil => exact h.pure _
  | cons i rest ih => exact h.bind (tryStage_compares h order (i + 1)) fun _ => ih

end Stages

/-- A property that the evaluation of orders does not touch. -/
structure Untouched (P : SolverRun σ α → Prop) : Prop where
  model : ∀ r m, P r → P { r with model := m }
  buffers : ∀ r f, P r → P (r.withBuffers f)
  calls : ∀ r n, P r → P (r.withVars fun v => { v with calls := n })
  stage : ∀ r n, P r → P (r.withVars fun v => { v with stage := n })
  startReady : ∀ r b, P r → P (r.withVars fun v => { v with startReady := b })

section Untouched

variable {P : SolverRun σ α → Prop}

theorem onModel_keeps (hP : Untouched P) {β : Type} (action : EStateM (Stop ε) σ β) :
    Keeps P (fun _ => True) (onModel (α := α) action) fun _ => True := by
  intro r hr
  exact onModel_results action r (fun b m => ⟨hP.model r m hr, trivial⟩)
    fun e m => ⟨hP.model r m hr, trivial⟩

theorem ask_keeps {β : Type} (f : σ → Except ε β) :
    Keeps P (fun _ => True) (ask (α := α) f) fun _ => True := by
  intro r hr
  unfold ask
  cases f r.model with
  | ok b => exact ⟨hr, trivial⟩
  | error e => exact ⟨hr, trivial⟩

theorem changeVars_keeps {f : SolverVars α → SolverVars α} (h : ∀ r, P r → P (r.withVars f)) :
    Keeps P (fun _ => True) (changeVars f : Action ε σ α Unit) fun _ => True :=
  fun r hr => ⟨h r hr, trivial⟩

theorem changeBuffers_keeps (hP : Untouched P) (f : SolverBuffers α → SolverBuffers α) :
    Keeps P (fun _ => True) (changeBuffers f : Action ε σ α Unit) fun _ => True :=
  fun r hr => ⟨hP.buffers r f hr, trivial⟩

theorem vars_keeps : Keeps P (fun _ => True) (vars : Action ε σ α (SolverVars α)) fun _ => True :=
  fun _ hr => ⟨hr, trivial⟩

theorem buffers_keeps :
    Keeps P (fun _ => True) (buffers : Action ε σ α (SolverBuffers α)) fun _ => True :=
  fun _ hr => ⟨hr, trivial⟩

variable (ode : Ode ε σ α)

theorem singleTerms_keeps (hP : Untouched P) :
    Keeps P (fun _ => True) (singleTerms ode) fun _ => True :=
  keeps_bind (changeVars_keeps fun r hr => hP.calls r _ hr) fun _ _ => onModel_keeps hP _

theorem addPoint_keeps (hP : Untouched P) (stage : Nat) :
    Keeps P (fun _ => True) (addPoint ode stage) fun _ => True :=
  keeps_bind (singleTerms_keeps ode hP) fun _ _ => keeps_bind (ask_keeps _) fun _ _ =>
    changeBuffers_keeps hP _

variable [Scalar α]

theorem integrateFluxes_keeps (hP : Untouched P) (order stage : Nat) :
    Keeps P (fun _ => True) (integrateFluxes order stage : Action ε σ α Unit) fun _ => True := by
  intro r hr
  cases h : r.stageIntegrals? order stage with
  | some w =>
    rw [integrateFluxes_ok h]
    exact ⟨hP.buffers r _ hr, trivial⟩
  | none =>
    rw [integrateFluxes_error h]
    exact ⟨hr, trivial⟩

theorem stageCompares_keeps (hP : Untouched P) :
    StageCompares (fun _ x _ => Keeps P (fun _ => True) x fun _ => True) ode ode where
  pure _ := keeps_pure trivial
  bind hx hf := keeps_bind hx fun b _ => hf b
  stage n := changeVars_keeps fun r hr => hP.stage r n hr
  integrateFluxes order stage := integrateFluxes_keeps hP order stage
  changeBuffers f _ := changeBuffers_keeps hP f
  integrate hx := keeps_bind buffers_keeps fun _ _ => keeps_bind (onModel_keeps hP _) fun _ _ => hx
  fullTerms := onModel_keeps hP _
  states := ask_keeps _
  addPoint := addPoint_keeps ode hP

theorem startPoint_keeps (hP : Untouched P) :
    Keeps P (fun _ => True) (startPoint ode) fun _ => True := by
  refine keeps_bind (singleTerms_keeps ode hP) fun _ _ => ?_
  refine keeps_bind (ask_keeps _) fun fluxes _ => keeps_bind (ask_keeps _) fun states _ => ?_
  refine keeps_bind (changeBuffers_keeps hP _) fun _ _ => changeVars_keeps fun r hr => ?_
  exact hP.startReady _ true (hP.stage r 0 hr)

end Untouched

variable {c : TrialStart α}

/-- A failure leaves the records of the trials before. -/
def Unrecorded (c : TrialStart α) (_ : Stop ε) (r : SolverRun σ α) : Prop :=
  r.solver.settings = c.settings ∧ r.solver.trace = c.trace

theorem unrecorded_of_trialStart {e : Stop ε} (h : r.trialStart = c) : Unrecorded c e r := by
  subst h
  exact ⟨rfl, rfl⟩

theorem untouched_trialStart : Untouched fun r : SolverRun σ α => r.trialStart = c where
  model _ _ h := h
  buffers _ _ h := h
  calls _ _ h := h
  stage _ _ h := h
  startReady _ _ h := h

variable {order : Nat}

theorem untouched_method :
    Untouched fun r : SolverRun σ α => r.trialStart = c ∧ r.solver.vars.method = order where
  model _ _ h := h
  buffers _ _ h := h
  calls _ _ h := h
  stage _ _ h := h
  startReady _ _ h := h

variable [Scalar α] {ode : Ode ε σ α}

def errorsOf (useRel : Bool) (order : Nat) (r : SolverRun σ α) : α × α :=
  let results := r.solver.buffers.fluxResults
  resultErrors useRel (results[order]?.getD []) (results[order - 1]?.getD [])

/-- The errors of a trial are those of its latest order. -/
structure Tried (c : TrialStart α) (order : Nat) (r : SolverRun σ α) : Prop where
  start : r.trialStart = c
  method : r.solver.vars.method = order
  errors : (r.solver.vars.absError, r.solver.vars.relError) = errorsOf c.useRelError order r

theorem tryOrder_results (order : Nat) (hr : r.trialStart = c) :
    Results (fun _ t => t.trialStart = c ∧ t.solver.vars.method = order) (Unrecorded c)
      (tryOrder ode order r) := by
  have hrest : Keeps (fun t : SolverRun σ α => t.trialStart = c ∧ t.solver.vars.method = order)
      (fun _ => True) (do
        (List.range order).forM fun i => tryStage ode order (i + 1)
        let states ← ask ode.states
        changeBuffers fun b =>
          { b with
            fluxResults := b.fluxResults.set order b.integrals
            stateResults := b.stateResults.set order states }) fun _ => True := by
    refine keeps_bind (stages_compare (stageCompares_keeps ode untouched_method) order _) fun _ _ => ?_
    exact keeps_bind (ask_keeps _) fun _ _ => changeBuffers_keeps untouched_method _
  have hset : (r.withVars fun v => { v with method := order }).trialStart = c := hr
  exact Results.bind ((hrest.results ⟨hset, rfl⟩).mono (fun _ _ h => h)
    fun e t h => unrecorded_of_trialStart h.1)

theorem accept_results (h : Tried c order r) :
    Results (fun _ t => Tried c.accept order t ∧ t.solver.vars.absError = r.solver.vars.absError ∧
      t.solver.vars.relError = r.solver.vars.relError) (Unrecorded c) (accept ode r) := by
  obtain ⟨rfl, hmethod, herrors⟩ := h
  let summed : SolverRun σ α := (r.withBuffers fun b =>
    { b with sum := (b.sum.zip b.integrals).map (fun p => p.1 + p.2) ++
        b.sum.drop b.integrals.length }).withVars fun v => { v with t0 := v.t0 + v.dt }
  change Results _ _ ((onModel ode.newToOld >>= fun _ => settings >>= fun s =>
    changeVars fun v => v.accept s) summed)
  exact Results.bind (onModel_results _ summed (fun _ m => ⟨⟨rfl, hmethod, herrors⟩, rfl, rfl⟩)
    fun e m => ⟨rfl, rfl⟩)

theorem reject_results (h : Tried c order r) :
    Results (fun _ t => Tried c.reject order t ∧ t.solver.vars.absError = r.solver.vars.absError)
      (Unrecorded c) ((reject : Action ε σ α Unit) r) := by
  obtain ⟨rfl, hmethod, herrors⟩ := h
  exact ⟨⟨rfl, hmethod, herrors⟩, rfl⟩

def judged (r : SolverRun σ α) : SolverRun σ α :=
  (r.withVars fun v => v.withErrors (errorsOf v.useRelError v.method r)).withVars
    SolverVars.withEstimates

theorem judged_tried (hr : r.trialStart = c) (hmethod : r.solver.vars.method = order) :
    Tried c order r.judged := by
  subst hr hmethod
  exact ⟨rfl, rfl, rfl⟩

/-- What the orders of a trial lead to: the trial is accepted at an order with tolerable errors,
rejected at an order that leaves no hope, or undecided after the last order. -/
def Verdict (c : TrialStart α) (os : List Nat) : Option (Nat × Bool) → SolverRun σ α → Prop
  | some (order, true), t => order ∈ os ∧ 2 ≤ order ∧ Tried c.accept order t ∧
      t.solver.vars.tolerable c.settings = true
  | some (order, false), t => order ∈ os ∧ 2 ≤ order ∧ Tried c.reject order t ∧
      less c.settings.relDtMin c.dt = true ∧ ∃ last, less c.settings.absErrorMax
        (extrapolate t.solver.vars.absError last RungeKutta.methods order) = true
  | none, t => t.trialStart = c ∧ ∀ order, os.getLast? = some order → 2 ≤ order → Tried c order t

variable {t : SolverRun σ α}

theorem Verdict.cons {os : List Nat} {d : Option (Nat × Bool)} (h : Verdict c os d t)
    (hlast : os = [] → 2 ≤ order → Tried c order t) : Verdict c (order :: os) d t := by
  match d, h with
  | some (_, true), ⟨hmem, h⟩ => exact ⟨List.mem_cons_of_mem _ hmem, h⟩
  | some (_, false), ⟨hmem, h⟩ => exact ⟨List.mem_cons_of_mem _ hmem, h⟩
  | none, ⟨hstart, h⟩ =>
    refine ⟨hstart, fun last hgot hge => ?_⟩
    cases os with
    | nil =>
      cases hgot
      exact hlast rfl hge
    | cons next rest => exact h last (by simpa using hgot) hge

/-- What follows an order from the second on: accept, reject or go on with `rest`. -/
def judge (ode : Ode ε σ α) (order : Nat) (rest : Action ε σ α (Option (Nat × Bool))) :
    Action ε σ α (Option (Nat × Bool)) := do
  measureErrors
  changeVars SolverVars.withEstimates
  let s ← settings
  if (← vars).tolerable s then
    accept ode
    return some (order, true)
  else if (← vars).hopeless s then
    reject
    return some (order, false)
  else
    changeVars SolverVars.keepErrors
    rest

theorem tryOrders_cons (order : Nat) (rest : List Nat) :
    tryOrders ode (order :: rest) = tryOrder ode order >>= fun _ =>
      if order < 2 then tryOrders ode rest else judge ode order (tryOrders ode rest) := rfl

theorem judge_apply (order : Nat) (rest : Action ε σ α (Option (Nat × Bool)))
    (r : SolverRun σ α) :
    judge ode order rest r =
      if r.judged.solver.vars.tolerable r.solver.settings then
        (do accept ode; return some (order, true) : Action ε σ α (Option (Nat × Bool))) r.judged
      else if r.judged.solver.vars.hopeless r.solver.settings then
        (do reject; return some (order, false) : Action ε σ α (Option (Nat × Bool))) r.judged
      else rest (r.judged.withVars SolverVars.keepErrors) := by
  by_cases htolerable : r.judged.solver.vars.tolerable r.solver.settings
  · rw [if_pos htolerable]
    exact congrFun (if_pos htolerable) r.judged
  · rw [if_neg htolerable]
    by_cases hhopeless : r.judged.solver.vars.hopeless r.solver.settings
    · rw [if_pos hhopeless]
      exact (congrFun (if_neg htolerable) r.judged).trans (congrFun (if_pos hhopeless) r.judged)
    · rw [if_neg hhopeless]
      exact (congrFun (if_neg htolerable) r.judged).trans (congrFun (if_neg hhopeless) r.judged)

theorem judge_results {os : List Nat} (hge : 2 ≤ order) {rest : Action ε σ α (Option (Nat × Bool))}
    (hr : r.trialStart = c) (hmethod : r.solver.vars.method = order)
    (hrest : ∀ t : SolverRun σ α, Tried c order t →
      Results (Verdict c (order :: os)) (Unrecorded c) (rest t)) :
    Results (Verdict c (order :: os)) (Unrecorded c) (judge ode order rest r) := by
  have htried := judged_tried hr hmethod
  subst hr
  rw [judge_apply]
  split_ifs with htolerable hhopeless
  · refine (accept_results htried).andThen fun _ t h => ?_
    refine ⟨List.mem_cons_self, hge, h.1, ?_⟩
    rw [SolverVars.tolerable, h.2.1, h.2.2]
    exact htolerable
  · refine (reject_results htried).andThen fun _ t h => ?_
    simp only [SolverVars.hopeless, Bool.and_eq_true] at hhopeless
    refine ⟨List.mem_cons_self, hge, h.1, hhopeless.1.1, r.solver.vars.lastAbsError, ?_⟩
    rw [h.2, ← hmethod]
    exact hhopeless.1.2
  · exact hrest _ ⟨htried.start, htried.method, htried.errors⟩

theorem tryOrders_results (os : List Nat) (hr : r.trialStart = c) :
    Results (Verdict c os) (Unrecorded c) (tryOrders ode os r) := by
  induction os generalizing r with
  | nil => exact ⟨hr, nofun⟩
  | cons order rest ih =>
    rw [tryOrders_cons]
    refine (tryOrder_results order hr).andThen fun _ t ht => ?_
    obtain ⟨hstart, hmethod⟩ := ht
    split_ifs with hlow
    · exact (ih hstart).mono (fun d t' h => h.cons fun _ hge => absurd hlow (by omega))
        fun _ _ h => h
    · refine judge_results (Nat.not_lt.1 hlow) hstart hmethod fun t' htried => ?_
      cases rest with
      | nil =>
        refine ⟨htried.start, fun last hlast _ => ?_⟩
        cases hlast
        exact htried
      | cons next others =>
        exact (ih htried.start).mono (fun d t'' h => h.cons nofun) fun _ _ h => h

/-- How a trial ends: with its order and its decision. -/
structure Judged (c : TrialStart α) (order : Nat) (accepted : Bool) (r : SolverRun σ α) : Prop where
  orders : 2 ≤ order ∧ order ≤ RungeKutta.methods
  tried : Tried (c.decided accepted) order r
  grounds : accepted = true → r.solver.vars.tolerable c.settings = true ∨
    order = RungeKutta.methods ∧ atMost c.dt c.settings.relDtMin = true
  doubts : accepted = false →
    (less c.settings.relDtMin c.dt = true ∧ ∃ last, less c.settings.absErrorMax
      (extrapolate r.solver.vars.absError last RungeKutta.methods order) = true) ∨
    order = RungeKutta.methods ∧ atMost c.dt c.settings.relDtMin = false

theorem settle_apply (ode : Ode ε σ α) (r : SolverRun σ α) :
    settle ode none r = if atMost r.solver.vars.dt r.solver.settings.relDtMin then
        (do accept ode; return (RungeKutta.methods, true) : Action ε σ α (Nat × Bool)) r
      else (do reject; return (RungeKutta.methods, false) : Action ε σ α (Nat × Bool)) r := by
  by_cases hsmall : atMost r.solver.vars.dt r.solver.settings.relDtMin
  · rw [if_pos hsmall]
    exact congrFun (if_pos hsmall) r
  · rw [if_neg hsmall]
    exact congrFun (if_neg hsmall) r

theorem settle_results {d : Option (Nat × Bool)} (h : Verdict c orders d r) :
    Results (fun decision t => Judged c decision.1 decision.2 t) (Unrecorded c)
      (settle ode d r) := by
  have hle {order : Nat} (hmem : order ∈ orders) : order ≤ RungeKutta.methods := by
    obtain ⟨i, hi, rfl⟩ := List.mem_map.1 hmem
    exact List.mem_range.1 hi
  match d, h with
  | some (order, true), ⟨hmem, hge, htried, htolerable⟩ =>
    exact ⟨⟨hge, hle hmem⟩, htried, fun _ => .inl htolerable, nofun⟩
  | some (order, false), ⟨hmem, hge, htried, hgrounds⟩ =>
    exact ⟨⟨hge, hle hmem⟩, htried, nofun, fun _ => .inl hgrounds⟩
  | none, ⟨hstart, hlast⟩ =>
    have htried := hlast RungeKutta.methods rfl (by decide)
    subst hstart
    rw [settle_apply]
    split_ifs with hsmall
    · refine (accept_results htried).andThen fun _ t ht => ?_
      exact ⟨⟨by decide, Nat.le_refl _⟩, ht.1, fun _ => .inr ⟨rfl, hsmall⟩, nofun⟩
    · refine (reject_results htried).andThen fun _ t ht => ?_
      exact ⟨⟨by decide, Nat.le_refl _⟩, ht.1, nofun,
        fun _ => .inr ⟨rfl, eq_false_of_ne_true hsmall⟩⟩

def beginning (r : SolverRun σ α) : TrialStart α :=
  { r.trialStart with dt := r.solver.vars.nextDt r.solver.settings }

def recorded (t0 : α) (order : Nat) (accepted : Bool) (t : SolverRun σ α) : SolverRun σ α :=
  let v := t.solver.vars
  { t with solver := { t.solver with
      trace := t.solver.trace ++ [⟨t0, v.dt, order, accepted, v.absError, v.dtEst⟩] } }

/-- A trial from where its size and its start are known. -/
def concludeTrial (ode : Ode ε σ α) : Action ε σ α Unit := do
  changeVars SolverVars.beginTrial
  let t0 := (← vars).t0
  let decision ← settle ode (← tryOrders ode orders)
  modify (recorded t0 decision.1 decision.2)

theorem trial_apply (r : SolverRun σ α) :
    trial ode r = (if !r.solver.vars.startReady then startPoint ode >>= fun _ => concludeTrial ode
      else concludeTrial ode)
      (r.withVars fun v => { v with dt := v.nextDt r.solver.settings }) := rfl

/-- A trial is decided and recorded, or a failure of the model ends it. -/
theorem trial_results (ode : Ode ε σ α) (r : SolverRun σ α) :
    Results (fun _ r' => ∃ order accepted t, Judged r.beginning order accepted t ∧
        r' = recorded r.solver.vars.t0 order accepted t)
      (Unrecorded r.beginning) (trial ode r) := by
  have hconclude (t : SolverRun σ α) (ht : t.trialStart = r.beginning) :
      Results (fun _ r' => ∃ order accepted t, Judged r.beginning order accepted t ∧
          r' = recorded r.solver.vars.t0 order accepted t)
        (Unrecorded r.beginning) (concludeTrial ode t) := by
    have ht0 : t.solver.vars.t0 = r.solver.vars.t0 := congrArg TrialStart.t0 ht
    have hbegun : (t.withVars SolverVars.beginTrial).trialStart = r.beginning := ht
    change Results _ _ ((tryOrders ode orders >>= fun d => settle ode d >>= fun decision =>
      modify (recorded t.solver.vars.t0 decision.1 decision.2)) (t.withVars SolverVars.beginTrial))
    refine (tryOrders_results orders hbegun).andThen fun d t' h => ?_
    refine (settle_results h).andThen fun decision t'' h' => ?_
    exact ⟨decision.1, decision.2, t'', h', congrArg (recorded · _ _ t'') ht0⟩
  rw [trial_apply]
  split
  · have hready := (startPoint_keeps ode (untouched_trialStart (c := r.beginning))).results
      (s := r.withVars fun v => { v with dt := v.nextDt r.solver.settings }) rfl
    exact Results.bind (hready.mono (fun _ t ht => hconclude t ht)
      fun _ _ h => unrecorded_of_trialStart h)
  · exact hconclude _ rfl

theorem trial_ok {r' : SolverRun σ α} (h : trial ode r = .ok () r') :
    ∃ order accepted t, Judged r.beginning order accepted t ∧
      r' = recorded r.solver.vars.t0 order accepted t := by
  have hr := trial_results ode r
  rw [h] at hr
  exact hr

theorem trace_of_trial_ok {r' : SolverRun σ α} (h : trial ode r = .ok () r') :
    ∃ entry, r'.solver.trace = r.solver.trace ++ [entry] := by
  obtain ⟨order, accepted, t, hjudged, rfl⟩ := trial_ok h
  have htrace := congrArg TrialStart.trace hjudged.tried.start
  rw [TrialStart.decided_trace] at htrace
  exact ⟨_, congrArg (· ++ _) htrace⟩

def stepStart (n : Nat) (r : SolverRun σ α) : SolverRun σ α :=
  { r with solver := { r.solver with
      trace := []
      vars := r.solver.vars.startStep r.solver.settings
      buffers := { r.solver.buffers with sum := List.replicate n zero } } }

/-- The states of a step from `r` that no trial is under way in. -/
inductive Course (ode : Ode ε σ α) (r : SolverRun σ α) : SolverRun σ α → Prop
  | start {fluxes : List α} (h : ode.fluxes r.model = .ok fluxes) :
      Course ode r (r.stepStart fluxes.length)
  | trial {t t' : SolverRun σ α} (h : Course ode r t) (hleft : t.solver.vars.unfinished = true)
      (hran : trial ode t = .ok () t') : Course ode r t'

theorem trials_done (hdone : t.solver.vars.unfinished = false) (bound : Nat) :
    trials ode bound t = .ok () t := by
  cases bound with
  | zero => exact congrFun (if_neg (ne_true_of_eq_false hdone)) t
  | succ bound => exact congrFun (if_neg (ne_true_of_eq_false hdone)) t

theorem trials_zero (hleft : t.solver.vars.unfinished = true) :
    trials ode 0 t = .error .exhausted t :=
  congrFun (if_pos hleft) t

theorem trials_succ (hleft : t.solver.vars.unfinished = true) (bound : Nat) :
    trials ode (bound + 1) t = (trial ode >>= fun _ => trials ode bound) t :=
  congrFun (if_pos hleft) t

theorem trials_results (bound : Nat) (h : Course ode r t) :
    Results (fun _ last => Course ode r last ∧ last.solver.vars.unfinished = false)
      (fun _ u => ∃ last, Course ode r last ∧ u.solver.trace = last.solver.trace)
      (trials ode bound t) := by
  induction bound generalizing t <;> cases hleft : t.solver.vars.unfinished
  case zero.false | succ.false =>
    rw [trials_done hleft]
    exact ⟨h, hleft⟩
  case zero.true =>
    rw [trials_zero hleft]
    exact ⟨t, h, rfl⟩
  case succ.true bound ih =>
    rw [trials_succ hleft]
    refine Results.bind ?_
    have hresult := trial_results ode t
    cases hran : trial ode t with
    | ok u t' => exact ih (h.trial hleft hran)
    | error e t' =>
      rw [hran] at hresult
      exact ⟨t, h, hresult.2⟩

/-- A solver that opens a step and does not yet know the number of fluxes. -/
def opened (r : SolverRun σ α) : SolverRun σ α :=
  { r with solver := { r.solver with
      trace := [], vars := r.solver.vars.startStep r.solver.settings } }

theorem solve_apply (ode : Ode ε σ α) (bound : Nat) (r : SolverRun σ α) :
    solve ode bound r = (ask ode.fluxes >>= fun fluxes =>
      changeBuffers (fun b => { b with sum := List.replicate fluxes.length zero }) >>= fun _ =>
      trials ode bound >>= fun _ => buffers >>= fun b => onModel (ode.setFluxes b.sum)) r.opened :=
  rfl

theorem solve_ok {fluxes : List α} (h : ode.fluxes r.model = .ok fluxes) (bound : Nat) :
    solve ode bound r = (trials ode bound >>= fun _ => buffers >>= fun b =>
      onModel (ode.setFluxes b.sum)) (r.stepStart fluxes.length) := by
  rw [solve_apply]
  exact run_bind_ok (ask_ok (r := r.opened) h)

theorem solve_error {e : ε} (h : ode.fluxes r.model = .error e) (bound : Nat) :
    solve ode bound r = .error (.failed e) r.opened := by
  rw [solve_apply]
  exact run_bind_error (ask_error (r := r.opened) h)

/-- A completed step leaves the solver as the last trial left it; the records of a failed one are
those of the trials before. -/
theorem solve_results (bound : Nat) (r : SolverRun σ α) :
    Results (fun _ r' => ∃ last, Course ode r last ∧ last.solver.vars.unfinished = false ∧
        r'.solver = last.solver)
      (fun _ r' => r'.solver.trace = [] ∨
        ∃ last, Course ode r last ∧ r'.solver.trace = last.solver.trace)
      (solve ode bound r) := by
  cases hfluxes : ode.fluxes r.model with
  | error e =>
    rw [solve_error hfluxes]
    exact .inl rfl
  | ok fluxes =>
    rw [solve_ok hfluxes]
    refine Results.bind ((trials_results bound (.start hfluxes)).mono (fun _ last h => ?_)
      fun _ _ h => .inr h)
    exact onModel_results _ last (fun _ m => ⟨last, h.1, h.2, rfl⟩)
      fun _ m => .inr ⟨last, h.1, rfl⟩

/-- A relation that all actions of a step have, too. -/
structure StepCompares (Rel : (β : Type) → Action ε σ α β → Action ε τ α β → Prop)
    (ode : Ode ε σ α) (ode' : Ode ε τ α) : Prop extends StageCompares Rel ode ode' where
  vars : Rel _ vars vars
  buffers : Rel _ buffers buffers
  settings : Rel _ settings settings
  changeVars : ∀ f, (∀ v, (f v).calls = v.calls) → Rel Unit (changeVars f) (changeVars f)
  singleTerms : Rel Unit (singleTerms ode) (singleTerms ode')
  fluxes : Rel (List α) (ask ode.fluxes) (ask ode'.fluxes)
  newToOld : Rel Unit (onModel ode.newToOld) (onModel ode'.newToOld)
  record : ∀ t0 order accepted, Rel Unit (modify (recorded t0 order accepted))
    (modify (recorded t0 order accepted))

section Steps

variable {Rel : (β : Type) → Action ε σ α β → Action ε τ α β → Prop} {ode' : Ode ε τ α}

variable (h : StepCompares Rel ode ode')
include h

theorem tryOrder_compares (order : Nat) : Rel Unit (tryOrder ode order) (tryOrder ode' order) := by
  refine h.bind (h.changeVars _ fun _ => rfl) fun _ => ?_
  refine h.bind (stages_compare h.toStageCompares order _) fun _ => h.bind h.states fun states => ?_
  exact h.changeBuffers _ ⟨fun _ => rfl, fun _ => rfl, fun _ => rfl⟩

theorem measureErrors_compares : Rel Unit measureErrors measureErrors :=
  h.bind h.buffers fun _ => h.changeVars _ fun _ => rfl

theorem accept_compares : Rel Unit (accept ode) (accept ode') := by
  refine h.bind (h.changeBuffers _ ⟨fun _ => rfl, fun _ => rfl, fun b => by simp; omega⟩) fun _ => ?_
  refine h.bind (h.changeVars _ fun _ => rfl) fun _ => h.bind h.newToOld fun _ => ?_
  exact h.bind h.settings fun s => h.changeVars _ fun _ => rfl

theorem reject_compares : Rel Unit reject reject :=
  h.bind h.settings fun _ => h.changeVars _ fun _ => rfl

theorem judge_compares (order : Nat) {rest : Action ε σ α (Option (Nat × Bool))}
    {rest' : Action ε τ α (Option (Nat × Bool))} (hrest : Rel _ rest rest') :
    Rel _ (judge ode order rest) (judge ode' order rest') := by
  refine h.bind (measureErrors_compares h) fun _ => h.bind (h.changeVars _ fun _ => rfl) fun _ => ?_
  refine h.bind h.settings fun s => h.bind h.vars fun v => ?_
  refine compares_ite (h.bind (accept_compares h) fun _ => h.pure _) (h.bind h.vars fun v => ?_)
  refine compares_ite (h.bind (reject_compares h) fun _ => h.pure _) ?_
  exact h.bind (h.changeVars _ fun _ => rfl) fun _ => hrest

theorem tryOrders_compare (os : List Nat) : Rel _ (tryOrders ode os) (tryOrders ode' os) := by
  induction os with
  | nil => exact h.pure _
  | cons order rest ih =>
    rw [tryOrders_cons, tryOrders_cons]
    exact h.bind (tryOrder_compares h order) fun _ => compares_ite ih (judge_compares h order ih)

theorem settle_compares (d : Option (Nat × Bool)) : Rel _ (settle ode d) (settle ode' d) := by
  cases d with
  | some decision => exact h.pure _
  | none =>
    refine h.bind h.vars fun v => h.bind h.settings fun s => ?_
    refine compares_ite (h.bind (accept_compares h) fun _ => h.pure _) ?_
    exact h.bind (reject_compares h) fun _ => h.pure _

theorem concludeTrial_compares : Rel Unit (concludeTrial ode) (concludeTrial ode') := by
  refine h.bind (h.changeVars _ fun _ => rfl) fun _ => h.bind h.vars fun v => ?_
  refine h.bind (tryOrders_compare h _) fun d => h.bind (settle_compares h d) fun decision => ?_
  exact h.record _ _ _

theorem startPoint_compares (hclear : ∀ f, Rel Unit (changeBuffers f) (changeBuffers f)) :
    Rel Unit (startPoint ode) (startPoint ode') := by
  refine h.bind h.singleTerms fun _ => h.bind h.fluxes fun fluxes => ?_
  refine h.bind h.states fun states => h.bind (hclear _) fun _ => h.changeVars _ fun _ => rfl

theorem trial_compares (hclear : ∀ f, Rel Unit (changeBuffers f) (changeBuffers f)) :
    Rel Unit (trial ode) (trial ode') := by
  refine h.bind h.settings fun s => h.bind (h.changeVars _ fun _ => rfl) fun _ => ?_
  refine h.bind h.vars fun v => ?_
  have hstart : Rel Unit (startPoint ode >>= fun _ => concludeTrial ode)
      (startPoint ode' >>= fun _ => concludeTrial ode') :=
    h.bind (startPoint_compares h hclear) fun _ => concludeTrial_compares h
  exact compares_ite hstart (concludeTrial_compares h)

theorem trials_compare (hclear : ∀ f, Rel Unit (changeBuffers f) (changeBuffers f))
    (hexhausted : Rel Unit (throw .exhausted) (throw .exhausted)) (bound : Nat) :
    Rel Unit (trials ode bound) (trials ode' bound) := by
  induction bound with
  | zero => exact h.bind h.vars fun v => compares_ite hexhausted (h.pure _)
  | succ bound ih =>
    refine h.bind h.vars fun v => compares_ite ?_ (h.pure _)
    exact h.bind (trial_compares h hclear) fun _ => ih

end Steps

theorem Course.records {last : SolverRun σ α} (h : Course ode r last) :
    ∀ entry ∈ last.solver.trace, ∃ before after, Course ode r before ∧
      before.solver.vars.unfinished = true ∧ SolverRun.trial ode before = .ok () after ∧
      after.solver.trace = before.solver.trace ++ [entry] ∧
      after.solver.trace <+: last.solver.trace := by
  induction h with
  | start h => nofun
  | trial h hleft hran ih =>
    intro entry hentry
    obtain ⟨latest, hlatest⟩ := trace_of_trial_ok hran
    rw [hlatest] at hentry
    rcases List.mem_append.1 hentry with hearlier | hnow
    · obtain ⟨before, after, hcourse, hleft', hran', hrecord, hinit⟩ := ih entry hearlier
      refine ⟨before, after, hcourse, hleft', hran', hrecord, ?_⟩
      rw [hlatest]
      exact hinit.trans (List.prefix_append _ _)
    · obtain rfl := List.mem_singleton.1 hnow
      exact ⟨_, _, h, hleft, hran, hlatest, List.prefix_rfl⟩

end SolverRun

end ProcessModel
