import ProcessModel.Proofs.Decisions
import ProcessModel.Proofs.Verdicts

/-! Rejected trials leave no trace.

Trials that are rejected keep the first flux point and the old states, and these, with the size of
the trial, are all that the next one depends on. -/

namespace ProcessModel

open Scalar

namespace SolverRun

variable {ε σ ν α : Type} {ode : Ode ε σ α} {d : Dynamics σ ν α} {p : Departure ν α}

theorem getLast?_recorded (t0 : α) (order : Nat) (accepted : Bool) (t : SolverRun σ α) :
    (recorded t0 order accepted t).solver.trace.getLast? = some {
      t0, dtEst := t.solver.vars.dtEst, dt := t.solver.vars.dt, order,
      absError := t.solver.vars.absError, accepted } :=
  List.getLast?_concat

variable [Scalar α]

def freshTrial (ode : Ode ε σ α) (dt : α) : Action ε σ α Unit := do
  changeVars fun v => { v with dt := dt }
  startPoint ode
  concludeTrial ode

/-- The end of a trial with departure `p`, decided and recorded. -/
def DecidedBy (d : Dynamics σ ν α) (p : Departure ν α) (r : SolverRun σ α) : Prop :=
  ∃ t, Decided d p (d.decision p).1 (d.decision p).2 t ∧
    r = recorded p.t0 (d.decision p).1 (d.decision p).2 t

variable {r : SolverRun σ α}

theorem freshTrial_ok (hode : ode.Follows d) (h : d.Sound r.model) (dt : α) :
    ∃ t, freshTrial ode dt r = .ok () t ∧ DecidedBy d (r.departure d dt) t := by
  let sized : SolverRun σ α := r.withVars fun v => { v with dt := dt }
  obtain ⟨t, hstart, hunderway⟩ := startPoint_ok hode (r := sized) h
  obtain ⟨u, hrun, hdecided⟩ := concludeTrial_ok hode hunderway
  exact ⟨_, (run_bind_ok hstart).trans hrun, u, hdecided, rfl⟩

/-- A solver between two trials of which the next departs from `start`: there it stands, or the
first flux point of `start` is known. -/
structure Poised (d : Dynamics σ ν α) (start now : SolverRun σ α) : Prop where
  sound : d.Sound start.model
  sum : start.solver.buffers.sum.length = d.size
  stands : now = start ∧ start.solver.vars.startReady = false ∨
    now.solver.vars.startReady = true ∧
      ∃ dt, Underway d (start.departure d dt) [(start.departure d dt).first] now

variable {start now : SolverRun σ α}

theorem Poised.sound_now (h : Poised d start now) : d.Sound now.model := by
  obtain ⟨rfl, -⟩ | ⟨-, dt, hunderway⟩ := h.stands
  · exact h.sound
  · exact hunderway.sound

theorem Poised.length_sum (h : Poised d start now) : now.solver.buffers.sum.length = d.size := by
  obtain ⟨rfl, -⟩ | ⟨-, dt, hunderway⟩ := h.stands
  · exact h.sum
  · exact (congrArg List.length hunderway.sum).trans (length_fittingSum _ _)

theorem Poised.trial_ok (hode : ode.Follows d) (h : Poised d start now) :
    ∃ t, trial ode now = .ok () t ∧
      DecidedBy d (start.departure d (now.solver.vars.nextDt now.solver.settings)) t := by
  obtain ⟨rfl, hready⟩ | ⟨hready, dt, hunderway⟩ := h.stands
  · obtain ⟨t, hrun, hdecided⟩ := freshTrial_ok hode h.sound
      (now.solver.vars.nextDt now.solver.settings)
    refine ⟨t, ?_, hdecided⟩
    rw [trial_apply, hready]
    exact hrun
  · -- The point is known: only the size changes, and what the rejected trial has left is not read.
    have hsized : Underway d (start.departure d (now.solver.vars.nextDt now.solver.settings)) _
        (now.withVars fun v => { v with dt := v.nextDt now.solver.settings }) :=
      { hunderway with dt := rfl }
    obtain ⟨t, hrun, hdecided⟩ := concludeTrial_ok hode hsized
    refine ⟨_, ?_, t, hdecided, rfl⟩
    rw [trial_apply, hready]
    exact hrun

/-- Where a step from `r` stands between its trials: `start` is where it has begun or where its
latest accepted trial has ended, and the trials from there to `now` are rejected. -/
inductive Retries (ode : Ode ε σ α) (r : SolverRun σ α) : SolverRun σ α → SolverRun σ α → Prop
  | start {fluxes : List α} (h : ode.fluxes r.model = .ok fluxes) :
      Retries ode r (r.stepStart fluxes.length) (r.stepStart fluxes.length)
  | accepted {start now next : SolverRun σ α} {entry : TrialRecord α} (h : Retries ode r start now)
      (hleft : now.solver.vars.unfinished = true) (hran : trial ode now = .ok () next)
      (hentry : next.solver.trace.getLast? = some entry) (haccepted : entry.accepted = true) :
      Retries ode r next next
  | rejected {start now next : SolverRun σ α} {entry : TrialRecord α} (h : Retries ode r start now)
      (hleft : now.solver.vars.unfinished = true) (hran : trial ode now = .ok () next)
      (hentry : next.solver.trace.getLast? = some entry) (hrejected : entry.accepted = false) :
      Retries ode r start next

theorem Retries.course (h : Retries ode r start now) : Course ode r now := by
  induction h with
  | start h => exact .start h
  | accepted _ hleft hran _ _ ih => exact ih.trial hleft hran
  | rejected _ hleft hran _ _ ih => exact ih.trial hleft hran

theorem Course.retries (h : Course ode r now) : ∃ start, Retries ode r start now := by
  induction h with
  | start h => exact ⟨_, .start h⟩
  | trial h hleft hran ih =>
    obtain ⟨start, hretries⟩ := ih
    obtain ⟨entry, htrace⟩ := trace_of_trial_ok hran
    have hentry := congrArg List.getLast? htrace
    rw [List.getLast?_concat] at hentry
    cases hdecision : entry.accepted with
    | true => exact ⟨_, hretries.accepted hleft hran hentry hdecision⟩
    | false => exact ⟨start, hretries.rejected hleft hran hentry hdecision⟩

theorem Poised.decidedBy (hode : ode.Follows d) {next : SolverRun σ α} (h : Poised d start now)
    (hran : trial ode now = .ok () next) :
    DecidedBy d (start.departure d (now.solver.vars.nextDt now.solver.settings)) next := by
  obtain ⟨t, hrun, hdecided⟩ := h.trial_ok hode
  rw [hran] at hrun
  cases hrun
  exact hdecided

variable {entry : TrialRecord α}

theorem DecidedBy.accepted_eq (h : DecidedBy d p r)
    (hentry : r.solver.trace.getLast? = some entry) : entry.accepted = (d.decision p).2 := by
  obtain ⟨t, -, rfl⟩ := h
  rw [getLast?_recorded] at hentry
  cases hentry
  rfl

theorem DecidedBy.dt_eq (h : DecidedBy d p r) (hentry : r.solver.trace.getLast? = some entry) :
    entry.dt = p.dt := by
  obtain ⟨t, hdecided, rfl⟩ := h
  rw [getLast?_recorded] at hentry
  cases hentry
  exact hdecided.found.dt

theorem DecidedBy.poised_self (h : DecidedBy d p r) (haccepted : (d.decision p).2 = true)
    (hsum : p.sum.length = d.size) : Poised d r r := by
  obtain ⟨t, hdecided, rfl⟩ := h
  obtain ⟨hsound, -, hadded, -, hready⟩ := hdecided.gone haccepted
  exact ⟨hsound, (congrArg List.length hadded).trans ((length_addUp _ _).trans hsum),
    .inl ⟨rfl, hready⟩⟩

theorem DecidedBy.poised {dt : α} (h : DecidedBy d (start.departure d dt) r)
    (hrejected : (d.decision (start.departure d dt)).2 = false) (hsound : d.Sound start.model)
    (hsum : start.solver.buffers.sum.length = d.size) : Poised d start r := by
  obtain ⟨t, hdecided, rfl⟩ := h
  obtain ⟨hunderway, hready⟩ := hdecided.back hrejected
  exact ⟨hsound, hsum, .inr ⟨hready, dt, { hunderway with }⟩⟩

section

variable (hode : ode.Follows d) (hr : d.Sound r.model)
include hode hr

theorem Retries.poised (h : Retries ode r start now) : Poised d start now := by
  induction h with
  | @start fluxes h =>
    have hfluxes := (hode.fluxes r.model hr).symm.trans h
    cases hfluxes
    exact ⟨hr, List.length_replicate.trans (hode.size r.model hr), .inl ⟨rfl, rfl⟩⟩
  | accepted h hleft hran hentry haccepted ih =>
    have hdecided := ih.decidedBy hode hran
    exact hdecided.poised_self ((hdecided.accepted_eq hentry).symm.trans haccepted)
      (length_fittingSum _ _)
  | rejected h hleft hran hentry hrejected ih =>
    have hdecided := ih.decidedBy hode hran
    exact hdecided.poised ((hdecided.accepted_eq hentry).symm.trans hrejected) ih.sound ih.sum

theorem trials_follow {t : SolverRun σ α} (bound : Nat) (h : Course ode r t) :
    Results (fun _ last => Course ode r last ∧ last.solver.vars.unfinished = false)
      (fun e last => e = .exhausted ∧ Course ode r last) (trials ode bound t) := by
  induction bound generalizing t with
  | zero =>
    cases hleft : t.solver.vars.unfinished with
    | true =>
      rw [trials_zero hleft]
      exact ⟨rfl, h⟩
    | false =>
      rw [trials_done hleft]
      exact ⟨h, hleft⟩
  | succ bound ih =>
    cases hleft : t.solver.vars.unfinished with
    | true =>
      obtain ⟨start, hretries⟩ := h.retries
      obtain ⟨u, hran, -⟩ := (hretries.poised hode hr).trial_ok hode
      rw [trials_succ hleft, run_bind_ok hran]
      exact ih (h.trial hleft hran)
    | false =>
      rw [trials_done hleft]
      exact ⟨h, hleft⟩

/-- A step on a model that follows dynamics fails only when it runs out of trials. A completed one
leaves the integrals of the accepted trials in the fluxes. -/
theorem solve_follows (bound : Nat) :
    Results (fun _ r' => ∃ last, Course ode r last ∧ last.solver.vars.unfinished = false ∧
        r'.solver = last.solver ∧ d.phase r'.model =
          ⟨(d.phase last.model).new, (d.phase last.model).old, last.solver.buffers.sum⟩)
      (fun e r' => e = .exhausted ∧ Course ode r r') (solve ode bound r) := by
  have hfluxes := hode.fluxes r.model hr
  rw [solve_ok hfluxes]
  refine Results.bind ((trials_follow hode hr bound (.start hfluxes)).mono (fun _ last h => ?_)
    fun _ _ h => h)
  obtain ⟨start, hretries⟩ := h.1.retries
  have hpoised := hretries.poised hode hr
  obtain ⟨m, hset, -, hphase⟩ := hode.setFluxes last.model _ hpoised.sound_now hpoised.length_sum
  have hrun : (buffers >>= fun b => onModel (ode.setFluxes b.sum)) last =
      .ok () { last with model := m } := onModel_ok hset
  rw [hrun]
  exact ⟨last, h.1, h.2, rfl, hphase⟩

end

/-- The ends of two trials with the same decision, results and errors. Where they are accepted they
lead to the same states, at the same time and with the same integrals. -/
structure SameTrial (d : Dynamics σ ν α) (entry : TrialRecord α) (r t : SolverRun σ α) :
    Prop where
  record : ∃ dtEst, t.solver.trace.getLast? = some { entry with dtEst := dtEst }
  fluxes : ∀ m, 1 ≤ m → m ≤ entry.order → ∃ row,
    r.solver.buffers.fluxResults[m]? = some row ∧ t.solver.buffers.fluxResults[m]? = some row
  states : ∀ m, 1 ≤ m → m ≤ entry.order → ∃ row,
    r.solver.buffers.stateResults[m]? = some row ∧ t.solver.buffers.stateResults[m]? = some row
  absError : r.solver.vars.absError = t.solver.vars.absError
  relError : r.solver.vars.relError = t.solver.vars.relError
  extraAbsError : r.solver.vars.extraAbsError = t.solver.vars.extraAbsError
  extraRelError : r.solver.vars.extraRelError = t.solver.vars.extraRelError
  accepted : entry.accepted = true → (d.phase r.model).new = (d.phase t.model).new ∧
    (d.phase r.model).old = (d.phase t.model).old ∧ r.solver.buffers.sum = t.solver.buffers.sum ∧
    r.solver.vars.t0 = t.solver.vars.t0

theorem DecidedBy.sameTrial {t : SolverRun σ α} (hr : DecidedBy d p r)
    (hentry : r.solver.trace.getLast? = some entry) (ht : DecidedBy d p t) :
    SameTrial d entry r t := by
  obtain ⟨r, hr, rfl⟩ := hr
  obtain ⟨t, ht, rfl⟩ := ht
  rw [getLast?_recorded] at hentry
  cases hentry
  have herrors := hr.found.errors.trans ht.found.errors.symm
  have hestimates := hr.found.estimates.trans ht.found.estimates.symm
  have habs : r.solver.vars.absError = t.solver.vars.absError := congrArg Prod.fst herrors
  refine ⟨⟨t.solver.vars.dtEst, ?_⟩, fun m hpos hm => ?_, fun m hpos hm => ?_, habs,
    congrArg Prod.snd herrors, congrArg Prod.fst hestimates, congrArg Prod.snd hestimates,
    fun haccepted => ?_⟩
  · rw [habs, hr.found.dt, ← ht.found.dt]
    exact List.getLast?_concat
  · exact ⟨_, hr.results.fluxes m hpos hm, ht.results.fluxes m hpos hm⟩
  · exact ⟨_, hr.results.states m hpos hm, ht.results.states m hpos hm⟩
  · obtain ⟨-, hphase, hsum, ht0, -⟩ := hr.gone haccepted
    obtain ⟨-, hphase', hsum', ht0', -⟩ := ht.gone haccepted
    have hsame : d.phase r.model = d.phase t.model := hphase.trans hphase'.symm
    exact ⟨congrArg Phase.new hsame, congrArg Phase.old hsame, hsum.trans hsum'.symm,
      ht0.trans ht0'.symm⟩

/-- Every record that a step from `r` leaves in `r'` is of a trial that comes out as a fresh one of
its size would, begun where the latest accepted trial before has ended. -/
def FreshRecords (ode : Ode ε σ α) (d : Dynamics σ ν α) (r r' : SolverRun σ α) : Prop :=
  ∀ entry ∈ r'.solver.trace, ∃ start before after fresh, Retries ode r start before ∧
    trial ode before = .ok () after ∧ after.solver.trace = before.solver.trace ++ [entry] ∧
    after.solver.trace <+: r'.solver.trace ∧
    freshTrial ode entry.dt start = .ok () fresh ∧ SameTrial d entry after fresh

theorem Course.freshRecords (hode : ode.Follows d) {last r' : SolverRun σ α} (hr : d.Sound r.model)
    (h : Course ode r last) (htrace : r'.solver.trace = last.solver.trace) :
    FreshRecords ode d r r' := by
  intro entry hentry
  rw [htrace] at hentry ⊢
  obtain ⟨before, after, hcourse, -, hran, hrecord, hinit⟩ := h.records entry hentry
  obtain ⟨start, hretries⟩ := hcourse.retries
  have hpoised := hretries.poised hode hr
  have hdecided := hpoised.decidedBy hode hran
  have hlast : after.solver.trace.getLast? = some entry := by
    rw [hrecord, List.getLast?_concat]
  have hdt := hdecided.dt_eq hlast
  obtain ⟨fresh, hfresh, hdecided'⟩ := freshTrial_ok hode hpoised.sound entry.dt
  rw [hdt] at hfresh hdecided'
  refine ⟨start, before, after, fresh, hretries, hran, hrecord, hinit, ?_, ?_⟩
  · rw [hdt]
    exact hfresh
  · exact hdecided.sameTrial hlast hdecided'

/-- Rejected trials leave no trace: every trial of a step comes out as if it were the first from
where the latest accepted one has ended. -/
theorem solve_tries_afresh (hode : ode.Follows d) (bound : Nat) (r : SolverRun σ α)
    (hr : d.Sound r.model) :
    Results (fun _ r' => FreshRecords ode d r r')
      (fun e r' => e = .exhausted ∧ FreshRecords ode d r r') (solve ode bound r) := by
  refine (solve_follows hode hr bound).mono (fun _ r' h => ?_) fun e r' h => ?_
  · obtain ⟨last, hcourse, -, hsolver, -⟩ := h
    exact hcourse.freshRecords hode hr (congrArg Solver.trace hsolver)
  · exact ⟨h.1, h.2.freshRecords hode hr rfl⟩

end SolverRun

open Exact

namespace SolverRun

def decline [Functions] : SolverRun (LinearSystem Exact) Exact where
  solver := { settings := { Settings.standard with dtDecrease := rational 2 }, vars := .initial }
  model := .start [[rational (-1)]] [rational 1]

theorem decline_decisions :
    letI : Functions := ⟨id, id⟩
    Results (fun _ r' => r'.solver.trace.map (fun entry => (entry.order, entry.accepted)) =
        [(4, false), (4, true), (4, true)])
      (fun _ _ => False) (solve LinearSystem.ode 3 decline) := by
  decide +kernel

/-- The second trial goes on from a rejected one and the third from an accepted one. -/
theorem decline_tries_afresh :
    letI : Functions := ⟨id, id⟩
    letI d := LinearSystem.dynamics [[rational (-1)]]
    LinearSystem.ode.Follows d ∧ d.Sound decline.model ∧
    ∃ r', solve LinearSystem.ode 3 decline = .ok () r' ∧
      r'.solver.trace.map (fun entry => (entry.order, entry.accepted)) =
        [(4, false), (4, true), (4, true)] ∧ FreshRecords LinearSystem.ode d decline r' := by
  let _ : Functions := ⟨id, id⟩
  have hsound : (LinearSystem.dynamics [[rational (-1)]]).Sound decline.model := ⟨rfl, rfl⟩
  have hfresh := solve_tries_afresh (LinearSystem.follows_dynamics _) 3 decline hsound
  obtain ⟨u, r', hrun, hdecisions⟩ := decline_decisions.exists_ok
  rw [hrun] at hfresh
  exact ⟨LinearSystem.follows_dynamics _, hsound, r', hrun, hdecisions, hfresh⟩

end SolverRun

end ProcessModel
