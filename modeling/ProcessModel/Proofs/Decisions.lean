import ProcessModel.Proofs.Exact
import ProcessModel.Proofs.Trials
import ProcessModel.Solver.Linear

/-! The grounds on which a solver with exact numbers decides its trials.

The settings that pass their check bound every trial by rational numbers. -/

namespace ProcessModel

open Scalar

section Grounds

variable [Exact.Functions]

namespace Exact

theorem div_rational {p q : ℚ} (h : q ≠ 0) : rational p / rational q = rational (p / q) :=
  if_neg h

theorem less_of_not_atMost {p q : ℚ} (h : atMost (rational p) (rational q) = false) :
    less (rational q) (rational p) = true := by
  simpa using h

theorem lesser_greater (a : Exact) {least most : ℚ} (h : least ≤ most) :
    ∃ q, lesser (rational most) (greater a (rational least)) = rational q ∧ least ≤ q := by
  have hgreater : greater a (rational least) = infinite false ∨
      ∃ p, greater a (rational least) = rational p ∧ least ≤ p := by
    match a with
    | rational p => exact .inr ⟨max p least, greater_rational p least, le_max_right p least⟩
    | infinite false => exact .inl rfl
    | infinite true => exact .inr ⟨least, rfl, le_refl least⟩
    | undefined => exact .inr ⟨least, rfl, le_refl least⟩
  rcases hgreater with hinfinite | ⟨p, hp, hle⟩
  · refine ⟨most, ?_, h⟩
    rw [hinfinite]
    simp [lesser, less, isLess]
  · refine ⟨min most p, ?_, le_min h hle⟩
    rw [hp, lesser_rational]

theorem less_div {p : ℚ} {a : Exact} (hp : 0 < p) (ha : less one a = true) :
    ∃ q, rational p / a = rational q ∧ q < p := by
  match a with
  | rational q =>
    have hq : 1 < q := by simpa using ha
    have hpos : 0 < q := lt_trans one_pos hq
    exact ⟨p / q, div_rational hpos.ne', div_lt_self hp hq⟩
  | infinite false => exact ⟨0, rfl, hp⟩

end Exact

open Exact

namespace Settings

/-- Settings with a rational tolerance and rational bounds of the step size. -/
structure Bounded (s : Settings Exact) (tolerance least most : ℚ) : Prop where
  absErrorMax : s.absErrorMax = rational tolerance
  relDtMin : s.relDtMin = rational least
  relDtMax : s.relDtMax = rational most
  tolerance_pos : 0 < tolerance
  least_pos : 0 < least
  least_le : least ≤ most
  dtDecrease : less one s.dtDecrease = true

theorem rational_of_positiveFault? {name : String} {a : Exact} (h : positiveFault? name a = none) :
    ∃ q, a = rational q ∧ 0 < q := by
  unfold positiveFault? at h
  split_ifs at h with hpositive
  obtain ⟨hfinite, hless⟩ := Bool.and_eq_true_iff.1 hpositive
  obtain ⟨q, rfl⟩ := finite_iff.1 hfinite
  exact ⟨q, rfl, by simpa using hless⟩

theorem bounded_of_fault? {s : Settings Exact} (h : s.fault? = none) :
    ∃ tolerance least most, s.Bounded tolerance least most := by
  simp only [fault?, Option.or_eq_none_iff] at h
  obtain ⟨herror, -, hmin, hmax, hrest⟩ := h
  obtain ⟨tolerance, htolerance, htolerance_pos⟩ := rational_of_positiveFault? herror
  obtain ⟨least, hleast, hleast_pos⟩ := rational_of_positiveFault? hmin
  obtain ⟨most, hmost, -⟩ := rational_of_positiveFault? hmax
  split_ifs at hrest with horder hlong hfactors hgrowth
  refine ⟨tolerance, least, most, htolerance, hleast, hmost, htolerance_pos, hleast_pos, ?_, ?_⟩
  · simpa [hleast, hmost] using horder
  · simpa using (not_or.1 (mt Bool.or_eq_true_iff.2 hfactors)).2

end Settings

variable {ε σ : Type}

/-- The bounds of a step: its settings, its end and the rational start of the next trial. -/
structure SolverRun.Exactly (s : Settings Exact) (r : SolverRun σ Exact) : Prop where
  settings : r.solver.settings = s
  t1 : r.solver.vars.t1 = one
  useRelError : r.solver.vars.useRelError = s.relErrorMax.isSome
  t0 : ∃ q, r.solver.vars.t0 = rational q

namespace SolverRun

variable {s : Settings Exact} {tolerance least most : ℚ} {ode : Ode ε σ Exact}

theorem exactly_stepStart (n : Nat) (r : SolverRun σ Exact) :
    Exactly r.solver.settings (r.stepStart n) :=
  ⟨rfl, rfl, rfl, 0, zero_eq⟩

theorem unfinished_stepStart (n : Nat) (r : SolverRun σ Exact) :
    (r.stepStart n).solver.vars.unfinished = true := by
  norm_num [stepStart, SolverVars.startStep, SolverVars.unfinished, timeEpsilon]

variable {r : SolverRun σ Exact}

theorem Exactly.nextDt (h : r.Exactly s) (hs : s.Bounded tolerance least most)
    (hleft : r.solver.vars.unfinished = true) : ∃ d, r.beginning.dt = rational d ∧ 0 < d := by
  obtain ⟨q, hq⟩ := h.t0
  have hbefore : q < 1 := by
    have hless : q < 1 - 1 / 100000000000000 := by
      simpa [SolverVars.unfinished, timeEpsilon, h.t1, hq] using hleft
    linarith
  obtain ⟨d, hd, hle⟩ := lesser_greater r.solver.vars.dtEst hs.least_le
  refine ⟨min (1 - q) d, ?_, lt_min (sub_pos.2 hbefore) (lt_of_lt_of_le hs.least_pos hle)⟩
  have hdt : r.beginning.dt = lesser (r.solver.vars.t1 - r.solver.vars.t0)
      (lesser s.relDtMax (greater r.solver.vars.dtEst s.relDtMin)) := by
    rw [← h.settings]
    rfl
  rw [hdt, h.t1, hq, hs.relDtMax, hs.relDtMin, hd]
  simp

/-- The record of a trial between two states, and the grounds of its decision. -/
structure Grounded (s : Settings Exact) (entry : TrialRecord Exact)
    (before after : SolverRun σ Exact) : Prop where
  t0 : entry.t0 = before.solver.vars.t0
  dtEst : entry.dtEst = after.solver.vars.dtEst
  errors : (entry.absError, after.solver.vars.relError) =
    errorsOf s.relErrorMax.isSome entry.order after
  accepted : entry.accepted = true → atMost entry.absError s.absErrorMax = true ∨
    (∃ most, s.relErrorMax = some most ∧ atMost after.solver.vars.relError most = true) ∨
    entry.order = RungeKutta.methods ∧ atMost entry.dt s.relDtMin = true
  rejected : entry.accepted = false → less s.relDtMin entry.dt = true ∧ 3 ≤ entry.order ∧
    after.solver.vars.t0 = entry.t0 ∧ less entry.dtEst entry.dt = true

variable {order : Nat}

theorem three_le_of_extrapolate (hs : s.Bounded tolerance least most) {error last : Exact}
    {methods : Nat} (h : less s.absErrorMax (extrapolate error last methods order) = true) :
    3 ≤ order := by
  by_contra hlow
  have hnone : extrapolate error last methods order = noEstimate := if_pos (by omega)
  rw [hnone, hs.absErrorMax, noEstimate, ratio_eq, less_rational, decide_eq_true_eq] at h
  norm_num at h
  linarith [hs.tolerance_pos]

theorem tolerable_iff {v : SolverVars Exact} : v.tolerable s = true ↔
    atMost v.absError s.absErrorMax = true ∨
      ∃ most, s.relErrorMax = some most ∧ atMost v.relError most = true := by
  cases hmax : s.relErrorMax <;> simp [SolverVars.tolerable, hmax]

section

variable (hs : s.Bounded tolerance least most)
include hs

theorem less_reject {c : TrialStart Exact} {d : ℚ} (hc : c.settings = s) (hdt : c.dt = rational d)
    (hpos : 0 < d) (hleast : less s.relDtMin c.dt = true) : less c.reject.dtEst c.dt = true := by
  obtain ⟨q, hq, hlt⟩ := less_div hpos hs.dtDecrease
  have hlow : least < d := by simpa [hs.relDtMin, hdt] using hleast
  have hestimate : c.reject.dtEst = rational (max q least) := by
    rw [TrialStart.reject, hc, hdt, hq, hs.relDtMin, greater_rational]
  rw [hestimate, hdt, less_rational, decide_eq_true_eq]
  exact max_lt hlt hlow

theorem Judged.exactly {t : SolverRun σ Exact} {accepted : Bool} (hr : r.Exactly s)
    (hleft : r.solver.vars.unfinished = true) (h : Judged r.beginning order accepted t) :
    t.Exactly s := by
  have hstart := h.tried.start
  refine ⟨?_, ?_, ?_, ?_⟩
  · have hsettings := congrArg TrialStart.settings hstart
    rw [TrialStart.decided_settings] at hsettings
    exact hsettings.trans hr.settings
  · have ht1 := congrArg TrialStart.t1 hstart
    rw [TrialStart.decided_t1] at ht1
    exact ht1.trans hr.t1
  · have huse := congrArg TrialStart.useRelError hstart
    rw [TrialStart.decided_useRelError] at huse
    exact huse.trans hr.useRelError
  · obtain ⟨d, hd, -⟩ := hr.nextDt hs hleft
    obtain ⟨q, hq⟩ := hr.t0
    cases accepted with
    | true =>
      have ht0 : t.solver.vars.t0 = r.solver.vars.t0 + r.beginning.dt :=
        congrArg TrialStart.t0 hstart
      exact ⟨q + d, by rw [ht0, hq, hd, add_rational]⟩
    | false => exact ⟨q, (congrArg TrialStart.t0 hstart).trans hq⟩

theorem Judged.grounded {t : SolverRun σ Exact} {accepted : Bool} (hr : r.Exactly s)
    (hleft : r.solver.vars.unfinished = true) (h : Judged r.beginning order accepted t) :
    Grounded s ⟨r.solver.vars.t0, t.solver.vars.dt, order, accepted, t.solver.vars.absError,
      t.solver.vars.dtEst⟩ r (recorded r.solver.vars.t0 order accepted t) := by
  have hsettings : r.beginning.settings = s := hr.settings
  have hdt : t.solver.vars.dt = r.beginning.dt :=
    (congrArg TrialStart.dt h.tried.start).trans (TrialStart.decided_dt _ _)
  refine ⟨rfl, rfl, ?_, fun haccepted => ?_, fun hrejected => ?_⟩
  · have herrors := h.tried.errors
    rw [TrialStart.decided_useRelError] at herrors
    exact herrors.trans (congrArg (errorsOf · order t) hr.useRelError)
  · have hgrounds := h.grounds haccepted
    rw [hsettings, tolerable_iff, or_assoc, ← hdt] at hgrounds
    exact hgrounds
  · obtain ⟨d, hd, hpos⟩ := hr.nextDt hs hleft
    have hdoubts := h.doubts hrejected
    rw [hsettings] at hdoubts
    have hlarge : less s.relDtMin r.beginning.dt = true ∧ 3 ≤ order := by
      rcases hdoubts with ⟨hlarge, last, hextra⟩ | ⟨rfl, hlarge⟩
      · exact ⟨hlarge, three_le_of_extrapolate hs hextra⟩
      · rw [hd, hs.relDtMin] at hlarge ⊢
        exact ⟨less_of_not_atMost hlarge, by decide⟩
    obtain rfl : accepted = false := hrejected
    have hestimate : t.solver.vars.dtEst = r.beginning.reject.dtEst :=
      congrArg TrialStart.dtEst h.tried.start
    have hsmaller := less_reject hs hsettings hd hpos hlarge.1
    refine ⟨?_, hlarge.2, congrArg TrialStart.t0 h.tried.start, ?_⟩
    · rw [hdt]
      exact hlarge.1
    · rw [hdt, hestimate]
      exact hsmaller

theorem grounded_of_trial {r' : SolverRun σ Exact} (hr : r.Exactly s)
    (hleft : r.solver.vars.unfinished = true) (h : trial ode r = .ok () r') :
    r'.Exactly s ∧ ∃ entry, r'.solver.trace = r.solver.trace ++ [entry] ∧ Grounded s entry r r' := by
  obtain ⟨order, accepted, t, hjudged, rfl⟩ := trial_ok h
  obtain ⟨hsettings, ht1, huse, ht0⟩ := hjudged.exactly hs hr hleft
  have htrace := congrArg TrialStart.trace hjudged.tried.start
  rw [TrialStart.decided_trace] at htrace
  exact ⟨⟨hsettings, ht1, huse, ht0⟩, _, congrArg (· ++ _) htrace, hjudged.grounded hs hr hleft⟩

end

variable {last : SolverRun σ Exact}

section

variable (hs : r.solver.settings.Bounded tolerance least most) (h : Course ode r last)
include hs h

theorem Course.exactly : last.Exactly r.solver.settings := by
  induction h with
  | start h => exact exactly_stepStart _ r
  | trial h hleft hran ih => exact (grounded_of_trial hs ih hleft hran).1

/-- A completed step ends with an accepted trial, as a rejected one leaves as much of the step. -/
theorem Course.last_accepted (hdone : last.solver.vars.unfinished = false) :
    ∃ entry, last.solver.trace.getLast? = some entry ∧ entry.accepted = true := by
  cases h with
  | start h =>
    rw [unfinished_stepStart] at hdone
    exact absurd hdone nofun
  | trial h hleft hran =>
    have hbefore := h.exactly hs
    obtain ⟨hafter, entry, htrace, hgrounded⟩ := grounded_of_trial hs hbefore hleft hran
    refine ⟨entry, by rw [htrace, List.getLast?_concat], ?_⟩
    by_contra hrejected
    have ht0 := (hgrounded.rejected (Bool.eq_false_of_not_eq_true hrejected)).2.2.1
    rw [SolverVars.unfinished, ht0, hgrounded.t0, hafter.t1, ← hbefore.t1] at hdone
    rw [SolverVars.unfinished, hdone] at hleft
    exact absurd hleft nofun

/-- The records that a step from `r` leaves in `r'` are those of its trials, in their order, and each
trial is decided on its grounds. -/
def GroundedRecords (ode : Ode ε σ Exact) (r r' : SolverRun σ Exact) : Prop :=
  ∀ entry ∈ r'.solver.trace, ∃ before after, Course ode r before ∧
    trial ode before = .ok () after ∧ after.solver.trace = before.solver.trace ++ [entry] ∧
    after.solver.trace <+: r'.solver.trace ∧ Grounded r.solver.settings entry before after

theorem Course.groundedRecords {r' : SolverRun σ Exact}
    (htrace : r'.solver.trace = last.solver.trace) : GroundedRecords ode r r' := by
  intro entry hentry
  rw [htrace] at hentry ⊢
  obtain ⟨before, after, hcourse, hleft, hran, hrecord, hinit⟩ := h.records entry hentry
  obtain ⟨-, found, hfound, hgrounded⟩ :=
    grounded_of_trial hs (hcourse.exactly hs) hleft hran
  rw [hrecord, List.append_cancel_left_eq, List.singleton_inj] at hfound
  subst hfound
  exact ⟨before, after, hcourse, hran, hrecord, hinit, hgrounded⟩

end

/-- Every record of a step has the grounds of its decision, also where a failure ends the step, and
a completed step ends with an accepted trial. -/
theorem solve_decides_on_grounds (ode : Ode ε σ Exact) (bound : Nat) (r : SolverRun σ Exact)
    (hvalid : r.solver.settings.fault? = none) :
    Results (fun _ r' => GroundedRecords ode r r' ∧
        ∃ last, r'.solver.trace.getLast? = some last ∧ last.accepted = true)
      (fun _ r' => GroundedRecords ode r r') (solve ode bound r) := by
  obtain ⟨tolerance, least, most, hs⟩ := Settings.bounded_of_fault? hvalid
  refine (solve_results bound r).mono (fun _ r' h => ?_) fun _ r' h => ?_
  · obtain ⟨last, hcourse, hdone, hsolver⟩ := h
    refine ⟨hcourse.groundedRecords hs (congrArg Solver.trace hsolver), ?_⟩
    rw [hsolver]
    exact hcourse.last_accepted hs hdone
  · rcases h with hempty | ⟨last, hcourse, htrace⟩
    · rw [GroundedRecords, hempty]
      nofun
    · exact hcourse.groundedRecords hs htrace

end SolverRun

end Grounds

open Exact

namespace SolverRun

def decay [Functions] : SolverRun (LinearSystem Exact) Exact where
  solver := { settings := .standard, vars := .initial }
  model := .start [[rational (-5)]] [rational 1]

/-- Trials of every order from the second on occur, and trials are rejected at the third and at the
fourth order. -/
theorem decay_decides_on_grounds :
    letI : Exact.Functions := ⟨id, id⟩
    (Settings.standard : Settings Exact).fault? = none ∧
    ∃ r', solve LinearSystem.ode 13 decay = .ok () r' ∧
      r'.solver.trace.map (fun entry => (entry.order, entry.accepted)) =
        [(3, false), (4, true), (4, false), (2, true), (3, true), (3, true), (4, true), (3, false),
          (2, true), (2, true), (3, true), (4, true), (2, true)] ∧
      GroundedRecords LinearSystem.ode decay r' ∧
      ∃ last, r'.solver.trace.getLast? = some last ∧ last.accepted = true := by
  let _ : Exact.Functions := ⟨id, id⟩
  have hvalid : (Settings.standard : Settings Exact).fault? = none := by decide +kernel
  have hgrounds := solve_decides_on_grounds LinearSystem.ode 13 decay hvalid
  have hdecisions : (match solve LinearSystem.ode 13 decay with
      | .ok _ r' => r'.solver.trace.map fun entry => (entry.order, entry.accepted)
      | .error _ _ => []) =
      [(3, false), (4, true), (4, false), (2, true), (3, true), (3, true), (4, true), (3, false),
        (2, true), (2, true), (3, true), (4, true), (2, true)] := by
    decide +kernel
  refine ⟨hvalid, ?_⟩
  cases hrun : solve LinearSystem.ode 13 decay with
  | ok u r' =>
    rw [hrun] at hdecisions hgrounds
    exact ⟨r', rfl, hdecisions, hgrounds⟩
  | error e r' =>
    rw [hrun] at hdecisions
    exact absurd hdecisions nofun

end SolverRun

end ProcessModel
