import ProcessModel.Proofs.Coverage

/-! How step sizes adapt.

The estimate for the next trial starts at the largest step size and stays between its bounds. An
accepted trial keeps it or, once enough trials in a row are accepted, lets it grow up to the largest
step size; a rejected trial leaves less than its own size. -/

namespace ProcessModel

open Scalar

section Records

variable {α : Type}

def estimateAfter (s : Settings α) (records : List (TrialRecord α)) : α :=
  (records.getLast?.map (·.dtEst)).getD s.relDtMax

/-- The number of accepted trials since the start or the last rejection. -/
def acceptedInRow (records : List (TrialRecord α)) : Nat :=
  (records.reverse.takeWhile (·.accepted)).length

@[simp] theorem estimateAfter_nil (s : Settings α) : estimateAfter s [] = s.relDtMax := rfl

@[simp] theorem estimateAfter_concat (s : Settings α) (records : List (TrialRecord α))
    (entry : TrialRecord α) : estimateAfter s (records ++ [entry]) = entry.dtEst := by
  simp [estimateAfter]

@[simp] theorem acceptedInRow_nil : acceptedInRow ([] : List (TrialRecord α)) = 0 := rfl

@[simp] theorem acceptedInRow_concat (records : List (TrialRecord α)) (entry : TrialRecord α) :
    acceptedInRow (records ++ [entry]) =
      if entry.accepted then acceptedInRow records + 1 else 0 := by
  cases haccepted : entry.accepted <;> simp [acceptedInRow, haccepted]

variable [Scalar α]

/-- The size of a trial and the estimate after it, where `before` are the trials before it. -/
structure AdaptsTo (s : Settings α) (before : List (TrialRecord α)) (entry : TrialRecord α) :
    Prop where
  positive : less zero entry.dt = true
  most : atMost entry.dt s.relDtMax = true
  least : atMost (lesser s.relDtMin (one - entry.t0)) entry.dt = true
  estimate_least : atMost s.relDtMin entry.dtEst = true
  estimate_most : atMost entry.dtEst s.relDtMax = true
  accepted : entry.accepted = true → atMost (estimateAfter s before) entry.dtEst = true
  grows : less (estimateAfter s before) entry.dtEst = true ↔
    s.acceptsBeforeGrowth ≤ acceptedInRow (before ++ [entry]) ∧
      less (estimateAfter s before) s.relDtMax = true
  rejected : entry.accepted = false → less entry.dtEst entry.dt = true

/-- Every trial of a step is sized and followed by an estimate as the trials before it ask for. -/
def Adapts (s : Settings α) (records : List (TrialRecord α)) : Prop :=
  ∀ before entry, before ++ [entry] <+: records → AdaptsTo s before entry

theorem adapts_nil (s : Settings α) : Adapts s [] := by
  intro before entry h
  simp at h

theorem Adapts.concat {s : Settings α} {records : List (TrialRecord α)} {entry : TrialRecord α}
    (h : Adapts s records) (hentry : AdaptsTo s records entry) : Adapts s (records ++ [entry]) := by
  intro before e hprefix
  rcases List.prefix_concat_iff.1 hprefix with hall | hearlier
  · obtain ⟨rfl, heq⟩ := List.append_inj' hall rfl
    obtain rfl := List.singleton_inj.1 heq
    exact hentry
  · exact h before e hearlier

end Records

open Exact

section Sizes

variable [Functions]

namespace Settings

theorem dtIncrease_of_fault? {s : Settings Exact} (h : s.fault? = none) :
    less one s.dtIncrease = true ∧ s.acceptsBeforeGrowth ≠ 0 := by
  simp only [fault?, Option.or_eq_none_iff] at h
  obtain ⟨-, -, -, -, hrest⟩ := h
  split_ifs at hrest with horder hlong hfactors hgrowth
  exact ⟨by simpa using (not_or.1 (mt Bool.or_eq_true_iff.2 hfactors)).1, hgrowth⟩

end Settings

theorem Exact.lesser_mul {p : ℚ} (most : ℚ) {a : Exact} (hp : 0 < p) (ha : less one a = true) :
    ∃ q, lesser (rational p * a) (rational most) = rational q ∧ q ≤ most ∧
      (p < most → p < q) ∧ (most ≤ p → q = most) := by
  match a with
  | rational f =>
    have hf : 1 < f := by simpa using ha
    have hgrown : p < p * f := lt_mul_of_one_lt_right hp hf
    refine ⟨min (p * f) most, ?_, min_le_right _ _, fun h => lt_min hgrown h, fun h => ?_⟩
    · rw [mul_rational, lesser_rational]
    · exact min_eq_right (h.trans hgrown.le)
  | infinite false =>
    have hscaled : rational p * infinite false = infinite false := by
      change scale false p = _
      rw [scale, if_neg hp.ne', decide_eq_false hp.not_gt]
      rfl
    refine ⟨most, ?_, le_refl _, id, fun _ => rfl⟩
    rw [hscaled]
    rfl

namespace TrialStart

variable {s : Settings Exact} {tolerance least most p d : ℚ} {c : TrialStart Exact}

theorem accept_estimate (hs : s.Bounded tolerance least most)
    (hincrease : less one s.dtIncrease = true) (hc : c.settings = s) (hp : c.dtEst = rational p)
    (hd : c.dt = rational d) (hleast : least ≤ p) (hmost : p ≤ most) (hsize : d ≤ p) :
    ∃ q, c.accept.dtEst = rational q ∧ p ≤ q ∧ q ≤ most ∧
      (p < q ↔ s.acceptsBeforeGrowth ≤ c.accepted + 1 ∧ p < most) := by
  have hpos : 0 < p := lt_of_lt_of_le hs.least_pos hleast
  have hdtEst : c.accept.dtEst = if s.acceptsBeforeGrowth ≤ c.accepted + 1 then
      lesser (greater c.dtEst c.dt * s.dtIncrease) s.relDtMax else c.dtEst := by
    rw [← hc]
    rfl
  rw [hp, hd, greater_rational, max_eq_left hsize, hs.relDtMax] at hdtEst
  by_cases henough : s.acceptsBeforeGrowth ≤ c.accepted + 1
  · rw [if_pos henough] at hdtEst
    obtain ⟨q, hq, hle, hgrows, hfull⟩ := lesser_mul most hpos hincrease
    refine ⟨q, hdtEst.trans hq, ?_, hle, fun h => ⟨henough, lt_of_lt_of_le h hle⟩,
      fun h => hgrows h.2⟩
    rcases hmost.lt_or_eq with hbelow | hat
    · exact (hgrows hbelow).le
    · exact hat.le.trans (hfull hat.ge).ge
  · rw [if_neg henough] at hdtEst
    exact ⟨p, hdtEst, le_refl _, hmost, fun h => absurd h (lt_irrefl _), fun h => absurd h.1 henough⟩

theorem reject_estimate (hs : s.Bounded tolerance least most) (hc : c.settings = s)
    (hd : c.dt = rational d) (hpos : 0 < d) (hmost : d ≤ most) :
    ∃ q, c.reject.dtEst = rational q ∧ least ≤ q ∧ q ≤ most := by
  obtain ⟨q, hq, hlt⟩ := less_div hpos hs.dtDecrease
  refine ⟨max q least, ?_, le_max_right _ _, max_le (hlt.le.trans hmost) hs.least_le⟩
  rw [TrialStart.reject, hc, hd, hq, hs.relDtMin, greater_rational]

end TrialStart

theorem adaptsTo_of_rational {s : Settings Exact} {tolerance least most q d p e : ℚ}
    {before : List (TrialRecord Exact)} {entry : TrialRecord Exact}
    (hs : s.Bounded tolerance least most) (ht0 : entry.t0 = rational q) (hdt : entry.dt = rational d)
    (hestimate : entry.dtEst = rational e) (hbefore : estimateAfter s before = rational p)
    (hsize : 0 < d ∧ d ≤ most ∧ min (1 - q) least ≤ d) (hbounds : least ≤ e ∧ e ≤ most)
    (haccepted : entry.accepted = true → p ≤ e)
    (hgrows : p < e ↔ s.acceptsBeforeGrowth ≤ acceptedInRow (before ++ [entry]) ∧ p < most)
    (hrejected : entry.accepted = false → e < d) : AdaptsTo s before entry where
  positive := by simpa [hdt] using hsize.1
  most := by simpa [hdt, hs.relDtMax] using hsize.2.1
  least := by
    rw [hs.relDtMin, ht0, hdt, one_eq, sub_rational, lesser_rational, min_comm]
    simpa using hsize.2.2
  estimate_least := by simpa [hestimate, hs.relDtMin] using hbounds.1
  estimate_most := by simpa [hestimate, hs.relDtMax] using hbounds.2
  accepted h := by simpa [hbefore, hestimate] using haccepted h
  grows := by
    rw [hbefore, hestimate, hs.relDtMax, less_rational, less_rational, decide_eq_true_eq,
      decide_eq_true_eq]
    exact hgrows
  rejected h := by simpa [hestimate, hdt] using hrejected h

namespace SolverRun

variable {ε σ : Type} {s : Settings Exact} {tolerance least most : ℚ} {ode : Ode ε σ Exact}

variable {r r' : SolverRun σ Exact}

/-- The record of a trial says how it was decided, and the solver goes on from that decision. -/
theorem record_of_trial (h : trial ode r = .ok () r') :
    ∃ entry, r'.solver.trace = r.solver.trace ++ [entry] ∧ entry.dt = r.beginning.dt ∧
      entry.dtEst = (r.beginning.decided entry.accepted).dtEst ∧
      r'.solver.vars.dtEst = entry.dtEst ∧
      r'.solver.vars.accepted = (r.beginning.decided entry.accepted).accepted := by
  obtain ⟨order, accepted, t, hjudged, rfl⟩ := trial_ok h
  have hstart := hjudged.tried.start
  have htrace := congrArg TrialStart.trace hstart
  have hdt := congrArg TrialStart.dt hstart
  rw [TrialStart.decided_trace] at htrace
  rw [TrialStart.decided_dt] at hdt
  exact ⟨_, congrArg (· ++ _) htrace, hdt, congrArg TrialStart.dtEst hstart, rfl,
    congrArg TrialStart.accepted hstart⟩

/-- A solver between two trials: its estimate and its count are those of the records so far, and
these adapt. -/
structure Paced (s : Settings Exact) (least most : ℚ) (r : SolverRun σ Exact) : Prop where
  estimate : ∃ p, r.solver.vars.dtEst = rational p ∧ least ≤ p ∧ p ≤ most
  latest : estimateAfter s r.solver.trace = r.solver.vars.dtEst
  inRow : acceptedInRow r.solver.trace = r.solver.vars.accepted
  adapts : Adapts s r.solver.trace

theorem paced_stepStart (n : Nat) (r : SolverRun σ Exact)
    (hs : r.solver.settings.Bounded tolerance least most) :
    Paced r.solver.settings least most (r.stepStart n) where
  estimate := ⟨most, hs.relDtMax, hs.least_le, le_refl _⟩
  latest := rfl
  inRow := rfl
  adapts := adapts_nil _

theorem Paced.concat {entry : TrialRecord Exact} {e : ℚ} (h : Paced s least most r)
    (htrace : r'.solver.trace = r.solver.trace ++ [entry])
    (hestimate : r'.solver.vars.dtEst = entry.dtEst) (he : entry.dtEst = rational e)
    (hbounds : least ≤ e ∧ e ≤ most)
    (hinRow : acceptedInRow (r.solver.trace ++ [entry]) = r'.solver.vars.accepted)
    (hadapts : AdaptsTo s r.solver.trace entry) : Paced s least most r' where
  estimate := ⟨e, hestimate.trans he, hbounds⟩
  latest := by rw [htrace, estimateAfter_concat, hestimate]
  inRow := htrace ▸ hinRow
  adapts := htrace ▸ h.adapts.concat hadapts

theorem Paced.trial (hs : s.Bounded tolerance least most) (hincrease : less one s.dtIncrease = true)
    (hgrowth : s.acceptsBeforeGrowth ≠ 0) (hr : r.Exactly s) (h : Paced s least most r)
    (hleft : r.solver.vars.unfinished = true) (hran : SolverRun.trial ode r = .ok () r') :
    Paced s least most r' := by
  obtain ⟨q, hq⟩ := hr.t0
  obtain ⟨p, hp, hleast, hmost⟩ := h.estimate
  obtain ⟨d, hd, hprogress, -, hlimit⟩ := hr.nextDt_bounds hs hq
  obtain ⟨d', hd', hpos⟩ := hr.nextDt hs hleft
  obtain rfl : d = d' := rational.inj (hd.symm.trans hd')
  have hsize : d ≤ p := (hlimit p hp).trans (max_le (le_refl p) hleast)
  obtain ⟨-, entry, htrace, hgrounded⟩ := grounded_of_trial hs hr hleft hran
  obtain ⟨entry', htrace', hdt, hdtEst, hestimate, haccepted⟩ := record_of_trial hran
  obtain rfl : entry = entry' := by simpa using htrace.symm.trans htrace'
  have hsettings : r.beginning.settings = s := hr.settings
  have hbefore : estimateAfter s r.solver.trace = rational p := h.latest.trans hp
  have ht0 : entry.t0 = rational q := hgrounded.t0.trans hq
  have hsizes : 0 < d ∧ d ≤ most ∧ min (1 - q) least ≤ d := ⟨hpos, hsize.trans hmost, hprogress⟩
  cases hdecision : entry.accepted with
  | true =>
    rw [hdecision] at hdtEst haccepted
    have hinRow : acceptedInRow (r.solver.trace ++ [entry]) = r.solver.vars.accepted + 1 := by
      rw [acceptedInRow_concat, if_pos hdecision, h.inRow]
    obtain ⟨e, he, hkept, hle, hgrows⟩ :=
      TrialStart.accept_estimate hs hincrease hsettings hp hd hleast hmost hsize
    have hbounds : least ≤ e ∧ e ≤ most := ⟨hleast.trans hkept, hle⟩
    refine h.concat htrace hestimate (hdtEst.trans he) hbounds (hinRow.trans haccepted.symm) ?_
    exact adaptsTo_of_rational hs ht0 (hdt.trans hd) (hdtEst.trans he) hbefore hsizes hbounds
      (fun _ => hkept) (hinRow ▸ hgrows) fun hfalse => absurd (hdecision.symm.trans hfalse) (by decide)
  | false =>
    rw [hdecision] at hdtEst haccepted
    have hinRow : acceptedInRow (r.solver.trace ++ [entry]) = 0 := by
      rw [acceptedInRow_concat, hdecision, if_neg (by decide)]
    obtain ⟨e, he, hbounds⟩ := TrialStart.reject_estimate hs hsettings hd hpos hsizes.2.1
    have hsmaller : e < d := by
      simpa [hdtEst.trans he, hdt.trans hd] using (hgrounded.rejected hdecision).2.2.2
    refine h.concat htrace hestimate (hdtEst.trans he) hbounds (hinRow.trans haccepted.symm) ?_
    refine adaptsTo_of_rational hs ht0 (hdt.trans hd) (hdtEst.trans he) hbefore hsizes hbounds
      (fun htrue => absurd (hdecision.symm.trans htrue) (by decide)) ?_ fun _ => hsmaller
    -- A rejected trial ends the row of accepted ones, and its estimate is below the one before.
    rw [hinRow]
    exact ⟨fun hlt => absurd hlt (hsmaller.trans_le hsize).not_gt,
      fun hrow => absurd (Nat.le_zero.1 hrow.1) hgrowth⟩

theorem Course.paced {last : SolverRun σ Exact} (hvalid : r.solver.settings.fault? = none)
    (hs : r.solver.settings.Bounded tolerance least most) (h : Course ode r last) :
    Paced r.solver.settings least most last := by
  obtain ⟨hincrease, hgrowth⟩ := Settings.dtIncrease_of_fault? hvalid
  induction h with
  | start h => exact paced_stepStart _ r hs
  | trial h hleft hran ih => exact ih.trial hs hincrease hgrowth (h.exactly hs) hleft hran

/-- Every trial of a step is sized within its bounds and the estimates between the trials adapt to
the decisions, also where a failure ends the step. Where the actions of the model succeed and its flux
vectors have one length, a step is completed within a number of trials. -/
theorem solve_adapts_step_sizes (ode : Ode ε σ Exact) (r : SolverRun σ Exact)
    (hvalid : r.solver.settings.fault? = none) :
    (∀ bound, Results (fun _ r' => r'.solver.trace ≠ [] ∧ Adapts r.solver.settings r'.solver.trace)
      (fun _ r' => Adapts r.solver.settings r'.solver.trace) (solve ode bound r)) ∧
    ∀ (Sound : σ → Prop) (size : Nat), ode.Succeeds Sound size → Sound r.model →
      ∃ most, ∀ bound, most ≤ bound → ∃ r', solve ode bound r = .ok () r' := by
  obtain ⟨tolerance, least, largest, hs⟩ := Settings.bounded_of_fault? hvalid
  obtain ⟨most, hmost⟩ := exists_trace_bound hvalid
  refine ⟨fun bound => ?_, fun Sound size hode hr => ⟨most, fun bound hbound => ?_⟩⟩
  · refine (solve_results bound r).mono (fun _ r' h => ?_) fun _ r' h => ?_
    · obtain ⟨last, hcourse, hdone, hsolver⟩ := h
      obtain ⟨entry, hentry, -⟩ := hcourse.last_accepted hs hdone
      rw [hsolver]
      exact ⟨List.ne_nil_of_mem (List.mem_of_getLast? hentry), (hcourse.paced hvalid hs).adapts⟩
    · rcases h with hempty | ⟨last, hcourse, htrace⟩
      · rw [hempty]
        exact adapts_nil _
      · rw [htrace]
        exact (hcourse.paced hvalid hs).adapts
  · refine solve_succeeds hode hr fun last hcourse hleft => ?_
    exact lt_of_lt_of_le ((hmost ode r last rfl hcourse).2 hleft) hbound

end SolverRun

end Sizes

namespace SolverRun

def subsidence [Functions] : SolverRun (LinearSystem Exact) Exact where
  solver :=
    { settings :=
        { Settings.standard with
          absErrorMax := rational (1 / 1000)
          relDtMin := rational (1 / 10)
          dtDecrease := rational 4
          acceptsBeforeGrowth := 2 }
      vars := .initial }
  model := .start [[rational (-1)]] [rational 1]

theorem subsidence_estimates :
    letI : Functions := ⟨id, id⟩
    Results (fun _ r' => r'.solver.trace.map (fun entry => (entry.accepted, entry.dtEst)) =
        [(false, rational (1 / 4)), (true, rational (1 / 4)), (true, rational (1 / 2)),
          (false, rational (1 / 8)), (true, rational (1 / 8)), (true, rational (1 / 4)),
          (true, rational (1 / 2))])
      (fun _ _ => False) (solve LinearSystem.ode 7 subsidence) := by
  decide +kernel

/-- The first accepted trial after a rejected one keeps the estimate, the second lets it grow. -/
theorem subsidence_adapts_step_sizes :
    letI : Functions := ⟨id, id⟩
    letI d := LinearSystem.dynamics [[rational (-1)]]
    LinearSystem.ode.Succeeds d.Sound d.size ∧ d.Sound subsidence.model ∧
    subsidence.solver.settings.fault? = none ∧
    (∃ most, ∀ bound, most ≤ bound → ∃ r', solve LinearSystem.ode bound subsidence = .ok () r') ∧
    ∃ r', solve LinearSystem.ode 7 subsidence = .ok () r' ∧
      r'.solver.trace.map (fun entry => (entry.accepted, entry.dtEst)) =
        [(false, rational (1 / 4)), (true, rational (1 / 4)), (true, rational (1 / 2)),
          (false, rational (1 / 8)), (true, rational (1 / 8)), (true, rational (1 / 4)),
          (true, rational (1 / 2))] ∧
      Adapts subsidence.solver.settings r'.solver.trace := by
  let _ : Functions := ⟨id, id⟩
  have hode := (LinearSystem.follows_dynamics [[rational (-1)]]).succeeds
  have hsound : (LinearSystem.dynamics [[rational (-1)]]).Sound subsidence.model := ⟨rfl, rfl⟩
  have hvalid : subsidence.solver.settings.fault? = none := by decide +kernel
  obtain ⟨hadapts, hends⟩ := solve_adapts_step_sizes LinearSystem.ode subsidence hvalid
  obtain ⟨u, r', hrun, hestimates⟩ := subsidence_estimates.exists_ok
  have hresults := hadapts 7
  rw [hrun] at hresults
  exact ⟨hode, hsound, hvalid, hends _ _ hode hsound, r', hrun, hestimates, hresults.2⟩

end SolverRun

end ProcessModel
