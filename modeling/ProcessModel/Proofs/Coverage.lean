import Mathlib.Algebra.Order.Archimedean.Basic
import ProcessModel.Proofs.Retries
import ProcessModel.Proofs.Success
import ProcessModel.Proofs.Vectors

/-! A step ends, and its accepted trials cover it.

An accepted trial advances the step by the smallest step size at least, or by all that is left.
Rejected trials divide the step size until it is the smallest one, and a trial of that size is
accepted whatever its errors are. -/

namespace ProcessModel

open Scalar Exact

section Trials

variable {ε σ : Type} [Functions]

theorem Settings.Bounded.factor {s : Settings Exact} {tolerance least most : ℚ}
    (hs : s.Bounded tolerance least most) : ∃ factor : ℚ, 1 < factor ∧
      ∀ d : ℚ, 0 < d → ∃ p, rational d / s.dtDecrease = rational p ∧ p ≤ d / factor := by
  have hdecrease := hs.dtDecrease
  match s.dtDecrease, hdecrease with
  | rational factor, hfactor =>
    have hone : 1 < factor := by simpa using hfactor
    exact ⟨factor, hone, fun d _ => ⟨d / factor, div_rational (by linarith), le_refl _⟩⟩
  | infinite false, _ => exact ⟨2, one_lt_two, fun d hd => ⟨0, rfl, by positivity⟩⟩

namespace SolverRun

variable {s : Settings Exact} {tolerance least most factor : ℚ} {ode : Ode ε σ Exact}

variable {r : SolverRun σ Exact}

/-- The size of the next trial is at least the smallest one, or all that is left. -/
theorem Exactly.nextDt_bounds (h : r.Exactly s) (hs : s.Bounded tolerance least most) {q : ℚ}
    (hq : r.solver.vars.t0 = rational q) :
    ∃ d, r.beginning.dt = rational d ∧ min (1 - q) least ≤ d ∧ d ≤ 1 - q ∧
      ∀ p, r.solver.vars.dtEst = rational p → d ≤ max p least := by
  have hdt : r.beginning.dt = lesser (r.solver.vars.t1 - r.solver.vars.t0)
      (lesser s.relDtMax (greater r.solver.vars.dtEst s.relDtMin)) := by
    rw [← h.settings]
    rfl
  obtain ⟨d, hd, hle⟩ := lesser_greater r.solver.vars.dtEst hs.least_le
  rw [h.t1, hq, one_eq, sub_rational, hs.relDtMax, hs.relDtMin, hd, lesser_rational] at hdt
  refine ⟨min (1 - q) d, hdt, min_le_min_left _ hle, min_le_left _ _, fun p hp => ?_⟩
  rw [hp, greater_rational, lesser_rational, rational.injEq] at hd
  exact (min_le_right _ _).trans (hd ▸ min_le_right _ _)

/-- A trial from `q` with size `d`, its record and where it leads. -/
structure Advances (least factor q d : ℚ) (entry : TrialRecord Exact) (after : SolverRun σ Exact) :
    Prop where
  t0 : entry.t0 = rational q
  dt : entry.dt = rational d
  pos : 0 < d
  progress : min (1 - q) least ≤ d
  accepted : entry.accepted = true → after.solver.vars.t0 = rational (q + d)
  rejected : entry.accepted = false → after.solver.vars.t0 = rational q ∧ least < d ∧
    ∃ p, after.solver.vars.dtEst = rational (max p least) ∧ p ≤ d / factor

theorem advances_of_trial (hs : s.Bounded tolerance least most)
    (hfactor : ∀ d : ℚ, 0 < d → ∃ p, rational d / s.dtDecrease = rational p ∧ p ≤ d / factor)
    {r' : SolverRun σ Exact} (hr : r.Exactly s) (hleft : r.solver.vars.unfinished = true)
    (h : trial ode r = .ok () r') {q d : ℚ} (hq : r.solver.vars.t0 = rational q)
    (hd : r.beginning.dt = rational d) (hprogress : min (1 - q) least ≤ d) :
    ∃ entry, r'.solver.trace = r.solver.trace ++ [entry] ∧ Advances least factor q d entry r' := by
  obtain ⟨-, entry, htrace, hgrounded⟩ := grounded_of_trial hs hr hleft h
  obtain ⟨order, accepted, t, hjudged, rfl⟩ := trial_ok h
  obtain ⟨d', hd', hpos⟩ := hr.nextDt hs hleft
  obtain rfl : d' = d := rational.inj (hd'.symm.trans hd)
  have hstart := hjudged.tried.start
  have hentry := congrArg List.getLast? htrace
  rw [getLast?_recorded, List.getLast?_concat, Option.some.injEq] at hentry
  have hdt : entry.dt = rational d' := by
    rw [← hentry, ← hd, ← TrialStart.decided_dt r.beginning accepted, ← hstart]
    rfl
  refine ⟨entry, htrace, hgrounded.t0.trans hq, hdt, hpos, hprogress, fun haccepted => ?_,
    fun hrejected => ?_⟩
  · have htrue : accepted = true := (congrArg TrialRecord.accepted hentry).trans haccepted
    subst htrue
    have ht0 : t.solver.vars.t0 = r.solver.vars.t0 + r.beginning.dt := congrArg TrialStart.t0 hstart
    rw [hq, hd, add_rational] at ht0
    exact ht0
  · have hfalse : accepted = false := (congrArg TrialRecord.accepted hentry).trans hrejected
    subst hfalse
    obtain ⟨hlarge, -, ht0, -⟩ := hgrounded.rejected hrejected
    obtain ⟨p, hp, hple⟩ := hfactor d' hpos
    have hestimate : t.solver.vars.dtEst =
        greater (r.beginning.dt / r.beginning.settings.dtDecrease) r.beginning.settings.relDtMin :=
      congrArg TrialStart.dtEst hstart
    have hsettings : r.beginning.settings = s := hr.settings
    rw [hsettings, hd, hp, hs.relDtMin, greater_rational] at hestimate
    refine ⟨ht0.trans (hgrounded.t0.trans hq), ?_, p, hestimate, hple⟩
    simpa [hs.relDtMin, hdt] using hlarge

/-- What is ahead of a step: at most `accepts` accepted trials, and at most `rejects` rejected ones
before the next of them. -/
def Ahead (least factor : ℚ) (accepts rejects : Nat) (r : SolverRun σ Exact) : Prop :=
  ∃ q d, r.solver.vars.t0 = rational q ∧ r.beginning.dt = rational d ∧ 0 ≤ q ∧
    1 - q ≤ accepts * least ∧ min (1 - q) least ≤ d ∧ d ≤ least * factor ^ rejects

theorem Ahead.accepts_pos {accepts rejects : Nat} (hr : r.Exactly s)
    (h : Ahead least factor accepts rejects r) (hleft : r.solver.vars.unfinished = true) :
    0 < accepts := by
  obtain ⟨q, d, hq, -, -, haccepts, -, -⟩ := h
  have hbefore : q < 1 - 1 / 100000000000000 := by
    simpa [SolverVars.unfinished, timeEpsilon, hr.t1, hq] using hleft
  by_contra hzero
  obtain rfl : accepts = 0 := by omega
  norm_num at haccepts hbefore
  linarith

theorem Ahead.step (hs : s.Bounded tolerance least most) (hfactor : 1 < factor)
    (hdivide : ∀ d : ℚ, 0 < d → ∃ p, rational d / s.dtDecrease = rational p ∧ p ≤ d / factor)
    {retries accepts rejects : Nat} (hretries : 1 ≤ least * factor ^ retries)
    {r' : SolverRun σ Exact} (hr : r.Exactly s) (hr' : r'.Exactly s)
    (h : Ahead least factor accepts rejects r) (hleft : r.solver.vars.unfinished = true)
    (hran : trial ode r = .ok () r') :
    Ahead least factor (accepts - 1) retries r' ∨
      0 < rejects ∧ Ahead least factor accepts (rejects - 1) r' := by
  have hpos := h.accepts_pos hr hleft
  obtain ⟨q, d, hq, hd, hnonneg, haccepts, hprogress, hrejects⟩ := h
  obtain ⟨entry, -, hadvances⟩ := advances_of_trial hs hdivide hr hleft hran hq hd hprogress
  have hleast := hs.least_pos
  cases hdecision : entry.accepted with
  | true =>
    have hq' := hadvances.accepted hdecision
    obtain ⟨d', hd', hprogress', hle, -⟩ := hr'.nextDt_bounds hs hq'
    obtain ⟨accepts, rfl⟩ : ∃ n, accepts = n + 1 := ⟨accepts - 1, by omega⟩
    have hd_pos := hadvances.pos
    refine .inl ⟨q + d, d', hq', hd', by linarith, ?_, hprogress', by linarith⟩
    rw [Nat.add_sub_cancel]
    push_cast at haccepts
    rcases min_le_iff.1 hprogress with hall | hsome
    · have hsteps : 0 ≤ accepts * least := by positivity
      linarith
    · linarith
  | false =>
    obtain ⟨hq', hlarge, p, hestimate, hp⟩ := hadvances.rejected hdecision
    obtain ⟨d', hd', hprogress', -, hle⟩ := hr'.nextDt_bounds hs hq'
    have hrejects_pos : 0 < rejects := by
      by_contra hzero
      obtain rfl : rejects = 0 := by omega
      rw [pow_zero, mul_one] at hrejects
      linarith
    obtain ⟨rejects, rfl⟩ : ∃ n, rejects = n + 1 := ⟨rejects - 1, by omega⟩
    refine .inr ⟨hrejects_pos, q, d', hq', hd', hnonneg, haccepts, hprogress', ?_⟩
    have hpower : 1 ≤ factor ^ rejects := one_le_pow₀ hfactor.le
    have hsmallest : least ≤ least * factor ^ rejects := le_mul_of_one_le_right hleast.le hpower
    have hdivided : d / factor ≤ least * factor ^ rejects := by
      rw [div_le_iff₀ (by linarith), mul_assoc, ← pow_succ]
      exact hrejects
    rw [Nat.add_sub_cancel]
    calc d' ≤ max (max p least) least := hle _ hestimate
      _ ≤ least * factor ^ rejects := max_le (max_le (hp.trans hdivided) hsmallest) hsmallest

variable {last : SolverRun σ Exact}

theorem Course.ahead (hs : r.solver.settings.Bounded tolerance least most) (hfactor : 1 < factor)
    (hdivide : ∀ d : ℚ, 0 < d →
      ∃ p, rational d / r.solver.settings.dtDecrease = rational p ∧ p ≤ d / factor)
    {steps retries : Nat} (hsteps : 1 ≤ steps * least) (hretries : 1 ≤ least * factor ^ retries)
    (h : Course ode r last) : ∃ accepts rejects, rejects ≤ retries ∧
      Ahead least factor accepts rejects last ∧
      last.solver.trace.length + accepts * (retries + 1) + rejects ≤
        steps * (retries + 1) + retries := by
  induction h with
  | @start fluxes h =>
    have ht0 : (r.stepStart fluxes.length).solver.vars.t0 = rational 0 := zero_eq
    obtain ⟨d, hd, hprogress, hle, -⟩ := (exactly_stepStart _ r).nextDt_bounds hs ht0
    refine ⟨steps, retries, le_refl _, ⟨0, d, ht0, hd, le_refl _, by linarith, hprogress,
      by linarith⟩, ?_⟩
    simp [stepStart]
  | @trial t t' h hleft hran ih =>
    obtain ⟨accepts, rejects, hle, hahead, hcount⟩ := ih
    have ht := h.exactly hs
    have hpos := hahead.accepts_pos ht hleft
    obtain ⟨entry, htrace⟩ := trace_of_trial_ok hran
    rw [htrace, List.length_append, List.length_singleton]
    obtain ⟨accepts, rfl⟩ : ∃ n, accepts = n + 1 := ⟨accepts - 1, by omega⟩
    rw [Nat.succ_mul] at hcount
    rcases hahead.step hs hfactor hdivide hretries ht ((h.trial hleft hran).exactly hs) hleft hran
      with haccepted | ⟨hrejects, hrejected⟩
    · exact ⟨accepts, retries, le_refl _, haccepted, by omega⟩
    · refine ⟨accepts + 1, rejects - 1, by omega, hrejected, ?_⟩
      rw [Nat.succ_mul]
      omega

/-- Settings bound the number of trials, whatever the model is and wherever it starts. -/
theorem exists_trace_bound (hvalid : s.fault? = none) : ∃ most : Nat,
    ∀ {ε σ : Type} (ode : Ode ε σ Exact) (r last : SolverRun σ Exact),
      r.solver.settings = s → Course ode r last → last.solver.trace.length ≤ most ∧
        (last.solver.vars.unfinished = true → last.solver.trace.length < most) := by
  obtain ⟨tolerance, least, most, hs⟩ := Settings.bounded_of_fault? hvalid
  obtain ⟨factor, hfactor, hdivide⟩ := hs.factor
  obtain ⟨steps, hsteps⟩ := exists_nat_ge (1 / least)
  obtain ⟨retries, hretries⟩ := pow_unbounded_of_one_lt (1 / least) hfactor
  rw [div_le_iff₀ hs.least_pos] at hsteps
  rw [div_lt_iff₀' hs.least_pos] at hretries
  refine ⟨steps * (retries + 1) + retries, fun ode r last hsettings hcourse => ?_⟩
  subst hsettings
  obtain ⟨accepts, rejects, -, hahead, hcount⟩ :=
    hcourse.ahead hs hfactor hdivide hsteps hretries.le
  refine ⟨by omega, fun hleft => ?_⟩
  have hpos : retries + 1 ≤ accepts * (retries + 1) :=
    Nat.le_mul_of_pos_left _ (hahead.accepts_pos (hcourse.exactly hs) hleft)
  omega

/-- Trials of a step up to time `q`, in their order: an accepted trial starts where the accepted one
before it has ended, and a rejected trial is followed by one with the same start. -/
structure Tiling (records : List (TrialRecord Exact)) (q : ℚ) : Prop where
  accepted : (records.filter (·.accepted)).IsChain fun entry next => next.t0 = entry.t0 + entry.dt
  rejected : records.IsChain fun entry next => entry.accepted = false → next.t0 = entry.t0
  first : ∀ entry ∈ (records.filter (·.accepted)).head?, entry.t0 = zero
  reached : ∀ entry ∈ (records.filter (·.accepted)).getLast?, entry.t0 + entry.dt = rational q
  repeated : ∀ entry ∈ records.getLast?, entry.accepted = false → entry.t0 = rational q
  positive : ∀ entry ∈ records, less zero entry.dt = true
  sizes : ∃ ds : List ℚ, (records.filter (·.accepted)).map (·.dt) = ds.map rational ∧ ds.sum = q

theorem tiling_nil : Tiling [] 0 where
  accepted := .nil
  rejected := .nil
  first := by simp
  reached := by simp
  repeated := by simp
  positive := by simp
  sizes := ⟨[], rfl, rfl⟩

variable {records : List (TrialRecord Exact)} {entry : TrialRecord Exact} {q d : ℚ}

theorem Tiling.positive_concat (h : Tiling records q) (hdt : entry.dt = rational d) (hpos : 0 < d) :
    ∀ e ∈ records ++ [entry], less zero e.dt = true := by
  intro e he
  rcases List.mem_append.1 he with hearlier | hnow
  · exact h.positive e hearlier
  · obtain rfl := List.mem_singleton.1 hnow
    simpa [hdt] using hpos

section

variable (h : Tiling records q) (ht0 : entry.t0 = rational q)
include h ht0

theorem Tiling.rejected_concat :
    (records ++ [entry]).IsChain fun e next => e.accepted = false → next.t0 = e.t0 := by
  refine List.isChain_append.2 ⟨h.rejected, .singleton _, fun e he next hnext hrejected => ?_⟩
  obtain rfl := Option.some.inj hnext
  rw [ht0, h.repeated e he hrejected]

theorem Tiling.accept (hdt : entry.dt = rational d) (hpos : 0 < d)
    (haccepted : entry.accepted = true) : Tiling (records ++ [entry]) (q + d) := by
  have hfilter : (records ++ [entry]).filter (·.accepted) =
      records.filter (·.accepted) ++ [entry] := by simp [haccepted]
  obtain ⟨ds, hds, hsum⟩ := h.sizes
  refine ⟨?_, h.rejected_concat ht0, ?_, ?_, ?_, h.positive_concat hdt hpos, ds ++ [d], ?_, ?_⟩
  · rw [hfilter]
    refine List.isChain_append.2 ⟨h.accepted, .singleton _, fun e he next hnext => ?_⟩
    obtain rfl := Option.some.inj hnext
    rw [ht0, h.reached e he]
  · rw [hfilter, List.head?_append]
    intro e he
    cases hempty : records.filter (·.accepted) with
    | nil =>
      rw [hempty] at he hds
      obtain rfl := Option.some.inj he
      obtain rfl : ds = [] := by simpa using hds.symm
      rw [ht0, ← hsum, List.sum_nil, zero_eq]
    | cons first rest =>
      rw [hempty] at he
      refine h.first e ?_
      rw [hempty]
      exact he
  · rw [hfilter, List.getLast?_concat]
    intro e he
    obtain rfl := Option.some.inj he
    rw [ht0, hdt, add_rational]
  · rw [List.getLast?_concat]
    intro e he hrejected
    obtain rfl := Option.some.inj he
    rw [haccepted] at hrejected
    exact absurd hrejected nofun
  · rw [hfilter, List.map_append, hds, List.map_append, List.map_singleton, hdt, List.map_singleton]
  · rw [List.sum_append, hsum, List.sum_singleton]

theorem Tiling.reject (hdt : entry.dt = rational d) (hpos : 0 < d)
    (hrejected : entry.accepted = false) : Tiling (records ++ [entry]) q := by
  have hfilter : (records ++ [entry]).filter (·.accepted) = records.filter (·.accepted) := by
    simp [hrejected]
  refine ⟨?_, h.rejected_concat ht0, ?_, ?_, ?_, h.positive_concat hdt hpos, ?_⟩
  · rw [hfilter]
    exact h.accepted
  · rw [hfilter]
    exact h.first
  · rw [hfilter]
    exact h.reached
  · rw [List.getLast?_concat]
    intro e he _
    obtain rfl := Option.some.inj he
    exact ht0
  · rw [hfilter]
    exact h.sizes

end

theorem Course.tiling (hs : r.solver.settings.Bounded tolerance least most) (h : Course ode r last)
    : ∃ q, last.solver.vars.t0 = rational q ∧ q ≤ 1 ∧ Tiling last.solver.trace q := by
  induction h with
  | start h => exact ⟨0, zero_eq, zero_le_one, tiling_nil⟩
  | @trial t t' h hleft hran ih =>
    obtain ⟨q, hq, -, htiling⟩ := ih
    obtain ⟨factor, -, hdivide⟩ := hs.factor
    have ht := h.exactly hs
    obtain ⟨d, hd, hprogress, hle, -⟩ := ht.nextDt_bounds hs hq
    obtain ⟨entry, htrace, hadvances⟩ :=
      advances_of_trial hs hdivide ht hleft hran hq hd hprogress
    have hpos := hadvances.pos
    rw [htrace]
    cases hdecision : entry.accepted with
    | true =>
      exact ⟨q + d, hadvances.accepted hdecision, by linarith,
        htiling.accept hadvances.t0 hadvances.dt hpos hdecision⟩
    | false =>
      exact ⟨q, (hadvances.rejected hdecision).1, by linarith,
        htiling.reject hadvances.t0 hadvances.dt hpos hdecision⟩

/-- The trials of a completed step: the accepted ones follow each other without a gap from its start
to its end, or to where less is left than counts. A rejected trial has a successor with the same
start. -/
structure Covers (records : List (TrialRecord Exact)) : Prop where
  first : ∃ entry, (records.filter (·.accepted)).head? = some entry ∧ entry.t0 = zero
  accepted : (records.filter (·.accepted)).IsChain fun entry next => next.t0 = entry.t0 + entry.dt
  rejected : records.IsChain fun entry next => entry.accepted = false → next.t0 = entry.t0
  last : ∃ entry, records.getLast? = some entry ∧ entry.accepted = true
  positive : ∀ entry ∈ records, less zero entry.dt = true
  sum : ∃ q : ℚ, total ((records.filter (·.accepted)).map (·.dt)) = rational q ∧
    1 - 1 / 100000000000000 ≤ q ∧ q ≤ 1

theorem Course.covers (hs : r.solver.settings.Bounded tolerance least most) (h : Course ode r last)
    (hdone : last.solver.vars.unfinished = false) : Covers last.solver.trace := by
  obtain ⟨q, hq, hle, htiling⟩ := h.tiling hs
  obtain ⟨entry, hentry, haccepted⟩ := h.last_accepted hs hdone
  have hmem : entry ∈ last.solver.trace.filter (·.accepted) :=
    List.mem_filter.2 ⟨List.mem_of_getLast? hentry, haccepted⟩
  have hend : 1 - 1 / 100000000000000 ≤ q := by
    simpa [SolverVars.unfinished, timeEpsilon, (h.exactly hs).t1, hq] using hdone
  refine ⟨?_, htiling.accepted, htiling.rejected, ⟨entry, hentry, haccepted⟩, htiling.positive, ?_⟩
  · cases hfirst : (last.solver.trace.filter (·.accepted)).head? with
    | none =>
      rw [List.head?_eq_none_iff] at hfirst
      rw [hfirst] at hmem
      exact absurd hmem List.not_mem_nil
    | some first => exact ⟨first, rfl, htiling.first first hfirst⟩
  · obtain ⟨ds, hds, hsum⟩ := htiling.sizes
    exact ⟨q, by rw [hds, total_rational, hsum], hend, hle⟩

/-- A step ends: settings bound the number of its trials, also where it fails. Where the actions of the
model succeed and its flux vectors have one length, a step that may take so many trials is completed.
The accepted trials of a completed step cover it. -/
theorem solve_covers (s : Settings Exact) (hvalid : s.fault? = none) : ∃ most : Nat,
    ∀ {ε σ : Type} (ode : Ode ε σ Exact) (r : SolverRun σ Exact), r.solver.settings = s →
      (∀ bound, Results
        (fun _ r' => r'.solver.trace.length ≤ most ∧ Covers r'.solver.trace)
        (fun _ r' => r'.solver.trace.length ≤ most) (solve ode bound r)) ∧
      ∀ (Sound : σ → Prop) (size : Nat), ode.Succeeds Sound size → Sound r.model →
        ∀ bound, most ≤ bound → ∃ r', solve ode bound r = .ok () r' := by
  obtain ⟨tolerance, least, largest, hs⟩ := Settings.bounded_of_fault? hvalid
  obtain ⟨most, hmost⟩ := exists_trace_bound hvalid
  refine ⟨most, fun ode r hsettings => ⟨fun bound => ?_, fun Sound size hode hr bound hbound => ?_⟩⟩
  · refine (solve_results bound r).mono (fun _ r' h => ?_) fun _ r' h => ?_
    · obtain ⟨last, hcourse, hdone, hsolver⟩ := h
      rw [hsolver]
      exact ⟨(hmost ode r last hsettings hcourse).1, hcourse.covers (hsettings ▸ hs) hdone⟩
    · rcases h with hempty | ⟨last, hcourse, htrace⟩
      · rw [hempty]
        exact Nat.zero_le _
      · rw [htrace]
        exact (hmost ode r last hsettings hcourse).1
  · refine solve_succeeds hode hr fun last hcourse hleft => ?_
    exact lt_of_lt_of_le ((hmost ode r last hsettings hcourse).2 hleft) hbound

end SolverRun

end Trials

namespace SolverRun

/-- A rejected trial and two accepted ones cover a step. -/
theorem decline_covers :
    letI : Functions := ⟨id, id⟩
    letI d := LinearSystem.dynamics [[rational (-1)]]
    decline.solver.settings.fault? = none ∧ LinearSystem.ode.Succeeds d.Sound d.size ∧
    d.Sound decline.model ∧ ∃ most : Nat,
      (∀ bound, most ≤ bound → ∃ r', solve LinearSystem.ode bound decline = .ok () r') ∧
      ∃ r', solve LinearSystem.ode 3 decline = .ok () r' ∧
        r'.solver.trace.map (fun entry => (entry.order, entry.accepted)) =
          [(4, false), (4, true), (4, true)] ∧
        r'.solver.trace.length ≤ most ∧ Covers r'.solver.trace := by
  let _ : Functions := ⟨id, id⟩
  have hvalid : decline.solver.settings.fault? = none := by decide +kernel
  have hode := (LinearSystem.follows_dynamics [[rational (-1)]]).succeeds
  have hsound : (LinearSystem.dynamics [[rational (-1)]]).Sound decline.model := ⟨rfl, rfl⟩
  obtain ⟨most, hmost⟩ := solve_covers decline.solver.settings hvalid
  obtain ⟨hcovers, hends⟩ := hmost LinearSystem.ode decline rfl
  obtain ⟨u, r', hrun, hdecisions⟩ := decline_decisions.exists_ok
  have hcovered := hcovers 3
  rw [hrun] at hcovered
  exact ⟨hvalid, hode, hsound, most, hends _ _ hode hsound, r', hrun, hdecisions, hcovered⟩

-- The actions succeed, but from the second evaluation on there are no fluxes.
example :
    letI : Functions := ⟨id, id⟩
    letI ode : Ode Empty Nat Exact := {
      singleTerms := modify (· + 1)
      fullTerms := pure ()
      fluxes := fun n => .ok (if n < 2 then [zero] else [])
      setFluxes := fun _ => pure ()
      states := fun _ => .ok [zero]
      newToOld := pure () }
    Results (fun _ _ => False) (fun e _ => e = Stop.outOfRange)
      (solve ode 1 ⟨decline.solver, 0⟩) := by
  decide +kernel

end SolverRun

end ProcessModel
