import Mathlib.LinearAlgebra.Matrix.Notation
import ProcessModel.Proofs.Retries
import ProcessModel.Proofs.Vectors

/-! The balance of a step: fluxes account for the change of the states.

Where a model adds its fluxes to the old states, an accepted trial adds the same integrals to the
states and to the sum. Rejected trials touch neither. -/

namespace ProcessModel

open Scalar Exact

namespace SolverRun

variable {ε σ : Type} {n : Nat} [Functions] {ode : Ode ε σ Exact}
  {d : Dynamics σ (List Exact) Exact} {f : (Fin n → ℚ) → Fin n → ℚ} {y₀ y : Fin n → ℚ}
  {tolerance least most : ℚ}

/-- A solver between two trials with the states `y`, in a step that has begun with `y₀`. -/
structure Balanced (d : Dynamics σ (List Exact) Exact) (y₀ y : Fin n → ℚ) (r : SolverRun σ Exact) :
    Prop where
  new : (d.phase r.model).new = vec y
  old : (d.phase r.model).old = vec y
  sum : r.solver.buffers.sum = vec (y - y₀)

theorem DecidedBy.balanced (hd : d.Additive f) {start next : SolverRun σ Exact} {dt : ℚ}
    (hstart : Balanced d y₀ y start) (h : DecidedBy d (start.departure d (rational dt)) next)
    (haccepted : (d.decision (start.departure d (rational dt))).2 = true) :
    ∃ w, Balanced d y₀ (y + w) next := by
  obtain ⟨t, hdecided, rfl⟩ := h
  obtain ⟨-, hphase, hsum, -, -⟩ := hdecided.gone haccepted
  generalize (d.decision (start.departure d (rational dt))).1 = order at hphase hsum ⊢
  have hfirst : (start.departure d (rational dt)).first = vec (f y) :=
    (congrArg d.rate hstart.new).trans (hd.rate y)
  have hintegral := hd.integral_eq rfl hstart.old hfirst order
  have harrival : d.arrival (start.departure d (rational dt)) order =
      vec (y + increment f dt y order) := by
    rw [Dynamics.arrival, hintegral, ← hd.advance, ← hstart.old]
    rfl
  have hbefore : (start.departure d (rational dt)).sum = vec (y - y₀) := by
    rw [← hstart.sum]
    exact if_pos (by rw [hstart.sum, length_vec, hd.size])
  rw [harrival] at hphase
  rw [hintegral, hbefore, addUp_vec, sub_add_eq_add_sub] at hsum
  exact ⟨_, congrArg Phase.new hphase, congrArg Phase.old hphase, hsum⟩

theorem Retries.balanced (hode : ode.Follows d) (hd : d.Additive f)
    {r start now : SolverRun σ Exact} (hs : r.solver.settings.Bounded tolerance least most)
    (hr : d.Sound r.model) (hnew : (d.phase r.model).new = vec y₀)
    (hold : (d.phase r.model).old = vec y₀) (h : Retries ode r start now) :
    ∃ y, Balanced d y₀ y start := by
  induction h with
  | @start fluxes h =>
    have hfluxes := (hode.fluxes r.model hr).symm.trans h
    cases hfluxes
    refine ⟨y₀, hnew, hold, ?_⟩
    rw [sub_self, ← replicate_zero, ← hd.size, ← hode.size r.model hr]
    rfl
  | @accepted start now next entry h hleft hran hentry haccepted ih =>
    obtain ⟨y, hbalanced⟩ := ih
    have hdecided := (h.poised hode hr).decidedBy hode hran
    obtain ⟨dt, hdt, -⟩ := (h.course.exactly hs).nextDt hs hleft
    have hsize : now.solver.vars.nextDt now.solver.settings = rational dt := hdt
    rw [hsize] at hdecided
    obtain ⟨w, hnext⟩ := hdecided.balanced hd hbalanced
      ((hdecided.accepted_eq hentry).symm.trans haccepted)
    exact ⟨_, hnext⟩
  | rejected _ _ _ _ _ ih => exact ih

/-- A completed step ends where its latest accepted trial has ended. -/
theorem Course.balanced (hode : ode.Follows d) (hd : d.Additive f) {r last : SolverRun σ Exact}
    (hs : r.solver.settings.Bounded tolerance least most) (hr : d.Sound r.model)
    (hnew : (d.phase r.model).new = vec y₀) (hold : (d.phase r.model).old = vec y₀)
    (h : Course ode r last) (hdone : last.solver.vars.unfinished = false) :
    ∃ y, Balanced d y₀ y last := by
  obtain ⟨entry, hentry, haccepted⟩ := h.last_accepted hs hdone
  obtain ⟨start, hretries⟩ := h.retries
  have hbalanced := hretries.balanced hode hd hs hr hnew hold
  -- The last trial is accepted, so that its end is the start that the balance is known of.
  cases hretries with
  | start h => exact hbalanced
  | accepted => exact hbalanced
  | rejected _ _ _ hentry' hrejected =>
    rw [hentry] at hentry'
    cases hentry'
    rw [haccepted] at hrejected
    exact absurd hrejected nofun

/-- The fluxes of a completed step are the change of the states, and the old states are the states,
whatever trials the step took. -/
theorem solve_balances (hode : ode.Follows d) (hd : d.Additive f) (bound : Nat)
    (r : SolverRun σ Exact) (hvalid : r.solver.settings.fault? = none) (hr : d.Sound r.model)
    (hnew : (d.phase r.model).new = vec y₀) (hold : (d.phase r.model).old = vec y₀) :
    Results (fun _ r' => ∃ y : Fin n → ℚ, d.phase r'.model = ⟨vec y, vec y, vec (y - y₀)⟩)
      (fun e _ => e = .exhausted) (solve ode bound r) := by
  obtain ⟨tolerance, least, most, hs⟩ := Settings.bounded_of_fault? hvalid
  refine (solve_follows hode hr bound).mono (fun _ r' h => ?_) fun e r' h => h.1
  obtain ⟨last, hcourse, hdone, -, hphase⟩ := h
  obtain ⟨y, hbalanced⟩ := hcourse.balanced hode hd hs hr hnew hold hdone
  rw [hbalanced.new, hbalanced.old, hbalanced.sum] at hphase
  exact ⟨y, hphase⟩

end SolverRun

namespace SolverRun

/-- The balance holds after a rejected trial and two accepted ones. -/
theorem decline_balances :
    letI : Functions := ⟨id, id⟩
    letI A : Matrix (Fin 1) (Fin 1) ℚ := !![-1]
    letI d := LinearSystem.dynamics (LinearSystem.rows A)
    (LinearSystem.ode.Follows d ∧ d.Additive A.mulVec ∧ decline.solver.settings.fault? = none ∧
      d.Sound decline.model ∧ (d.phase decline.model).new = vec ![1] ∧
      (d.phase decline.model).old = vec ![1]) ∧
    ∃ r', solve LinearSystem.ode 3 decline = .ok () r' ∧
      r'.solver.trace.map (fun entry => (entry.order, entry.accepted)) =
        [(4, false), (4, true), (4, true)] ∧
      ∃ y, d.phase r'.model = ⟨vec y, vec y, vec (y - ![1])⟩ := by
  let _ : Functions := ⟨id, id⟩
  let A : Matrix (Fin 1) (Fin 1) ℚ := !![-1]
  have hode := LinearSystem.follows_dynamics (LinearSystem.rows A)
  have hd := LinearSystem.additive_dynamics A
  have hvalid : decline.solver.settings.fault? = none := by decide +kernel
  have hsound : (LinearSystem.dynamics (LinearSystem.rows A)).Sound decline.model := ⟨rfl, rfl⟩
  have hnew : decline.model.new = vec ![1] := rfl
  have hbalances := solve_balances hode hd 3 decline hvalid hsound hnew hnew
  obtain ⟨u, r', hrun, hdecisions⟩ := decline_decisions.exists_ok
  rw [hrun] at hbalances
  exact ⟨⟨hode, hd, hvalid, hsound, hnew, hnew⟩, r', hrun, hdecisions, hbalances⟩

end SolverRun

end ProcessModel
